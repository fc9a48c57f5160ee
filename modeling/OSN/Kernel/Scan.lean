import OSN.Kernel.Harts
import OSN.Lib.Run

/-!
# Schedulers that scan the whole table

The FCFS and the PBS scheduler have the same loop: it goes through the table,
keeps the lock of the best RUNNABLE process met so far, `low`, and releases
the others; then it runs `low`.  `ScanRule` is what differs, and `scan` is the
machine, on any number of harts, with one visit of a slot a step.  A visit has
to wait for `p->lock` while another hart holds it for its own `low`.
-/

namespace Xv6

/-- What distinguishes the schedulers that scan the table. -/
structure ScanRule where
  /-- What the scan writes to a RUNNABLE process. -/
  visit : Proc → Proc
  /-- Does a process take the place of `low`? -/
  beats : Proc → Proc → Bool
  /-- What is written to the process that is dispatched. -/
  give : UInt32 → Proc → Proc
  visit_state : ∀ p, (visit p).state = p.state
  give_state : ∀ now p, (give now p).state = .running

/-- The state of a kernel whose scheduler scans the table. -/
structure Scan (n : Nat) extends Sys n where
  /-- The slot that the scan of hart `h` visits next; `NPROC` after the last. -/
  cursor : Fin n → Nat
  /-- `low` of hart `h`, with `low->lock` held. -/
  low : Fin n → Option Slot

/-- A process event, or the next step of the scheduler of hart `h`. -/
inductive ScanEvent (n : Nat) where
  | proc (e : ProcEvent n)
  | scheduler (h : Fin n)
  deriving DecidableEq

/-- Is the event a clock tick? -/
def ScanEvent.isTick {n : Nat} : ScanEvent n → Bool
  | .proc e => e.isTick
  | .scheduler _ => false

namespace Scan

variable {n : Nat}

/-- The processes of a state. -/
abbrev proc (s : Scan n) (i : Slot) : Proc := s.kernel.proc i

/-- Change one process. -/
def modifyProc (s : Scan n) (i : Slot) (f : Proc → Proc) : Scan n :=
  { s with kernel := s.kernel.modify i f }

/-- Change `low` of hart `h`. -/
def setLow (s : Scan n) (h : Fin n) (low : Option Slot) : Scan n :=
  { s with low := Function.update s.low h low }

/-- Move the scan of hart `h`. -/
def setCursor (s : Scan n) (h : Fin n) (cursor : Nat) : Scan n :=
  { s with cursor := Function.update s.cursor h cursor }

/-- There is no `low` yet, or slot `i` takes its place. -/
def Better (rule : ScanRule) (s : Scan n) (h : Fin n) (i : Slot) : Prop :=
  ∀ j ∈ s.low h, rule.beats (s.proc i) (s.proc j) = true

instance (rule : ScanRule) (s : Scan n) (h : Fin n) (i : Slot) :
    Decidable (s.Better rule h i) := by
  unfold Better
  infer_instance

/-- The body of the loop over the table, with `p->lock` free. -/
def visitSlot (rule : ScanRule) (s : Scan n) (h : Fin n) (i : Slot) : Scan n :=
  if (s.proc i).state = .runnable then
    let s := s.modifyProc i rule.visit
    if s.Better rule h i then s.setLow h (some i) else s
  else s

/-- Run `low`, which is slot `i`. -/
def dispatch (rule : ScanRule) (s : Scan n) (h : Fin n) (i : Slot) : Scan n :=
  let s := ((s.modifyProc i (rule.give s.kernel.ticks)).setLow h none).setCursor h 0
  { s with cpu := Function.update s.cpu h (some i) }

/-- Another hart holds the lock of slot `i`. -/
def Locked (s : Scan n) (h : Fin n) (i : Slot) : Prop :=
  ∃ h', h' ≠ h ∧ s.low h' = some i

instance (s : Scan n) (h : Fin n) (i : Slot) : Decidable (s.Locked h i) := by
  unfold Locked
  infer_instance

/-- The next step of the scheduler of hart `h`, which must not be running a
process. -/
def schedulerStep (rule : ScanRule) (s : Scan n) (h : Fin n) : Option (Scan n) :=
  if s.cpu h = none then
    if hi : s.cursor h < NPROC then
      if s.Locked h ⟨s.cursor h, hi⟩ then none
      else some ((s.visitSlot rule h ⟨s.cursor h, hi⟩).setCursor h (s.cursor h + 1))
    else
      match s.low h with
      | none => some (s.setCursor h 0)
      | some i => some (s.dispatch rule h i)
  else none

/-- A step of the kernel. -/
def step (rule : ScanRule) (s : Scan n) : ScanEvent n → Option (Scan n)
  | .proc e => (s.toSys.procStep (fun _ p => p) e).map fun t => { s with toSys := t }
  | .scheduler h => s.schedulerStep rule h

/-- After `main`: `userinit` has run and every hart enters its scheduler. -/
def boot (n : Nat) : Scan n where
  kernel := userinit
  cpu := fun _ => none
  cursor := fun _ => 0
  low := fun _ => none

end Scan

/-- The machine of a kernel that scans the table by `rule`, on `n` harts. -/
def scan (rule : ScanRule) (n : Nat) : Machine (Scan n) (ScanEvent n) where
  init s := s = Scan.boot n
  step := Scan.step rule

/-- The scheduler of hart `h` alone, for `k` steps. -/
def scanning {n : Nat} (h : Fin n) (k : Nat) : List (ScanEvent n) :=
  List.replicate k (.scheduler h)

namespace Scan

variable {n : Nat} {rule : ScanRule} {s t : Scan n} {e : ScanEvent n} {h h' : Fin n}
  {i j p : Slot}

/-! ### What the parts of a step leave alone -/

@[simp] theorem modifyProc_proc_self {f : Proc → Proc} :
    (s.modifyProc i f).proc i = f (s.proc i) := by
  simp [proc, modifyProc]

@[simp] theorem modifyProc_proc_of_ne {f : Proc → Proc} (hj : j ≠ i) :
    (s.modifyProc i f).proc j = s.proc j := by
  simp [proc, modifyProc, hj]

theorem modifyProc_id : s.modifyProc i id = s := by
  have hproc : (fun j => if j = i then id (s.kernel.proc i) else s.kernel.proc j) =
      s.kernel.proc := by
    funext j
    by_cases hj : j = i
    · rw [if_pos hj, hj, id]
    · rw [if_neg hj]
  rw [modifyProc, Kernel.modify, hproc]

@[simp] theorem setLow_proc {low : Option Slot} : (s.setLow h low).proc i = s.proc i := rfl

@[simp] theorem setCursor_proc {c : Nat} : (s.setCursor h c).proc i = s.proc i := rfl

@[simp] theorem modifyProc_low {f : Proc → Proc} : (s.modifyProc i f).low = s.low := rfl

@[simp] theorem setLow_low {low : Option Slot} :
    (s.setLow h low).low = Function.update s.low h low := rfl

@[simp] theorem setCursor_low {c : Nat} : (s.setCursor h c).low = s.low := rfl

@[simp] theorem modifyProc_cpu {f : Proc → Proc} : (s.modifyProc i f).cpu = s.cpu := rfl

@[simp] theorem setLow_cpu {low : Option Slot} : (s.setLow h low).cpu = s.cpu := rfl

@[simp] theorem setCursor_cpu {c : Nat} : (s.setCursor h c).cpu = s.cpu := rfl

@[simp] theorem modifyProc_cursor {f : Proc → Proc} :
    (s.modifyProc i f).cursor = s.cursor := rfl

@[simp] theorem setLow_cursor {low : Option Slot} : (s.setLow h low).cursor = s.cursor := rfl

@[simp] theorem setCursor_cursor {c : Nat} :
    (s.setCursor h c).cursor = Function.update s.cursor h c := rfl

@[simp] theorem dispatch_proc_self :
    (s.dispatch rule h i).proc i = rule.give s.kernel.ticks (s.proc i) := by
  simp [proc, dispatch, modifyProc, setLow, setCursor]

@[simp] theorem dispatch_proc_of_ne (hj : j ≠ i) :
    (s.dispatch rule h i).proc j = s.proc j := by
  simp [proc, dispatch, modifyProc, setLow, setCursor, hj]

@[simp] theorem dispatch_cpu :
    (s.dispatch rule h i).cpu = Function.update s.cpu h (some i) := rfl

@[simp] theorem dispatch_low : (s.dispatch rule h i).low = Function.update s.low h none := rfl

@[simp] theorem dispatch_cursor :
    (s.dispatch rule h i).cursor = Function.update s.cursor h 0 := rfl

/-! ### The scheduler step, inverted -/

/-- **What a step of the scheduler of hart `h` can be.** -/
inductive Change (rule : ScanRule) (s : Scan n) (h : Fin n) (t : Scan n) : Prop
  /-- The slot is not RUNNABLE. -/
  | passed {i : Slot} (hi : i.val = s.cursor h) (hskip : (s.proc i).state ≠ .runnable)
      (ht : t = s.setCursor h (s.cursor h + 1))
  /-- The slot becomes `low`. -/
  | taken {i : Slot} (hi : i.val = s.cursor h) (hfree : ¬ s.Locked h i)
      (hrun : (s.proc i).state = .runnable) (hbetter : (s.modifyProc i rule.visit).Better rule h i)
      (ht : t = ((s.modifyProc i rule.visit).setLow h (some i)).setCursor h (s.cursor h + 1))
  /-- The slot is RUNNABLE but does not become `low`. -/
  | beaten {i j : Slot} (hi : i.val = s.cursor h) (hfree : ¬ s.Locked h i)
      (hrun : (s.proc i).state = .runnable) (hlow : s.low h = some j)
      (hworse : ¬ rule.beats ((s.modifyProc i rule.visit).proc i)
        ((s.modifyProc i rule.visit).proc j) = true)
      (ht : t = (s.modifyProc i rule.visit).setCursor h (s.cursor h + 1))
  /-- Nothing was RUNNABLE. -/
  | again (hend : NPROC ≤ s.cursor h) (hlow : s.low h = none) (ht : t = s.setCursor h 0)
  /-- `low` is dispatched. -/
  | dispatched {i : Slot} (hend : NPROC ≤ s.cursor h) (hlow : s.low h = some i)
      (ht : t = s.dispatch rule h i)

theorem schedulerStep_cases (ht : s.schedulerStep rule h = some t) :
    s.cpu h = none ∧ Change rule s h t := by
  by_cases hcpu : s.cpu h = none
  · refine ⟨hcpu, ?_⟩
    simp only [schedulerStep, hcpu, if_true] at ht
    split at ht
    case isTrue hi =>
        split at ht
        case isTrue => simp at ht
        case isFalse hfree =>
            obtain rfl := Option.some.inj ht
            by_cases hrun : (s.proc ⟨s.cursor h, hi⟩).state = .runnable
            · by_cases hbetter : (s.modifyProc ⟨s.cursor h, hi⟩ rule.visit).Better rule h
                  ⟨s.cursor h, hi⟩
              · exact .taken rfl hfree hrun hbetter (by simp [visitSlot, hrun, hbetter])
              · obtain ⟨j, hj, hworse⟩ : ∃ j, s.low h = some j ∧
                    ¬ rule.beats ((s.modifyProc ⟨s.cursor h, hi⟩ rule.visit).proc
                      ⟨s.cursor h, hi⟩)
                      ((s.modifyProc ⟨s.cursor h, hi⟩ rule.visit).proc j) = true := by
                  simpa [Better] using hbetter
                exact .beaten rfl hfree hrun hj hworse (by simp [visitSlot, hrun, hbetter])
            · exact .passed rfl hrun (by simp [visitSlot, hrun])
    case isFalse hend =>
        cases hlow : s.low h with
        | none => exact .again (Nat.not_lt.mp hend) hlow (by simpa [hlow, eq_comm] using ht)
        | some i => exact .dispatched (Nat.not_lt.mp hend) hlow (by simpa [hlow, eq_comm] using ht)
  · simp [schedulerStep, hcpu] at ht

end Scan

/-! ### Who holds what during a scan -/

/-- **The lock of `low`.**  A hart that has a `low` is scanning beyond it, the
process is RUNNABLE, and no other hart has the same `low`. -/
structure ScanHolds {n : Nat} (s : Scan n) : Prop where
  hosted : Hosted s.toSys
  idle : ∀ h, s.cpu h ≠ none → s.cursor h = 0
  behind : ∀ h i, s.low h = some i → i.val < s.cursor h
  runnable : ∀ h i, s.low h = some i → (s.proc i).state = .runnable
  unique : ∀ h h' i, s.low h = some i → s.low h' = some i → h = h'

/-- A process event leaves a RUNNABLE process where it is, at most marked. -/
theorem Hosted.eq_mark {n : Nat} {after : UInt32 → Proc → Proc} {s t : Sys n}
    {e : ProcEvent n} (hs : Hosted s) (h : s.procStep after e = some t) {i : Slot}
    (hrun : (s.kernel.proc i).state = .runnable) :
    ∃ killed parent staticPriority niceness,
      t.kernel.proc i = (s.kernel.proc i).mark killed parent staticPriority niceness := by
  rcases (procStep_cases h).2 with ⟨-, heff⟩ | ⟨-, h', p, hp, -, -, hothers⟩
  · exact (heff i).eq_mark hrun
  · have hne : i ≠ p := by
      intro heq
      subst heq
      simp [hs.running h' i hp] at hrun
    exact (hothers i hne).eq_mark (by simp [hrun])

namespace ScanHolds

variable {n : Nat} {rule : ScanRule} {s t : Scan n} {e : ScanEvent n}
  {past : Past (Scan n) (ScanEvent n)}

theorem boot : ScanHolds (Scan.boot n) := by
  refine ⟨⟨?_, fun p hp => ?_, ?_⟩, ?_, ?_, ?_, ?_⟩
  all_goals try simp [Scan.boot]
  rw [show (Scan.boot n).kernel.proc p = _ from userinit_proc p] at hp
  split at hp <;> simp at hp

/-- A visit that only writes to a RUNNABLE process keeps who runs where. -/
theorem hosted_modify (hs : Hosted s.toSys) {i : Slot} :
    Hosted (s.modifyProc i rule.visit).toSys := by
  refine hs.of_same rfl fun j => ?_
  by_cases hj : j = i
  · subst hj
    rw [show (s.modifyProc j rule.visit).kernel.proc j = _ from Scan.modifyProc_proc_self,
      rule.visit_state]
  · rw [show (s.modifyProc i rule.visit).kernel.proc j = _ from Scan.modifyProc_proc_of_ne hj]

theorem modify_state {i j : Slot} :
    ((s.modifyProc i rule.visit).proc j).state = (s.proc j).state := by
  by_cases hj : j = i
  · subst hj
    rw [Scan.modifyProc_proc_self, rule.visit_state]
  · rw [Scan.modifyProc_proc_of_ne hj]

/-- A visit moves the scan on, with the same `low` or with the visited slot in
its place. -/
theorem of_visit {h : Fin n} (hs : ScanHolds s) (hcpu : s.cpu h = none)
    (hosted : Hosted t.toSys) (hcpu' : t.cpu = s.cpu)
    (hstate : ∀ i, (t.proc i).state = (s.proc i).state)
    (hcursor : t.cursor = Function.update s.cursor h (s.cursor h + 1))
    (hlow : t.low = s.low ∨ ∃ i : Slot, i.val = s.cursor h ∧ ¬ s.Locked h i ∧
      (s.proc i).state = .runnable ∧ t.low = Function.update s.low h (some i)) :
    ScanHolds t := by
  -- a `low` of the new state was one before, or is the visited slot
  have hold : ∀ h' i, t.low h' = some i → s.low h' = some i ∨
      h' = h ∧ i.val = s.cursor h ∧ ¬ s.Locked h i ∧ (s.proc i).state = .runnable := by
    intro h' i hi
    rcases hlow with hlow | ⟨k, hk, hfree, hrun, hlow⟩
    · exact Or.inl (hlow ▸ hi)
    · rw [hlow] at hi
      by_cases hh : h' = h
      · subst hh
        obtain rfl : k = i := by simpa using hi
        exact Or.inr ⟨rfl, hk, hfree, hrun⟩
      · rw [Function.update_of_ne hh] at hi
        exact Or.inl hi
  refine ⟨hosted, ?_, ?_, ?_, ?_⟩
  · intro h' hh'
    have hne : h' ≠ h := by
      intro heq
      subst heq
      exact hh' (hcpu' ▸ hcpu)
    rw [hcursor, Function.update_of_ne hne]
    exact hs.idle h' (hcpu' ▸ hh')
  · intro h' i hi
    rw [hcursor]
    by_cases hh : h' = h
    · subst hh
      rw [Function.update_self]
      rcases hold h' i hi with hi | ⟨-, hi, -⟩
      · exact Nat.lt_succ_of_lt (hs.behind h' i hi)
      · omega
    · rw [Function.update_of_ne hh]
      exact hs.behind h' i ((hold h' i hi).resolve_right fun hc => hh hc.1)
  · intro h' i hi
    rw [hstate]
    rcases hold h' i hi with hi | ⟨-, -, -, hrun⟩
    · exact hs.runnable h' i hi
    · exact hrun
  · intro h₁ h₂ i hi₁ hi₂
    rcases hold h₁ i hi₁ with hi₁ | ⟨rfl, -, hfree₁, -⟩ <;>
      rcases hold h₂ i hi₂ with hi₂ | ⟨rfl, -, hfree₂, -⟩
    · exact hs.unique h₁ h₂ i hi₁ hi₂
    · exact by_contra fun hne => hfree₂ ⟨h₁, hne, hi₁⟩
    · exact by_contra fun hne => hfree₁ ⟨h₂, Ne.symm hne, hi₂⟩
    · rfl

/-- A scan that has found nothing starts again. -/
theorem of_again {h : Fin n} (hs : ScanHolds s) (hlow : s.low h = none) :
    ScanHolds (s.setCursor h 0) := by
  refine ⟨hs.hosted, ?_, ?_, hs.runnable, hs.unique⟩
  · intro h' hh'
    rw [Scan.setCursor_cursor, Function.update_apply]
    split
    · rfl
    · exact hs.idle h' hh'
  · intro h' i hi
    have hne : h' ≠ h := by
      intro heq
      subst heq
      simp [hlow] at hi
    rw [Scan.setCursor_cursor, Function.update_of_ne hne]
    exact hs.behind h' i hi

/-- A scan ends with the dispatch of its `low`, which is no other hart's. -/
theorem of_dispatch {h : Fin n} {i : Slot} (hs : ScanHolds s) (hcpu : s.cpu h = none)
    (hlow : s.low h = some i) : ScanHolds (s.dispatch rule h i) := by
  have hrun := hs.runnable h i hlow
  have hold : ∀ h' j, (s.dispatch rule h i).low h' = some j →
      h' ≠ h ∧ j ≠ i ∧ s.low h' = some j := by
    intro h' j hj
    have hne : h' ≠ h := by
      intro heq
      subst heq
      simp at hj
    rw [Scan.dispatch_low, Function.update_of_ne hne] at hj
    refine ⟨hne, ?_, hj⟩
    intro heq
    subst heq
    exact hne (hs.unique h' h j hj hlow)
  refine ⟨?_, ?_, ?_, ?_, ?_⟩
  · refine hs.hosted.of_dispatch hcpu ?_ Scan.dispatch_cpu ?_ fun j hj => ?_
    · rw [show (s.kernel.proc i).state = .runnable from hrun]
      decide
    · rw [show (s.dispatch rule h i).kernel.proc i = _ from Scan.dispatch_proc_self,
        rule.give_state]
    · rw [show (s.dispatch rule h i).kernel.proc j = _ from Scan.dispatch_proc_of_ne hj]
  · intro h' hh'
    rw [Scan.dispatch_cursor, Function.update_apply]
    split
    · rfl
    case isFalse hne =>
        rw [Scan.dispatch_cpu, Function.update_of_ne hne] at hh'
        exact hs.idle h' hh'
  · intro h' j hj
    obtain ⟨hne, -, hj'⟩ := hold h' j hj
    rw [Scan.dispatch_cursor, Function.update_of_ne hne]
    exact hs.behind h' j hj'
  · intro h' j hj
    obtain ⟨-, hji, hj'⟩ := hold h' j hj
    rw [Scan.dispatch_proc_of_ne hji]
    exact hs.runnable h' j hj'
  · intro h₁ h₂ j hj₁ hj₂
    exact hs.unique h₁ h₂ j (hold h₁ j hj₁).2.2 (hold h₂ j hj₂).2.2

/-- **Step lemma.** -/
theorem step (hs : ScanHolds s) (h : s.step rule e = some t) : ScanHolds t := by
  cases e with
  | proc e =>
      obtain ⟨u, hu, rfl⟩ := Option.map_eq_some_iff.mp h
      refine ⟨hs.hosted.procStep (fun _ _ => rfl) hu, fun h' hh' => hs.idle h' fun hidle => hh' ?_,
        hs.behind, ?_, hs.unique⟩
      · rcases (procStep_cases hu).2 with ⟨hcpu, -⟩ | ⟨-, h₁, p, -, hcpu, -⟩
        · exact (congrFun hcpu h').trans hidle
        · apply (congrFun hcpu h').trans
          rw [Function.update_apply]
          split
          · rfl
          · exact hidle
      · intro h' i hi
        obtain ⟨k, a, b, c, hmark⟩ := hs.hosted.eq_mark hu (hs.runnable h' i hi)
        rw [show Scan.proc { s with toSys := u } i = _ from hmark]
        exact hs.runnable h' i hi
  | scheduler h₀ =>
      obtain ⟨hcpu, hchange⟩ := Scan.schedulerStep_cases h
      cases hchange with
      | passed hi hskip ht =>
          subst ht
          exact hs.of_visit hcpu hs.hosted rfl (fun _ => rfl) rfl (Or.inl rfl)
      | @taken i hi hfree hrun hbetter ht =>
          subst ht
          exact hs.of_visit hcpu (hosted_modify hs.hosted) rfl (fun _ => modify_state) rfl
            (Or.inr ⟨i, hi, hfree, hrun, rfl⟩)
      | beaten hi hfree hrun hlow hworse ht =>
          subst ht
          exact hs.of_visit hcpu (hosted_modify hs.hosted) rfl (fun _ => modify_state) rfl
            (Or.inl rfl)
      | again hend hlow ht =>
          subst ht
          exact hs.of_again hlow
      | dispatched hend hlow ht =>
          subst ht
          exact hs.of_dispatch hcpu hlow

end ScanHolds

theorem scanHolds {n : Nat} {rule : ScanRule} {past : Past (Scan n) (ScanEvent n)} {s : Scan n}
    (run : Run (scan rule n) past s) : ScanHolds s :=
  run.invariant (P := fun _ s => ScanHolds s) (fun _ hs => hs ▸ ScanHolds.boot)
    fun _ _ _ _ _ hs h => hs.step h

end Xv6
