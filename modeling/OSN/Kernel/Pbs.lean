import OSN.Kernel.Scan

/-!
# Priority based scheduling

The PBS scheduler computes, for every RUNNABLE process that its scan visits,
the part of the time since `sched1` that the process did not run, in tenths,
and from that and the static priority the dynamic one.  `sched1` is the clock
at the last dispatch and `sched2` the clock when the process last became
RUNNABLE again.  The division has no guard: `initproc`, the first process that
any scan visits, has both at 0.
-/

namespace Xv6

/-- `divuw` of RISC-V: division by zero gives the largest number. -/
def divuw (a b : UInt32) : UInt32 :=
  if b = 0 then 0xFFFFFFFF else a / b

/-- The right-hand side of the assignment to `niceness`. -/
def pbsNiceness (p : Proc) : UInt32 :=
  divuw (10 * (p.sched2 - p.sched1 - p.runtime)) (p.sched2 - p.sched1)

/-- `temp`, as it is first computed: both branches are unsigned. -/
def pbsPriority (p : Proc) : UInt32 :=
  if 100 < p.staticPriority - p.niceness + 5 then 100 else p.staticPriority - p.niceness + 5

/-- What the scan writes to a RUNNABLE process. -/
def pbsVisit (p : Proc) : Proc :=
  let p := { p with niceness := pbsNiceness p }
  let temp : Int := (pbsPriority p).toNat
  let temp := if temp < 0 then 0 else temp
  { p with dynamicPriority := UInt32.ofNat temp.toNat }

/-- The PBS scheduler. -/
def pbs : ScanRule where
  visit := pbsVisit
  beats p low := p.dynamicPriority < low.dynamicPriority
  give := dispatchProc
  visit_state _ := rfl
  give_state _ _ := rfl

/-- `temp` is not negative, and at most 100. -/
theorem pbsVisit_dynamicPriority (p : Proc) :
    (pbsVisit p).dynamicPriority = pbsPriority { p with niceness := pbsNiceness p } ∧
      (pbsVisit p).dynamicPriority ≤ 100 := by
  have hsame : (pbsVisit p).dynamicPriority =
      pbsPriority { p with niceness := pbsNiceness p } := by
    have hnonneg : ∀ k : Nat, ¬ (k : Int) < 0 := fun k => by omega
    simp only [pbsVisit, if_neg (hnonneg _), Int.toNat_natCast, UInt32.ofNat_toNat]
  refine ⟨hsame, ?_⟩
  rw [hsame, pbsPriority]
  split
  case isTrue => exact UInt32.le_refl _
  case isFalse h => exact UInt32.not_lt.mp h

variable {n : Nat} {past : Past (Scan n) (ScanEvent n)} {s t : Scan n} {e : ScanEvent n}
  {i : Slot}

/-- The step is the visit of RUNNABLE slot `i`, which computes its niceness. -/
def Visits (s : Scan n) (e : ScanEvent n) (i : Slot) : Prop :=
  ∃ h, e = .scheduler h ∧ i.val = s.cursor h ∧ (s.proc i).state = .runnable

instance (s : Scan n) (e : ScanEvent n) (i : Slot) : Decidable (Visits s e i) := by
  unfold Visits
  infer_instance

/-- The step does not divide by zero. -/
def NoZeroDivision (_ : Past (Scan n) (ScanEvent n)) (s : Scan n) (e : ScanEvent n) : Prop :=
  ∀ i, Visits s e i → (s.proc i).sched2 - (s.proc i).sched1 ≠ 0

instance (past : Past (Scan n) (ScanEvent n)) (s : Scan n) (e : ScanEvent n) :
    Decidable (NoZeroDivision past s e) := by
  unfold NoZeroDivision
  infer_instance

/-- The step does not divide at all. -/
def NoDivision (_ : Past (Scan n) (ScanEvent n)) (s : Scan n) (e : ScanEvent n) : Prop :=
  ∀ i, ¬ Visits s e i

instance (past : Past (Scan n) (ScanEvent n)) (s : Scan n) (e : ScanEvent n) :
    Decidable (NoDivision past s e) := by
  unfold NoDivision
  infer_instance

/-- **Before the first visit** of a RUNNABLE process nothing runs, and
`initproc` is the only process, with `sched1` and `sched2` as they were in the
zeroed table. -/
structure Untouched (s : Scan n) : Prop where
  idle : ∀ h, s.cpu h = none
  noLow : ∀ h, s.low h = none
  first : (s.proc initproc).state = .runnable
  history : (s.proc initproc).sched2 = (s.proc initproc).sched1
  others : ∀ p, p ≠ initproc → (s.proc p).state = .unused

namespace Untouched

theorem boot : Untouched (Scan.boot n) := by
  have hproc : ∀ p, (Scan.boot n).proc p = _ := userinit_proc
  refine ⟨fun _ => rfl, fun _ => rfl, ?_, ?_, ?_⟩
  · rw [hproc, if_pos rfl]
  · rw [hproc, if_pos rfl]
    rfl
  · intro p hp
    rw [hproc, if_neg hp]

/-- The only process that can be visited is `initproc`, and its visit divides
by zero. -/
theorem zero_of_visits (hs : Untouched s) (hvisit : Visits s e i) :
    (s.proc i).sched2 - (s.proc i).sched1 = 0 := by
  obtain ⟨h, -, -, hrun⟩ := hvisit
  obtain rfl : i = initproc := by
    by_contra hne
    simp [hs.others i hne] at hrun
  rw [hs.history, UInt32.sub_self]

/-- **Step lemma.**  A step that visits no RUNNABLE process changes nothing
that matters. -/
theorem step (hs : Untouched s) (hnone : NoDivision past s e) (h : s.step pbs e = some t) :
    Untouched t := by
  cases e with
  | proc e =>
      obtain ⟨u, hu, rfl⟩ := Option.map_eq_some_iff.mp h
      obtain ⟨hcpu, htouched⟩ := procStep_idle hs.idle hu
      -- neither `initproc` nor a free slot sleeps or runs, so all are at most marked
      have hmark : ∀ p, (u.kernel.proc p).state = (s.proc p).state ∧
          (u.kernel.proc p).sched1 = (s.proc p).sched1 ∧
          (u.kernel.proc p).sched2 = (s.proc p).sched2 := by
        intro p
        have hstate : (s.proc p).state = .runnable ∨ (s.proc p).state = .unused := by
          by_cases hp : p = initproc
          · exact Or.inl (hp ▸ hs.first)
          · exact Or.inr (hs.others p hp)
        have htouch := htouched p (by rcases hstate with h | h <;> simp [h])
        obtain ⟨k, a, b, c, hq⟩ := htouch.eq_mark (by rcases hstate with h | h <;> simp [h])
        rw [hq]
        exact ⟨rfl, rfl, rfl⟩
      refine ⟨fun h' => (congrFun hcpu h').trans (hs.idle h'), hs.noLow,
        (hmark _).1.trans hs.first, ?_, fun p hp => (hmark p).1.trans (hs.others p hp)⟩
      exact (hmark _).2.2.trans (hs.history.trans (hmark _).2.1.symm)
  | scheduler h0 =>
      obtain ⟨-, hchange⟩ := Scan.schedulerStep_cases h
      cases hchange with
      | passed hi hskip ht =>
          subst ht
          exact ⟨hs.idle, hs.noLow, hs.first, hs.history, hs.others⟩
      | taken hi hfree hrun hbetter ht => exact absurd ⟨h0, rfl, hi, hrun⟩ (hnone _)
      | beaten hi hfree hrun hlow hworse ht => exact absurd ⟨h0, rfl, hi, hrun⟩ (hnone _)
      | again hend hlow ht =>
          subst ht
          exact ⟨hs.idle, hs.noLow, hs.first, hs.history, hs.others⟩
      | dispatched hend hlow ht => simp [hs.noLow] at hlow

end Untouched

/-- **When PBS never divides by zero.**  A run of the PBS kernel from boot, on
any number of harts, has no division by zero if and only if it has no division
at all: the first one, for `initproc`, already is one. -/
theorem noZeroDivision_iff (run : Run (scan pbs n) past s) :
    Machine.StepsMeet NoZeroDivision past ↔ Machine.StepsMeet NoDivision past := by
  have huntouched : ∀ {past s}, Run (scan pbs n) past s → Machine.StepsMeet NoDivision past →
      Untouched s := fun run hmeet =>
    run.invariant_of_meet (P := fun _ s => Untouched s) (fun _ hs => hs ▸ Untouched.boot)
      (fun _ _ _ _ _ hnone hs h => hs.step hnone h) hmeet
  induction run with
  | init => exact Iff.rfl
  | step run h ih =>
      constructor
      · intro hmeet
        have hrest := ih.mp hmeet.2
        refine ⟨?_, hrest⟩
        intro i hvisit
        exact hmeet.1 i hvisit ((huntouched run hrest).zero_of_visits hvisit)
      · intro hmeet
        exact ⟨fun i hvisit => absurd hvisit (hmeet.1 i), ih.mpr hmeet.2⟩

/-- The theorem at a run that ends before the first visit. -/
theorem noZeroDivision_iff_tick : ∃ past s, Run (scan pbs 1) past s ∧
    s.kernel.ticks = 1 ∧ Machine.StepsMeet NoZeroDivision past := by
  obtain ⟨past, s, run, hticks, hmeet⟩ := Machine.exists_run_of_trace (M := scan pbs 1) rfl
    [.proc (.clockintr 0)]
    (fun past s => s.kernel.ticks = 1 ∧ Machine.StepsMeet NoDivision past) (by decide)
  exact ⟨past, s, run, hticks, (noZeroDivision_iff run).mpr hmeet⟩

/-- The very first visit, of `initproc`, divides by zero. -/
theorem pbs_divides_by_zero :
    ¬ ∀ (n : Nat) past s, Run (scan pbs n) past s → Machine.StepsMeet NoZeroDivision past := by
  intro h
  obtain ⟨past, s, run, hnot⟩ := Machine.exists_run_of_trace (M := scan pbs 1) rfl (scanning 0 1)
    (fun past _ => ¬ Machine.StepsMeet NoZeroDivision past) (by decide)
  exact hnot (h 1 past s run)

end Xv6
