import OSN.Kernel.Scan
import OSN.Kernel.Pbs
import OSN.Kernel.Fcfs

/-!
# The locks of a scan

The loop of the FCFS and of the PBS scheduler over the table, as one hart goes
through it, with each `acquire` and `release` of a `p->lock`.  Both panic:
`acquire` if the hart holds the lock already, `release` if it does not hold
it.  Between two visits the other harts may write to the table what they like,
except that a process whose lock this hart holds can at most be marked.

The invariant of the loop is that the hart holds the lock of `low` and no
other, and that `low` is the least of the processes that were found RUNNABLE,
by key and then by slot.
-/

namespace Xv6

/-- The scanning hart inside its loop. -/
@[ext] structure ScanLoop where
  proc : Slot → Proc
  /-- The slots whose `p->lock` the hart holds. -/
  held : List Slot
  /-- The slot that is visited next; `NPROC` after the last. -/
  cursor : Nat
  low : Option Slot

/-- The next pass of the loop, or something that the other harts do between
two passes: the table as they would leave it. -/
inductive LoopEvent where
  | visit
  | others (table : Slot → Proc)

/-- Only the fields get through that are written without `p->lock`. -/
def Proc.markLike (p q : Proc) : Proc :=
  p.mark q.killed q.parent q.staticPriority q.niceness

namespace ScanLoop

/-- `acquire(&p->lock)`; `none` is its panic. -/
def acquire (s : ScanLoop) (p : Slot) : Option ScanLoop :=
  if p ∈ s.held then none else some { s with held := p :: s.held }

/-- `release(&p->lock)`; `none` is its panic. -/
def release (s : ScanLoop) (p : Slot) : Option ScanLoop :=
  if p ∈ s.held then some { s with held := s.held.erase p } else none

/-- Change one process. -/
def modifyProc (s : ScanLoop) (p : Slot) (f : Proc → Proc) : ScanLoop :=
  { s with proc := Function.update s.proc p (f (s.proc p)) }

/-- The body of the loop. -/
def body (rule : ScanRule) (s : ScanLoop) (p : Slot) : Option ScanLoop := do
  let s ← s.acquire p
  if (s.proc p).state = .runnable then
    let s := s.modifyProc p rule.visit
    match s.low with
    | none => some { s with low := some p }
    | some low =>
        if rule.beats (s.proc p) (s.proc low) then
          let s ← s.release low
          some { s with low := some p }
        else s.release p
  else s.release p

/-- What the other harts do to the table.  A process whose lock the scanning
hart holds is at most marked. -/
def meanwhile (s : ScanLoop) (table : Slot → Proc) : ScanLoop :=
  { s with proc := fun p => if p ∈ s.held then (s.proc p).markLike (table p) else table p }

def step (rule : ScanRule) (s : ScanLoop) : LoopEvent → Option ScanLoop
  | .visit =>
      if hp : s.cursor < NPROC then
        (s.body rule ⟨s.cursor, hp⟩).map fun t => { t with cursor := s.cursor + 1 }
      else none
  | .others table => some (s.meanwhile table)

/-- Before the loop, with `struct proc *low = 0` and no lock. -/
def start (table : Slot → Proc) : ScanLoop :=
  { proc := table, held := [], cursor := 0, low := none }

end ScanLoop

/-- The machine of the loop, from a given table. -/
def scanLoop (rule : ScanRule) (table : Slot → Proc) : Machine ScanLoop LoopEvent where
  init s := s = ScanLoop.start table
  step := ScanLoop.step rule

/-- The loop found slot `p` RUNNABLE when it visited it, and made `q` of it. -/
def FoundRunnable (rule : ScanRule) (past : Past ScanLoop LoopEvent) (p : Slot) (q : Proc) : Prop :=
  ∃ u, (u, LoopEvent.visit) ∈ past ∧ u.cursor = p.val ∧ (u.proc p).state = .runnable ∧
    q = rule.visit (u.proc p)

/-- What decides between two processes: the key that a scheduler compares,
which is not among the fields that others write without the lock. -/
structure ComparesBy (rule : ScanRule) (key : Proc → UInt32) : Prop where
  beats : ∀ p low, rule.beats p low = true ↔ key p < key low
  mark : ∀ p killed parent staticPriority niceness,
    key (p.mark killed parent staticPriority niceness) = key p

theorem fcfs_comparesBy : ComparesBy fcfs Proc.birthtime where
  beats p low := by simp [fcfs]
  mark _ _ _ _ _ := rfl

theorem pbs_comparesBy : ComparesBy pbs Proc.dynamicPriority where
  beats p low := by simp [pbs]
  mark _ _ _ _ _ := rfl

variable {rule : ScanRule} {key : Proc → UInt32} {table : Slot → Proc}
  {past : Past ScanLoop LoopEvent} {s t : ScanLoop} {p l : Slot}

namespace ScanLoop

/-- **The lock invariant.**  The hart holds the lock of `low` and no other, and
`low` is a RUNNABLE process behind the cursor. -/
structure HoldsLow (s : ScanLoop) : Prop where
  held : s.held = s.low.toList
  behind : ∀ l, s.low = some l → l.val < s.cursor
  runnable : ∀ l, s.low = some l → (s.proc l).state = .runnable

@[simp] theorem modifyProc_proc_self {f : Proc → Proc} : (s.modifyProc p f).proc p = f (s.proc p) := by
  simp [modifyProc]

@[simp] theorem modifyProc_proc_of_ne {f : Proc → Proc} (hl : l ≠ p) :
    (s.modifyProc p f).proc l = s.proc l := by
  simp [modifyProc, hl]

@[simp] theorem modifyProc_held {f : Proc → Proc} : (s.modifyProc p f).held = s.held := rfl

@[simp] theorem modifyProc_cursor {f : Proc → Proc} : (s.modifyProc p f).cursor = s.cursor := rfl

@[simp] theorem modifyProc_low {f : Proc → Proc} : (s.modifyProc p f).low = s.low := rfl

/-- **What the body of the loop can do.** -/
inductive Pass (rule : ScanRule) (s : ScanLoop) (p : Slot) (t : ScanLoop) : Prop
  /-- The slot is not RUNNABLE. -/
  | skipped (hskip : (s.proc p).state ≠ .runnable) (ht : t = s)
  /-- The slot becomes `low`, alone or instead of a worse one. -/
  | taken (hrun : (s.proc p).state = .runnable)
      (hbetter : ∀ l, s.low = some l → rule.beats (rule.visit (s.proc p)) (s.proc l) = true)
      (ht : t = { s.modifyProc p rule.visit with
        held := [p], low := some p })
  /-- The slot is RUNNABLE but no better than `low`. -/
  | beaten (hrun : (s.proc p).state = .runnable) (l : Slot) (hlow : s.low = some l)
      (hworse : ¬ rule.beats (rule.visit (s.proc p)) (s.proc l) = true)
      (ht : t = s.modifyProc p rule.visit)

/-- The lock of the visited slot is not held. -/
theorem HoldsLow.acquire (hs : s.HoldsLow) (hp : p.val = s.cursor) :
    s.acquire p = some { s with held := p :: s.low.toList } := by
  have hfree : p ∉ s.held := by
    rw [hs.held, Option.mem_toList]
    intro hlow
    have := hs.behind p hlow
    omega
  rw [ScanLoop.acquire, if_neg hfree, hs.held]

/-- **The body does not panic**, and does one of these. -/
theorem HoldsLow.body (hs : s.HoldsLow) (rule : ScanRule) (hp : p.val = s.cursor) :
    ∃ t, s.body rule p = some t ∧ Pass rule s p t := by
  have hheld := hs.held
  by_cases hrun : (s.proc p).state = .runnable
  · cases hlow : s.low with
    | none =>
        refine ⟨_, ?_, .taken hrun (by simp [hlow]) rfl⟩
        simp [ScanLoop.body, hs.acquire hp, hrun, hlow, modifyProc]
    | some l =>
        have hbehind := hs.behind l hlow
        have hlp : p ≠ l := Fin.ne_of_val_ne (by omega)
        by_cases hbetter : rule.beats (rule.visit (s.proc p)) (s.proc l) = true
        · refine ⟨_, ?_, .taken hrun (by simpa [hlow] using hbetter) rfl⟩
          simp [ScanLoop.body, hs.acquire hp, hrun, hlow, modifyProc, hbetter, release, hlp,
            hlp.symm]
        · refine ⟨_, ?_, .beaten hrun l hlow hbetter rfl⟩
          simp [ScanLoop.body, hs.acquire hp, hrun, hlow, modifyProc, hbetter, release, hlp.symm,
            hheld]
  · refine ⟨s, ?_, .skipped hrun rfl⟩
    simp [ScanLoop.body, hs.acquire hp, hrun, release, ← hheld]

/-- **Each pass goes on.**  Before the end of the table the loop can make its
next pass. -/
theorem HoldsLow.goesOn (hs : s.HoldsLow) (hlt : s.cursor < NPROC) :
    ∃ t, s.step rule .visit = some t ∧ t.cursor = s.cursor + 1 := by
  obtain ⟨u, hbody, -⟩ := hs.body rule (p := ⟨s.cursor, hlt⟩) rfl
  exact ⟨{ u with cursor := s.cursor + 1 }, by simp [step, hlt, hbody], rfl⟩

/-- A pass, inverted. -/
theorem HoldsLow.visit_cases (hs : s.HoldsLow) (h : s.step rule .visit = some t) :
    ∃ p u, p.val = s.cursor ∧ Pass rule s p u ∧ t = { u with cursor := s.cursor + 1 } := by
  have hlt : s.cursor < NPROC := by
    by_contra hend
    simp [step, hend] at h
  obtain ⟨u, hbody, hpass⟩ := hs.body rule (p := ⟨s.cursor, hlt⟩) rfl
  refine ⟨⟨s.cursor, hlt⟩, u, rfl, hpass, ?_⟩
  simpa [step, hlt, hbody, eq_comm] using h

/-- A pass changes the state of no process, and writes only to the slot it
visits. -/
theorem Pass.proc (h : Pass rule s p t) :
    (∀ l, l ≠ p → t.proc l = s.proc l) ∧ ∀ l, (t.proc l).state = (s.proc l).state := by
  have hmodify : ∀ l, ((s.modifyProc p rule.visit).proc l).state = (s.proc l).state := by
    intro l
    by_cases hl : l = p
    · subst hl
      rw [modifyProc_proc_self, rule.visit_state]
    · rw [modifyProc_proc_of_ne hl]
  cases h with
  | skipped _ ht =>
      subst ht
      exact ⟨fun _ _ => rfl, fun _ => rfl⟩
  | taken _ _ ht | beaten _ _ _ _ ht =>
      subst ht
      exact ⟨fun _ hl => modifyProc_proc_of_ne hl, hmodify⟩

theorem holdsLow_start : (start table).HoldsLow :=
  ⟨rfl, nofun, nofun⟩

/-- What the others do leaves the lock of `low` and its process. -/
theorem HoldsLow.meanwhile (hs : s.HoldsLow) (hlow : s.low = some l) :
    (s.meanwhile table).proc l = (s.proc l).markLike (table l) := by
  have hmem : l ∈ s.held := by simp [hs.held, hlow]
  exact if_pos hmem

/-- **Step lemma.** -/
theorem HoldsLow.step {e : LoopEvent} (hs : s.HoldsLow) (h : s.step rule e = some t) :
    t.HoldsLow := by
  cases e with
  | others table =>
      obtain rfl : s.meanwhile table = t := by simpa [ScanLoop.step] using h
      refine ⟨hs.held, hs.behind, fun l hlow => ?_⟩
      rw [hs.meanwhile hlow]
      exact hs.runnable l hlow
  | visit =>
      obtain ⟨p, u, hp, hpass, rfl⟩ := hs.visit_cases h
      have hstate := hpass.proc.2
      cases hpass with
      | skipped _ ht =>
          subst ht
          exact ⟨hs.held, fun l hl => Nat.lt_succ_of_lt (hs.behind l hl), hs.runnable⟩
      | taken hrun _ ht =>
          subst ht
          have hself : ∀ l, some p = some l → p = l := fun l => Option.some.inj
          refine ⟨rfl, fun l hl => ?_, fun l hl => ?_⟩
          · rw [← hself l hl, hp]
            exact Nat.lt_succ_self _
          · rw [← hself l hl]
            exact (hstate p).trans hrun
      | beaten _ l hlow _ ht =>
          subst ht
          refine ⟨hs.held, fun l hl => Nat.lt_succ_of_lt (hs.behind l hl), fun l hl => ?_⟩
          exact (hstate l).trans (hs.runnable l hl)

end ScanLoop

theorem holdsLow (run : Run (scanLoop rule table) past s) : s.HoldsLow :=
  run.invariant (P := fun _ s => s.HoldsLow) (fun _ hs => hs ▸ ScanLoop.holdsLow_start)
    fun _ _ _ _ _ hs h => hs.step h

/-! ### The choice -/

/-- **The best so far.**  If anything was found RUNNABLE, there is a `low`; it was found
with the key that it has, and no other was found with a smaller one, or with
the same one earlier in the table. -/
structure LeastFound (rule : ScanRule) (key : Proc → UInt32) (past : Past ScanLoop LoopEvent)
    (s : ScanLoop) : Prop where
  visited : ∀ p q, FoundRunnable rule past p q → p.val < s.cursor
  some_low : ∀ p q, FoundRunnable rule past p q → s.low ≠ none
  least : ∀ l, s.low = some l → ∃ q, FoundRunnable rule past l q ∧ key (s.proc l) = key q ∧
    ∀ p r, FoundRunnable rule past p r → key q < key r ∨ key q = key r ∧ l ≤ p

/-- What a longer past adds. -/
theorem foundRunnable_cons {u : ScanLoop} {e : LoopEvent} {q : Proc} :
    FoundRunnable rule ((u, e) :: past) p q ↔
      (e = .visit ∧ u.cursor = p.val ∧ (u.proc p).state = .runnable ∧ q = rule.visit (u.proc p)) ∨
        FoundRunnable rule past p q := by
  constructor
  · rintro ⟨v, hmem, hv⟩
    rcases List.mem_cons.mp hmem with heq | hmem
    · obtain ⟨rfl, rfl⟩ := Prod.mk.injEq .. ▸ heq
      exact Or.inl ⟨rfl, hv⟩
    · exact Or.inr ⟨v, hmem, hv⟩
  · rintro (⟨rfl, hv⟩ | ⟨v, hmem, hv⟩)
    · exact ⟨u, List.mem_cons_self, hv⟩
    · exact ⟨v, List.mem_cons_of_mem _ hmem, hv⟩

namespace LeastFound

variable {q : Proc}

theorem start : LeastFound rule key [] (ScanLoop.start table) :=
  ⟨fun _ _ h => by obtain ⟨_, hmem, _⟩ := h; simp at hmem,
    fun _ _ h => by obtain ⟨_, hmem, _⟩ := h; simp at hmem, nofun⟩

/-- What a scheduler has found behind it comes after whatever beats `low`. -/
theorem lt_of_beats (hb : LeastFound rule key past s) (hlow : s.low = some l) {k : UInt32}
    (hk : k < key (s.proc l)) (hp : FoundRunnable rule past p q) : k < key q := by
  obtain ⟨r, -, hkey, hleast⟩ := hb.least l hlow
  rw [hkey] at hk
  rcases hleast p q hp with hlt | ⟨heq, -⟩
  · exact UInt32.lt_trans hk hlt
  · exact heq ▸ hk

/-- What a pass at `p` finds. -/
theorem found_iff (hp : p.val = s.cursor) {p' : Slot} :
    FoundRunnable rule ((s, .visit) :: past) p' q ↔
      (p' = p ∧ (s.proc p).state = .runnable ∧ q = rule.visit (s.proc p)) ∨
        FoundRunnable rule past p' q := by
  rw [foundRunnable_cons]
  refine or_congr_left ?_
  constructor
  · rintro ⟨-, hcursor, hrun, rfl⟩
    obtain rfl : p' = p := Fin.ext (by omega)
    exact ⟨rfl, hrun, rfl⟩
  · rintro ⟨rfl, hrun, rfl⟩
    exact ⟨rfl, hp.symm, hrun, rfl⟩

/-- A pass that finds nothing. -/
theorem skipped (hb : LeastFound rule key past s) (hp : p.val = s.cursor)
    (hskip : (s.proc p).state ≠ .runnable) :
    LeastFound rule key ((s, .visit) :: past) { s with cursor := s.cursor + 1 } := by
  have hsame : ∀ p' q, FoundRunnable rule ((s, .visit) :: past) p' q ↔
      FoundRunnable rule past p' q := by
    intro p' q
    rw [found_iff hp]
    exact or_iff_right fun h => hskip h.2.1
  refine ⟨fun p' q h => ?_, fun p' q h => ?_, fun l hl => ?_⟩
  · exact Nat.lt_succ_of_lt (hb.visited p' q ((hsame p' q).mp h))
  · exact hb.some_low p' q ((hsame p' q).mp h)
  · obtain ⟨r, hr, hkey, hleast⟩ := hb.least l hl
    exact ⟨r, (hsame l r).mpr hr, hkey, fun p' q h => hleast p' q ((hsame p' q).mp h)⟩

/-- A pass that finds a better process. -/
theorem taken (hc : ComparesBy rule key) (hb : LeastFound rule key past s) (hp : p.val = s.cursor)
    (hrun : (s.proc p).state = .runnable)
    (hbetter : ∀ l, s.low = some l → rule.beats (rule.visit (s.proc p)) (s.proc l) = true) :
    LeastFound rule key ((s, .visit) :: past)
      { s.modifyProc p rule.visit with held := [p], low := some p, cursor := s.cursor + 1 } := by
  refine ⟨fun p' q h => ?_, fun p' q h => by simp, fun l hl => ?_⟩
  · rcases (found_iff hp).mp h with ⟨rfl, -⟩ | h
    · exact hp ▸ Nat.lt_succ_self _
    · exact Nat.lt_succ_of_lt (hb.visited p' q h)
  · obtain rfl : p = l := Option.some.inj hl
    refine ⟨rule.visit (s.proc p), (found_iff hp).mpr (Or.inl ⟨rfl, hrun, rfl⟩), ?_, ?_⟩
    · exact congrArg key ScanLoop.modifyProc_proc_self
    · intro p' r h
      rcases (found_iff hp).mp h with ⟨rfl, -, rfl⟩ | h
      · exact Or.inr ⟨rfl, le_refl _⟩
      · obtain ⟨l, hlow⟩ := Option.ne_none_iff_exists'.mp (hb.some_low p' r h)
        exact Or.inl (hb.lt_of_beats hlow ((hc.beats _ _).mp (hbetter l hlow)) h)

/-- A pass that finds a process which is no better than `low`. -/
theorem beaten (hc : ComparesBy rule key) (hb : LeastFound rule key past s) (hs : s.HoldsLow)
    (hp : p.val = s.cursor) (hlow : s.low = some l)
    (hworse : ¬ rule.beats (rule.visit (s.proc p)) (s.proc l) = true) :
    LeastFound rule key ((s, .visit) :: past)
      { s.modifyProc p rule.visit with cursor := s.cursor + 1 } := by
  have hbehind := hs.behind l hlow
  have hlp : l ≠ p := Fin.ne_of_val_ne (by omega)
  refine ⟨fun p' q h => ?_, fun p' q h => by simp [hlow], fun l' hl => ?_⟩
  · rcases (found_iff hp).mp h with ⟨rfl, -⟩ | h
    · exact hp ▸ Nat.lt_succ_self _
    · exact Nat.lt_succ_of_lt (hb.visited p' q h)
  · obtain rfl : l = l' := Option.some.inj (hlow.symm.trans hl)
    obtain ⟨q, hq, hkey, hleast⟩ := hb.least l hlow
    refine ⟨q, (found_iff hp).mpr (Or.inr hq), ?_, ?_⟩
    · exact (congrArg key (ScanLoop.modifyProc_proc_of_ne hlp)).trans hkey
    · intro p' r h
      rcases (found_iff hp).mp h with ⟨rfl, -, rfl⟩ | h
      · rw [hc.beats, hkey, UInt32.not_lt] at hworse
        rcases UInt32.lt_or_eq_of_le hworse with hlt | heq
        · exact Or.inl hlt
        · exact Or.inr ⟨heq, Fin.le_def.mpr (by omega)⟩
      · exact hleast p' r h

/-- Something the others do: the key of `low` is not among what they write. -/
theorem others (hc : ComparesBy rule key) (hb : LeastFound rule key past s) (hs : s.HoldsLow)
    (table : Slot → Proc) :
    LeastFound rule key ((s, .others table) :: past) (s.meanwhile table) := by
  have hsame : ∀ p q, FoundRunnable rule ((s, .others table) :: past) p q ↔
      FoundRunnable rule past p q := by
    intro p q
    rw [foundRunnable_cons]
    exact or_iff_right fun h => nomatch h.1
  refine ⟨fun p q h => hb.visited p q ((hsame p q).mp h),
    fun p q h => hb.some_low p q ((hsame p q).mp h), fun l hl => ?_⟩
  obtain ⟨q, hq, hkey, hleast⟩ := hb.least l hl
  refine ⟨q, (hsame l q).mpr hq, ?_, fun p r h => hleast p r ((hsame p r).mp h)⟩
  rw [hs.meanwhile hl, Proc.markLike, hc.mark, hkey]

/-- **Step lemma.** -/
theorem step (hc : ComparesBy rule key) (hb : LeastFound rule key past s) (hs : s.HoldsLow)
    {e : LoopEvent} (h : s.step rule e = some t) : LeastFound rule key ((s, e) :: past) t := by
  cases e with
  | others table =>
      obtain rfl : s.meanwhile table = t := by simpa [ScanLoop.step] using h
      exact hb.others hc hs table
  | visit =>
      obtain ⟨p, u, hp, hpass, rfl⟩ := hs.visit_cases h
      cases hpass with
      | skipped hskip ht =>
          subst ht
          exact hb.skipped hp hskip
      | taken hrun hbetter ht =>
          subst ht
          exact hb.taken hc hp hrun hbetter
      | beaten hrun l hlow hworse ht =>
          subst ht
          exact hb.beaten hc hs hp hlow hworse

end LeastFound

theorem leastFound (hc : ComparesBy rule key) (run : Run (scanLoop rule table) past s) :
    LeastFound rule key past s := by
  refine run.invariant (P := LeastFound rule key) ?_
    fun _ _ _ _ run hb h => hb.step hc (holdsLow run) h
  intro s hs
  obtain rfl : s = ScanLoop.start table := hs
  exact .start

/-- Every slot behind the cursor has been visited. -/
theorem visited_behind (run : Run (scanLoop rule table) past s) :
    ∀ p : Slot, p.val < s.cursor → ∃ u, (u, LoopEvent.visit) ∈ past ∧ u.cursor = p.val := by
  refine run.invariant (P := fun past s => ∀ p : Slot, p.val < s.cursor →
    ∃ u, (u, LoopEvent.visit) ∈ past ∧ u.cursor = p.val) ?_ ?_
  · intro s hs p hp
    obtain rfl : s = ScanLoop.start table := hs
    exact absurd hp (Nat.not_lt_zero _)
  · intro past s e t run hvisited h p hp
    cases e with
    | others table =>
        obtain rfl : s.meanwhile table = t := by simpa [scanLoop, ScanLoop.step] using h
        obtain ⟨u, hmem, hu⟩ := hvisited p hp
        exact ⟨u, List.mem_cons_of_mem _ hmem, hu⟩
    | visit =>
        obtain ⟨p', u, hp', -, rfl⟩ := (holdsLow run).visit_cases h
        by_cases hpast : p.val < s.cursor
        · obtain ⟨v, hmem, hv⟩ := hvisited p hpast
          exact ⟨v, List.mem_cons_of_mem _ hmem, hv⟩
        · refine ⟨s, List.mem_cons_self, ?_⟩
          have hle : p.val ≤ s.cursor := Nat.lt_succ_iff.mp hp
          omega

/-- A loop that the other harts leave alone changes the state of no process. -/
theorem states_kept (run : Run (scanLoop rule table) past s)
    (halone : ∀ x ∈ past, x.2 = LoopEvent.visit) (l : Slot) :
    (s.proc l).state = (table l).state := by
  induction run with
  | init hs =>
      obtain rfl : _ = ScanLoop.start table := hs
      rfl
  | @step past s t e run h ih =>
      obtain rfl : e = .visit := halone (s, e) List.mem_cons_self
      obtain ⟨p, u, -, hpass, rfl⟩ := (holdsLow run).visit_cases h
      exact (hpass.proc.2 l).trans (ih fun x hx => halone x (List.mem_cons_of_mem _ hx))

/-- What is to be proved of a scan that has come to state `s`. -/
structure Chooses (rule : ScanRule) (key : Proc → UInt32) (table : Slot → Proc)
    (past : Past ScanLoop LoopEvent) (s : ScanLoop) : Prop where
  /-- Neither `acquire` nor `release` panics. -/
  goesOn : s.cursor < NPROC → ∃ t, s.step rule .visit = some t ∧ t.cursor = s.cursor + 1
  visitsAll : s.cursor = NPROC → ∀ p : Slot, ∃ u, (u, LoopEvent.visit) ∈ past ∧ u.cursor = p.val
  nothing : s.cursor = NPROC → (∀ p q, ¬ FoundRunnable rule past p q) →
    s.low = none ∧ s.held = []
  /-- The first of the least. -/
  least : s.cursor = NPROC → (∃ p q, FoundRunnable rule past p q) →
    ∃ low q, s.low = some low ∧ s.held = [low] ∧ (s.proc low).state = .runnable ∧
      FoundRunnable rule past low q ∧ key (s.proc low) = key q ∧
      ∀ p r, FoundRunnable rule past p r → key q < key r ∨ key q = key r ∧ low ≤ p
  /-- A pass changes no state and writes to no other slot. -/
  kept : ∀ u t, (u, LoopEvent.visit) ∈ past → u.step rule .visit = some t →
    ∀ p : Slot, (t.proc p).state = (u.proc p).state ∧ (p.val ≠ u.cursor → t.proc p = u.proc p)
  alone : (∀ x ∈ past, x.2 = LoopEvent.visit) → ∀ p, (s.proc p).state = (table p).state

theorem chooses (hc : ComparesBy rule key) (run : Run (scanLoop rule table) past s) :
    Chooses rule key table past s := by
  have hs := holdsLow run
  have hb := leastFound hc run
  refine ⟨hs.goesOn, fun hend p => visited_behind run p (p.isLt.trans_eq hend.symm), ?_, ?_, ?_,
    states_kept run⟩
  · intro hend hnone
    have hlow : s.low = none := by
      cases hlow : s.low with
      | none => rfl
      | some l =>
          obtain ⟨q, hq, -⟩ := hb.least l hlow
          exact absurd hq (hnone l q)
    exact ⟨hlow, by rw [hs.held, hlow]; rfl⟩
  · rintro hend ⟨p, q, hfound⟩
    obtain ⟨l, hlow⟩ := Option.ne_none_iff_exists'.mp (hb.some_low p q hfound)
    obtain ⟨r, hr, hkey, hleast⟩ := hb.least l hlow
    exact ⟨l, r, hlow, by rw [hs.held, hlow]; rfl, hs.runnable l hlow, hr, hkey, hleast⟩
  · intro u t hmem h p
    obtain ⟨newer, older, hsplit⟩ := List.append_of_mem hmem
    obtain ⟨p', v, hp', hpass, rfl⟩ := (holdsLow (run.earlier hsplit)).visit_cases h
    exact ⟨hpass.proc.2 p, fun hne => hpass.proc.1 p fun heq => hne (heq ▸ hp')⟩

/-- **The scans of FCFS and PBS.**  From every table, with no `p->lock` held,
and whatever the other harts do between two passes, the loop goes through the
whole table without a panic.  It then holds no lock if nothing was RUNNABLE
when it was visited, and otherwise that of the first of the processes with the
least `birthtime`, or the least `dynamicPriority` just computed, alone. -/
theorem scans_choose (table : Slot → Proc) :
    (∀ past s, Run (scanLoop fcfs table) past s →
      Chooses fcfs Proc.birthtime table past s) ∧
    ∀ past s, Run (scanLoop pbs table) past s →
      Chooses pbs Proc.dynamicPriority table past s :=
  ⟨fun _ _ run => chooses fcfs_comparesBy run, fun _ _ run => chooses pbs_comparesBy run⟩

/-- Three RUNNABLE processes, of which the last two are as old and as urgent. -/
def threeRunnable : Slot → Proc := fun p =>
  if p = 3 then { state := .runnable, birthtime := 9, staticPriority := 70, sched2 := 1 }
  else if p = 5 ∨ p = 8 then
    { state := .runnable, birthtime := 7, staticPriority := 60, sched2 := 1 }
  else {}

/-- The theorem at that table. -/
theorem scans_choose_three :
    (∃ past s, Run (scanLoop fcfs threeRunnable) past s ∧ s.cursor = NPROC ∧ s.low = some 5 ∧
      Chooses fcfs Proc.birthtime threeRunnable past s) ∧
    ∃ past s, Run (scanLoop pbs threeRunnable) past s ∧ s.cursor = NPROC ∧ s.low = some 5 ∧
      Chooses pbs Proc.dynamicPriority threeRunnable past s := by
  constructor
  · obtain ⟨past, s, run, hend, hlow⟩ := Machine.exists_run_of_trace
      (M := scanLoop fcfs threeRunnable) rfl (List.replicate NPROC .visit)
      (fun _ s => s.cursor = NPROC ∧ s.low = some 5) (by decide)
    exact ⟨past, s, run, hend, hlow, (scans_choose threeRunnable).1 past s run⟩
  · obtain ⟨past, s, run, hend, hlow⟩ := Machine.exists_run_of_trace
      (M := scanLoop pbs threeRunnable) rfl (List.replicate NPROC .visit)
      (fun _ s => s.cursor = NPROC ∧ s.low = some 5) (by decide)
    exact ⟨past, s, run, hend, hlow, (scans_choose threeRunnable).2 past s run⟩

/-! ### The scan of the whole machine -/

section Whole

variable {n : Nat} {u v : Scan n} {h : Fin n} {e : ScanEvent n}

/-- What hart `h` is in, as its loop. -/
def Scan.loop (u : Scan n) (h : Fin n) : ScanLoop :=
  { proc := u.proc, held := (u.low h).toList, cursor := u.cursor h, low := u.low h }

theorem ScanHolds.loop (hu : ScanHolds u) (h : Fin n) : (u.loop h).HoldsLow :=
  ⟨rfl, hu.behind h, hu.runnable h⟩

theorem Scan.loop_modifyProc {i : Slot} {f : Proc → Proc} :
    ((u.loop h).modifyProc i f).proc = (u.modifyProc i f).proc := by
  funext l
  by_cases hl : l = i
  · subst hl
    rw [ScanLoop.modifyProc_proc_self, Scan.modifyProc_proc_self]
    rfl
  · rw [ScanLoop.modifyProc_proc_of_ne hl, Scan.modifyProc_proc_of_ne hl]
    rfl

theorem Scan.better_visit_iff {i : Slot} (hbehind : ∀ l, u.low h = some l → l ≠ i) :
    (u.modifyProc i rule.visit).Better rule h i ↔
      ∀ l, u.low h = some l → rule.beats (rule.visit (u.proc i)) (u.proc l) = true := by
  refine forall_congr' fun l => forall_congr' fun hl => ?_
  rw [modifyProc_proc_self, modifyProc_proc_of_ne (hbehind l hl)]

/-- The body of the loop, lock by lock, is the visit of the machine. -/
theorem Scan.loop_body (hu : ScanHolds u) {i : Slot} (hi : i.val = u.cursor h) :
    (u.loop h).body rule i = some ((u.visitSlot rule h i).loop h) := by
  have hbehind : ∀ l, u.low h = some l → l ≠ i := fun l hl =>
    Fin.ne_of_val_ne (by have := hu.behind h l hl; omega)
  obtain ⟨t, hbody, hpass⟩ := (hu.loop h).body rule hi
  rw [hbody, Option.some.injEq]
  cases hpass with
  | skipped hskip ht =>
      have hskip' : (u.proc i).state ≠ .runnable := hskip
      rw [ht, visitSlot, if_neg hskip']
  | taken hrun hbetter ht =>
      have hrun' : (u.proc i).state = .runnable := hrun
      rw [ht, visitSlot, if_pos hrun', if_pos ((better_visit_iff hbehind).mpr hbetter)]
      refine ScanLoop.ext loop_modifyProc ?_ rfl ?_ <;> simp [Scan.loop]
  | beaten hrun l hlow hworse ht =>
      have hrun' : (u.proc i).state = .runnable := hrun
      have hnot : ¬ (u.modifyProc i rule.visit).Better rule h i := fun hbetter =>
        hworse ((better_visit_iff hbehind).mp hbetter l hlow)
      rw [ht, visitSlot, if_pos hrun', if_neg hnot]
      exact ScanLoop.ext loop_modifyProc rfl rfl rfl

/-- The scheduler of another hart leaves this hart's loop where it is, and the
process whose lock this hart holds. -/
theorem ScanHolds.other_scheduler {h' : Fin n} (hu : ScanHolds u) (hne : h ≠ h')
    (hstep : u.schedulerStep rule h' = some v) :
    v.low h = u.low h ∧ v.cursor h = u.cursor h ∧ ∀ l, u.low h = some l → v.proc l = u.proc l := by
  obtain ⟨-, hchange⟩ := Scan.schedulerStep_cases hstep
  have hunlocked : ∀ {i l}, ¬ u.Locked h' i → u.low h = some l → l ≠ i := by
    rintro i l hfree hlow rfl
    exact hfree ⟨h, hne, hlow⟩
  cases hchange with
  | passed _ _ ht | again _ _ ht =>
      subst ht
      exact ⟨rfl, by simp [hne], fun _ _ => rfl⟩
  | taken _ hfree _ _ ht =>
      subst ht
      refine ⟨by simp [hne], by simp [hne], fun l hlow => ?_⟩
      simp [hunlocked hfree hlow]
  | beaten _ hfree _ _ _ ht =>
      subst ht
      refine ⟨by simp, by simp [hne], fun l hlow => ?_⟩
      simp [hunlocked hfree hlow]
  | @dispatched i _ hlow' ht =>
      subst ht
      refine ⟨by simp [hne], by simp [hne], fun l hlow => ?_⟩
      have hli : l ≠ i := by
        rintro rfl
        exact hne (hu.unique h h' l hlow hlow')
      exact Scan.dispatch_proc_of_ne hli

/-- What the others make of the table, as this hart sees it. -/
theorem Scan.loop_others (hlow : v.low h = u.low h) (hcursor : v.cursor h = u.cursor h)
    (hmark : ∀ l, u.low h = some l → v.proc l = (u.proc l).markLike (v.proc l)) :
    (u.loop h).step rule (.others v.proc) = some (v.loop h) := by
  refine congrArg some (ScanLoop.ext ?_ (by simp [Scan.loop, ScanLoop.meanwhile, hlow])
    hcursor.symm hlow.symm)
  funext l
  by_cases hl : u.low h = some l
  · have hmem : l ∈ (u.loop h).held := by simp [Scan.loop, hl]
    exact (if_pos hmem).trans (hmark l hl).symm
  · have hmem : l ∉ (u.loop h).held := by simpa [Scan.loop] using hl
    exact if_neg hmem

/-- **A step of the machine, as hart `h` sees it**: a pass of its own loop or
what comes after the last, or something that the others do. -/
theorem Scan.step_loop (hu : ScanHolds u) (hstep : u.step rule e = some v) :
    (e = .scheduler h ∧ u.cursor h < NPROC ∧ (u.loop h).step rule .visit = some (v.loop h)) ∨
      (e = .scheduler h ∧ NPROC ≤ u.cursor h) ∨
      (e ≠ .scheduler h ∧ (u.loop h).step rule (.others v.proc) = some (v.loop h)) := by
  cases e with
  | proc e =>
      refine Or.inr (Or.inr ⟨nofun, ?_⟩)
      obtain ⟨t, ht, rfl⟩ := Option.map_eq_some_iff.mp hstep
      refine Scan.loop_others rfl rfl fun l hlow => ?_
      obtain ⟨k, a, b, c, hmark⟩ := hu.hosted.eq_mark ht (hu.runnable h l hlow)
      rw [show Scan.proc { u with toSys := t } l = _ from hmark]
      rfl
  | scheduler h' =>
      by_cases hh : h = h'
      · subst hh
        by_cases hend : u.cursor h < NPROC
        · refine Or.inl ⟨rfl, hend, ?_⟩
          obtain ⟨hidle, -⟩ := Scan.schedulerStep_cases hstep
          simp only [Scan.step, Scan.schedulerStep, hidle, if_true, hend, dif_pos] at hstep
          split at hstep
          case isTrue => simp at hstep
          case isFalse =>
              obtain rfl := Option.some.inj hstep
              have hend' : (u.loop h).cursor < NPROC := hend
              have hbody : (u.loop h).body rule ⟨(u.loop h).cursor, hend'⟩ = _ :=
                Scan.loop_body hu (i := ⟨u.cursor h, hend⟩) rfl
              rw [ScanLoop.step, dif_pos hend', hbody, Option.map_some, Option.some.injEq]
              exact ScanLoop.ext rfl rfl (by simp [Scan.loop]) rfl
        · exact Or.inr (Or.inl ⟨rfl, Nat.not_lt.mp hend⟩)
      · obtain ⟨hlow, hcursor, hkept⟩ := hu.other_scheduler hh hstep
        refine Or.inr (Or.inr ⟨fun heq => hh (ScanEvent.scheduler.inj heq).symm, ?_⟩)
        refine Scan.loop_others hlow hcursor fun l hl => ?_
        rw [hkept l hl]
        rfl

end Whole

end Xv6
