import OSN.Courses.Ledger

/-!
# The seats of a tutorial

A student counts himself in under `student_counter_lock`, but some time after he
was signalled, and a course sets the count back to `0` without the lock.  So a
student who is late is counted in a later tutorial, or his count from before the
reset overwrites it.  `main` does not set the count either.

When nobody is late and the count starts at `0`, it is the number of those
admitted, and these are no more than the slots (`notOverbooked_iff`).
-/

namespace Courses

variable {inp : Input} {wakeups : Wakeups} {s t : State inp} {e : Event inp}
  {past : Past (State inp) (Event inp)}

/-! ### The lock of the count -/

/-- A course's `student_counter_lock` is held by the student who counts himself
in. -/
def CounterOwned (s : State inp) : Prop :=
  Owned s.counterLock fun st => (s.student st).counting.map (inp.pref st)

theorem wake_counting (woken : inp.StudentId → Prop) [DecidablePred woken] (st : inp.StudentId) :
    ((s.wake woken).student st).counting = (s.student st).counting := by
  simp only [State.wake]
  split
  · exact counting_wakeUp _
  · rfl

/-- A course leaves it to the students to lock and unlock. -/
theorem CourseStep.counter {c : inp.CourseId} {a : CourseAt} (hstep : CourseStep c s a t)
    (howned : CounterOwned s) : CounterOwned t := by
  have hcounting : ∀ st, (t.student st).counting = (s.student st).counting := by
    intro st
    rcases hstep.student with hend | hlast | hquiet
    · obtain ⟨ta, slots, _, hstudent⟩ := hend
      rw [hstudent]
      exact wake_counting _ st
    · rw [hlast.2]
      exact wake_counting _ st
    · rw [hquiet.2.2]
  apply howned.keep hstep.counterLock
  intro st
  rw [hcounting]

/-- One student moves, and neither takes nor gives up the lock. -/
theorem CounterOwned.of_student {st : inp.StudentId} {a : StudentAt} (howned : CounterOwned s)
    (hlock : t.counterLock = s.counterLock) (ht : t.student = Function.update s.student st a)
    (hcounting : a.counting = (s.student st).counting) : CounterOwned t := by
  apply howned.keep hlock
  intro st'
  rw [ht]
  by_cases hsame : st' = st
  · subst hsame
    rw [Function.update_self, hcounting]
  · rw [Function.update_of_ne hsame]

theorem StudentStep.counter {st : inp.StudentId} {a : StudentAt} (hstep : StudentStep st s a t)
    (howned : CounterOwned s) : CounterOwned t := by
  have hother : ∀ st', st' ≠ st → (t.student st').counting.map (inp.pref st') =
      (s.student st').counting.map (inp.pref st') := by
    intro st' hne
    rw [hstep.student, Function.update_of_ne hne]
  rcases hstep.counting with hlock | hunlock | hkeep
  · obtain ⟨i, hs, ha, hfree, hlock⟩ := hlock
    refine howned.acquire hfree hlock ?_ ?_ hother
    · rw [hstep.student, Function.update_self, ha]
      rfl
    · rw [hs]
      rfl
  · obtain ⟨i, hs, ha, hlock⟩ := hunlock
    refine howned.release hlock ?_ ?_ hother
    · rw [hstep.student, Function.update_self, ha]
      rfl
    · rw [hs]
      rfl
  · exact howned.of_student hkeep.2 hstep.student hkeep.1

theorem step_counter (howned : CounterOwned s) (h : s.step wakeups e = some t) :
    CounterOwned t := by
  cases e with
  | course c =>
      obtain ⟨a, hstep⟩ := courseThread_step h
      exact hstep.counter howned
  | draw c slots =>
      obtain ⟨ta, _, _, ht⟩ := draw_cases h
      subst ht
      exact howned
  | signal c woken =>
      obtain ⟨ta, slots, left, _, _, ht⟩ := signal_cases h
      subst ht
      apply howned.keep rfl
      intro st
      exact congrArg (Option.map (inp.pref st)) (wake_counting (· ∈ woken) st)
  | student st =>
      obtain ⟨a, hstep⟩ := studentThread_step h
      exact hstep.counter howned
  | choose st stays =>
      obtain ⟨i, hs, ht⟩ := choose_cases h
      subst ht
      refine howned.of_student rfl rfl ?_
      rw [hs]
      split
      · rfl
      · exact (nextPref_at i).2.1
  | spurious st =>
      obtain ⟨_, ht⟩ := spurious_cases h
      subst ht
      apply howned.keep rfl
      intro st'
      exact congrArg (Option.map (inp.pref st')) (wake_counting (· = st) st')

/-- **The lock of the count is owned** by who counts himself in. -/
theorem counter_owned (run : Run (registration wakeups inp) past s) : CounterOwned s := by
  induction run with
  | init hs =>
      have hstart : _ = start inp := hs
      subst hstart
      exact Owned.start (fun _ => rfl) (fun _ => rfl)
  | step run h ih => exact step_counter ih h

/-- One student at a time is about to write the count of a course. -/
theorem writer_unique (run : Run (registration wakeups inp) past s) {c : inp.CourseId}
    {st st' : inp.StudentId} {value value' : Int} (h : s.Writes c st value)
    (h' : s.Writes c st' value') : st = st' := by
  obtain ⟨i, hs, hc⟩ := h
  obtain ⟨i', hs', hc'⟩ := h'
  apply (counter_owned run).unique (l := c)
  · simp only [hs]
    exact congrArg some hc
  · simp only [hs']
    exact congrArg some hc'

/-! ### The count -/

/-- The course resets `students_attending`. -/
def Resets (c : inp.CourseId) (s : State inp) (e : Event inp) : Prop :=
  e = .course c ∧ ∃ ta slots, s.course c = .reset ta slots

/-- A student writes `students_attending`. -/
def Counts (c : inp.CourseId) (s : State inp) (e : Event inp) : Prop :=
  ∃ st value, e = .student st ∧ s.Writes c st value

/-- Nobody has counted himself in since the course last reset the count, or
since the start, when the count happened to be `0`. -/
def CountsFromZero (c : inp.CourseId) : Past (State inp) (Event inp) → Prop
  | [] => inp.unsetAttending c = 0
  | (s, e) :: past => Resets c s e ∨ ¬ Counts c s e ∧ CountsFromZero c past

/-- At this course, the count starts at `0` with each tutorial, and only those
count themselves in during a tutorial who were signalled for it. -/
def InTime (c : inp.CourseId) (past : Past (State inp) (Event inp)) (s : State inp)
    (e : Event inp) : Prop :=
  (∀ slots, e = .draw c slots → CountsFromZero c past) ∧
    ∀ st value, e = .student st → s.Writes c st value → (s.course c).slots ≠ none →
      s.signalledFor st = s.tutorials c

/-- Nobody counts himself in for a tutorial that is over. -/
def NobodyLate (past : Past (State inp) (Event inp)) (s : State inp) (e : Event inp) : Prop :=
  ∀ c, InTime c past s e

/-- In a tutorial, the count is that of the students admitted, and these are no
more than the slots. -/
def SeatsRight (c : inp.CourseId) (s : State inp) : Prop :=
  ∀ slots, (s.course c).slots = some slots →
    0 ≤ s.attending c ∧ s.attending c ≤ slots ∧ slots ≤ (inp.course c).maxSlots ∧
      s.attending c = s.admitted c

/-- **Tutorials are not overbooked.** -/
def NotOverbooked (s : State inp) : Prop :=
  ∀ c, SeatsRight c s

/-- The count of a course, as long as nobody is late: who is about to write it has
its value, or one from before a reset, and then his tutorial is over. -/
structure Counted (c : inp.CourseId) (past : Past (State inp) (Event inp)) (s : State inp) :
    Prop where
  nonneg : 1 ≤ s.tutorials c → 0 ≤ s.attending c
  fromZero : s.attending c = 0 ↔ CountsFromZero c past
  writer : ∀ st value, s.Writes c st value → value = s.attending c ∨
    s.attending c = 0 ∧ 0 ≤ value ∧
      ((s.course c).slots ≠ none → s.signalledFor st < s.tutorials c)

theorem Counted.start (c : inp.CourseId) : Counted c [] (start inp) where
  nonneg h := absurd h (Nat.not_succ_le_zero 0)
  fromZero := Iff.rfl
  writer st value h := by
    obtain ⟨i, hs, _⟩ := h
    cases hs

theorem Counted.value_nonneg {c : inp.CourseId} {st : inp.StudentId} {value : Int}
    (hcounted : Counted c past s) (hbooked : Booked c s) (hst : s.Writes c st value) :
    0 ≤ value := by
  have hsignalled := hbooked.signalled st hst.seeks
  rcases hcounted.writer st value hst with hnow | hstale
  · rw [hnow]
    exact hcounted.nonneg (by omega)
  · exact hstale.2.1

/-- Nothing happens to the count. -/
theorem countsFromZero_cons {c : inp.CourseId} (hreset : ¬ Resets c s e) (hcount : ¬ Counts c s e) :
    CountsFromZero c ((s, e) :: past) ↔ CountsFromZero c past := by
  simp [CountsFromZero, hreset, hcount]

theorem not_counts {c : inp.CourseId} (he : ∀ st, e ≠ .student st) : ¬ Counts c s e := by
  intro hcounts
  obtain ⟨st, _, hst, _⟩ := hcounts
  exact he st hst

theorem not_resets {c : inp.CourseId} (he : e ≠ .course c) : ¬ Resets c s e := by
  intro hresets
  exact he hresets.1

/-- A step that neither resets the count nor counts anybody leaves it right, if who
is about to write is late in the new state whenever his value is not the count. -/
theorem Counted.keep {c : inp.CourseId} (hcounted : Counted c past s)
    (hattending : t.attending c = s.attending c) (hreset : ¬ Resets c s e)
    (hcount : ¬ Counts c s e) (hnonneg : 1 ≤ t.tutorials c → 0 ≤ s.attending c)
    (hwriter : ∀ st value, t.Writes c st value → value = s.attending c ∨
      s.Writes c st value ∧ (((s.course c).slots ≠ none → s.signalledFor st < s.tutorials c) →
        (t.course c).slots ≠ none → t.signalledFor st < t.tutorials c)) :
    Counted c ((s, e) :: past) t := by
  constructor
  · rw [hattending]
    exact hnonneg
  · rw [hattending, countsFromZero_cons hreset hcount]
    exact hcounted.fromZero
  · intro st value hst
    rw [hattending]
    rcases hwriter st value hst with hread | hold
    · exact Or.inl hread
    · rcases hcounted.writer st value hold.1 with hnow | hstale
      · exact Or.inl hnow
      · exact Or.inr ⟨hstale.1, hstale.2.1, hold.2 hstale.2.2⟩

theorem LedgerMove.counted {c : inp.CourseId} (h : LedgerMove c s e t) (hbooked : Booked c s)
    (hcounted : Counted c past s) (hintime : InTime c past s e)
    (hunique : ∀ st st' value value', s.Writes c st value → s.Writes c st' value' → st = st')
    (hopen : t.course c ≠ .exited) : Counted c ((s, e) :: past) t := by
  cases h with
  | gone he hs ht => exact absurd ht hopen
  | keep he hcount hreset hattending hadmitted htutorials hslots hseeks hwrites =>
      apply hcounted.keep hattending
      · intro hresets
        obtain ⟨hc, ta, slots, hs⟩ := hresets
        exact hreset hc ta slots hs
      · intro hcounts
        obtain ⟨st, value, hst, hw⟩ := hcounts
        exact hcount st value hst hw
      · rw [htutorials]
        exact hcounted.nonneg
      · intro st value hst
        rcases hwrites st value hst with hold | hread
        · refine Or.inr ⟨hold, ?_⟩
          intro hover hin
          obtain ⟨slots, hin⟩ := Option.ne_none_iff_exists'.mp hin
          rw [htutorials, (hseeks st hst.seeks).2]
          exact hover (by rw [(hslots slots hin).1]; simp)
        · exact Or.inl hread
  | draw ta slots he hs hmax hcourse hattending hadmitted htutorials hseeks hwrites =>
      have hzero : s.attending c = 0 := hcounted.fromZero.mpr (hintime.1 slots he)
      apply hcounted.keep hattending (not_resets (by simp [he])) (not_counts (by simp [he]))
      · intro _
        omega
      · intro st value hst
        have hold := hwrites st value hst
        refine Or.inr ⟨hold, ?_⟩
        intro _ _
        have hsignalled := hbooked.signalled st hold.seeks
        rw [htutorials, (hseeks st hst.seeks).2]
        omega
  | signal ta slots left woken he hs hone hcourse hattending hadmitted htutorials hseeks hwrites =>
      apply hcounted.keep hattending (not_resets (by simp [he])) (not_counts (by simp [he]))
      · rw [htutorials]
        exact hcounted.nonneg
      · intro st value hst
        obtain ⟨hold, hsame⟩ := hwrites st value hst
        refine Or.inr ⟨hold, ?_⟩
        intro hover _
        rw [htutorials, hsame]
        exact hover (by simp [hs, CourseAt.slots])
  | count st value he hs hcourse hattending hadmitted htutorials hseeks hwrites =>
      have hvalue := hcounted.value_nonneg hbooked hs
      constructor
      · intro _
        omega
      · have hcounts : Counts c s e := ⟨st, value, he, hs⟩
        have hreset : ¬ Resets c s e := not_resets (by simp [he])
        have hmore : t.attending c ≠ 0 := by omega
        simp [CountsFromZero, hcounts, hreset, hmore]
      · intro st' value' hst'
        obtain ⟨hne, hold⟩ := hwrites st' value' hst'
        exact absurd (hunique st' st value' value hold hs) hne
  | reset ta slots he hs hcourse hattending htutorials hseeks hwrites =>
      have hbegun := hbooked.begun (by simp [hs, CourseAt.slots])
      constructor
      · intro _
        omega
      · have hresets : Resets c s e := ⟨he, ta, slots, hs⟩
        simp [CountsFromZero, hresets, hattending]
      · intro st value hst
        have hvalue := hcounted.value_nonneg hbooked (hwrites st value hst)
        refine Or.inr ⟨hattending, hvalue, ?_⟩
        intro hin
        rw [hcourse] at hin
        exact absurd rfl hin

/-- **The count of every course**, in a run in which nobody is late. -/
theorem counted (run : Run (registration .exact inp) past s)
    (hmeet : Machine.StepsMeet NobodyLate past) (c : inp.CourseId)
    (hopen : s.course c ≠ .exited) : Counted c past s := by
  induction run with
  | init hs =>
      have hstart : _ = start inp := hs
      subst hstart
      exact .start c
  | step run h ih =>
      have hbefore : _ ≠ CourseAt.exited := fun hs => hopen (exited_stays h hs)
      have hcounted := ih hmeet.2 hbefore
      apply (step_ledger h c).counted (booked run c hbefore) hcounted (hmeet.1 c) _ hopen
      intro st st' value value' hst hst'
      exact writer_unique run hst hst'

/-! ### The result -/

theorem slots_open {c : inp.CourseId} {slots : Nat} (h : (s.course c).slots = some slots) :
    s.course c ≠ .exited := by
  intro hs
  rw [hs] at h
  cases h

/-- A step that neither begins a tutorial nor counts anybody is in time. -/
theorem inTime_of_other {c : inp.CourseId} (hdraw : ∀ slots, e ≠ .draw c slots)
    (hcount : ∀ st value, e = .student st → ¬ s.Writes c st value) : InTime c past s e := by
  constructor
  · intro slots he
    exact absurd he (hdraw slots)
  · intro st value he hst
    exact absurd hst (hcount st value he)

/-- The count is right at the beginning of a tutorial just when it is `0`. -/
theorem seatsRight_draw_iff {c : inp.CourseId} {ta : Ta} {slots : Nat}
    (hmax : slots ≤ (inp.course c).maxSlots) (hcourse : t.course c = .lockTut ta slots)
    (hadmitted : t.admitted c = 0) : SeatsRight c t ↔ t.attending c = 0 := by
  constructor
  · intro hright
    have hnow := hright slots (by rw [hcourse]; rfl)
    omega
  · intro hzero slots' hin
    rw [hcourse] at hin
    have hsame : slots = slots' := Option.some.inj hin
    subst hsame
    omega

/-- A student who counts himself in during a tutorial leaves the count right just
when he was signalled for it. -/
theorem seatsRight_count_iff {c : inp.CourseId} {st : inp.StudentId} {value : Int} {slots : Nat}
    (hbooked : Booked c t) (hcounted : Counted c past s) (hright : SeatsRight c s)
    (hs : s.Writes c st value) (hvalue : 0 ≤ value) (hin : (s.course c).slots = some slots)
    (hcourse : t.course c = s.course c) (hattending : t.attending c = value + 1)
    (hadmitted : t.admitted c =
      if s.signalledFor st = s.tutorials c then s.admitted c + 1 else s.admitted c) :
    SeatsRight c t ↔ s.signalledFor st = s.tutorials c := by
  have hbefore := hright slots hin
  have hwriter := hcounted.writer st value hs
  have hnow : (s.course c).slots ≠ none := by
    rw [hin]
    simp
  constructor
  · intro hafter
    have hsame := hafter slots (by rw [hcourse]; exact hin)
    by_contra hlate
    rw [if_neg hlate] at hadmitted
    rcases hwriter with hvalue' | hstale
    · omega
    · omega
  · intro hfor slots' hin'
    rw [hcourse] at hin'
    have hsame : slots = slots' := Option.some.inj (hin.symm.trans hin')
    subst hsame
    have hseats := hbooked.seats slots (by rw [hcourse]; exact hin)
    rw [if_pos hfor] at hadmitted
    rcases hwriter with hvalue' | hstale
    · omega
    · have hearlier := hstale.2.2 hnow
      omega

/-- A student counts himself in in time when no tutorial is going on, or the one for
which he was signalled. -/
theorem inTime_count_iff {c : inp.CourseId} {st : inp.StudentId} {value : Int}
    (he : e = .student st) (hs : s.Writes c st value) :
    InTime c past s e ↔ ((s.course c).slots ≠ none → s.signalledFor st = s.tutorials c) := by
  subst he
  constructor
  · intro hintime
    exact hintime.2 st value rfl hs
  · intro hfor
    constructor
    · intro slots hdraw
      cases hdraw
    · intro st' value' hst _
      have hsame : st = st' := Event.student.inj hst
      subst hsame
      exact hfor

/-- A step from a state whose count is right leads to such a state just when it is
in time. -/
theorem LedgerMove.right_iff {c : inp.CourseId} (h : LedgerMove c s e t)
    (hbooked : s.course c ≠ .exited → Booked c s)
    (hcounted : s.course c ≠ .exited → Counted c past s) (hright : SeatsRight c s) :
    SeatsRight c t ↔ InTime c past s e := by
  cases h with
  | gone he hs ht =>
      apply iff_of_true
      · intro slots hin
        rw [ht] at hin
        cases hin
      · constructor
        · intro slots hdraw
          exact absurd hdraw (he slots)
        · intro st value _ _ hin
          exact absurd hs hin
  | keep he hcount hreset hattending hadmitted htutorials hslots hseeks hwrites =>
      apply iff_of_true
      · intro slots hin
        rw [hattending, hadmitted]
        exact hright slots (hslots slots hin).1
      · exact inTime_of_other he hcount
  | draw ta slots he hs hmax hcourse hattending hadmitted htutorials hseeks hwrites =>
      have hopen : s.course c ≠ .exited := by
        rw [hs]
        simp
      rw [seatsRight_draw_iff hmax hcourse hadmitted, hattending, (hcounted hopen).fromZero]
      constructor
      · intro hzero
        constructor
        · intro _ _
          exact hzero
        · intro st value hst
          rw [he] at hst
          cases hst
      · intro hintime
        exact hintime.1 slots he
  | signal ta slots left woken he hs hone hcourse hattending hadmitted htutorials hseeks hwrites =>
      apply iff_of_true
      · intro slots' hin
        rw [hcourse] at hin
        rw [hattending, hadmitted]
        exact hright slots' (by rw [hs]; exact hin)
      · exact inTime_of_other (by simp [he]) (by simp [he])
  | count st value he hs hcourse hattending hadmitted htutorials hseeks hwrites =>
      rw [inTime_count_iff he hs]
      cases hin : (s.course c).slots with
      | none =>
          apply iff_of_true
          · intro slots hin'
            rw [hcourse, hin] at hin'
            cases hin'
          · intro hnot
            exact absurd rfl hnot
      | some slots =>
          have hopen := slots_open hin
          have hafter : Booked c t :=
            (hbooked hopen).count hs.seeks hcourse hadmitted htutorials hseeks
          have hvalue := (hcounted hopen).value_nonneg (hbooked hopen) hs
          rw [seatsRight_count_iff hafter (hcounted hopen) hright hs hvalue hin hcourse hattending
            hadmitted]
          simp
  | reset ta slots he hs hcourse hattending htutorials hseeks hwrites =>
      apply iff_of_true
      · intro slots' hin
        rw [hcourse] at hin
        cases hin
      · exact inTime_of_other (by simp [he]) (by simp [he])

/-- **When tutorials are not overbooked.**  In every state of a run without
spurious wakeups, just when the count starts at `0` with each tutorial, and
those who count themselves in during a tutorial were signalled for it. -/
theorem notOverbooked_iff (run : Run (registration .exact inp) past s) :
    Machine.Throughout NotOverbooked past s ↔ Machine.StepsMeet NobodyLate past := by
  apply run.throughout_iff
  · intro s hs
    have hstart : s = start inp := hs
    subst hstart
    intro c slots hin
    cases hin
  · intro past s e t run hmeet hright h
    have hstep (c : inp.CourseId) : SeatsRight c t ↔ InTime c past s e :=
      (step_ledger h c).right_iff (booked run c) (counted run hmeet c) (hright c)
    exact forall_congr' hstep

/-- Two students who prefer the one course, which has one slot and one TA with two
turns. -/
def oneSlot : Input where
  labs := [⟨1, 2⟩]
  courses := [⟨1, Nat.one_pos, [0]⟩]
  students := [fun _ => ⟨0, Nat.one_pos⟩, fun _ => ⟨0, Nat.one_pos⟩]
  unsetAttending := fun _ => 0

/-- The course begins a tutorial and signals this student. -/
def beginsTutorial (st : oneSlot.StudentId) : List (Event oneSlot) :=
  let c : oneSlot.CourseId := ⟨0, by decide⟩
  [.course c, .course c, .draw c 1, .course c, .signal c [st], .course c]

/-- The course ends its tutorial. -/
def endsTutorial : List (Event oneSlot) :=
  List.replicate 5 (.course ⟨0, by decide⟩)

/-- The first student is signalled for the first tutorial. -/
def signalsFirst : List (Event oneSlot) :=
  List.replicate 4 (.student ⟨0, by decide⟩) ++ List.replicate 4 (.student ⟨1, by decide⟩) ++
    beginsTutorial ⟨0, by decide⟩

/-- A student who has been woken up counts himself in. -/
def countsIn (st : oneSlot.StudentId) : List (Event oneSlot) :=
  List.replicate 7 (.student st)

/-- The theorem at a student who is counted in his tutorial. -/
theorem notOverbooked_iff_counted : ∃ past s, Run (registration .exact oneSlot) past s ∧
    s.attending ⟨0, by decide⟩ = 1 ∧
      (Machine.Throughout NotOverbooked past s ↔ Machine.StepsMeet NobodyLate past) := by
  obtain ⟨past, s, run, hone⟩ := Machine.exists_run_of_trace (M := registration .exact oneSlot) rfl
    (signalsFirst ++ countsIn ⟨0, by decide⟩)
    (fun _ s => s.attending ⟨0, by decide⟩ = 1) (by decide)
  exact ⟨past, s, run, hone, notOverbooked_iff run⟩

/-- Two students are counted in the second tutorial, which has one slot: the first
one is late. -/
theorem overbooked : ∃ past s, Run (registration .exact oneSlot) past s ∧ ¬ NotOverbooked s := by
  obtain ⟨past, s, run, hslots, htwo⟩ := Machine.exists_run_of_trace
    (M := registration .exact oneSlot) rfl
    (signalsFirst ++ endsTutorial ++ beginsTutorial ⟨1, by decide⟩ ++
      countsIn ⟨1, by decide⟩ ++ countsIn ⟨0, by decide⟩)
    (fun _ s => (s.course ⟨0, by decide⟩).slots = some 1 ∧ s.attending ⟨0, by decide⟩ = 2)
    (by decide)
  refine ⟨past, s, run, ?_⟩
  intro hright
  have hseats := (hright ⟨0, by decide⟩ 1 hslots).2.1
  rw [htwo] at hseats
  exact absurd hseats (by decide)

end Courses
