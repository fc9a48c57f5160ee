import OSN.Courses.Assistants

/-!
# Signals and seats

With each signal of a tutorial a course gives away one of its slots, to the
student it wakes up.  He has it until he counts himself in (`Seeks`), and then
he is one of those admitted.  So the admitted, those who are still to count
themselves in and the signals still to be sent are no more than the slots
(`Booked`).

`LedgerMove` says what a step does to all that at one course.
-/

namespace Courses

variable {inp : Input} {s t : State inp} {e : Event inp}
  {past : Past (State inp) (Event inp)}

namespace State

/-- A student has been woken up for a course and is not counted in yet. -/
def Seeks (s : State inp) (c : inp.CourseId) (st : inp.StudentId) : Prop :=
  (s.student st).seeking.map (inp.pref st) = some c

/-- He has been signalled for the current tutorial of the course. -/
def Pending (s : State inp) (c : inp.CourseId) (st : inp.StudentId) : Prop :=
  s.Seeks c st ∧ s.signalledFor st = s.tutorials c

instance (s : State inp) (c : inp.CourseId) : DecidablePred (s.Pending c) := by
  intro st
  unfold Pending Seeks
  infer_instance

/-- How many students the current tutorial of a course has still to admit. -/
def pending (s : State inp) (c : inp.CourseId) : Nat :=
  headcount id (s.Pending c)

/-- A student is about to write `value + 1` to `students_attending`. -/
def Writes (s : State inp) (c : inp.CourseId) (st : inp.StudentId) (value : Int) : Prop :=
  ∃ i, s.student st = .write i value ∧ inp.pref st i = c

theorem Writes.seeks {c : inp.CourseId} {st : inp.StudentId} {value : Int}
    (h : s.Writes c st value) : s.Seeks c st := by
  obtain ⟨i, hs, hc⟩ := h
  unfold Seeks
  rw [hs, ← hc]
  rfl

end State

/-- **What a step does to the seats of a course.** -/
inductive LedgerMove (c : inp.CourseId) (s : State inp) (e : Event inp) (t : State inp) : Prop
  | gone (he : ∀ slots, e ≠ .draw c slots) (hs : (s.course c).slots = none)
      (ht : t.course c = .exited)
  | keep (he : ∀ slots, e ≠ .draw c slots)
      (hcount : ∀ st value, e = .student st → ¬ s.Writes c st value)
      (hreset : e = .course c → ∀ ta slots, s.course c ≠ .reset ta slots)
      (hattending : t.attending c = s.attending c) (hadmitted : t.admitted c = s.admitted c)
      (htutorials : t.tutorials c = s.tutorials c)
      (hslots : ∀ slots, (t.course c).slots = some slots →
        (s.course c).slots = some slots ∧ (t.course c).left = (s.course c).left)
      (hseeks : ∀ st, t.Seeks c st → s.Seeks c st ∧ t.signalledFor st = s.signalledFor st)
      (hwrites : ∀ st value, t.Writes c st value → s.Writes c st value ∨ value = s.attending c)
  | draw (ta : Ta) (slots : Nat) (he : e = .draw c slots) (hs : s.course c = .draw ta)
      (hmax : slots ≤ (inp.course c).maxSlots) (hcourse : t.course c = .lockTut ta slots)
      (hattending : t.attending c = s.attending c) (hadmitted : t.admitted c = 0)
      (htutorials : t.tutorials c = s.tutorials c + 1)
      (hseeks : ∀ st, t.Seeks c st → s.Seeks c st ∧ t.signalledFor st = s.signalledFor st)
      (hwrites : ∀ st value, t.Writes c st value → s.Writes c st value)
  | signal (ta : Ta) (slots left : Nat) (woken : List inp.StudentId) (he : e = .signal c woken)
      (hs : s.course c = .signal ta slots (left + 1)) (hone : woken.length ≤ 1)
      (hcourse : t.course c = .signal ta slots left)
      (hattending : t.attending c = s.attending c) (hadmitted : t.admitted c = s.admitted c)
      (htutorials : t.tutorials c = s.tutorials c)
      (hseeks : ∀ st, t.Seeks c st → s.Seeks c st ∧ t.signalledFor st = s.signalledFor st ∨
        st ∈ woken ∧ t.signalledFor st = s.tutorials c)
      (hwrites : ∀ st value, t.Writes c st value →
        s.Writes c st value ∧ t.signalledFor st = s.signalledFor st)
  | count (st : inp.StudentId) (value : Int) (he : e = .student st) (hs : s.Writes c st value)
      (hcourse : t.course c = s.course c) (hattending : t.attending c = value + 1)
      (hadmitted : t.admitted c =
        if s.signalledFor st = s.tutorials c then s.admitted c + 1 else s.admitted c)
      (htutorials : t.tutorials c = s.tutorials c)
      (hseeks : ∀ st', t.Seeks c st' →
        st' ≠ st ∧ s.Seeks c st' ∧ t.signalledFor st' = s.signalledFor st')
      (hwrites : ∀ st' value', t.Writes c st' value' → st' ≠ st ∧ s.Writes c st' value')
  | reset (ta : Ta) (slots : Nat) (he : e = .course c) (hs : s.course c = .reset ta slots)
      (hcourse : t.course c = .release ta) (hattending : t.attending c = 0)
      (htutorials : t.tutorials c = s.tutorials c)
      (hseeks : ∀ st, t.Seeks c st → s.Seeks c st ∧ t.signalledFor st = s.signalledFor st)
      (hwrites : ∀ st value, t.Writes c st value → s.Writes c st value)

theorem counting_wakeUp (a : StudentAt) : (State.wakeUp a).counting = a.counting := by
  rcases wakeUp_cases a with htut | hinTut | hawake
  · obtain ⟨i, ha, hw⟩ := htut
    rw [hw, ha]
    rfl
  · obtain ⟨i, ha, hw⟩ := hinTut
    rw [hw, ha]
    rfl
  · rw [hawake.2]

/-- A wakeup makes those seek a course who were blocked on its `tut_cond`. -/
theorem wake_seeks (woken : inp.StudentId → Prop) [DecidablePred woken] {c : inp.CourseId}
    {st : inp.StudentId} (ht : t.student = (s.wake woken).student) (h : t.Seeks c st) :
    s.Seeks c st ∨ woken st ∧ s.BlockedOnTut c st := by
  unfold State.Seeks at h ⊢
  rcases wake_cases woken ht st with hwoken | hasleep
  · rw [hwoken.2] at h
    rcases wakeUp_cases (s.student st) with htut | hinTut | hawake
    · obtain ⟨i, hi, hw⟩ := htut
      rw [hw] at h
      exact Or.inr ⟨hwoken.1, blockedOnTut_iff.mpr ⟨i, hi, Option.some.inj h⟩⟩
    · obtain ⟨i, hi, hw⟩ := hinTut
      rw [hw] at h
      cases h
    · rw [hawake.2] at h
      exact Or.inl h
  · rw [hasleep.2] at h
    exact Or.inl h

theorem wake_writes (woken : inp.StudentId → Prop) [DecidablePred woken] {c : inp.CourseId}
    {st : inp.StudentId} {value : Int} (ht : t.student = (s.wake woken).student)
    (h : t.Writes c st value) : s.Writes c st value := by
  obtain ⟨i, hs, hc⟩ := h
  rcases wake_cases woken ht st with hwoken | hasleep
  · rw [hwoken.2] at hs
    rcases wakeUp_cases (s.student st) with htut | hinTut | hawake
    · obtain ⟨j, _, hw⟩ := htut
      rw [hw] at hs
      cases hs
    · obtain ⟨j, _, hw⟩ := hinTut
      rw [hw] at hs
      cases hs
    · rw [hawake.2] at hs
      exact ⟨i, hs, hc⟩
  · rw [hasleep.2] at hs
    exact ⟨i, hs, hc⟩

/-- Who is blocked on `tut_cond` has not been woken up. -/
theorem State.BlockedOnTut.not_seeks {c c' : inp.CourseId} {st : inp.StudentId}
    (h : s.BlockedOnTut c st) : ¬ s.Seeks c' st := by
  obtain ⟨i, hs, _⟩ := blockedOnTut_iff.mp h
  unfold State.Seeks
  rw [hs]
  exact nofun

/-- Nobody comes to seek a course by what a course does, but for its last
broadcast. -/
theorem CourseStep.seeks {c c' : inp.CourseId} {a : CourseAt} {st : inp.StudentId}
    (hstep : CourseStep c' s a t) (hc : c = c' → s.course c' ≠ .lastBroadcast)
    (hst : t.Seeks c st) : s.Seeks c st := by
  rcases hstep.student with hend | hlast | hquiet
  · obtain ⟨ta, slots, _, hstudent⟩ := hend
    rcases wake_seeks _ hstudent hst with hold | hnew
    · exact hold
    · exact absurd hnew.2 hnew.1.not_tut
  · obtain ⟨hs, hstudent⟩ := hlast
    rcases wake_seeks _ hstudent hst with hold | hnew
    · exact hold
    · exact absurd hs (hc (hnew.2.unique hnew.1))
  · unfold State.Seeks at hst ⊢
    rwa [hquiet.2.2] at hst

theorem CourseStep.writes {c c' : inp.CourseId} {a : CourseAt} {st : inp.StudentId} {value : Int}
    (hstep : CourseStep c' s a t) (hst : t.Writes c st value) : s.Writes c st value := by
  rcases hstep.student with hend | hlast | hquiet
  · obtain ⟨ta, slots, _, hstudent⟩ := hend
    exact wake_writes _ hstudent hst
  · exact wake_writes _ hlast.2 hst
  · unfold State.Writes at hst ⊢
    rwa [hquiet.2.2] at hst

/-- A course goes on without touching the count. -/
theorem LedgerMove.of_course {c c' : inp.CourseId} {a : CourseAt} (hstep : CourseStep c' s a t)
    (hlast : c = c' → s.course c' ≠ .lastBroadcast)
    (hreset : c = c' → ∀ ta slots, s.course c' ≠ .reset ta slots)
    (hattending : t.attending c = s.attending c) : LedgerMove c s (.course c') t := by
  apply LedgerMove.keep (by simp) (by simp) _ hattending
  · rw [hstep.admitted]
  · rw [hstep.tutorials]
  · intro slots hin
    rw [hstep.course] at hin ⊢
    by_cases hc : c = c'
    · subst hc
      rw [Function.update_self] at hin ⊢
      exact hstep.slots slots hin
    · rw [Function.update_of_ne hc] at hin ⊢
      exact ⟨hin, rfl⟩
  · intro st hst
    exact ⟨hstep.seeks hlast hst, by rw [hstep.signalledFor]⟩
  · intro st value hst
    exact Or.inl (hstep.writes hst)
  · intro he ta slots
    have hc : c' = c := Event.course.inj he
    rw [← hc]
    exact hreset hc.symm ta slots

theorem courseThread_ledger {c' : inp.CourseId} (h : s.courseThread c' = some t)
    (c : inp.CourseId) : LedgerMove c s (.course c') t := by
  obtain ⟨a, hstep⟩ := courseThread_step h
  by_cases hlast : c = c' ∧ s.course c' = .lastBroadcast
  · obtain ⟨hc, hs⟩ := hlast
    subst hc
    apply LedgerMove.gone (by simp)
    · rw [hs]
      rfl
    · rw [hstep.course, Function.update_self, hstep.exited.mpr hs]
  · have hlast' : c = c' → s.course c' ≠ .lastBroadcast := fun hc hs => hlast ⟨hc, hs⟩
    rcases hstep.attending with hreset | hnot
    · obtain ⟨ta, slots, hs, ha, hattending⟩ := hreset
      by_cases hc : c = c'
      · subst hc
        apply LedgerMove.reset ta slots rfl hs
        · rw [hstep.course, Function.update_self, ha]
        · rw [hattending, Function.update_self]
        · rw [hstep.tutorials]
        · intro st hst
          exact ⟨hstep.seeks hlast' hst, by rw [hstep.signalledFor]⟩
        · intro st value hst
          exact hstep.writes hst
      · apply LedgerMove.of_course hstep hlast'
        · intro hsame
          exact absurd hsame hc
        · rw [hattending, Function.update_of_ne hc]
    · exact .of_course hstep hlast' (fun _ => hnot.1) (by rw [hnot.2])

/-- A student goes on without counting himself in. -/
theorem LedgerMove.of_student {c : inp.CourseId} {st : inp.StudentId} {a : StudentAt}
    (he : e = .student st ∨ ∃ stays, e = .choose st stays)
    (hcount : ∀ value, ¬ s.Writes c st value)
    (ht : t.student = Function.update s.student st a) (hcourse : t.course = s.course)
    (hattending : t.attending c = s.attending c) (hadmitted : t.admitted c = s.admitted c)
    (htutorials : t.tutorials = s.tutorials) (hsignalled : t.signalledFor = s.signalledFor)
    (hseeking : a.seeking = none ∨ a.seeking = (s.student st).seeking)
    (hwrite : ∀ i value, a = .write i value → value = s.attending (inp.pref st i)) :
    LedgerMove c s e t := by
  apply LedgerMove.keep
  · intro slots hdraw
    rcases he with he | he
    · rw [he] at hdraw
      cases hdraw
    · obtain ⟨stays, he⟩ := he
      rw [he] at hdraw
      cases hdraw
  · intro st' value hst hwrites
    rcases he with he | he
    · have hsame : st = st' := Event.student.inj (he.symm.trans hst)
      subst hsame
      exact hcount value hwrites
    · obtain ⟨stays, he⟩ := he
      rw [he] at hst
      cases hst
  · intro hc
    rcases he with he | he
    · rw [he] at hc
      cases hc
    · obtain ⟨stays, he⟩ := he
      rw [he] at hc
      cases hc
  · exact hattending
  · exact hadmitted
  · rw [htutorials]
  · intro slots hslots
    rw [hcourse] at hslots ⊢
    exact ⟨hslots, rfl⟩
  · intro st' hst
    refine ⟨?_, by rw [hsignalled]⟩
    unfold State.Seeks at hst ⊢
    rw [ht] at hst
    by_cases hsame : st' = st
    · subst hsame
      rw [Function.update_self] at hst
      rcases hseeking with hnone | hsame
      · rw [hnone] at hst
        cases hst
      · rw [hsame] at hst
        exact hst
    · rw [Function.update_of_ne hsame] at hst
      exact hst
  · intro st' value hst
    obtain ⟨i, hs, hc⟩ := hst
    rw [ht] at hs
    by_cases hsame : st' = st
    · subst hsame
      rw [Function.update_self] at hs
      rw [← hc]
      exact Or.inr (hwrite i value hs)
    · rw [Function.update_of_ne hsame] at hs
      exact Or.inl ⟨i, hs, hc⟩

theorem studentThread_ledger {st : inp.StudentId} (h : s.studentThread st = some t)
    (c : inp.CourseId) : LedgerMove c s (.student st) t := by
  obtain ⟨a, hstep⟩ := studentThread_step h
  rcases hstep.count with hcount | hnot
  · obtain ⟨i, value, hs, ha, hattending, hadmitted⟩ := hcount
    by_cases hc : inp.pref st i = c
    · subst hc
      apply LedgerMove.count st value rfl ⟨i, hs, rfl⟩
      · rw [hstep.course]
      · rw [hattending, Function.update_self]
      · rw [hadmitted]
        split
        · rw [Function.update_self]
        · rfl
      · rw [hstep.tutorials]
      · intro st' hst
        have hne : st' ≠ st := by
          intro hsame
          subst hsame
          unfold State.Seeks at hst
          rw [hstep.student, Function.update_self, ha] at hst
          cases hst
        unfold State.Seeks at hst ⊢
        rw [hstep.student, Function.update_of_ne hne] at hst
        exact ⟨hne, hst, by rw [hstep.signalledFor]⟩
      · intro st' value' hst
        obtain ⟨i', hs', hc'⟩ := hst
        have hne : st' ≠ st := by
          intro hsame
          subst hsame
          rw [hstep.student, Function.update_self, ha] at hs'
          cases hs'
        rw [hstep.student, Function.update_of_ne hne] at hs'
        exact ⟨hne, i', hs', hc'⟩
    · have hother : c ≠ inp.pref st i := Ne.symm hc
      apply LedgerMove.of_student (Or.inl rfl) _ hstep.student hstep.course _ _ hstep.tutorials
        hstep.signalledFor hstep.seeking hstep.read
      · intro value' hwrites
        obtain ⟨i', hs', hc'⟩ := hwrites
        have hi : i = i' := (StudentAt.write.inj (hs.symm.trans hs')).1
        rw [hi] at hc
        exact hc hc'
      · rw [hattending, Function.update_of_ne hother]
      · rw [hadmitted]
        split
        · rw [Function.update_of_ne hother]
        · rfl
  · obtain ⟨hwrite, hattending, hadmitted⟩ := hnot
    apply LedgerMove.of_student (Or.inl rfl) _ hstep.student hstep.course _ _ hstep.tutorials
      hstep.signalledFor hstep.seeking hstep.read
    · intro value hwrites
      obtain ⟨i, hs, _⟩ := hwrites
      exact hwrite i value hs
    · rw [hattending]
    · rw [hadmitted]

theorem step_ledger (h : s.step .exact e = some t) (c : inp.CourseId) : LedgerMove c s e t := by
  cases e with
  | course c' => exact courseThread_ledger h c
  | draw c' slots =>
      obtain ⟨ta, hs, hslots, ht⟩ := draw_cases h
      by_cases hc : c = c'
      · subst hc
        subst ht
        exact .draw ta slots rfl hs hslots.2 (Function.update_self _ _ _) rfl
          (Function.update_self _ _ _) (Function.update_self _ _ _) (fun _ hst => ⟨hst, rfl⟩)
          (fun _ _ => id)
      · subst ht
        refine .keep (by simp [Ne.symm hc]) (by simp) (by simp) rfl (Function.update_of_ne hc _ _)
          (Function.update_of_ne hc _ _) ?_ (fun _ hst => ⟨hst, rfl⟩) (fun _ _ hst => Or.inl hst)
        intro slots' hin
        simp only [State.setCourse, Function.update_of_ne hc] at hin ⊢
        exact ⟨hin, trivial⟩
  | signal c' woken =>
      obtain ⟨ta, slots, left, hs, hwoken, ht⟩ := signal_cases h
      by_cases hc : c = c'
      · subst hc
        subst ht
        refine .signal ta slots left woken rfl hs (hwoken.2.2 rfl) (Function.update_self _ _ _)
          rfl rfl rfl ?_ ?_
        · intro st hst
          by_cases hmem : st ∈ woken
          · exact Or.inr ⟨hmem, by simp [hmem]⟩
          · rcases wake_seeks (· ∈ woken) rfl hst with hold | hnew
            · exact Or.inl ⟨hold, if_neg hmem⟩
            · exact absurd hnew.1 hmem
        · intro st value hst
          have hbefore : s.Writes c st value := wake_writes (· ∈ woken) rfl hst
          have hmem : st ∉ woken := fun hmem => (hwoken.1 st hmem).not_seeks hbefore.seeks
          exact ⟨hbefore, if_neg hmem⟩
      · subst ht
        refine .keep (by simp) (by simp) (by simp) rfl rfl rfl ?_ ?_
          (fun _ _ hst => Or.inl (wake_writes (· ∈ woken) rfl hst))
        · intro slots' hin
          simp only [State.wake, State.setCourse, Function.update_of_ne hc] at hin ⊢
          exact ⟨hin, trivial⟩
        · intro st hst
          rcases wake_seeks (· ∈ woken) rfl hst with hold | hnew
          · have hnot : st ∉ woken := fun hmem => (hwoken.1 st hmem).not_seeks hold
            exact ⟨hold, if_neg hnot⟩
          · exact absurd (hnew.2.unique (hwoken.1 st hnew.1)) hc
  | student st => exact studentThread_ledger h c
  | choose st stays =>
      obtain ⟨i, hs, ht⟩ := choose_cases h
      subst ht
      refine .of_student (Or.inr ⟨stays, rfl⟩) (by simp [State.Writes, hs]) rfl rfl rfl rfl rfl rfl
        ?_ ?_
      · split
        · exact Or.inl rfl
        · exact Or.inl (nextPref_at i).1
      · intro j value hwrite
        split at hwrite
        · cases hwrite
        · exact absurd hwrite ((nextPref_at i).2.2.1 j value)
  | spurious st =>
      obtain ⟨hposix, _⟩ := spurious_cases h
      cases hposix

/-! ### The invariants -/

/-- The seats of a course: its students have been signalled for one of its
tutorials, and those of the current one have slots of their own. -/
structure Booked (c : inp.CourseId) (s : State inp) : Prop where
  signalled : ∀ st, s.Seeks c st → 1 ≤ s.signalledFor st ∧ s.signalledFor st ≤ s.tutorials c
  begun : (s.course c).slots ≠ none → 1 ≤ s.tutorials c
  seats : ∀ slots, (s.course c).slots = some slots →
    slots ≤ (inp.course c).maxSlots ∧ s.admitted c + s.pending c + (s.course c).left ≤ slots

theorem Booked.start (c : inp.CourseId) : Booked c (start inp) where
  signalled st h := by cases h
  begun h := absurd rfl h
  seats slots h := by cases h

theorem pending_eq_zero {c : inp.CourseId}
    (h : ∀ st, s.Seeks c st → s.signalledFor st ≠ s.tutorials c) : s.pending c = 0 := by
  apply headcount_eq_zero
  intro st hst
  exact h st hst.1 hst.2

/-- Nobody new comes to be pending. -/
theorem pending_mono {c : inp.CourseId} (h : ∀ st, t.Pending c st → s.Pending c st) :
    t.pending c ≤ s.pending c :=
  headcount_mono h

/-- One student is pending no more. -/
theorem pending_lt {c : inp.CourseId} {st : inp.StudentId}
    (h : ∀ st', t.Pending c st' → s.Pending c st') (hold : s.Pending c st)
    (hnew : ¬ t.Pending c st) : t.pending c < s.pending c :=
  headcount_lt (p := st) h hold hnew

/-- Those who are woken up come to be pending. -/
theorem pending_le_add {c : inp.CourseId} (woken : List inp.StudentId)
    (h : ∀ st, st ∉ woken → t.Pending c st → s.Pending c st) :
    t.pending c ≤ s.pending c + woken.length :=
  headcount_le_add woken h

/-- Whose tutorial goes on was pending before. -/
theorem pending_before {c : inp.CourseId} {st : inp.StudentId}
    (hseeks : t.Seeks c st → s.Seeks c st ∧ t.signalledFor st = s.signalledFor st)
    (htutorials : t.tutorials c = s.tutorials c) (hst : t.Pending c st) : s.Pending c st := by
  obtain ⟨hnow, hfor⟩ := hst
  obtain ⟨hbefore, hsame⟩ := hseeks hnow
  exact ⟨hbefore, by rw [← hsame, ← htutorials, hfor]⟩

/-- The first student of a tutorial finds all slots free. -/
theorem Booked.draw {c : inp.CourseId} {ta : Ta} {slots : Nat} (hbooked : Booked c s)
    (hmax : slots ≤ (inp.course c).maxSlots) (hcourse : t.course c = .lockTut ta slots)
    (hadmitted : t.admitted c = 0) (htutorials : t.tutorials c = s.tutorials c + 1)
    (hseeks : ∀ st, t.Seeks c st → s.Seeks c st ∧ t.signalledFor st = s.signalledFor st) :
    Booked c t := by
  have hsignalled : ∀ st, t.Seeks c st →
      1 ≤ t.signalledFor st ∧ t.signalledFor st ≤ s.tutorials c := by
    intro st hst
    obtain ⟨hbefore, hsame⟩ := hseeks st hst
    rw [hsame]
    exact hbooked.signalled st hbefore
  constructor
  · intro st hst
    have hst := hsignalled st hst
    omega
  · intro _
    omega
  · intro slots' hin
    -- nobody has been signalled for the new tutorial
    have hnone : t.pending c = 0 := by
      apply pending_eq_zero
      intro st hst
      have hst := hsignalled st hst
      omega
    rw [hcourse] at hin ⊢
    have hsame : slots = slots' := Option.some.inj hin
    subst hsame
    rw [hadmitted, hnone]
    exact ⟨hmax, by simp [CourseAt.left]⟩

/-- A signal takes a slot for the student it wakes up. -/
theorem Booked.signal {c : inp.CourseId} {ta : Ta} {slots left : Nat} {woken : List inp.StudentId}
    (hbooked : Booked c s) (hs : s.course c = .signal ta slots (left + 1))
    (hone : woken.length ≤ 1) (hcourse : t.course c = .signal ta slots left)
    (hadmitted : t.admitted c = s.admitted c) (htutorials : t.tutorials c = s.tutorials c)
    (hseeks : ∀ st, t.Seeks c st → s.Seeks c st ∧ t.signalledFor st = s.signalledFor st ∨
      st ∈ woken ∧ t.signalledFor st = s.tutorials c) :
    Booked c t := by
  have hbegun := hbooked.begun (by simp [hs, CourseAt.slots])
  constructor
  · intro st hst
    rw [htutorials]
    rcases hseeks st hst with hold | hnew
    · rw [hold.2]
      exact hbooked.signalled st hold.1
    · omega
  · intro _
    rw [htutorials]
    exact hbegun
  · intro slots' hin
    have hmore : t.pending c ≤ s.pending c + woken.length := by
      apply pending_le_add
      intro st hmem hst
      apply pending_before _ htutorials hst
      intro hnow
      rcases hseeks st hnow with hold | hnew
      · exact hold
      · exact absurd hnew.1 hmem
    have hseats := hbooked.seats slots (by rw [hs]; rfl)
    rw [hs] at hseats
    rw [hcourse] at hin ⊢
    have hsame : slots = slots' := Option.some.inj hin
    subst hsame
    simp only [CourseAt.left] at hseats ⊢
    omega

/-- A student counts himself in: he is admitted, if it is for this tutorial that
he was signalled. -/
theorem Booked.count {c : inp.CourseId} {st : inp.StudentId} (hbooked : Booked c s)
    (hst : s.Seeks c st) (hcourse : t.course c = s.course c)
    (hadmitted : t.admitted c =
      if s.signalledFor st = s.tutorials c then s.admitted c + 1 else s.admitted c)
    (htutorials : t.tutorials c = s.tutorials c)
    (hseeks : ∀ st', t.Seeks c st' →
      st' ≠ st ∧ s.Seeks c st' ∧ t.signalledFor st' = s.signalledFor st') :
    Booked c t := by
  have hbefore : ∀ st', t.Pending c st' → s.Pending c st' := by
    intro st'
    exact pending_before (fun hnow => (hseeks st' hnow).2) htutorials
  constructor
  · intro st' hst'
    obtain ⟨_, hold, hsame⟩ := hseeks st' hst'
    rw [hsame, htutorials]
    exact hbooked.signalled st' hold
  · intro hin
    rw [hcourse] at hin
    rw [htutorials]
    exact hbooked.begun hin
  · intro slots hin
    rw [hcourse] at hin ⊢
    obtain ⟨hmax, hseats⟩ := hbooked.seats slots hin
    rw [hadmitted]
    refine ⟨hmax, ?_⟩
    split
    · rename_i hfor
      have hfewer : t.pending c < s.pending c := by
        apply pending_lt hbefore ⟨hst, hfor⟩
        intro hnow
        exact (hseeks st hnow.1).1 rfl
      omega
    · have hfewer := pending_mono hbefore
      omega

theorem LedgerMove.booked {c : inp.CourseId} (h : LedgerMove c s e t) (hbooked : Booked c s)
    (hopen : t.course c ≠ .exited) : Booked c t := by
  cases h with
  | gone he hs ht => exact absurd ht hopen
  | keep he hcount hreset hattending hadmitted htutorials hslots hseeks hwrites =>
      constructor
      · intro st hst
        obtain ⟨hbefore, hsame⟩ := hseeks st hst
        rw [hsame, htutorials]
        exact hbooked.signalled st hbefore
      · intro hin
        obtain ⟨slots, hin⟩ := Option.ne_none_iff_exists'.mp hin
        rw [htutorials]
        exact hbooked.begun (by rw [(hslots slots hin).1]; simp)
      · intro slots hin
        obtain ⟨hbefore, hleft⟩ := hslots slots hin
        obtain ⟨hmax, hseats⟩ := hbooked.seats slots hbefore
        have hfewer : t.pending c ≤ s.pending c := by
          apply pending_mono
          intro st
          exact pending_before (hseeks st) htutorials
        rw [hadmitted, hleft]
        exact ⟨hmax, by omega⟩
  | draw ta slots he hs hmax hcourse hattending hadmitted htutorials hseeks hwrites =>
      exact hbooked.draw hmax hcourse hadmitted htutorials hseeks
  | signal ta slots left woken he hs hone hcourse hattending hadmitted htutorials hseeks hwrites =>
      exact hbooked.signal hs hone hcourse hadmitted htutorials hseeks
  | count st value he hs hcourse hattending hadmitted htutorials hseeks hwrites =>
      exact hbooked.count hs.seeks hcourse hadmitted htutorials hseeks
  | reset ta slots he hs hcourse hattending htutorials hseeks hwrites =>
      constructor
      · intro st hst
        obtain ⟨hbefore, hsame⟩ := hseeks st hst
        rw [hsame, htutorials]
        exact hbooked.signalled st hbefore
      · intro hin
        rw [hcourse] at hin
        exact absurd rfl hin
      · intro slots' hin
        rw [hcourse] at hin
        cases hin

/-- **The seats of a course are booked**, until it has exited. -/
theorem booked (run : Run (registration .exact inp) past s) (c : inp.CourseId)
    (hopen : s.course c ≠ .exited) : Booked c s := by
  induction run with
  | init hs =>
      have hstart : _ = start inp := hs
      subst hstart
      exact .start c
  | step run h ih =>
      have hbefore : Booked c _ := ih fun hs => hopen (exited_stays h hs)
      exact (step_ledger h c).booked hbefore hopen

end Courses
