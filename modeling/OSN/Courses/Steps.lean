import OSN.Courses.Registration

/-!
# What the operations do

Each operation, seen once: where its thread was and where it is now, what it
does to the count and to the locks, whom it wakes up, and what it leaves alone.
-/

namespace Courses

variable {inp : Input} {wakeups : Wakeups} {s t : State inp} {e : Event inp}
  {c : inp.CourseId} {st : inp.StudentId}

/-! ### Who is blocked -/

theorem blockedOnTut_iff {c : inp.CourseId} {st : inp.StudentId} :
    s.BlockedOnTut c st ↔ ∃ i, s.student st = .tut i .blocked ∧ inp.pref st i = c := by
  unfold State.BlockedOnTut
  split
  · rename_i i hs
    simp [hs]
  · rename_i hnot
    constructor
    · exact False.elim
    · intro hblocked
      obtain ⟨i, hs, _⟩ := hblocked
      exact hnot i hs

theorem blockedOnInTut_iff {c : inp.CourseId} {st : inp.StudentId} :
    s.BlockedOnInTut c st ↔ ∃ i, s.student st = .inTut i .blocked ∧ inp.pref st i = c := by
  unfold State.BlockedOnInTut
  split
  · rename_i i hs
    simp [hs]
  · rename_i hnot
    constructor
    · exact False.elim
    · intro hblocked
      obtain ⟨i, hs, _⟩ := hblocked
      exact hnot i hs

/-- A student is blocked on `tut_cond` of one course. -/
theorem State.BlockedOnTut.unique {c c' : inp.CourseId} {st : inp.StudentId}
    (h : s.BlockedOnTut c st) (h' : s.BlockedOnTut c' st) : c = c' := by
  obtain ⟨i, hs, hc⟩ := blockedOnTut_iff.mp h
  obtain ⟨i', hs', hc'⟩ := blockedOnTut_iff.mp h'
  have hi : i = i' := by simpa [hs] using hs'
  rw [← hc, ← hc', hi]

/-- And on `in_tut` of one course. -/
theorem State.BlockedOnInTut.unique {c c' : inp.CourseId} {st : inp.StudentId}
    (h : s.BlockedOnInTut c st) (h' : s.BlockedOnInTut c' st) : c = c' := by
  obtain ⟨i, hs, hc⟩ := blockedOnInTut_iff.mp h
  obtain ⟨i', hs', hc'⟩ := blockedOnInTut_iff.mp h'
  have hi : i = i' := by simpa [hs] using hs'
  rw [← hc, ← hc', hi]

/-- Who is blocked on `in_tut` is not blocked on `tut_cond`. -/
theorem State.BlockedOnInTut.not_tut {c c' : inp.CourseId} {st : inp.StudentId}
    (h : s.BlockedOnInTut c st) : ¬ s.BlockedOnTut c' st := by
  intro h'
  obtain ⟨i, hs, _⟩ := blockedOnInTut_iff.mp h
  obtain ⟨i', hs', _⟩ := blockedOnTut_iff.mp h'
  rw [hs] at hs'
  cases hs'

/-- A wakeup is for those who are blocked. -/
theorem wakeUp_cases (a : StudentAt) :
    (∃ i, a = .tut i .blocked ∧ State.wakeUp a = .tut i (.woken ())) ∨
      (∃ i, a = .inTut i .blocked ∧ State.wakeUp a = .inTut i (.woken ())) ∨
        (∀ i, a ≠ .tut i .blocked ∧ a ≠ .inTut i .blocked) ∧ State.wakeUp a = a := by
  unfold State.wakeUp
  split
  · simp
  · simp
  · rename_i htut hinTut
    exact Or.inr (Or.inr ⟨fun i => ⟨htut i, hinTut i⟩, rfl⟩)

/-- A wakeup at one student: he is woken up, or left as he is. -/
theorem wake_cases (woken : inp.StudentId → Prop) [DecidablePred woken]
    (ht : t.student = (s.wake woken).student) (st : inp.StudentId) :
    woken st ∧ t.student st = State.wakeUp (s.student st) ∨
      ¬ woken st ∧ t.student st = s.student st := by
  rw [ht]
  simp only [State.wake]
  by_cases hw : woken st
  · exact Or.inl ⟨hw, if_pos hw⟩
  · exact Or.inr ⟨hw, if_neg hw⟩

/-! ### The operations with a choice -/

theorem draw_cases {c : inp.CourseId} {slots : Nat} (h : s.draw c slots = some t) :
    ∃ ta, s.course c = .draw ta ∧ (1 ≤ slots ∧ slots ≤ (inp.course c).maxSlots) ∧
      t = { s.setCourse c (.lockTut ta slots) with
            tutorials := Function.update s.tutorials c (s.tutorials c + 1)
            admitted := Function.update s.admitted c 0 } := by
  unfold State.draw at h
  split at h
  · rename_i ta hs
    simp only [Option.ite_none_right_eq_some, Option.some.injEq] at h
    exact ⟨ta, hs, h.1, h.2.symm⟩
  · cases h

theorem signal_cases {c : inp.CourseId} {woken : List inp.StudentId}
    (h : s.signal wakeups c woken = some t) :
    ∃ ta slots left, s.course c = .signal ta slots (left + 1) ∧
      CondVar.MayWake wakeups (s.BlockedOnTut c) woken ∧
        t = { (s.setCourse c (.signal ta slots left)).wake (· ∈ woken) with
              signalledFor := fun st =>
                if st ∈ woken then s.tutorials c else s.signalledFor st } := by
  unfold State.signal at h
  split at h
  · rename_i ta slots left hs
    simp only [Option.ite_none_right_eq_some, Option.some.injEq] at h
    exact ⟨ta, slots, left, hs, h.1, h.2.symm⟩
  · cases h

theorem choose_cases {st : inp.StudentId} {stays : Bool} (h : s.choose st stays = some t) :
    ∃ i, s.student st = .choose i ∧
      t = s.setStudent st (if stays then .exited else State.nextPref i) := by
  unfold State.choose at h
  split at h
  · rename_i i hs
    exact ⟨i, hs, (Option.some.inj h).symm⟩
  · cases h

theorem spurious_cases {st : inp.StudentId} (h : s.spurious wakeups st = some t) :
    wakeups = .posix ∧ t = s.wake (· = st) := by
  unfold State.spurious at h
  simp only [Option.ite_none_right_eq_some, Option.some.injEq] at h
  exact ⟨h.1.1, h.2.symm⟩

/-! ### The threads -/

/-- The slots of the tutorial a course is in, from the draw until it resets
`students_attending`. -/
def CourseAt.slots : CourseAt → Option Nat
  | .lockTut _ slots => some slots
  | .signal _ slots _ => some slots
  | .tutorial _ slots => some slots
  | .broadcast _ slots => some slots
  | .unlockInTut _ slots => some slots
  | .reset _ slots => some slots
  | _ => none

/-- The signals a course has still to send. -/
def CourseAt.left : CourseAt → Nat
  | .lockTut _ slots => slots
  | .signal _ _ left => left
  | _ => 0

/-- The preference a student has been woken up for, until he is counted in. -/
def StudentAt.seeking : StudentAt → Option (Fin 3)
  | .tut i (.woken _) => some i
  | .tut i (.unlock _) => some i
  | .testAgain i => some i
  | .lockCounter i => some i
  | .read i => some i
  | .write i _ => some i
  | _ => none

/-- The preference whose `student_counter_lock` a student holds. -/
def StudentAt.counting : StudentAt → Option (Fin 3)
  | .read i => some i
  | .write i _ => some i
  | .unlockCounter i => some i
  | _ => none

/-- **What an operation of a course thread does** to the tutorials and to the
students, when it takes the thread to `a`. -/
structure CourseStep (c : inp.CourseId) (s : State inp) (a : CourseAt) (t : State inp) :
    Prop where
  course : t.course = Function.update s.course c a
  tutorials : t.tutorials = s.tutorials
  signalledFor : t.signalledFor = s.signalledFor
  admitted : t.admitted = s.admitted
  counterLock : t.counterLock = s.counterLock
  slots : ∀ slots, a.slots = some slots →
    (s.course c).slots = some slots ∧ a.left = (s.course c).left
  attending : (∃ ta slots, s.course c = .reset ta slots ∧ a = .release ta ∧
      t.attending = Function.update s.attending c 0) ∨
    (∀ ta slots, s.course c ≠ .reset ta slots) ∧ t.attending = s.attending
  student : (∃ ta slots, s.course c = .broadcast ta slots ∧
      t.student = (s.wake (s.BlockedOnInTut c)).student) ∨
    (s.course c = .lastBroadcast ∧ t.student = (s.wake (s.BlockedOnTut c)).student) ∨
    (∀ ta slots, s.course c ≠ .broadcast ta slots) ∧ s.course c ≠ .lastBroadcast ∧
      t.student = s.student
  exited : a = .exited ↔ s.course c = .lastBroadcast

theorem courseThread_step (h : s.courseThread c = some t) : ∃ a, CourseStep c s a t := by
  unfold State.courseThread at h
  split at h <;> rename_i hs
  all_goals try split at h
  all_goals try split at h
  all_goals try split at h
  all_goals try split at h
  all_goals first
    | (obtain rfl := Option.some.inj h
       exact ⟨_, rfl, rfl, rfl, rfl, rfl, by simp [hs, CourseAt.slots, CourseAt.left],
         by simp [hs, State.setCourse, State.wake], by simp [hs, State.setCourse, State.wake],
         by simp [hs]⟩)
    | cases h

/-- **What an operation of a student thread does**, when it takes the thread to
`a`. -/
structure StudentStep (st : inp.StudentId) (s : State inp) (a : StudentAt) (t : State inp) :
    Prop where
  student : t.student = Function.update s.student st a
  course : t.course = s.course
  taLock : t.taLock = s.taLock
  turnsLeft : t.turnsLeft = s.turnsLeft
  tutorials : t.tutorials = s.tutorials
  signalledFor : t.signalledFor = s.signalledFor
  awake : ∀ i, s.student st ≠ .tut i .blocked ∧ s.student st ≠ .inTut i .blocked
  asleep : ∀ i, (a = .tut i .blocked ↔ s.student st = .tut i .wait) ∧
    (a = .inTut i .blocked ↔ s.student st = .inTut i .wait)
  seeking : a.seeking = none ∨ a.seeking = (s.student st).seeking
  read : ∀ i value, a = .write i value → value = s.attending (inp.pref st i)
  count : (∃ i value, s.student st = .write i value ∧ a = .unlockCounter i ∧
      t.attending = Function.update s.attending (inp.pref st i) (value + 1) ∧
      t.admitted =
        if s.signalledFor st = s.tutorials (inp.pref st i) then
          Function.update s.admitted (inp.pref st i) (s.admitted (inp.pref st i) + 1)
        else s.admitted) ∨
    (∀ i value, s.student st ≠ .write i value) ∧ t.attending = s.attending ∧
      t.admitted = s.admitted
  counting : (∃ i, s.student st = .lockCounter i ∧ a = .read i ∧
      s.counterLock (inp.pref st i) = none ∧
      t.counterLock = Function.update s.counterLock (inp.pref st i) (some st)) ∨
    (∃ i, s.student st = .unlockCounter i ∧ a = .inTut i .lock ∧
      t.counterLock = Function.update s.counterLock (inp.pref st i) none) ∨
    a.counting = (s.student st).counting ∧ t.counterLock = s.counterLock

/-- The next preference begins with its test. -/
theorem nextPref_at (i : Fin 3) :
    (State.nextPref i).seeking = none ∧ (State.nextPref i).counting = none ∧
      (∀ j value, State.nextPref i ≠ .write j value) ∧
        ∀ j, State.nextPref i ≠ .tut j .blocked ∧ State.nextPref i ≠ .inTut j .blocked := by
  unfold State.nextPref
  split
  · simp [StudentAt.seeking, StudentAt.counting]
  · simp [StudentAt.seeking, StudentAt.counting]

theorem studentThread_step (h : s.studentThread st = some t) : ∃ a, StudentStep st s a t := by
  have hnext := nextPref_at
  unfold State.studentThread at h
  split at h <;> rename_i hs
  all_goals try split at h
  all_goals first
    | (obtain rfl := Option.some.inj h
       refine ⟨_, rfl, rfl, rfl, rfl, rfl, rfl, by simp [hs], by simp [hs, hnext], ?_,
         by simp [hnext], by simp [hs, State.setStudent],
         by simp_all [StudentAt.counting, State.setStudent]⟩
       first
         | exact Or.inl (hnext _).1
         | simp [hs, StudentAt.seeking])
    | cases h

/-- **What a step does to one course thread.** -/
inductive CourseMove (c : inp.CourseId) (s : State inp) (e : Event inp) (t : State inp) : Prop
  | keep (hsame : t.course c = s.course c)
  | thread (a : CourseAt) (he : e = .course c) (hstep : CourseStep c s a t)
  | draw (ta : Ta) (slots : Nat) (he : e = .draw c slots) (hs : s.course c = .draw ta)
      (ht : t.course c = .lockTut ta slots)
  | signal (ta : Ta) (slots left : Nat) (woken : List inp.StudentId) (he : e = .signal c woken)
      (hs : s.course c = .signal ta slots (left + 1)) (ht : t.course c = .signal ta slots left)

theorem step_course (h : s.step wakeups e = some t) (c : inp.CourseId) : CourseMove c s e t := by
  cases e with
  | course c' =>
      obtain ⟨a, hstep⟩ := courseThread_step h
      by_cases hc : c = c'
      · subst hc
        exact .thread a rfl hstep
      · exact .keep (by rw [hstep.course, Function.update_of_ne hc])
  | draw c' slots =>
      obtain ⟨ta, hs, _, ht⟩ := draw_cases h
      subst ht
      by_cases hc : c = c'
      · subst hc
        exact .draw ta slots rfl hs (Function.update_self _ _ _)
      · exact .keep (Function.update_of_ne hc _ _)
  | signal c' woken =>
      obtain ⟨ta, slots, left, hs, _, ht⟩ := signal_cases h
      subst ht
      by_cases hc : c = c'
      · subst hc
        exact .signal ta slots left woken rfl hs (Function.update_self _ _ _)
      · exact .keep (Function.update_of_ne hc _ _)
  | student st =>
      obtain ⟨a, hstep⟩ := studentThread_step h
      exact .keep (congrFun hstep.course c)
  | choose st stays =>
      obtain ⟨i, hs, ht⟩ := choose_cases h
      subst ht
      exact .keep rfl
  | spurious st =>
      obtain ⟨_, ht⟩ := spurious_cases h
      subst ht
      exact .keep rfl

/-- A course that has exited does nothing more. -/
theorem exited_stays (h : s.step wakeups e = some t)
    (hs : s.course c = .exited) : t.course c = .exited := by
  cases step_course h c with
  | keep hsame => rw [hsame, hs]
  | thread a he hstep =>
      subst he
      simp [State.step, State.courseThread, hs] at h
  | draw ta slots he hs' ht =>
      rw [hs] at hs'
      cases hs'
  | signal ta slots left woken he hs' ht =>
      rw [hs] at hs'
      cases hs'

end Courses
