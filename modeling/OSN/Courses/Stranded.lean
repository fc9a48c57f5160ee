import OSN.Courses.Steps

/-!
# Students of a course that is over

A student tests `course_end` before he locks the mutex and waits, and a course
makes its last broadcasts once.  So he may fall asleep on `tut_cond` or `in_tut`
when all broadcasts are over, and then nobody wakes him up (`stranded_stays`).
There is no other way: the last broadcast of `tut_cond` wakes up all who wait
there (`nobodyStranded_iff`).
-/

namespace Courses

variable {inp : Input} {wakeups : Wakeups} {s t : State inp} {e : Event inp}
  {past : Past (State inp) (Event inp)} {c : inp.CourseId} {st : inp.StudentId}

/-- A student is blocked on a course whose thread has exited. -/
def Stranded (c : inp.CourseId) (st : inp.StudentId) (s : State inp) : Prop :=
  s.course c = .exited ∧ (s.BlockedOnTut c st ∨ s.BlockedOnInTut c st)

/-- **No student is stuck on a finished course.** -/
def NobodyStranded (s : State inp) : Prop :=
  ∀ c st, ¬ Stranded c st s

/-- The course makes its last broadcast of `tut_cond`, and exits. -/
def Exits (c : inp.CourseId) (s : State inp) (e : Event inp) : Prop :=
  e = .course c ∧ s.course c = .lastBroadcast

/-- The course broadcasts `in_tut`. -/
def EndsTutorial (c : inp.CourseId) (s : State inp) (e : Event inp) : Prop :=
  e = .course c ∧ ∃ ta slots, s.course c = .broadcast ta slots

/-- The student falls asleep on `tut_cond`. -/
def WaitsForTut (c : inp.CourseId) (st : inp.StudentId) (s : State inp) (e : Event inp) : Prop :=
  e = .student st ∧ ∃ i, s.student st = .tut i .wait ∧ inp.pref st i = c

/-- The student falls asleep on `in_tut`. -/
def WaitsInTut (c : inp.CourseId) (st : inp.StudentId) (s : State inp) (e : Event inp) : Prop :=
  e = .student st ∧ ∃ i, s.student st = .inTut i .wait ∧ inp.pref st i = c

/-- The student has fallen asleep on `in_tut` since the course last broadcast it,
and has not woken up of himself. -/
def MissesEnd (c : inp.CourseId) (st : inp.StudentId) : Past (State inp) (Event inp) → Prop
  | [] => False
  | (s, e) :: past =>
      WaitsInTut c st s e ∨ ¬ EndsTutorial c s e ∧ e ≠ .spurious st ∧ MissesEnd c st past

/-- Nobody falls asleep on a course that has exited, and when a course exits,
nobody has fallen asleep on `in_tut` since it last broadcast it. -/
def WaitsInTime (past : Past (State inp) (Event inp)) (s : State inp) (e : Event inp) : Prop :=
  ∀ c st, (WaitsForTut c st s e ∨ WaitsInTut c st s e → s.course c ≠ .exited) ∧
    (Exits c s e → ¬ MissesEnd c st past)

/-- **What a step does to one student.** -/
inductive StudentMove (st : inp.StudentId) (s : State inp) (e : Event inp) (t : State inp) : Prop
  | keep (he : e ≠ .student st) (hspurious : e ≠ .spurious st)
      (htut : ∀ c, Exits c s e → ¬ s.BlockedOnTut c st)
      (hinTut : ∀ c, EndsTutorial c s e → ¬ s.BlockedOnInTut c st)
      (ht : t.student st = s.student st)
  | walk (a : StudentAt) (he : e = .student st) (hstep : StudentStep st s a t)
  | choose (i : Fin 3) (stays : Bool) (he : e = .choose st stays) (hs : s.student st = .choose i)
      (ht : t.student st = if stays then .exited else State.nextPref i)
  | woken (he : e ≠ .student st) (ht : t.student st = State.wakeUp (s.student st))
      (hwhy : e = .spurious st ∨ (∃ c, s.course c ≠ .exited ∧ s.BlockedOnTut c st) ∨
        ∃ c, EndsTutorial c s e ∧ s.BlockedOnInTut c st)

/-- A course ends its tutorial, or exits, by an event of its own. -/
theorem Exits.of_course {c' : inp.CourseId} (h : Exits c' s (.course c)) :
    c = c' ∧ s.course c = .lastBroadcast := by
  have hc : c = c' := Event.course.inj h.1
  subst hc
  exact ⟨rfl, h.2⟩

theorem EndsTutorial.of_course {c' : inp.CourseId} (h : EndsTutorial c' s (.course c)) :
    c = c' ∧ ∃ ta slots, s.course c = .broadcast ta slots := by
  have hc : c = c' := Event.course.inj h.1
  subst hc
  exact ⟨rfl, h.2⟩

/-- What a course thread does to one student: its two broadcasts wake up all who
wait there, and nothing else concerns him. -/
theorem courseThread_student (h : s.courseThread c = some t) (st : inp.StudentId) :
    StudentMove st s (.course c) t := by
  obtain ⟨a, hstep⟩ := courseThread_step h
  rcases hstep.student with hend | hexit | hquiet
  · obtain ⟨ta, slots, hs, ht⟩ := hend
    rcases wake_cases _ ht st with hwoken | hasleep
    · exact .woken (by simp) hwoken.2 (Or.inr (Or.inr ⟨c, ⟨rfl, ta, slots, hs⟩, hwoken.1⟩))
    · apply StudentMove.keep (by simp) (by simp)
      · intro c' hexits
        rw [hexits.of_course.2] at hs
        cases hs
      · intro c' hends
        rw [← hends.of_course.1]
        exact hasleep.1
      · exact hasleep.2
  · obtain ⟨hs, ht⟩ := hexit
    rcases wake_cases _ ht st with hwoken | hasleep
    · exact .woken (by simp) hwoken.2 (Or.inr (Or.inl ⟨c, by simp [hs], hwoken.1⟩))
    · apply StudentMove.keep (by simp) (by simp)
      · intro c' hexits
        rw [← hexits.of_course.1]
        exact hasleep.1
      · intro c' hends
        obtain ⟨_, ta, slots, hs'⟩ := hends.of_course
        rw [hs] at hs'
        cases hs'
      · exact hasleep.2
  · obtain ⟨hbroadcast, hlast, ht⟩ := hquiet
    apply StudentMove.keep (by simp) (by simp)
    · intro c' hexits
      exact absurd hexits.of_course.2 hlast
    · intro c' hends
      obtain ⟨_, ta, slots, hs⟩ := hends.of_course
      exact absurd hs (hbroadcast ta slots)
    · rw [ht]

theorem step_student (h : s.step wakeups e = some t) (st : inp.StudentId) :
    StudentMove st s e t := by
  cases e with
  | course c => exact courseThread_student h st
  | draw c slots =>
      obtain ⟨ta, _, _, ht⟩ := draw_cases h
      subst ht
      exact .keep (by simp) (by simp) (by simp [Exits]) (by simp [EndsTutorial]) rfl
  | signal c woken =>
      obtain ⟨ta, slots, left, hs, hmay, ht⟩ := signal_cases h
      have hstudent : t.student = (s.wake (· ∈ woken)).student := by
        rw [ht]
        rfl
      rcases wake_cases _ hstudent st with hwoken | hasleep
      · exact .woken (by simp) hwoken.2
          (Or.inr (Or.inl ⟨c, by simp [hs], hmay.1 st hwoken.1⟩))
      · exact .keep (by simp) (by simp) (by simp [Exits]) (by simp [EndsTutorial]) hasleep.2
  | student st' =>
      obtain ⟨a, hstep⟩ := studentThread_step h
      by_cases hst : st = st'
      · subst hst
        exact .walk a rfl hstep
      · exact .keep (by simp [Ne.symm hst]) (by simp) (by simp [Exits]) (by simp [EndsTutorial])
          (by rw [hstep.student, Function.update_of_ne hst])
  | choose st' stays =>
      obtain ⟨i, hs, ht⟩ := choose_cases h
      subst ht
      by_cases hst : st = st'
      · subst hst
        exact .choose i stays rfl hs (Function.update_self _ _ _)
      · exact .keep (by simp) (by simp) (by simp [Exits]) (by simp [EndsTutorial])
          (Function.update_of_ne hst _ _)
  | spurious st' =>
      obtain ⟨_, ht⟩ := spurious_cases h
      subst ht
      rcases wake_cases (· = st') rfl st with hwoken | hasleep
      · exact .woken (by simp) hwoken.2 (Or.inl (by rw [hwoken.1]))
      · exact .keep (by simp) (by simp [Ne.symm hasleep.1]) (by simp [Exits])
          (by simp [EndsTutorial]) hasleep.2

/-! ### Who falls asleep, and who wakes up -/

/-- Who has been woken up is not blocked. -/
theorem wakeUp_ne_blocked (a : StudentAt) (i : Fin 3) :
    State.wakeUp a ≠ .tut i .blocked ∧ State.wakeUp a ≠ .inTut i .blocked := by
  rcases wakeUp_cases a with htut | hinTut | hawake
  · obtain ⟨j, _, hw⟩ := htut
    simp [hw]
  · obtain ⟨j, _, hw⟩ := hinTut
    simp [hw]
  · rw [hawake.2]
    exact hawake.1 i

/-- **Who is blocked on `tut_cond`**: who has just fallen asleep there, or was
blocked there before, and the course has not exited just now. -/
theorem StudentMove.tut (h : StudentMove st s e t) (ht : t.BlockedOnTut c st) :
    WaitsForTut c st s e ∨ s.BlockedOnTut c st ∧ ¬ Exits c s e := by
  obtain ⟨i, hblocked, hc⟩ := blockedOnTut_iff.mp ht
  cases h with
  | keep he hspurious htut hinTut ht =>
      rw [ht] at hblocked
      have hbefore : s.BlockedOnTut c st := blockedOnTut_iff.mpr ⟨i, hblocked, hc⟩
      exact Or.inr ⟨hbefore, fun hexits => htut c hexits hbefore⟩
  | walk a he hstep =>
      rw [hstep.student, Function.update_self] at hblocked
      exact Or.inl ⟨he, i, (hstep.asleep i).1.mp hblocked, hc⟩
  | choose j stays he hs ht =>
      rw [ht] at hblocked
      split at hblocked
      · cases hblocked
      · exact absurd hblocked ((nextPref_at j).2.2.2 i).1
  | woken he ht hwhy =>
      rw [ht] at hblocked
      exact absurd hblocked (wakeUp_ne_blocked _ i).1

/-- **Who is blocked on `in_tut`**: who has just fallen asleep there, or was
blocked there before, and neither has the tutorial ended nor has he woken up of
himself. -/
theorem StudentMove.inTut_iff (h : StudentMove st s e t) :
    t.BlockedOnInTut c st ↔ WaitsInTut c st s e ∨
      ¬ EndsTutorial c s e ∧ e ≠ .spurious st ∧ s.BlockedOnInTut c st := by
  constructor
  · intro ht
    obtain ⟨i, hblocked, hc⟩ := blockedOnInTut_iff.mp ht
    cases h with
    | keep he hspurious htut hinTut ht =>
        rw [ht] at hblocked
        have hbefore : s.BlockedOnInTut c st := blockedOnInTut_iff.mpr ⟨i, hblocked, hc⟩
        exact Or.inr ⟨fun hends => hinTut c hends hbefore, hspurious, hbefore⟩
    | walk a he hstep =>
        rw [hstep.student, Function.update_self] at hblocked
        exact Or.inl ⟨he, i, (hstep.asleep i).2.mp hblocked, hc⟩
    | choose j stays he hs ht =>
        rw [ht] at hblocked
        split at hblocked
        · cases hblocked
        · exact absurd hblocked ((nextPref_at j).2.2.2 i).2
    | woken he ht hwhy =>
        rw [ht] at hblocked
        exact absurd hblocked (wakeUp_ne_blocked _ i).2
  · intro hwhy
    rcases hwhy with hwaits | hasleep
    · obtain ⟨he', i, hs, hc⟩ := hwaits
      cases h with
      | keep he => exact absurd he' he
      | walk a he hstep =>
          refine blockedOnInTut_iff.mpr ⟨i, ?_, hc⟩
          rw [hstep.student, Function.update_self]
          exact (hstep.asleep i).2.mpr hs
      | choose j stays he =>
          rw [he] at he'
          cases he'
      | woken he => exact absurd he' he
    · obtain ⟨hends, hspurious, hbefore⟩ := hasleep
      obtain ⟨i, hs, hc⟩ := blockedOnInTut_iff.mp hbefore
      cases h with
      | keep he hspurious' htut hinTut ht =>
          exact blockedOnInTut_iff.mpr ⟨i, by rw [ht, hs], hc⟩
      | walk a he hstep => exact absurd hs (hstep.awake i).2
      | choose j stays he hs' ht =>
          rw [hs] at hs'
          cases hs'
      | woken he ht hwhy =>
          rcases hwhy with hself | htut | hinTut
          · exact absurd hself hspurious
          · obtain ⟨c', _, htut⟩ := htut
            exact absurd htut hbefore.not_tut
          · obtain ⟨c', hends', hinTut⟩ := hinTut
            rw [hinTut.unique hbefore] at hends'
            exact absurd hends' hends

/-- A student is blocked on `in_tut` when he has fallen asleep there since the last
broadcast. -/
theorem blockedOnInTut_iff_missesEnd (run : Run (registration wakeups inp) past s) :
    s.BlockedOnInTut c st ↔ MissesEnd c st past := by
  induction run with
  | init hs =>
      have hstart : _ = start inp := hs
      subst hstart
      simp [blockedOnInTut_iff, start, MissesEnd]
  | step run h ih =>
      rw [(step_student h st).inTut_iff, ih]
      rfl

/-- A course thread exits after its last broadcast. -/
theorem exits_of_exited (h : s.step wakeups e = some t) (hs : s.course c ≠ .exited)
    (ht : t.course c = .exited) : Exits c s e := by
  cases step_course h c with
  | keep hsame =>
      rw [hsame] at ht
      exact absurd ht hs
  | thread a he hstep =>
      rw [hstep.course, Function.update_self] at ht
      exact ⟨he, hstep.exited.mp ht⟩
  | draw ta slots he hs' ht' =>
      rw [ht'] at ht
      cases ht
  | signal ta slots left woken he hs' ht' =>
      rw [ht'] at ht
      cases ht

/-- Who falls asleep moves no course. -/
theorem course_of_student (h : s.step wakeups e = some t) (he : e = .student st) :
    t.course c = s.course c := by
  subst he
  obtain ⟨a, hstep⟩ := studentThread_step h
  rw [hstep.course]

/-! ### The result -/

/-- A step from a state in which nobody is stranded leads to such a state just when
nobody falls asleep too late. -/
theorem nobodyStranded_step (run : Run (registration wakeups inp) past s)
    (h : s.step wakeups e = some t) (hnobody : NobodyStranded s) :
    NobodyStranded t ↔ WaitsInTime past s e := by
  constructor
  · intro hafter c st
    constructor
    · intro hwaits hs
      have ht := exited_stays h hs
      rcases hwaits with htut | hinTut
      · obtain ⟨he, i, hwait, hc⟩ := htut
        subst he
        obtain ⟨a, hstep⟩ := studentThread_step h
        have hblocked : t.student st = .tut i .blocked := by
          rw [hstep.student, Function.update_self]
          exact (hstep.asleep i).1.mpr hwait
        exact hafter c st ⟨ht, Or.inl (blockedOnTut_iff.mpr ⟨i, hblocked, hc⟩)⟩
      · exact hafter c st ⟨ht, Or.inr ((step_student h st).inTut_iff.mpr (Or.inl hinTut))⟩
    · intro hexits hmisses
      have hblocked := (blockedOnInTut_iff_missesEnd run).mpr hmisses
      obtain ⟨he, hs⟩ := hexits
      subst he
      have ht : t.course c = .exited := by
        simp only [State.step, State.courseThread, hs, Option.some.injEq] at h
        rw [← h]
        simp [State.wake, State.setCourse]
      have hends : ¬ EndsTutorial c s (.course c) := by
        intro hends
        obtain ⟨_, ta, slots, hs'⟩ := hends
        rw [hs] at hs'
        cases hs'
      have hstill := (step_student h st).inTut_iff.mpr (Or.inr ⟨hends, by simp, hblocked⟩)
      exact hafter c st ⟨ht, Or.inr hstill⟩
  · intro hintime c st hstranded
    obtain ⟨ht, hblocked⟩ := hstranded
    obtain ⟨hawake, hmisses⟩ := hintime c st
    by_cases hs : s.course c = .exited
    · rcases hblocked with htut | hinTut
      · rcases (step_student h st).tut htut with hwaits | hbefore
        · exact hawake (Or.inl hwaits) hs
        · exact hnobody c st ⟨hs, Or.inl hbefore.1⟩
      · rcases (step_student h st).inTut_iff.mp hinTut with hwaits | hbefore
        · exact hawake (Or.inr hwaits) hs
        · exact hnobody c st ⟨hs, Or.inr hbefore.2.2⟩
    · have hexits := exits_of_exited h hs ht
      rcases hblocked with htut | hinTut
      · rcases (step_student h st).tut htut with hwaits | hbefore
        · rw [course_of_student h hwaits.1] at ht
          exact hs ht
        · exact hbefore.2 hexits
      · rcases (step_student h st).inTut_iff.mp hinTut with hwaits | hbefore
        · rw [course_of_student h hwaits.1] at ht
          exact hs ht
        · exact hmisses hexits ((blockedOnInTut_iff_missesEnd run).mp hbefore.2.2)

/-- **When no student is stuck on a finished course.**  In every state of a run,
just when nobody falls asleep on a course that has exited, and no course exits
while somebody has slept through the end of its last tutorial. -/
theorem nobodyStranded_iff (run : Run (registration wakeups inp) past s) :
    Machine.Throughout NobodyStranded past s ↔ Machine.StepsMeet WaitsInTime past := by
  apply run.throughout_iff
  · intro s hs
    have hstart : s = start inp := hs
    subst hstart
    intro c st hstranded
    cases hstranded.1
  · intro past s e t run _ hnobody h
    exact nobodyStranded_step run h hnobody

/-- **Nobody wakes up who is stranded**, without spurious wakeups: `main` waits for
him for ever. -/
theorem stranded_stays (h : s.step .exact e = some t) (hs : Stranded c st s) :
    Stranded c st t := by
  obtain ⟨hexited, hblocked⟩ := hs
  have hself : e ≠ .spurious st := by
    intro he
    subst he
    cases (spurious_cases h).1
  refine ⟨exited_stays h hexited, ?_⟩
  rcases hblocked with htut | hinTut
  · left
    obtain ⟨i, hi, hc⟩ := blockedOnTut_iff.mp htut
    cases step_student h st with
    | keep he hspurious htut' hinTut ht => exact blockedOnTut_iff.mpr ⟨i, by rw [ht, hi], hc⟩
    | walk a he hstep => exact absurd hi (hstep.awake i).1
    | choose j stays he hs ht =>
        rw [hi] at hs
        cases hs
    | woken he ht hwhy =>
        rcases hwhy with hwhy | hother | hinTut
        · exact absurd hwhy hself
        · obtain ⟨c', hopen, htut'⟩ := hother
          rw [htut'.unique htut] at hopen
          exact absurd hexited hopen
        · obtain ⟨_, _, hinTut⟩ := hinTut
          exact absurd htut hinTut.not_tut
  · right
    have hends : ¬ EndsTutorial c s e := by
      intro hends
      obtain ⟨_, ta, slots, hs⟩ := hends
      rw [hexited] at hs
      cases hs
    exact (step_student h st).inTut_iff.mpr (Or.inr ⟨hends, hself, hinTut⟩)

/-- One student who prefers a course without TAs. -/
def noTa : Input where
  labs := []
  courses := [⟨1, Nat.one_pos, []⟩]
  students := [fun _ => ⟨0, Nat.one_pos⟩]
  unsetAttending := fun _ => 0

/-- The course looks for a TA, sets `course_end`, makes its last broadcast and
exits. -/
def isWithdrawn : List (Event noTa) :=
  List.replicate 3 (.course ⟨0, by decide⟩)

/-- The student comes this far. -/
def goesOn (steps : Nat) : List (Event noTa) :=
  List.replicate steps (.student ⟨0, by decide⟩)

/-- The theorem at a student who is woken up by the last broadcast. -/
theorem nobodyStranded_iff_woken : ∃ past s, Run (registration .posix noTa) past s ∧
    (s.course ⟨0, by decide⟩ = .exited ∧ s.student ⟨0, by decide⟩ = .tut 0 (.woken ())) ∧
      (Machine.Throughout NobodyStranded past s ↔ Machine.StepsMeet WaitsInTime past) := by
  obtain ⟨past, s, run, hwoken⟩ := Machine.exists_run_of_trace (M := registration .posix noTa) rfl
    (goesOn 4 ++ isWithdrawn)
    (fun _ s => s.course ⟨0, by decide⟩ = .exited ∧
      s.student ⟨0, by decide⟩ = .tut 0 (.woken ())) (by decide)
  exact ⟨past, s, run, hwoken, nobodyStranded_iff run⟩

/-- The student tests `course_end` before the course is withdrawn, and falls asleep
after its last broadcast. -/
theorem left_waiting : ∃ past s, Run (registration .exact noTa) past s ∧ ¬ NobodyStranded s := by
  obtain ⟨past, s, run, hexited, hblocked⟩ := Machine.exists_run_of_trace
    (M := registration .exact noTa) rfl (goesOn 2 ++ isWithdrawn ++ goesOn 2)
    (fun _ s => s.course ⟨0, by decide⟩ = .exited ∧ s.BlockedOnTut ⟨0, by decide⟩ ⟨0, by decide⟩)
    (by decide)
  exact ⟨past, s, run, fun hnobody => hnobody _ _ ⟨hexited, Or.inl hblocked⟩⟩

end Courses
