import OSN.Courses.Steps
import OSN.Lib.Owner

/-!
# The turns of the assistants

A course locks a TA before it looks at his turns, and unlocks him when he has
none, or after the tutorial.  So the owner of a TA's lock is the course that is
between the two (`Held`), and only it changes his turns: it takes one with each
tutorial it allocates him to.
-/

namespace Courses

variable {inp : Input} {wakeups : Wakeups} {s t : State inp} {e : Event inp}
  {past : Past (State inp) (Event inp)}

/-- The TA a course has locked. -/
def CourseAt.holds : CourseAt → Option Ta
  | .test ta => some ta
  | .unlock ta => some ta
  | .draw ta => some ta
  | .lockTut ta _ => some ta
  | .signal ta _ _ => some ta
  | .tutorial ta _ => some ta
  | .broadcast ta _ => some ta
  | .unlockInTut ta _ => some ta
  | .reset ta _ => some ta
  | .release ta => some ta
  | _ => none

/-- The TA who is allocated to a course: the one it holds, once a turn is
taken. -/
def CourseAt.allocated : CourseAt → Option Ta
  | .test _ => none
  | .unlock _ => none
  | other => other.holds

/-- In this step the TA is allocated to a course. -/
def Allocates (ta : Ta) (s : State inp) (e : Event inp) : Prop :=
  0 < s.turnsLeft ta ∧ ∃ c, e = .course c ∧ s.course c = .test ta

instance (ta : Ta) (s : State inp) (e : Event inp) : Decidable (Allocates ta s e) := by
  unfold Allocates
  infer_instance

/-- How many tutorials the TA has been allocated to. -/
def allocations (ta : Ta) (past : Past (State inp) (Event inp)) : Nat :=
  past.countP fun x => decide (Allocates ta x.1 x.2)

theorem allocations_cons (ta : Ta) (s : State inp) (e : Event inp)
    (past : Past (State inp) (Event inp)) :
    allocations ta ((s, e) :: past) = allocations ta past + if Allocates ta s e then 1 else 0 := by
  simp [allocations, List.countP_cons]

/-- **What a step does to the TAs.** -/
inductive TaMove (s : State inp) (e : Event inp) (t : State inp) : Prop
  | keep (hlock : t.taLock = s.taLock) (hturns : t.turnsLeft = s.turnsLeft)
      (hholds : ∀ c, (t.course c).holds = (s.course c).holds)
      (hallocated : ∀ c, (t.course c).allocated = (s.course c).allocated)
      (hnone : ∀ ta, ¬ Allocates ta s e)
  | lock (c : inp.CourseId) (ta : Ta) (he : e = .course c) (hfree : s.taLock ta = none)
      (hs : s.course c = .scan ta.lab ta.ta) (hlab : ta.lab < (inp.course c).numLabs)
      (hta : ta.ta < inp.taNum ta.lab)
      (ht : t = { s.setCourse c (.test ta) with
                  taLock := Function.update s.taLock ta (some c) })
  | take (c : inp.CourseId) (ta : Ta) (he : e = .course c) (hs : s.course c = .test ta)
      (hsome : 0 < s.turnsLeft ta)
      (ht : t = { s.setCourse c (.draw ta) with
                  turnsLeft := Function.update s.turnsLeft ta (s.turnsLeft ta - 1) })
  | release (c : inp.CourseId) (ta : Ta) (i i1 : Nat) (he : e = .course c)
      (hs : s.course c = .unlock ta ∨ s.course c = .release ta)
      (ht : t = { s.setCourse c (.scan i i1) with taLock := Function.update s.taLock ta none })

/-- A course goes on and keeps the TA it has. -/
theorem TaMove.of_course {c : inp.CourseId} {a : CourseAt} (hholds : a.holds = (s.course c).holds)
    (hallocated : a.allocated = (s.course c).allocated)
    (hnone : ∀ ta, s.course c = .test ta → ¬ 0 < s.turnsLeft ta)
    (hlock : t.taLock = s.taLock) (hturns : t.turnsLeft = s.turnsLeft)
    (ht : t.course = Function.update s.course c a) (he : ∀ c', e = .course c' → c' = c) :
    TaMove s e t := by
  have hother : ∀ (f : CourseAt → Option Ta), f a = f (s.course c) →
      ∀ c', f (t.course c') = f (s.course c') := by
    intro f hf c'
    rw [ht]
    by_cases hc : c' = c
    · subst hc
      rw [Function.update_self, hf]
    · rw [Function.update_of_ne hc]
  apply TaMove.keep hlock hturns (hother _ hholds) (hother _ hallocated)
  intro ta hallocates
  obtain ⟨hsome, c', hc', htest⟩ := hallocates
  have hc := he c' hc'
  subst hc
  exact hnone ta htest hsome

theorem courseThread_ta {c : inp.CourseId} (h : s.courseThread c = some t) :
    TaMove s (.course c) t := by
  have hsame : ∀ c', Event.course c = .course c' → c' = c := by
    intro c' hc
    exact (Event.course.inj hc).symm
  unfold State.courseThread at h
  cases hs : s.course c with
  | scan i i1 =>
      simp only [hs] at h
      split at h
      · split at h
        · cases h
        · rename_i hlab _ lab hlabs
          split at h
          · rename_i hi1
            split at h
            · rename_i hfree
              have hta : i1 < inp.taNum i := by
                unfold Input.taNum
                rw [hlabs]
                exact hi1
              exact .lock c ⟨i, i1⟩ rfl hfree hs hlab hta (Option.some.inj h).symm
            · obtain rfl := Option.some.inj h
              exact .of_course (by rw [hs]; rfl) (by rw [hs]; rfl) (by simp [hs]) rfl rfl rfl hsame
          · obtain rfl := Option.some.inj h
            exact .of_course (by rw [hs]; rfl) (by rw [hs]; rfl) (by simp [hs]) rfl rfl rfl hsame
      · obtain rfl := Option.some.inj h
        exact .of_course (by rw [hs]; rfl) (by rw [hs]; rfl) (by simp [hs]) rfl rfl rfl hsame
  | test ta =>
      simp only [hs] at h
      split at h
      · rename_i hsome
        exact .take c ta rfl hs hsome (Option.some.inj h).symm
      · rename_i hnone
        obtain rfl := Option.some.inj h
        refine .of_course (by rw [hs]; rfl) (by rw [hs]; rfl) ?_ rfl rfl rfl hsame
        intro ta' hta
        have heq : ta = ta' := CourseAt.test.inj (hs.symm.trans hta)
        subst heq
        exact hnone
  | unlock ta =>
      simp only [hs, Option.some.injEq] at h
      exact .release c ta _ _ rfl (Or.inl hs) h.symm
  | release ta =>
      simp only [hs, Option.some.injEq] at h
      exact .release c ta _ _ rfl (Or.inr hs) h.symm
  | draw | exited => simp [hs] at h
  | lockTut | tutorial =>
      simp only [hs, Option.ite_none_right_eq_some, Option.some.injEq] at h
      obtain ⟨_, h⟩ := h
      subst h
      exact .of_course (by rw [hs]; rfl) (by rw [hs]; rfl) (by simp [hs]) rfl rfl rfl hsame
  | signal ta slots left =>
      cases left with
      | zero =>
          simp only [hs, Option.some.injEq] at h
          subst h
          exact .of_course (by rw [hs]; rfl) (by rw [hs]; rfl) (by simp [hs]) rfl rfl rfl hsame
      | succ left => simp [hs] at h
  | broadcast | unlockInTut | reset | endCourse | lastBroadcast =>
      simp only [hs, Option.some.injEq] at h
      subst h
      exact .of_course (by rw [hs]; rfl) (by rw [hs]; rfl) (by simp [hs]) rfl rfl rfl hsame

theorem TaMove.of_students (hlock : t.taLock = s.taLock) (hturns : t.turnsLeft = s.turnsLeft)
    (hcourse : t.course = s.course) (he : ∀ c, e ≠ .course c) : TaMove s e t := by
  apply TaMove.keep hlock hturns
  · intro c
    rw [hcourse]
  · intro c
    rw [hcourse]
  · intro ta hallocates
    obtain ⟨_, c, hc, _⟩ := hallocates
    exact he c hc

theorem step_ta (h : s.step wakeups e = some t) : TaMove s e t := by
  cases e with
  | course c => exact courseThread_ta h
  | draw c slots =>
      obtain ⟨ta, hs, _, ht⟩ := draw_cases h
      subst ht
      exact .of_course (by rw [hs]; rfl) (by rw [hs]; rfl) (by simp [hs]) rfl rfl rfl nofun
  | signal c woken =>
      obtain ⟨ta, slots, left, hs, _, ht⟩ := signal_cases h
      subst ht
      exact .of_course (by rw [hs]; rfl) (by rw [hs]; rfl) (by simp [hs]) rfl rfl rfl nofun
  | student st =>
      obtain ⟨a, hstep⟩ := studentThread_step h
      exact .of_students hstep.taLock hstep.turnsLeft hstep.course (by simp)
  | choose st stays =>
      obtain ⟨i, hs, ht⟩ := choose_cases h
      subst ht
      exact .of_students rfl rfl rfl (by simp)
  | spurious st =>
      obtain ⟨_, ht⟩ := spurious_cases h
      subst ht
      exact .of_students rfl rfl rfl (by simp)

/-- A TA's lock is held by the course that has locked him. -/
def Held (s : State inp) : Prop :=
  Owned s.taLock fun c => (s.course c).holds

theorem TaMove.held (h : TaMove s e t) (hheld : Held s) : Held t := by
  have hother (c : inp.CourseId) (a : CourseAt) (c' : inp.CourseId) (hc : c' ≠ c) :
      ((s.setCourse c a).course c').holds = (s.course c').holds := by
    simp only [State.setCourse, Function.update_of_ne hc]
  cases h with
  | keep hlock hturns hholds => exact hheld.keep hlock hholds
  | lock c ta he hfree hs hlab hta ht =>
      subst ht
      refine hheld.acquire hfree rfl ?_ ?_ (hother c _)
      · simp [State.setCourse, CourseAt.holds]
      · rw [hs]
        rfl
  | take c ta he hs hsome ht =>
      subst ht
      apply hheld.keep rfl
      intro c'
      by_cases hc : c' = c
      · subst hc
        rw [hs]
        simp [State.setCourse, CourseAt.holds]
      · exact hother c _ c' hc
  | release c ta i i1 he hs ht =>
      subst ht
      refine hheld.release rfl ?_ ?_ (hother c _)
      · simp [State.setCourse, CourseAt.holds]
      · rcases hs with hs | hs
        · rw [hs]
          rfl
        · rw [hs]
          rfl

/-- **Who has locked whom**, in every state. -/
theorem held (run : Run (registration wakeups inp) past s) : Held s := by
  induction run with
  | init hs =>
      have hstart : _ = start inp := hs
      subst hstart
      exact Owned.start (fun _ => rfl) (fun _ => rfl)
  | step run h ih => exact (step_ta h).held ih

/-- A TA has turns left until he has been allocated as often as he may. -/
def TurnsCounted (past : Past (State inp) (Event inp)) (s : State inp) : Prop :=
  ∀ ta, 0 ≤ s.turnsLeft ta ∧ s.turnsLeft ta + allocations ta past = inp.maxTurns ta

/-- The course that allocates a TA has just locked him. -/
theorem Allocates.test {ta : Ta} {c : inp.CourseId} (h : Allocates ta s e) (he : e = .course c) :
    s.course c = .test ta := by
  obtain ⟨_, c', hc', htest⟩ := h
  have hc : c = c' := Event.course.inj (he.symm.trans hc')
  subst hc
  exact htest

theorem TaMove.turns (h : TaMove s e t) (hcount : TurnsCounted past s) :
    TurnsCounted ((s, e) :: past) t := by
  intro ta
  obtain ⟨hpos, hsum⟩ := hcount ta
  rw [allocations_cons]
  -- a step without an allocation leaves the account alone
  have hkeep (hturns : t.turnsLeft ta = s.turnsLeft ta) (hnot : ¬ Allocates ta s e) :
      0 ≤ t.turnsLeft ta ∧ t.turnsLeft ta +
        ↑(allocations ta past + if Allocates ta s e then 1 else 0) = inp.maxTurns ta := by
    rw [hturns, if_neg hnot]
    exact ⟨hpos, hsum⟩
  cases h with
  | keep hlock hturns hholds hallocated hnone => exact hkeep (congrFun hturns ta) (hnone ta)
  | lock c ta' he hfree hs hlab hta ht =>
      apply hkeep
      · rw [ht]
        rfl
      · intro hallocates
        have htest := hallocates.test he
        rw [hs] at htest
        cases htest
  | take c ta' he hs hsome ht =>
      by_cases hta : ta = ta'
      · subst hta
        have hallocates : Allocates ta s e := ⟨hsome, c, he, hs⟩
        rw [if_pos hallocates, ht]
        simp only [Function.update_self]
        push_cast
        omega
      · apply hkeep
        · rw [ht]
          exact Function.update_of_ne hta _ _
        · intro hallocates
          exact hta (CourseAt.test.inj (hs.symm.trans (hallocates.test he))).symm
  | release c ta' i i1 he hs ht =>
      apply hkeep
      · rw [ht]
        rfl
      · intro hallocates
        rw [hallocates.test he] at hs
        rcases hs with hs | hs
        · cases hs
        · cases hs

/-- **The turns of the TAs are counted**, in every state. -/
theorem turns_counted (run : Run (registration wakeups inp) past s) : TurnsCounted past s := by
  induction run with
  | init hs =>
      have hstart : _ = start inp := hs
      subst hstart
      intro ta
      exact ⟨Int.natCast_nonneg _, add_zero _⟩
  | step run h ih => exact (step_ta h).turns ih

/-- Who is allocated is held. -/
theorem CourseAt.holds_of_allocated {a : CourseAt} {ta : Ta} (h : a.allocated = some ta) :
    a.holds = some ta := by
  cases a with
  | test | unlock => cases h
  | _ => exact h

/-! ### The result -/

/-- **TA turns are exclusive and counted.**  In every state of every run, a TA
is allocated to at most one course, he has between none and all of his turns
left, and the turns he has used are the tutorials he has been allocated to. -/
theorem turns_exclusive (run : Run (registration wakeups inp) past s) :
    (∀ ta c c', (s.course c).allocated = some ta → (s.course c').allocated = some ta → c = c') ∧
      ∀ ta, 0 ≤ s.turnsLeft ta ∧ s.turnsLeft ta ≤ inp.maxTurns ta ∧
        (allocations ta past : Int) = inp.maxTurns ta - s.turnsLeft ta := by
  constructor
  · intro ta c c' hc hc'
    exact (held run).unique (CourseAt.holds_of_allocated hc) (CourseAt.holds_of_allocated hc')
  · intro ta
    obtain ⟨hpos, hsum⟩ := turns_counted run ta
    omega

/-- One course and one TA with two turns. -/
def twoTurns : Input where
  labs := [⟨1, 2⟩]
  courses := [⟨1, Nat.one_pos, [0]⟩]
  students := []
  unsetAttending := fun _ => 0

/-- The course up to the end of its first tutorial, and up to its second. -/
def givesTwo : List (Event twoTurns) :=
  let c : twoTurns.CourseId := ⟨0, by decide⟩
  [.course c, .course c, .draw c 1, .course c, .signal c []] ++ List.replicate 8 (.course c)

/-- The theorem at a course that gives its second tutorial. -/
theorem turns_exclusive_second : ∃ past s, Run (registration .posix twoTurns) past s ∧
    allocations ⟨0, 0⟩ past = 2 ∧
      ((∀ ta c c', (s.course c).allocated = some ta → (s.course c').allocated = some ta → c = c') ∧
        ∀ ta, 0 ≤ s.turnsLeft ta ∧ s.turnsLeft ta ≤ twoTurns.maxTurns ta ∧
          (allocations ta past : Int) = twoTurns.maxTurns ta - s.turnsLeft ta) := by
  obtain ⟨past, s, run, hsecond⟩ := Machine.exists_run_of_trace
    (M := registration .posix twoTurns) rfl givesTwo
    (fun past _ => allocations ⟨0, 0⟩ past = 2) (by decide)
  exact ⟨past, s, run, hsecond, turns_exclusive run⟩

end Courses
