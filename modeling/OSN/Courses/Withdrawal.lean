import OSN.Courses.Labs

/-!
# When a course is withdrawn

A course passes over a TA who has no turns left, and just as well one whom
another course has locked.  It ends the course after its loop, which may not
come to all labs of its list.  So a course is withdrawn only when its TAs are
used up, just when its loop comes to all its labs that have turns to give, and
no other course's loop comes to any of them (`withdrawnUsedUp_iff`).
-/

namespace Courses

variable {inp : Input} {wakeups : Wakeups} {s t : State inp} {e : Event inp}
  {past : Past (State inp) (Event inp)}

/-- All TAs of all labs in a course's list have used up their turns. -/
def UsedUp (s : State inp) (c : inp.CourseId) : Prop :=
  ∀ ta, ta.ta < inp.taNum ta.lab → inp.Listed c ta → s.turnsLeft ta = 0

/-- **A course is withdrawn only when its TAs are used up.**  When the course
sets `course_end`, its TAs have no turns left. -/
def WithdrawnUsedUp (s : State inp) (e : Event inp) (t : State inp) : Prop :=
  ∀ c, e = .course c → s.course c = .endCourse → UsedUp t c

/-- A course that can come to the end of its loop is the only one that looks at
the labs of its list, those without turns to give aside, and looks at them all. -/
def OwnsLabs (inp : Input) : Prop :=
  ∀ c, (inp.course c).numLabs ≤ inp.labs.length →
    ∀ ta, inp.CanTeach ta → inp.Listed c ta →
      ta.lab < (inp.course c).numLabs ∧ ∀ c', c' ≠ c → (inp.course c').numLabs ≤ ta.lab

/-- The TAs a course has passed over since it began its loop. -/
def CourseAt.Passed (ta : Ta) : CourseAt → Prop
  | .scan i i1 => ta.lab < i ∨ ta.lab = i ∧ ta.ta < i1
  | .test ta' => ta.lab < ta'.lab ∨ ta.lab = ta'.lab ∧ ta.ta < ta'.ta
  | .unlock ta' => ta.lab < ta'.lab ∨ ta.lab = ta'.lab ∧ ta.ta < ta'.ta + 1
  | .endCourse => True
  | .lastBroadcast => True
  | .exited => True
  | _ => False

/-- A course may pass over this TA: his lab is there, and if he is, he has no
turns left, or another course has locked him. -/
def MayPass (s : State inp) (c : inp.CourseId) (ta : Ta) : Prop :=
  ta.lab < inp.labs.length ∧
    (ta.ta < inp.taNum ta.lab →
      ¬ 0 < s.turnsLeft ta ∨ (s.course c).holds = none ∧ s.taLock ta ≠ none)

/-- In its loop, a course passes over those it may pass over. -/
theorem scan_passed {c : inp.CourseId} {ta : Ta} {i i1 : Nat} (hs : s.course c = .scan i i1)
    (h : s.courseThread c = some t) (hlab : ta.lab < (inp.course c).numLabs)
    (ht : (t.course c).Passed ta) : (s.course c).Passed ta ∨ MayPass s c ta := by
  unfold MayPass
  simp only [State.courseThread, hs] at h
  rw [hs]
  split at h
  · rename_i hi
    cases hlabs : inp.labs[i]? with
    | none => simp [hlabs] at h
    | some lab =>
        have hlen : i < inp.labs.length := (List.getElem?_eq_some_iff.mp hlabs).1
        have hnum : inp.taNum i = lab.taNum := by
          unfold Input.taNum
          rw [hlabs]
        simp only [hlabs] at h
        split at h
        · split at h
          · obtain rfl := Option.some.inj h
            simp only [State.setCourse, Function.update_self] at ht
            exact Or.inl ht
          · rename_i hlocked
            obtain rfl := Option.some.inj h
            simp only [setCourse_course, CourseAt.Passed] at ht
            by_cases hta : ta = ⟨i, i1⟩
            · subst hta
              exact Or.inr ⟨hlen, fun _ => Or.inr ⟨rfl, hlocked⟩⟩
            · have hne : ¬ (ta.lab = i ∧ ta.ta = i1) := by
                intro hsame
                exact hta (by rw [← hsame.1, ← hsame.2])
              left
              simp only [CourseAt.Passed]
              omega
        · rename_i hlast
          obtain rfl := Option.some.inj h
          simp only [setCourse_course, CourseAt.Passed] at ht
          by_cases hta : ta.lab = i ∧ i1 ≤ ta.ta
          · right
            constructor
            · omega
            · intro hnum'
              rw [hta.1] at hnum'
              omega
          · left
            simp only [CourseAt.Passed]
            omega
  · obtain rfl := Option.some.inj h
    left
    simp only [CourseAt.Passed]
    omega

/-- **Whom a course passes over**: those it may pass over. -/
theorem courseThread_passed {c : inp.CourseId} {ta : Ta} (h : s.courseThread c = some t)
    (hheld : ∀ ta', (s.course c).holds = some ta' → ta'.ta < inp.taNum ta'.lab)
    (hlab : ta.lab < (inp.course c).numLabs) (ht : (t.course c).Passed ta) :
    (s.course c).Passed ta ∨ MayPass s c ta := by
  cases hs : s.course c with
  | scan i i1 =>
      rw [← hs]
      exact scan_passed hs h hlab ht
  | test ta' =>
      have hlen : ta'.lab < inp.labs.length := lab_lt_of_ta (hheld ta' (by rw [hs]; rfl))
      simp only [State.courseThread, hs] at h
      split at h
      · obtain rfl := Option.some.inj h
        simp only [State.setCourse, Function.update_self, CourseAt.Passed] at ht
      · rename_i hnone
        obtain rfl := Option.some.inj h
        simp only [setCourse_course, CourseAt.Passed] at ht
        by_cases hta : ta = ta'
        · subst hta
          exact Or.inr ⟨hlen, fun _ => Or.inl hnone⟩
        · have hne : ¬ (ta.lab = ta'.lab ∧ ta.ta = ta'.ta) := by
            intro hsame
            apply hta
            cases ta
            cases ta'
            simpa using hsame
          left
          simp only [CourseAt.Passed]
          omega
  | unlock ta' =>
      simp only [State.courseThread, hs, Option.some.injEq] at h
      subst h
      simp only [State.setCourse, Function.update_self, CourseAt.Passed] at ht
      exact Or.inl ht
  | endCourse | lastBroadcast | exited => exact Or.inl trivial
  | draw => simp [State.courseThread, hs] at h
  | signal ta' slots left =>
      cases left with
      | zero =>
          simp only [State.courseThread, hs, Option.some.injEq] at h
          subst h
          simp [State.setCourse, CourseAt.Passed] at ht
      | succ left => simp [State.courseThread, hs] at h
  | lockTut | tutorial =>
      simp only [State.courseThread, hs, Option.ite_none_right_eq_some, Option.some.injEq] at h
      obtain ⟨_, h⟩ := h
      subst h
      simp [State.setCourse, CourseAt.Passed] at ht
  | broadcast | unlockInTut | reset | release =>
      simp only [State.courseThread, hs, Option.some.injEq] at h
      subst h
      simp [State.setCourse, State.wake, CourseAt.Passed] at ht

/-- Only its own steps take a course further in its loop. -/
theorem step_passed {c : inp.CourseId} {ta : Ta} (h : s.step wakeups e = some t)
    (ht : (t.course c).Passed ta) : e = .course c ∨ (s.course c).Passed ta := by
  cases step_course h c with
  | keep hsame =>
      rw [hsame] at ht
      exact Or.inr ht
  | thread a he hstep => exact Or.inl he
  | draw ta' slots he hs ht' =>
      rw [ht'] at ht
      exact ht.elim
  | signal ta' slots left woken he hs ht' =>
      rw [ht'] at ht
      exact ht.elim

/-- Turns do not come back. -/
theorem TaMove.turns_le (h : TaMove s e t) (ta : Ta) : t.turnsLeft ta ≤ s.turnsLeft ta := by
  cases h with
  | keep hlock hturns =>
      rw [hturns]
  | lock c ta' he hfree hs hlab hnum ht =>
      rw [ht]
      rfl
  | take c ta' he hs hsome ht =>
      rw [ht]
      by_cases hta : ta = ta'
      · subst hta
        simp only [Function.update_self]
        omega
      · simp only [Function.update_of_ne hta]
        rfl
  | release c ta' i i1 he hs ht =>
      rw [ht]
      rfl

/-- What a step makes a course pass over, it may pass over. -/
theorem passed_step (run : Run (registration wakeups inp) past s) (h : s.step wakeups e = some t)
    {c : inp.CourseId} {ta : Ta} (hlab : ta.lab < (inp.course c).numLabs)
    (ht : (t.course c).Passed ta) : (s.course c).Passed ta ∨ MayPass s c ta := by
  rcases step_passed h ht with he | hold
  · subst he
    apply courseThread_passed h _ hlab ht
    intro ta' hta'
    exact (held_scanned run hta').2
  · exact Or.inl hold

/-- A course does not get past the global list. -/
theorem passed_lab (run : Run (registration wakeups inp) past s) {c : inp.CourseId} {ta : Ta}
    (hlab : ta.lab < (inp.course c).numLabs) (hs : (s.course c).Passed ta) :
    ta.lab < inp.labs.length := by
  induction run with
  | init hinit =>
      have hstart : _ = start inp := hinit
      rw [hstart] at hs
      simp [start, CourseAt.Passed] at hs
  | step run h ih =>
      rcases passed_step run h hlab hs with hold | hmay
      · exact ih hold
      · exact hmay.1

/-- The TAs that only one course looks at have no turns left once it has passed
over them. -/
theorem passed_used (run : Run (registration wakeups inp) past s) {c : inp.CourseId} {ta : Ta}
    (hta : ta.ta < inp.taNum ta.lab) (hlab : ta.lab < (inp.course c).numLabs)
    (halone : ∀ c', c' ≠ c → (inp.course c').numLabs ≤ ta.lab) (hs : (s.course c).Passed ta) :
    s.turnsLeft ta = 0 := by
  induction run with
  | init hinit =>
      have hstart : _ = start inp := hinit
      rw [hstart] at hs
      simp [start, CourseAt.Passed] at hs
  | @step past s t e run h ih =>
      have hle := (step_ta h).turns_le ta
      have hpos := (turns_counted (run.step h) ta).1
      have hused : ¬ 0 < s.turnsLeft ta := by
        rcases passed_step run h hlab hs with hold | hmay
        · rw [ih hold]
          exact lt_irrefl 0
        · rcases hmay.2 hta with hused | hlocked
          · exact hused
          · obtain ⟨hnone, hlock⟩ := hlocked
            obtain ⟨c', hc'⟩ := Option.ne_none_iff_exists'.mp hlock
            have hholds : (s.course c').holds = some ta := (held run c' ta).mp hc'
            have hne : c' ≠ c := by
              intro hc
              rw [hc, hnone] at hholds
              cases hholds
            have hscanned := (held_scanned run hholds).1
            have hfar := halone c' hne
            omega
      omega

/-! ### The result -/

/-- A course that owns its labs is withdrawn when they are used up. -/
theorem usedUp_of_owns (howns : OwnsLabs inp) (run : Run (registration wakeups inp) past s)
    (h : s.step wakeups e = some t) : WithdrawnUsedUp s e t := by
  intro c he hend ta hta hlisted
  have hle := (step_ta h).turns_le ta
  obtain ⟨hpos, _⟩ := turns_counted (run.step h) ta
  have hpassed : ∀ ta', (s.course c).Passed ta' := by
    intro ta'
    rw [hend]
    exact trivial
  by_cases hteach : inp.CanTeach ta
  · have hall : (inp.course c).numLabs ≤ inp.labs.length := by
      by_contra hmore
      have hlast : (⟨inp.labs.length, 0⟩ : Ta).lab < inp.labs.length :=
        passed_lab run (Nat.lt_of_not_le hmore) (hpassed _)
      exact lt_irrefl _ hlast
    obtain ⟨hlab, halone⟩ := howns c hall ta hteach hlisted
    have hused := passed_used run hta hlab halone (hpassed ta)
    omega
  · have hnone : ¬ 0 < inp.maxTurns ta := fun hmax => hteach ⟨hta, hmax⟩
    have hcount := (turns_counted run ta).2
    omega

/-- The course has locked this TA. -/
def State.locked (s : State inp) (c : inp.CourseId) (ta : Ta) : State inp :=
  { s.setCourse c (.test ta) with taLock := Function.update s.taLock ta (some c) }

/-- A course locks the TA it has come to. -/
theorem leads_locked (wakeups : Wakeups) {c : inp.CourseId} {i i1 : Nat}
    (hs : s.course c = .scan i i1) (hlab : i < (inp.course c).numLabs) (hta : i1 < inp.taNum i)
    (hfree : s.taLock ⟨i, i1⟩ = none) :
    (registration wakeups inp).Leads s (s.locked c ⟨i, i1⟩) := by
  apply Machine.leads_of_exec [.course c]
  unfold Input.taNum at hta
  cases hlabs : inp.labs[i]? with
  | none => simp [hlabs] at hta
  | some lab =>
      rw [hlabs] at hta
      simp [Machine.exec, registration, State.step, State.courseThread, State.locked, hs, hlab,
        hlabs, hta, hfree]

/-- A course that comes to the end of its loop is withdrawn, whatever turns the
other labs and the locked TAs have left. -/
theorem withdraws (wakeups : Wakeups) {c : inp.CourseId}
    (hreach : (registration wakeups inp).Reachable s)
    (hlen : (inp.course c).numLabs ≤ inp.labs.length) (hquiet : Quiet c s)
    (hs : s.course c = .scan 0 0) :
    ∃ past u t, Run (registration wakeups inp) past u ∧
      u.step wakeups (.course c) = some t ∧ u.course c = .endCourse ∧
        ∀ ta, (inp.course c).numLabs ≤ ta.lab ∨ s.taLock ta ≠ none →
          t.turnsLeft ta = s.turnsLeft ta := by
  obtain ⟨t, hleads, ht, hbeside⟩ := comes_to wakeups (Nat.le_refl _) hlen hquiet hs
  have hend : (registration wakeups inp).Leads t (t.setCourse c .endCourse) := by
    apply Machine.leads_of_exec [.course c]
    simp [Machine.exec, registration, State.step, State.courseThread, ht]
  obtain ⟨past, run⟩ := (hleads.trans hend).reachable hreach
  refine ⟨past, _, { (t.setCourse c .endCourse).setCourse c .lastBroadcast with
    courseEnd := Function.update t.courseEnd c true }, run, ?_, by simp, ?_⟩
  · simp [State.step, State.courseThread, State.setCourse]
  · intro ta hta
    exact hbeside.turns ta hta

/-- **When courses are withdrawn only when their TAs are used up.**  At the end
of every course in every run, just when every course that can end is the only
one whose loop comes to the labs of its list with turns to give, and it comes
to all of them. -/
theorem withdrawnUsedUp_iff :
    (∀ past s e t, Run (registration wakeups inp) past s → s.step wakeups e = some t →
      WithdrawnUsedUp s e t) ↔ OwnsLabs inp := by
  constructor
  · intro hused c hlen ta hteach hlisted
    have hfirst : 0 < inp.taNum ta.lab := Nat.lt_of_le_of_lt (Nat.zero_le _) hteach.1
    have hta : ta.lab < inp.labs.length := lab_lt_of_ta hteach.1
    constructor
    · by_contra hfar
      obtain ⟨past, u, t, run, hstep, hend, hturns⟩ := withdraws (c := c) wakeups
        ⟨[], .init rfl⟩ hlen (Quiet.start c) rfl
      have hzero := hused past u _ t run hstep c rfl hend ta hteach.1 hlisted
      rw [hturns ta (Or.inl (Nat.le_of_not_lt hfar))] at hzero
      have hmax := hteach.2
      simp only [start] at hzero
      omega
    · intro c' hc'
      by_contra hnear
      -- the other course locks a TA of the lab, and meanwhile this one looks at him
      obtain ⟨s, hreach, hs, hbeside⟩ := reaches_lab wakeups c'
        (Nat.le_of_not_le hnear) (Nat.le_of_lt hta)
      have hfree : s.taLock ⟨ta.lab, 0⟩ = none := by
        rw [hbeside.taLock]
        rfl
      have hlocks := leads_locked wakeups hs (Nat.lt_of_not_le hnear) hfirst hfree
      have hquiet := hbeside.quiet (Quiet.start c)
      obtain ⟨past, u, t, run, hstep, hend, hturns⟩ := withdraws (c := c) wakeups
        (hlocks.reachable hreach) hlen ⟨hquiet.asleep, hquiet.tutCond, hquiet.inTut⟩
        ((Function.update_of_ne hc'.symm _ _).trans (hbeside.course c hc'.symm))
      have hzero := hused past u _ t run hstep c rfl hend ⟨ta.lab, 0⟩ hfirst hlisted
      have hlocked : (s.locked c' ⟨ta.lab, 0⟩).taLock ⟨ta.lab, 0⟩ ≠ none := by
        simp [State.locked]
      rw [hturns _ (Or.inr hlocked)] at hzero
      have hkept : (s.locked c' ⟨ta.lab, 0⟩).turnsLeft ⟨ta.lab, 0⟩ = inp.maxTurns ta :=
        hbeside.turns ⟨ta.lab, 0⟩ (Or.inl (Nat.le_refl _))
      have hmax := hteach.2
      omega
  · intro howns past s e t run h
    exact usedUp_of_owns howns run h

/-- Two courses that share the one TA of a lab, who has two turns. -/
def shared : Input where
  labs := [⟨1, 2⟩]
  courses := [⟨1, Nat.one_pos, [0]⟩, ⟨1, Nat.one_pos, [0]⟩]
  students := []
  unsetAttending := fun _ => 0

/-- The first course takes the TA, and the second one finds him locked. -/
def findsLocked : List (Event shared) :=
  let c0 : shared.CourseId := ⟨0, by decide⟩
  let c1 : shared.CourseId := ⟨1, by decide⟩
  [.course c0, .course c0, .course c1, .course c1, .course c1]

/-- The second course sets `course_end`, and the TA has a turn left. -/
theorem withdrawn_too_soon : ∃ past s t, Run (registration .posix shared) past s ∧
    s.step .posix (.course ⟨1, by decide⟩) = some t ∧
      ¬ WithdrawnUsedUp s (.course ⟨1, by decide⟩) t := by
  obtain ⟨past, s, run, hend, hturns⟩ := Machine.exists_run_of_trace
    (M := registration .posix shared) rfl findsLocked
    (fun _ s => s.course ⟨1, by decide⟩ = .endCourse ∧
      (s.step .posix (.course ⟨1, by decide⟩)).any
        (fun t => decide (t.turnsLeft ⟨0, 0⟩ = 1)) = true)
    (by decide)
  obtain ⟨t, hstep, hone⟩ := (Option.any_eq_true _ _).mp hturns
  refine ⟨past, s, t, run, hstep, ?_⟩
  intro hused
  have hzero := hused ⟨1, by decide⟩ rfl hend ⟨0, 0⟩ (by decide) (by unfold Input.Listed; decide)
  have hleft : t.turnsLeft ⟨0, 0⟩ = 1 := of_decide_eq_true hone
  omega

end Courses
