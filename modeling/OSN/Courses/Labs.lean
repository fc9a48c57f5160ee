import OSN.Courses.Alone

/-!
# The labs a course takes its TAs from

A course reads a list of lab ids, but the loop of its thread goes through the
first labs of the global list, as many as there are ids.  So its TAs are of its
own labs just when every one of those first labs that has a TA with turns is in
the list (`ownLabs_iff`).
-/

namespace Courses

variable {inp : Input} {wakeups : Wakeups} {s t : State inp} {e : Event inp}
  {past : Past (State inp) (Event inp)}

/-- The TA exists, and has turns. -/
def Input.CanTeach (inp : Input) (ta : Ta) : Prop :=
  ta.ta < inp.taNum ta.lab ∧ 0 < inp.maxTurns ta

/-- The TA is of a lab whose id is in the course's `lab_list`. -/
def Input.Listed (inp : Input) (c : inp.CourseId) (ta : Ta) : Prop :=
  (ta.lab : Int) ∈ (inp.course c).labList

/-- **A course is taught only by TAs of its own labs.** -/
def OwnLabs (s : State inp) : Prop :=
  ∀ c ta, (s.course c).allocated = some ta → inp.Listed c ta

/-- The labs the loop of a course goes through are in its list, those without
turns to give aside. -/
def ScansOwnLabs (inp : Input) : Prop :=
  ∀ c ta, ta.lab < (inp.course c).numLabs → inp.CanTeach ta → inp.Listed c ta

/-- What holds of a thread after one thread has moved held of it before, or holds
of where that one has come to. -/
theorem holds_of_update {f : inp.CourseId → CourseAt} {c c' : inp.CourseId} {a : CourseAt}
    {Q : CourseAt → Prop} (h : Q (Function.update f c' a c)) : c = c' ∧ Q a ∨ Q (f c) := by
  by_cases hc : c = c'
  · subst hc
    rw [Function.update_self] at h
    exact Or.inl ⟨rfl, h⟩
  · rw [Function.update_of_ne hc] at h
    exact Or.inr h

/-- A course locks the TA its loop has come to. -/
theorem TaMove.holds_cases {c : inp.CourseId} {ta : Ta} (h : TaMove s e t)
    (hta : (t.course c).holds = some ta) :
    (s.course c).holds = some ta ∨
      ta.lab < (inp.course c).numLabs ∧ ta.ta < inp.taNum ta.lab := by
  cases h with
  | keep hlock hturns hholds =>
      rw [hholds] at hta
      exact Or.inl hta
  | lock c' ta' he hfree hs hlab hnum ht =>
      subst ht
      rcases holds_of_update (Q := fun a => a.holds = some ta) hta with hnew | hold
      · obtain ⟨hc, hsame⟩ := hnew
        subst hc
        have heq : ta' = ta := Option.some.inj hsame
        subst heq
        exact Or.inr ⟨hlab, hnum⟩
      · exact Or.inl hold
  | take c' ta' he hs hsome ht =>
      subst ht
      rcases holds_of_update (Q := fun a => a.holds = some ta) hta with hnew | hold
      · obtain ⟨hc, hsame⟩ := hnew
        subst hc
        rw [hs]
        exact Or.inl hsame
      · exact Or.inl hold
  | release c' ta' i i1 he hs ht =>
      subst ht
      rcases holds_of_update (Q := fun a => a.holds = some ta) hta with hnew | hold
      · cases hnew.2
      · exact Or.inl hold

/-- A TA is allocated to the course that has locked him, if he has turns left. -/
theorem TaMove.allocated_cases {c : inp.CourseId} {ta : Ta} (h : TaMove s e t)
    (hta : (t.course c).allocated = some ta) :
    (s.course c).allocated = some ta ∨ 0 < s.turnsLeft ta := by
  cases h with
  | keep hlock hturns hholds hallocated =>
      rw [hallocated] at hta
      exact Or.inl hta
  | lock c' ta' he hfree hs hlab hnum ht =>
      subst ht
      rcases holds_of_update (Q := fun a => a.allocated = some ta) hta with hnew | hold
      · cases hnew.2
      · exact Or.inl hold
  | take c' ta' he hs hsome ht =>
      subst ht
      rcases holds_of_update (Q := fun a => a.allocated = some ta) hta with hnew | hold
      · have heq : ta' = ta := Option.some.inj hnew.2
        subst heq
        exact Or.inr hsome
      · exact Or.inl hold
  | release c' ta' i i1 he hs ht =>
      subst ht
      rcases holds_of_update (Q := fun a => a.allocated = some ta) hta with hnew | hold
      · cases hnew.2
      · exact Or.inl hold

/-- The TAs a course has locked are those its loop goes through. -/
theorem held_scanned (run : Run (registration wakeups inp) past s) {c : inp.CourseId} {ta : Ta}
    (hta : (s.course c).holds = some ta) :
    ta.lab < (inp.course c).numLabs ∧ ta.ta < inp.taNum ta.lab := by
  induction run with
  | init hs =>
      have hstart : _ = start inp := hs
      rw [hstart] at hta
      cases hta
  | step run h ih =>
      rcases (step_ta h).holds_cases hta with hold | hnew
      · exact ih hold
      · exact hnew

/-- Who is allocated had turns. -/
theorem allocated_turns (run : Run (registration wakeups inp) past s) {c : inp.CourseId} {ta : Ta}
    (hta : (s.course c).allocated = some ta) : 0 < inp.maxTurns ta := by
  induction run with
  | init hs =>
      have hstart : _ = start inp := hs
      rw [hstart] at hta
      cases hta
  | step run h ih =>
      rcases (step_ta h).allocated_cases hta with hold | hsome
      · exact ih hold
      · have hsum := (turns_counted run ta).2
        omega

theorem Quiet.start (c : inp.CourseId) : Quiet c (start inp) where
  asleep _ := rfl
  tutCond := rfl
  inTut := rfl

/-- Some run brings a course to any lab its loop goes through, with all the turns
of that lab and the later ones to be had. -/
theorem reaches_lab (wakeups : Wakeups) (c : inp.CourseId) {n : Nat}
    (hn : n ≤ (inp.course c).numLabs) (hlen : n ≤ inp.labs.length) :
    ∃ s, (registration wakeups inp).Reachable s ∧ s.course c = .scan n 0 ∧
      Beside c n (start inp) s := by
  obtain ⟨s, hleads, hs, hbeside⟩ := comes_to wakeups hn hlen (Quiet.start c) rfl
  exact ⟨s, hleads.reachable ⟨[], .init rfl⟩, hs, hbeside⟩

/-- A lab outside the list has no TA. -/
theorem lab_lt_of_ta {i i1 : Nat} (h : i1 < inp.taNum i) : i < inp.labs.length := by
  by_contra hi
  have hnone : inp.labs[i]? = none := List.getElem?_eq_none (Nat.le_of_not_lt hi)
  unfold Input.taNum at h
  rw [hnone] at h
  exact Nat.not_lt_zero _ h

/-! ### The result -/

/-- **When courses keep to their own labs.**  In every state of every run, just
when each lab that is among the first ones of the global list, as many as the
course has ids, is in its list, unless it has no TA or no turns to give. -/
theorem ownLabs_iff :
    (∀ past s, Run (registration wakeups inp) past s → OwnLabs s) ↔ ScansOwnLabs inp := by
  constructor
  · intro hown c ta hlab hteach
    have hlen : ta.lab < inp.labs.length := lab_lt_of_ta hteach.1
    obtain ⟨s, hreach, hs, hbeside⟩ :=
      reaches_lab wakeups c (Nat.le_of_lt hlab) (Nat.le_of_lt hlen)
    have hfirst : 0 < inp.taNum ta.lab := Nat.lt_of_le_of_lt (Nat.zero_le _) hteach.1
    have hfree : s.taLock ⟨ta.lab, 0⟩ = none := by
      rw [hbeside.taLock]
      rfl
    have hturns : 0 < s.turnsLeft ⟨ta.lab, 0⟩ := by
      rw [hbeside.turns ⟨ta.lab, 0⟩ (Or.inl (Nat.le_refl _))]
      exact Int.natCast_pos.mpr hteach.2
    have htaken : (registration wakeups inp).Leads s (s.taken c ⟨ta.lab, 0⟩) :=
      leads_taken hs hlab hfirst hfree hturns
    obtain ⟨past, run⟩ := htaken.reachable hreach
    exact hown past _ run c ⟨ta.lab, 0⟩ (by simp [State.taken, State.setCourse]; rfl)
  · intro hscans past s run c ta hta
    obtain ⟨hlab, hnum⟩ := held_scanned run (CourseAt.holds_of_allocated hta)
    exact hscans c ta hlab ⟨hnum, allocated_turns run hta⟩

/-- One course, whose TAs are to come from lab `1`. -/
def secondLab : Input where
  labs := [⟨1, 1⟩, ⟨1, 1⟩]
  courses := [⟨1, Nat.one_pos, [1]⟩]
  students := []
  unsetAttending := fun _ => 0

/-- The course is allocated the TA of lab `0`. -/
theorem teaches_elsewhere : ∃ past s, Run (registration .posix secondLab) past s ∧
    ((s.course ⟨0, by decide⟩).allocated = some ⟨0, 0⟩ ∧
      ¬ secondLab.Listed ⟨0, by decide⟩ ⟨0, 0⟩) := by
  obtain ⟨past, s, run, hallocated⟩ := Machine.exists_run_of_trace
    (M := registration .posix secondLab) rfl
    [.course ⟨0, by decide⟩, .course ⟨0, by decide⟩]
    (fun _ s => (s.course ⟨0, by decide⟩).allocated = some ⟨0, 0⟩) (by decide)
  exact ⟨past, s, run, hallocated, by unfold Input.Listed; decide⟩

end Courses
