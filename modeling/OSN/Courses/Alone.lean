import OSN.Courses.Assistants
import Mathlib.Algebra.BigOperators.Group.Finset.Sigma

/-!
# A course by itself

While the students are asleep and the other courses do not move, a course
finishes what it begins: it passes over the TAs it cannot have, and gives a
tutorial with the first it can.  Each tutorial uses up a turn, so in the end
there is no such TA among the first labs of the list, and it comes to the lab
after them (`comes_to`).
-/

namespace Courses

variable {inp : Input} {wakeups : Wakeups} {s t u : State inp} {c : inp.CourseId}

/-- Nobody is in the way of a course's tutorial. -/
structure Quiet (c : inp.CourseId) (s : State inp) : Prop where
  asleep : ∀ st, s.student st = .sleep
  tutCond : s.tutCondLock c = none
  inTut : s.inTutLock c = none

namespace State

/-- The course has taken a turn of this TA. -/
def taken (s : State inp) (c : inp.CourseId) (ta : Ta) : State inp :=
  { s.setCourse c (.draw ta) with
    taLock := Function.update s.taLock ta (some c)
    turnsLeft := Function.update s.turnsLeft ta (s.turnsLeft ta - 1) }

/-- The course has begun a tutorial with one slot, and sent its signal. -/
def begun (s : State inp) (c : inp.CourseId) (ta : Ta) : State inp :=
  { s.taken c ta with
    course := Function.update s.course c (.tutorial ta 1)
    tutorials := Function.update s.tutorials c (s.tutorials c + 1)
    admitted := Function.update s.admitted c 0 }

/-- The course has given a tutorial with this TA. -/
def taught (s : State inp) (c : inp.CourseId) (ta : Ta) : State inp :=
  { s.setCourse c (.scan 0 0) with
    turnsLeft := Function.update s.turnsLeft ta (s.turnsLeft ta - 1)
    attending := Function.update s.attending c 0
    tutorials := Function.update s.tutorials c (s.tutorials c + 1)
    admitted := Function.update s.admitted c 0 }

end State

/-- A course takes a turn of the TA it looks at. -/
theorem leads_taken {ta : Ta} (hs : s.course c = .scan ta.lab ta.ta)
    (hlab : ta.lab < (inp.course c).numLabs) (hta : ta.ta < inp.taNum ta.lab)
    (hfree : s.taLock ta = none) (hsome : 0 < s.turnsLeft ta) :
    (registration wakeups inp).Leads s (s.taken c ta) := by
  apply Machine.leads_of_exec [.course c, .course c]
  unfold Input.taNum at hta
  cases hlabs : inp.labs[ta.lab]? with
  | none => simp [hlabs] at hta
  | some lab =>
      rw [hlabs] at hta
      simp [Machine.exec, registration, State.step, State.courseThread, State.setCourse,
        State.taken, hs, hlab, hlabs, hta, hfree, hsome]

/-- It begins the tutorial, and signals nobody. -/
theorem leads_begun (ta : Ta) (hquiet : Quiet c s) :
    (registration wakeups inp).Leads (s.taken c ta) (s.begun c ta) := by
  have hslots : 1 ≤ (inp.course c).maxSlots := (inp.course c).hasSlots
  have hnobody : ∀ (u : State inp), u.student = s.student →
      CondVar.MayWake wakeups (u.BlockedOnTut c) [] := by
    intro u hu
    refine ⟨by simp, ?_, by simp⟩
    intro hblocked
    obtain ⟨st, hst⟩ := hblocked
    obtain ⟨i, hi, _⟩ := blockedOnTut_iff.mp hst
    rw [hu, hquiet.asleep st] at hi
    cases hi
  have htut := hquiet.tutCond
  apply Machine.leads_of_exec [.draw c 1, .course c, .signal c [], .course c]
  simp [Machine.exec, registration, State.step, State.courseThread, State.draw, State.signal,
    State.setCourse, State.taken, State.begun, State.wake, hslots, htut, hnobody]

/-- It ends the tutorial. -/
theorem leads_taught {ta : Ta} (hquiet : Quiet c s) (hfree : s.taLock ta = none) :
    (registration wakeups inp).Leads (s.begun c ta) (s.taught c ta) := by
  have hasleep : s.student = fun _ => .sleep := funext hquiet.asleep
  have hin := hquiet.inTut
  apply Machine.leads_of_exec [.course c, .course c, .course c, .course c, .course c]
  simp [Machine.exec, registration, State.step, State.courseThread, State.setCourse, State.taken,
    State.begun, State.taught, State.wake, State.wakeUp, hasleep, hin, hfree]

/-- A course that cannot have the TA it looks at goes on to the next one. -/
theorem leads_next {i i1 : Nat} (hs : s.course c = .scan i i1) (hlab : i < (inp.course c).numLabs)
    (hta : i1 < inp.taNum i) (hnot : s.taLock ⟨i, i1⟩ = none → ¬ 0 < s.turnsLeft ⟨i, i1⟩) :
    (registration wakeups inp).Leads s (s.setCourse c (.scan i (i1 + 1))) := by
  unfold Input.taNum at hta
  cases hlabs : inp.labs[i]? with
  | none => simp [hlabs] at hta
  | some lab =>
      rw [hlabs] at hta
      by_cases hfree : s.taLock ⟨i, i1⟩ = none
      · apply Machine.leads_of_exec [.course c, .course c, .course c]
        have hnone := hnot hfree
        simp [Machine.exec, registration, State.step, State.courseThread, State.setCourse,
          hs, hlab, hlabs, hta, hfree, hnone]
      · apply Machine.leads_of_exec [.course c]
        simp [Machine.exec, registration, State.step, State.courseThread, hs, hlab, hlabs, hta,
          hfree]

/-- After the last TA of a lab it goes on to the next lab. -/
theorem leads_next_lab {i : Nat} (hs : s.course c = .scan i (inp.taNum i))
    (hlab : i < (inp.course c).numLabs) (hi : i < inp.labs.length) :
    (registration wakeups inp).Leads s (s.setCourse c (.scan (i + 1) 0)) := by
  have hlabs : inp.labs[i]? = some inp.labs[i] := List.getElem?_eq_getElem hi
  have hta : inp.taNum i = inp.labs[i].taNum := by
    unfold Input.taNum
    rw [hlabs]
  rw [hta] at hs
  apply Machine.leads_of_exec [.course c]
  simp [Machine.exec, registration, State.step, State.courseThread, hs, hlab, hi]

@[simp] theorem setCourse_setCourse (a b : CourseAt) :
    (s.setCourse c a).setCourse c b = s.setCourse c b := by
  simp [State.setCourse]

@[simp] theorem setCourse_taken (a : CourseAt) (ta : Ta) :
    (s.setCourse c a).taken c ta = s.taken c ta := by
  simp [State.taken, State.setCourse]

@[simp] theorem setCourse_course (a : CourseAt) : (s.setCourse c a).course c = a := by
  simp [State.setCourse]

/-- A course can have this TA. -/
def CanHave (s : State inp) (ta : Ta) : Prop :=
  ta.ta < inp.taNum ta.lab ∧ s.taLock ta = none ∧ 0 < s.turnsLeft ta

/-- A course passes over a lab, or takes a turn of one of its TAs. -/
theorem passes_lab {i : Nat} (hlab : i < (inp.course c).numLabs) (hi : i < inp.labs.length)
    (left i1 : Nat) (hleft : i1 + left = inp.taNum i) (hs : s.course c = .scan i i1) :
    (registration wakeups inp).Leads s (s.setCourse c (.scan (i + 1) 0)) ∨
      ∃ ta, ta.lab = i ∧ CanHave s ta ∧ (registration wakeups inp).Leads s (s.taken c ta) := by
  induction left generalizing i1 s with
  | zero =>
      have hlast : i1 = inp.taNum i := by omega
      rw [hlast] at hs
      exact Or.inl (leads_next_lab hs hlab hi)
  | succ left ih =>
      have hta : i1 < inp.taNum i := by omega
      by_cases hcan : CanHave s ⟨i, i1⟩
      · exact Or.inr ⟨⟨i, i1⟩, rfl, hcan, leads_taken hs hlab hta hcan.2.1 hcan.2.2⟩
      · have hnext : (registration wakeups inp).Leads s (s.setCourse c (.scan i (i1 + 1))) := by
          apply leads_next hs hlab hta
          intro hfree hsome
          exact hcan ⟨hta, hfree, hsome⟩
        have hrest := ih (s := s.setCourse c (.scan i (i1 + 1))) (i1 + 1) (by omega) (by simp)
        simp only [setCourse_setCourse, setCourse_taken] at hrest
        rcases hrest with hpassed | htaken
        · exact Or.inl (hnext.trans hpassed)
        · obtain ⟨ta, hlabta, hcan, htaken⟩ := htaken
          exact Or.inr ⟨ta, hlabta, hcan, hnext.trans htaken⟩

/-- A course passes over the first `n` labs, or takes a turn of one of their
TAs. -/
theorem passes_labs {n : Nat} (hn : n ≤ (inp.course c).numLabs) (hlen : n ≤ inp.labs.length)
    (left i : Nat) (hleft : i + left = n) (hs : s.course c = .scan i 0) :
    (registration wakeups inp).Leads s (s.setCourse c (.scan n 0)) ∨
      ∃ ta, ta.lab < n ∧ CanHave s ta ∧ (registration wakeups inp).Leads s (s.taken c ta) := by
  induction left generalizing i s with
  | zero =>
      have hlast : i = n := by omega
      subst hlast
      have hsame : s.setCourse c (.scan i 0) = s := by
        unfold State.setCourse
        rw [← hs, Function.update_eq_self]
      rw [hsame]
      exact Or.inl (.refl s)
  | succ left ih =>
      rcases passes_lab (by omega) (by omega) _ 0 (Nat.zero_add _) hs with hnext | htaken
      · have hrest := ih (s := s.setCourse c (.scan (i + 1) 0)) (i + 1) (by omega) (by simp)
        simp only [setCourse_setCourse, setCourse_taken] at hrest
        rcases hrest with hpassed | htaken
        · exact Or.inl (hnext.trans hpassed)
        · obtain ⟨ta, hlabta, hcan, htaken⟩ := htaken
          exact Or.inr ⟨ta, hlabta, hcan, hnext.trans htaken⟩
      · obtain ⟨ta, hlabta, hcan, htaken⟩ := htaken
        exact Or.inr ⟨ta, by omega, hcan, htaken⟩

/-- The turns that the TAs of the first `n` labs have left. -/
def turnsBelow (s : State inp) (n : Nat) : Nat :=
  ∑ x ∈ (Finset.range n).sigma fun i => Finset.range (inp.taNum i),
    (s.turnsLeft ⟨x.1, x.2⟩).toNat

/-- Each tutorial uses up a turn. -/
theorem turnsBelow_taught {ta : Ta} {n : Nat} (hn : ta.lab < n) (hcan : CanHave s ta) :
    turnsBelow (s.taught c ta) n < turnsBelow s n := by
  have hself : (s.taught c ta).turnsLeft ta = s.turnsLeft ta - 1 := Function.update_self _ _ _
  apply Finset.sum_lt_sum
  · intro x _
    by_cases hx : (⟨x.1, x.2⟩ : Ta) = ta
    · rw [hx, hself]
      omega
    · have hother : (s.taught c ta).turnsLeft ⟨x.1, x.2⟩ = s.turnsLeft ⟨x.1, x.2⟩ :=
        Function.update_of_ne hx _ _
      rw [hother]
  · refine ⟨⟨ta.lab, ta.ta⟩, ?_, ?_⟩
    · simp [hn, hcan.1]
    · have hsome := hcan.2.2
      change ((s.taught c ta).turnsLeft ta).toNat < (s.turnsLeft ta).toNat
      rw [hself]
      omega

/-- What a course by itself leaves alone while it uses up the first `n` labs. -/
structure Beside (c : inp.CourseId) (n : Nat) (s t : State inp) : Prop where
  course : ∀ c', c' ≠ c → t.course c' = s.course c'
  student : t.student = s.student
  taLock : t.taLock = s.taLock
  tutCond : t.tutCondLock = s.tutCondLock
  inTut : t.inTutLock = s.inTutLock
  /-- The TAs of the other labs, and those that are not free. -/
  turns : ∀ ta, n ≤ ta.lab ∨ s.taLock ta ≠ none → t.turnsLeft ta = s.turnsLeft ta

theorem Beside.trans {n : Nat} (hst : Beside c n s t) (htu : Beside c n t u) : Beside c n s u where
  course c' hc := (htu.course c' hc).trans (hst.course c' hc)
  student := htu.student.trans hst.student
  taLock := htu.taLock.trans hst.taLock
  tutCond := htu.tutCond.trans hst.tutCond
  inTut := htu.inTut.trans hst.inTut
  turns ta hta := by
    have hlater := htu.turns ta (by rwa [hst.taLock])
    exact hlater.trans (hst.turns ta hta)

theorem Beside.quiet {n : Nat} {c' : inp.CourseId} (h : Beside c n s t) (hquiet : Quiet c' s) :
    Quiet c' t where
  asleep st := by
    rw [h.student]
    exact hquiet.asleep st
  tutCond := by
    rw [h.tutCond]
    exact hquiet.tutCond
  inTut := by
    rw [h.inTut]
    exact hquiet.inTut

theorem beside_setCourse (n : Nat) (a : CourseAt) : Beside c n s (s.setCourse c a) where
  course _ hc := Function.update_of_ne hc _ _
  student := rfl
  taLock := rfl
  tutCond := rfl
  inTut := rfl
  turns _ _ := rfl

theorem beside_taught {n : Nat} {ta : Ta} (hn : ta.lab < n) (hcan : CanHave s ta) :
    Beside c n s (s.taught c ta) where
  course _ hc := Function.update_of_ne hc _ _
  student := rfl
  taLock := rfl
  tutCond := rfl
  inTut := rfl
  turns ta' hta' := by
    apply Function.update_of_ne
    intro hsame
    subst hsame
    rcases hta' with hlab | hlocked
    · omega
    · exact hlocked hcan.2.1

/-- **A course by itself comes to any lab** of its part of the list, and the
TAs of that lab and of the later ones have the turns they had. -/
theorem comes_to (wakeups : Wakeups) {n : Nat} (hn : n ≤ (inp.course c).numLabs)
    (hlen : n ≤ inp.labs.length)
    (hquiet : Quiet c s) (hs : s.course c = .scan 0 0) :
    ∃ t, (registration wakeups inp).Leads s t ∧ t.course c = .scan n 0 ∧ Beside c n s t := by
  induction hturns : turnsBelow s n using Nat.strong_induction_on generalizing s with
  | _ turns ih =>
      rcases passes_labs hn hlen n 0 (Nat.zero_add n) hs with hpassed | htaken
      · exact ⟨_, hpassed, by simp, beside_setCourse n _⟩
      · obtain ⟨ta, hlab, hcan, htaken⟩ := htaken
        have hbeside : Beside c n s (s.taught c ta) := beside_taught hlab hcan
        have hfewer : turnsBelow (s.taught c ta) n < turns := by
          rw [← hturns]
          exact turnsBelow_taught hlab hcan
        have hagain : (s.taught c ta).course c = .scan 0 0 := by
          simp [State.taught, State.setCourse]
        obtain ⟨t, hleads, ht, hrest⟩ := ih _ hfewer (hbeside.quiet hquiet) hagain rfl
        refine ⟨t, ?_, ht, hbeside.trans hrest⟩
        have hgiven : (registration wakeups inp).Leads (s.taken c ta) (s.taught c ta) :=
          (leads_begun ta hquiet).trans (leads_taught hquiet hcan.2.1)
        exact (htaken.trans hgiven).trans hleads

end Courses
