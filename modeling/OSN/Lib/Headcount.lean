import Mathlib.Data.Fintype.Basic
import Mathlib.Data.Fintype.Card
import Mathlib.Data.Finset.Card
import Mathlib.Algebra.BigOperators.Group.Finset.Basic
import Mathlib.Algebra.BigOperators.Group.Finset.Piecewise
import Mathlib.Algebra.Order.BigOperators.Group.Finset

/-!
# How many parties are in a given state

A headcount counts the parties that satisfy a predicate.  When one party moves, the
headcount changes by that party alone (`headcount_update`), so an account kept in
headcounts is checked at the party that moves.
-/

variable {P A : Type} [Fintype P]

/-- The number of parties whose state satisfies `Q`. -/
def headcount (f : P → A) (Q : A → Prop) [DecidablePred Q] : Nat :=
  (Finset.univ.filter fun p => Q (f p)).card

variable {f g : P → A} {Q : A → Prop} [DecidablePred Q]

theorem headcount_congr (h : ∀ p, Q (f p) ↔ Q (g p)) : headcount f Q = headcount g Q := by
  unfold headcount
  congr 1
  ext p
  simp [h p]

theorem headcount_eq_zero (h : ∀ p, ¬ Q (f p)) : headcount f Q = 0 := by
  unfold headcount
  rw [Finset.card_eq_zero]
  ext p
  simp [h p]

/-- The parties in either of two states that exclude each other. -/
theorem headcount_or {Q' : A → Prop} [DecidablePred Q'] (h : ∀ a, Q a → ¬ Q' a) :
    headcount f (fun a => Q a ∨ Q' a) = headcount f Q + headcount f Q' := by
  classical
  unfold headcount
  rw [Finset.filter_or, Finset.card_union_of_disjoint]
  exact Finset.disjoint_filter.mpr fun p _ => h (f p)

/-- A party counts. -/
theorem headcount_pos {p : P} (h : Q (f p)) : 0 < headcount f Q :=
  Finset.card_pos.mpr ⟨p, by simp [h]⟩

variable {B : Type} {k : P → B} {R : B → Prop} [DecidablePred R]

/-- Who counts now counted before. -/
theorem headcount_mono (h : ∀ p, R (k p) → Q (f p)) : headcount k R ≤ headcount f Q := by
  apply Finset.card_le_card
  intro p hp
  simp only [Finset.mem_filter, Finset.mem_univ, true_and] at hp ⊢
  exact h p hp

/-- And one party counts no more. -/
theorem headcount_lt {p : P} (h : ∀ p, R (k p) → Q (f p)) (hold : Q (f p)) (hnew : ¬ R (k p)) :
    headcount k R < headcount f Q := by
  apply Finset.card_lt_card
  constructor
  · intro q hq
    simp only [Finset.mem_filter, Finset.mem_univ, true_and] at hq ⊢
    exact h q hq
  · intro hsub
    have hp := hsub (Finset.mem_filter.mpr ⟨Finset.mem_univ p, hold⟩)
    exact hnew (Finset.mem_filter.mp hp).2

variable [DecidableEq P]

/-- Besides, only parties of a list count now. -/
theorem headcount_le_add (l : List P) (h : ∀ p, p ∉ l → R (k p) → Q (f p)) :
    headcount k R ≤ headcount f Q + l.length := by
  have hsub : (Finset.univ.filter fun p => R (k p)) ⊆
      (Finset.univ.filter fun p => Q (f p)) ∪ l.toFinset := by
    intro p hp
    have hnow := (Finset.mem_filter.mp hp).2
    by_cases hl : p ∈ l
    · exact Finset.mem_union_right _ (List.mem_toFinset.mpr hl)
    · exact Finset.mem_union_left _ (Finset.mem_filter.mpr ⟨Finset.mem_univ p, h p hl hnow⟩)
  calc headcount k R ≤ _ := Finset.card_le_card hsub
    _ ≤ headcount f Q + l.toFinset.card := Finset.card_union_le _ _
    _ ≤ headcount f Q + l.length := Nat.add_le_add_left (List.toFinset_card_le l) _

/-- **One party moves.**  It leaves the headcount if it counted and enters it if it
counts now. -/
theorem headcount_update (f : P → A) (p : P) (a : A) :
    headcount (Function.update f p a) Q + (if Q (f p) then 1 else 0) =
      headcount f Q + if Q a then 1 else 0 := by
  have hsplit : ∀ g : P → A, (∀ q, q ≠ p → g q = f q) →
      headcount g Q = (if Q (g p) then 1 else 0) +
        ((Finset.univ.erase p).filter fun q => Q (f q)).card := by
    intro g hg
    unfold headcount
    rw [Finset.card_filter, ← Finset.add_sum_erase _ _ (Finset.mem_univ p), Finset.card_filter]
    congr 1
    apply Finset.sum_congr rfl
    intro q hq
    rw [hg q (Finset.ne_of_mem_erase hq)]
  have hnew := hsplit (Function.update f p a) fun q hq => Function.update_of_ne hq a f
  have hold := hsplit f fun _ _ => rfl
  rw [Function.update_self] at hnew
  omega

/-- The party that moves counts before and after, or neither time. -/
theorem headcount_update_same {p : P} {a : A} (h : Q a ↔ Q (f p)) :
    headcount (Function.update f p a) Q = headcount f Q := by
  have hmove := headcount_update (Q := Q) f p a
  simp only [h] at hmove
  omega

/-- The party that moves did not count, and counts now. -/
theorem headcount_update_enter {p : P} {a : A} (hold : ¬ Q (f p)) (hnew : Q a) :
    headcount (Function.update f p a) Q = headcount f Q + 1 := by
  have hmove := headcount_update (Q := Q) f p a
  simpa [hold, hnew] using hmove

/-- The party that moves counted, and counts no more. -/
theorem headcount_update_leave {p : P} {a : A} (hold : Q (f p)) (hnew : ¬ Q a) :
    headcount (Function.update f p a) Q + 1 = headcount f Q := by
  have hmove := headcount_update (Q := Q) f p a
  simpa [hold, hnew] using hmove
