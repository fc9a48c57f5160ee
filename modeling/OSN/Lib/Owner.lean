import Mathlib.Logic.Function.Basic
import Mathlib.Tactic.Common

/-!
# Who holds a lock

Each lock names its owner, and each party the one lock it holds.  `Owned` says
that the two agree; it is kept when one party takes a free lock or gives one up,
and a lock has one owner (`Owned.unique`).
-/

variable {L P : Type} [DecidableEq L] [DecidableEq P]
  {lock lock' : L → Option P} {holds holds' : P → Option L} {l : L} {p q : P}

/-- The owner of a lock is the party that holds it. -/
def Owned (lock : L → Option P) (holds : P → Option L) : Prop :=
  ∀ p l, lock l = some p ↔ holds p = some l

namespace Owned

omit [DecidableEq L] [DecidableEq P]

/-- At the start nobody holds anything. -/
theorem start (hlock : ∀ l, lock l = none) (hholds : ∀ p, holds p = none) : Owned lock holds := by
  intro p l
  simp [hlock l, hholds p]

theorem unique (h : Owned lock holds) (hp : holds p = some l) (hq : holds q = some l) : p = q := by
  have hlockp := (h p l).mpr hp
  have hlockq := (h q l).mpr hq
  exact Option.some.inj (hlockp.symm.trans hlockq)

/-- Nobody's hold changes. -/
theorem keep (h : Owned lock holds) (hlock : lock' = lock) (hholds : ∀ p, holds' p = holds p) :
    Owned lock' holds' := by
  intro p l
  rw [hlock, hholds p]
  exact h p l

variable [DecidableEq L] [DecidableEq P]

/-- A party takes or gives up a lock that nobody else holds, and holds no other
before or after. -/
theorem exchange (h : Owned lock holds) {owner : Option P} (howner : ∀ q, q ≠ p → owner ≠ some q)
    (hfree : ∀ q, q ≠ p → lock l ≠ some q) (hlock : lock' = Function.update lock l owner)
    (hnew : ∀ m, holds' p = some m ↔ m = l ∧ owner = some p)
    (hold : ∀ m, m ≠ l → holds p ≠ some m) (hother : ∀ q, q ≠ p → holds' q = holds q) :
    Owned lock' holds' := by
  intro q m
  have hbefore := h q m
  rw [hlock]
  by_cases hq : q = p
  · subst hq
    rw [hnew]
    by_cases hm : m = l
    · subst hm
      simp
    · simp [hm, hbefore, hold m hm]
  · rw [hother q hq]
    by_cases hm : m = l
    · subst hm
      simp [howner q hq, ← hbefore, hfree q hq]
    · rw [Function.update_of_ne hm]
      exact hbefore

/-- A party that holds nothing takes a free lock. -/
theorem acquire (h : Owned lock holds) (hfree : lock l = none)
    (hlock : lock' = Function.update lock l (some p)) (hnew : holds' p = some l)
    (hold : holds p = none) (hother : ∀ q, q ≠ p → holds' q = holds q) : Owned lock' holds' := by
  apply h.exchange _ _ hlock _ _ hother
  · intro q hq hp
    exact hq (Option.some.inj hp).symm
  · intro q _
    simp [hfree]
  · intro m
    simp [hnew, eq_comm]
  · intro m _
    simp [hold]

/-- A party gives its lock up. -/
theorem release (h : Owned lock holds) (hlock : lock' = Function.update lock l none)
    (hnew : holds' p = none) (hold : holds p = some l)
    (hother : ∀ q, q ≠ p → holds' q = holds q) : Owned lock' holds' := by
  apply h.exchange _ _ hlock _ _ hother
  · intro q _
    simp
  · intro q hq
    simp [(h p l).mpr hold, Ne.symm hq]
  · intro m
    simp [hnew]
  · intro m hm
    simp [hold, Ne.symm hm]

end Owned
