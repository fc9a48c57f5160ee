import Mathlib.Logic.Function.Basic
import Mathlib.Data.List.Basic
import Mathlib.Tactic.Common

/-!
# Redoing a list of writes

A redo log holds the new contents of some blocks and copies them to their
places one after the other.  `Redone home old new blocks k` says of a store
that the first `k` blocks of the list have their new contents and that the
blocks of `home` that are not in the list have their old ones.  What the others
in the list hold does not matter, so the copying may start over at any time
(`Redone.again`), and once all are copied the home blocks are determined
(`Redone.all`).
-/

variable {B D : Type} {home : B → Prop} {old new store : B → D} {blocks : List B} {k : Nat}

/-- The contents when all blocks of the list have been written. -/
def redo [DecidableEq B] (old new : B → D) (blocks : List B) : B → D :=
  fun b => if b ∈ blocks then new b else old b

/-- The first `k` blocks of the list have been written, and no other block of
`home` but those of the list. -/
structure Redone (home : B → Prop) (old new : B → D) (blocks : List B) (k : Nat)
    (store : B → D) : Prop where
  written : ∀ b ∈ blocks.take k, store b = new b
  other : ∀ b, home b → b ∉ blocks → store b = old b

namespace Redone

/-- Nothing has been written yet. -/
theorem start (h : ∀ b, home b → b ∉ blocks → store b = old b) :
    Redone home old new blocks 0 store := by
  constructor
  · intro b hb
    simp at hb
  · exact h

/-- The writing starts over. -/
theorem again (h : Redone home old new blocks k store) : Redone home old new blocks 0 store :=
  start h.other

/-- The next block is written. -/
theorem write [DecidableEq B] (h : Redone home old new blocks k store) (hk : k < blocks.length) :
    Redone home old new blocks (k + 1)
      (Function.update store blocks[k] (new blocks[k])) := by
  constructor
  · intro b hb
    by_cases hbk : b = blocks[k]
    · subst hbk
      rw [Function.update_self]
    · rw [Function.update_of_ne hbk]
      rw [List.take_add_one, List.mem_append, List.getElem?_eq_getElem hk] at hb
      rcases hb with hb | hb
      · exact h.written b hb
      · exact absurd (List.mem_singleton.mp hb) hbk
  · intro b hhome hb
    have hbk : b ≠ blocks[k] := by
      intro heq
      rw [heq] at hb
      exact hb (List.getElem_mem hk)
    rw [Function.update_of_ne hbk]
    exact h.other b hhome hb

/-- There is no block left to write. -/
theorem complete (h : Redone home old new blocks k store) (hk : blocks.length ≤ k) :
    Redone home old new blocks blocks.length store := by
  constructor
  · intro b hb
    apply h.written b
    rw [List.take_of_length_le hk]
    exact List.mem_of_mem_take hb
  · exact h.other

/-- **All blocks are written.** -/
theorem all [DecidableEq B] (h : Redone home old new blocks k store) (hk : blocks.length ≤ k)
    {b : B} (hb : home b) : store b = redo old new blocks b := by
  unfold redo
  split
  · rename_i hmem
    exact h.written b (by rwa [List.take_of_length_le hk])
  · rename_i hmem
    exact h.other b hb hmem

end Redone
