import Mathlib.Data.List.Basic
import Mathlib.Logic.Function.Basic
import Mathlib.Tactic.Common

/-!
# A map that is kept in slots

Each slot of a list is free, or holds a key with its value.  As long as no key is in two
slots the list is a finite map: to fill a free slot, or a new one at the end, gives a new
key its value, and to free the slot of a key removes it.
-/

/-- A slot is free, or holds a key with its value. -/
abbrev Slots (κ ν : Type) := List (Option (κ × ν))

namespace Slots

variable {κ ν : Type} {l l' : Slots κ ν} {i j : Nat} {k : κ} {v w : ν} {x : Option (κ × ν)}

/-- What a slot holds; there is nothing behind the end. -/
def slot (l : Slots κ ν) (i : Nat) : Option (κ × ν) := l[i]?.join

/-- No key is in two slots. -/
def Unique (l : Slots κ ν) : Prop :=
  ∀ i j k v w, slot l i = some (k, v) → slot l j = some (k, w) → i = j

/-- The list with `x` in slot `i`, which may be a new one at the end. -/
def put (l : Slots κ ν) (i : Nat) (x : Option (κ × ν)) : Slots κ ν :=
  l.take i ++ x :: l.drop (i + 1)

/-- The first slot that is free, or a new one at the end. -/
def firstFree (l : Slots κ ν) : Nat := l.findIdx Option.isNone

theorem slot_eq_some_iff : slot l i = some (k, v) ↔ l[i]? = some (some (k, v)) := by
  unfold slot
  exact Option.join_eq_some_iff

theorem slot_of_length_le (h : l.length ≤ i) : slot l i = none := by
  unfold slot
  rw [List.getElem?_eq_none h]
  rfl

theorem lt_of_slot (h : slot l i = some (k, v)) : i < l.length := by
  by_contra hge
  rw [slot_of_length_le (Nat.le_of_not_lt hge)] at h
  cases h

/-- Lists are the same that have the same slots. -/
theorem ext (hlength : l.length = l'.length) (h : ∀ i < l.length, slot l i = slot l' i) :
    l = l' := by
  refine List.ext_getElem hlength fun i hi hi' => ?_
  have hslot := h i hi
  unfold slot at hslot
  rwa [List.getElem?_eq_getElem hi, List.getElem?_eq_getElem hi', Option.join_some,
    Option.join_some] at hslot

theorem length_put (h : i ≤ l.length) : (put l i x).length = max l.length (i + 1) := by
  simp only [put, List.length_append, List.length_take, List.length_cons, List.length_drop]
  omega

/-- **One slot changes**, and no other. -/
theorem slot_put (h : i ≤ l.length) : slot (put l i x) j = if j = i then x else slot l j := by
  have hlength : (l.take i).length = i := List.length_take_of_le h
  unfold slot put
  rcases Nat.lt_trichotomy j i with hlt | rfl | hgt
  · rw [List.getElem?_append_left (by omega), List.getElem?_take_of_lt hlt,
      if_neg (Nat.ne_of_lt hlt)]
  · rw [List.getElem?_append_right (by omega), hlength, Nat.sub_self, List.getElem?_cons_zero,
      if_pos rfl, Option.join_some]
  · obtain ⟨d, rfl⟩ := Nat.exists_eq_add_of_lt hgt
    rw [List.getElem?_append_right (by omega), hlength, show i + d + 1 - i = d + 1 by omega,
      List.getElem?_cons_succ, List.getElem?_drop, if_neg (by omega),
      show i + 1 + d = i + d + 1 by omega]

/-! ### Free slots -/

theorem firstFree_le : firstFree l ≤ l.length := List.findIdx_le_length

theorem slot_firstFree : slot l (firstFree l) = none := by
  by_cases hlt : firstFree l < l.length
  · have hfree : l[firstFree l].isNone = true := List.findIdx_getElem
    unfold slot
    rw [List.getElem?_eq_getElem hlt, Option.join_some]
    exact Option.isNone_iff_eq_none.mp hfree
  · exact slot_of_length_le (Nat.le_of_not_lt hlt)

/-- **A free slot is used before the list grows.** -/
theorem firstFree_lt_iff : firstFree l < l.length ↔ none ∈ l := by
  unfold firstFree
  rw [List.findIdx_lt_length]
  simp

/-- A slot is freed. -/
theorem Unique.clear (h : Unique l) (hi : i ≤ l.length) : Unique (put l i none) := by
  intro a b k' v' w' ha hb
  rw [slot_put hi] at ha hb
  split at ha
  · cases ha
  · split at hb
    · cases hb
    · exact h a b k' v' w' ha hb

/-! ### Keys -/

variable [DecidableEq κ]

/-- The slot of a key. -/
def index (l : Slots κ ν) (k : κ) : Option Nat := l.findIdx? fun x => x.map Prod.fst = some k

/-- **The map**: the value of a key. -/
def value (l : Slots κ ν) (k : κ) : Option ν :=
  (index l k).bind fun i => (slot l i).map Prod.snd

theorem index_spec (h : index l k = some i) : ∃ v, slot l i = some (k, v) := by
  obtain ⟨hi, hkey, -⟩ := List.findIdx?_eq_some_iff_getElem.mp h
  obtain ⟨⟨k', v⟩, hsome, rfl⟩ := Option.map_eq_some_iff.mp (of_decide_eq_true hkey)
  exact ⟨v, slot_eq_some_iff.mpr (by rw [List.getElem?_eq_getElem hi, hsome])⟩

theorem index_eq_none_iff : index l k = none ↔ ∀ i v, slot l i ≠ some (k, v) := by
  unfold index
  rw [List.findIdx?_eq_none_iff]
  constructor
  · intro hnone i v hslot
    have hmem := List.mem_of_getElem? (slot_eq_some_iff.mp hslot)
    simpa using hnone _ hmem
  · intro hnone x hx
    obtain ⟨i, hi, rfl⟩ := List.mem_iff_getElem.mp hx
    refine decide_eq_false fun hkey => ?_
    obtain ⟨⟨k', v⟩, hsome, rfl⟩ := Option.map_eq_some_iff.mp hkey
    exact hnone i v (slot_eq_some_iff.mpr (by rw [List.getElem?_eq_getElem hi, hsome]))

theorem value_eq_none_iff : value l k = none ↔ ∀ i v, slot l i ≠ some (k, v) := by
  rw [← index_eq_none_iff]
  unfold value
  cases hindex : index l k with
  | none => simp
  | some i =>
      obtain ⟨v, hslot⟩ := index_spec hindex
      simp [hslot]

namespace Unique

variable (h : Unique l)
include h

/-- **The key of a slot** has its value. -/
theorem value_eq_some_iff : value l k = some v ↔ ∃ i, slot l i = some (k, v) := by
  unfold value
  constructor
  · intro hvalue
    obtain ⟨i, hindex, hsome⟩ := Option.bind_eq_some_iff.mp hvalue
    obtain ⟨w, hslot⟩ := index_spec hindex
    rw [hslot] at hsome
    obtain rfl := Option.some.inj hsome
    exact ⟨i, hslot⟩
  · rintro ⟨i, hslot⟩
    cases hindex : index l k with
    | none => exact absurd hslot (index_eq_none_iff.mp hindex i v)
    | some j =>
        obtain ⟨w, hslot'⟩ := index_spec hindex
        obtain rfl := h i j k v w hslot hslot'
        simp [hslot]

/-- A key that is new stays in one slot. -/
theorem fill (hi : i ≤ l.length) (hnew : value l k = none) :
    Unique (put l i (some (k, v))) := by
  have hother := value_eq_none_iff.mp hnew
  intro a b k' v' w' ha hb
  rw [slot_put hi] at ha hb
  split at ha
  next hai =>
    split at hb
    next hbi => rw [hai, hbi]
    next =>
      obtain ⟨rfl, rfl⟩ := Prod.mk.inj (Option.some.inj ha)
      exact absurd hb (hother b w')
  next =>
    split at hb
    next =>
      obtain ⟨rfl, rfl⟩ := Prod.mk.inj (Option.some.inj hb)
      exact absurd ha (hother a v')
    next => exact h a b k' v' w' ha hb

/-- **To fill a free slot** gives the new key its value. -/
theorem value_fill (hi : i ≤ l.length) (hfree : slot l i = none) (hnew : value l k = none) :
    value (put l i (some (k, v))) = Function.update (value l) k (some v) := by
  have hunique := h.fill (v := v) hi hnew
  funext k'
  refine Option.ext fun w => ?_
  rw [hunique.value_eq_some_iff]
  by_cases hk : k' = k
  · subst hk
    rw [Function.update_self]
    constructor
    · rintro ⟨j, hj⟩
      rw [slot_put hi] at hj
      split at hj
      next => exact congrArg (Option.map Prod.snd) hj
      next => exact absurd hj (value_eq_none_iff.mp hnew j w)
    · intro hv
      refine ⟨i, ?_⟩
      rw [slot_put hi, if_pos rfl, Option.some.inj hv]
  · rw [Function.update_of_ne hk, h.value_eq_some_iff]
    refine exists_congr fun j => ?_
    rw [slot_put hi]
    split
    next hj =>
      subst hj
      simp [hfree, Ne.symm hk]
    next => exact Iff.rfl

/-- **To free the slot of a key** removes it. -/
theorem value_clear (hslot : slot l i = some (k, v)) :
    value (put l i none) = Function.update (value l) k none := by
  have hi := Nat.le_of_lt (lt_of_slot hslot)
  have hunique := h.clear hi
  funext k'
  refine Option.ext fun w => ?_
  rw [hunique.value_eq_some_iff]
  by_cases hk : k' = k
  · subst hk
    rw [Function.update_self]
    refine iff_of_false ?_ nofun
    rintro ⟨j, hj⟩
    rw [slot_put hi] at hj
    split at hj
    next => cases hj
    next hne => exact hne (h j i k' w v hj hslot)
  · rw [Function.update_of_ne hk, h.value_eq_some_iff]
    refine exists_congr fun j => ?_
    rw [slot_put hi]
    split
    next hj =>
      subst hj
      simp [hslot, Ne.symm hk]
    next => exact Iff.rfl

end Unique

end Slots
