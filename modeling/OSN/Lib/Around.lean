import Mathlib.Data.List.Chain
import Mathlib.Data.Nat.Find
import Mathlib.Logic.Function.Iterate
import Mathlib.Tactic.Common

/-!
# Around a ring

The pointers of a ring lead through the nodes of a list and back to the first one.  A loop
along them comes from every node to every other one, and meets no node twice before.
-/

variable {α : Type}

/-- Each node of the list points to the next one, and the last one to the first. -/
def Around (f : α → α) (l : List α) : Prop :=
  ∀ i < l.length, l[(i + 1) % l.length]? = l[i]?.map f

namespace Around

variable {f : α → α} {l : List α} {x y : α} {i k : Nat}

/-- A chain that is closed. -/
theorem of_chain (h : (x :: (l ++ [x])).IsChain (f · = ·)) : Around f (x :: l) := by
  rw [List.isChain_iff_getElem] at h
  intro i hi
  have hlink := h i (by rw [List.length_cons, List.length_append]; exact Nat.succ_lt_succ hi)
  have hthis : (x :: (l ++ [x]))[i]? = (x :: l)[i]? := by
    rw [← List.cons_append, List.getElem?_append_left hi]
  have hnext : (x :: l)[(i + 1) % (x :: l).length]? = (x :: (l ++ [x]))[i + 1]? := by
    by_cases hlast : i + 1 = (x :: l).length
    · rw [hlast, Nat.mod_self, ← List.cons_append, List.getElem?_append_right (Nat.le_refl _),
        Nat.sub_self]
      rfl
    · rw [Nat.mod_eq_of_lt (by omega), ← List.cons_append, List.getElem?_append_left (by omega)]
  have hlength : i + 1 < (x :: (l ++ [x])).length := by
    rw [List.length_cons, List.length_append]
    exact Nat.succ_lt_succ hi
  rw [hnext, ← hthis, List.getElem?_eq_getElem hlength,
    List.getElem?_eq_getElem (Nat.lt_of_succ_lt hlength), ← hlink, Option.map_some]

/-- **Some steps on.** -/
theorem iterate (h : Around f l) (hi : i < l.length) (k : Nat) :
    l[(i + k) % l.length]? = l[i]?.map (f^[k]) := by
  induction k with
  | zero => rw [Nat.add_zero, Nat.mod_eq_of_lt hi, Function.iterate_zero, Option.map_id, id]
  | succ k ih =>
      have hstep := h ((i + k) % l.length) (Nat.mod_lt _ (Nat.zero_lt_of_lt hi))
      rw [Nat.mod_add_mod, ih, Option.map_map, ← Function.iterate_succ'] at hstep
      exact hstep

/-- The loop stays in the ring. -/
theorem iterate_mem (h : Around f l) (hx : x ∈ l) (k : Nat) : f^[k] x ∈ l := by
  obtain ⟨i, hi, rfl⟩ := List.getElem_of_mem hx
  have hk := h.iterate hi k
  rw [List.getElem?_eq_getElem hi, Option.map_some] at hk
  exact List.mem_of_getElem? hk

theorem next_mem (h : Around f l) (hx : x ∈ l) : f x ∈ l := h.iterate_mem hx 1

/-- **The loop comes to every node.** -/
theorem exists_iterate (h : Around f l) (hx : x ∈ l) (hy : y ∈ l) :
    ∃ k < l.length, f^[k] x = y := by
  obtain ⟨i, hi, rfl⟩ := List.getElem_of_mem hx
  obtain ⟨j, hj, rfl⟩ := List.getElem_of_mem hy
  have hpos : 0 < l.length := Nat.zero_lt_of_lt hi
  refine ⟨(j + (l.length - i)) % l.length, Nat.mod_lt _ hpos, ?_⟩
  have hk := h.iterate hi ((j + (l.length - i)) % l.length)
  rw [Nat.add_mod_mod, show i + (j + (l.length - i)) = j + l.length by omega, Nat.add_mod_right,
    Nat.mod_eq_of_lt hj, List.getElem?_eq_getElem hi, List.getElem?_eq_getElem hj,
    Option.map_some] at hk
  exact (Option.some.inj hk).symm

/-- Once around. -/
theorem period (h : Around f l) (hx : x ∈ l) : f^[l.length] x = x := by
  obtain ⟨i, hi, rfl⟩ := List.getElem_of_mem hx
  have hround := h.iterate hi l.length
  rw [Nat.add_mod_right, Nat.mod_eq_of_lt hi, List.getElem?_eq_getElem hi, Option.map_some] at hround
  exact (Option.some.inj hround).symm

/-- **Nodes that point to one node are one.** -/
theorem inj (h : Around f l) (hx : x ∈ l) (hy : y ∈ l) (heq : f x = f y) : x = y := by
  obtain ⟨n, hn⟩ := Nat.exists_eq_add_one.mpr (List.length_pos_of_mem hx)
  have hx' := h.period hx
  have hy' := h.period hy
  rw [hn, Function.iterate_succ_apply] at hx' hy'
  rw [← hx', ← hy', heq]

/-- **The first time** that the loop comes to a node which passes the test. -/
theorem exists_first (h : Around f l) (hx : x ∈ l) {p : α → Prop} [DecidablePred p]
    (hp : ∃ y ∈ l, p y) :
    ∃ k < l.length, p (f^[k] x) ∧ ∀ j < k, ¬ p (f^[j] x) := by
  obtain ⟨y, hy, hpy⟩ := hp
  obtain ⟨k, hk, hkx⟩ := h.exists_iterate hx hy
  have hex : ∃ k, p (f^[k] x) := ⟨k, hkx ▸ hpy⟩
  refine ⟨Nat.find hex, Nat.lt_of_le_of_lt (Nat.find_min' hex (hkx ▸ hpy)) hk, Nat.find_spec hex,
    fun j hj => Nat.find_min hex hj⟩

/-- A loop that has come back to where it began has met every node. -/
theorem met_all (h : Around f l) (hx : x ∈ l) (hback : f^[k + 1] x = x) {p : α → Prop}
    (hmet : ∀ j ≤ k, p (f^[j + 1] x)) (hy : y ∈ l) : p y := by
  obtain ⟨n, -, hn⟩ := h.exists_iterate (h.next_mem hx) hy
  rw [← hn]
  clear hn
  induction n using Nat.strongRecOn with
  | ind n ih =>
      rw [← Function.iterate_succ_apply]
      by_cases hle : n ≤ k
      · exact hmet n hle
      · have hless := ih (n - (k + 1)) (by omega)
        rw [← Function.iterate_succ_apply] at hless
        rwa [show n.succ = (n - (k + 1)).succ + (k + 1) by omega, Function.iterate_add_apply, hback]

end Around
