import Mathlib.Logic.Function.Basic
import Mathlib.Data.List.Basic
import Mathlib.Data.Nat.ModEq
import Mathlib.Tactic.Common

/-!
# Segments of a circular array, and the queue they stand for

`segment N front count cells` lists `count` cells of a circular array of `N`
cells, from index `front` on.  As long as the array is not overfull, writing
the cell behind the segment appends to it and moving `front` removes its head;
so a ring buffer is a first-in first-out queue of cells.  `Fifo` is that
queue: what a sequence of calls answers, and what is still pending after it.
-/

namespace Ring

variable {β : Type} {N front count i : Nat} {cells : Nat → β}

/-- `count` cells of a circular array of `N` cells, from index `front` on. -/
def segment (N front count : Nat) (cells : Nat → β) : List β :=
  (List.range count).map fun k => cells ((front + k) % N)

/-- The last cell of a segment lies `count` places after its first. -/
theorem segment_succ_last :
    segment N front (count + 1) cells =
      segment N front count cells ++ [cells ((front + count) % N)] := by
  simp [segment, List.range_succ]

/-- The first cell of a segment, and the rest from the next index on. -/
theorem segment_succ_first (hfront : front < N) :
    segment N front (count + 1) cells =
      cells front :: segment N ((front + 1) % N) count cells := by
  simp only [segment, List.range_succ_eq_map, List.map_cons, List.map_map, Nat.add_zero,
    Nat.mod_eq_of_lt hfront, List.cons.injEq, true_and]
  apply List.map_congr_left
  intro k _
  simp only [Function.comp_apply, Nat.mod_add_mod]
  congr 2
  omega

/-- Different offsets of less than one turn are different indices. -/
theorem index_inj {j k : Nat} (hj : j < N) (hk : k < N)
    (h : (front + j) % N = (front + k) % N) : j = k := by
  have hmod : j ≡ k [MOD N] := Nat.ModEq.add_left_cancel' front h
  simpa [Nat.ModEq, Nat.mod_eq_of_lt hj, Nat.mod_eq_of_lt hk] using hmod

/-- A write outside the segment does not change it. -/
theorem segment_update_outside {x : β}
    (houtside : ∀ k, k < count → (front + k) % N ≠ i) :
    segment N front count (Function.update cells i x) = segment N front count cells := by
  apply List.map_congr_left
  intro k hk
  exact Function.update_of_ne (houtside k (List.mem_range.mp hk)) x cells

/-- **Push.**  Writing the cell behind a segment that is not full appends to
it. -/
theorem segment_push {x : β} (hroom : count < N) :
    segment N front (count + 1) (Function.update cells ((front + count) % N) x) =
      segment N front count cells ++ [x] := by
  rw [segment_succ_last, segment_update_outside, Function.update_self]
  intro k hk heq
  have := index_inj (by omega) hroom heq
  omega

/-- **Drop.**  Clearing the last cell of a segment leaves the cells before it. -/
theorem segment_drop_last {x : β} (hroom : count < N) :
    segment N front count (Function.update cells ((front + count) % N) x) =
      (segment N front (count + 1) cells).dropLast := by
  rw [segment_succ_last, List.dropLast_concat, segment_update_outside]
  intro k hk heq
  have := index_inj (by omega) hroom heq
  omega

/-! ### Free-running counters

Two counters that only grow, modulo `M`, and are taken modulo `N` to find a cell. -/

/-- The cells between the counters `front` and `back` are those of `l`. -/
structure Window (N M : Nat) (cells : Nat → β) (front back : Nat) (l : List β) : Prop where
  front_lt : front < M
  bounded : l.length ≤ N
  back : back = (front + l.length) % M
  cells : segment N (front % N) l.length cells = l

namespace Window

variable {M back : Nat} {l : List β} {x : β}

theorem nil (hfront : front < M) : Window N M cells front front [] where
  front_lt := hfront
  bounded := Nat.zero_le N
  back := (Nat.mod_eq_of_lt hfront).symm
  cells := rfl

/-- Where the next cell goes. -/
theorem back_index (h : Window N M cells front back l) (hdvd : N ∣ M) :
    back % N = (front % N + l.length) % N := by
  rw [h.back, Nat.mod_mod_of_dvd _ hdvd, Nat.mod_add_mod]

/-- **Push.** -/
theorem push (h : Window N M cells front back l) (hdvd : N ∣ M) (hroom : l.length < N) :
    Window N M (Function.update cells (back % N) x) front ((back + 1) % M) (l ++ [x]) := by
  constructor
  · exact h.front_lt
  · rw [List.length_append]
    exact hroom
  · rw [h.back, Nat.mod_add_mod, List.length_append, List.length_singleton, Nat.add_assoc]
  · rw [h.back_index hdvd, List.length_append, List.length_singleton, segment_push hroom, h.cells]

/-- **Pop.**  The cell at `front` is the head. -/
theorem pop (h : Window N M cells front back (x :: l)) (hdvd : N ∣ M) :
    cells (front % N) = x ∧ Window N M cells ((front + 1) % M) back l := by
  have hbound := h.bounded
  rw [List.length_cons] at hbound
  have hcells := h.cells
  rw [List.length_cons, segment_succ_first (Nat.mod_lt front (by omega))] at hcells
  obtain ⟨hhead, htail⟩ := List.cons_eq_cons.mp hcells
  refine ⟨hhead, Nat.mod_lt _ (Nat.zero_lt_of_lt h.front_lt), by omega, ?_, ?_⟩
  · rw [h.back, List.length_cons, Nat.mod_add_mod]
    congr 1
    omega
  · rw [Nat.mod_mod_of_dvd _ hdvd, ← Nat.mod_add_mod]
    exact htail

/-- **The last cell is given up.** -/
theorem unpush (h : Window N M cells front back (l ++ [x])) (hdvd : N ∣ M) :
    cells ((back + (M - 1)) % M % N) = x ∧ Window N M cells front ((back + (M - 1)) % M) l := by
  have hbound := h.bounded
  have hfront := h.front_lt
  rw [List.length_append, List.length_singleton] at hbound
  have hback : (back + (M - 1)) % M = (front + l.length) % M := by
    rw [h.back, Nat.mod_add_mod, List.length_append, List.length_singleton,
      show front + (l.length + 1) + (M - 1) = front + l.length + M by omega, Nat.add_mod_right]
  have hcells := h.cells
  rw [List.length_append, List.length_singleton, segment_succ_last] at hcells
  obtain ⟨hinit, hlast⟩ := List.append_inj' hcells rfl
  refine ⟨?_, hfront, by omega, hback, hinit⟩
  rw [hback, Nat.mod_mod_of_dvd _ hdvd, ← Nat.mod_add_mod]
  exact List.singleton_inj.mp hlast

/-- Only the `N` cells count. -/
theorem congr {cells' : Nat → β} (h : Window N M cells front back l)
    (hcells : ∀ i < N, cells' i = cells i) : Window N M cells' front back l := by
  refine ⟨h.front_lt, h.bounded, h.back, Eq.trans (List.map_congr_left fun k hk => ?_) h.cells⟩
  have hpos : 0 < N := Nat.lt_of_lt_of_le (Nat.zero_lt_of_lt (List.mem_range.mp hk)) h.bounded
  exact hcells _ (Nat.mod_lt _ hpos)

/-- The counters are equal just when there is nothing between them. -/
theorem empty_iff (h : Window N M cells front back l) (hless : N < M) :
    back = front ↔ l = [] := by
  have hbound := h.bounded
  have hzero : (front + l.length) % M = (front + 0) % M → l.length = 0 :=
    index_inj (by omega) (by omega)
  rw [h.back]
  constructor
  · intro heq
    apply List.length_eq_zero_iff.mp
    apply hzero
    rw [heq, Nat.add_zero, Nat.mod_eq_of_lt h.front_lt]
  · intro hl
    rw [hl, List.length_nil, Nat.add_zero, Nat.mod_eq_of_lt h.front_lt]

/-- The counters are `N` apart just when there is no room. -/
theorem full_iff (h : Window N M cells front back l) (hless : N < M) :
    back = (front + N) % M ↔ l.length = N := by
  have hbound := h.bounded
  rw [h.back]
  constructor
  · exact index_inj (by omega) hless
  · intro hl
    rw [hl]

/-- How far the counters are apart. -/
theorem length_eq (h : Window N M cells front back l) (hless : N < M) :
    (back + (M - front)) % M = l.length := by
  have hbound := h.bounded
  have hfront := h.front_lt
  rw [h.back, Nat.mod_add_mod]
  have hsum : front + l.length + (M - front) = l.length + M := by omega
  rw [hsum, Nat.add_mod_right, Nat.mod_eq_of_lt (by omega)]

end Window

/-- The last index of a segment, in a form without subtraction of numbers that
may be equal. -/
theorem last_index_succ (hcount : 0 < count) :
    ((front + count - 1) % N + 1) % N = (front + count) % N := by
  rw [Nat.mod_add_mod]
  congr 1
  omega

end Ring

/-- A call on a queue of entries of type `α`. -/
inductive QueueCall (α : Type) where
  | enqueue (x : α)
  | dequeue
  deriving DecidableEq, Repr

namespace Fifo

variable {α : Type}

/-- One call on a first-in first-out queue, oldest entry first. -/
def call (pending : List α) : QueueCall α → List α
  | .enqueue x => pending ++ [x]
  | .dequeue => pending.tail

/-- What is pending after a sequence of calls. -/
def after (pending : List α) (calls : List (QueueCall α)) : List α :=
  calls.foldl call pending

/-- The answers of the dequeue calls of a sequence: the oldest pending entry,
or `none` if nothing is pending. -/
def answers : List α → List (QueueCall α) → List (Option α)
  | _, [] => []
  | pending, .enqueue x :: rest => answers (pending ++ [x]) rest
  | pending, .dequeue :: rest => pending.head? :: answers pending.tail rest

/-- At no point of the sequence are more than `cap` entries pending. -/
def Within (cap : Nat) : List α → List (QueueCall α) → Prop
  | _, [] => True
  | pending, c :: rest =>
      (call pending c).length ≤ cap ∧ Within cap (call pending c) rest

/-- At every dequeue call of the sequence `P` holds of the pending entries. -/
def AtDequeues (P : List α → Prop) : List α → List (QueueCall α) → Prop
  | _, [] => True
  | pending, .enqueue x :: rest => AtDequeues P (pending ++ [x]) rest
  | pending, .dequeue :: rest => P pending ∧ AtDequeues P pending.tail rest

end Fifo
