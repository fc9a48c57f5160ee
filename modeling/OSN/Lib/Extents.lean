import Mathlib.Algebra.GroupWithZero.Nat
import Mathlib.Algebra.BigOperators.Group.List.Basic
import Mathlib.Data.List.Perm.Basic
import Mathlib.Tactic.Common

/-!
# Runs of addresses

An extent is a run of addresses.  Of two extents that are apart one lies behind the other;
extents that touch can be made into one.  Lists of extents that are apart in pairs have room
in any run that holds them all (`Extent.total_le`), and when they fill it, they leave nothing
out (`Extent.fills`).
-/

/-- The addresses from `addr` on. -/
@[ext] structure Extent where
  addr : Nat
  len : Nat
  deriving DecidableEq

namespace Extent

/-- The first address behind. -/
def stop (x : Extent) : Nat := x.addr + x.len

/-- Neither reaches into the other. -/
def Apart (x y : Extent) : Prop := x.stop ≤ y.addr ∨ y.stop ≤ x.addr

/-- The address is in the extent. -/
def Holds (x : Extent) (a : Nat) : Prop := x.addr ≤ a ∧ a < x.stop

/-- `y` lies behind `x`, and does not touch it. -/
def Before (x y : Extent) : Prop := x.stop < y.addr

/-- The number of addresses. -/
def total (l : List Extent) : Nat := (l.map len).sum

variable {x y z b c : Extent} {l l₁ l₂ : List Extent} {a lo hi : Nat}

theorem Apart.symm (h : x.Apart y) : y.Apart x := Or.symm h

theorem Before.apart (h : x.Before y) : x.Apart y := Or.inl (Nat.le_of_lt h)

/-- What is in one is not in the other. -/
theorem Apart.not_holds (h : x.Apart y) (hx : x.Holds a) : ¬ y.Holds a := by
  rintro ⟨hy, hy'⟩
  obtain ⟨hx, hx'⟩ := hx
  rcases h with h | h
  · omega
  · omega

/-- **Extents that touch**, made into one. -/
theorem Apart.join (hx : x.Apart z) (hy : y.Apart z) (htouch : x.stop = y.addr)
    (hz : 0 < z.len) : Apart ⟨x.addr, x.len + y.len⟩ z := by
  unfold Apart stop at *
  dsimp only
  omega

/-- The first part of an extent. -/
theorem Apart.head (h : x.Apart z) {n : Nat} (hn : n ≤ x.len) : Apart ⟨x.addr, n⟩ z := by
  unfold Apart stop at *
  dsimp only
  omega

/-- The last part of an extent. -/
theorem Apart.tail (h : x.Apart z) {n : Nat} (hn : n ≤ x.len) :
    Apart ⟨x.addr + (x.len - n), n⟩ z := by
  unfold Apart stop at *
  dsimp only
  omega

/-- Two parts of one extent. -/
theorem apart_parts {n : Nat} : Apart ⟨x.addr, x.len - n⟩ ⟨x.addr + (x.len - n), n⟩ :=
  Or.inl (Nat.le_refl _)

@[simp] theorem total_nil : total [] = 0 := rfl

@[simp] theorem total_cons : total (x :: l) = x.len + total l := by
  simp [total]

@[simp] theorem total_append : total (l₁ ++ l₂) = total l₁ + total l₂ := by
  simp [total]

theorem total_perm (h : l₁.Perm l₂) : total l₁ = total l₂ := (h.map len).sum_eq

theorem pairwise_perm (h : l₁.Perm l₂) : l₁.Pairwise Apart ↔ l₂.Pairwise Apart :=
  h.pairwise_iff fun hxy => hxy.symm

/-- The extents before one of them, and those behind it. -/
theorem total_split (x : Extent) : total l =
    total (l.filter fun y => decide (y.stop ≤ x.addr)) +
      total (l.filter fun y => !decide (y.stop ≤ x.addr)) := by
  rw [← total_append]
  exact total_perm (List.filter_append_perm _ l).symm

/-- **Extents that are apart have room in a run that holds them.** -/
theorem total_le (lo hi : Nat) (hpair : l.Pairwise Apart)
    (hin : ∀ x ∈ l, lo ≤ x.addr ∧ x.stop ≤ hi) : total l ≤ hi - lo := by
  obtain ⟨n, hn⟩ : ∃ n, l.length = n := ⟨_, rfl⟩
  induction n using Nat.strongRecOn generalizing l lo hi with
  | ind n ih =>
      cases l with
      | nil => exact Nat.zero_le _
      | cons x l =>
          have hx := hin x List.mem_cons_self
          rw [List.pairwise_cons] at hpair
          have hshort : ∀ p : Extent → Bool, (l.filter p).length < n := fun p =>
            hn ▸ Nat.lt_succ_of_le (List.length_filter_le p l)
          have hlow := ih _ (hshort fun y => decide (y.stop ≤ x.addr)) lo x.addr
            (hpair.2.filter _) (fun y hy => by
              rw [List.mem_filter, decide_eq_true_iff] at hy
              exact ⟨(hin y (List.mem_cons_of_mem _ hy.1)).1, hy.2⟩) rfl
          have hhigh := ih _ (hshort fun y => !decide (y.stop ≤ x.addr)) x.stop hi
            (hpair.2.filter _) (fun y hy => by
              rw [List.mem_filter, Bool.not_eq_true', decide_eq_false_iff_not] at hy
              exact ⟨(hpair.1 y hy.1).resolve_right hy.2,
                (hin y (List.mem_cons_of_mem _ hy.1)).2⟩) rfl
          have hstop : x.stop = x.addr + x.len := rfl
          rw [total_cons, total_split x]
          omega

/-- **Extents that fill a run** without touching are one. -/
theorem fills (hsorted : l.Pairwise Before) (hin : ∀ x ∈ l, lo ≤ x.addr ∧ x.stop ≤ hi)
    (htotal : total l = hi - lo) (hlt : lo < hi) : l = [⟨lo, hi - lo⟩] := by
  cases l with
  | nil =>
      rw [total_nil] at htotal
      omega
  | cons x l =>
      obtain ⟨hlow, hhigh⟩ := hin x List.mem_cons_self
      rw [total_cons] at htotal
      rw [List.pairwise_cons] at hsorted
      have hstop : x.stop = x.addr + x.len := rfl
      cases l with
      | nil =>
          rw [total_nil] at htotal
          refine congrArg (· :: []) (Extent.ext ?_ ?_) <;> dsimp only <;> omega
      | cons y l =>
          have hrest := total_le (l := y :: l) (x.stop + 1) hi
            (hsorted.2.imp fun hxy => hxy.apart) fun z hz =>
              ⟨hsorted.1 z hz, (hin z (List.mem_cons_of_mem x hz)).2⟩
          have hy := hsorted.1 y List.mem_cons_self
          have hy' := (hin y (by simp)).2
          have hstop' : y.stop = y.addr + y.len := rfl
          unfold Before at hy
          omega

/-- Each takes `k` addresses at least. -/
theorem length_le {k : Nat} (hbig : ∀ x ∈ l, k ≤ x.len) : l.length * k ≤ total l := by
  induction l with
  | nil => simp
  | cons x l ih =>
      have hx := hbig x List.mem_cons_self
      have hl := ih fun y hy => hbig y (List.mem_cons_of_mem x hy)
      rw [List.length_cons, Nat.succ_mul, total_cons]
      omega

/-! ### Extents made into one -/

/-- **The extents `l'` are those of `l`**, some of them made into one. -/
structure Joins (l l' : List Extent) : Prop where
  total : total l' = total l
  apart : ∀ z : Extent, 0 < z.len → (∀ x ∈ l, x.Apart z) → ∀ x ∈ l', x.Apart z
  holds : ∀ a, (∃ x ∈ l', x.Holds a) → ∃ x ∈ l, x.Holds a
  fits : ∀ x ∈ l, ∃ y ∈ l', x.len ≤ y.len
  length : l'.length ≤ l.length

namespace Joins

theorem of_perm (h : l₁.Perm l₂) : Joins l₁ l₂ :=
  ⟨(total_perm h).symm, fun _ _ hz x hx => hz x (h.mem_iff.mpr hx),
    fun _ ⟨x, hx, ha⟩ => ⟨x, h.mem_iff.mpr hx, ha⟩,
    fun x hx => ⟨x, h.mem_iff.mp hx, Nat.le_refl _⟩, Nat.le_of_eq h.length_eq.symm⟩

theorem trans (h : Joins l l₁) (h' : Joins l₁ l₂) : Joins l l₂ := by
  refine ⟨h'.total.trans h.total, fun z hz hl => h'.apart z hz (h.apart z hz hl),
    fun a ha => h.holds a (h'.holds a ha), fun x hx => ?_,
    Nat.le_trans h'.length h.length⟩
  obtain ⟨y, hy, hxy⟩ := h.fits x hx
  obtain ⟨z, hz, hyz⟩ := h'.fits y hy
  exact ⟨z, hz, Nat.le_trans hxy hyz⟩

/-- **Two that touch.** -/
theorem touching (htouch : x.stop = y.addr) :
    Joins (l₁ ++ x :: y :: l₂) (l₁ ++ ⟨x.addr, x.len + y.len⟩ :: l₂) := by
  refine ⟨?_, fun z hz hl u hu => ?_, ?_, fun u hu => ?_, ?_⟩
  · simp only [total_append, total_cons]
    omega
  · rw [List.mem_append, List.mem_cons] at hu
    rcases hu with hu | rfl | hu
    · exact hl u (List.mem_append_left _ hu)
    · exact (hl x (by simp)).join (hl y (by simp)) htouch hz
    · exact hl u (by simp [hu])
  · rintro a ⟨u, hu, ha⟩
    rw [List.mem_append, List.mem_cons] at hu
    rcases hu with hu | rfl | hu
    · exact ⟨u, List.mem_append_left _ hu, ha⟩
    · by_cases hx : a < x.stop
      · exact ⟨x, by simp, ha.1, hx⟩
      · refine ⟨y, by simp, htouch ▸ Nat.le_of_not_lt hx, ?_⟩
        have hstop := ha.2
        unfold stop at *
        dsimp only at hstop
        omega
    · exact ⟨u, by simp [hu], ha⟩
  · rw [List.mem_append, List.mem_cons, List.mem_cons] at hu
    rcases hu with hu | rfl | rfl | hu
    · exact ⟨u, List.mem_append_left _ hu, Nat.le_refl _⟩
    · exact ⟨_, List.mem_append_right _ List.mem_cons_self, Nat.le_add_right _ _⟩
    · exact ⟨_, List.mem_append_right _ List.mem_cons_self, Nat.le_add_left _ _⟩
    · exact ⟨u, by simp [hu], Nat.le_refl _⟩
  · simp only [List.length_append, List.length_cons]
    omega

end Joins

end Extent
