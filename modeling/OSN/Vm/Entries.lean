import Mathlib.Data.Nat.Bitwise
import OSN.Vm.Pagetable

/-!
# Entries of a page table

An entry is a number: the address of a page, without its last 12 bits, and 10 bits of
flags.  The index of a level is a digit of the page number to the base 512.
-/

namespace Vm

open Xv6 (PGSIZE MAXVA)

variable {pa fl va level a b : Nat}

/-- The entry that maps page `pa` with flags. -/
def entryOf (pa fl : Nat) : Nat := pa / PGSIZE * 1024 + fl

/-- The entry that points to a table, if there is one. -/
def pointer (x : Nat) : Nat := if x = 0 then 0 else entryOf x PTE_V

theorem PA2PTE_or (hfl : fl < 1024) : PA2PTE pa ||| fl = entryOf pa fl := by
  unfold PA2PTE entryOf PGSIZE
  rw [Nat.shiftRight_eq_div_pow, ← Nat.shiftLeft_add_eq_or_of_lt (show fl < 2 ^ 10 from hfl),
    Nat.shiftLeft_eq]

theorem PA2PTE_or_or {perm : Nat} (hperm : perm < 1024) :
    PA2PTE pa ||| perm ||| PTE_V = entryOf pa (perm ||| PTE_V) := by
  rw [Nat.or_assoc, PA2PTE_or]
  exact Nat.or_lt_two_pow (n := 10) hperm (by decide)

theorem entryOf_lt (hpa : pa < 2 ^ 64) (hfl : fl < 1024) : entryOf pa fl < 2 ^ 64 := by
  unfold entryOf PGSIZE
  omega

/-- **What is put into an entry comes out of it.** -/
theorem PTE2PA_entryOf (hpa : pa < 2 ^ 64) (hfl : fl < 1024) :
    PTE2PA (entryOf pa fl) = PGROUNDDOWN pa := by
  unfold PTE2PA entryOf PGROUNDDOWN PGSIZE
  rw [Nat.shiftRight_eq_div_pow, Nat.shiftLeft_eq]
  omega

theorem testBit_entryOf (hfl : fl < 1024) {i : Nat} (hi : i < 10) :
    (entryOf pa fl).testBit i = fl.testBit i := by
  unfold entryOf
  rw [Nat.mul_comm, show 1024 = 2 ^ 10 by norm_num, Nat.testBit_two_pow_mul_add _ hfl, if_pos hi]

/-- A flag is a bit. -/
theorem and_eq_zero_iff {n i : Nat} : n &&& 2 ^ i = 0 ↔ n.testBit i = false := by
  rw [Nat.and_two_pow]
  cases n.testBit i <;> simp

theorem entry_and_V (hfl : fl < 1024) : entryOf pa fl &&& PTE_V = 0 ↔ fl.testBit 0 = false := by
  rw [PTE_V, and_eq_zero_iff, testBit_entryOf hfl (by decide)]

theorem entry_and_U (hfl : fl < 1024) : entryOf pa fl &&& PTE_U = 0 ↔ fl.testBit 4 = false := by
  rw [PTE_U, and_eq_zero_iff, testBit_entryOf hfl (by decide)]

theorem PTE_FLAGS_entryOf (hfl : fl < 1024) : PTE_FLAGS (entryOf pa fl) = fl := by
  unfold PTE_FLAGS entryOf
  rw [show 0x3FF = 2 ^ 10 - 1 by norm_num, Nat.and_two_pow_sub_one_eq_mod]
  omega

/-- The bits of the complement of `PTE_U`. -/
theorem testBit_all_but {k i : Nat} (hk : PTE_U < 2 ^ k) :
    (2 ^ k - 1 - PTE_U).testBit i = (decide (i < k) && decide (i ≠ 4)) := by
  rw [Nat.sub_sub, Nat.add_comm, Nat.testBit_two_pow_sub_succ hk, PTE_U, Nat.testBit_two_pow]
  simp [eq_comm]

/-- `uvmclear` clears a flag of the entry. -/
theorem entry_clear (hpa : pa < 2 ^ 64) (hfl : fl < 1024) :
    entryOf pa fl &&& (2 ^ 64 - 1 - PTE_U) = entryOf pa (fl &&& (2 ^ 10 - 1 - PTE_U)) := by
  have hfl' : fl &&& (2 ^ 10 - 1 - PTE_U) < 1024 := Nat.lt_of_le_of_lt Nat.and_le_left hfl
  refine Nat.eq_of_testBit_eq fun i => ?_
  rw [Nat.testBit_and, testBit_all_but (by decide)]
  by_cases hi : i < 10
  · have hi' : i < 64 := by omega
    rw [testBit_entryOf hfl hi, testBit_entryOf hfl' hi, Nat.testBit_and,
      testBit_all_but (k := 10) (by decide)]
    simp [hi, hi']
  · have hne : i ≠ 4 := by omega
    unfold entryOf
    rw [Nat.mul_comm, show 1024 = 2 ^ 10 by norm_num, Nat.testBit_two_pow_mul_add _ hfl,
      Nat.testBit_two_pow_mul_add _ hfl', if_neg hi, if_neg hi]
    by_cases hlt : i < 64
    · simp [hlt, hne]
    · have hzero : (pa / PGSIZE).testBit (i - 10) = false := by
        refine Nat.testBit_lt_two_pow (Nat.lt_of_lt_of_le ?_ (Nat.pow_le_pow_right (by decide)
          (show 54 ≤ i - 10 by omega)))
        unfold PGSIZE
        omega
      simp [hzero]

/-! ### Pointers to tables -/

theorem pointer_lt (ha : a < 2 ^ 64) : pointer a < 2 ^ 64 := by
  unfold pointer
  split
  · decide
  · exact entryOf_lt ha (by decide)

theorem pointer_and_V : pointer a &&& PTE_V = 0 ↔ a = 0 := by
  unfold pointer
  split
  next hzero => exact iff_of_true (Nat.zero_and _) hzero
  next hne => exact iff_of_false (fun h => absurd ((entry_and_V (by decide)).mp h) (by decide)) hne

theorem PTE2PA_pointer (ha : a < 2 ^ 64) (haligned : PGSIZE ∣ a) (hne : a ≠ 0) :
    PTE2PA (pointer a) = a := by
  rw [pointer, if_neg hne, PTE2PA_entryOf ha (by decide)]
  exact Nat.div_mul_cancel haligned

/-! ### Indices -/

theorem PX_eq : PX level va = va / PGSIZE / 512 ^ level % 512 := by
  unfold PX PGSIZE
  rw [Nat.shiftRight_eq_div_pow, show 0x1FF = 2 ^ 9 - 1 by norm_num,
    Nat.and_two_pow_sub_one_eq_mod, Nat.div_div_eq_div_mul, Nat.pow_add, Nat.pow_mul]

end Vm
