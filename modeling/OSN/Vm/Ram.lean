import OSN.Kernel.Waitx
import OSN.Lib.Ends

/-!
# Physical memory

Physical memory is an array of bytes.  `kmem.freelist` is the list of its free pages, the
first one first; the page that is freed is filled with junk, and so is the one that is
allocated.  `kalloc` fails when there is no free page; it may also fail when there is one,
for other harts take pages and give them back.
-/

namespace Vm

open Xv6 (PGSIZE MAXVA)

/-- One beyond the last physical address that there is memory for. -/
def PHYSTOP : Nat := 0x80000000 + 128 * 1024 * 1024

def PGROUNDUP (sz : Nat) : Nat := (sz + PGSIZE - 1) % 2 ^ 64 / PGSIZE * PGSIZE

def PGROUNDDOWN (a : Nat) : Nat := a / PGSIZE * PGSIZE

/-- The physical memory.  `kernelEnd` is `end`, the first address after the kernel;
`denied k` says that the `k`-th call of `kalloc` from now finds no page. -/
structure Ram where
  mem : Nat → UInt8
  freelist : List Nat
  kernelEnd : Nat
  denied : Nat → Bool

/-- A `panic` is a failure with its text. -/
abbrev RamM := EStateM String Ram

namespace Ram

/-- The 64-bit number at an address. -/
def load (s : Ram) (a : Nat) : Nat := Bytes.ofLe (Bytes.slice s.mem a 8)

def store (s : Ram) (a v : Nat) : Ram := { s with mem := Bytes.splice s.mem a (Bytes.leBytes 8 v) }

/-- `memset`. -/
def memset (s : Ram) (a : Nat) (c : UInt8) (n : Nat) : Ram :=
  { s with mem := fun i => if a ≤ i ∧ i < a + n then c else s.mem i }

/-- `memmove` of bytes from outside the pages. -/
def memmove (s : Ram) (a : Nat) (l : List UInt8) : Ram := { s with mem := Bytes.splice s.mem a l }

end Ram

/-- `*pte`. -/
def load (a : Nat) : RamM Nat := do
  let s ← get
  return s.load a

/-- `*pte = v`. -/
def store (a v : Nat) : RamM Unit := modify fun s => s.store a v

def memset (a : Nat) (c : UInt8) (n : Nat) : RamM Unit := modify fun s => s.memset a c n

/-- `kalloc`; 0 is the null pointer. -/
def kalloc : RamM Nat := do
  let s ← get
  set { s with denied := fun k => s.denied (k + 1) }
  match s.freelist with
  | [] => return 0
  | r :: rest =>
      if s.denied 0 then return 0
      else
        modify fun s => { s with freelist := rest }
        memset r 5 PGSIZE
        return r

/-- `kfree`. -/
def kfree (pa : Nat) : RamM Unit := do
  let s ← get
  if pa % PGSIZE ≠ 0 ∨ pa < s.kernelEnd ∨ PHYSTOP ≤ pa then throw "kfree"
  else
    memset pa 1 PGSIZE
    store pa (s.freelist.headD 0)
    modify fun s => { s with freelist := pa :: s.freelist }

namespace Ram

variable {s : Ram} {a b v : Nat}

@[simp] theorem store_freelist : (s.store a v).freelist = s.freelist := rfl

@[simp] theorem store_kernelEnd : (s.store a v).kernelEnd = s.kernelEnd := rfl

theorem load_store (hv : v < 2 ^ 64) : (s.store a v).load a = v := by
  have hslice : Bytes.slice (s.store a v).mem a (Bytes.leBytes 8 v).length = Bytes.leBytes 8 v :=
    Bytes.slice_splice
  rw [Bytes.leBytes_length] at hslice
  rw [load, hslice, Bytes.ofLe_leBytes, show (256 : Nat) ^ 8 = 2 ^ 64 by norm_num,
    Nat.mod_eq_of_lt hv]

/-- Numbers lie apart when their places are different multiples of 8. -/
theorem load_store_ne (ha : 8 ∣ a) (hb : 8 ∣ b) (hne : b ≠ a) :
    (s.store a v).load b = s.load b := by
  unfold load store
  rw [Bytes.slice_splice_apart]
  rw [Bytes.leBytes_length]
  omega

theorem load_congr {t : Ram} (h : ∀ i < 8, t.mem (a + i) = s.mem (a + i)) :
    t.load a = s.load a := by
  unfold load
  rw [Bytes.slice_congr h]

theorem load_zero (h : ∀ i < 8, s.mem (a + i) = 0) : s.load a = 0 := by
  have hzeros : Bytes.slice s.mem a 8 = Bytes.slice (fun _ => 0) 0 8 := Bytes.slice_congr h
  rw [load, hzeros, Bytes.slice_zeros, Bytes.ofLe_zeros]

theorem store_outside {i : Nat} (h : i < a ∨ a + 8 ≤ i) : (s.store a v).mem i = s.mem i := by
  unfold store
  exact Bytes.splice_outside (by rwa [Bytes.leBytes_length])

end Ram

/-! ### Pages -/

/-- A physical page that `kalloc` and `kfree` deal with. -/
structure IsPage (s : Ram) (x : Nat) : Prop where
  aligned : PGSIZE ∣ x
  start : s.kernelEnd ≤ x
  stop : x < PHYSTOP

/-- The free pages are pages, and no two of them are one. -/
structure FreeList (s : Ram) : Prop where
  nodup : s.freelist.Nodup
  page : ∀ x ∈ s.freelist, IsPage s x
  /-- The kernel does not lie below address 0. -/
  kernel : 0 < s.kernelEnd

variable {s t : Ram} {x : Nat}

theorem PGROUNDDOWN_le (a : Nat) : PGROUNDDOWN a ≤ a := Nat.div_mul_le_self a PGSIZE

/-- The bytes of a page. -/
theorem PGROUNDDOWN_eq (hx : PGSIZE ∣ x) {a : Nat} :
    PGROUNDDOWN a = x ↔ x ≤ a ∧ a < x + PGSIZE := by
  unfold PGROUNDDOWN PGSIZE at *
  omega

/-- What `kalloc` has done when it returns `x`. -/
structure Kalloced (s : Ram) (x : Nat) (t : Ram) : Prop where
  freelist : s.freelist = x :: t.freelist
  kernelEnd : t.kernelEnd = s.kernelEnd
  mem : ∀ a, PGROUNDDOWN a ≠ x → t.mem a = s.mem a

/-- What has changed after a `kalloc` that has failed. -/
structure Denied (s t : Ram) : Prop where
  freelist : t.freelist = s.freelist
  kernelEnd : t.kernelEnd = s.kernelEnd
  mem : t.mem = s.mem

/-- **`kalloc`** takes a page from the list, or fails. -/
theorem kalloc_ends (h : FreeList s) :
    Ends kalloc s (fun x t => x = 0 ∧ Denied s t ∨ x ≠ 0 ∧ Kalloced s x t) fun _ _ => False := by
  unfold kalloc
  rw [Ends.get_bind_iff, Ends.set_bind_iff]
  split
  · exact Or.inl ⟨rfl, rfl, rfl, rfl⟩
  next r rest hlist =>
    split
    · exact Or.inl ⟨rfl, rfl, rfl, rfl⟩
    next =>
      have hpage := h.page r (hlist ▸ List.mem_cons_self)
      have hne : r ≠ 0 := by
        have hkernel := h.kernel
        have hstart := hpage.start
        omega
      rw [Ends.modify_bind_iff]
      unfold memset
      rw [Ends.modify_bind_iff]
      refine Or.inr ⟨hne, hlist, rfl, fun a ha => ?_⟩
      rw [Ne, PGROUNDDOWN_eq hpage.aligned] at ha
      exact if_neg ha

/-- What `kfree` has done. -/
structure Kfreed (s : Ram) (x : Nat) (t : Ram) : Prop where
  freelist : t.freelist = x :: s.freelist
  kernelEnd : t.kernelEnd = s.kernelEnd
  mem : ∀ a, PGROUNDDOWN a ≠ x → t.mem a = s.mem a

/-- **`kfree`** puts a page on the list. -/
theorem kfree_ends (hpage : IsPage s x) :
    Ends (kfree x) s (fun _ t => Kfreed s x t) fun _ _ => False := by
  obtain ⟨haligned, hstart, hstop⟩ := hpage
  unfold kfree
  rw [Ends.get_bind_iff, if_neg (by unfold PGSIZE at *; omega)]
  unfold memset store
  rw [Ends.modify_bind_iff, Ends.modify_bind_iff]
  refine ⟨rfl, rfl, fun a ha => ?_⟩
  rw [Ne, PGROUNDDOWN_eq haligned] at ha
  have houtside : a < x ∨ x + 8 ≤ a := by
    unfold PGSIZE at ha
    omega
  exact (Ram.store_outside houtside).trans (if_neg ha)

end Vm
