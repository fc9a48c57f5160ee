import OSN.Lib.Around
import OSN.Lib.Extents
import OSN.User.Umalloc

/-!
# The ring of free blocks

The headers of the free blocks and `base` are a ring, sorted by address.  No free block
touches the next one: `free` makes one block of them.
-/

namespace Umalloc

open Vm (PGROUNDUP)

variable {s t : Heap} {p q v n nx : Nat} {l l₁ l₂ : List Extent} {b x : Extent}

/-! ### Headers -/

namespace Heap

@[simp] theorem setPtr_base : (s.setPtr p v).base = s.base := rfl

@[simp] theorem setPtr_freep : (s.setPtr p v).freep = s.freep := rfl

@[simp] theorem setPtr_brk : (s.setPtr p v).brk = s.brk := rfl

@[simp] theorem setSize_base : (s.setSize p v).base = s.base := rfl

@[simp] theorem setSize_freep : (s.setSize p v).freep = s.freep := rfl

@[simp] theorem setSize_brk : (s.setSize p v).brk = s.brk := rfl

/-- Two headers are one, or apart. -/
def Aligned (p q : Nat) : Prop := p = q ∨ p + 16 ≤ q ∨ q + 16 ≤ p

theorem ptr_setPtr (hv : v < 2 ^ 64) : (s.setPtr p v).ptr p = v := by
  have hslice : Bytes.slice (s.setPtr p v).mem p (Bytes.leBytes 8 v).length = Bytes.leBytes 8 v :=
    Bytes.slice_splice
  rw [Bytes.leBytes_length] at hslice
  rw [ptr, hslice, Bytes.ofLe_leBytes, show (256 : Nat) ^ 8 = 2 ^ 64 by norm_num,
    Nat.mod_eq_of_lt hv]

theorem ptr_setPtr_apart (h : p + 16 ≤ q ∨ q + 16 ≤ p) : (s.setPtr p v).ptr q = s.ptr q := by
  unfold ptr setPtr
  rw [Bytes.slice_splice_apart]
  rw [Bytes.leBytes_length]
  omega

theorem size_setPtr (h : Aligned p q) : (s.setPtr p v).size q = s.size q := by
  unfold size setPtr
  rw [Bytes.slice_splice_apart]
  rw [Bytes.leBytes_length]
  unfold Aligned at h
  omega

theorem size_setSize (hv : v < 2 ^ 32) : (s.setSize p v).size p = v := by
  have hslice : Bytes.slice (s.setSize p v).mem (p + 8) (Bytes.leBytes 4 v).length =
      Bytes.leBytes 4 v := Bytes.slice_splice
  rw [Bytes.leBytes_length] at hslice
  rw [size, hslice, Bytes.ofLe_leBytes, show (256 : Nat) ^ 4 = 2 ^ 32 by norm_num,
    Nat.mod_eq_of_lt hv]

theorem size_setSize_apart (h : p + 16 ≤ q ∨ q + 16 ≤ p) : (s.setSize p v).size q = s.size q := by
  unfold size setSize
  rw [Bytes.slice_splice_apart]
  rw [Bytes.leBytes_length]
  omega

theorem ptr_setSize (h : Aligned p q) : (s.setSize p v).ptr q = s.ptr q := by
  unfold ptr setSize
  rw [Bytes.slice_splice_apart]
  rw [Bytes.leBytes_length]
  unfold Aligned at h
  omega

/-- Where a header is written. -/
theorem setPtr_outside {a : Nat} (h : a < p ∨ p + 16 ≤ a) : (s.setPtr p v).mem a = s.mem a := by
  refine Bytes.splice_outside ?_
  rw [Bytes.leBytes_length]
  omega

theorem setSize_outside {a : Nat} (h : a < p ∨ p + 16 ≤ a) : (s.setSize p v).mem a = s.mem a := by
  refine Bytes.splice_outside ?_
  rw [Bytes.leBytes_length]
  omega

/-- The header is in a page of the process. -/
def Mapped (s : Heap) (p : Nat) : Prop := p + 16 ≤ PGROUNDUP s.brk

end Heap

open Heap

variable {Q : Nat → Heap → Prop} {Q' : Unit → Heap → Prop} {E : String → Heap → Prop}
  {R : Nat → Heap → Prop} {R' : Unit → Heap → Prop}

section

variable {α : Type} {y : Nat → HeapM α} {y' : Unit → HeapM α} {P : α → Heap → Prop}

theorem access_ends {a : Nat} (h : a + n ≤ PGROUNDUP s.brk) :
    Ends (access a n >>= y') s P E ↔ Ends (y' ()) s P E := by
  unfold access
  rw [bind_assoc, Ends.get_bind_iff, if_neg (Nat.not_lt.mpr h), Ends.pure_bind_iff]

/-- An access beyond the last page. -/
theorem access_fails {a : Nat} (h : PGROUNDUP s.brk < a + n) :
    Ends (access a n >>= y') s P E ↔ E "page fault" s := by
  unfold access
  rw [bind_assoc, Ends.get_bind_iff, if_pos h]
  rfl

theorem loadPtr_bind (h : s.Mapped p) : Ends (loadPtr p >>= y) s P E ↔ Ends (y (s.ptr p)) s P E := by
  unfold Heap.Mapped at h
  unfold loadPtr
  rw [bind_assoc, access_ends (by omega), bind_assoc, Ends.get_bind_iff, Ends.pure_bind_iff]

theorem loadSize_bind (h : s.Mapped p) :
    Ends (loadSize p >>= y) s P E ↔ Ends (y (s.size p)) s P E := by
  unfold Heap.Mapped at h
  unfold loadSize
  rw [bind_assoc, access_ends (by omega), bind_assoc, Ends.get_bind_iff, Ends.pure_bind_iff]

theorem storePtr_bind (h : s.Mapped p) :
    Ends (storePtr p v >>= y') s P E ↔ Ends (y' ()) (s.setPtr p v) P E := by
  unfold Heap.Mapped at h
  unfold storePtr
  rw [bind_assoc, access_ends (by omega), Ends.modify_bind_iff]

theorem storeSize_bind (h : s.Mapped p) :
    Ends (storeSize p v >>= y') s P E ↔ Ends (y' ()) (s.setSize p v) P E := by
  unfold Heap.Mapped at h
  unfold storeSize
  rw [bind_assoc, access_ends (by omega), Ends.modify_bind_iff]

end

/-! ### The ring -/

/-- The nodes of the ring. -/
def nodes (base : Nat) (l : List Extent) : List Nat := base :: l.map Extent.addr

/-- **The blocks `l` are free**, and sorted. -/
structure Ring (s : Heap) (l : List Extent) : Prop where
  chain : (nodes s.base l ++ [s.base]).IsChain (s.ptr · = ·)
  baseSize : s.size s.base = 0
  sizes : ∀ x ∈ l, x.len = 16 * s.size x.addr
  sorted : l.Pairwise Extent.Before
  low : ∀ x ∈ l, s.base + 16 ≤ x.addr
  big : ∀ x ∈ l, 16 ≤ x.len
  high : ∀ x ∈ l, x.stop ≤ s.brk
  freep : s.freep ∈ nodes s.base l
  memory : s.brk ≤ MEMORY
  base_pos : 0 < s.base
  base_stop : s.base + 16 ≤ s.brk

theorem le_PGROUNDUP (h : n ≤ MEMORY) : n ≤ PGROUNDUP n := by
  have hsmall : n < 2 ^ 64 - 2 ^ 12 := Nat.lt_of_le_of_lt h (by decide)
  unfold PGROUNDUP Xv6.PGSIZE
  omega

namespace Ring

theorem around (h : Ring s l) : Around s.ptr (nodes s.base l) := .of_chain h.chain

theorem mapped (h : Ring s l) (hp : p ∈ nodes s.base l) : s.Mapped p := by
  have hround := le_PGROUNDUP h.memory
  unfold Heap.Mapped
  rcases List.mem_cons.mp hp with rfl | hp
  · exact h.base_stop.trans hround
  · obtain ⟨x, hx, rfl⟩ := List.mem_map.mp hp
    have hbig := h.big x hx
    have hhigh := h.high x hx
    unfold Extent.stop at hhigh
    omega

/-- The ring has no more nodes than there is room for. -/
theorem length_le (h : Ring s l) : 16 * (nodes s.base l).length ≤ s.brk := by
  have hpair : l.Pairwise Extent.Apart := h.sorted.imp fun hxy => hxy.apart
  have htotal := Extent.total_le (s.base + 16) s.brk hpair fun x hx =>
    ⟨h.low x hx, h.high x hx⟩
  have hlength := Extent.length_le h.big
  have hstop := h.base_stop
  unfold nodes
  rw [List.length_cons, List.length_map]
  omega

end Ring

/-! ### Where a block belongs -/

/-- The loop of `free` ends at `p`. -/
def Stops (s : Heap) (bp p : Nat) : Prop :=
  p < bp ∧ bp < s.ptr p ∨ s.ptr p ≤ p ∧ (p < bp ∨ bp < s.ptr p)

instance {bp : Nat} : DecidablePred (Stops s bp) := fun p => by
  unfold Stops
  infer_instance

variable {bp fuel k : Nat}

/-- The loop goes on until it has come to the end. -/
theorem Ring.freeLoop_steps (h : Ring s l) (hp : p ∈ nodes s.base l) (hfuel : k < fuel)
    (hstops : Stops s bp (s.ptr^[k] p)) (hgoes : ∀ j < k, ¬ Stops s bp (s.ptr^[j] p)) :
    Ends (freeLoop bp fuel p) s (fun r t => t = s ∧ r = s.ptr^[k] p) fun _ _ => False := by
  induction fuel generalizing p k with
  | zero => exact absurd hfuel (Nat.not_lt_zero k)
  | succ fuel ih =>
      unfold freeLoop
      rw [loadPtr_bind (h.mapped hp)]
      cases k with
      | zero =>
          rw [Function.iterate_zero, id] at hstops ⊢
          rcases hstops with hstops | hstops
          · rw [if_pos hstops]
            exact ⟨rfl, rfl⟩
          · rw [if_pos hstops]
            split <;> exact ⟨rfl, rfl⟩
      | succ k =>
          have hnot : ¬ Stops s bp p := hgoes 0 (Nat.zero_lt_succ k)
          unfold Stops at hnot
          rw [not_or] at hnot
          rw [if_neg hnot.1, if_neg hnot.2]
          exact ih (h.around.next_mem hp) (Nat.lt_of_succ_lt_succ hfuel) hstops fun j hj =>
            hgoes (j + 1) (Nat.succ_lt_succ hj)

/-- What follows a node. -/
theorem Ring.ptr_eq (h : Ring s l) (before after : List Nat) {w z : Nat}
    (hsplit : nodes s.base l ++ [s.base] = before ++ w :: z :: after) : s.ptr w = z := by
  have hchain := h.chain
  rw [hsplit, List.isChain_append_cons_cons] at hchain
  exact hchain.2.1

/-- The last node before `bp`. -/
def lastBefore (base : Nat) (l : List Extent) : Nat := (nodes base l).getLast (List.cons_ne_nil _ _)

theorem nodes_eq (base : Nat) (l : List Extent) :
    nodes base l = (nodes base l).dropLast ++ [lastBefore base l] :=
  (List.dropLast_append_getLast (List.cons_ne_nil _ _)).symm

theorem nodes_append (base : Nat) (l₁ l₂ : List Extent) :
    nodes base (l₁ ++ l₂) = nodes base l₁ ++ l₂.map Extent.addr := by
  unfold nodes
  rw [List.map_append, List.cons_append]

/-- **A place for a block in a sorted list.** -/
theorem exists_split (hsorted : l.Pairwise Extent.Before) (hb : ∀ x ∈ l, x.Apart b)
    (hbig : ∀ x ∈ l, 0 < x.len) :
    ∃ l₁ l₂, l = l₁ ++ l₂ ∧ (∀ x ∈ l₁, x.stop ≤ b.addr) ∧ ∀ x ∈ l₂, b.stop ≤ x.addr := by
  induction l with
  | nil => exact ⟨[], [], rfl, by simp, by simp⟩
  | cons y l ih =>
      rw [List.pairwise_cons] at hsorted
      obtain ⟨l₁, l₂, rfl, h₁, h₂⟩ := ih hsorted.2 (fun x hx => hb x (List.mem_cons_of_mem y hx))
        fun x hx => hbig x (List.mem_cons_of_mem y hx)
      rcases hb y List.mem_cons_self with hy | hy
      · exact ⟨y :: l₁, l₂, rfl, List.forall_mem_cons.mpr ⟨hy, h₁⟩, h₂⟩
      · refine ⟨[], y :: (l₁ ++ l₂), rfl, by simp, List.forall_mem_cons.mpr ⟨hy, fun x hx => ?_⟩⟩
        have hbefore := hsorted.1 x hx
        unfold Extent.Before Extent.stop at *
        omega

/-- Where the ring is cut to put a block in. -/
theorem split_nodes (base : Nat) (l₁ l₂ : List Extent) :
    ∃ z after, l₂.map Extent.addr ++ [base] = z :: after ∧
      nodes base (l₁ ++ l₂) ++ [base] =
        (nodes base l₁).dropLast ++ lastBefore base l₁ :: z :: after := by
  obtain ⟨z, after, hz⟩ : ∃ z after, l₂.map Extent.addr ++ [base] = z :: after :=
    List.exists_cons_of_ne_nil (by simp)
  refine ⟨z, after, hz, ?_⟩
  rw [nodes_append, List.append_assoc, hz]
  exact (congrArg (· ++ z :: after) (nodes_eq base l₁)).trans (List.append_assoc _ _ _)

/-- A block that `free` is given. -/
structure Freeable (s : Heap) (l : List Extent) (b : Extent) : Prop where
  size : b.len = 16 * s.size b.addr
  apart : ∀ x ∈ l, x.Apart b
  low : s.base + 16 ≤ b.addr
  big : 16 ≤ b.len
  high : b.stop ≤ s.brk

section Place

variable (h : Ring s (l₁ ++ l₂)) (hb : Freeable s (l₁ ++ l₂) b)
  (h₁ : ∀ x ∈ l₁, x.stop ≤ b.addr) (h₂ : ∀ x ∈ l₂, b.stop ≤ x.addr)

include hb h₁ in
theorem lt_of_mem_nodes {w : Nat} (hbig : ∀ x ∈ l₁ ++ l₂, 16 ≤ x.len)
    (hw : w ∈ nodes s.base l₁) : w < b.addr := by
  rcases List.mem_cons.mp hw with rfl | hw
  · exact Nat.lt_of_lt_of_le (Nat.lt_add_of_pos_right (by decide)) hb.low
  · obtain ⟨x, hx, rfl⟩ := List.mem_map.mp hw
    have hstop := h₁ x hx
    have hlen := hbig x (List.mem_append_left _ hx)
    unfold Extent.stop at hstop
    omega

include h in
/-- The nodes ascend. -/
theorem nodes_pairwise : (nodes s.base (l₁ ++ l₂)).Pairwise (· < ·) := by
  unfold nodes
  refine List.pairwise_cons.mpr ⟨fun a ha => ?_, ?_⟩
  · obtain ⟨x, hx, rfl⟩ := List.mem_map.mp ha
    exact Nat.lt_of_lt_of_le (Nat.lt_add_of_pos_right (by decide)) (h.low x hx)
  · refine List.pairwise_map.mpr (h.sorted.imp fun {x y} hxy => ?_)
    exact Nat.lt_of_le_of_lt (Nat.le_add_right x.addr x.len) hxy

include h hb h₁ h₂ in
/-- **The loop of `free` ends before the place of the block**, and nowhere else. -/
theorem stops_iff {w : Nat} (hw : w ∈ nodes s.base (l₁ ++ l₂)) :
    Stops s b.addr w ↔ w = lastBefore s.base l₁ := by
  have hbig := h.big
  have hbase : s.base < b.addr := Nat.lt_of_lt_of_le (Nat.lt_add_of_pos_right (by decide)) hb.low
  have hupper : ∀ y ∈ l₂.map Extent.addr, b.addr < y := by
    intro y hy
    obtain ⟨x, hx, rfl⟩ := List.mem_map.mp hy
    have hstop := h₂ x hx
    have hlen := hb.big
    unfold Extent.stop at hstop
    omega
  have hlower : ∀ y ∈ nodes s.base l₁, y < b.addr := fun y hy => lt_of_mem_nodes hb h₁ hbig hy
  have hlast : lastBefore s.base l₁ ∈ nodes s.base l₁ := List.getLast_mem _
  obtain ⟨z, after, hz, hsplit⟩ := split_nodes s.base l₁ l₂
  constructor
  · intro hstops
    by_contra hne
    rw [nodes_append, List.mem_append] at hw
    rcases hw with hw | hw
    · -- the next node is before the block, too
      rw [nodes_eq, List.mem_append, List.mem_singleton] at hw
      obtain ⟨front, back, hfront⟩ := List.append_of_mem (hw.resolve_right hne)
      obtain ⟨y, rest, hy⟩ : ∃ y rest, back ++ [lastBefore s.base l₁] = y :: rest :=
        List.exists_cons_of_ne_nil (by simp)
      have hnodes : nodes s.base l₁ = front ++ w :: y :: rest := by
        rw [nodes_eq, hfront, List.append_assoc, List.cons_append, hy]
      have hnext : s.ptr w = y := h.ptr_eq front (rest ++ z :: after) (by
        rw [nodes_append, List.append_assoc, hz, hnodes, List.append_assoc]
        rfl)
      have hyw : w < y := by
        have hpair := nodes_pairwise h
        rw [nodes_append, hnodes, List.pairwise_append] at hpair
        have hpair' := (List.pairwise_append.mp hpair.1).2.1
        exact (List.pairwise_cons.mp hpair').1 y List.mem_cons_self
      have hy' := hlower y (hnodes ▸ by simp)
      have hw' := hlower w (hnodes ▸ by simp)
      unfold Stops at hstops
      omega
    · -- the next node is behind the block, or `base`
      obtain ⟨front, back, hfront⟩ := List.append_of_mem hw
      obtain ⟨y, rest, hy⟩ : ∃ y rest, back ++ [s.base] = y :: rest :=
        List.exists_cons_of_ne_nil (by simp)
      have hnext : s.ptr w = y := h.ptr_eq (nodes s.base l₁ ++ front) rest (by
        rw [nodes_append, hfront, List.append_assoc, List.append_assoc, List.cons_append, hy,
          List.append_assoc])
      have hw' := hupper w hw
      have hy' : y = s.base ∨ w < y := by
        have hmem : y ∈ back ++ [s.base] := hy ▸ List.mem_cons_self
        rw [List.mem_append, List.mem_singleton] at hmem
        refine hmem.symm.imp id fun hin => ?_
        have hpair := nodes_pairwise h
        rw [nodes_append, hfront, List.pairwise_append, List.pairwise_append] at hpair
        exact (List.pairwise_cons.mp hpair.2.1.2.1).1 y hin
      unfold Stops at hstops
      omega
  · rintro rfl
    have hnext : s.ptr (lastBefore s.base l₁) = z := h.ptr_eq _ _ hsplit
    have hp := hlower _ hlast
    have hz' : z = s.base ∨ b.addr < z := by
      have hmem : z ∈ l₂.map Extent.addr ++ [s.base] := hz ▸ List.mem_cons_self
      rw [List.mem_append, List.mem_singleton] at hmem
      exact hmem.symm.imp id fun hin => hupper z hin
    have hle : s.base ≤ lastBefore s.base l₁ := by
      rcases List.mem_cons.mp hlast with heq | hin
      · exact Nat.le_of_eq heq.symm
      · obtain ⟨x, hx, heq⟩ := List.mem_map.mp hin
        have hlow := h.low x (List.mem_append_left _ hx)
        omega
    unfold Stops
    rw [hnext]
    omega

include h hb h₁ h₂ in
/-- **The loop of `free`** finds the place of the block. -/
theorem freeLoop_finds (hfuel : s.brk ≤ 16 * fuel) :
    Ends (freeLoop b.addr fuel s.freep) s
      (fun r t => t = s ∧ r = lastBefore s.base l₁) fun _ _ => False := by
  have hlast : lastBefore s.base l₁ ∈ nodes s.base (l₁ ++ l₂) := by
    rw [nodes_append]
    exact List.mem_append_left _ (List.getLast_mem _)
  obtain ⟨k, hk, hstops, hgoes⟩ := h.around.exists_first h.freep (p := Stops s b.addr)
    ⟨_, hlast, (stops_iff h hb h₁ h₂ hlast).mpr rfl⟩
  have hlength := h.length_le
  refine (h.freeLoop_steps h.freep (by omega) hstops hgoes).post ?_
  rintro r t ⟨rfl, rfl⟩
  exact ⟨rfl, (stops_iff h hb h₁ h₂ (h.around.iterate_mem h.freep k)).mp hstops⟩

end Place

end Umalloc
