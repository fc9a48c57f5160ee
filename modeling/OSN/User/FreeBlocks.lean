import OSN.User.FreeRing

/-!
# `free`

`free` links a block into the ring, and makes one block of it and the neighbours that it
touches.
-/

namespace Umalloc

open Vm (PGROUNDUP)
open Heap

variable {s t : Heap} {p q v n nx : Nat} {l l₁ l₂ : List Extent} {b x : Extent}

/-- **A block hangs in the ring**: it points to what follows, and nothing points to it yet. -/
structure Cut (s : Heap) (l₁ : List Extent) (b : Extent) (l₂ : List Extent) : Prop where
  left : (nodes s.base l₁).IsChain (s.ptr · = ·)
  right : (b.addr :: (l₂.map Extent.addr ++ [s.base])).IsChain (s.ptr · = ·)
  baseSize : s.size s.base = 0
  sizes : ∀ x ∈ l₁ ++ b :: l₂, x.len = 16 * s.size x.addr
  sorted₁ : l₁.Pairwise Extent.Before
  sorted₂ : (b :: l₂).Pairwise Extent.Before
  before : ∀ x ∈ l₁, x.stop ≤ b.addr
  low : ∀ x ∈ l₁ ++ b :: l₂, s.base + 16 ≤ x.addr
  big : ∀ x ∈ l₁ ++ b :: l₂, 16 ≤ x.len
  high : ∀ x ∈ l₁ ++ b :: l₂, x.stop ≤ s.brk
  memory : s.brk ≤ MEMORY
  base_pos : 0 < s.base
  base_stop : s.base + 16 ≤ s.brk

/-- Only headers of these blocks have been written. -/
structure Writes (s t : Heap) (l : List Extent) : Prop where
  mem : ∀ a, a < s.base ∨ s.base + 16 ≤ a → (∀ x ∈ l, ¬ x.Holds a) → t.mem a = s.mem a
  base : t.base = s.base
  brk : t.brk = s.brk
  granted : t.granted = s.granted

theorem Writes.refl : Writes s s l := ⟨fun _ _ _ => rfl, rfl, rfl, rfl⟩

theorem Writes.trans {u : Heap} (h : Writes s t l) (h' : Writes t u l) : Writes s u l :=
  ⟨fun a ha hl => (h'.mem a (h.base ▸ ha) hl).trans (h.mem a ha hl), h'.base.trans h.base,
    h'.brk.trans h.brk, h'.granted.trans h.granted⟩

theorem Writes.mono (h : Writes s t l₁) (hl : ∀ a, (∃ x ∈ l₁, x.Holds a) → ∃ x ∈ l₂, x.Holds a) :
    Writes s t l₂ :=
  ⟨fun a ha hout => h.mem a ha fun x hx hin => by
    obtain ⟨y, hy, hin'⟩ := hl a ⟨x, hx, hin⟩
    exact hout y hy hin', h.base, h.brk, h.granted⟩

/-- The address is not in a header. -/
theorem header_holds (hbig : 16 ≤ x.len) {a : Nat} (ha : ¬ x.Holds a) :
    a < x.addr ∨ x.addr + 16 ≤ a := by
  unfold Extent.Holds Extent.stop at ha
  omega

theorem Writes.setPtr (hp : p = s.base ∨ ∃ x ∈ l, 16 ≤ x.len ∧ x.addr = p) :
    Writes s (s.setPtr p v) l := by
  refine ⟨fun a ha hl => setPtr_outside ?_, rfl, rfl, rfl⟩
  rcases hp with rfl | ⟨x, hx, hbig, rfl⟩
  · exact ha
  · exact header_holds hbig (hl x hx)

theorem Writes.setSize (hp : p = s.base ∨ ∃ x ∈ l, 16 ≤ x.len ∧ x.addr = p) :
    Writes s (s.setSize p v) l := by
  refine ⟨fun a ha hl => setSize_outside ?_, rfl, rfl, rfl⟩
  rcases hp with rfl | ⟨x, hx, hbig, rfl⟩
  · exact ha
  · exact header_holds hbig (hl x hx)

/-! ### Chains of pointers -/

/-- The pointers along a chain stay. -/
theorem chain_congr {f g : Nat → Nat} {c : List Nat} {z : Nat}
    (h : (c ++ [z]).IsChain (f · = ·)) (hsame : ∀ a ∈ c, g a = f a) :
    (c ++ [z]).IsChain (g · = ·) := by
  induction c with
  | nil => exact .singleton _
  | cons a c ih =>
      obtain ⟨y, rest, hy⟩ : ∃ y rest, c ++ [z] = y :: rest :=
        List.exists_cons_of_ne_nil (by simp)
      rw [List.cons_append, hy, List.isChain_cons_cons] at h ⊢
      refine ⟨(hsame a List.mem_cons_self).trans h.1, ?_⟩
      rw [← hy] at h ⊢
      exact ih h.2 fun a' ha' => hsame a' (List.mem_cons_of_mem a ha')

/-- **Two chains** become one when the last node of the first points to the second. -/
theorem chain_link {f g : Nat → Nat} {front back : List Nat} {z : Nat}
    (hleft : (front ++ [p]).IsChain (f · = ·)) (hright : (back ++ [z]).IsChain (f · = ·))
    (hfront : ∀ a ∈ front, g a = f a) (hback : ∀ a ∈ back, g a = f a)
    (hp : (back ++ [z]).head? = some (g p)) : (front ++ p :: (back ++ [z])).IsChain (g · = ·) := by
  have hleft' := chain_congr hleft hfront
  have hright' := chain_congr hright hback
  obtain ⟨y, rest, hy⟩ : ∃ y rest, back ++ [z] = y :: rest :=
    List.exists_cons_of_ne_nil (by simp)
  rw [hy] at hp hright' ⊢
  exact List.isChain_append_cons_cons.mpr ⟨hleft', (Option.some.inj hp).symm, hright'⟩

/-- Headers one behind the other. -/
theorem aligned_of_spaced {c : List Nat} (hc : c.Pairwise (· + 16 ≤ ·)) (hp : p ∈ c)
    (hq : q ∈ c) : Aligned p q := by
  have hsymm : Std.Symm Aligned := ⟨fun a a' haa' => by
    unfold Aligned at *
    omega⟩
  exact List.Pairwise.forall_of_forall (R := Aligned) (fun a _ => Or.inl rfl)
    (hc.imp fun {a a'} haa' => Or.inr (Or.inl haa')) hp hq

theorem Heap.Aligned.apart (h : Aligned p q) (hne : q ≠ p) : p + 16 ≤ q ∨ q + 16 ≤ p :=
  h.resolve_left (Ne.symm hne)

/-! ### The block is linked -/

namespace Cut

variable (h : Cut s l₁ b l₂)

include h

theorem mapped (hx : x ∈ l₁ ++ b :: l₂) : s.Mapped x.addr := by
  have hround := le_PGROUNDUP h.memory
  have hbig := h.big x hx
  have hhigh := h.high x hx
  unfold Heap.Mapped
  unfold Extent.stop at hhigh
  omega

theorem mapped_base : s.Mapped s.base := h.base_stop.trans (le_PGROUNDUP h.memory)

theorem addr_lt (hx : x ∈ l₁ ++ b :: l₂) : x.addr < 2 ^ 64 := by
  have hhigh := h.high x hx
  exact Nat.lt_of_le_of_lt ((Nat.le_add_right _ _).trans (hhigh.trans h.memory)) (by decide)

/-- The headers lie one behind the other. -/
theorem spaced : (nodes s.base (l₁ ++ b :: l₂)).Pairwise (· + 16 ≤ ·) := by
  unfold nodes
  refine List.pairwise_cons.mpr ⟨fun a ha => ?_, List.pairwise_map.mpr ?_⟩
  · obtain ⟨x, hx, rfl⟩ := List.mem_map.mp ha
    exact h.low x hx
  · have hstep : ∀ {x y : Extent}, x ∈ l₁ ++ b :: l₂ → x.stop ≤ y.addr → x.addr + 16 ≤ y.addr := by
      intro x y hx hxy
      have hbig := h.big x hx
      unfold Extent.stop at hxy
      omega
    refine List.pairwise_append.mpr ⟨?_, ?_, fun x hx y hy => ?_⟩
    · exact h.sorted₁.imp_of_mem fun hx _ hxy =>
        hstep (List.mem_append_left _ hx) (Nat.le_of_lt hxy)
    · exact h.sorted₂.imp_of_mem fun hx _ hxy =>
        hstep (List.mem_append_right _ hx) (Nat.le_of_lt hxy)
    · refine hstep (List.mem_append_left _ hx) ?_
      rcases List.mem_cons.mp hy with rfl | hy
      · exact h.before x hx
      · have hb := (List.pairwise_cons.mp h.sorted₂).1 y hy
        have hxb := h.before x hx
        unfold Extent.Before Extent.stop at *
        omega

theorem aligned (hp : p ∈ nodes s.base (l₁ ++ b :: l₂)) (hq : q ∈ nodes s.base (l₁ ++ b :: l₂)) :
    Aligned p q := aligned_of_spaced h.spaced hp hq

/-- All of them, sorted. -/
theorem sorted (hgap : ∀ x ∈ l₁, x.stop ≠ b.addr) : (l₁ ++ b :: l₂).Pairwise Extent.Before := by
  refine List.pairwise_append.mpr ⟨h.sorted₁, h.sorted₂, fun x hx y hy => ?_⟩
  have hlt : x.stop < b.addr := Nat.lt_of_le_of_ne (h.before x hx) (hgap x hx)
  rcases List.mem_cons.mp hy with rfl | hy
  · exact hlt
  · have hb := (List.pairwise_cons.mp h.sorted₂).1 y hy
    unfold Extent.Before Extent.stop at *
    omega

/-- The nodes before the block, but for the last one, are others. -/
theorem front_ne (hp : p ∈ (nodes s.base l₁).dropLast) : p ≠ lastBefore s.base l₁ := by
  have hspaced := h.spaced
  rw [nodes_append, nodes_eq, List.pairwise_append, List.pairwise_append] at hspaced
  have hlt := hspaced.1.2.2 p hp _ List.mem_cons_self
  omega

/-- The nodes behind are others. -/
theorem back_ne (hp : p ∈ (b :: l₂).map Extent.addr) : p ≠ lastBefore s.base l₁ := by
  have hspaced := h.spaced
  rw [nodes_append, List.pairwise_append] at hspaced
  have hlt := hspaced.2.2 (lastBefore s.base l₁) (List.getLast_mem _) p hp
  omega

omit h in
theorem last_mem : lastBefore s.base l₁ ∈ nodes s.base (l₁ ++ b :: l₂) := by
  rw [nodes_append]
  exact List.mem_append_left _ (List.getLast_mem _)

omit h in
theorem addr_mem (hx : x ∈ l₁ ++ b :: l₂) : x.addr ∈ nodes s.base (l₁ ++ b :: l₂) :=
  List.mem_cons_of_mem _ (List.mem_map_of_mem hx)

/-- **The node before the block comes to point to it.** -/
theorem link (hgap : ∀ x ∈ l₁, x.stop ≠ b.addr) :
    Ring { s.setPtr (lastBefore s.base l₁) b.addr with freep := lastBefore s.base l₁ }
      (l₁ ++ b :: l₂) := by
  have hapart : ∀ a ∈ nodes s.base (l₁ ++ b :: l₂), a ≠ lastBefore s.base l₁ →
      (s.setPtr (lastBefore s.base l₁) b.addr).ptr a = s.ptr a := fun a ha hne =>
    ptr_setPtr_apart ((h.aligned last_mem ha).apart hne)
  have hsize : ∀ a ∈ nodes s.base (l₁ ++ b :: l₂),
      (s.setPtr (lastBefore s.base l₁) b.addr).size a = s.size a := fun a ha =>
    size_setPtr (h.aligned last_mem ha)
  refine ⟨?_, (hsize _ List.mem_cons_self).trans h.baseSize, fun x hx => ?_, h.sorted hgap, h.low,
    h.big, h.high, last_mem, h.memory, h.base_pos, h.base_stop⟩
  · change (nodes s.base (l₁ ++ b :: l₂) ++ [s.base]).IsChain _
    have hleft := h.left
    rw [nodes_eq] at hleft
    have hall : nodes s.base (l₁ ++ b :: l₂) ++ [s.base] = (nodes s.base l₁).dropLast ++
        lastBefore s.base l₁ :: ((b :: l₂).map Extent.addr ++ [s.base]) := by
      rw [nodes_append, List.append_assoc]
      exact (congrArg (· ++ _) (nodes_eq s.base l₁)).trans (List.append_assoc _ _ _)
    rw [hall]
    refine chain_link hleft h.right (fun a ha => hapart a ?_ (h.front_ne ha))
      (fun a ha => hapart a ?_ (h.back_ne ha)) ?_
    · rw [nodes_append]
      exact List.mem_append_left _ (List.dropLast_subset _ ha)
    · rw [nodes_append]
      exact List.mem_append_right _ ha
    · exact congrArg some (ptr_setPtr (h.addr_lt (by simp))).symm
  · exact (h.sizes x hx).trans (congrArg (16 * ·) (hsize _ (addr_mem hx)).symm)

end Cut

/-- **The block and the one before it become one.** -/
theorem Cut.join (h : Cut s (l₁ ++ [x]) b l₂) (htouch : x.stop = b.addr) :
    Ring { (s.setSize x.addr (s.size x.addr + s.size b.addr)).setPtr x.addr (s.ptr b.addr) with
      freep := x.addr } (l₁ ++ ⟨x.addr, x.len + b.len⟩ :: l₂) := by
  have hlast : lastBefore s.base (l₁ ++ [x]) = x.addr := by
    unfold lastBefore
    simp only [nodes_append, List.map_cons, List.map_nil, List.getLast_append_singleton]
  have hx : x ∈ l₁ ++ [x] ++ b :: l₂ := by simp
  have hb : b ∈ l₁ ++ [x] ++ b :: l₂ := by simp
  have hxin := Cut.addr_mem (s := s) hx
  obtain ⟨u, hu⟩ : ∃ u, (s.setSize x.addr (s.size x.addr + s.size b.addr)).setPtr x.addr
    (s.ptr b.addr) = u := ⟨_, rfl⟩
  have hptr : ∀ a ∈ nodes s.base (l₁ ++ [x] ++ b :: l₂), a ≠ x.addr → u.ptr a = s.ptr a := by
    intro a ha hne
    have halign := h.aligned hxin ha
    rw [← hu, ptr_setPtr_apart (halign.apart hne), ptr_setSize halign]
  have hsize : ∀ a ∈ nodes s.base (l₁ ++ [x] ++ b :: l₂), a ≠ x.addr → u.size a = s.size a := by
    intro a ha hne
    have halign := h.aligned hxin ha
    rw [← hu, size_setPtr halign, size_setSize_apart (halign.apart hne)]
  have hsizes := h.sizes
  have hnodes : nodes s.base (l₁ ++ [x] ++ b :: l₂) =
      nodes s.base l₁ ++ x.addr :: (b :: l₂).map Extent.addr := by
    rw [nodes_append, nodes_append, List.append_assoc]
    rfl
  have hfront : ∀ a ∈ nodes s.base l₁, a ∈ nodes s.base (l₁ ++ [x] ++ b :: l₂) ∧ a ≠ x.addr := by
    intro a ha
    refine ⟨hnodes ▸ List.mem_append_left _ ha, ?_⟩
    have hspaced := h.spaced
    rw [hnodes, List.pairwise_append] at hspaced
    have hlt := hspaced.2.2 a ha x.addr List.mem_cons_self
    omega
  have hback : ∀ a ∈ l₂.map Extent.addr,
      a ∈ nodes s.base (l₁ ++ [x] ++ b :: l₂) ∧ a ≠ x.addr := by
    intro a ha
    refine ⟨hnodes ▸ List.mem_append_right _ (List.mem_cons_of_mem _ (List.mem_cons_of_mem _ ha)), ?_⟩
    exact hlast ▸ h.back_ne (List.mem_cons_of_mem _ ha)
  have hbase := hfront s.base List.mem_cons_self
  -- what follows the block
  have hright := h.right
  obtain ⟨z, rest, hz⟩ : ∃ z rest, l₂.map Extent.addr ++ [s.base] = z :: rest :=
    List.exists_cons_of_ne_nil (by simp)
  rw [hz, List.isChain_cons_cons] at hright
  have hzlt : s.ptr b.addr < 2 ^ 64 := by
    rw [hright.1]
    have hzin : z ∈ l₂.map Extent.addr ++ [s.base] := hz ▸ List.mem_cons_self
    rcases List.mem_append.mp hzin with hzin | hzin
    · obtain ⟨y, hy, rfl⟩ := List.mem_map.mp hzin
      exact h.addr_lt (by simp [hy])
    · rw [List.mem_singleton.mp hzin]
      exact Nat.lt_of_lt_of_le (Nat.lt_of_lt_of_le (Nat.lt_add_of_pos_right (by decide))
        (h.base_stop.trans h.memory)) (by decide)
  have hnext : u.ptr x.addr = z := by
    rw [← hu, ptr_setPtr hzlt, hright.1]
  have hbound : x.len + b.len ≤ MEMORY := by
    have hhigh := h.high b hb
    have hmem := h.memory
    unfold Extent.stop at hhigh htouch
    omega
  have hnew : u.size x.addr = s.size x.addr + s.size b.addr := by
    rw [← hu, size_setPtr (Or.inl rfl), size_setSize]
    have hxlen := hsizes x hx
    have hblen := hsizes b hb
    unfold MEMORY at hbound
    omega
  have hbase' : u.base = s.base := hu ▸ rfl
  have hbrk : u.brk = s.brk := hu ▸ rfl
  rw [hu]
  have hin : ∀ y ∈ l₁ ++ ⟨x.addr, x.len + b.len⟩ :: l₂,
      y ∈ l₁ ++ [x] ++ b :: l₂ ∧ y.addr ≠ x.addr ∨ y = ⟨x.addr, x.len + b.len⟩ := by
    intro y hy
    rcases List.mem_append.mp hy with hy | hy
    · exact Or.inl ⟨by simp [hy], (hfront _ (List.mem_cons_of_mem _ (List.mem_map_of_mem hy))).2⟩
    · rcases List.mem_cons.mp hy with rfl | hy
      · exact Or.inr rfl
      · exact Or.inl ⟨by simp [hy], (hback _ (List.mem_map_of_mem hy)).2⟩
  refine ⟨?_, ?_, fun y hy => ?_, ?_, fun y hy => ?_, fun y hy => ?_, fun y hy => ?_, ?_, ?_, ?_, ?_⟩
  · change (nodes u.base _ ++ [u.base]).IsChain (u.ptr · = ·)
    have hall : nodes u.base (l₁ ++ ⟨x.addr, x.len + b.len⟩ :: l₂) ++ [u.base] =
        nodes s.base l₁ ++ x.addr :: (l₂.map Extent.addr ++ [s.base]) := by
      rw [hbase', nodes_append, List.append_assoc]
      rfl
    have hleft := h.left
    rw [nodes_append] at hleft
    rw [hall]
    refine chain_link hleft (hz ▸ hright.2) (fun a ha => hptr a (hfront a ha).1 (hfront a ha).2)
      (fun a ha => hptr a (hback a ha).1 (hback a ha).2) ?_
    rw [hz, hnext]
    rfl
  · change u.size u.base = 0
    rw [hbase', hsize _ hbase.1 hbase.2, h.baseSize]
  · rcases hin y hy with ⟨hy', hne⟩ | rfl
    · exact (hsizes y hy').trans (congrArg (16 * ·) (hsize _ (addr_mem hy') hne).symm)
    · change x.len + b.len = 16 * u.size x.addr
      rw [hnew, hsizes x hx, hsizes b hb]
      omega
  · have hsorted₁ := List.pairwise_append.mp h.sorted₁
    have hsorted₂ := List.pairwise_cons.mp h.sorted₂
    refine List.pairwise_append.mpr ⟨hsorted₁.1, List.pairwise_cons.mpr ⟨fun y hy => ?_,
      hsorted₂.2⟩, fun y hy y' hy' => ?_⟩
    · have hby := hsorted₂.1 y hy
      unfold Extent.Before Extent.stop at *
      dsimp only
      omega
    · have hyx := hsorted₁.2.2 y hy x List.mem_cons_self
      rcases List.mem_cons.mp hy' with rfl | hy'
      · exact hyx
      · have hby := hsorted₂.1 y' hy'
        unfold Extent.Before Extent.stop at *
        omega
  · rw [show (_ : Heap).base = s.base from hbase']
    rcases hin y hy with ⟨hy', -⟩ | rfl
    · exact h.low y hy'
    · exact h.low x hx
  · rcases hin y hy with ⟨hy', -⟩ | rfl
    · exact h.big y hy'
    · exact Nat.le_trans (h.big x hx) (Nat.le_add_right _ _)
  · rw [show (_ : Heap).brk = s.brk from hbrk]
    rcases hin y hy with ⟨hy', -⟩ | rfl
    · exact h.high y hy'
    · have hhigh := h.high b hb
      unfold Extent.stop at *
      dsimp only
      omega
  · change x.addr ∈ nodes u.base _
    rw [nodes_append]
    exact List.mem_append_right _ List.mem_cons_self
  · exact (show u.brk = s.brk from hbrk) ▸ h.memory
  · exact (show u.base = s.base from hbase') ▸ h.base_pos
  · change u.base + 16 ≤ u.brk
    rw [hbase', hbrk]
    exact h.base_stop

/-! ### The block is hung into the ring -/

namespace Ring

variable (h : Ring s (l₁ ++ l₂))

include h

theorem left : (nodes s.base l₁).IsChain (s.ptr · = ·) := by
  have hchain := h.chain
  rw [nodes_append, List.append_assoc] at hchain
  exact hchain.left_of_append

theorem right : (l₂.map Extent.addr ++ [s.base]).IsChain (s.ptr · = ·) := by
  have hchain := h.chain
  rw [nodes_append, List.append_assoc] at hchain
  exact hchain.right_of_append

/-- What the node before the block points to. -/
theorem head_eq :
    (l₂.map Extent.addr ++ [s.base]).head? = some (s.ptr (lastBefore s.base l₁)) := by
  obtain ⟨z, after, hz, hsplit⟩ := split_nodes s.base l₁ l₂
  rw [hz, h.ptr_eq _ _ hsplit]
  rfl

omit h in
theorem node_lt (h : Ring s l) {a : Nat} (ha : a ∈ nodes s.base l) : a < 2 ^ 64 := by
  have hround := h.mapped ha
  have hmem := h.memory
  unfold Heap.Mapped PGROUNDUP Xv6.PGSIZE at hround
  omega

/-- The header of the block is apart from those of the ring. -/
theorem apart_of_freeable (hb : Freeable s (l₁ ++ l₂) b) {a : Nat}
    (ha : a ∈ nodes s.base (l₁ ++ l₂)) : b.addr + 16 ≤ a ∨ a + 16 ≤ b.addr := by
  rcases List.mem_cons.mp ha with rfl | ha
  · exact Or.inr hb.low
  · obtain ⟨x, hx, rfl⟩ := List.mem_map.mp ha
    have hapart := hb.apart x hx
    have hbig := h.big x hx
    have hbig' := hb.big
    unfold Extent.Apart Extent.stop at hapart
    omega

/-- **The block gets a header**, as one of its own. -/
theorem cut (len : Nat) {l₂' : List Extent} (hb : Freeable s (l₁ ++ l₂) b)
    (h₁ : ∀ x ∈ l₁, x.stop ≤ b.addr) (hsub : l₂' <:+ l₂)
    (hbefore : ∀ x ∈ l₂', Extent.Before ⟨b.addr, len⟩ x) (hlen : b.len ≤ len)
    (hstop : b.addr + len ≤ s.brk) (hbase : t.base = s.base) (hbrk : t.brk = s.brk)
    (hptr : ∀ a ∈ nodes s.base (l₁ ++ l₂), t.ptr a = s.ptr a)
    (hsizes : ∀ a ∈ nodes s.base (l₁ ++ l₂), t.size a = s.size a)
    (hnext : (l₂'.map Extent.addr ++ [s.base]).head? = some (t.ptr b.addr))
    (hsize : len = 16 * t.size b.addr) : Cut t l₁ ⟨b.addr, len⟩ l₂' := by
  have hsame : ∀ a ∈ nodes s.base l₁, t.ptr a = s.ptr a := fun a ha => hptr a (by
    rw [nodes_append]
    exact List.mem_append_left _ ha)
  obtain ⟨mid, rfl⟩ := hsub
  have hin₁ : ∀ x ∈ l₁, x ∈ l₁ ++ (mid ++ l₂') := fun x hx => List.mem_append_left _ hx
  have hin₂ : ∀ x ∈ l₂', x ∈ l₁ ++ (mid ++ l₂') := fun x hx =>
    List.mem_append_right _ (List.mem_append_right _ hx)
  have hsorted := List.pairwise_append.mp h.sorted
  have hall : ∀ x ∈ l₁ ++ ⟨b.addr, len⟩ :: l₂', x ∈ l₁ ++ (mid ++ l₂') ∨ x = ⟨b.addr, len⟩ := by
    intro x hx
    rcases List.mem_append.mp hx with hx | hx
    · exact Or.inl (hin₁ x hx)
    · exact (List.mem_cons.mp hx).symm.imp (hin₂ x) id
  refine ⟨?_, ?_, ?_, fun x hx => ?_, hsorted.1, List.pairwise_cons.mpr ⟨hbefore, ?_⟩, h₁,
    fun x hx => ?_, fun x hx => ?_, fun x hx => ?_, hbrk ▸ h.memory, hbase ▸ h.base_pos, ?_⟩
  · have hleft := h.left
    rw [hbase]
    rw [nodes_eq] at hleft ⊢
    exact chain_congr hleft fun a ha => hsame a (List.dropLast_subset _ ha)
  · have hright := h.right
    rw [List.map_append, List.append_assoc] at hright
    have hright' := chain_congr (f := s.ptr) (g := t.ptr) hright.right_of_append fun a ha =>
      hptr a (by
        rw [nodes_append, List.map_append]
        exact List.mem_append_right _ (List.mem_append_right _ ha))
    rw [hbase]
    obtain ⟨z, rest, hz⟩ : ∃ z rest, l₂'.map Extent.addr ++ [s.base] = z :: rest :=
      List.exists_cons_of_ne_nil (by simp)
    rw [hz] at hright' hnext ⊢
    exact List.isChain_cons_cons.mpr ⟨(Option.some.inj hnext).symm, hright'⟩
  · rw [hbase, hsizes _ List.mem_cons_self, h.baseSize]
  · rcases hall x hx with hx' | rfl
    · exact (h.sizes x hx').trans (congrArg (16 * ·)
        (hsizes _ (List.mem_cons_of_mem _ (List.mem_map_of_mem hx'))).symm)
    · exact hsize
  · exact (List.pairwise_append.mp hsorted.2.1).2.1
  · rw [hbase]
    rcases hall x hx with hx' | rfl
    · exact h.low x hx'
    · exact hb.low
  · rcases hall x hx with hx' | rfl
    · exact h.big x hx'
    · exact hb.big.trans hlen
  · rw [hbrk]
    rcases hall x hx with hx' | rfl
    · exact h.high x hx'
    · exact hstop
  · rw [hbase, hbrk]
    exact h.base_stop

end Ring

/-! ### `free` -/

/-- **What `free` does**: the ring has the block, and only headers have been written. -/
structure Frees (s t : Heap) (l : List Extent) (b : Extent) (l' : List Extent) : Prop where
  ring : Ring t l'
  joins : Extent.Joins (b :: l) l'
  writes : Writes s t (b :: l)

theorem lastBefore_nil (base : Nat) : lastBefore base [] = base := rfl

/-- What stands last before the block. -/
theorem lastBefore_concat (base : Nat) : lastBefore base (l₁ ++ [x]) = x.addr := by
  unfold lastBefore
  simp only [nodes_append, List.map_cons, List.map_nil, List.getLast_append_singleton]

/-- The part of `free` that links the block with what is before it. -/
theorem Cut.finish (h : Cut s l₁ b l₂) :
    Ends (do
      let m ← loadSize (lastBefore s.base l₁)
      if lastBefore s.base l₁ + HEADERSIZE * m = b.addr then
        storeSize (lastBefore s.base l₁) (m + (← loadSize b.addr))
        storePtr (lastBefore s.base l₁) (← loadPtr b.addr)
      else storePtr (lastBefore s.base l₁) b.addr
      setFreep (lastBefore s.base l₁)) s
      (fun _ t => ∃ l', Ring t l' ∧ Extent.Joins (l₁ ++ b :: l₂) l' ∧ Writes s t (l₁ ++ b :: l₂))
      fun _ _ => False := by
  have hb := h.mapped (x := b) (by simp)
  have hplain : (∀ y ∈ l₁, y.stop ≠ b.addr) → ∃ l', Ring { s.setPtr (lastBefore s.base l₁) b.addr with
      freep := lastBefore s.base l₁ } l' ∧ Extent.Joins (l₁ ++ b :: l₂) l' ∧
      Writes s { s.setPtr (lastBefore s.base l₁) b.addr with freep := lastBefore s.base l₁ }
        (l₁ ++ b :: l₂) := by
    intro hgap
    refine ⟨_, h.link hgap, .of_perm (.refl _), ?_⟩
    have hwrites : Writes s (s.setPtr (lastBefore s.base l₁) b.addr) (l₁ ++ b :: l₂) := by
      refine Writes.setPtr ?_
      rcases List.mem_cons.mp (List.getLast_mem (List.cons_ne_nil s.base (l₁.map Extent.addr)))
        with hlast | hlast
      · exact Or.inl hlast
      · obtain ⟨y, hy, heq⟩ := List.mem_map.mp hlast
        exact Or.inr ⟨y, by simp [hy], h.big y (by simp [hy]), heq⟩
    exact ⟨hwrites.mem, hwrites.base, hwrites.brk, hwrites.granted⟩
  rcases List.eq_nil_or_concat l₁ with rfl | ⟨l₁, x, rfl⟩
  · have hlow := h.low b (by simp)
    rw [lastBefore_nil] at hplain ⊢
    rw [loadSize_bind h.mapped_base, h.baseSize]
    dsimp only
    rw [if_neg (show ¬ s.base + HEADERSIZE * 0 = b.addr by omega), storePtr_bind h.mapped_base]
    exact hplain (by simp)
  · rw [List.concat_eq_append] at h hplain ⊢
    have hx : x ∈ l₁ ++ [x] ++ b :: l₂ := by simp
    have hxm := h.mapped hx
    have hsize := h.sizes x hx
    rw [lastBefore_concat] at hplain ⊢
    rw [loadSize_bind hxm]
    dsimp only
    by_cases htouch : x.addr + HEADERSIZE * s.size x.addr = b.addr
    · have hstop : x.stop = b.addr := by
        unfold Extent.stop
        rw [hsize]
        exact htouch
      rw [if_pos htouch, loadSize_bind hb, storeSize_bind hxm, loadPtr_bind (s := s.setSize _ _) hb,
        ptr_setSize (h.aligned (addr_mem hx) (addr_mem (by simp))),
        storePtr_bind (s := s.setSize _ _) hxm]
      have hwrites := (Writes.setSize (s := s) (v := s.size x.addr + s.size b.addr)
        (Or.inr ⟨x, hx, h.big x hx, rfl⟩)).trans (Writes.setPtr (v := s.ptr b.addr)
          (Or.inr ⟨x, hx, h.big x hx, rfl⟩))
      refine ⟨_, h.join hstop, ?_, hwrites.mem, hwrites.base, hwrites.brk, hwrites.granted⟩
      rw [List.append_assoc]
      exact .touching hstop
    · rw [if_neg htouch, storePtr_bind hxm]
      refine hplain fun y hy => ?_
      rcases List.mem_append.mp hy with hy | hy
      · have hyx := (List.pairwise_append.mp h.sorted₁).2.2 y hy x List.mem_cons_self
        have hxb := h.before x (by simp)
        unfold Extent.Before Extent.stop at *
        omega
      · rw [List.mem_singleton.mp hy]
        intro hstop
        refine htouch ?_
        rw [← hstop]
        exact (congrArg (x.addr + ·) hsize).symm

/-- **`free`** puts a block back into the ring. -/
theorem Ring.free (h : Ring s l) (hb : Freeable s l b) :
    Ends (Umalloc.free (b.addr + HEADERSIZE)) s (fun _ t => ∃ l', Frees s t l b l')
      fun _ _ => False := by
  obtain ⟨l₁, l₂, rfl, h₁, h₂⟩ := exists_split h.sorted hb.apart fun x hx =>
    Nat.lt_of_lt_of_le (by decide) (h.big x hx)
  have hround := le_PGROUNDUP h.memory
  have hbm : s.Mapped b.addr := by
    have hbig := hb.big
    have hhigh := hb.high
    unfold Heap.Mapped
    unfold Extent.stop at hhigh
    omega
  have hlast : lastBefore s.base l₁ ∈ nodes s.base (l₁ ++ l₂) := by
    rw [nodes_append]
    exact List.mem_append_left _ (List.getLast_mem _)
  have hperm : (b :: (l₁ ++ l₂)).Perm (l₁ ++ b :: l₂) := List.perm_middle.symm
  unfold Umalloc.free passes
  rw [Nat.add_sub_cancel, bind_assoc, Ends.get_bind_iff, Ends.pure_bind_iff, Ends.get_bind_iff]
  refine (freeLoop_finds h hb h₁ h₂ (by omega)).bind ?_
  rintro p t ⟨rfl, rfl⟩
  rw [loadPtr_bind (h.mapped hlast), loadSize_bind hbm]
  dsimp only
  have hapart : ∀ a ∈ nodes t.base (l₁ ++ l₂), b.addr + 16 ≤ a ∨ a + 16 ≤ b.addr := fun a ha =>
    h.apart_of_freeable hb ha
  have hheader : b.addr = t.base ∨ ∃ x ∈ b :: (l₁ ++ l₂), 16 ≤ x.len ∧ x.addr = b.addr :=
    Or.inr ⟨b, List.mem_cons_self, hb.big, rfl⟩
  have hnext := h.head_eq
  by_cases htouch : b.addr + HEADERSIZE * t.size b.addr = t.ptr (lastBefore t.base l₁)
  · -- the next block is one, and it touches
    obtain ⟨q, l₂, rfl⟩ : ∃ q l₂', l₂ = q :: l₂' := by
      cases l₂ with
      | cons q l₂ => exact ⟨q, l₂, rfl⟩
      | nil =>
          have hbase : t.base = t.ptr (lastBefore t.base l₁) := Option.some.inj hnext
          have hlow := hb.low
          omega
    have hq : t.ptr (lastBefore t.base l₁) = q.addr := (Option.some.inj hnext).symm
    have hqin : q.addr ∈ nodes t.base (l₁ ++ q :: l₂) :=
      List.mem_cons_of_mem _ (List.mem_map_of_mem (by simp))
    have hqm := h.mapped hqin
    have hstop : b.stop = q.addr := by
      unfold Extent.stop
      rw [hb.size, ← hq]
      exact htouch
    rw [if_pos htouch, hq, loadSize_bind hqm, storeSize_bind hbm,
      loadPtr_bind (s := t.setSize _ _) hqm, ptr_setSize (Or.inr (hapart _ hqin)),
      storePtr_bind (s := t.setSize _ _) hbm]
    obtain ⟨u, hu⟩ : ∃ u, (t.setSize b.addr (t.size b.addr + t.size q.addr)).setPtr b.addr
      (t.ptr q.addr) = u := ⟨_, rfl⟩
    have hright := h.right
    rw [List.map_cons, List.cons_append] at hright
    have hjoined : (l₂.map Extent.addr ++ [t.base]).head? = some (u.ptr b.addr) := by
      obtain ⟨z, rest, hz⟩ : ∃ z rest, l₂.map Extent.addr ++ [t.base] = z :: rest :=
        List.exists_cons_of_ne_nil (by simp)
      rw [hz, List.isChain_cons_cons] at hright
      rw [hz, ← hu, ptr_setPtr (h.node_lt (h.around.next_mem hqin)), hright.1]
      rfl
    have hqlen := h.sizes q (by simp)
    have hqhigh := h.high q (by simp)
    have hbound : b.len + q.len ≤ MEMORY := by
      have hmem := h.memory
      unfold Extent.stop at hqhigh hstop
      omega
    have hsize : u.size b.addr = t.size b.addr + t.size q.addr := by
      rw [← hu, size_setPtr (Or.inl rfl), size_setSize]
      have hblen := hb.size
      unfold MEMORY at hbound
      omega
    have hcut : Cut u l₁ ⟨b.addr, b.len + q.len⟩ l₂ := by
      refine h.cut (t := u) _ hb h₁ (List.suffix_cons q l₂) (fun x hx => ?_) (Nat.le_add_right _ _) ?_
        (hu ▸ rfl) (hu ▸ rfl) (fun a ha => ?_) (fun a ha => ?_) hjoined ?_
      · have hsorted := (List.pairwise_append.mp h.sorted).2.1
        have hqx := (List.pairwise_cons.mp hsorted).1 x hx
        unfold Extent.Before Extent.stop at *
        dsimp only
        omega
      · unfold Extent.stop at hqhigh hstop
        omega
      · rw [← hu, ptr_setPtr_apart (hapart a ha), ptr_setSize (Or.inr (hapart a ha))]
      · rw [← hu, size_setPtr (Or.inr (hapart a ha)), size_setSize_apart (hapart a ha)]
      · rw [hsize, hqlen, hb.size]
        omega
    have hwrites : Writes t u (b :: (l₁ ++ q :: l₂)) := hu ▸
      (Writes.setSize hheader).trans (Writes.setPtr (s := t.setSize _ _) hheader)
    rw [hu]
    have hbase : u.base = t.base := hwrites.base
    rw [← hbase]
    refine hcut.finish.post ?_
    rintro - v ⟨l', hring, hjoins, hwrites'⟩
    have hall := (Extent.Joins.of_perm hperm).trans (.touching hstop)
    exact ⟨l', hring, hall.trans hjoins, hwrites.trans (hwrites'.mono hall.holds)⟩
  · rw [if_neg htouch, storePtr_bind hbm]
    obtain ⟨u, hu⟩ : ∃ u, t.setPtr b.addr (t.ptr (lastBefore t.base l₁)) = u := ⟨_, rfl⟩
    have hcut : Cut u l₁ b l₂ := by
      refine h.cut (t := u) b.len hb h₁ (List.suffix_refl l₂) ?_ (Nat.le_refl _) hb.high
        (hu ▸ rfl) (hu ▸ rfl) (fun a ha => ?_) (fun a ha => ?_) ?_ ?_
      · cases l₂ with
        | nil => simp
        | cons q l₂ =>
            have hq : t.ptr (lastBefore t.base l₁) = q.addr := (Option.some.inj hnext).symm
            have hbq : b.stop < q.addr := by
              refine Nat.lt_of_le_of_ne (h₂ q List.mem_cons_self) fun hstop => htouch ?_
              rw [hq, ← hstop]
              exact congrArg (b.addr + ·) hb.size.symm
            have hsorted := (List.pairwise_append.mp h.sorted).2.1
            refine List.forall_mem_cons.mpr ⟨hbq, fun x hx => ?_⟩
            have hqx := (List.pairwise_cons.mp hsorted).1 x hx
            unfold Extent.Before Extent.stop at *
            dsimp only
            omega
      · rw [← hu, ptr_setPtr_apart (hapart a ha)]
      · rw [← hu, size_setPtr (Or.inr (hapart a ha))]
      · rw [hnext, ← hu, ptr_setPtr (h.node_lt (h.around.next_mem hlast))]
      · rw [← hu, size_setPtr (Or.inl rfl)]
        exact hb.size
    have hwrites : Writes t u (b :: (l₁ ++ l₂)) := hu ▸ Writes.setPtr hheader
    rw [hu]
    have hbase : u.base = t.base := hwrites.base
    rw [← hbase]
    refine hcut.finish.post ?_
    rintro - v ⟨l', hring, hjoins, hwrites'⟩
    have hall := Extent.Joins.of_perm hperm
    exact ⟨l', hring, hall.trans hjoins, hwrites.trans (hwrites'.mono hall.holds)⟩

end Umalloc
