import OSN.User.FreeBlocks

/-!
# `malloc`

`malloc` goes round the ring once and takes what it needs from the first block that is large
enough.  If there is none it asks the kernel for more, and goes round again.
-/

namespace Umalloc

open Vm (PGROUNDUP)
open Heap

variable {s t : Heap} {p q v n nx nunits fuel : Nat} {l l' l₁ l₂ : List Extent} {b x y z : Extent}

/-! ### Parts of blocks -/

/-- `y` is a part of one of the extents. -/
def PartOf (l : List Extent) (y : Extent) : Prop := ∃ x ∈ l, x.addr ≤ y.addr ∧ y.stop ≤ x.stop

theorem PartOf.apart (h : PartOf l y) (hz : ∀ x ∈ l, x.Apart z) : y.Apart z := by
  obtain ⟨x, hx, hstart, hstop⟩ := h
  have hxz := hz x hx
  unfold Extent.Apart at *
  omega

/-- **What `malloc` takes**: the block `b`, from what was free. -/
structure Takes (s t : Heap) (l l' : List Extent) (b : Extent) : Prop where
  ring : Ring t l'
  size : b.len = 16 * t.size b.addr
  parts : ∀ y ∈ b :: l', PartOf l y
  apart : ∀ x ∈ l', x.Apart b
  total : Extent.total l = Extent.total l' + b.len
  writes : Writes s t l

/-- A ring without its block `x`. -/
theorem Ring.parts (h : Ring s (l₁ ++ x :: l₂)) :
    lastBefore s.base l₁ ∈ nodes s.base (l₁ ++ x :: l₂) ∧
      s.ptr (lastBefore s.base l₁) = x.addr := by
  refine ⟨?_, (Option.some.inj h.head_eq).symm⟩
  rw [nodes_append]
  exact List.mem_append_left _ (List.getLast_mem _)

/-- The headers of a ring lie one behind the other. -/
theorem Ring.spaced (h : Ring s l) : (nodes s.base l).Pairwise (· + 16 ≤ ·) := by
  unfold nodes
  refine List.pairwise_cons.mpr ⟨fun a ha => ?_, List.pairwise_map.mpr ?_⟩
  · obtain ⟨x, hx, rfl⟩ := List.mem_map.mp ha
    exact h.low x hx
  · refine h.sorted.imp_of_mem fun {x y} hx _ hxy => ?_
    have hbig := h.big x hx
    unfold Extent.Before Extent.stop at hxy
    omega

/-- **A block is taken whole.** -/
theorem Ring.takeWhole (h : Ring s (l₁ ++ x :: l₂)) :
    Takes s { s.setPtr (lastBefore s.base l₁) (s.ptr x.addr) with freep := lastBefore s.base l₁ }
      (l₁ ++ x :: l₂) (l₁ ++ l₂) x := by
  obtain ⟨hlast, -⟩ := h.parts
  have hsub : (l₁ ++ l₂).Sublist (l₁ ++ x :: l₂) :=
    List.Sublist.append_left (List.sublist_cons_self x l₂) l₁
  have hxin : x ∈ l₁ ++ x :: l₂ := by simp
  have hxnode : x.addr ∈ nodes s.base (l₁ ++ x :: l₂) :=
    List.mem_cons_of_mem _ (List.mem_map_of_mem hxin)
  have halign : ∀ a ∈ nodes s.base (l₁ ++ x :: l₂), Aligned (lastBefore s.base l₁) a := fun a ha =>
    aligned_of_spaced h.spaced hlast ha
  have hnodes : ∀ a ∈ nodes s.base (l₁ ++ l₂), a ∈ nodes s.base (l₁ ++ x :: l₂) := fun a ha =>
    (List.Sublist.cons_cons s.base (hsub.map Extent.addr)).subset ha
  have hsizes : ∀ a ∈ nodes s.base (l₁ ++ x :: l₂),
      (s.setPtr (lastBefore s.base l₁) (s.ptr x.addr)).size a = s.size a := fun a ha =>
    size_setPtr (halign a ha)
  have hsorted := h.sorted
  have hpair := List.pairwise_append.mp hsorted
  have hright := List.pairwise_cons.mp hpair.2.1
  refine ⟨⟨?_, (hsizes _ List.mem_cons_self).trans h.baseSize, fun y hy => ?_, hsorted.sublist hsub,
    fun y hy => h.low y (hsub.subset hy), fun y hy => h.big y (hsub.subset hy),
    fun y hy => h.high y (hsub.subset hy), ?_, h.memory, h.base_pos, h.base_stop⟩, ?_, ?_, ?_, ?_, ?_⟩
  · change (nodes s.base (l₁ ++ l₂) ++ [s.base]).IsChain _
    have hall : nodes s.base (l₁ ++ l₂) ++ [s.base] = (nodes s.base l₁).dropLast ++
        lastBefore s.base l₁ :: (l₂.map Extent.addr ++ [s.base]) := by
      rw [nodes_append, List.append_assoc]
      exact (congrArg (· ++ _) (nodes_eq s.base l₁)).trans (List.append_assoc _ _ _)
    have hleft := h.left
    rw [nodes_eq] at hleft
    have htail := h.right
    rw [List.map_cons, List.cons_append] at htail
    obtain ⟨z, rest, hz⟩ : ∃ z rest, l₂.map Extent.addr ++ [s.base] = z :: rest :=
      List.exists_cons_of_ne_nil (by simp)
    rw [hz, List.isChain_cons_cons] at htail
    have hspaced := h.spaced
    rw [nodes_append, nodes_eq, List.pairwise_append, List.pairwise_append] at hspaced
    rw [hall]
    refine chain_link hleft (hz ▸ htail.2) (fun a ha => ptr_setPtr_apart ?_)
      (fun a ha => ptr_setPtr_apart ?_) ?_
    · exact Or.inr (hspaced.1.2.2 a ha _ List.mem_cons_self)
    · exact Or.inl (hspaced.2.2 _ (List.mem_append_right _ List.mem_cons_self) a
        (List.mem_cons_of_mem _ ha))
    · rw [hz, htail.1]
      exact congrArg some (ptr_setPtr (htail.1 ▸ h.node_lt (h.around.next_mem hxnode))).symm
  · exact (h.sizes y (hsub.subset hy)).trans (congrArg (16 * ·)
      (hsizes _ (hnodes _ (List.mem_cons_of_mem _ (List.mem_map_of_mem hy)))).symm)
  · change lastBefore s.base l₁ ∈ nodes s.base (l₁ ++ l₂)
    rw [nodes_append]
    exact List.mem_append_left _ (List.getLast_mem _)
  · exact (h.sizes x hxin).trans (congrArg (16 * ·) (hsizes _ hxnode).symm)
  · refine List.forall_mem_cons.mpr ⟨⟨x, hxin, Nat.le_refl _, Nat.le_refl _⟩, fun y hy => ?_⟩
    exact ⟨y, hsub.subset hy, Nat.le_refl _, Nat.le_refl _⟩
  · intro y hy
    rcases List.mem_append.mp hy with hy | hy
    · exact (hpair.2.2 y hy x List.mem_cons_self).apart
    · exact (hright.1 y hy).apart.symm
  · simp only [Extent.total_append, Extent.total_cons]
    omega
  · have hwrites : Writes s (s.setPtr (lastBefore s.base l₁) (s.ptr x.addr)) (l₁ ++ x :: l₂) := by
      refine Writes.setPtr ?_
      rcases List.mem_cons.mp hlast with hbase | hin
      · exact Or.inl hbase
      · obtain ⟨y, hy, heq⟩ := List.mem_map.mp hin
        exact Or.inr ⟨y, hy, h.big y hy, heq⟩
    exact ⟨hwrites.mem, hwrites.base, hwrites.brk, hwrites.granted⟩

/-- Other headers lie outside a block. -/
theorem Ring.outside (h : Ring s (l₁ ++ x :: l₂)) {a : Nat}
    (ha : a ∈ nodes s.base (l₁ ++ x :: l₂)) : a = x.addr ∨ a + 16 ≤ x.addr ∨ x.stop ≤ a := by
  have hpair := List.pairwise_append.mp h.sorted
  rcases List.mem_cons.mp ha with rfl | ha
  · exact Or.inr (Or.inl (h.low x (by simp)))
  · obtain ⟨y, hy, rfl⟩ := List.mem_map.mp ha
    have hbig := h.big y hy
    rcases List.mem_append.mp hy with hy | hy
    · have hyx := hpair.2.2 y hy x List.mem_cons_self
      unfold Extent.Before Extent.stop at hyx
      omega
    · rcases List.mem_cons.mp hy with rfl | hy
      · exact Or.inl rfl
      · have hxy := (List.pairwise_cons.mp hpair.2.1).1 y hy
        exact Or.inr (Or.inr (Nat.le_of_lt hxy))

/-- **The last part of a block is taken.** -/
theorem Ring.takeTail (h : Ring s (l₁ ++ x :: l₂)) (hpos : 1 ≤ nunits)
    (hlarge : nunits < s.size x.addr) (hp : p = x.addr + 16 * (s.size x.addr - nunits)) :
    Takes s { (s.setSize x.addr (s.size x.addr - nunits)).setSize p nunits with
        freep := lastBefore s.base l₁ } (l₁ ++ x :: l₂)
      (l₁ ++ ⟨x.addr, 16 * (s.size x.addr - nunits)⟩ :: l₂) ⟨p, 16 * nunits⟩ := by
  obtain ⟨hlast, -⟩ := h.parts
  have hxin : x ∈ l₁ ++ x :: l₂ := by simp
  have hxlen := h.sizes x hxin
  have hxhigh := h.high x hxin
  have hmem := h.memory
  have hbound : s.size x.addr < 2 ^ 32 := by
    unfold Extent.stop at hxhigh
    unfold MEMORY at hmem
    omega
  obtain ⟨u, hu⟩ : ∃ u, (s.setSize x.addr (s.size x.addr - nunits)).setSize p nunits = u := ⟨_, rfl⟩
  have hin : x.addr + 16 ≤ p ∧ p + 16 * nunits = x.stop := by
    unfold Extent.stop
    omega
  have hxp : Aligned x.addr p := Or.inr (Or.inl hin.1)
  have hnodes : nodes s.base (l₁ ++ ⟨x.addr, 16 * (s.size x.addr - nunits)⟩ :: l₂) =
      nodes s.base (l₁ ++ x :: l₂) := by
    rw [nodes_append, nodes_append]
    rfl
  have hapart : ∀ a ∈ nodes s.base (l₁ ++ x :: l₂), p + 16 ≤ a ∨ a + 16 ≤ p := by
    intro a ha
    rcases h.outside ha with rfl | hout | hout <;> omega
  have halign : ∀ a ∈ nodes s.base (l₁ ++ x :: l₂), Aligned x.addr a := fun a ha =>
    aligned_of_spaced h.spaced (List.mem_cons_of_mem _ (List.mem_map_of_mem hxin)) ha
  have hptr : ∀ a ∈ nodes s.base (l₁ ++ x :: l₂), u.ptr a = s.ptr a := fun a ha => by
    rw [← hu, ptr_setSize (Or.inr (hapart a ha)), ptr_setSize (halign a ha)]
  have hsizes : ∀ a ∈ nodes s.base (l₁ ++ x :: l₂), a ≠ x.addr → u.size a = s.size a :=
    fun a ha hne => by
      rw [← hu, size_setSize_apart (hapart a ha), size_setSize_apart ((halign a ha).apart hne)]
  have hhead : u.size x.addr = s.size x.addr - nunits := by
    rw [← hu, size_setSize_apart (Or.inr hin.1), size_setSize (by omega)]
  have hpair := List.pairwise_append.mp h.sorted
  have hright := List.pairwise_cons.mp hpair.2.1
  have hothers : ∀ y ∈ l₁ ++ ⟨x.addr, 16 * (s.size x.addr - nunits)⟩ :: l₂,
      y ∈ l₁ ++ x :: l₂ ∧ y.addr ≠ x.addr ∧ y.Apart x ∨
        y = ⟨x.addr, 16 * (s.size x.addr - nunits)⟩ := by
    intro y hy
    have hne : ∀ y : Extent, 16 ≤ y.len → y.Apart x → y.addr ≠ x.addr := by
      intro y hbig hyx heq
      unfold Extent.Apart Extent.stop at hyx
      omega
    rcases List.mem_append.mp hy with hy | hy
    · have hyx := (hpair.2.2 y hy x List.mem_cons_self).apart
      exact Or.inl ⟨by simp [hy], hne y (h.big y (by simp [hy])) hyx, hyx⟩
    · rcases List.mem_cons.mp hy with rfl | hy
      · exact Or.inr rfl
      · have hyx := (hright.1 y hy).apart.symm
        exact Or.inl ⟨by simp [hy], hne y (h.big y (by simp [hy])) hyx, hyx⟩
  have hhead_stop : x.addr + 16 * (s.size x.addr - nunits) ≤ x.stop := by
    unfold Extent.stop
    omega
  rw [hu]
  have hbase : u.base = s.base := hu ▸ rfl
  have hbrk : u.brk = s.brk := hu ▸ rfl
  refine ⟨⟨?_, ?_, fun y hy => ?_, ?_, fun y hy => ?_, fun y hy => ?_, fun y hy => ?_, ?_, ?_, ?_, ?_⟩,
    ?_, ?_, ?_, ?_, ?_⟩
  · change (nodes u.base _ ++ [u.base]).IsChain (u.ptr · = ·)
    rw [hbase, hnodes]
    exact chain_congr h.chain hptr
  · change u.size u.base = 0
    have hlow := h.low x hxin
    rw [hbase, hsizes _ List.mem_cons_self (by omega), h.baseSize]
  · change y.len = 16 * u.size y.addr
    rcases hothers y hy with ⟨hy', hne, -⟩ | rfl
    · rw [hsizes _ (List.mem_cons_of_mem _ (List.mem_map_of_mem hy')) hne]
      exact h.sizes y hy'
    · rw [hhead]
  · refine List.pairwise_append.mpr ⟨hpair.1, List.pairwise_cons.mpr ⟨fun y hy => ?_, hright.2⟩,
      fun y hy y' hy' => ?_⟩
    · exact Nat.lt_of_le_of_lt hhead_stop (hright.1 y hy)
    · rcases List.mem_cons.mp hy' with rfl | hy'
      · exact hpair.2.2 y hy x List.mem_cons_self
      · exact hpair.2.2 y hy y' (List.mem_cons_of_mem x hy')
  · change u.base + 16 ≤ y.addr
    rw [hbase]
    rcases hothers y hy with ⟨hy', -⟩ | rfl
    · exact h.low y hy'
    · exact h.low x hxin
  · rcases hothers y hy with ⟨hy', -⟩ | rfl
    · exact h.big y hy'
    · dsimp only
      omega
  · change y.stop ≤ u.brk
    rw [hbrk]
    rcases hothers y hy with ⟨hy', -⟩ | rfl
    · exact h.high y hy'
    · exact hhead_stop.trans hxhigh
  · change lastBefore s.base l₁ ∈ nodes u.base _
    rw [hbase, hnodes]
    exact hlast
  · exact (show u.brk = s.brk from hbrk) ▸ h.memory
  · exact (show u.base = s.base from hbase) ▸ h.base_pos
  · change u.base + 16 ≤ u.brk
    rw [hbase, hbrk]
    exact h.base_stop
  · change 16 * nunits = 16 * u.size p
    rw [← hu, size_setSize (by omega)]
  · refine List.forall_mem_cons.mpr ⟨⟨x, hxin, ?_, ?_⟩, fun y hy => ?_⟩
    · exact (Nat.le_add_right _ _).trans hin.1
    · exact Nat.le_of_eq hin.2
    · rcases hothers y hy with ⟨hy', -⟩ | rfl
      · exact ⟨y, hy', Nat.le_refl _, Nat.le_refl _⟩
      · exact ⟨x, hxin, Nat.le_refl _, hhead_stop⟩
  · intro y hy
    rcases hothers y hy with ⟨-, -, hyx⟩ | rfl
    · unfold Extent.Apart Extent.stop at *
      dsimp only
      omega
    · exact Or.inl (Nat.le_of_eq hp.symm)
  · simp only [Extent.total_append, Extent.total_cons]
    omega
  · have hwrites : Writes s (s.setSize x.addr (s.size x.addr - nunits)) (l₁ ++ x :: l₂) :=
      Writes.setSize (Or.inr ⟨x, hxin, h.big x hxin, rfl⟩)
    refine ⟨fun a ha hl => ?_, hbase, hbrk, hu ▸ rfl⟩
    refine Eq.trans ?_ (hwrites.mem a ha hl)
    change u.mem a = _
    rw [← hu]
    refine setSize_outside ?_
    have hxout := hl x hxin
    unfold Extent.Holds at hxout
    omega

/-! ### The loop of `malloc` -/

/-- What is given to the program. -/
structure Given (s t : Heap) (l : List Extent) (nunits r : Nat) (l' : List Extent) (b : Extent) :
    Prop extends Takes s t l l' b where
  result : r = b.addr + HEADERSIZE
  len : b.len = 16 * nunits

/-- **A block that is large enough.** -/
theorem Ring.allocate (h : Ring s (l₁ ++ x :: l₂)) (hpos : 1 ≤ nunits)
    (hlarge : nunits ≤ s.size x.addr) :
    Ends (mallocLoop nunits (fuel + 1) (lastBefore s.base l₁) x.addr) s
      (fun r t => ∃ l' b, Given s t (l₁ ++ x :: l₂) nunits r l' b) fun _ _ => False := by
  obtain ⟨hlast, -⟩ := h.parts
  have hxin : x ∈ l₁ ++ x :: l₂ := by simp
  have hxm := h.mapped (List.mem_cons_of_mem _ (List.mem_map_of_mem hxin))
  have hxlen := h.sizes x hxin
  unfold mallocLoop
  rw [loadSize_bind hxm, if_pos hlarge]
  by_cases hexact : s.size x.addr = nunits
  · rw [if_pos hexact, loadPtr_bind hxm, storePtr_bind (h.mapped hlast)]
    exact ⟨_, x, h.takeWhole, rfl, by rw [hxlen, hexact]⟩
  · have hless : nunits < s.size x.addr := Nat.lt_of_le_of_ne hlarge (Ne.symm hexact)
    have hxhigh := h.high x hxin
    have hround := le_PGROUNDUP h.memory
    have hmem := h.memory
    have hsize : (s.setSize x.addr (s.size x.addr - nunits)).size x.addr =
        s.size x.addr - nunits := by
      refine size_setSize ?_
      unfold Extent.stop at hxhigh
      unfold MEMORY at hmem
      omega
    have hpm : s.Mapped (x.addr + HEADERSIZE * (s.size x.addr - nunits)) := by
      unfold Extent.stop at hxhigh
      unfold Heap.Mapped HEADERSIZE
      omega
    rw [if_neg hexact, storeSize_bind hxm, loadSize_bind (s := s.setSize _ _) hxm, hsize]
    dsimp only
    rw [storeSize_bind (s := s.setSize _ _) hpm]
    exact ⟨_, _, h.takeTail hpos hless rfl, rfl, rfl⟩

/-- The loop ends at a block. -/
def Fits (s : Heap) (nunits p : Nat) : Prop := nunits ≤ s.size p ∨ p = s.freep

instance : DecidablePred (Fits s nunits) := fun p => by
  unfold Fits
  infer_instance

/-- The loop goes on. -/
theorem Ring.mallocLoop_steps {Q : Nat → Heap → Prop} {E : String → Heap → Prop} {k : Nat}
    (h : Ring s l) (hq : q ∈ nodes s.base l) (hgoes : ∀ j < k, ¬ Fits s nunits (s.ptr^[j + 1] q)) :
    Ends (mallocLoop nunits (fuel + k) q (s.ptr q)) s Q E ↔
      Ends (mallocLoop nunits fuel (s.ptr^[k] q) (s.ptr^[k + 1] q)) s Q E := by
  induction k generalizing q with
  | zero => exact Iff.rfl
  | succ k ih =>
      have hnot : ¬ Fits s nunits (s.ptr q) := hgoes 0 (Nat.zero_lt_succ k)
      unfold Fits at hnot
      rw [not_or] at hnot
      have hnext := h.around.next_mem hq
      rw [← Nat.add_assoc, mallocLoop, loadSize_bind (h.mapped hnext), if_neg hnot.1,
        Ends.get_bind_iff, if_neg hnot.2, loadPtr_bind (h.mapped hnext)]
      exact ih hnext fun j hj => hgoes (j + 1) (Nat.succ_lt_succ hj)

/-- **The loop of `malloc`** takes a block that is large enough, or comes to ask for more. -/
theorem Ring.scan {Q : Nat → Heap → Prop} {E : String → Heap → Prop} (h : Ring s l)
    (hpos : 1 ≤ nunits) (hfuel : (nodes s.base l).length ≤ fuel) :
    Ends (mallocLoop nunits fuel s.freep (s.ptr s.freep)) s
      (fun r t => ∃ l' b, Given s t l nunits r l' b) (fun _ _ => False) ∨
    (∀ x ∈ l, x.len < 16 * nunits) ∧ ∃ rest, fuel ≤ rest + (nodes s.base l).length ∧
      (Ends (mallocLoop nunits fuel s.freep (s.ptr s.freep)) s Q E ↔
        Ends (do
          let p ← morecore nunits
          if p = 0 then return 0
          else mallocLoop nunits rest p (← loadPtr p)) s Q E) := by
  have hfirst := h.around.next_mem h.freep
  obtain ⟨n, hn, hback⟩ := h.around.exists_iterate hfirst h.freep
  obtain ⟨k, hk, hfits, hgoes⟩ := h.around.exists_first hfirst (p := Fits s nunits)
    ⟨_, h.freep, Or.inr rfl⟩
  rw [← Function.iterate_succ_apply] at hfits
  have hgoes' : ∀ j < k, ¬ Fits s nunits (s.ptr^[j + 1] s.freep) := fun j hj => by
    rw [Function.iterate_succ_apply]
    exact hgoes j hj
  obtain ⟨rest, hrest⟩ := Nat.exists_eq_add_of_le (Nat.succ_le_of_lt (Nat.lt_of_lt_of_le hk hfuel))
  have hfuel' : fuel = rest + 1 + k := by omega
  have hin := h.around.iterate_mem h.freep (k + 1)
  by_cases hsize : nunits ≤ s.size (s.ptr^[k + 1] s.freep)
  · refine Or.inl ?_
    rw [hfuel', h.mallocLoop_steps h.freep hgoes']
    rcases List.mem_cons.mp hin with hbase | hmem
    · rw [hbase, h.baseSize] at hsize
      omega
    · obtain ⟨x, hx, heq⟩ := List.mem_map.mp hmem
      obtain ⟨l₁, l₂, rfl⟩ := List.append_of_mem hx
      obtain ⟨hlast, hptr⟩ := h.parts
      have hprev : s.ptr^[k] s.freep = lastBefore s.base l₁ := by
        refine h.around.inj (h.around.iterate_mem h.freep k) hlast ?_
        rw [hptr, heq, Function.iterate_succ_apply']
      rw [hprev, ← heq]
      exact h.allocate hpos (heq ▸ hsize)
  · refine Or.inr ⟨fun x hx => ?_, rest, by omega, ?_⟩
    · have hall := h.around.met_all h.freep (hfits.resolve_left hsize)
        (p := fun a => ¬ nunits ≤ s.size a) (fun j hj => ?_)
        (List.mem_cons_of_mem _ (List.mem_map_of_mem hx))
      · have hxlen := h.sizes x hx
        omega
      · rcases Nat.lt_or_eq_of_le hj with hlt | rfl
        · exact fun hbad => hgoes' j hlt (Or.inl hbad)
        · exact hsize
    · rw [hfuel', h.mallocLoop_steps h.freep hgoes', mallocLoop, loadSize_bind (h.mapped hin),
        if_neg hsize, Ends.get_bind_iff, if_pos (hfits.resolve_left hsize)]

/-! ### More memory -/

/-- The kernel has answered a call of `sbrk` that asks for memory. -/
def asked (s : Heap) : Heap := { s with granted := fun k => s.granted (k + 1) }

/-- The kernel has no memory for the process. -/
def Refused (s : Heap) (n : Nat) : Prop := s.granted 0 = false ∨ MEMORY < s.brk + n

theorem sbrk_ends {n : Nat} (hn : 0 < n) :
    Ends (sbrk n) s (fun r t => r = NOMEM ∧ Refused s n ∧ t = asked s ∨
      r = s.brk ∧ s.brk + n ≤ MEMORY ∧ t = { asked s with brk := s.brk + n }) fun _ _ => False := by
  unfold sbrk
  rw [Ends.get_bind_iff, if_pos (Int.natCast_pos.mpr hn), Ends.set_bind_iff, Int.toNat_natCast]
  split
  next hgrant => exact Or.inr ⟨rfl, hgrant.2, rfl⟩
  next hdeny =>
    refine Or.inl ⟨rfl, ?_, rfl⟩
    unfold Refused
    rw [not_and_or, Nat.not_le, Bool.not_eq_true] at hdeny
    exact hdeny

/-- The headers of the ring stay. -/
theorem Ring.congr (h : Ring s l) (hbase : t.base = s.base) (hfreep : t.freep = s.freep)
    (hle : s.brk ≤ t.brk) (hmax : t.brk ≤ MEMORY)
    (hptr : ∀ a ∈ nodes s.base l, t.ptr a = s.ptr a)
    (hsizes : ∀ a ∈ nodes s.base l, t.size a = s.size a) : Ring t l := by
  refine ⟨?_, ?_, fun x hx => ?_, h.sorted, fun x hx => hbase ▸ h.low x hx, h.big,
    fun x hx => (h.high x hx).trans hle, hbase ▸ hfreep ▸ h.freep, hmax, hbase ▸ h.base_pos, ?_⟩
  · rw [hbase]
    exact chain_congr h.chain hptr
  · rw [hbase, hsizes _ List.mem_cons_self, h.baseSize]
  · rw [hsizes _ (List.mem_cons_of_mem _ (List.mem_map_of_mem hx))]
    exact h.sizes x hx
  · rw [hbase]
    exact h.base_stop.trans hle

theorem Ring.node_le (h : Ring s l) (hp : p ∈ nodes s.base l) : p + 16 ≤ s.brk := by
  rcases List.mem_cons.mp hp with rfl | hp
  · exact h.base_stop
  · obtain ⟨x, hx, rfl⟩ := List.mem_map.mp hp
    have hbig := h.big x hx
    have hhigh := h.high x hx
    unfold Extent.stop at hhigh
    omega

theorem Ring.node_pos (h : Ring s l) (hp : p ∈ nodes s.base l) : p ≠ 0 := by
  have hpos := h.base_pos
  rcases List.mem_cons.mp hp with rfl | hp
  · omega
  · obtain ⟨x, hx, rfl⟩ := List.mem_map.mp hp
    have hlow := h.low x hx
    omega

/-- What `morecore` asks for. -/
def morecoreUnits (nunits : Nat) : Nat := if nunits < 4096 then 4096 else nunits

theorem le_morecoreUnits (nunits : Nat) : nunits ≤ morecoreUnits nunits := by
  unfold morecoreUnits
  split <;> omega

theorem toInt_eq (h : n < 2 ^ 31) : toInt n = n := by
  have hmod : (BitVec.ofNat 32 n).toNat = n := by
    rw [BitVec.toNat_ofNat]
    exact Nat.mod_eq_of_lt (by omega)
  rw [toInt, BitVec.toInt_eq_toNat_of_lt (by rw [hmod]; omega), hmod]

/-- **`morecore`** gets a block from the kernel and frees it. -/
theorem Ring.morecore (h : Ring s l) (hsmall : nunits < 2 ^ 27) :
    Ends (Umalloc.morecore nunits) s (fun r t =>
      r = 0 ∧ Refused s (16 * morecoreUnits nunits) ∧ t = asked s ∨
      r ≠ 0 ∧ r = t.freep ∧ s.brk + 16 * morecoreUnits nunits ≤ MEMORY ∧
        ∃ l', Frees { asked s with brk := s.brk + 16 * morecoreUnits nunits } t l
          ⟨s.brk, 16 * morecoreUnits nunits⟩ l') fun _ _ => False := by
  obtain ⟨nu, hnu⟩ : ∃ nu, morecoreUnits nunits = nu := ⟨_, rfl⟩
  have hnu' : (if nunits < 4096 then 4096 else nunits) = nu := hnu
  have hpos : 4096 ≤ nu ∧ nu < 2 ^ 27 := by
    rw [← hnu']
    split <;> omega
  unfold Umalloc.morecore
  dsimp only
  rw [hnu', hnu, toInt_eq (by unfold HEADERSIZE; omega), Nat.mul_comm nu]
  refine (sbrk_ends (by unfold HEADERSIZE; omega)).bind ?_
  rintro r t (⟨rfl, hrefused, rfl⟩ | ⟨rfl, hmax, rfl⟩)
  · rw [if_pos rfl]
    exact Or.inl ⟨rfl, hrefused, rfl⟩
  · change s.brk + 16 * nu ≤ MEMORY at hmax
    change Ends _ { asked s with brk := s.brk + 16 * nu } _ _
    have hround := le_PGROUNDUP hmax
    have hnomem : s.brk ≠ NOMEM := by
      intro hbad
      have hlt : MEMORY < NOMEM := by decide
      omega
    have hm : Heap.Mapped { asked s with brk := s.brk + 16 * nu } s.brk :=
      Nat.le_trans (by omega) hround
    rw [if_neg hnomem, storeSize_bind hm]
    obtain ⟨u, hu⟩ : ∃ u, ({ asked s with brk := s.brk + 16 * nu } : Heap).setSize s.brk nu = u :=
      ⟨_, rfl⟩
    have hapart : ∀ a ∈ nodes s.base l, s.brk + 16 ≤ a ∨ a + 16 ≤ s.brk := fun a ha =>
      Or.inr (h.node_le ha)
    have hring : Ring u l := by
      refine h.congr (hu ▸ rfl) (hu ▸ rfl) (hu ▸ Nat.le_add_right _ _) (hu ▸ hmax) (fun a ha => ?_)
        fun a ha => ?_
      · rw [← hu]
        exact ptr_setSize (Or.inr (hapart a ha))
      · rw [← hu]
        exact size_setSize_apart (hapart a ha)
    have hfree : Freeable u l ⟨s.brk, 16 * nu⟩ := by
      refine ⟨?_, fun x hx => Or.inl (h.high x hx), hu ▸ h.base_stop, ?_, hu ▸ Nat.le_refl _⟩
      · change 16 * nu = 16 * u.size s.brk
        rw [← hu, size_setSize (by omega)]
      · dsimp only
        omega
    have hwrites : Writes { asked s with brk := s.brk + 16 * nu } u (⟨s.brk, 16 * nu⟩ :: l) :=
      hu ▸ Writes.setSize (Or.inr ⟨_, List.mem_cons_self, by dsimp only; omega, rfl⟩)
    rw [hu]
    refine (hring.free hfree).bind ?_
    rintro - t ⟨l', hfrees⟩
    exact Or.inr ⟨hfrees.ring.node_pos hfrees.ring.freep, rfl, hmax, l', hfrees.ring, hfrees.joins,
      hwrites.trans hfrees.writes⟩

end Umalloc
