import OSN.Fs.Owners

/-!
# What the functions on an inode do to its file

`writei` writes what it is given at its offset and nothing else; `readi` reads what the
file holds; `itrunc` gives back every block of the inode, each one once; `iupdate` makes
the dinode on disk the copy.  All of them leave the other inodes alone.
-/

namespace Fs

variable {ι : Type} {own : Place → ι} {f f' : ι → UInt32} {n n₁ n' : Node} {b : UInt32}
  {src : Nat → Option UInt8} {off left tot m i p : Nat} {l : List UInt8}

/-! ### Writing -/

theorem readable_zero : readable src tot 0 = [] := rfl

theorem readable_succ : readable src tot (m + 1) =
    match src tot with
    | none => []
    | some x => x :: readable src (tot + 1) m := by
  unfold readable
  rw [List.range_succ_eq_map]
  cases hx : src tot with
  | none => simp [hx]
  | some x =>
      simp [hx, Function.comp_def, Nat.add_comm, Nat.add_left_comm]

theorem readable_length_le : (readable src tot m).length ≤ m := by
  induction m generalizing tot with
  | zero => simp [readable_zero]
  | succ m ih =>
      rw [readable_succ]
      split
      · simp
      · simpa using ih

/-- What is moved is what the source has. -/
theorem readable_get (hi : i < (readable src tot m).length) :
    src (tot + i) = some (readable src tot m)[i] := by
  induction m generalizing tot i with
  | zero => simp [readable_zero] at hi
  | succ m ih =>
      cases hx : src tot with
      | none => simp [readable_succ, hx] at hi
      | some x =>
          have hcons : readable src tot (m + 1) = x :: readable src (tot + 1) m := by
            rw [readable_succ, hx]
          simp only [hcons] at hi ⊢
          cases i with
          | zero => exact hx
          | succ i =>
              have hrest := ih (i := i) (Nat.lt_of_succ_lt_succ hi)
              rw [List.getElem_cons_succ, ← hrest]
              congr 1
              omega

/-- All of it, if the source has all of it. -/
theorem readable_full (h : ∀ i < m, (src (tot + i)).isSome) : (readable src tot m).length = m := by
  induction m generalizing tot with
  | zero => rfl
  | succ m ih =>
      have hfirst := h 0 (Nat.succ_pos m)
      rw [Nat.add_zero] at hfirst
      obtain ⟨x, hx⟩ := Option.isSome_iff_exists.mp hfirst
      rw [readable_succ, hx]
      have hrest : (readable src (tot + 1) m).length = m := ih fun i hi => by
        have hnext := h (i + 1) (Nat.succ_lt_succ hi)
        rwa [← Nat.add_assoc, Nat.add_right_comm] at hnext
      rw [List.length_cons, hrest]

theorem chunk_le : chunk off left ≤ left := Nat.min_le_left _ _

theorem chunk_room : off % BSIZE + chunk off left ≤ BSIZE := by
  unfold chunk BSIZE
  omega

theorem chunk_pos (h : left ≠ 0) : 0 < chunk off left := by
  unfold chunk BSIZE
  omega

/-- The bytes of a pass lie in one block. -/
theorem div_mod_of_room (h : off % BSIZE + i < BSIZE) :
    (off + i) / BSIZE = off / BSIZE ∧ (off + i) % BSIZE = off % BSIZE + i := by
  unfold BSIZE at *
  omega

/-- Some bytes of a block of the file have been written. -/
theorem WroteBlock.splice (h : Held own f n) (hbn : n.blk (off / BSIZE) ≠ 0)
    (hroom : off % BSIZE + l.length ≤ BSIZE)
    (hw : WroteBlock n (off / BSIZE)
      (Bytes.splice (n.block (n.blk (off / BSIZE))) (off % BSIZE) l) n') :
    (∀ i (hi : i < l.length), n'.byte (off + i) = l[i]) ∧
      ∀ p, p < off ∨ off + l.length ≤ p → n'.byte p = n.byte p := by
  constructor
  · intro i hi
    obtain ⟨hdiv, hmod⟩ : (off + i) / BSIZE = off / BSIZE ∧ (off + i) % BSIZE = off % BSIZE + i :=
      div_mod_of_room (by omega)
    rw [hw.byte h hbn, hdiv, if_pos rfl, hmod, Bytes.splice_inside hi]
  · intro p hp
    rw [hw.byte h hbn]
    split
    next heq =>
      have houtside : p % BSIZE < off % BSIZE ∨ off % BSIZE + l.length ≤ p % BSIZE := by
        unfold BSIZE at *
        omega
      rw [Bytes.splice_outside houtside, Node.byte_eq, heq, if_neg hbn]
    next => rfl

/-- What the loop of `writei` has done when it returns `r`. -/
structure Written (own : Place → ι) (f : ι → UInt32) (src : Nat → Option UInt8)
    (tot off left : Nat) (n : Node) (r : Nat) (n' : Node) : Prop where
  held : ∃ f', Held own f' n' ∧ Quiet own f f' n n'
  header : n'.ip = { n.ip with addrs := n'.ip.addrs }
  blk : ∀ bn, n.blk bn ≠ 0 → n'.blk bn = n.blk bn
  ge : tot ≤ r
  le : r ≤ tot + left
  mapped : ∀ p, off ≤ p → p < off + (r - tot) → n'.blk (p / BSIZE) ≠ 0
  kept : ∀ p, p < off ∨ off + left ≤ p → n'.byte p = n.byte p
  wrote : ∀ i < r - tot, src (tot + i) = some (n'.byte (off + i))
  full : (∀ i < left, (src (tot + i)).isSome) → r = tot + left

theorem Written.nothing (h : Held own f n) : Written own f src tot off 0 n tot n :=
  ⟨⟨f, h, Quiet.refl⟩, rfl, fun _ _ => rfl, Nat.le_refl _, Nat.le_refl _,
    fun p hp hlt => by omega, fun _ _ => rfl, fun i hi => by omega, fun _ => rfl⟩

/-- A pass: a block is mapped and bytes that the source has are written to it. -/
structure Pass (own : Place → ι) (f : ι → UInt32) (src : Nat → Option UInt8)
    (tot off left : Nat) (n n' : Node) : Prop where
  held : ∃ f', Held own f' n' ∧ Quiet own f f' n n'
  header : n'.ip = { n.ip with addrs := n'.ip.addrs }
  blk : ∀ bn, n.blk bn ≠ 0 → n'.blk bn = n.blk bn
  mapped : n'.blk (off / BSIZE) ≠ 0
  kept : ∀ p, p < off ∨ off + left ≤ p → n'.byte p = n.byte p
  wrote : ∀ i < (readable src tot (chunk off left)).length, src (tot + i) = some (n'.byte (off + i))

theorem Mapped.pass (hmap : Mapped own f n (filePlace (off / BSIZE)) b n₁)
    (hlt : off / BSIZE < MAXFILE)
    (hw : WroteBlock n₁ (off / BSIZE)
      (Bytes.splice (n₁.block b) (off % BSIZE) (readable src tot (chunk off left))) n') :
    Pass own f src tot off left n n' := by
  obtain ⟨⟨f₁, h₁, hquiet₁⟩, hgrown, haddr, hne⟩ := hmap
  have hb : n₁.blk (off / BSIZE) = b := (Node.blk_eq hlt).trans haddr
  have hbn : n₁.blk (off / BSIZE) ≠ 0 := hb ▸ hne
  have hlength : (readable src tot (chunk off left)).length ≤ chunk off left := readable_length_le
  have hroom : off % BSIZE + chunk off left ≤ BSIZE := chunk_room
  have hchunk : chunk off left ≤ left := chunk_le
  rw [← hb] at hw
  obtain ⟨hinside, houtside⟩ := hw.splice h₁ hbn (by omega)
  refine ⟨⟨f₁, hw.held h₁ hbn, hquiet₁.trans (hw.quiet h₁ hbn)⟩, ?_, ?_, ?_, ?_, ?_⟩
  · rw [hw.ip]
    exact hgrown.header
  · intro bn hold
    rw [hw.blk h₁ hbn, hgrown.blk hold]
  · rw [hw.blk h₁ hbn]
    exact hbn
  · intro p hp
    rw [houtside p (by omega), hgrown.byte]
  · intro i hi
    rw [hinside i hi]
    exact readable_get hi

/-- The loop ends after a pass that has not moved all it should. -/
theorem Pass.short (hp : Pass own f src tot off left n n')
    (hshort : (readable src tot (chunk off left)).length < chunk off left) :
    Written own f src tot off left n tot n' where
  held := hp.held
  header := hp.header
  blk := hp.blk
  ge := Nat.le_refl _
  le := Nat.le_add_right _ _
  mapped := fun p hlow hhigh => by omega
  kept := hp.kept
  wrote := fun i hi => by omega
  full := by
    intro hall
    have hchunk : chunk off left ≤ left := chunk_le
    rw [readable_full fun i hi => hall i (by omega)] at hshort
    omega

/-- A pass and the rest of the loop. -/
theorem Pass.cons {r : Nat} {f₁ : ι → UInt32} (hp : Pass own f src tot off left n n₁)
    (hquiet : Quiet own f f₁ n n₁)
    (hlength : (readable src tot (chunk off left)).length = chunk off left)
    (hrest : Written own f₁ src (tot + chunk off left) (off + chunk off left)
      (left - chunk off left) n₁ r n') :
    Written own f src tot off left n r n' := by
  have hchunk : chunk off left ≤ left := chunk_le
  have hroom : off % BSIZE + chunk off left ≤ BSIZE := chunk_room
  have hge := hrest.ge
  have hle := hrest.le
  refine ⟨?_, ?_, ?_, by omega, by omega, ?_, ?_, ?_, ?_⟩
  · obtain ⟨f', h', hquiet'⟩ := hrest.held
    exact ⟨f', h', hquiet.trans hquiet'⟩
  · rw [hrest.header, hp.header]
  · intro bn hbn
    have hsame := hp.blk bn hbn
    rw [hrest.blk bn (hsame ▸ hbn), hsame]
  · intro p hlow hhigh
    by_cases hfirst : p < off + chunk off left
    · have hdiv : p / BSIZE = off / BSIZE := by
        obtain ⟨i, rfl⟩ := Nat.exists_eq_add_of_le hlow
        exact (div_mod_of_room (by omega)).1
      rw [hdiv, hrest.blk _ hp.mapped]
      exact hp.mapped
    · exact hrest.mapped p (by omega) (by omega)
  · intro p hout
    rw [hrest.kept p (by omega), hp.kept p hout]
  · intro i hi
    by_cases hfirst : i < chunk off left
    · rw [hrest.kept (off + i) (by omega)]
      exact hp.wrote i (by omega)
    · have hnext := hrest.wrote (i - chunk off left) (by omega)
      rwa [show tot + chunk off left + (i - chunk off left) = tot + i by omega,
        show off + chunk off left + (i - chunk off left) = off + i by omega] at hnext
  · intro hall
    have hsum := hrest.full fun i hi => by
      rw [Nat.add_assoc]
      exact hall _ (by omega)
    omega

variable [DecidableEq ι]

theorem Held.writeLoop (fuel : Nat) (h : Held own f n) (hfuel : left ≤ fuel) :
    Ends (writeLoop src fuel tot off left) n (Written own f src tot off left n) NoFreeing := by
  induction fuel generalizing f n tot off left with
  | zero =>
      obtain rfl : left = 0 := Nat.le_zero.mp hfuel
      exact Written.nothing h
  | succ fuel ih =>
      unfold Fs.writeLoop
      split
      next hzero =>
        subst hzero
        exact Written.nothing h
      next hmore =>
        refine (h.bmap (off / BSIZE)).bind fun b n₁ hn₁ => ?_
        obtain ⟨hlt, hmap⟩ := hn₁
        have hb : n₁.blk (off / BSIZE) = b := (Node.blk_eq hlt).trans hmap.addr
        rw [Ends.bind_iff, NodeM.disk_bread]
        dsimp only
        rw [Ends.bind_iff, NodeM.disk_store]
        split
        next hshort =>
          have hp : Pass own f src tot off left n ⟨n₁.toDisk.write b (Bytes.splice (n₁.block b)
              (off % BSIZE) (readable src tot (chunk off left))), n₁.ip⟩ :=
            hmap.pass hlt ⟨rfl, rfl, by rw [hb]; rfl⟩
          exact hp.short hshort
        next hlong =>
          rw [Ends.bind_iff, NodeM.disk_iff]
          refine logWrite_same.post fun _ u hu => ?_
          have hp : Pass own f src tot off left n ⟨u, n₁.ip⟩ :=
            hmap.pass hlt ⟨hu.sb, rfl, by rw [hb]; exact hu.block⟩
          obtain ⟨f₁, h₁, hquiet₁⟩ := hp.held
          have hlength : (readable src tot (chunk off left)).length = chunk off left :=
            Nat.le_antisymm readable_length_le (Nat.le_of_not_lt hlong)
          have hpos : 0 < chunk off left := chunk_pos hmore
          exact (ih h₁ (by omega)).post fun r n' hrest => hp.cons hquiet₁ hlength hrest

/-! ### The dinode on disk -/

/-- What `iupdate` has done. -/
structure Updated (inum : Nat) (n n' : Node) : Prop where
  sb : n'.sb = n.sb
  ip : n'.ip = n.ip
  block : n'.block = Function.update n.block (n.sb.IBLOCK inum)
    (Bytes.splice (n.block (n.sb.IBLOCK inum)) (Dinode.place inum) n.ip.bytes)

omit [DecidableEq ι]

theorem iupdate_updates {inum : Nat} :
    Ends (iupdate inum) n (fun _ n' => Updated inum n n') NoFreeing := by
  unfold iupdate
  rw [Ends.get_bind_iff]
  dsimp only
  rw [Ends.bind_iff, NodeM.disk_store, NodeM.disk_iff]
  exact logWrite_same.post fun _ t ht => ⟨ht.sb, rfl, ht.block⟩

namespace Updated

variable {inum : Nat}

theorem addr (hu : Updated inum n n') (h : Held own f n) (hinum : inum < n.sb.ninodes)
    (pl : Place) : n'.addr pl = n.addr pl := by
  cases pl with
  | inl k => simp only [Node.addr, addrOf, hu.ip]
  | inr j =>
      simp only [Node.addr, addrOf, hu.ip, hu.block]
      split
      · rfl
      next hind =>
        have hdata : n.sb.IsData (n.ip.addrs indirect) := h.isData_indirect hind
        rw [Function.update_of_ne (h.sound.layout.IBLOCK_ne hinum hdata).symm]

theorem held (hu : Updated inum n n') (h : Held own f n) (hinum : inum < n.sb.ninodes) :
    Held own f n' := by
  refine h.same hu.sb ?_ (hu.addr h hinum)
  intro m hm
  have hsame : (n.toDisk.write (n.sb.IBLOCK inum) (Bytes.splice (n.block (n.sb.IBLOCK inum))
      (Dinode.place inum) n.ip.bytes)).SameBlocks n'.toDisk := ⟨hu.sb, hu.block⟩
  rw [hsame.isFree]
  exact Disk.isFree_write h.sound.layout hm (h.sound.layout.IBLOCK_offBitmap hinum)

theorem apart (hu : Updated inum n n') (h : Held own f n) (hinum : inum < n.sb.ninodes) :
    Apart own f f n n' where
  sb := hu.sb
  others := fun _ _ => rfl
  block := by
    intro i _ hne
    rw [hu.block, Function.update_of_ne
      (h.sound.layout.IBLOCK_ne hinum (h.tenancy.inRoom hne)).symm]

theorem blk (hu : Updated inum n n') (h : Held own f n) (hinum : inum < n.sb.ninodes) (bn : Nat) :
    n'.blk bn = n.blk bn := Node.blk_congr (hu.addr h hinum _)

theorem byte (hu : Updated inum n n') (h : Held own f n) (hinum : inum < n.sb.ninodes) (p : Nat) :
    n'.byte p = n.byte p := by
  rw [Node.byte_eq, Node.byte_eq, hu.blk h hinum]
  split
  · rfl
  next hne =>
    have hdata : n.sb.IsData (n.blk (p / BSIZE)) := h.isData_blk hne
    rw [hu.block, Function.update_of_ne (h.sound.layout.IBLOCK_ne hinum hdata).symm]

/-- The dinode on disk is the copy. -/
theorem dinode_self (hu : Updated inum n n') : n'.toDisk.dinode inum = n'.ip := by
  unfold Disk.dinode
  rw [hu.sb, hu.block, Function.update_self, Dinode.ofBlock_splice, hu.ip]

/-- The others are what they were. -/
theorem dinode_other (hu : Updated inum n n') (h : n.sb.Sound) (hinum : inum < n.sb.ninodes)
    {j : Nat} (hj : j < n.sb.ninodes) (hne : j ≠ inum) :
    n'.toDisk.dinode j = n.toDisk.dinode j := by
  unfold Disk.dinode
  rw [hu.sb, hu.block]
  by_cases hblock : n.sb.IBLOCK j = n.sb.IBLOCK inum
  · have hdiv : j / IPB = inum / IPB := by
      have htoNat := congrArg UInt32.toNat hblock
      rw [h.IBLOCK_toNat hj, h.IBLOCK_toNat hinum] at htoNat
      exact Nat.add_right_cancel htoNat
    rw [hblock, Function.update_self]
    refine Dinode.ofBlock_splice_apart ?_
    rw [Dinode.bytes_length]
    exact Dinode.place_apart hne hdiv
  · rw [Function.update_of_ne hblock]

end Updated

/-! ### `writei` -/

/-- What `writei` has done when it has written `tot` bytes. -/
structure Wrote (own : Place → ι) (f : ι → UInt32) (inum : Nat) (src : Nat → Option UInt8)
    (off m : Nat) (n : Node) (tot : Nat) (n' : Node) : Prop where
  held : ∃ f', Held own f' n' ∧ Apart own f f' n n'
  start : off ≤ n.ip.size.toNat
  room : off + m ≤ MAXFILE * BSIZE
  header : n'.ip = { n.ip with addrs := n'.ip.addrs, size := n'.ip.size }
  size : n'.ip.size.toNat = max n.ip.size.toNat (off + tot)
  blk : ∀ bn, n.blk bn ≠ 0 → n'.blk bn = n.blk bn
  le : tot ≤ m
  mapped : ∀ p, off ≤ p → p < off + tot → n'.blk (p / BSIZE) ≠ 0
  kept : ∀ p, p < off ∨ off + m ≤ p → n'.byte p = n.byte p
  wrote : ∀ i < tot, src i = some (n'.byte (off + i))
  full : (∀ i < m, (src i).isSome) → tot = m
  dinode_self : n'.toDisk.dinode inum = n'.ip
  dinode_other : ∀ j < n.sb.ninodes, j ≠ inum → n'.toDisk.dinode j = n.toDisk.dinode j

/-- The dinode changes, but not in its block numbers. -/
theorem addr_setHeader (hdisk : n'.toDisk = n.toDisk) (haddrs : n'.ip.addrs = n.ip.addrs)
    (pl : Place) : n'.addr pl = n.addr pl := by
  cases pl with
  | inl k => simp only [Node.addr, addrOf, haddrs]
  | inr j => simp only [Node.addr, addrOf, haddrs, hdisk]

theorem Held.setHeader (h : Held own f n) (hdisk : n'.toDisk = n.toDisk)
    (haddrs : n'.ip.addrs = n.ip.addrs) : Held own f n' :=
  h.same (congrArg Disk.sb hdisk) (fun m _ => by rw [hdisk]) (addr_setHeader hdisk haddrs)

/-- The loop, the new size and `iupdate`. -/
theorem Written.update {inum tot : Nat} {n₁ n₂ : Node} (hw : Written own f src 0 off m n tot n₁)
    (hinum : inum < n.sb.ninodes) (hsound : n.sb.Sound) (hstart : off ≤ n.ip.size.toNat)
    (hroom : off + m ≤ MAXFILE * BSIZE) (hdisk : n₂.toDisk = n₁.toDisk)
    (hip : n₂.ip = { n₁.ip with size := n₂.ip.size })
    (hsize : n₂.ip.size.toNat = max n₁.ip.size.toNat (off + tot)) (hu : Updated inum n₂ n') :
    Wrote own f inum src off m n tot n' := by
  obtain ⟨f₁, h₁, hquiet⟩ := hw.held
  have haddrs : n₂.ip.addrs = n₁.ip.addrs := by rw [hip]
  have h₂ := h₁.setHeader hdisk haddrs
  have haddr := addr_setHeader hdisk haddrs
  have hsb₂ : n₂.sb = n.sb := (congrArg Disk.sb hdisk).trans hquiet.sb
  have hinum₂ : inum < n₂.sb.ninodes := hsb₂ ▸ hinum
  have hapart₂ : Apart own f₁ f₁ n₁ n₂ :=
    ⟨congrArg Disk.sb hdisk, fun _ _ => rfl, fun i _ _ => by rw [hdisk]⟩
  have hblk₂ : ∀ bn, n₂.blk bn = n₁.blk bn := fun _ => Node.blk_congr (haddr _)
  have hblk : ∀ bn, n'.blk bn = n₁.blk bn := fun bn => (hu.blk h₂ hinum₂ bn).trans (hblk₂ bn)
  have hbyte : ∀ p, n'.byte p = n₁.byte p := by
    intro p
    rw [hu.byte h₂ hinum₂, Node.byte_eq, hblk₂, Node.byte_eq, hdisk]
  have hle := hw.le
  refine ⟨⟨f₁, hu.held h₂ hinum₂, (hquiet.toApart.trans hapart₂).trans (hu.apart h₂ hinum₂)⟩,
    hstart, hroom, ?_, ?_, ?_, by omega, ?_, ?_, ?_, ?_, hu.dinode_self, ?_⟩
  · rw [hu.ip, hip, hw.header]
  · rw [hu.ip, hsize, hw.header]
  · intro bn hbn
    rw [hblk, hw.blk bn hbn]
  · intro p hlow hhigh
    rw [hblk]
    exact hw.mapped p hlow (by omega)
  · intro p hout
    rw [hbyte, hw.kept p hout]
  · intro i hi
    have hbytes := hw.wrote i (by omega)
    rwa [Nat.zero_add, ← hbyte] at hbytes
  · intro hall
    have hfull := hw.full fun i hi => by
      rw [Nat.zero_add]
      exact hall i hi
    omega
  · intro j hj hne
    rw [hu.dinode_other (hsb₂ ▸ hsound) hinum₂ (hsb₂ ▸ hj) hne, hdisk]
    exact hquiet.dinode hsound hj

/-- **`writei`**: it refuses, or it writes what the source has. -/
theorem Held.writei [DecidableEq ι] (h : Held own f n) {inum : Nat} (hinum : inum < n.sb.ninodes) :
    Ends (writei inum src off m) n (fun r n' => r = -1 ∧ n' = n ∨
      ∃ tot : Nat, r = tot ∧ Wrote own f inum src off m n tot n') NoFreeing := by
  unfold Fs.writei
  rw [Ends.get_bind_iff]
  split
  · exact Or.inl ⟨rfl, rfl⟩
  next hguard =>
    split
    · exact Or.inl ⟨rfl, rfl⟩
    next hroom =>
      have hstart : off ≤ n.ip.size.toNat := by
        by_contra hlt
        exact hguard (Or.inl (by omega))
      refine (h.writeLoop m (Nat.le_refl m)).bind fun tot n₁ hw => ?_
      rw [Ends.modify_bind_iff]
      have hle := hw.le
      have hfit : off + tot < 2 ^ 32 := by
        unfold MAXFILE NDIRECT NINDIRECT BSIZE at hroom
        omega
      refine iupdate_updates.bind fun _ n' hu => Or.inr ⟨tot, rfl, ?_⟩
      refine hw.update hinum h.sound.layout hstart (by omega) ?_ ?_ ?_ hu
      · split <;> rfl
      · split <;> rfl
      · split
        next hgrow =>
          dsimp only
          rw [UInt32.toNat_ofNat_of_lt' hfit]
          omega
        next hsmall => omega

/-! ### Truncation -/

variable [DecidableEq ι] {g : ι → UInt32} {t : Disk}

/-- A block is given back. -/
theorem Tenancy.freed {i : ι} {d : Disk} (h : Tenancy d.sb.IsData d.Used g) (hi : g i ≠ 0)
    (ht : d.Freed (g i) t) : Tenancy t.sb.IsData t.Used (Function.update g i 0) := by
  rw [show t.sb = d.sb from ht.sb]
  refine h.moveOut hi fun c hc => ?_
  unfold Disk.Used
  rw [ht.isFree c.toNat hc.2]
  simp [UInt32.toNat_inj]

theorem Disk.Sound.freed {d : Disk} (h : d.Sound) (hb : d.sb.IsData b) (ht : d.Freed b t) :
    t.Sound := by
  refine ⟨ht.sb ▸ h.layout, fun c hc => ?_⟩
  rw [show t.sb = d.sb from ht.sb] at hc
  have hsize : d.sb.dataStart ≤ d.sb.size := Nat.sub_le _ _
  rw [ht.isFree c (by omega), h.reserved c hc]
  have hne : c ≠ b.toNat := by
    have hdata := hb.1
    omega
  simp [hne]

/-- **A place of the dinode is emptied.** -/
theorem Held.drop (h : Held own f n) {k : Fin (NDIRECT + 1)} (hk : n.ip.addrs k ≠ 0)
    (ht : n.toDisk.Freed (n.ip.addrs k) t) (hdirect : k ≠ indirect) :
    Held own (Function.update f (own (.inl k)) 0) ((⟨t, n.ip⟩ : Node).setAddr k 0) ∧
      Quiet own f (Function.update f (own (.inl k)) 0) n ((⟨t, n.ip⟩ : Node).setAddr k 0) := by
  have hfk : f (own (.inl k)) = n.ip.addrs k := h.own_eq (.inl k)
  have hdata : n.sb.IsData (n.ip.addrs k) := (h.isData (show n.addr (.inl k) ≠ 0 from hk) :)
  have hblock : ∀ c, n.sb.OffBitmap c → t.block c = n.block c := ht.block
  refine ⟨⟨h.sound.freed hdata ht, ?_, h.own_inj, ?_⟩, ⟨ht.sb, ?_, ?_⟩, ?_⟩
  · exact Tenancy.freed h.tenancy (hfk ▸ hk) (hfk ▸ ht)
  · intro pl
    cases pl with
    | inl k' =>
        by_cases hkk : k' = k
        · subst hkk
          simp [Node.addr, addrOf, Node.setAddr]
        · have hne : own (.inl k') ≠ own (.inl k) := fun heq => hkk (Sum.inl.inj (h.own_inj heq))
          rw [Function.update_of_ne hne, h.own_eq]
          simp [Node.addr, addrOf, Node.setAddr, hkk]
    | inr j =>
        have hne : own (.inr j) ≠ own (.inl k) := fun heq => by cases h.own_inj heq
        rw [Function.update_of_ne hne, h.own_eq]
        simp only [Node.addr, addrOf, Node.setAddr, Function.update_of_ne hdirect.symm]
        split
        · rfl
        next hind =>
          have hsame : t.block (n.ip.addrs indirect) = n.block (n.ip.addrs indirect) :=
            hblock _ (h.isData_indirect hind).offBitmap
          rw [hsame]
  · intro i hi
    exact Function.update_of_ne (hi (.inl k)).symm 0 f
  · intro i hi hne
    exact hblock _ (h.tenancy.inRoom hne).offBitmap
  · intro c hc
    exact hblock c (Or.inl hc)

/-- What has been emptied of the dinode. -/
structure Emptied (own : Place → ι) (f : ι → UInt32) (n : Node) (rest : List (Fin NDIRECT))
    (n' : Node) : Prop where
  held : ∃ f', Held own f' n' ∧ Quiet own f f' n n'
  header : n'.ip = { n.ip with addrs := n'.ip.addrs }
  indirect : n'.ip.addrs indirect = n.ip.addrs indirect
  zero : ∀ k : Fin NDIRECT, k ∉ rest → n'.ip.addrs k.castSucc = 0

theorem castSucc_ne_indirect (k : Fin NDIRECT) : k.castSucc ≠ Fs.indirect := by
  intro heq
  have hval : k.val = NDIRECT := congrArg Fin.val heq
  omega

theorem Emptied.step {k : Fin NDIRECT} {rest : List (Fin NDIRECT)} {n₁ : Node}
    (h : Emptied own f n (k :: rest) n₁) :
    Ends (truncDirect k) n₁ (fun _ n' => Emptied own f n rest n') NoFreeing := by
  obtain ⟨⟨f₁, h₁, hquiet₁⟩, hheader, hind, hzero⟩ := h
  unfold truncDirect
  rw [Ends.get_bind_iff]
  split
  next hempty =>
    refine ⟨⟨f₁, h₁, hquiet₁⟩, hheader, hind, fun k' hk' => ?_⟩
    by_cases heq : k' = k
    · rw [heq]
      exact hempty
    · exact hzero k' (by simp [heq, hk'])
  next hne =>
    have hplace : n₁.addr (.inl k.castSucc) ≠ 0 := hne
    have hdata : n₁.sb.IsData (n₁.ip.addrs k.castSucc) := (h₁.isData hplace :)
    have hused : n₁.toDisk.Used (n₁.ip.addrs k.castSucc) := (h₁.used hplace :)
    rw [Ends.bind_iff, NodeM.disk_iff]
    refine (bfree_frees h₁.sound.layout hdata.2 hused).post
      fun _ t ht => ?_
    rw [Ends.modify_iff]
    obtain ⟨h₂, hquiet₂⟩ := h₁.drop hne ht (castSucc_ne_indirect k)
    refine ⟨⟨_, h₂, hquiet₁.trans hquiet₂⟩, ?_, ?_, fun k' hk' => ?_⟩
    · change ({ n₁.ip with addrs := Function.update n₁.ip.addrs k.castSucc 0 } : Dinode) =
        { n.ip with addrs := Function.update n₁.ip.addrs k.castSucc 0 }
      rw [hheader]
    · exact (Function.update_of_ne (castSucc_ne_indirect k).symm 0 n₁.ip.addrs).trans hind
    · by_cases heq : k' = k
      · rw [heq]
        exact Function.update_self k.castSucc 0 n₁.ip.addrs
      · have hne' : k'.castSucc ≠ k.castSucc := fun hcast => heq (Fin.castSucc_injective _ hcast)
        exact (Function.update_of_ne hne' 0 n₁.ip.addrs).trans (hzero k' (by simp [heq, hk']))

/-- While the entries of the indirect block are gone through: those not left have given
their blocks back, though the block still lists them. -/
structure Draining (own : Place → ι) (f : ι → UInt32) (n : Node) (rest : List Nat) (d : Disk) :
    Prop where
  sound : d.Sound
  sb : d.sb = n.sb
  tenants : ∃ g, Tenancy d.sb.IsData d.Used g ∧ (∀ i, (∀ pl, own pl ≠ i) → g i = f i) ∧
    (∀ k, g (own (.inl k)) = n.addr (.inl k)) ∧
    ∀ j, g (own (.inr j)) = if j.val ∈ rest then n.addr (.inr j) else 0
  block : ∀ c, n.sb.OffBitmap c → d.block c = n.block c

theorem Draining.step (h : Held own f n) (hind : n.ip.addrs indirect ≠ 0) {j : Nat}
    (hj : j < NINDIRECT) {rest : List Nat} (hnotin : j ∉ rest) {d : Disk}
    (hd : Draining own f n (j :: rest) d) :
    Ends (truncEntry (n.ip.addrs indirect) j) d (fun _ t => Draining own f n rest t)
      NoFreeing := by
  obtain ⟨hsound, hsb, ⟨g, hg, hothers, hdirect, hentries⟩, hblock⟩ := hd
  have hinddata : n.sb.IsData (n.ip.addrs indirect) := h.isData_indirect hind
  have hlisted : entry (d.block (n.ip.addrs indirect)) j = n.addr (.inr ⟨j, hj⟩) := by
    rw [hblock _ hinddata.offBitmap, Node.addr, addrOf, if_neg hind]
  have hgj : g (own (.inr ⟨j, hj⟩)) = n.addr (.inr ⟨j, hj⟩) := by
    rw [hentries, if_pos List.mem_cons_self]
  have hne : ∀ j' : Fin NINDIRECT, j' ≠ ⟨j, hj⟩ → (j'.val ∈ j :: rest ↔ j'.val ∈ rest) := by
    intro j' hj'
    have hval : j'.val ≠ j := fun heq => hj' (Fin.ext heq)
    simp [hval]
  unfold truncEntry
  change Ends (if entry (d.block (n.ip.addrs indirect)) j = 0 then pure ()
    else bfree (entry (d.block (n.ip.addrs indirect)) j)) d _ _
  rw [hlisted]
  split
  next hzero =>
    refine ⟨hsound, hsb, ⟨g, hg, hothers, hdirect, fun j' => ?_⟩, hblock⟩
    by_cases heq : j' = ⟨j, hj⟩
    · subst heq
      rw [if_neg hnotin, hgj, hzero]
    · rw [hentries, if_congr (hne j' heq) rfl rfl]
  next hnonzero =>
    rw [← hgj] at hnonzero ⊢
    have hdata := hg.inRoom hnonzero
    refine (bfree_frees hsound.layout hdata.2 (hg.lives hnonzero)).post fun _ t ht => ?_
    refine ⟨hsound.freed hdata ht, ht.sb.trans hsb,
      ⟨_, Tenancy.freed hg hnonzero ht, ?_, ?_, ?_⟩, ?_⟩
    · intro i hi
      rw [Function.update_of_ne (hi _).symm]
      exact hothers i hi
    · intro k
      rw [Function.update_of_ne fun heq => by cases h.own_inj heq]
      exact hdirect k
    · intro j'
      by_cases heq : j' = ⟨j, hj⟩
      · subst heq
        rw [Function.update_self, if_neg hnotin]
      · rw [Function.update_of_ne fun hown => heq (Sum.inr.inj (h.own_inj hown)), hentries,
          if_congr (hne j' heq) rfl rfl]
    · intro c hc
      rw [ht.block c (hsb ▸ hc), hblock c hc]

/-- The loop over the entries. -/
theorem Held.drained (h : Held own f n) (hind : n.ip.addrs indirect ≠ 0) :
    Ends ((List.range NINDIRECT).forM (truncEntry (n.ip.addrs indirect))) n.toDisk
      (fun _ d => Draining own f n [] d) NoFreeing := by
  let I : List Nat → Disk → Prop := fun rest d => Draining own f n rest d ∧ rest.Nodup ∧
    ∀ j ∈ rest, j < NINDIRECT
  have hstart : I (List.range NINDIRECT) n.toDisk := by
    refine ⟨⟨h.sound, rfl, ⟨f, h.tenancy, fun _ _ => rfl, fun _ => h.own_eq _, fun j => ?_⟩,
      fun _ _ => rfl⟩, List.nodup_range, fun j hj => List.mem_range.mp hj⟩
    rw [if_pos (List.mem_range.mpr j.isLt)]
    exact h.own_eq _
  refine (Ends.forM hstart ?_).post fun _ d hd => hd.1
  intro j rest d hd
  obtain ⟨hdrain, hnodup, hlt⟩ := hd
  obtain ⟨hnotin, hnodup⟩ := List.nodup_cons.mp hnodup
  exact (hdrain.step h hind (hlt j List.mem_cons_self) hnotin).post fun _ t ht =>
    ⟨ht, hnodup, fun j' hj' => hlt j' (List.mem_cons_of_mem j hj')⟩

omit [DecidableEq ι] in
/-- The indirect block is still in use. -/
theorem Draining.indirect_used (hind : n.ip.addrs indirect ≠ 0)
    {rest : List Nat} {d : Disk} (hd : Draining own f n rest d) :
    d.Used (n.ip.addrs indirect) ∧ d.sb.IsData (n.ip.addrs indirect) := by
  obtain ⟨-, -, ⟨g, hg, -, hdirect, -⟩, -⟩ := hd
  have hgind : g (own (.inl indirect)) = n.ip.addrs indirect := hdirect indirect
  rw [← hgind] at hind ⊢
  exact ⟨hg.lives hind, hg.inRoom hind⟩

/-- All places are empty in the end. -/
theorem Draining.done (h : Held own f n) (hind : n.ip.addrs indirect ≠ 0) {d : Disk}
    (hd : Draining own f n [] d)
    (ht : d.Freed (n.ip.addrs indirect) t) :
    ∃ f', Held own f' ((⟨t, n.ip⟩ : Node).setAddr indirect 0) ∧
      Quiet own f f' n ((⟨t, n.ip⟩ : Node).setAddr indirect 0) := by
  obtain ⟨hsound, hsb, ⟨g, hg, hothers, hdirect, hentries⟩, hblock⟩ := hd
  have hgind : g (own (.inl indirect)) = n.ip.addrs indirect := hdirect indirect
  have hdata : d.sb.IsData (n.ip.addrs indirect) := by
    rw [hsb]
    exact h.isData_indirect hind
  have htblock : ∀ c, n.sb.OffBitmap c → t.block c = n.block c := fun c hc =>
    (ht.block c (hsb ▸ hc)).trans (hblock c hc)
  refine ⟨Function.update g (own (.inl indirect)) 0,
    ⟨hsound.freed hdata ht, Tenancy.freed hg (hgind ▸ hind) (hgind ▸ ht), h.own_inj, ?_⟩,
    ⟨ht.sb.trans hsb, ?_, ?_⟩, ?_⟩
  · intro pl
    cases pl with
    | inl k =>
        by_cases hk : k = indirect
        · subst hk
          simp [Node.addr, addrOf, Node.setAddr]
        · have hne : own (.inl k) ≠ own (.inl indirect) :=
            fun heq => hk (Sum.inl.inj (h.own_inj heq))
          rw [Function.update_of_ne hne, hdirect]
          simp [Node.addr, addrOf, Node.setAddr, hk]
    | inr j =>
        have hne : own (.inr j) ≠ own (.inl indirect) := fun heq => by cases h.own_inj heq
        rw [Function.update_of_ne hne, hentries, if_neg List.not_mem_nil]
        simp [Node.addr, addrOf, Node.setAddr]
  · intro i hi
    rw [Function.update_of_ne (hi _).symm]
    exact hothers i hi
  · intro i _ hne
    exact htblock _ (h.tenancy.inRoom hne).offBitmap
  · intro c hc
    exact htblock c (Or.inl hc)

/-- What `itrunc` has done. -/
structure Truncated (own : Place → ι) (f : ι → UInt32) (inum : Nat) (n n' : Node) : Prop where
  held : ∃ f', Held own f' n' ∧ Apart own f f' n n'
  header : n'.ip = { n.ip with addrs := fun _ => 0, size := 0 }
  dinode_self : n'.toDisk.dinode inum = n'.ip
  dinode_other : ∀ j < n.sb.ninodes, j ≠ inum → n'.toDisk.dinode j = n.toDisk.dinode j

theorem addrs_zero {dip : Dinode} (hzero : ∀ k : Fin NDIRECT, dip.addrs k.castSucc = 0)
    (hind : dip.addrs indirect = 0) : dip.addrs = fun _ => 0 := by
  funext k
  by_cases hk : k.val < NDIRECT
  · exact hzero ⟨k.val, hk⟩
  · have heq : k = indirect := Fin.ext (by have hlt := k.isLt; change k.val = NDIRECT; omega)
    rw [heq]
    exact hind

omit [DecidableEq ι] in
/-- The end of `itrunc`. -/
theorem Held.truncated {n₁ n₂ : Node} {f₁ : ι → UInt32} {inum : Nat} (h₁ : Held own f₁ n₁)
    (hquiet : Quiet own f f₁ n n₁) (hheader : n₁.ip = { n.ip with addrs := n₁.ip.addrs })
    (hzero : n₁.ip.addrs = fun _ => 0) (hsound : n.sb.Sound) (hinum : inum < n.sb.ninodes)
    (hu : Updated inum ({ n₁ with ip := { n₁.ip with size := 0 } }) n₂) :
    Truncated own f inum n n₂ := by
  have h₂ : Held own f₁ { n₁ with ip := { n₁.ip with size := 0 } } := h₁.setHeader rfl rfl
  have hsb : n₁.sb = n.sb := hquiet.sb
  have hinum₁ : inum < n₁.sb.ninodes := hsb ▸ hinum
  have hapart : Apart own f₁ f₁ n₁ { n₁ with ip := { n₁.ip with size := 0 } } :=
    ⟨rfl, fun _ _ => rfl, fun _ _ _ => rfl⟩
  refine ⟨⟨f₁, hu.held h₂ hinum₁, (hquiet.toApart.trans hapart).trans (hu.apart h₂ hinum₁)⟩, ?_,
    hu.dinode_self, ?_⟩
  · rw [hu.ip]
    dsimp only
    rw [hheader, hzero]
  · intro j hj hne
    rw [hu.dinode_other (hsb ▸ hsound) hinum₁ (hsb ▸ hj) hne]
    exact hquiet.dinode hsound hj

/-- **`itrunc`** gives back every block of the inode, and none that is free. -/
theorem Held.itrunc (h : Held own f n) {inum : Nat} (hinum : inum < n.sb.ninodes) :
    Ends (itrunc inum) n (fun _ n' => Truncated own f inum n n') NoFreeing := by
  have hstart : Emptied own f n (List.finRange NDIRECT) n :=
    ⟨⟨f, h, Quiet.refl⟩, rfl, rfl, fun k hk => absurd (List.mem_finRange k) hk⟩
  unfold Fs.itrunc
  refine (Ends.forM hstart fun k rest n₁ hn₁ => hn₁.step).bind fun _ n₁ hn₁ => ?_
  obtain ⟨⟨f₁, h₁, hquiet₁⟩, hheader₁, hind₁, hzero₁⟩ := hn₁
  have hdirect : ∀ k : Fin NDIRECT, n₁.ip.addrs k.castSucc = 0 :=
    fun k => hzero₁ k List.not_mem_nil
  rw [Ends.get_bind_iff]
  split
  next hind =>
    rw [Ends.modify_bind_iff]
    exact iupdate_updates.post fun _ n₂ hn₂ =>
      h₁.truncated hquiet₁ hheader₁ (addrs_zero hdirect hind) h.sound.layout hinum hn₂
  next hind =>
    dsimp only
    rw [Ends.bind_iff, NodeM.disk_iff]
    refine (h₁.drained hind).post fun _ d hd => ?_
    obtain ⟨hused, hdata⟩ := hd.indirect_used hind
    rw [Ends.bind_iff, NodeM.disk_iff]
    refine (bfree_frees hd.sound.layout hdata.2 hused).post fun _ t ht => ?_
    obtain ⟨f₂, h₂, hquiet₂⟩ := hd.done h₁ hind ht
    rw [Ends.modify_bind_iff, Ends.modify_bind_iff]
    refine iupdate_updates.post fun _ n₂ hn₂ =>
      h₂.truncated (hquiet₁.trans hquiet₂) ?_ ?_ h.sound.layout hinum hn₂
    · change ({ n₁.ip with addrs := Function.update n₁.ip.addrs indirect 0 } : Dinode) =
        { n.ip with addrs := Function.update n₁.ip.addrs indirect 0 }
      rw [hheader₁]
    · have hdirect' : ∀ k : Fin NDIRECT,
          ({ n₁.ip with addrs := Function.update n₁.ip.addrs indirect 0 } : Dinode).addrs
            k.castSucc = 0 := by
        intro k
        exact (Function.update_of_ne (castSucc_ne_indirect k) 0 n₁.ip.addrs).trans (hdirect k)
      exact addrs_zero hdirect' (Function.update_self indirect 0 n₁.ip.addrs)

/-- What is left of an inode that has been freed. -/
structure Cleared (own : Place → ι) (f : ι → UInt32) (inum : Nat) (n n' : Node) : Prop where
  held : ∃ f', Held own f' n' ∧ Apart own f f' n n'
  header : n'.ip = { n.ip with type := 0, addrs := fun _ => 0, size := 0 }
  dinode_self : n'.toDisk.dinode inum = n'.ip
  dinode_other : ∀ j < n.sb.ninodes, j ≠ inum → n'.toDisk.dinode j = n.toDisk.dinode j

/-- The work of `iput` on an inode without links. -/
theorem Held.clear (h : Held own f n) {inum : Nat} (hinum : inum < n.sb.ninodes) :
    Ends (do
      Fs.itrunc inum
      modify fun s : Node => { s with ip := { s.ip with type := 0 } }
      iupdate inum) n (fun _ n' => Cleared own f inum n n') NoFreeing := by
  refine (h.itrunc hinum).bind fun _ n₁ ht => ?_
  obtain ⟨⟨f₁, h₁, hapart⟩, hheader, -, hother⟩ := ht
  rw [Ends.modify_bind_iff]
  have h₂ : Held own f₁ { n₁ with ip := { n₁.ip with type := 0 } } := h₁.setHeader rfl rfl
  have hinum₁ : inum < n₁.sb.ninodes := hapart.sb ▸ hinum
  have hsound₁ : n₁.sb.Sound := hapart.sb ▸ h.sound.layout
  have hapart₂ : Apart own f₁ f₁ n₁ { n₁ with ip := { n₁.ip with type := 0 } } :=
    ⟨rfl, fun _ _ => rfl, fun _ _ _ => rfl⟩
  refine iupdate_updates.post fun _ n' hu => ⟨⟨f₁, hu.held h₂ hinum₁,
    (hapart.trans hapart₂).trans (hu.apart h₂ hinum₁)⟩, ?_, hu.dinode_self, ?_⟩
  · rw [hu.ip]
    dsimp only
    rw [hheader]
  · intro j hj hne
    rw [hu.dinode_other hsound₁ hinum₁ (hapart.sb ▸ hj) hne]
    exact hother j hj hne

omit [DecidableEq ι] in
theorem Cleared.addr {inum : Nat} (h : Cleared own f inum n n') (pl : Place) : n'.addr pl = 0 := by
  cases pl with
  | inl k => simp only [Node.addr, addrOf, h.header]
  | inr j => simp only [Node.addr, addrOf, h.header, if_true]

end Fs
