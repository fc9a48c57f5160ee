import OSN.Fs.Mkfs
import OSN.Fs.Ownership
import OSN.Fs.Reading

/-!
# The image that `mkfs` builds

At any time the image is a disk whose bitmap would mark the blocks that have been given
out (`Image.disk`).  So what `mkfs` does to an inode is what the kernel would do, and is
described in the same terms; `mkfs` writes the bitmap when it is done.
-/

namespace Fs

open Mkfs

/-! ### The bitmap -/

theorem bit_bitmap {used i : Nat} : Bytes.bit (bitmap used) i = decide (i < used) := by
  induction used with
  | zero => simp [bitmap, Bytes.bit_zeros]
  | succ used ih =>
      have hstep : bitmap (used + 1) = Bytes.setBit (bitmap used) used := by
        unfold bitmap
        rw [List.range_succ, List.foldl_append]
        rfl
      rw [hstep, Bytes.bit_setBit, ih]
      by_cases heq : used = i
      · simp [heq]
      · rw [if_neg heq]
        refine decide_eq_decide.mpr ?_
        omega

/-- The sector of the bitmap. -/
def bmapSector : UInt32 := UInt32.ofNat mkfsSb.bmapstart

theorem mkfsSb_BBLOCK {b : Nat} (hb : b < FSSIZE) : mkfsSb.BBLOCK b = bmapSector := by
  have hdiv : b / BPB = 0 := by
    unfold FSSIZE at hb
    unfold BPB BSIZE
    omega
  unfold Superblock.BBLOCK bmapSector
  rw [hdiv, Nat.zero_add]

theorem mkfsSb_sound : mkfsSb.Sound := by
  have hbmap : mkfsSb.bmapstart = 45 := by decide
  have hinode : mkfsSb.inodestart = 32 := by decide
  have hdata : mkfsSb.dataStart = 46 := by decide
  refine ⟨?_, ?_, by decide, by decide⟩
  · intro i hi
    rw [hbmap, hinode]
    change i < 200 at hi
    unfold IPB BSIZE DINODESIZE
    omega
  · intro b hb
    rw [hbmap, hdata]
    change b < 1000 at hb
    unfold BPB BSIZE
    omega

theorem mkfsSb_dataStart : mkfsSb.dataStart = nmeta := by decide

theorem mkfsSb_IBLOCK_lt {inum : Nat} (hinum : inum < NINODES) :
    (mkfsSb.IBLOCK inum).toNat < FSSIZE := by
  have hlt := mkfsSb_sound.IBLOCK_lt hinum
  have hbmap : mkfsSb.bmapstart = 45 := by decide
  rw [hbmap] at hlt
  unfold FSSIZE
  omega

theorem mkfsSb_IBLOCK_ne {inum : Nat} (hinum : inum < NINODES) :
    mkfsSb.IBLOCK inum ≠ bmapSector := by
  intro heq
  have hlt := mkfsSb_sound.IBLOCK_lt hinum
  rw [heq] at hlt
  exact absurd hlt (by decide)

theorem isData_ne {b : UInt32} (hb : mkfsSb.IsData b) : b ≠ bmapSector := by
  rintro rfl
  exact absurd hb.1 (by decide)

/-! ### The image as a disk -/

namespace Image

/-- The disk with the bitmap that `mkfs` would write now. -/
def disk (m : Image) : Disk where
  sb := mkfsSb
  block := Function.update m.block bmapSector (bitmap m.freeblock)
  outstanding := 0
  lh := []
  committed := []

/-- With the inode at hand. -/
def node (m : Image) (din : Dinode) : Node := ⟨m.disk, din⟩

/-- The blocks that have been given out are data blocks, the others are filled with
zeros, and the superblock is there. -/
structure Ok (m : Image) : Prop where
  start : nmeta ≤ m.freeblock
  room : m.freeblock ≤ FSSIZE
  fresh : ∀ c : UInt32, m.freeblock ≤ c.toNat → m.block c = fun _ => 0
  super : m.block 1 = blank.block 1

variable {m : Image} {b c : UInt32} {data : Block} {inum : Nat}

theorem disk_block (hc : c ≠ bmapSector) : m.disk.block c = m.block c :=
  Function.update_of_ne hc _ _

theorem isFree_disk (hb : inum < FSSIZE) : m.disk.isFree inum = decide (m.freeblock ≤ inum) := by
  have hmod : inum % BPB = inum := by
    refine Nat.mod_eq_of_lt ?_
    unfold FSSIZE at hb
    unfold BPB BSIZE
    omega
  unfold Disk.isFree
  rw [show m.disk.sb = mkfsSb from rfl, mkfsSb_BBLOCK hb, hmod,
    show m.disk.block bmapSector = bitmap m.freeblock by simp [disk], bit_bitmap, ← decide_not]
  exact decide_eq_decide.mpr Nat.not_lt

theorem used_iff (hb : mkfsSb.IsData b) : m.disk.Used b ↔ b.toNat < m.freeblock := by
  unfold Disk.Used
  rw [isFree_disk hb.2]
  simp

theorem Ok.sound (h : m.Ok) : m.disk.Sound := by
  refine ⟨mkfsSb_sound, fun b hb => ?_⟩
  change b < mkfsSb.dataStart at hb
  rw [mkfsSb_dataStart] at hb
  have hstart := h.start
  have hroom := h.room
  rw [isFree_disk (by omega)]
  simp only [decide_eq_false_iff_not]
  omega

/-- The image with a sector written. -/
def put (m : Image) (b : UInt32) (data : Block) : Image :=
  { m with block := Function.update m.block b data }

theorem put_disk (hb : b ≠ bmapSector) : (m.put b data).disk = m.disk.write b data := by
  unfold disk put Disk.write
  rw [Function.update_comm hb]

/-- **The next block is given out.** -/
theorem Ok.next (h : m.Ok) (hroom : m.freeblock < FSSIZE) :
    m.disk.Allocated (UInt32.ofNat m.freeblock) { m with freeblock := m.freeblock + 1 }.disk ∧
      ({ m with freeblock := m.freeblock + 1 } : Image).Ok := by
  have hstart := h.start
  have htoNat : (UInt32.ofNat m.freeblock).toNat = m.freeblock := by
    refine UInt32.toNat_ofNat_of_lt' ?_
    unfold FSSIZE at hroom
    unfold UInt32.size
    omega
  have hdata : mkfsSb.IsData (UInt32.ofNat m.freeblock) := by
    unfold Superblock.IsData
    rw [htoNat, mkfsSb_dataStart]
    exact ⟨hstart, hroom⟩
  refine ⟨⟨hdata, ?_, rfl, ?_, ?_, ?_⟩, by dsimp only; omega, by dsimp only; omega, ?_, h.super⟩
  · rw [used_iff hdata, htoNat]
    omega
  · intro b hb
    change b < FSSIZE at hb
    rw [isFree_disk hb, isFree_disk hb, htoNat, ← Bool.decide_and]
    refine decide_eq_decide.mpr ?_
    dsimp only
    omega
  · rw [disk_block (isData_ne hdata)]
    exact h.fresh _ (Nat.le_of_eq htoNat.symm)
  · intro c _ hoff
    have hc : c ≠ bmapSector := by
      rintro rfl
      rcases hoff with hlow | hhigh
      · exact absurd hlow (by decide : ¬ bmapSector.toNat < mkfsSb.bmapstart)
      · exact absurd hhigh (by decide : ¬ mkfsSb.dataStart ≤ bmapSector.toNat)
    rw [disk_block hc, disk_block hc]
  · intro c hc
    dsimp only at hc
    exact h.fresh c (by omega)

/-- A used data block is written. -/
theorem Ok.write (h : m.Ok) (hb : mkfsSb.IsData b) (hused : m.disk.Used b) :
    (m.put b data).Ok := by
  rw [used_iff hb] at hused
  refine ⟨h.start, h.room, ?_, ?_⟩
  · intro c hc
    have hne : c ≠ b := by
      rintro rfl
      exact Nat.lt_irrefl _ (Nat.lt_of_lt_of_le hused hc)
    exact (Function.update_of_ne hne _ _).trans (h.fresh c hc)
  · have hne : (1 : UInt32) ≠ b := by
      rintro rfl
      exact absurd hb.1 (by decide)
    exact (Function.update_of_ne hne _ _).trans h.super

/-- An inode block is written. -/
theorem Ok.writeInode (h : m.Ok) (hinum : inum < NINODES) :
    (m.put (mkfsSb.IBLOCK inum) data).Ok := by
  have hlt : (mkfsSb.IBLOCK inum).toNat < mkfsSb.bmapstart := mkfsSb_sound.IBLOCK_lt hinum
  have hnat := mkfsSb_sound.IBLOCK_toNat hinum
  have hbmap : mkfsSb.bmapstart < nmeta := by decide
  have hstart := h.start
  refine ⟨h.start, h.room, ?_, ?_⟩
  · intro c hc
    have hge : m.freeblock ≤ c.toNat := hc
    have hne : c ≠ mkfsSb.IBLOCK inum := by
      rintro rfl
      exact absurd hge (Nat.not_le.mpr (Nat.lt_of_lt_of_le (Nat.lt_trans hlt hbmap) hstart))
    exact (Function.update_of_ne hne _ _).trans (h.fresh c hc)
  · have hne : (1 : UInt32) ≠ mkfsSb.IBLOCK inum := by
      intro heq
      have hinode : 1 < mkfsSb.inodestart := by decide
      have hone : (mkfsSb.IBLOCK inum).toNat = 1 := congrArg UInt32.toNat heq.symm
      generalize inum / IPB = q at hnat
      omega
    exact (Function.update_of_ne hne _ _).trans h.super

theorem dinode_eq (hinum : inum < NINODES) :
    m.disk.dinode inum = .ofBlock (m.block (mkfsSb.IBLOCK inum)) (Dinode.place inum) :=
  congrArg (fun data => Dinode.ofBlock data (Dinode.place inum))
    (disk_block (mkfsSb_IBLOCK_ne hinum))

end Image

/-! ### Blocks of a file -/

/-- Code of `mkfs` that fails no assertion. -/
abbrev Succeeds {α : Type} (x : MkfsM α) (m : Image) (Q : α → Image → Prop) : Prop :=
  Ends x m Q fun _ _ => False

/-- Code of `mkfs` that fails only for want of room. -/
abbrev InRoom {α : Type} (room : Prop) (x : MkfsM α) (m : Image) (Q : α → Image → Prop) : Prop :=
  Ends x m Q fun _ _ => ¬ room

theorem Succeeds.inRoom {α : Type} {room : Prop} {x : MkfsM α} {m : Image}
    {Q : α → Image → Prop} (h : Succeeds x m Q) : InRoom room x m Q :=
  h.mono (fun _ _ hq => hq) fun _ _ hf => hf.elim

/-- More room is needed for it. -/
theorem InRoom.weaken {α : Type} {room room' : Prop} {x : MkfsM α} {m : Image}
    {Q : α → Image → Prop} (h : InRoom room x m Q) (hroom : room' → room) : InRoom room' x m Q :=
  h.mono (fun _ _ hq => hq) fun _ _ hno => mt hroom hno

/-- At most so many blocks have been given out. -/
structure Spends (k : Nat) (m m' : Image) : Prop where
  ok : m'.Ok
  freeinode : m'.freeinode = m.freeinode
  freeblock : m'.freeblock ≤ m.freeblock + k

theorem Spends.trans {k l : Nat} {m m' m'' : Image} (h : Spends k m m') (h' : Spends l m' m'') :
    Spends (k + l) m m'' where
  ok := h'.ok
  freeinode := h'.freeinode.trans h.freeinode
  freeblock := by
    have hle := h.freeblock
    have hle' := h'.freeblock
    omega

theorem Spends.mono {k l : Nat} {m m' : Image} (h : Spends k m m') (hle : k ≤ l) : Spends l m m' :=
  ⟨h.ok, h.freeinode, Nat.le_trans h.freeblock (Nat.add_le_add_left hle _)⟩

theorem rsect_iff {m : Image} {sec : UInt32} {Q : Block → Image → Prop} {E : String → Image → Prop}
    (hsec : sec.toNat < FSSIZE) : Ends (rsect sec) m Q E ↔ Q (m.block sec) m := by
  unfold rsect
  rw [Ends.get_bind_iff, if_pos hsec, Ends.pure_iff]

theorem wsect_iff {m : Image} {sec : UInt32} {buf : Block} {Q : Unit → Image → Prop}
    {E : String → Image → Prop} : Ends (wsect sec buf) m Q E ↔ Q ⟨⟩ (m.put sec buf) := Iff.rfl

/-- **`freeblock++`.** -/
theorem nextBlock_gives {m : Image} (hm : m.Ok) (hroom : m.freeblock < FSSIZE) :
    Succeeds nextBlock m fun x m' =>
      m'.block = m.block ∧ m.disk.Allocated x m'.disk ∧ Spends 1 m m' := by
  obtain ⟨halloc, hm'⟩ := hm.next hroom
  exact ⟨rfl, halloc, hm', rfl, Nat.le_refl _⟩

section

variable {ι : Type} [DecidableEq ι] {own : Place → ι} {f : ι → UInt32} {m : Image} {din : Dinode}
  {b : UInt32} {data : Block}

/-- An address of the inode, given out if it is missing. -/
theorem addrOrNext_maps {k : Fin (NDIRECT + 1)} (hm : m.Ok) (h : Held own f (m.node din))
    (hroom : din.addrs k = 0 → m.freeblock < FSSIZE) :
    Succeeds (addrOrNext din k) m fun din' m' =>
      Spends (if din.addrs k = 0 then 1 else 0) m m' ∧
        Mapped own f (m.node din) (.inl k) (din'.addrs k) (m'.node din') := by
  unfold addrOrNext
  split
  next hzero =>
    refine (nextBlock_gives hm (hroom hzero)).bind fun x m' hx => ?_
    obtain ⟨-, halloc, hspent⟩ := hx
    rw [Ends.pure_iff]
    refine ⟨hspent, ?_⟩
    dsimp only
    rw [Function.update_self]
    exact h.giveAddr hzero halloc
  next hne => exact ⟨⟨hm, rfl, Nat.le_refl _⟩, ⟨f, h, Quiet.refl⟩, Grown.refl, rfl, hne⟩

/-- The blocks that a block of a file costs. -/
def blockCost (n : Node) (fbn : Nat) : Nat :=
  (if n.blk fbn = 0 then 1 else 0) + if NDIRECT ≤ fbn ∧ n.ip.addrs indirect = 0 then 1 else 0

/-- The part of the block numbers in the indirect block. -/
theorem entryOrNext_maps {fbn : Nat} (hm : m.Ok) (h : Held own f (m.node din))
    (hj : fbn < NINDIRECT) (hind : din.addrs indirect ≠ 0)
    (hroom : (m.node din).addr (.inr ⟨fbn, hj⟩) = 0 → m.freeblock < FSSIZE) :
    Succeeds (do
      let a ← rsect (din.addrs indirect)
      if entry a fbn = 0 then
        let x ← nextBlock
        wsect (din.addrs indirect) (setEntry a fbn x)
        return (x, din)
      else return (entry a fbn, din)) m fun r m' =>
        Spends (if (m.node din).addr (.inr ⟨fbn, hj⟩) = 0 then 1 else 0) m m' ∧
          Mapped own f (m.node din) (.inr ⟨fbn, hj⟩) r.1 (m'.node r.2) := by
  have hplace : (m.node din).addr (.inl indirect) ≠ 0 := hind
  have hdata : mkfsSb.IsData (din.addrs indirect) := h.isData_indirect hind
  have hblock : m.disk.block (din.addrs indirect) = m.block (din.addrs indirect) :=
    Image.disk_block (isData_ne hdata)
  have hentry : (m.node din).addr (.inr ⟨fbn, hj⟩) =
      entry (m.disk.block (din.addrs indirect)) fbn := if_neg hind
  rw [Succeeds, Ends.bind_iff, rsect_iff hdata.2, ← hblock, ← hentry]
  split
  next hzero =>
    refine (nextBlock_gives hm (hroom hzero)).bind fun x m' hx => ?_
    obtain ⟨hsame, halloc, hspent⟩ := hx
    rw [Ends.bind_iff, wsect_iff, Ends.pure_iff]
    have hused : m'.disk.Used (din.addrs indirect) := by
      have hbefore : m.disk.Used (din.addrs indirect) := (h.used hplace :)
      rw [Image.used_iff hdata] at hbefore ⊢
      have hmore := halloc.isFree (din.addrs indirect).toNat hdata.2
      rw [Image.isFree_disk hdata.2, Image.isFree_disk hdata.2] at hmore
      by_contra hnot
      rw [decide_eq_true (Nat.le_of_not_lt hnot), decide_eq_false (by omega)] at hmore
      cases hmore
    refine ⟨⟨hspent.ok.write hdata hused, hspent.freeinode, hspent.freeblock⟩, ?_⟩
    refine h.giveEntry ⟨fbn, hj⟩ hind (hentry ▸ hzero) halloc rfl ?_
    rw [Image.put_disk (isData_ne hdata)]
    have hkept : m'.disk.block (din.addrs indirect) = m.disk.block (din.addrs indirect) := by
      rw [Image.disk_block (isData_ne hdata), hsame, hblock]
    rw [← hkept]
    rfl
  next hne => exact ⟨⟨hm, rfl, Nat.le_refl _⟩, ⟨f, h, Quiet.refl⟩, Grown.refl, rfl, hne⟩

section

variable {fbn : Nat}

theorem blockCost_low (hlow : fbn < NDIRECT) :
    blockCost (m.node din) fbn = if din.addrs (direct fbn hlow) = 0 then 1 else 0 := by
  have hlt : fbn < MAXFILE := Nat.lt_of_lt_of_le hlow (Nat.le_add_right _ _)
  have hblk : (m.node din).blk fbn = din.addrs (direct fbn hlow) := by
    rw [Node.blk_eq hlt, filePlace_low hlow]
    rfl
  unfold blockCost
  rw [hblk, if_neg (c := NDIRECT ≤ fbn ∧ _) (by omega), Nat.add_zero]

theorem blockCost_high (hhigh : ¬ fbn < NDIRECT) :
    blockCost (m.node din) fbn =
      (if din.addrs indirect = 0 then 1 else 0) + if (m.node din).blk fbn = 0 then 1 else 0 := by
  unfold blockCost
  rw [Nat.add_comm]
  congr 1
  exact if_congr (and_iff_right (Nat.le_of_not_lt hhigh)) rfl rfl

omit [DecidableEq ι] in
/-- The block numbers in the indirect block. -/
theorem addr_entry (h : Held own f (m.node din)) (hind : din.addrs indirect ≠ 0)
    (j : Fin NINDIRECT) :
    (m.node din).addr (.inr j) = entry (m.block (din.addrs indirect)) j := by
  have hdata : mkfsSb.IsData (din.addrs indirect) := h.isData_indirect hind
  rw [← Image.disk_block (isData_ne hdata)]
  exact if_neg hind

end

/-- **Block `fbn` of a file**, given out if it is missing. -/
theorem fileBlock_maps {fbn : Nat} (hm : m.Ok) (h : Held own f (m.node din)) (hfbn : fbn < MAXFILE)
    (hroom : m.freeblock + blockCost (m.node din) fbn ≤ FSSIZE) :
    Succeeds (fileBlock din fbn) m fun r m' => Spends (blockCost (m.node din) fbn) m m' ∧
      Mapped own f (m.node din) (filePlace fbn) r.1 (m'.node r.2) := by
  unfold fileBlock
  split
  next hlow =>
    have hcost : blockCost (m.node din) fbn = if din.addrs (direct fbn hlow) = 0 then 1 else 0 :=
      blockCost_low hlow
    rw [filePlace_low hlow]
    refine (addrOrNext_maps hm h fun hzero => ?_).bind fun din' m' hmaps => ?_
    · rw [hcost, if_pos hzero] at hroom
      omega
    · rw [hcost]
      exact hmaps
  next hhigh =>
    have hj : fbn - NDIRECT < NINDIRECT := by
      unfold MAXFILE at hfbn
      omega
    have hplace := filePlace_high hhigh hj
    have hblk : (m.node din).blk fbn = (m.node din).addr (.inr ⟨fbn - NDIRECT, hj⟩) := by
      rw [Node.blk_eq hfbn, hplace]
    rw [hplace]
    rw [blockCost_high hhigh] at hroom ⊢
    refine (addrOrNext_maps hm h fun hzero => ?_).bind fun din' m' hmaps => ?_
    · rw [if_pos hzero] at hroom
      omega
    · obtain ⟨hspent, ⟨⟨f', h', hquiet⟩, hgrown, haddr, hne⟩⟩ := hmaps
      have hold : (m'.node din').addr (.inr ⟨fbn - NDIRECT, hj⟩) = 0 → (m.node din).blk fbn = 0 := by
        intro hzero
        rw [hblk]
        by_contra hold
        exact hold ((hgrown.addr _ hold).symm.trans hzero)
      refine (entryOrNext_maps hspent.ok h' hj hne fun hzero => ?_).post fun r m'' hr => ?_
      · rw [if_pos (hold hzero)] at hroom
        have hle := hspent.freeblock
        omega
      · obtain ⟨hspent', ⟨⟨f'', h'', hquiet'⟩, hgrown', haddr', hne'⟩⟩ := hr
        refine ⟨hspent.trans (hspent'.mono ?_), ⟨f'', h'', hquiet.trans hquiet'⟩,
          hgrown.trans hgrown', haddr', hne'⟩
        split
        next hzero => rw [if_pos (hold hzero)]
        next => exact Nat.zero_le _

/-! ### Appending -/

/-- The blocks that a file of this length takes. -/
def blocksFor (len : Nat) : Nat :=
  (len + (BSIZE - 1)) / BSIZE + if NDIRECT * BSIZE < len then 1 else 0

/-- A pass of the loop takes what the longer file takes more. -/
theorem blockCost_le {n : Node} {off left : Nat} (hleft : left ≠ 0)
    (hmapped : ∀ bn, bn * BSIZE < off → n.blk bn ≠ 0) :
    blockCost n (off / BSIZE) + blocksFor off ≤ blocksFor (off + chunk off left) := by
  have hblk : n.blk (off / BSIZE) = 0 → off % BSIZE = 0 := by
    intro hzero
    by_contra hne
    refine hmapped (off / BSIZE) ?_ hzero
    have hdiv := Nat.div_add_mod off BSIZE
    have hcomm := Nat.mul_comm BSIZE (off / BSIZE)
    omega
  have hind : NDIRECT ≤ off / BSIZE ∧ n.ip.addrs indirect = 0 → off = NDIRECT * BSIZE := by
    rintro ⟨hhigh, hzero⟩
    by_contra hne
    have hlt : NDIRECT * BSIZE < off := by
      unfold NDIRECT BSIZE at *
      omega
    refine hmapped NDIRECT hlt ?_
    rw [Node.blk_eq (by decide)]
    exact if_pos hzero
  have hcost : blockCost n (off / BSIZE) ≤
      (if off % BSIZE = 0 then 1 else 0) + if off = NDIRECT * BSIZE then 1 else 0 := by
    unfold blockCost
    refine Nat.add_le_add ?_ ?_
    · split
      next hzero => rw [if_pos (hblk hzero)]
      next => exact Nat.zero_le _
    · split
      next hboth => rw [if_pos (hind hboth)]
      next => exact Nat.zero_le _
  refine Nat.le_trans (Nat.add_le_add_right hcost _) ?_
  unfold blocksFor chunk NDIRECT BSIZE
  split <;> split <;> split <;> split <;> omega

variable {p : List UInt8} {tot left off fuel : Nat}

theorem readable_kernelSrc {k : Nat} : readable (kernelSrc p) tot k = (p.drop tot).take k := by
  induction k generalizing tot with
  | zero => simp [readable_zero]
  | succ k ih =>
      rw [readable_succ]
      unfold kernelSrc
      split
      next hnone =>
        have hlen : p.length ≤ tot := by simpa using hnone
        rw [List.drop_eq_nil_of_le hlen, List.take_nil]
      next x hx =>
        obtain ⟨hlt, rfl⟩ := List.getElem?_eq_some_iff.mp hx
        rw [List.drop_eq_getElem_cons hlt, List.take_succ_cons]
        exact congrArg _ ih

/-- The number of a block that there is no room for. -/
theorem nextBlock_full {m : Image} (hm : m.Ok) (hfull : FSSIZE ≤ m.freeblock) :
    IfOk nextBlock m fun x m' => FSSIZE ≤ x.toNat ∧ m'.block = m.block := by
  have heq : m.freeblock = FSSIZE := Nat.le_antisymm hm.room hfull
  have hnat : FSSIZE ≤ (UInt32.ofNat m.freeblock).toNat := by
    rw [heq]
    decide
  exact ⟨hnat, rfl⟩

theorem rsect_same {sec : UInt32} : IfOk (rsect sec) m fun a m' => a = m.block sec ∧ m' = m := by
  unfold IfOk rsect
  rw [Ends.get_bind_iff]
  split
  · exact ⟨rfl, rfl⟩
  · trivial

theorem rsect_full {sec : UInt32} (hsec : FSSIZE ≤ sec.toNat) :
    IfOk (rsect sec) m fun _ _ => False := by
  unfold IfOk rsect
  rw [Ends.get_bind_iff, if_neg (Nat.not_lt.mpr hsec)]
  trivial

theorem entryOrNext_full {fbn : Nat} (hm : m.Ok) (hfull : FSSIZE ≤ m.freeblock)
    (hentry : entry (m.block (din.addrs indirect)) fbn = 0) :
    IfOk (do
      let a ← rsect (din.addrs indirect)
      if entry a fbn = 0 then
        let x ← nextBlock
        wsect (din.addrs indirect) (setEntry a fbn x)
        return (x, din)
      else return (entry a fbn, din)) m fun r _ => FSSIZE ≤ r.1.toNat := by
  refine rsect_same.bind ?_
  rintro a m ⟨rfl, rfl⟩
  rw [if_pos hentry]
  refine (nextBlock_full hm hfull).bind fun x m' hx => ?_
  rw [Ends.bind_iff, wsect_iff]
  exact hx.1

omit [DecidableEq ι] in
/-- **A block that there is no room for** is outside of the image. -/
theorem fileBlock_full {fbn : Nat} (hm : m.Ok) (h : Held own f (m.node din)) (hfbn : fbn < MAXFILE)
    (hfull : ¬ m.freeblock + blockCost (m.node din) fbn ≤ FSSIZE) :
    IfOk (fileBlock din fbn) m fun r _ => FSSIZE ≤ r.1.toNat := by
  have hroom := hm.room
  unfold fileBlock
  split
  next hlow =>
    rw [blockCost_low hlow] at hfull
    have hzero : din.addrs (direct fbn hlow) = 0 := by
      by_contra hne
      rw [if_neg hne] at hfull
      omega
    rw [if_pos hzero] at hfull
    unfold addrOrNext
    rw [if_pos hzero]
    refine Ends.bind (Q := fun din' _ => FSSIZE ≤ (din'.addrs (direct fbn hlow)).toNat) ?_
      fun din' m' hr => hr
    refine (nextBlock_full hm (by omega)).bind fun x m' hx => ?_
    rw [Ends.pure_iff]
    dsimp only
    rw [Function.update_self]
    exact hx.1
  next hhigh =>
    have hj : fbn - NDIRECT < NINDIRECT := by
      unfold MAXFILE at hfbn
      omega
    have hblk : (m.node din).blk fbn = (m.node din).addr (.inr ⟨fbn - NDIRECT, hj⟩) := by
      rw [Node.blk_eq hfbn, filePlace_high hhigh hj]
    rw [blockCost_high hhigh] at hfull
    unfold addrOrNext
    by_cases hind : din.addrs indirect = 0
    · rw [if_pos hind] at hfull ⊢
      by_cases hlast : m.freeblock < FSSIZE
      · -- the last block is given out for the block numbers
        obtain ⟨-, hm'⟩ := hm.next hlast
        refine Ends.bind (Q := fun din' m' => m'.Ok ∧ FSSIZE ≤ m'.freeblock ∧
          m'.block (din'.addrs indirect) = fun _ => 0) ?_ fun din' m' hr => ?_
        · refine Ends.bind (Q := fun x m' => x = UInt32.ofNat m.freeblock ∧
            m' = { m with freeblock := m.freeblock + 1 }) ⟨rfl, rfl⟩ ?_
          rintro _ _ ⟨rfl, rfl⟩
          rw [Ends.pure_iff]
          dsimp only
          rw [Function.update_self]
          refine ⟨hm', ?_, hm.fresh _ (Nat.le_of_eq ?_)⟩
          · split at hfull <;> omega
          · refine (UInt32.toNat_ofNat_of_lt' ?_).symm
            unfold FSSIZE at hlast
            unfold UInt32.size
            omega
        · obtain ⟨hok, hnone, hblock⟩ := hr
          refine entryOrNext_full hok hnone ?_
          rw [hblock, entry_zeros]
      · refine Ends.bind (Q := fun din' _ => FSSIZE ≤ (din'.addrs indirect).toNat) ?_
          fun din' m' hr => (rsect_full hr).bind fun _ _ hf => hf.elim
        refine (nextBlock_full hm (Nat.le_of_not_lt hlast)).bind fun x m' hx => ?_
        rw [Ends.pure_iff]
        dsimp only
        rw [Function.update_self]
        exact hx.1
    · rw [if_neg hind] at hfull ⊢
      have hzero : (m.node din).blk fbn = 0 := by
        by_contra hne
        rw [if_neg hne] at hfull
        omega
      rw [if_pos hzero] at hfull
      rw [hblk, addr_entry h hind] at hzero
      rw [IfOk, Ends.pure_bind_iff]
      exact entryOrNext_full hm (by omega) hzero

/-- **The loop of `iappend`** fails only where the file would be too long or the image is
full. -/
theorem appendLoop_writes (hm : m.Ok) (h : Held own f (m.node din)) (htot : tot + left = p.length)
    (hfuel : left ≤ fuel) (hfile : off ≤ MAXFILE * BSIZE)
    (hmapped : ∀ bn, bn * BSIZE < off → (m.node din).blk bn ≠ 0) :
    InRoom (off + left ≤ MAXFILE * BSIZE ∧
        m.freeblock + blocksFor (off + left) ≤ FSSIZE + blocksFor off)
      (appendLoop fuel din off (p.drop tot)) m fun din' m' => ∃ din₁,
      din' = { din₁ with size := UInt32.ofNat (off + left) } ∧ off + left ≤ MAXFILE * BSIZE ∧
        Spends (blocksFor (off + left) - blocksFor off) m m' ∧
        Written own f (kernelSrc p) tot off left (m.node din) (tot + left) (m'.node din₁) := by
  induction fuel generalizing f m din tot off left with
  | zero =>
      obtain rfl : left = 0 := Nat.le_zero.mp hfuel
      exact ⟨din, rfl, hfile, ⟨hm, rfl, Nat.le_add_right _ _⟩, Written.nothing h⟩
  | succ fuel ih =>
      unfold appendLoop
      split
      next hdone =>
        have hlen : p.length ≤ tot := List.drop_eq_nil_iff.mp hdone
        obtain rfl : left = 0 := by omega
        exact ⟨din, rfl, hfile, ⟨hm, rfl, Nat.le_add_right _ _⟩, Written.nothing h⟩
      next hmore =>
        have hleft : left ≠ 0 := by
          intro hzero
          exact hmore (List.drop_eq_nil_iff.mpr (by omega))
        have hcost := blockCost_le (n := m.node din) hleft hmapped
        have hchunk : min (p.drop tot).length ((off / BSIZE + 1) * BSIZE - off) =
            chunk off left := by
          rw [List.length_drop]
          unfold chunk BSIZE
          omega
        have hle : chunk off left ≤ left := chunk_le
        have hpos : 0 < chunk off left := chunk_pos hleft
        have hmono : blocksFor (off + chunk off left) ≤ blocksFor (off + left) := by
          generalize chunk off left = c at hle
          unfold blocksFor NDIRECT BSIZE
          split <;> split <;> omega
        dsimp only
        split
        next hfbn =>
          by_cases hroom : m.freeblock + blockCost (m.node din) (off / BSIZE) ≤ FSSIZE
          · refine (fileBlock_maps hm h hfbn hroom).inRoom.bind fun r m₁ hr => ?_
            obtain ⟨x, din₁⟩ := r
            obtain ⟨hspent, hmaps⟩ := hr
            dsimp only at hmaps ⊢
            have hmaps' := hmaps
            obtain ⟨⟨f₁, h₁, -⟩, -, haddr, hne⟩ := hmaps
            have hdata : mkfsSb.IsData x := by
              rw [← haddr] at hne ⊢
              exact h₁.isData hne
            have hused : m₁.disk.Used x := by
              rw [← haddr] at hne ⊢
              exact h₁.used hne
            have hblk : (m₁.node din₁).blk (off / BSIZE) = x := (Node.blk_eq hfbn).trans haddr
            rw [Ends.bind_iff, rsect_iff hdata.2, Ends.bind_iff, wsect_iff, hchunk, List.drop_drop,
              ← readable_kernelSrc, show off - off / BSIZE * BSIZE = off % BSIZE by
                unfold BSIZE
                omega]
            have hpass : Pass own f (kernelSrc p) tot off left (m.node din)
                ((m₁.put x (Bytes.splice (m₁.block x) (off % BSIZE)
                  (readable (kernelSrc p) tot (chunk off left)))).node din₁) := by
              refine hmaps'.pass hfbn ⟨rfl, rfl, ?_⟩
              rw [hblk]
              change (m₁.put x _).disk.block = _
              rw [Image.put_disk (isData_ne hdata), ← Image.disk_block (isData_ne hdata)]
              rfl
            have hlength : (readable (kernelSrc p) tot (chunk off left)).length =
                chunk off left := by
              rw [readable_kernelSrc, List.length_take, List.length_drop]
              omega
            obtain ⟨f₂, h₂, hquiet⟩ := hpass.held
            have hrest : tot + chunk off left + (left - chunk off left) = p.length := by omega
            have hend : off + chunk off left ≤ MAXFILE * BSIZE := by
              unfold chunk BSIZE at *
              omega
            have hspend := hspent.freeblock
            refine ((ih (hspent.ok.write hdata hused) h₂ hrest (by omega) hend ?_).weaken
              ?_).post ?_
            · intro bn hbn
              by_cases hold : bn * BSIZE < off
              · rw [hpass.blk bn (hmapped bn hold)]
                exact hmapped bn hold
              · have heq : bn = off / BSIZE := by
                  unfold chunk BSIZE at *
                  omega
                rw [heq]
                exact hpass.mapped
            · rintro ⟨hlong, hmany⟩
              rw [show off + chunk off left + (left - chunk off left) = off + left by omega]
              change _ ∧ m₁.freeblock + _ ≤ _
              omega
            · rintro din' m' ⟨din₂, rfl, hlong, hspent', hrest⟩
              rw [show off + chunk off left + (left - chunk off left) = off + left by omega]
                at hspent' hlong ⊢
              rw [show tot + chunk off left + (left - chunk off left) = tot + left by omega] at hrest
              refine ⟨din₂, rfl, hlong, ?_, hpass.cons hquiet hlength hrest⟩
              have hspend' := hspent'.freeblock
              refine ⟨hspent'.ok, hspent'.freeinode.trans hspent.freeinode, ?_⟩
              change m'.freeblock ≤ m₁.freeblock + _ at hspend'
              omega
          · -- the block is outside of the image and cannot be read
            refine Ends.bind ((fileBlock_full hm h hfbn hroom).mono (fun _ _ hr => hr)
              fun _ _ _ => by omega) fun r m₁ hr => ?_
            refine Ends.bind ((rsect_full hr).mono (fun _ _ hf => hf) fun _ _ _ => by omega)
              fun _ _ hf => hf.elim
        next hlong =>
          rintro ⟨hfit, -⟩
          rw [Nat.div_lt_iff_lt_mul (by decide)] at hlong
          omega

omit [DecidableEq ι] in
theorem fileBlock_others {fbn : Nat} : IfOk (fileBlock din fbn) m fun r _ =>
    ∀ bn (h : bn < NDIRECT), bn ≠ fbn →
      r.2.addrs (direct bn h) = din.addrs (direct bn h) := by
  have haddr : ∀ k, IfOk (addrOrNext din k) m fun din' _ =>
      ∀ k', k' ≠ k → din'.addrs k' = din.addrs k' := by
    intro k
    unfold IfOk addrOrNext
    split
    · exact fun k' hk' => Function.update_of_ne hk' _ _
    · exact fun k' _ => rfl
  unfold IfOk fileBlock
  split
  next hlow =>
    refine (haddr _).bind fun din' m' hkept bn hbn hne => hkept _ ?_
    intro heq
    exact hne (Fin.val_eq_of_eq heq)
  next hhigh =>
    refine (haddr _).bind fun din' m' hkept => ?_
    have hdirect : ∀ bn (h : bn < NDIRECT), din'.addrs (direct bn h) = din.addrs (direct bn h) := by
      intro bn hbn
      refine hkept _ fun heq => ?_
      have hval : bn = NDIRECT := Fin.val_eq_of_eq heq
      omega
    refine rsect_same.bind fun a m'' _ => ?_
    split
    · exact fun bn hbn _ => hdirect bn hbn
    · exact fun bn hbn _ => hdirect bn hbn

omit [DecidableEq ι] in
/-- The loop of `iappend` gives out no block behind what it appends. -/
theorem appendLoop_others : IfOk (appendLoop fuel din off p) m fun din' _ =>
    ∀ bn (h : bn < NDIRECT), off + p.length ≤ bn * BSIZE →
      din'.addrs (direct bn h) = din.addrs (direct bn h) := by
  induction fuel generalizing m din off p with
  | zero => exact fun bn hbn _ => rfl
  | succ fuel ih =>
      unfold IfOk appendLoop
      split
      · exact fun bn hbn _ => rfl
      next hmore =>
        have hpos : 0 < p.length := List.length_pos_iff.mpr hmore
        dsimp only
        split
        · refine fileBlock_others.bind fun r m₁ hr => rsect_same.bind fun a m₂ _ => ?_
          rw [Ends.bind_iff, wsect_iff]
          refine ih.post fun din' m' hkept bn hbn hlen => ?_
          have hother : bn ≠ off / BSIZE := by
            unfold BSIZE at *
            omega
          rw [hkept bn hbn ?_, hr bn hbn hother]
          rw [List.length_drop]
          omega
        · trivial

end

/-! ### Inodes of the image -/

/-- An entry of the inode table that is not in use. -/
def Inode.idle : Inode :=
  { Dinode.zero with dev := 0, inum := 0, ref := 0, locked := false, valid := false }

/-- The image as a file system whose inode table is empty. -/
def Image.fs (m : Image) : FileSys where
  toDisk := m.disk
  inode := fun _ => .idle

/-- An inode with its size and what its file holds. -/
structure Holds (d : Disk) (inum : Nat) (type : UInt16) (size : Nat) (data : List UInt8) :
    Prop where
  type : (d.dinode inum).type = type
  nlink : (d.dinode inum).nlink = 1
  size : (d.dinode inum).size.toNat = size
  mapped : ∀ bn, bn * BSIZE < data.length → blockOf d.block (d.dinode inum) bn ≠ 0
  byte : ∀ p (hp : p < data.length), content d.block (d.dinode inum) p = data[p]

theorem Holds.length_le {d : Disk} {inum size : Nat} {type : UInt16} {data : List UInt8}
    (h : Holds d inum type size data) : data.length ≤ MAXFILE * BSIZE := by
  by_contra hlong
  refine h.mapped MAXFILE (Nat.lt_of_not_le hlong) ?_
  unfold blockOf
  rw [if_neg (Nat.lt_irrefl _)]

/-- A short file has nothing behind its first bytes. -/
structure EndsAt (d : Disk) (inum len : Nat) : Prop where
  addrs : ∀ bn (h : bn < NDIRECT), len ≤ bn * BSIZE → (d.dinode inum).addrs (direct bn h) = 0
  content : ∀ i, len ≤ i → content d.block (d.dinode inum) i = 0

theorem EndsAt.bare {d : Disk} {inum : Nat} (h : ∀ k, (d.dinode inum).addrs k = 0) :
    EndsAt d inum 0 := by
  refine ⟨fun bn hbn _ => h _, fun i _ => ?_⟩
  have hblock : blockOf d.block (d.dinode inum) (i / BSIZE) = 0 := by
    unfold blockOf
    split
    · cases filePlace (i / BSIZE) with
      | inl k => exact h k
      | inr j => exact if_pos (h indirect)
    · rfl
  unfold Fs.content
  rw [if_pos hblock]

/-- The other inodes are what they were. -/
structure SameOthers (inum : Nat) (d d' : Disk) : Prop where
  dinode : ∀ k < NINODES, k ≠ inum → d'.dinode k = d.dinode k
  blockOf : ∀ k < NINODES, k ≠ inum → (d.dinode k).type ≠ 0 → ∀ bn,
    blockOf d'.block (d.dinode k) bn = blockOf d.block (d.dinode k) bn
  content : ∀ k < NINODES, k ≠ inum → (d.dinode k).type ≠ 0 → ∀ p,
    content d'.block (d.dinode k) p = content d.block (d.dinode k) p

/-- Another file stays what it was. -/
theorem SameOthers.holds {inum k size : Nat} {d d' : Disk} {type : UInt16} {data : List UInt8}
    (h : SameOthers inum d d') (hk : k < NINODES) (hne : k ≠ inum)
    (hholds : Holds d k type size data) (htype : type ≠ 0) : Holds d' k type size data := by
  have hdinode := h.dinode k hk hne
  have hused : (d.dinode k).type ≠ 0 := hholds.type ▸ htype
  refine ⟨?_, ?_, ?_, ?_, ?_⟩
  · rw [hdinode, hholds.type]
  · rw [hdinode, hholds.nlink]
  · rw [hdinode, hholds.size]
  · intro bn hbn
    rw [hdinode, h.blockOf k hk hne hused]
    exact hholds.mapped bn hbn
  · intro p hp
    rw [hdinode, h.content k hk hne hused]
    exact hholds.byte p hp

theorem SameOthers.endsAt {inum k size len : Nat} {d d' : Disk} {type : UInt16}
    {data : List UInt8} (h : SameOthers inum d d') (hk : k < NINODES) (hne : k ≠ inum)
    (hholds : Holds d k type size data) (htype : type ≠ 0) (hends : EndsAt d k len) :
    EndsAt d' k len := by
  have hdinode := h.dinode k hk hne
  have hused : (d.dinode k).type ≠ 0 := hholds.type ▸ htype
  refine ⟨fun bn hbn hlen => ?_, fun i hi => ?_⟩
  · rw [hdinode]
    exact hends.addrs bn hbn hlen
  · rw [hdinode, h.content k hk hne hused]
    exact hends.content i hi

namespace Image

variable {m m' : Image} {inum : Nat} {type : UInt16} {data p : List UInt8} {dip : Dinode}

theorem fs_none (inum : Nat) (i : Fin NINODE) : ¬ (m.fs.inode i).Holds inum := fun h => by
  cases h.1

theorem fs_copy : m.fs.copy inum = m.disk.dinode inum := FileSys.copy_of_none (fs_none inum)

theorem fs_table : m.fs.Table := by
  refine ⟨?_, ?_, ?_, ?_⟩
  · intro i j hi
    cases hi
  · intro i hi
    cases hi
  · intro i k hk
    exact absurd hk (fs_none k i)
  · intro i hi
    cases hi

theorem fs_tenant (hinum : inum < NINODES) (htype : (m.disk.dinode inum).type ≠ 0) (pl : Place) :
    m.fs.tenant [] (placesOf inum pl) = (m.node (m.disk.dinode inum)).addr pl := by
  unfold placesOf FileSys.tenant
  dsimp only
  rw [fs_copy, if_pos ⟨hinum, htype⟩]
  rfl

theorem rinode_iff {Q : Dinode → Image → Prop} {E : String → Image → Prop}
    (hinum : inum < NINODES) : Ends (rinode inum) m Q E ↔ Q (m.disk.dinode inum) m := by
  unfold rinode
  rw [Ends.bind_iff, rsect_iff (mkfsSb_IBLOCK_lt hinum), Ends.pure_iff, dinode_eq hinum]

/-- **`winode`** is the kernel's `iupdate`. -/
theorem winode_updates (hinum : inum < NINODES) :
    Succeeds (winode inum dip) m fun _ m' =>
      (m.Ok → Spends 0 m m') ∧ Updated inum (m.node dip) (m'.node dip) := by
  have hne := mkfsSb_IBLOCK_ne hinum
  unfold winode
  rw [Succeeds, Ends.bind_iff, rsect_iff (mkfsSb_IBLOCK_lt hinum), wsect_iff]
  refine ⟨fun hm => ⟨hm.writeInode hinum, rfl, Nat.le_refl _⟩, rfl, rfl, ?_⟩
  change (m.put _ _).disk.block = _
  rw [put_disk hne, ← disk_block hne]
  rfl

/-- What work on one inode does to the image as a whole. -/
theorem work {f' : Tenant → UInt32}
    (hheld : Held (placesOf inum) f' (m'.node (m'.disk.dinode inum)))
    (hapart : Apart (placesOf inum) (m.fs.tenant []) f' (m.node dip)
      (m'.node (m'.disk.dinode inum)))
    (hinum : inum < NINODES) (htype : (m'.disk.dinode inum).type ≠ 0)
    (hother : ∀ k < NINODES, k ≠ inum → m'.disk.dinode k = m.disk.dinode k) :
    m'.fs.Owned [] ∧ SameOthers inum m.disk m'.disk := by
  constructor
  · refine FileSys.owned_of_work (s := m.fs) (n := m.node dip) rfl hheld hapart fs_table rfl ?_ ?_
    · intro k hk hne
      rw [fs_copy, fs_copy, hother k hk hne]
    · exact fs_tenant hinum htype
  · have hused : ∀ {k}, k < NINODES → (m.disk.dinode k).type ≠ 0 →
        k < m.fs.sb.ninodes ∧ (m.fs.copy k).type ≠ 0 := by
      intro k hk hne
      rw [fs_copy]
      exact ⟨hk, hne⟩
    refine ⟨hother, ?_, ?_⟩
    · intro k hk hne hktype bn
      have hsame := FileSys.blockOf_other (s := m.fs) (n := m.node dip) rfl hapart hne
        (hused hk hktype) bn
      rw [fs_copy] at hsame
      exact hsame
    · intro k hk hne hktype p
      have hsame := FileSys.content_other (s := m.fs) (n := m.node dip) rfl hapart hne
        (hused hk hktype) p
      rw [fs_copy] at hsame
      exact hsame

/-- **`iappend`** appends to the file, and changes nothing behind it. -/
theorem iappend_appends (hm : m.Ok) (h : m.fs.Owned []) (hinum : inum < NINODES)
    (hholds : Holds m.disk inum type data.length data) (htype : type ≠ 0) :
    InRoom (data.length + p.length ≤ MAXFILE * BSIZE ∧
        m.freeblock + blocksFor (data.length + p.length) ≤ FSSIZE + blocksFor data.length)
      (iappend inum p) m fun _ m' =>
      Spends (blocksFor (data.length + p.length) - blocksFor data.length) m m' ∧
        m'.fs.Owned [] ∧ SameOthers inum m.disk m'.disk ∧
          Holds m'.disk inum type (data ++ p).length (data ++ p) ∧
          ∀ i, data.length + p.length ≤ i → content m'.disk.block (m'.disk.dinode inum) i =
            content m.disk.block (m.disk.dinode inum) i := by
  have hused : (m.disk.dinode inum).type ≠ 0 := hholds.type ▸ htype
  have hheld : Held (placesOf inum) (m.fs.tenant []) (m.node (m.disk.dinode inum)) :=
    h.held_dinode (fs_none inum) hinum hused
  unfold iappend
  rw [InRoom, Ends.bind_iff, rinode_iff hinum, hholds.size]
  refine (appendLoop_writes (p := p) hm hheld (Nat.zero_add _) (Nat.le_refl _) hholds.length_le
    hholds.mapped).bind fun din' m₁ hloop => ?_
  obtain ⟨din₁, rfl, hfile, hspent, hw⟩ := hloop
  refine (winode_updates hinum).inRoom.post fun _ m' hupdated => ?_
  obtain ⟨hspent', hu⟩ := hupdated
  replace hspent' := hspent' hspent.ok
  have hself : m'.disk.dinode inum =
      { din₁ with size := UInt32.ofNat (data.length + p.length) } := hu.dinode_self
  have htoNat : (UInt32.ofNat (data.length + p.length)).toNat = data.length + p.length := by
    refine UInt32.toNat_ofNat_of_lt' ?_
    unfold MAXFILE NDIRECT NINDIRECT BSIZE at hfile
    unfold UInt32.size
    omega
  have hnsize : (m.node (m.disk.dinode inum)).ip.size.toNat = data.length := hholds.size
  rw [Nat.zero_add] at hw
  have hsize : (UInt32.ofNat (data.length + p.length)).toNat =
      max din₁.size.toNat (data.length + p.length) := by
    have hsame : (m₁.node din₁).ip.size = (m.disk.dinode inum).size := by
      rw [hw.header]
      rfl
    rw [show din₁.size = (m.disk.dinode inum).size from hsame, hholds.size, htoNat]
    omega
  have hsame : (m₁.node { din₁ with size := UInt32.ofNat (data.length + p.length) }).toDisk =
      (m₁.node din₁).toDisk := rfl
  have hwrote : Wrote (placesOf inum) (m.fs.tenant []) inum (kernelSrc p) data.length p.length
      (m.node (m.disk.dinode inum)) p.length
      (m'.node { din₁ with size := UInt32.ofNat (data.length + p.length) }) :=
    hw.update hinum mkfsSb_sound (Nat.le_of_eq hnsize.symm) hfile hsame rfl hsize hu
  rw [← hself] at hwrote
  obtain ⟨f', hheld', hapart⟩ := hwrote.held
  have hheader := hwrote.header
  have htype' : (m'.disk.dinode inum).type = type :=
    (congrArg Dinode.type hheader).trans hholds.type
  obtain ⟨howned, hothers⟩ := work hheld' hapart hinum (htype' ▸ htype) hwrote.dinode_other
  refine ⟨(hspent.trans hspent').mono (Nat.le_refl _), howned, hothers, ⟨htype',
    (congrArg Dinode.nlink hheader).trans hholds.nlink, ?_, ?_, ?_⟩,
    fun i hi => hwrote.kept i (Or.inr hi)⟩
  · rw [hself, List.length_append]
    exact htoNat
  · intro bn hbn
    rw [List.length_append] at hbn
    by_cases hold : bn * BSIZE < data.length
    · have hblk := hholds.mapped bn hold
      have hsame := hwrote.blk bn hblk
      exact fun hzero => hblk (hsame.symm.trans hzero)
    · have hmapped := hwrote.mapped (bn * BSIZE) (by omega) hbn
      rwa [Nat.mul_div_cancel _ (by decide)] at hmapped
  · intro i hi
    rw [List.length_append] at hi
    by_cases hold : i < data.length
    · rw [List.getElem_append_left hold]
      exact (hwrote.kept i (Or.inl hold)).trans (hholds.byte i hold)
    · rw [List.getElem_append_right (by omega)]
      have hnew := hwrote.wrote (i - data.length) (by omega)
      rw [Nat.add_sub_cancel' (by omega)] at hnew
      unfold kernelSrc at hnew
      rw [List.getElem?_eq_getElem (by omega)] at hnew
      exact (Option.some.inj hnew).symm

/-- What is appended is all that there is. -/
theorem iappend_endsAt (hinum : inum < NINODES)
    (hends : EndsAt m.disk inum (m.disk.dinode inum).size.toNat) :
    IfOk (iappend inum p) m fun _ m' => ∀ bn (h : bn < NDIRECT),
      (m.disk.dinode inum).size.toNat + p.length ≤ bn * BSIZE →
        (m'.disk.dinode inum).addrs (direct bn h) = 0 := by
  unfold IfOk iappend
  rw [Ends.bind_iff, rinode_iff hinum]
  refine appendLoop_others.bind fun din' m₁ hkept => ?_
  refine ((winode_updates hinum).mono (fun _ _ hr => hr) fun _ _ hf => hf.elim).post
    fun _ m' hupdated => ?_
  have hself : m'.disk.dinode inum = din' := hupdated.2.dinode_self
  intro bn hbn hlen
  rw [hself, hkept bn hbn hlen]
  exact hends.addrs bn hbn (Nat.le_trans (Nat.le_add_right _ _) hlen)

/-- **`ialloc`** makes an inode with a link and an empty file. -/
theorem ialloc_makes (hm : m.Ok) (h : m.fs.Owned []) (hinum : m.freeinode < NINODES)
    (hfree : (m.disk.dinode m.freeinode).type = 0) (htype : type ≠ 0) :
    Succeeds (Mkfs.ialloc type) m fun r m' =>
      (r = m.freeinode ∧ m'.freeinode = m.freeinode + 1 ∧ m'.freeblock ≤ m.freeblock ∧ m'.Ok) ∧
        m'.fs.Owned [] ∧ SameOthers m.freeinode m.disk m'.disk ∧
          Holds m'.disk m.freeinode type 0 [] ∧ EndsAt m'.disk m.freeinode 0 := by
  have hm₁ : ({ m with freeinode := m.freeinode + 1 } : Image).Ok :=
    ⟨hm.start, hm.room, hm.fresh, hm.super⟩
  unfold Mkfs.ialloc
  rw [Succeeds, Ends.get_bind_iff, Ends.set_bind_iff]
  refine (winode_updates hinum).bind fun _ m' hupdated => ?_
  obtain ⟨hspent, hu⟩ := hupdated
  replace hspent := hspent hm₁
  have hheld : Held (placesOf m.freeinode) (m.fs.tenant [])
      ⟨m.fs.toDisk, { Dinode.zero with type, nlink := 1 }⟩ := h.held_bare hfree fun _ => rfl
  have hself : m'.disk.dinode m.freeinode = { Dinode.zero with type, nlink := 1 } := hu.dinode_self
  have hheld' := hu.held hheld hinum
  have hapart := hu.apart hheld hinum
  rw [← hself] at hheld' hapart
  have htype' : (m'.disk.dinode m.freeinode).type = type := by rw [hself]
  obtain ⟨howned, hothers⟩ := work hheld' hapart hinum (htype' ▸ htype)
    fun k hk hne => hu.dinode_other mkfsSb_sound hinum hk hne
  refine ⟨⟨rfl, hspent.freeinode, hspent.freeblock, hspent.ok⟩, howned, hothers,
    ⟨htype', ?_, ?_, ?_, ?_⟩, .bare fun k => by rw [hself]; rfl⟩
  · rw [hself]
  · rw [hself]
    rfl
  · intro bn hbn
    exact absurd hbn (Nat.not_lt_zero _)
  · intro p hp
    exact absurd hp (Nat.not_lt_zero _)

end Image

end Fs
