import OSN.Fs.Blocks
import OSN.Fs.Inode
import OSN.Lib.Tenancy

/-!
# Whose the data blocks are

An inode has block numbers in its dinode and, if it has an indirect block, in there
(`Place`).  All places of all inodes are the tenants of the data blocks: a block has one
of them, and the bitmap marks the blocks that have.  Code that works on one inode sees
its own places among them (`Held`) and leaves the blocks of the others alone (`Apart`).

What a file holds (`content`) reads a place without a block as zeros, so a block that
`bmap` adds changes nothing.
-/

namespace Fs

/-! ### The places of an inode -/

/-- Where an inode has block numbers: in the dinode and in the indirect block. -/
abbrev Place := Fin (NDIRECT + 1) ⊕ Fin NINDIRECT

/-- The number in a place; `0` is none. -/
def addrOf (block : UInt32 → Block) (dip : Dinode) : Place → UInt32
  | .inl k => dip.addrs k
  | .inr j => if dip.addrs indirect = 0 then 0 else entry (block (dip.addrs indirect)) j

instance neZeroNindirect : NeZero NINDIRECT := ⟨by decide⟩

/-- The place of block `bn` of a file. -/
def filePlace (bn : Nat) : Place :=
  if h : bn < NDIRECT then .inl (direct bn h) else .inr (Fin.ofNat NINDIRECT (bn - NDIRECT))

/-- Block `bn` of a file. -/
def blockOf (block : UInt32 → Block) (dip : Dinode) (bn : Nat) : UInt32 :=
  if bn < MAXFILE then addrOf block dip (filePlace bn) else 0

/-- The byte at an offset of a file. -/
def content (block : UInt32 → Block) (dip : Dinode) (p : Nat) : UInt8 :=
  if blockOf block dip (p / BSIZE) = 0 then 0
  else block (blockOf block dip (p / BSIZE)) (p % BSIZE)

namespace Node

/-- The number in a place of the inode. -/
def addr (n : Node) (pl : Place) : UInt32 := addrOf n.block n.ip pl

/-- Block `bn` of the file. -/
def blk (n : Node) (bn : Nat) : UInt32 := blockOf n.block n.ip bn

/-- The byte at an offset of the file. -/
def byte (n : Node) (p : Nat) : UInt8 := content n.block n.ip p

theorem blk_eq {n : Node} {bn : Nat} (h : bn < MAXFILE) : n.blk bn = n.addr (filePlace bn) :=
  if_pos h

theorem blk_eq_zero {n : Node} {bn : Nat} (h : ¬ bn < MAXFILE) : n.blk bn = 0 := if_neg h

theorem lt_of_blk {n : Node} {bn : Nat} (h : n.blk bn ≠ 0) : bn < MAXFILE := by
  by_contra hlt
  exact h (blk_eq_zero hlt)

/-- The blocks of the file depend on its places only. -/
theorem blk_congr {n n' : Node} {bn : Nat} (h : n'.addr (filePlace bn) = n.addr (filePlace bn)) :
    n'.blk bn = n.blk bn := by
  by_cases hbn : bn < MAXFILE
  · rw [blk_eq hbn, blk_eq hbn, h]
  · rw [blk_eq_zero hbn, blk_eq_zero hbn]

theorem byte_eq {n : Node} {p : Nat} :
    n.byte p = if n.blk (p / BSIZE) = 0 then 0 else n.block (n.blk (p / BSIZE)) (p % BSIZE) := rfl

end Node

theorem filePlace_low {bn : Nat} (hlow : bn < NDIRECT) :
    filePlace bn = .inl (direct bn hlow) := dif_pos hlow

/-- The places behind the indirect block. -/
theorem filePlace_high {bn : Nat} (hlow : ¬ bn < NDIRECT) (hroom : bn - NDIRECT < NINDIRECT) :
    filePlace bn = .inr ⟨bn - NDIRECT, hroom⟩ := by
  unfold filePlace
  rw [dif_neg hlow]
  exact congrArg Sum.inr (Fin.ext (Nat.mod_eq_of_lt hroom))

theorem filePlace_ne_indirect (bn : Nat) : filePlace bn ≠ .inl indirect := by
  unfold filePlace
  split
  next h =>
    intro heq
    have hval : bn = NDIRECT := congrArg Fin.val (Sum.inl.inj heq)
    omega
  next => simp

/-- Different blocks of a file have different places. -/
theorem filePlace_inj {bn bn' : Nat} (h : bn < MAXFILE) (h' : bn' < MAXFILE)
    (heq : filePlace bn = filePlace bn') : bn = bn' := by
  unfold MAXFILE at h h'
  unfold filePlace at heq
  split at heq
  next hlow =>
    split at heq
    next => exact congrArg Fin.val (Sum.inl.inj heq)
    next => cases heq
  next hhigh =>
    split at heq
    next => cases heq
    next hhigh' =>
      have hval : (bn - NDIRECT) % NINDIRECT = (bn' - NDIRECT) % NINDIRECT :=
        congrArg Fin.val (Sum.inr.inj heq)
      rw [Nat.mod_eq_of_lt (by omega), Nat.mod_eq_of_lt (by omega)] at hval
      omega

/-! ### Work on one inode -/

variable {ι : Type}

/-- The node among the tenants `f` of the data blocks; its own places are `own`. -/
structure Held (own : Place → ι) (f : ι → UInt32) (n : Node) : Prop where
  sound : n.toDisk.Sound
  tenancy : Tenancy n.sb.IsData n.toDisk.Used f
  own_inj : Function.Injective own
  own_eq : ∀ pl, f (own pl) = n.addr pl

/-- What work on the inode leaves alone: the other tenants and their blocks. -/
structure Apart (own : Place → ι) (f f' : ι → UInt32) (n n' : Node) : Prop where
  sb : n'.sb = n.sb
  others : ∀ i, (∀ pl, own pl ≠ i) → f' i = f i
  block : ∀ i, (∀ pl, own pl ≠ i) → f i ≠ 0 → n'.block (f i) = n.block (f i)

/-- And the blocks before the bitmap. -/
structure Quiet (own : Place → ι) (f f' : ι → UInt32) (n n' : Node) : Prop
    extends Apart own f f' n n' where
  before : ∀ b : UInt32, b.toNat < n.sb.bmapstart → n'.block b = n.block b

variable {own : Place → ι} {f f' f'' : ι → UInt32} {n n' n'' : Node} {b : UInt32} {t : Disk}
  {pl : Place} {data : Block}

theorem Apart.refl : Apart own f f n n := ⟨rfl, fun _ _ => rfl, fun _ _ _ => rfl⟩

theorem Apart.trans (h : Apart own f f' n n') (h' : Apart own f' f'' n' n'') :
    Apart own f f'' n n'' where
  sb := h'.sb.trans h.sb
  others := fun i hi => (h'.others i hi).trans (h.others i hi)
  block := by
    intro i hi hne
    have hsame := h.others i hi
    have hblock := h'.block i hi (hsame ▸ hne)
    rw [hsame] at hblock
    exact hblock.trans (h.block i hi hne)

theorem Quiet.refl : Quiet own f f n n := ⟨Apart.refl, fun _ _ => rfl⟩

theorem Quiet.trans (h : Quiet own f f' n n') (h' : Quiet own f' f'' n' n'') :
    Quiet own f f'' n n'' where
  toApart := h.toApart.trans h'.toApart
  before := by
    intro b hb
    rw [h'.before b (h.sb ▸ hb), h.before b hb]

/-- The dinodes lie before the bitmap. -/
theorem Quiet.dinode (h : Quiet own f f' n n') (hsound : n.sb.Sound) {inum : Nat}
    (hinum : inum < n.sb.ninodes) :
    n'.toDisk.dinode inum = n.toDisk.dinode inum := by
  unfold Disk.dinode
  rw [h.sb, h.before _ (hsound.IBLOCK_lt hinum)]

/-- A tenant gets a block that `balloc` has returned. -/
theorem Tenancy.allocated [DecidableEq ι] {d : Disk} {i : ι} (h : Tenancy d.sb.IsData d.Used f)
    (ht : d.Allocated b t) (hi : f i = 0) :
    Tenancy t.sb.IsData t.Used (Function.update f i b) := by
  rw [show t.sb = d.sb from ht.sb]
  refine h.moveIn ht.data ht.free hi fun c hc => ?_
  unfold Disk.Used
  rw [ht.isFree c.toNat hc.2]
  by_cases hcb : c = b
  · simp [hcb]
  · simp [hcb, UInt32.toNat_inj]

theorem Disk.Sound.allocated {d : Disk} (h : d.Sound) (ht : d.Allocated b t) : t.Sound := by
  refine ⟨ht.sb ▸ h.layout, fun c hc => ?_⟩
  rw [show t.sb = d.sb from ht.sb] at hc
  have hsize : d.sb.dataStart ≤ d.sb.size := Nat.sub_le _ _
  rw [ht.isFree c (by omega), h.reserved c hc]
  rfl

namespace Held

theorem isData (h : Held own f n) (hpl : n.addr pl ≠ 0) : n.sb.IsData (n.addr pl) := by
  rw [← h.own_eq] at hpl ⊢
  exact h.tenancy.inRoom hpl

theorem isData_blk (h : Held own f n) {bn : Nat} (hbn : n.blk bn ≠ 0) :
    n.sb.IsData (n.blk bn) := by
  have hlt := Node.lt_of_blk hbn
  rw [Node.blk_eq hlt] at hbn ⊢
  exact h.isData hbn

theorem isData_indirect (h : Held own f n) (hind : n.ip.addrs indirect ≠ 0) :
    n.sb.IsData (n.ip.addrs indirect) := by
  have hpl : n.addr (.inl indirect) ≠ 0 := hind
  exact (h.isData hpl :)

theorem used (h : Held own f n) (hpl : n.addr pl ≠ 0) : n.toDisk.Used (n.addr pl) := by
  rw [← h.own_eq] at hpl ⊢
  exact h.tenancy.lives hpl

/-- Two places have different blocks. -/
theorem addr_inj (h : Held own f n) {pl' : Place} (hpl : n.addr pl ≠ 0)
    (heq : n.addr pl = n.addr pl') : pl = pl' := by
  rw [← h.own_eq] at hpl
  rw [← h.own_eq, ← h.own_eq] at heq
  exact h.own_inj (h.tenancy.alone hpl heq)

/-- The blocks of another tenant are not the node's own. -/
theorem other_ne (h : Held own f n) {i : ι} (hi : ∀ pl, own pl ≠ i) (hpl : n.addr pl ≠ 0) :
    f i ≠ n.addr pl := by
  rw [← h.own_eq] at hpl ⊢
  exact fun heq => hi pl (h.tenancy.alone hpl heq.symm)

/-- Nothing changes for the tenants. -/
theorem same (h : Held own f n) (hsb : n'.sb = n.sb)
    (hfree : ∀ m < n.sb.size, n'.toDisk.isFree m = n.toDisk.isFree m)
    (haddr : ∀ pl, n'.addr pl = n.addr pl) : Held own f n' := by
  have hdata : n'.sb.IsData = n.sb.IsData := by rw [hsb]
  refine ⟨⟨hsb ▸ h.sound.layout, ?_⟩, ?_, h.own_inj, ?_⟩
  · intro b hb
    rw [hsb] at hb
    have hsize : n.sb.dataStart ≤ n.sb.size := Nat.sub_le _ _
    rw [hfree b (by omega)]
    exact h.sound.reserved b hb
  · rw [hdata]
    refine h.tenancy.congr (fun _ => rfl) fun b hb => ?_
    unfold Disk.Used
    rw [hfree b.toNat hb.2]
  · intro pl
    rw [haddr pl]
    exact h.own_eq pl

variable [DecidableEq ι]

/-- **A place gets a block.** -/
theorem give (h : Held own f n) (ht : n.toDisk.Allocated b t) (hempty : n.addr pl = 0)
    (hsb : n'.sb = n.sb) (hfree : ∀ m < n.sb.size, n'.toDisk.isFree m = t.isFree m)
    (hpl : n'.addr pl = b) (hothers : ∀ pl', pl' ≠ pl → n'.addr pl' = n.addr pl') :
    Held own (Function.update f (own pl) b) n' := by
  have hsame : ∀ c : UInt32, t.sb.IsData c → (n'.toDisk.Used c ↔ t.Used c) := by
    intro c hc
    rw [ht.sb] at hc
    unfold Disk.Used
    rw [hfree c.toNat hc.2]
  have hdata : n'.sb.IsData = t.sb.IsData := by rw [hsb, ht.sb]
  refine ⟨⟨hsb ▸ h.sound.layout, ?_⟩, ?_, h.own_inj, ?_⟩
  · intro c hc
    have hsize : n.sb.dataStart ≤ n.sb.size := Nat.sub_le _ _
    rw [hsb] at hc
    rw [hfree c (by omega)]
    exact (h.sound.allocated ht).reserved c (ht.sb ▸ hc)
  · rw [hdata]
    exact (Tenancy.allocated h.tenancy ht ((h.own_eq pl).trans hempty)).congr (fun _ => rfl) hsame
  · intro pl'
    by_cases heq : pl' = pl
    · rw [heq, Function.update_self, hpl]
    · rw [Function.update_of_ne (fun hown => heq (h.own_inj hown)), h.own_eq pl',
        hothers pl' heq]

omit [DecidableEq ι] in
/-- A block before the bitmap is not the node's own. -/
theorem before_ne (h : Held own f n) (hb : b.toNat < n.sb.bmapstart) (hpl : n.addr pl ≠ 0) :
    b ≠ n.addr pl := by
  rintro rfl
  have hdata := h.isData hpl
  have hbitmap := h.sound.layout.bmapstart_lt
  have hstart := hdata.1
  omega

/-- Nobody else notices. -/
theorem quiet_give (h : Held own f n) (ht : n.toDisk.Allocated b t) (hsb : n'.sb = n.sb)
    (hblock : ∀ c, (∀ pl, n.addr pl ≠ 0 → c ≠ n.addr pl) → n'.block c = t.block c) :
    Quiet own f (Function.update f (own pl) b) n n' where
  sb := hsb
  others := fun i hi => Function.update_of_ne (hi pl).symm b f
  block := by
    intro i hi hne
    rw [hblock (f i) fun pl' hpl' => h.other_ne hi hpl']
    exact ht.block (f i) (h.tenancy.vacant ht.data ht.free i) (h.tenancy.inRoom hne).offBitmap
  before := by
    intro c hc
    rw [hblock c fun pl' hpl' => h.before_ne hc hpl']
    refine ht.block c ?_ (Or.inl hc)
    rintro rfl
    have hbitmap := h.sound.layout.bmapstart_lt
    have hstart := ht.data.1
    omega

end Held

/-! ### Blocks that are added -/

/-- The inode has its old blocks with what they held, and new ones filled with zeros. -/
structure Grown (n n' : Node) : Prop where
  header : n'.ip = { n.ip with addrs := n'.ip.addrs }
  addr : ∀ pl, n.addr pl ≠ 0 → n'.addr pl = n.addr pl
  block : ∀ pl, pl ≠ .inl indirect → n.addr pl ≠ 0 → n'.block (n.addr pl) = n.block (n.addr pl)
  fresh : ∀ pl, pl ≠ .inl indirect → n.addr pl = 0 → n'.addr pl ≠ 0 →
    n'.block (n'.addr pl) = fun _ => 0

namespace Grown

theorem refl : Grown n n := ⟨rfl, fun _ _ => rfl, fun _ _ _ => rfl, fun _ _ h h' => absurd h h'⟩

theorem trans (h : Grown n n') (h' : Grown n' n'') : Grown n n'' where
  header := by rw [h'.header, h.header]
  addr := by
    intro pl hpl
    have hsame := h.addr pl hpl
    rw [h'.addr pl (hsame ▸ hpl), hsame]
  block := by
    intro pl hdata hpl
    have hsame := h.addr pl hpl
    have hblock := h'.block pl hdata (hsame ▸ hpl)
    rw [hsame] at hblock
    rw [hblock, h.block pl hdata hpl]
  fresh := by
    intro pl hdata hpl hpl''
    by_cases hpl' : n'.addr pl = 0
    · exact h'.fresh pl hdata hpl' hpl''
    · have hsame := h'.addr pl hpl'
      rw [hsame, h'.block pl hdata hpl', h.fresh pl hdata hpl hpl']

/-- One place gets a block, which is filled with zeros. -/
theorem of_give {b : UInt32} (hheader : n'.ip = { n.ip with addrs := n'.ip.addrs })
    (hempty : n.addr pl = 0) (hpl : n'.addr pl = b)
    (hothers : ∀ pl', pl' ≠ pl → n'.addr pl' = n.addr pl')
    (hsame : ∀ pl, pl ≠ .inl indirect → n.addr pl ≠ 0 → n'.block (n.addr pl) = n.block (n.addr pl))
    (hzero : n'.block b = fun _ => 0) : Grown n n' where
  header := hheader
  addr := by
    intro pl' hne
    refine hothers pl' ?_
    rintro rfl
    exact hne hempty
  block := hsame
  fresh := by
    intro pl' _ hempty' hne
    by_cases heq : pl' = pl
    · rw [heq, hpl, hzero]
    · exact absurd ((hothers pl' heq).trans hempty') hne

/-- A block of the file stays where it is. -/
theorem blk (h : Grown n n') {bn : Nat} (hbn : n.blk bn ≠ 0) : n'.blk bn = n.blk bn := by
  have hlt := Node.lt_of_blk hbn
  rw [Node.blk_eq hlt] at hbn ⊢
  rw [Node.blk_eq hlt]
  exact h.addr _ hbn

/-- **The file holds what it held.** -/
theorem byte (h : Grown n n') (p : Nat) : n'.byte p = n.byte p := by
  rw [Node.byte_eq, Node.byte_eq]
  by_cases hlt : p / BSIZE < MAXFILE
  · have hdata := filePlace_ne_indirect (p / BSIZE)
    rw [Node.blk_eq hlt, Node.blk_eq hlt]
    by_cases hold : n.addr (filePlace (p / BSIZE)) = 0
    · rw [if_pos hold]
      split
      · rfl
      next hnew => rw [h.fresh _ hdata hold hnew]
    · rw [h.addr _ hold, if_neg hold, if_neg hold, h.block _ hdata hold]
  · rw [Node.blk_eq_zero hlt, Node.blk_eq_zero hlt]
    rfl

end Grown

theorem NodeM.disk_iff {α : Type} {x : DiskM α} {Q : α → Node → Prop} {E : String → Node → Prop} :
    Ends (NodeM.disk x) n Q E ↔
      Ends x n.toDisk (fun a t => Q a { n with toDisk := t }) fun e t =>
        E e { n with toDisk := t } :=
  Ends.component_iff

theorem NodeM.disk_bread {Q : Block → Node → Prop} {E : String → Node → Prop} :
    Ends (NodeM.disk (bread b)) n Q E ↔ Q (n.block b) n := Iff.rfl

theorem NodeM.disk_store {Q : Unit → Node → Prop} {E : String → Node → Prop} :
    Ends (NodeM.disk (store b data)) n Q E ↔ Q ⟨⟩ { n with toDisk := n.toDisk.write b data } :=
  Iff.rfl

variable [DecidableEq ι]

/-- What code has done that returns a block of the inode. -/
structure Mapped (own : Place → ι) (f : ι → UInt32) (n : Node) (pl : Place) (b : UInt32)
    (n' : Node) : Prop where
  held : ∃ f', Held own f' n' ∧ Quiet own f f' n n'
  grown : Grown n n'
  addr : n'.addr pl = b
  ne_zero : b ≠ 0

omit [DecidableEq ι] in
/-- A block that has been allocated is none of the inode's. -/
theorem Held.addr_ne (h : Held own f n) (ht : n.toDisk.Allocated b t) (pl : Place) :
    n.addr pl ≠ b := by
  rw [← h.own_eq]
  exact h.tenancy.vacant ht.data ht.free _

omit [DecidableEq ι] in
/-- What `balloc` leaves alone. -/
theorem Held.block_allocated (h : Held own f n) (ht : n.toDisk.Allocated b t) (pl : Place)
    (hpl : n.addr pl ≠ 0) : t.block (n.addr pl) = n.block (n.addr pl) :=
  ht.block _ (h.addr_ne ht pl) (h.isData hpl).offBitmap

omit [DecidableEq ι] in
theorem Held.addr_giveAddr (h : Held own f n) {k : Fin (NDIRECT + 1)} (hzero : n.ip.addrs k = 0)
    (ht : n.toDisk.Allocated b t) {pl : Place} (hpl : pl ≠ .inl k) :
    ((⟨t, n.ip⟩ : Node).setAddr k b).addr pl = n.addr pl := by
  cases pl with
  | inl k' =>
      have hk : k' ≠ k := fun heq => hpl (congrArg Sum.inl heq)
      exact Function.update_of_ne hk b n.ip.addrs
  | inr j =>
      by_cases hk : k = indirect
      · subst hk
        simp [Node.addr, addrOf, Node.setAddr, hzero, ht.zeroed, entry_zeros]
      · have hind : Function.update n.ip.addrs k b indirect = n.ip.addrs indirect :=
          Function.update_of_ne (Ne.symm hk) b n.ip.addrs
        simp only [Node.addr, addrOf, Node.setAddr, hind]
        split
        · rfl
        next hne =>
          have hblock : t.block (n.ip.addrs indirect) = n.block (n.ip.addrs indirect) :=
            h.block_allocated ht (.inl indirect) hne
          rw [hblock]

/-- A block that has been allocated goes into the dinode. -/
theorem Held.giveAddr (h : Held own f n) {k : Fin (NDIRECT + 1)} (hzero : n.ip.addrs k = 0)
    (ht : n.toDisk.Allocated b t) :
    Mapped own f n (.inl k) b ((⟨t, n.ip⟩ : Node).setAddr k b) := by
  have hb : b ≠ 0 := h.tenancy.ne_zero ht.data
  have hothers : ∀ pl', pl' ≠ .inl k →
      ((⟨t, n.ip⟩ : Node).setAddr k b).addr pl' = n.addr pl' :=
    fun _ hpl' => h.addr_giveAddr hzero ht hpl'
  have hpl : ((⟨t, n.ip⟩ : Node).setAddr k b).addr (.inl k) = b := by
    simp [Node.addr, addrOf, Node.setAddr]
  have hempty : n.addr (.inl k) = 0 := hzero
  exact ⟨⟨_, h.give ht hempty ht.sb (fun _ _ => rfl) hpl hothers,
      h.quiet_give ht ht.sb fun _ _ => rfl⟩,
    .of_give rfl hempty hpl hothers (fun _ _ hne => h.block_allocated ht _ hne) ht.zeroed, hpl, hb⟩

/-- **`addrOrAlloc`.** -/
theorem Held.addrOrAlloc (h : Held own f n) (k : Fin (NDIRECT + 1)) :
    Ends (addrOrAlloc k) n (fun b n' => Mapped own f n (.inl k) b n') NoFreeing := by
  unfold Fs.addrOrAlloc
  rw [Ends.get_bind_iff]
  split
  next hzero =>
    rw [Ends.bind_iff, NodeM.disk_iff]
    refine (balloc_allocates h.sound).post fun b t ht => ?_
    rw [Ends.modify_bind_iff]
    exact h.giveAddr hzero ht
  next hne => exact ⟨⟨f, h, Quiet.refl⟩, Grown.refl, rfl, hne⟩

omit [DecidableEq ι] in
/-- The indirect block, with one entry more. -/
theorem Held.indirect_giveEntry (h : Held own f n) {j : Nat} (hind : n.ip.addrs indirect ≠ 0)
    (ht : n.toDisk.Allocated b t) {u : Disk} (hublock : u.block = Function.update t.block
      (n.ip.addrs indirect) (setEntry (t.block (n.ip.addrs indirect)) j b)) :
    u.block (n.ip.addrs indirect) = setEntry (n.block (n.ip.addrs indirect)) j b := by
  rw [hublock, Function.update_self]
  exact congrArg (fun a => setEntry a j b) (h.block_allocated ht (.inl indirect) hind)

omit [DecidableEq ι] in
theorem Held.addr_giveEntry (h : Held own f n) {j : Fin NINDIRECT}
    (hind : n.ip.addrs indirect ≠ 0) (ht : n.toDisk.Allocated b t) {u : Disk}
    (hublock : u.block = Function.update t.block
      (n.ip.addrs indirect) (setEntry (t.block (n.ip.addrs indirect)) j b)) {pl : Place}
    (hpl : pl ≠ .inr j) : (⟨u, n.ip⟩ : Node).addr pl = n.addr pl := by
  cases pl with
  | inl k => rfl
  | inr j' =>
      have hj : j.val ≠ j'.val := fun heq => hpl (congrArg Sum.inr (Fin.ext heq).symm)
      have hindblock := h.indirect_giveEntry hind ht hublock
      simp only [Node.addr, addrOf, if_neg hind, hindblock, entry_setEntry, if_neg hj]

/-- A block that has been allocated goes into the indirect block. -/
theorem Held.giveEntry (h : Held own f n) (j : Fin NINDIRECT) (hind : n.ip.addrs indirect ≠ 0)
    (hempty : entry (n.block (n.ip.addrs indirect)) j = 0) (ht : n.toDisk.Allocated b t)
    {u : Disk} (hsb : u.sb = n.sb) (hublock : u.block = Function.update t.block
      (n.ip.addrs indirect) (setEntry (t.block (n.ip.addrs indirect)) j b)) :
    Mapped own f n (.inr j) b ⟨u, n.ip⟩ := by
  have hdata : n.sb.IsData (n.ip.addrs indirect) := h.isData_indirect hind
  have hzero : n.addr (.inr j) = 0 := by
    rw [Node.addr, addrOf, if_neg hind]
    exact hempty
  have hb : b ≠ 0 := h.tenancy.ne_zero ht.data
  have hindb : n.ip.addrs indirect ≠ b := h.addr_ne ht (.inl indirect)
  have hblock : ∀ c, c ≠ n.ip.addrs indirect → u.block c = t.block c := by
    intro c hc
    rw [hublock, Function.update_of_ne hc]
  have hpl : (⟨u, n.ip⟩ : Node).addr (.inr j) = b := by
    have hindblock := h.indirect_giveEntry hind ht hublock
    simp only [Node.addr, addrOf, if_neg hind, hindblock, entry_setEntry, if_true]
  have hothers : ∀ pl', pl' ≠ .inr j → (⟨u, n.ip⟩ : Node).addr pl' = n.addr pl' :=
    fun _ hpl' => h.addr_giveEntry hind ht hublock hpl'
  have hsame : ∀ pl, pl ≠ .inl indirect → n.addr pl ≠ 0 →
      u.block (n.addr pl) = n.block (n.addr pl) := by
    intro pl hdatapl hpl'
    have hne : n.addr pl ≠ n.ip.addrs indirect :=
      fun heq => hdatapl (h.addr_inj hpl' (show n.addr pl = n.addr (.inl indirect) from heq))
    rw [hblock _ hne, h.block_allocated ht _ hpl']
  refine ⟨⟨_, h.give ht hzero hsb ?_ hpl hothers, h.quiet_give ht hsb ?_⟩,
    .of_give rfl hzero hpl hothers hsame ?_, hpl, hb⟩
  · intro m hm
    have hsame : (t.write (n.ip.addrs indirect)
        (setEntry (t.block (n.ip.addrs indirect)) j b)).SameBlocks u :=
      ⟨hsb.trans ht.sb.symm, hublock⟩
    change u.isFree m = _
    rw [hsame.isFree]
    refine Disk.isFree_write (ht.sb ▸ h.sound.layout) (ht.sb ▸ hm) ?_
    rw [show t.sb = n.sb from ht.sb]
    exact hdata.offBitmap
  · intro c hc
    exact hblock c (hc (.inl indirect) hind)
  · rw [hblock b hindb.symm]
    exact ht.zeroed

/-- An entry of the indirect block, allocated if it is zero. -/
theorem Held.entryOrAlloc (h : Held own f n) (j : Fin NINDIRECT) (hind : n.ip.addrs indirect ≠ 0)
    (hempty : entry (n.block (n.ip.addrs indirect)) j = 0) :
    Ends (do
      let addr ← NodeM.disk balloc
      let a ← NodeM.disk (bread (n.ip.addrs indirect))
      NodeM.disk (store (n.ip.addrs indirect) (setEntry a j addr))
      NodeM.disk (logWrite (n.ip.addrs indirect))
      return addr) n (fun b n' => Mapped own f n (.inr j) b n') NoFreeing := by
  rw [Ends.bind_iff, NodeM.disk_iff]
  refine (balloc_allocates h.sound).post fun b t ht => ?_
  rw [Ends.bind_iff, NodeM.disk_bread, Ends.bind_iff, NodeM.disk_store, Ends.bind_iff,
    NodeM.disk_iff]
  exact logWrite_same.post fun _ u hu => h.giveEntry j hind hempty ht (hu.sb.trans ht.sb) hu.block

/-- **`bmap`** returns a block of the file. -/
theorem Held.bmap (h : Held own f n) (bn : Nat) :
    Ends (bmap bn) n (fun b n' => bn < MAXFILE ∧ Mapped own f n (filePlace bn) b n') NoFreeing := by
  unfold Fs.bmap
  split
  next hlow =>
    have hplace : filePlace bn = .inl (direct bn hlow) := by
      unfold filePlace
      rw [dif_pos hlow]
    rw [hplace]
    exact (h.addrOrAlloc _).post fun b n' hb => ⟨by unfold MAXFILE; omega, hb⟩
  next hhigh =>
    split
    next hroom =>
      have hplace : filePlace bn = .inr ⟨bn - NDIRECT, hroom⟩ := by
        unfold filePlace
        rw [dif_neg hhigh]
        exact congrArg Sum.inr (Fin.ext (Nat.mod_eq_of_lt hroom))
      rw [hplace]
      have hbn : bn < MAXFILE := by
        unfold MAXFILE
        omega
      refine (h.addrOrAlloc indirect).bind fun ind n₁ hn₁ => ?_
      obtain ⟨⟨f₁, h₁, hquiet₁⟩, hgrown₁, haddr, hne⟩ := hn₁
      have hind : n₁.ip.addrs indirect = ind := haddr
      subst hind
      rw [Ends.bind_iff, NodeM.disk_bread]
      split
      next hzero =>
        refine (h₁.entryOrAlloc ⟨bn - NDIRECT, hroom⟩ hne hzero).post fun b n₂ hn₂ => ?_
        obtain ⟨⟨f₂, h₂, hquiet₂⟩, hgrown₂, hb, hbne⟩ := hn₂
        exact ⟨hbn, ⟨f₂, h₂, hquiet₁.trans hquiet₂⟩, hgrown₁.trans hgrown₂, hb, hbne⟩
      next hentry =>
        refine ⟨hbn, ⟨f₁, h₁, hquiet₁⟩, hgrown₁, ?_, hentry⟩
        simp [Node.addr, addrOf, hne]
    next => exact (by decide : "bmap: out of range" ≠ freeingFree)

omit [DecidableEq ι] in
theorem addrOrAlloc_eq {k : Fin (NDIRECT + 1)} (hk : n.ip.addrs k ≠ 0) :
    addrOrAlloc k n = .ok (n.ip.addrs k) n := by
  change (if n.ip.addrs k = 0 then _ else pure (n.ip.addrs k) : NodeM UInt32) n = _
  rw [if_neg hk]
  rfl

omit [DecidableEq ι] in
/-- A block that is there is looked up. -/
theorem bmap_eq {bn : Nat} (hbn : n.blk bn ≠ 0) : bmap bn n = .ok (n.blk bn) n := by
  have hlt : bn < MAXFILE := Node.lt_of_blk hbn
  rw [Node.blk_eq hlt] at hbn ⊢
  unfold bmap
  split
  next hlow =>
    have hplace : filePlace bn = .inl (direct bn hlow) := dif_pos hlow
    rw [hplace] at hbn ⊢
    exact addrOrAlloc_eq hbn
  next hhigh =>
    have hroom : bn - NDIRECT < NINDIRECT := by
      unfold MAXFILE at hlt
      omega
    have hplace : filePlace bn = .inr ⟨bn - NDIRECT, hroom⟩ := by
      unfold filePlace
      rw [dif_neg hhigh]
      exact congrArg Sum.inr (Fin.ext (Nat.mod_eq_of_lt hroom))
    rw [hplace] at hbn ⊢
    have hind : n.ip.addrs indirect ≠ 0 := by
      intro hzero
      exact hbn (if_pos hzero)
    have haddr : n.addr (.inr ⟨bn - NDIRECT, hroom⟩) =
        entry (n.block (n.ip.addrs indirect)) (bn - NDIRECT) := if_neg hind
    rw [haddr] at hbn ⊢
    rw [if_pos hroom]
    simp only [bind, EStateM.bind, addrOrAlloc_eq hind]
    change (if entry (n.block (n.ip.addrs indirect)) (bn - NDIRECT) = 0 then _
      else pure (entry (n.block (n.ip.addrs indirect)) (bn - NDIRECT)) : NodeM UInt32) n = _
    rw [if_neg hbn]
    rfl

/-! ### Writing -/

omit [DecidableEq ι] in
/-- The blocks of a file are apart. -/
theorem Held.blk_inj (h : Held own f n) {bn bn' : Nat} (hbn : n.blk bn ≠ 0)
    (heq : n.blk bn = n.blk bn') : bn = bn' := by
  have hlt : bn < MAXFILE := Node.lt_of_blk hbn
  have hlt' : bn' < MAXFILE := Node.lt_of_blk (heq ▸ hbn)
  rw [Node.blk_eq hlt] at hbn
  rw [Node.blk_eq hlt, Node.blk_eq hlt'] at heq
  exact filePlace_inj hlt hlt' (h.addr_inj hbn heq)

/-- A block of the file has been written to. -/
structure WroteBlock (n : Node) (bn : Nat) (data : Block) (n' : Node) : Prop where
  sb : n'.sb = n.sb
  ip : n'.ip = n.ip
  block : n'.block = Function.update n.block (n.blk bn) data

namespace WroteBlock

omit [DecidableEq ι]

variable {bn : Nat}

theorem addr (hw : WroteBlock n bn data n') (h : Held own f n) (hbn : n.blk bn ≠ 0) (pl : Place) :
    n'.addr pl = n.addr pl := by
  have hlt : bn < MAXFILE := Node.lt_of_blk hbn
  have hind : n.ip.addrs indirect ≠ n.blk bn := by
    intro heq
    rw [Node.blk_eq hlt] at heq hbn
    exact filePlace_ne_indirect bn (h.addr_inj hbn
      (show n.addr (filePlace bn) = n.addr (.inl indirect) from heq.symm))
  cases pl with
  | inl k => simp only [Node.addr, addrOf, hw.ip]
  | inr j => simp only [Node.addr, addrOf, hw.ip, hw.block, Function.update_of_ne hind]

theorem held (hw : WroteBlock n bn data n') (h : Held own f n) (hbn : n.blk bn ≠ 0) :
    Held own f n' := by
  have hlt : bn < MAXFILE := Node.lt_of_blk hbn
  refine h.same hw.sb ?_ (hw.addr h hbn)
  intro m hm
  have hdata : n.sb.IsData (n.blk bn) := h.isData_blk hbn
  have hsame : (n.toDisk.write (n.blk bn) data).SameBlocks n'.toDisk := ⟨hw.sb, hw.block⟩
  rw [hsame.isFree, Disk.isFree_write h.sound.layout hm hdata.offBitmap]

theorem quiet (hw : WroteBlock n bn data n') (h : Held own f n) (hbn : n.blk bn ≠ 0) :
    Quiet own f f n n' := by
  have hlt : bn < MAXFILE := Node.lt_of_blk hbn
  rw [Node.blk_eq hlt] at hbn
  have hblock := hw.block
  rw [Node.blk_eq hlt] at hblock
  refine ⟨⟨hw.sb, fun _ _ => rfl, ?_⟩, ?_⟩
  · intro i hi _
    rw [hblock, Function.update_of_ne (h.other_ne hi hbn)]
  · intro c hc
    rw [hblock, Function.update_of_ne (h.before_ne hc hbn)]

theorem blk (hw : WroteBlock n bn data n') (h : Held own f n) (hbn : n.blk bn ≠ 0) (k : Nat) :
    n'.blk k = n.blk k := Node.blk_congr (hw.addr h hbn _)

/-- **What the file holds then.** -/
theorem byte (hw : WroteBlock n bn data n') (h : Held own f n) (hbn : n.blk bn ≠ 0) (p : Nat) :
    n'.byte p = if p / BSIZE = bn then data (p % BSIZE) else n.byte p := by
  rw [Node.byte_eq, hw.blk h hbn]
  split
  next hzero =>
    have hne : p / BSIZE ≠ bn := by
      rintro rfl
      exact hbn hzero
    rw [if_neg hne, Node.byte_eq, if_pos hzero]
  next hp =>
    rw [hw.block]
    by_cases heq : p / BSIZE = bn
    · rw [heq, Function.update_self, if_pos rfl]
    · have hne : n.blk (p / BSIZE) ≠ n.blk bn := fun hblk => heq (h.blk_inj hp hblk)
      rw [Function.update_of_ne hne, if_neg heq, Node.byte_eq, if_neg hp]

end WroteBlock

end Fs
