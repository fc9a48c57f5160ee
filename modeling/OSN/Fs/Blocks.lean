import OSN.Fs.Disk

/-!
# The regions of the disk and the bitmap

The superblock puts the inode blocks before the bitmap and the bitmap before the data
blocks; the bitmap has the blocks before the data marked as used, so `balloc` finds a
block among the data.  What `balloc` and `bfree` do is said once, in terms of which
blocks are free and of the blocks that stay as they are.
-/

namespace Fs

/-! ### The regions -/

namespace Superblock

/-- The first data block. -/
def dataStart (sb : Superblock) : Nat := sb.size - sb.nblocks

/-- The inode blocks, the bitmap and the data blocks follow each other. -/
structure Sound (sb : Superblock) : Prop where
  inodes : ∀ i < sb.ninodes, i / IPB + sb.inodestart < sb.bmapstart
  bitmap : ∀ b < sb.size, b / BPB + sb.bmapstart < sb.dataStart
  nonempty : 0 < sb.size
  fits : sb.size < 2 ^ 32

/-- The block is a data block. -/
def IsData (sb : Superblock) (b : UInt32) : Prop := sb.dataStart ≤ b.toNat ∧ b.toNat < sb.size

/-- The block lies before the bitmap or behind it. -/
def OffBitmap (sb : Superblock) (b : UInt32) : Prop :=
  b.toNat < sb.bmapstart ∨ sb.dataStart ≤ b.toNat

variable {sb : Superblock} {b c : UInt32} {i j n m : Nat}

theorem IsData.offBitmap (h : sb.IsData b) : sb.OffBitmap b := Or.inr h.1

theorem Sound.BBLOCK_toNat (h : sb.Sound) (hn : n < sb.size) :
    (sb.BBLOCK n).toNat = n / BPB + sb.bmapstart := by
  have hbitmap := h.bitmap n hn
  have hfits := h.fits
  unfold dataStart at hbitmap
  exact UInt32.toNat_ofNat_of_lt' (by unfold UInt32.size; omega)

theorem Sound.IBLOCK_toNat (h : sb.Sound) (hi : i < sb.ninodes) :
    (sb.IBLOCK i).toNat = i / IPB + sb.inodestart := by
  have hinodes := h.inodes i hi
  have hbitmap := h.bitmap 0 h.nonempty
  have hfits := h.fits
  rw [Nat.zero_div, Nat.zero_add] at hbitmap
  unfold dataStart at hbitmap
  exact UInt32.toNat_ofNat_of_lt' (by unfold UInt32.size; omega)

/-- A block of the bitmap is no other block. -/
theorem Sound.BBLOCK_ne (h : sb.Sound) (hn : n < sb.size) (hb : sb.OffBitmap b) :
    sb.BBLOCK n ≠ b := by
  rintro rfl
  have hbitmap := h.bitmap n hn
  unfold OffBitmap at hb
  rw [h.BBLOCK_toNat hn] at hb
  generalize n / BPB = q at hb hbitmap
  omega

/-- An inode block lies before the bitmap. -/
theorem Sound.IBLOCK_lt (h : sb.Sound) (hi : i < sb.ninodes) :
    (sb.IBLOCK i).toNat < sb.bmapstart := by
  rw [h.IBLOCK_toNat hi]
  exact h.inodes i hi

theorem Sound.IBLOCK_offBitmap (h : sb.Sound) (hi : i < sb.ninodes) :
    sb.OffBitmap (sb.IBLOCK i) :=
  Or.inl (h.IBLOCK_lt hi)

/-- The bitmap lies before the data blocks. -/
theorem Sound.bmapstart_lt (h : sb.Sound) : sb.bmapstart < sb.dataStart := by
  have hbitmap := h.bitmap 0 h.nonempty
  rwa [Nat.zero_div, Nat.zero_add] at hbitmap

/-- An inode block is no data block. -/
theorem Sound.IBLOCK_ne (h : sb.Sound) (hi : i < sb.ninodes) (hb : sb.IsData b) :
    sb.IBLOCK i ≠ b := by
  rintro rfl
  have hlt := h.IBLOCK_lt hi
  have hbitmap := h.bmapstart_lt
  have hdata := hb.1
  omega

/-- Block 0 is no data block. -/
theorem Sound.not_isData_zero (h : sb.Sound) : ¬ sb.IsData 0 := by
  intro hzero
  have hbitmap := h.bmapstart_lt
  have hdata := hzero.1
  rw [UInt32.toNat_zero] at hdata
  omega

/-- The bit of a block tells it from the other blocks. -/
theorem Sound.bit_ne (h : sb.Sound) (hn : n < sb.size) (hm : m < sb.size)
    (hblock : sb.BBLOCK n = sb.BBLOCK m) : n % BPB = m % BPB ↔ n = m := by
  have hdiv : n / BPB + sb.bmapstart = m / BPB + sb.bmapstart := by
    rw [← h.BBLOCK_toNat hn, ← h.BBLOCK_toNat hm, hblock]
  constructor
  · intro hmod
    have hn' := Nat.div_add_mod n BPB
    have hm' := Nat.div_add_mod m BPB
    rw [hmod, Nat.add_right_cancel hdiv] at hn'
    omega
  · rintro rfl
    rfl

end Superblock

/-! ### Free blocks -/

namespace Disk

/-- The superblock is sound, and all before the data blocks is in use. -/
structure Sound (d : Disk) : Prop where
  layout : d.sb.Sound
  reserved : ∀ b < d.sb.dataStart, d.isFree b = false

/-- The block is marked as used. -/
def Used (d : Disk) (b : UInt32) : Prop := d.isFree b.toNat = false

/-- Two disks with the same contents. -/
structure SameBlocks (d t : Disk) : Prop where
  sb : t.sb = d.sb
  block : t.block = d.block

variable {d t u : Disk} {b c : UInt32} {n m : Nat} {data : Block}

theorem SameBlocks.isFree (h : SameBlocks d t) : t.isFree n = d.isFree n := by
  unfold Disk.isFree
  rw [h.sb, h.block]

theorem SameBlocks.trans (h : SameBlocks d t) (h' : SameBlocks t u) : SameBlocks d u :=
  ⟨h'.sb.trans h.sb, h'.block.trans h.block⟩

theorem write_self : (d.write b data).block b = data := Function.update_self _ _ _

theorem write_ne (h : c ≠ b) : (d.write b data).block c = d.block c := Function.update_of_ne h _ _

/-- A write off the bitmap frees nothing. -/
theorem isFree_write (h : d.sb.Sound) (hn : n < d.sb.size) (hb : d.sb.OffBitmap b) :
    (d.write b data).isFree n = d.isFree n := by
  unfold Disk.isFree
  rw [show (d.write b data).sb = d.sb from rfl, write_ne (h.BBLOCK_ne hn hb)]

/-- Another bit of the bitmap. -/
theorem isFree_setBit (h : d.sb.Sound) (hn : n < d.sb.size) (hm : m < d.sb.size) :
    (d.write (d.sb.BBLOCK n) (Bytes.setBit (d.block (d.sb.BBLOCK n)) (n % BPB))).isFree m =
      (d.isFree m && decide (m ≠ n)) := by
  unfold Disk.isFree
  rw [show (d.write (d.sb.BBLOCK n) _).sb = d.sb from rfl]
  by_cases hblock : d.sb.BBLOCK n = d.sb.BBLOCK m
  · rw [← hblock, write_self, Bytes.bit_setBit, if_congr (h.bit_ne hn hm hblock) rfl rfl]
    by_cases heq : n = m
    · simp [heq]
    · simp [heq, Ne.symm heq]
  · have hne : m ≠ n := by
      rintro rfl
      exact hblock rfl
    rw [write_ne (Ne.symm hblock)]
    simp [hne]

theorem isFree_clearBit (h : d.sb.Sound) (hn : n < d.sb.size) (hm : m < d.sb.size) :
    (d.write (d.sb.BBLOCK n) (Bytes.clearBit (d.block (d.sb.BBLOCK n)) (n % BPB))).isFree m =
      (d.isFree m || decide (m = n)) := by
  unfold Disk.isFree
  rw [show (d.write (d.sb.BBLOCK n) _).sb = d.sb from rfl]
  by_cases hblock : d.sb.BBLOCK n = d.sb.BBLOCK m
  · rw [← hblock, write_self, Bytes.bit_clearBit, if_congr (h.bit_ne hn hm hblock) rfl rfl]
    by_cases heq : n = m
    · simp [heq]
    · simp [heq, Ne.symm heq]
  · have hne : m ≠ n := by
      rintro rfl
      exact hblock rfl
    rw [write_ne (Ne.symm hblock)]
    simp [hne]

/-- What `balloc` has done when it returns `b`. -/
structure Allocated (d : Disk) (b : UInt32) (t : Disk) : Prop where
  data : d.sb.IsData b
  free : ¬ d.Used b
  sb : t.sb = d.sb
  isFree : ∀ n < d.sb.size, t.isFree n = (d.isFree n && decide (n ≠ b.toNat))
  zeroed : t.block b = fun _ => 0
  block : ∀ c, c ≠ b → d.sb.OffBitmap c → t.block c = d.block c

/-- What `bfree` of `b` has done. -/
structure Freed (d : Disk) (b : UInt32) (t : Disk) : Prop where
  sb : t.sb = d.sb
  isFree : ∀ n < d.sb.size, t.isFree n = (d.isFree n || decide (n = b.toNat))
  block : ∀ c, d.sb.OffBitmap c → t.block c = d.block c

end Disk

/-- The panic of `bfree`. -/
def freeingFree : String := "freeing free block"

/-- The code has not freed a block that is free. -/
abbrev NoFreeing {σ : Type} (e : String) (_ : σ) : Prop := e ≠ freeingFree

variable {d : Disk} {b : UInt32} {data : Block}

theorem logWrite_same : Ends (logWrite b) d (fun _ t => d.SameBlocks t) NoFreeing := by
  unfold logWrite
  rw [Ends.get_bind_iff]
  split
  · exact (by decide : "too big a transaction" ≠ freeingFree)
  · split
    · exact (by decide : "log_write outside of trans" ≠ freeingFree)
    · split
      · exact ⟨rfl, rfl⟩
      · exact ⟨rfl, rfl⟩

theorem bzero_zeroes :
    Ends (bzero b) d (fun _ t => (d.write b fun _ => 0).SameBlocks t) NoFreeing :=
  logWrite_same

/-- **`balloc`** returns a data block that was free, filled with zeros. -/
theorem balloc_allocates (h : d.Sound) :
    Ends balloc d (fun b t => d.Allocated b t) NoFreeing := by
  unfold balloc
  rw [Ends.get_bind_iff]
  split
  next n hfound =>
    have hfree : d.isFree n = true := List.find?_some hfound
    have hn : n < d.sb.size := List.mem_range.mp (List.mem_of_find?_eq_some hfound)
    have hstart : d.sb.dataStart ≤ n := by
      by_contra hlow
      rw [h.reserved n (by omega)] at hfree
      cases hfree
    have hfits := h.layout.fits
    have htoNat : (UInt32.ofNat n).toNat = n :=
      UInt32.toNat_ofNat_of_lt' (by unfold UInt32.size; omega)
    have hdata : d.sb.IsData (UInt32.ofNat n) := by
      unfold Superblock.IsData
      rw [htoNat]
      exact ⟨hstart, hn⟩
    unfold store
    rw [Ends.modify_bind_iff]
    refine logWrite_same.bind fun _ t ht => bzero_zeroes.bind fun _ u hu => ?_
    have hsb : (t.write (UInt32.ofNat n) fun _ => 0).sb = d.sb := ht.sb
    have hblock : ∀ c, c ≠ UInt32.ofNat n → d.sb.OffBitmap c → u.block c = d.block c := by
      intro c hc hoff
      rw [hu.block, Disk.write_ne hc, ht.block,
        Disk.write_ne (h.layout.BBLOCK_ne hn hoff).symm]
    refine ⟨hdata, ?_, hu.sb.trans hsb, ?_, ?_, hblock⟩
    · unfold Disk.Used
      rw [htoNat, hfree]
      decide
    · intro m hm
      have hoff : t.sb.OffBitmap (UInt32.ofNat n) := by
        rw [ht.sb]
        exact hdata.offBitmap
      have hm' : m < t.sb.size := by
        rw [ht.sb]
        exact hm
      rw [hu.isFree, Disk.isFree_write (ht.sb ▸ h.layout) hm' hoff, ht.isFree,
        Disk.isFree_setBit h.layout hn hm, htoNat]
    · rw [hu.block, Disk.write_self]
  next => exact (by decide : "balloc: out of blocks" ≠ freeingFree)

/-- **`bfree`** frees a used data block; it panics on a free one only. -/
theorem bfree_frees (h : d.sb.Sound) (hb : b.toNat < d.sb.size) (hused : d.Used b) :
    Ends (bfree b) d (fun _ t => d.Freed b t) NoFreeing := by
  unfold bfree
  rw [Ends.get_bind_iff]
  split
  next hfree =>
    rw [show d.isFree b.toNat = false from hused] at hfree
    cases hfree
  next =>
    unfold store
    rw [Ends.modify_bind_iff]
    refine logWrite_same.post fun _ t ht => ⟨ht.sb, ?_, ?_⟩
    · intro n hn
      rw [ht.isFree, Disk.isFree_clearBit h hb hn]
    · intro c hc
      rw [ht.block, Disk.write_ne (h.BBLOCK_ne hb hc).symm]

end Fs
