import OSN.Fs.MkfsImage

/-!
# What is on the image

The root directory has an entry for itself, for its parent (itself again) and for each
file, in the order of the command line; the inode of file `k` is `k + 2`.
-/

namespace Fs

open Mkfs

/-! ### The files that fit -/

/-- The entries of the root directory. -/
def rootEntries (files : List SourceFile) : List Dirent :=
  ⟨ROOTINO, strncpy DIRSIZ dot⟩ :: ⟨ROOTINO, strncpy DIRSIZ dotdot⟩ ::
    files.mapIdx fun k file => ⟨k + 2, strncpy DIRSIZ file.name⟩

/-- And their bytes. -/
def rootData (files : List SourceFile) : List UInt8 := (rootEntries files).flatMap Dirent.bytes

/-- The blocks that a root directory and files of these lengths take. -/
def blocksUsed (root : Nat) (files : List (List UInt8)) : Nat :=
  blocksFor root + (files.map fun l => blocksFor l.length).sum

/-- The files can be put on an image: no name is a path, and there is room. -/
structure Fits (files : List SourceFile) : Prop where
  slash : ∀ file ∈ files, SLASH ∉ file.shortname
  inodes : files.length + 2 ≤ NINODES
  length : ∀ file ∈ files, file.data.length ≤ MAXFILE * BSIZE
  blocks : nmeta + blocksUsed (DIRENTSIZE * (files.length + 2)) (files.map SourceFile.data) ≤ FSSIZE

theorem rootEntries_concat (files : List SourceFile) (file : SourceFile) :
    rootEntries (files ++ [file]) =
      rootEntries files ++ [⟨files.length + 2, strncpy DIRSIZ file.name⟩] := by
  simp [rootEntries, List.mapIdx_concat]

theorem rootEntries_length (files : List SourceFile) :
    (rootEntries files).length = files.length + 2 := by
  simp [rootEntries]

/-- Each entry has `DIRENTSIZE` bytes. -/
theorem rootEntries_bytes (files : List SourceFile) :
    ∀ de ∈ rootEntries files, (Dirent.bytes de).length = DIRENTSIZE := by
  intro de hde
  simp only [rootEntries, List.mem_cons, List.mem_mapIdx] at hde
  rcases hde with rfl | rfl | ⟨k, hk, rfl⟩ <;> exact Dirent.bytes_length strncpy_length

theorem rootData_concat (files : List SourceFile) (file : SourceFile) :
    rootData (files ++ [file]) =
      rootData files ++ Dirent.bytes ⟨files.length + 2, strncpy DIRSIZ file.name⟩ := by
  unfold rootData
  rw [rootEntries_concat, List.flatMap_append]
  simp

theorem rootData_length (files : List SourceFile) :
    (rootData files).length = DIRENTSIZE * (files.length + 2) := by
  unfold rootData
  rw [List.length_flatMap, List.map_congr_left (rootEntries_bytes files), List.map_const',
    List.sum_replicate_nat, rootEntries_length, Nat.mul_comm]

theorem blocksFor_mono {l k : Nat} (h : l ≤ k) : blocksFor l ≤ blocksFor k := by
  unfold blocksFor NDIRECT BSIZE
  split <;> split <;> omega

/-! ### The image as it is built -/

/-- The root directory and the files are on the image; the other inodes are free. -/
structure Made (m : Image) (size : Nat) (root : List UInt8) (files : List (List UInt8)) : Prop where
  ok : m.Ok
  owned : m.fs.Owned []
  next : m.freeinode = files.length + 2
  inodes : files.length + 2 ≤ NINODES
  rootDir : Holds m.disk ROOTINO T_DIR size root
  rootEnds : EndsAt m.disk ROOTINO root.length
  fileAt : ∀ k (hk : k < files.length), Holds m.disk (k + 2) T_FILE files[k].length files[k]
  unused : ∀ k < NINODES, (k = 0 ∨ files.length + 2 ≤ k) → (m.disk.dinode k).type = 0
  space : m.freeblock ≤ nmeta + blocksUsed root.length files

/-- All but the superblock is zero. -/
theorem blank_block {c : UInt32} (hc : c ≠ 1) : blank.block c = fun _ => 0 := by
  simp [blank, hc]

theorem blank_ok : blank.Ok := by
  refine ⟨Nat.le_refl _, by decide, fun c hc => ?_, rfl⟩
  have hne : c ≠ 1 := by
    rintro rfl
    exact absurd hc (by decide)
  exact blank_block hne

theorem dinode_zeros {off : Nat} : Dinode.ofBlock (fun _ => 0) off = Dinode.zero := by
  have h16 : ∀ k, Dinode.field16 (fun _ => 0) k = 0 := fun k => by
    unfold Dinode.field16
    rw [Bytes.slice_zeros, Bytes.ofLe_zeros]
    rfl
  have h32 : ∀ k, Dinode.field32 (fun _ => 0) k = 0 := fun k => by
    unfold Dinode.field32
    rw [Bytes.slice_zeros, Bytes.ofLe_zeros]
    rfl
  simp only [Dinode.ofBlock, Dinode.zero, h16, h32]

theorem blank_dinode {k : Nat} (hk : k < NINODES) : blank.disk.dinode k = Dinode.zero := by
  have hne : mkfsSb.IBLOCK k ≠ 1 := by
    intro heq
    have hnat := mkfsSb_sound.IBLOCK_toNat hk
    have hone : (mkfsSb.IBLOCK k).toNat = 1 := congrArg UInt32.toNat heq
    have hinode : 1 < mkfsSb.inodestart := by decide
    generalize k / IPB = q at hnat
    omega
  rw [Image.dinode_eq hk, blank_block hne, dinode_zeros]

theorem blank_owned : blank.fs.Owned [] := by
  have hnone : ∀ x, blank.fs.tenant [] x = 0 := by
    intro x
    cases x with
    | inr k => rfl
    | inl x =>
        refine FileSys.tenant_of_bare (fun inum hinum k => ?_) x.1 x.2
        rw [Image.fs_copy, blank_dinode hinum]
        rfl
  refine ⟨Image.fs_table, blank_ok.sound, mkfsSb_sound.not_isData_zero, ?_, ?_, ?_⟩
  · intro x y hx
    exact absurd (hnone x) hx
  · intro x hx
    exact absurd (hnone x) hx
  · intro b hb
    refine iff_of_false ?_ ?_
    · intro hused
      have hlt := (Image.used_iff hb).mp hused
      have hstart : mkfsSb.dataStart ≤ b.toNat := hb.1
      rw [mkfsSb_dataStart] at hstart
      exact Nat.lt_irrefl _ (Nat.lt_of_lt_of_le hlt hstart)
    · rintro ⟨x, hx⟩
      rw [hnone x] at hx
      exact mkfsSb_sound.not_isData_zero (hx ▸ hb)

/-! ### One step after the other -/

section Steps

variable {m m' : Image} {size inum : Nat} {root p d : List UInt8} {files : List (List UInt8)}

theorem blocksUsed_concat :
    blocksUsed size (files ++ [d]) = blocksUsed size files + blocksFor d.length := by
  simp [blocksUsed, Nat.add_assoc]

/-- The files with other numbers stay. -/
theorem Made.others (h : Made m size root files) (hothers : SameOthers inum m.disk m'.disk)
    {k : Nat} (hk : k < files.length) (hne : k + 2 ≠ inum) :
    Holds m'.disk (k + 2) T_FILE files[k].length files[k] := by
  have hlt := h.inodes
  exact hothers.holds (by omega) hne (h.fileAt k hk) (by decide)

/-- **Bytes are appended to the root directory.** -/
theorem Made.appendRoot (h : Made m root.length root files) :
    InRoom (root.length + p.length ≤ MAXFILE * BSIZE ∧
        nmeta + blocksUsed (root.length + p.length) files ≤ FSSIZE)
      (iappend ROOTINO p) m fun _ m' => Made m' (root ++ p).length (root ++ p) files := by
  have hspace := h.space
  have hsize := h.rootDir.size
  have hroot : ROOTINO < NINODES := by decide
  have hends := Image.iappend_endsAt (p := p) hroot (hsize ▸ h.rootEnds)
  rw [hsize] at hends
  refine ((Image.iappend_appends (p := p) h.ok h.owned (by decide) h.rootDir (by decide)).and
    hends).mono ?_ ?_
  · rintro _ m' ⟨⟨hspent, howned, hothers, hholds, hbehind⟩, haddrs⟩
    have hmono : blocksFor root.length ≤ blocksFor (root.length + p.length) :=
      blocksFor_mono (Nat.le_add_right _ _)
    refine ⟨hspent.ok, howned, hspent.freeinode.trans h.next, h.inodes, hholds, ⟨?_, ?_⟩, ?_, ?_,
      ?_⟩
    · rw [List.length_append]
      exact haddrs
    · intro i hi
      rw [List.length_append] at hi
      rw [hbehind i hi]
      exact h.rootEnds.content i (Nat.le_trans (Nat.le_add_right _ _) hi)
    · intro k hk
      exact h.others hothers hk (by unfold ROOTINO; omega)
    · intro k hk hfree
      rw [hothers.dinode k hk (by unfold ROOTINO; omega)]
      exact h.unused k hk hfree
    · have hblocks := hspent.freeblock
      rw [List.length_append]
      unfold blocksUsed at hspace ⊢
      omega
  · rintro _ _ ⟨hno, -⟩ ⟨hfile, hroom⟩
    unfold blocksUsed at hroom hspace
    exact hno ⟨hfile, by omega⟩

/-- **A new file**, empty at first. -/
theorem Made.allocFile (h : Made m size root files) (hinodes : files.length + 2 < NINODES) :
    Succeeds (Mkfs.ialloc T_FILE) m fun r m' =>
      r = files.length + 2 ∧ Made m' size root (files ++ [[]]) := by
  have hnext := h.next
  refine (Image.ialloc_makes h.ok h.owned (hnext ▸ hinodes)
    (h.unused _ (hnext ▸ hinodes) (Or.inr (Nat.le_of_eq hnext.symm))) (by decide)).post
    fun r m' hm' => ?_
  obtain ⟨⟨hr, hfreeinode, hfreeblock, hok⟩, howned, hothers, hholds, -⟩ := hm'
  rw [hnext] at hothers hholds
  have hother : ROOTINO ≠ files.length + 2 := by
    unfold ROOTINO
    omega
  refine ⟨hr.trans hnext, hok, howned, ?_, ?_, hothers.holds (by decide) hother h.rootDir (by decide),
    hothers.endsAt (by decide) hother h.rootDir (by decide) h.rootEnds, ?_, ?_, ?_⟩
  · rw [hfreeinode, hnext, List.length_append]
    rfl
  · rw [List.length_append]
    exact hinodes
  · intro k hk
    rw [List.length_append] at hk
    by_cases hold : k < files.length
    · rw [List.getElem_append_left hold]
      exact h.others hothers hold (by omega)
    · obtain rfl : k = files.length := Nat.le_antisymm (Nat.le_of_lt_succ hk)
        (Nat.le_of_not_lt hold)
      rw [List.getElem_concat_length rfl]
      exact hholds
  · intro k hk hfree
    rw [List.length_append] at hfree
    have hne : k ≠ files.length + 2 := by
      rcases hfree with rfl | hfree
      · omega
      · exact Nat.ne_of_gt hfree
    rw [hothers.dinode k hk hne]
    exact h.unused k hk (hfree.imp_right Nat.le_of_succ_le)
  · rw [blocksUsed_concat]
    have hspace := h.space
    omega

/-- **Bytes are appended to the file made last.** -/
theorem Made.appendFile (h : Made m size root (files ++ [d])) :
    InRoom (d.length + p.length ≤ MAXFILE * BSIZE ∧
        nmeta + blocksUsed root.length (files ++ [d ++ p]) ≤ FSSIZE)
      (iappend (files.length + 2) p) m fun _ m' => Made m' size root (files ++ [d ++ p]) := by
  have hspace := h.space
  have hinodes := h.inodes
  have hlast := h.fileAt files.length (by simp)
  rw [List.length_append] at hinodes
  rw [List.getElem_concat_length rfl] at hlast
  rw [blocksUsed_concat] at hspace
  have hinum : files.length + 2 < NINODES := hinodes
  have hother : ROOTINO ≠ files.length + 2 := by
    unfold ROOTINO
    omega
  refine ((Image.iappend_appends (p := p) h.ok h.owned hinum hlast (by decide)).weaken ?_).post
    fun _ m' hm' => ?_
  · rintro ⟨hfile, hroom⟩
    rw [blocksUsed_concat, List.length_append] at hroom
    exact ⟨hfile, by omega⟩
  obtain ⟨hspent, howned, hothers, hholds, -⟩ := hm'
  have hmono : blocksFor d.length ≤ blocksFor (d.length + p.length) :=
    blocksFor_mono (Nat.le_add_right _ _)
  refine ⟨hspent.ok, howned, ?_, ?_, hothers.holds (by decide) hother h.rootDir (by decide),
    hothers.endsAt (by decide) hother h.rootDir (by decide) h.rootEnds, ?_, ?_, ?_⟩
  · rw [hspent.freeinode, h.next, List.length_append, List.length_append]
    rfl
  · rw [List.length_append]
    exact hinodes
  · intro k hk
    rw [List.length_append] at hk
    by_cases hold : k < files.length
    · have hkept := h.others hothers (k := k) (by rw [List.length_append]; omega) (by omega)
      rw [List.getElem_append_left hold] at hkept ⊢
      exact hkept
    · obtain rfl : k = files.length := Nat.le_antisymm (Nat.le_of_lt_succ hk)
        (Nat.le_of_not_lt hold)
      rw [List.getElem_concat_length rfl]
      exact hholds
  · intro k hk hfree
    rw [List.length_append] at hfree
    have hne : k ≠ files.length + 2 := by
      rcases hfree with rfl | hfree
      · omega
      · exact Nat.ne_of_gt hfree
    rw [hothers.dinode k hk hne]
    exact h.unused k hk (by rwa [List.length_append])
  · have hblocks := hspent.freeblock
    rw [blocksUsed_concat, List.length_append]
    omega

end Steps

/-! ### The whole of it -/

section Main

variable {m : Image} {files rest : List SourceFile} {file : SourceFile}

/-- The image with these files, before the root's size is rounded. -/
abbrev Filled (m : Image) (files : List SourceFile) : Prop :=
  Made m (rootData files).length (rootData files) (files.map SourceFile.data)

/-- The first of the files fit too. -/
theorem Fits.left (h : Fits (files ++ rest)) : Fits files := by
  have hinodes := h.inodes
  have hblocks := h.blocks
  rw [List.length_append] at hinodes hblocks
  have hroot : blocksFor (DIRENTSIZE * (files.length + 2)) ≤
      blocksFor (DIRENTSIZE * (files.length + rest.length + 2)) :=
    blocksFor_mono (Nat.mul_le_mul_left _ (by omega))
  refine ⟨fun file hfile => h.slash file (List.mem_append_left _ hfile), by omega,
    fun file hfile => h.length file (List.mem_append_left _ hfile), ?_⟩
  unfold blocksUsed at hblocks ⊢
  rw [List.map_append, List.map_append, List.sum_append] at hblocks
  omega

/-- **A file is put on the image** if there is room. -/
theorem Made.addFile (h : Filled m files) (hinodes : (files ++ [file]).length + 2 ≤ NINODES) :
    InRoom (Fits (files ++ [file])) (addFile file) m fun _ m' => Filled m' (files ++ [file]) := by
  rw [List.length_append] at hinodes
  have hroot : (rootData files).length + DIRENTSIZE =
      DIRENTSIZE * (files.length + [file].length + 2) := by
    rw [rootData_length, ← Nat.mul_succ]
    rfl
  have hinum : (files.map SourceFile.data).length + 2 < NINODES := by
    rw [List.length_map]
    exact hinodes
  unfold Mkfs.addFile
  split
  next hslash => exact fun hfits => hfits.slash file (by simp) hslash
  refine (h.allocFile hinum).inRoom.bind fun r m₁ hr => ?_
  obtain ⟨rfl, h₁⟩ := hr
  rw [List.length_map] at hinum ⊢
  refine Ends.bind (Q := fun _ m₂ => Made m₂ (rootData (files ++ [file])).length
    (rootData (files ++ [file])) (files.map SourceFile.data ++ [[]])) ?_ fun _ m₂ h₂ => ?_
  · unfold appendEntry
    rw [rootData_concat]
    refine h₁.appendRoot.weaken fun hfits => ⟨?_, ?_⟩
    · rw [Dirent.bytes_length strncpy_length, hroot]
      unfold NINODES at hinodes
      unfold DIRENTSIZE DIRSIZ MAXFILE NDIRECT NINDIRECT BSIZE
      omega
    · have hblocks := hfits.blocks
      rw [List.length_append, List.map_append] at hblocks
      rw [Dirent.bytes_length strncpy_length, hroot]
      unfold blocksUsed at hblocks ⊢
      rw [List.map_append, List.sum_append] at hblocks ⊢
      have hzero : (([[]] : List (List UInt8)).map fun l => blocksFor l.length).sum = 0 := by decide
      omega
  · -- what has been read of the file is on the image
    refine (Ends.forM (I := fun left m' => ∃ d, d ++ left.flatten = file.data ∧
      Made m' (rootData (files ++ [file])).length (rootData (files ++ [file]))
        (files.map SourceFile.data ++ [d])) ⟨[], rfl, h₂⟩ ?_).post ?_
    · rintro piece left m' ⟨d, hdata, hmade⟩
      rw [List.flatten_cons, ← List.append_assoc] at hdata
      have hle : (d ++ piece).length ≤ file.data.length := by
        rw [← hdata]
        exact (List.sublist_append_left _ _).length_le
      have happend := hmade.appendFile (p := piece)
      rw [List.length_map] at happend
      refine (happend.weaken fun hfits => ⟨?_, ?_⟩).post fun _ m'' h'' => ⟨d ++ piece, hdata, h''⟩
      · have hlength := hfits.length file (by simp)
        rw [← List.length_append]
        omega
      · have hblocks := hfits.blocks
        have hmono := blocksFor_mono hle
        rw [List.length_append, List.map_append] at hblocks
        rw [rootData_length, List.length_append]
        unfold blocksUsed at hblocks ⊢
        rw [List.map_append, List.sum_append] at hblocks ⊢
        simp only [List.map_cons, List.map_nil, List.sum_singleton] at hblocks ⊢
        omega
    · rintro _ m' ⟨d, hdata, hmade⟩
      rw [List.flatten_nil, List.append_nil] at hdata
      subst hdata
      unfold Filled
      rw [List.map_append]
      exact hmade

theorem blockOf_size {block : UInt32 → Block} {dip : Dinode} {size : UInt32} {bn : Nat} :
    blockOf block { dip with size } bn = blockOf block dip bn := rfl

theorem content_size {block : UInt32 → Block} {dip : Dinode} {size : UInt32} {p : Nat} :
    content block { dip with size } p = content block dip p := rfl

/-- **Another size** is written to an inode. -/
theorem Image.setSize {inum k : Nat} {type : UInt16} {data : List UInt8} (hm : m.Ok)
    (h : m.fs.Owned []) (hinum : inum < NINODES) (hholds : Holds m.disk inum type k data)
    (htype : type ≠ 0) (size : UInt32) :
    Succeeds (winode inum { m.disk.dinode inum with size }) m fun _ m' =>
      Spends 0 m m' ∧ m'.fs.Owned [] ∧ SameOthers inum m.disk m'.disk ∧
        Holds m'.disk inum type size.toNat data ∧
          ∀ len, EndsAt m.disk inum len → EndsAt m'.disk inum len := by
  have hused : (m.disk.dinode inum).type ≠ 0 := hholds.type ▸ htype
  have hheld : Held (placesOf inum) (m.fs.tenant [])
      (m.node { m.disk.dinode inum with size }) := by
    have hbefore : Held (placesOf inum) (m.fs.tenant []) (m.node (m.disk.dinode inum)) :=
      h.held_dinode (fs_none inum) hinum hused
    exact hbefore.setHeader rfl rfl
  refine (winode_updates hinum).post fun _ m' hm' => ?_
  obtain ⟨hspent, hu⟩ := hm'
  have hself : m'.disk.dinode inum = { m.disk.dinode inum with size } := hu.dinode_self
  have hheld' := hu.held hheld hinum
  have hapart := hu.apart hheld hinum
  have hblk : ∀ bn, blockOf m'.disk.block { m.disk.dinode inum with size } bn =
      blockOf m.disk.block { m.disk.dinode inum with size } bn := hu.blk hheld hinum
  have hbyte : ∀ p, content m'.disk.block { m.disk.dinode inum with size } p =
      content m.disk.block { m.disk.dinode inum with size } p := hu.byte hheld hinum
  rw [← hself] at hheld' hapart
  have htype' : (m'.disk.dinode inum).type = type := by rw [hself, hholds.type]
  obtain ⟨howned, hothers⟩ := work hheld' hapart hinum (htype' ▸ htype)
    fun j hj hne => hu.dinode_other mkfsSb_sound hinum hj hne
  refine ⟨hspent hm, howned, hothers, ⟨htype', ?_, ?_, ?_, ?_⟩, fun len hends => ⟨?_, ?_⟩⟩
  · rw [hself, hholds.nlink]
  · rw [hself]
  · intro bn hbn
    rw [hself, hblk, blockOf_size]
    exact hholds.mapped bn hbn
  · intro p hp
    rw [hself, hbyte, content_size]
    exact hholds.byte p hp
  · intro bn hbn hlen
    rw [hself]
    exact hends.addrs bn hbn hlen
  · intro i hi
    rw [hself, hbyte, content_size]
    exact hends.content i hi

/-- A size, rounded as `mkfs` does it. -/
def rounded (size : Nat) : Nat := (size / BSIZE + 1) * BSIZE

theorem lt_rounded (size : Nat) : size < rounded size := by
  unfold rounded BSIZE
  omega

/-- **The root's size is rounded.** -/
theorem Made.fixRoot {root : List UInt8} {data : List (List UInt8)}
    (h : Made m root.length root data) (hsmall : root.length < MAXFILE * BSIZE) :
    Succeeds fixRoot m fun _ m' => Made m' (rounded root.length) root data := by
  have hinum : ROOTINO < NINODES := by decide
  have hsize := h.rootDir.size
  have hround : (((m.disk.dinode ROOTINO).size / UInt32.ofNat BSIZE + 1) *
      UInt32.ofNat BSIZE).toNat = rounded root.length := by
    have hblocks : (UInt32.ofNat BSIZE).toNat = BSIZE := by decide
    rw [UInt32.toNat_mul, UInt32.toNat_add, UInt32.toNat_div, hblocks, hsize]
    unfold rounded MAXFILE NDIRECT NINDIRECT BSIZE at *
    have hone : (1 : UInt32).toNat = 1 := rfl
    rw [hone]
    omega
  unfold Mkfs.fixRoot
  rw [Succeeds, Ends.bind_iff, Image.rinode_iff hinum]
  refine (Image.setSize h.ok h.owned hinum h.rootDir (by decide) _).post fun _ m' hm' => ?_
  obtain ⟨hspent, howned, hothers, hholds, hends⟩ := hm'
  rw [hround] at hholds
  refine ⟨hspent.ok, howned, hspent.freeinode.trans h.next, h.inodes, hholds, hends _ h.rootEnds, ?_,
    ?_, ?_⟩
  · intro k hk
    exact h.others hothers hk (by unfold ROOTINO; omega)
  · intro k hk hfree
    rw [hothers.dinode k hk (by unfold ROOTINO; omega)]
    exact h.unused k hk hfree
  · exact Nat.le_trans hspent.freeblock h.space

/-- The inode of the root directory. -/
theorem rootino_made : Succeeds (Mkfs.ialloc T_DIR) blank fun r m₁ =>
    r = ROOTINO ∧ Made m₁ ([] : List UInt8).length [] [] := by
  refine (Image.ialloc_makes blank_ok blank_owned (by decide)
    (by rw [blank_dinode (by decide)]; rfl) (by decide)).post fun r m₁ hm₁ => ?_
  obtain ⟨⟨hr, hnext, hspace, hok⟩, howned, hothers, hholds, hends⟩ := hm₁
  refine ⟨hr, hok, howned, hnext, by decide, hholds, hends, nofun, ?_, hspace⟩
  intro k hk hfree
  have hne : k ≠ ROOTINO := by
    unfold ROOTINO
    rcases hfree with rfl | hfree
    · decide
    · simp at hfree
      omega
  rw [hothers.dinode k hk hne, blank_dinode hk]
  rfl

/-- **The bitmap is written**, as it was to be. -/
theorem Made.balloc {size : Nat} {root : List UInt8} {data : List (List UInt8)}
    (h : Made m size root data) :
    Succeeds (Mkfs.balloc m.freeblock) m fun _ m' => m' = m.put bmapSector (bitmap m.freeblock) := by
  have hroom := h.ok.room
  have hone : m.freeblock < BSIZE * 8 := by
    unfold FSSIZE at hroom
    unfold BSIZE
    omega
  unfold Mkfs.balloc
  rw [if_pos hone]
  rfl

theorem rootData_lt (h : files.length + 2 ≤ NINODES) :
    (rootData files).length < MAXFILE * BSIZE := by
  rw [rootData_length]
  unfold NINODES at h
  unfold DIRENTSIZE DIRSIZ MAXFILE NDIRECT NINDIRECT BSIZE
  omega

/-- **What `mkfs` makes of files**, if they fit. -/
theorem fill_makes (h : files.length + 2 ≤ NINODES) :
    InRoom (Fits files) (fill files) blank fun _ m' => ∃ m,
      Made m (rounded (rootData files).length) (rootData files) (files.map SourceFile.data) ∧
        m' = m.put bmapSector (bitmap m.freeblock) := by
  unfold fill
  refine rootino_made.inRoom.bind fun r m₁ hm₁ => ?_
  obtain ⟨rfl, h₁⟩ := hm₁
  rw [if_neg (not_not_intro rfl)]
  unfold appendEntry
  refine (h₁.appendRoot.weaken fun _ => by decide).bind fun _ m₂ h₂ => ?_
  refine (h₂.appendRoot.weaken fun _ => by decide).bind fun _ m₃ h₃ => ?_
  have hfirst : Filled m₃ [] := h₃
  refine Ends.bind (Ends.forM (I := fun left m' => ∃ done, done ++ left = files ∧ Filled m' done)
    ⟨[], rfl, hfirst⟩ ?_) fun _ m₄ h₄ => ?_
  · rintro file left m' ⟨done, rfl, hfilled⟩
    rw [List.append_cons] at h ⊢
    refine ((hfilled.addFile ?_).weaken Fits.left).post fun _ m'' h'' =>
      ⟨done ++ [file], rfl, h''⟩
    rw [List.length_append] at h
    omega
  · obtain ⟨done, hdone, hfilled⟩ := h₄
    rw [List.append_nil] at hdone
    subst hdone
    refine (hfilled.fixRoot (rootData_lt h)).inRoom.bind fun _ m₅ h₅ => ?_
    rw [Ends.get_bind_iff]
    exact h₅.balloc.inRoom.post fun _ m' hm' => ⟨m₅, h₅, hm'⟩

/-- The file system as the kernel finds it. -/
def Image.mounted (sb : Superblock) (m : Image) : FileSys where
  toDisk := { sb, block := m.block, outstanding := 0, lh := [], committed := [] }
  inode := fun _ => .idle

/-- **What the kernel finds**: the superblock, the blocks each with their owner, the root
directory with its size rounded, and the files. -/
structure Built (s : FileSys) (files : List SourceFile) : Prop where
  sb : s.sb = mkfsSb
  owned : s.Owned []
  rootDir : Holds s.toDisk ROOTINO T_DIR (rounded (rootData files).length) (rootData files)
  rootEnds : EndsAt s.toDisk ROOTINO (rootData files).length
  fileAt : ∀ k (hk : k < files.length),
    Holds s.toDisk (k + 2) T_FILE files[k].data.length files[k].data
  unused : ∀ k < NINODES, (k = 0 ∨ files.length + 2 ≤ k) → (s.dinode k).type = 0

/-- **The image that `mkfs` builds.** -/
theorem main_built {m : Image} (h : files.length + 2 ≤ NINODES) (hmain : main files = .ok m) :
    fsinit m.block = .ok mkfsSb ∧ Built (m.mounted mkfsSb) files := by
  have hfill := fill_makes h
  unfold Mkfs.main at hmain
  cases hrun : fill files blank with
  | error e m' =>
      rw [hrun] at hmain
      cases hmain
  | ok a m' =>
      rw [hrun] at hmain
      obtain rfl := Except.ok.inj hmain
      obtain ⟨m, hmade, rfl⟩ := hfill.ok hrun
      have hsame : (m.put bmapSector (bitmap m.freeblock)).mounted mkfsSb = m.fs := rfl
      refine ⟨?_, ?_⟩
      · have hne : (1 : UInt32) ≠ bmapSector := by decide
        unfold fsinit Image.put
        dsimp only
        rw [Function.update_of_ne hne, hmade.ok.super]
        rfl
      · rw [hsame]
        refine ⟨rfl, hmade.owned, hmade.rootDir, hmade.rootEnds, fun k hk => ?_,
          fun k hk hfree => ?_⟩
        · have hfile := hmade.fileAt k (by rwa [List.length_map])
          rw [List.getElem_map] at hfile
          exact hfile
        · exact hmade.unused k hk (by rwa [List.length_map])

/-- **`mkfs` builds the image** of any files that fit. -/
theorem main_builds (h : Fits files) :
    ∃ m, main files = .ok m ∧ fsinit m.block = .ok mkfsSb ∧ Built (m.mounted mkfsSb) files := by
  have hfill := fill_makes h.inodes
  cases hrun : fill files blank with
  | error e m' => exact absurd h (hfill.failed hrun)
  | ok a m =>
      have hmain : main files = .ok m := by
        unfold Mkfs.main
        rw [hrun]
      exact ⟨m, hmain, main_built h.inodes hmain⟩

end Main

end Fs
