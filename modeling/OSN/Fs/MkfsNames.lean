import OSN.Fs.MkfsFiles

/-!
# The files of the image by their names

`mkfs` writes a name with `strncpy`, and `dirlookup` compares it with `strncmp`: names of
up to `DIRSIZ` bytes are told apart, a name of that length without a NUL behind it.  So
`namei` finds each file by its name, unless that is empty or one of the first two entries
of the root directory.
-/

namespace Fs

open Mkfs

/-! ### Names -/

/-- `strncmp` against what `strncpy` has written. -/
theorem strncmpEq_strncpy {n : Nat} {p t : CStr} (hp : 0 ∉ p) (ht : 0 ∉ t) :
    strncmpEq n p (strncpy n t) = decide (p.take n = t.take n) := by
  induction n generalizing p t with
  | zero => rfl
  | succ n ih =>
      cases p with
      | nil =>
          cases t with
          | nil => simp [strncmpEq, strncpy, List.replicate_succ]
          | cons y t =>
              have hy : y ≠ 0 := fun h => ht (by simp [h])
              simp [strncmpEq, strncpy, hy, hy.symm]
      | cons x p =>
          have hx : x ≠ 0 := fun h => hp (by simp [h])
          cases t with
          | nil => simp [strncmpEq, strncpy, List.replicate_succ, hx]
          | cons y t =>
              have hy : y ≠ 0 := fun h => ht (by simp [h])
              have hrest := ih (p := p) (t := t) (fun h => hp (List.mem_cons_of_mem _ h))
                fun h => ht (List.mem_cons_of_mem _ h)
              by_cases hxy : x = y
              · subst hxy
                simp [strncmpEq, strncpy, hx, hrest]
              · simp [strncmpEq, strncpy, hy, hxy]

/-- **Names are told apart.** -/
theorem namecmp_strncpy {s t : CStr} (hs : 0 ∉ s) (ht : 0 ∉ t) (hslen : s.length ≤ DIRSIZ)
    (htlen : t.length ≤ DIRSIZ) : namecmp s (strncpy DIRSIZ t) = decide (s = t) := by
  rw [namecmp, strncmpEq_strncpy hs ht, List.take_of_length_le hslen, List.take_of_length_le htlen]

namespace Mkfs

namespace SourceFile

variable {file : SourceFile}

theorem name_sub : file.name ⊆ file.shortname := by
  unfold name
  split
  · exact List.tail_subset _
  · exact fun _ h => h

theorem name_string : 0 ∉ file.name := by
  intro h
  have hshort := name_sub h
  unfold shortname at hshort
  split at hshort
  · exact file.string (List.drop_subset _ _ hshort)
  · exact file.string hshort

end SourceFile

end Mkfs

/-- The name is found, and found once, in the root directory: it is the name of no other
file, it fits into an entry, and it is not one of the first two. -/
structure Named (files : List SourceFile) : Prop where
  distinct : (files.map SourceFile.name).Nodup
  short : ∀ file ∈ files, file.name.length ≤ DIRSIZ
  nonempty : ∀ file ∈ files, file.name ≠ []
  notDot : ∀ file ∈ files, file.name ≠ dot ∧ file.name ≠ dotdot

/-! ### The entries of the root directory -/

section Root

variable {s : FileSys} {files : List SourceFile} {n : Node} {j k : Nat} {name : CStr}

theorem rootEntries_inum (h : files.length + 2 ≤ NINODES) :
    ∀ de ∈ rootEntries files, de.inum < 2 ^ 16 := by
  intro de hde
  simp only [rootEntries, List.mem_cons, List.mem_mapIdx] at hde
  unfold NINODES at h
  rcases hde with rfl | rfl | ⟨k, hk, rfl⟩
  · decide
  · decide
  · dsimp only
    omega

/-- The entry of a file. -/
theorem rootEntries_file (hk : k < files.length) (hk' : k + 2 < (rootEntries files).length) :
    (rootEntries files)[k + 2] = ⟨k + 2, strncpy DIRSIZ files[k].name⟩ := by
  simp [rootEntries]

/-- An entry of a directory that starts with the root's bytes. -/
theorem dirent_root (hbyte : ∀ p (hp : p < (rootData files).length), n.byte p = (rootData files)[p])
    (hinodes : files.length + 2 ≤ NINODES) (hj : j < (rootEntries files).length) :
    n.dirent (DIRENTSIZE * j) = (rootEntries files)[j] := by
  have hroom : DIRENTSIZE * j + DIRENTSIZE ≤ (rootData files).length := by
    rw [rootData_length, ← Nat.mul_succ]
    rw [rootEntries_length] at hj
    exact Nat.mul_le_mul_left _ hj
  have hinum := rootEntries_inum hinodes _ (List.getElem_mem hj)
  have hentry : Dirent.ofBytes (Dirent.bytes (rootEntries files)[j]) = (rootEntries files)[j] := by
    rw [Dirent.ofBytes_bytes, Nat.mod_eq_of_lt hinum]
  rw [Node.dirent, Bytes.slice_part hbyte hroom, rootData,
    Bytes.take_flatMap _ (rootEntries_bytes files) j hj, hentry]

/-- **Only its own entry has the name of a file.** -/
theorem namecmp_rootEntries (h : Named files) (hk : k < files.length)
    (hj : j < (rootEntries files).length) :
    namecmp files[k].name (rootEntries files)[j].name = decide (j = k + 2) := by
  have hname := List.getElem_mem hk
  have hstring : 0 ∉ files[k].name := SourceFile.name_string
  have hshort := h.short _ hname
  have hdot := h.notDot _ hname
  match j, hj with
  | 0, _ =>
      have hentry : (rootEntries files)[0].name = strncpy DIRSIZ dot := rfl
      rw [hentry, namecmp_strncpy hstring (by decide) hshort (by decide)]
      simp [hdot.1]
  | 1, _ =>
      have hentry : (rootEntries files)[1].name = strncpy DIRSIZ dotdot := rfl
      rw [hentry, namecmp_strncpy hstring (by decide) hshort (by decide)]
      simp [hdot.2]
  | j + 2, hj =>
      have hj' : j < files.length := by
        rw [rootEntries_length] at hj
        omega
      rw [rootEntries_file hj' hj, namecmp_strncpy hstring SourceFile.name_string hshort
        (h.short _ (List.getElem_mem hj'))]
      have hinj : files[k].name = files[j].name ↔ k = j := by
        have hk'' : k < (files.map SourceFile.name).length := by rwa [List.length_map]
        have hj'' : j < (files.map SourceFile.name).length := by rwa [List.length_map]
        have hiff : (files.map SourceFile.name)[k] = (files.map SourceFile.name)[j] ↔ k = j :=
          h.distinct.getElem_inj_iff
        simpa using hiff
      refine decide_eq_decide.mpr (hinj.trans ?_)
      omega

/-- The offsets up to that of an entry. -/
theorem offsets_split {size : Nat} (hj : DIRENTSIZE * j < size) :
    ∃ rest, offsets 0 size =
      (List.range j).map (fun k => DIRENTSIZE * k) ++ DIRENTSIZE * j :: rest := by
  have hcount : j < (size - 0 + (DIRENTSIZE - 1)) / DIRENTSIZE := by
    unfold DIRENTSIZE DIRSIZ at *
    omega
  obtain ⟨left, hleft⟩ := Nat.exists_eq_add_of_lt hcount
  refine ⟨(List.range left).map fun k => DIRENTSIZE * (j + 1 + k), ?_⟩
  unfold offsets
  rw [hleft, Nat.add_right_comm, List.range_add, List.range_succ]
  simp

/-- **The entry of a file is found** in the root directory, and the search changes nothing. -/
theorem findEntry_root {text : String}
    (hbyte : ∀ p (hp : p < (rootData files).length), n.byte p = (rootData files)[p])
    (hmapped : n.Mapped 0 (rootData files).length)
    (hsize : (rootData files).length ≤ n.ip.size.toNat)
    (hinodes : files.length + 2 ≤ NINODES) (h : Named files) (hk : k < files.length) :
    findEntry text (fun de => de.inum ≠ 0 ∧ namecmp files[k].name de.name)
        (offsets 0 n.ip.size.toNat) n =
      .ok (some (DIRENTSIZE * (k + 2), ⟨k + 2, strncpy DIRSIZ files[k].name⟩)) n := by
  have hlength := rootEntries_length files
  have hroom : ∀ j < files.length + 2,
      DIRENTSIZE * j + DIRENTSIZE ≤ (rootData files).length := by
    intro j hj
    rw [rootData_length, ← Nat.mul_succ]
    exact Nat.mul_le_mul_left _ hj
  have hpart : ∀ j < files.length + 2, n.Mapped (DIRENTSIZE * j) DIRENTSIZE := fun j hj p _ hp =>
    hmapped p (Nat.zero_le p) (by have := hroom j hj; omega)
  have hk' : k + 2 < (rootEntries files).length := by omega
  have hentry : n.dirent (DIRENTSIZE * (k + 2)) = ⟨k + 2, strncpy DIRSIZ files[k].name⟩ := by
    rw [dirent_root hbyte hinodes hk', rootEntries_file hk hk']
  have hlast := hroom (k + 2) (by omega)
  have hinside : DIRENTSIZE * (k + 2) < n.ip.size.toNat := by
    unfold DIRENTSIZE DIRSIZ at *
    omega
  obtain ⟨rest, hrest⟩ := offsets_split hinside
  rw [hrest, findEntry_first ?_ (by omega) (hpart (k + 2) (by omega)) ?_, hentry]
  · intro off hoff
    obtain ⟨j, hj, rfl⟩ := List.mem_map.mp hoff
    have hjk : j < k + 2 := List.mem_range.mp hj
    have hj' : j < (rootEntries files).length := by omega
    have hroomj := hroom j (by omega)
    refine ⟨by omega, hpart j (by omega), ?_⟩
    rw [dirent_root hbyte hinodes hj', namecmp_rootEntries h hk hj']
    simp [Nat.ne_of_lt hjk]
  · have hname := namecmp_rootEntries h hk hk'
    rw [rootEntries_file hk hk'] at hname
    rw [hentry]
    simp [hname]

end Root

/-! ### What the kernel does with the image -/

section Kernel

variable {s : FileSys} {i : Fin NINODE} {dev inum : Nat} {ip : Inode}

/-- `iget` of an inode that is not in the table. -/
theorem iget_fresh (hnone : ∀ j, (s.inode j).ref = 0 ∨ (s.inode j).inum ≠ inum)
    (hfree : ∃ j, (s.inode j).ref = 0) :
    Ends (iget dev inum) s (fun j t => (s.inode j).ref = 0 ∧
      t = s.setInode j { s.inode j with dev, inum, ref := 1, valid := false })
      fun _ _ => False := by
  have hcached : s.cached dev inum = none := by
    refine List.find?_eq_none.mpr fun j _ => ?_
    rcases hnone j with hzero | hother
    · simp [hzero]
    · simp [hother]
  unfold iget
  rw [Ends.get_bind_iff]
  simp only [hcached]
  cases hfind : (List.finRange NINODE).find? fun j => (s.inode j).ref = 0 with
  | none =>
      obtain ⟨j, hj⟩ := hfree
      have hnot := List.find?_eq_none.mp hfind j (List.mem_finRange j)
      simp [hj] at hnot
  | some j =>
      have hj : (s.inode j).ref = 0 := by simpa using List.find?_some hfind
      exact ⟨hj, rfl⟩

/-- `ilock` of an inode that nobody has read yet. -/
theorem ilock_fresh (hip : s.inode i = ip) (href : 1 ≤ ip.ref) (hlocked : ip.locked = false)
    (hvalid : ip.valid = false) (htype : (s.dinode ip.inum).type ≠ 0) :
    Ends (ilock i) s (fun _ t => t = s.setInode i
      { ip with locked := true, valid := true, toDinode := s.dinode ip.inum })
      fun _ _ => False := by
  subst hip
  unfold ilock
  rw [Ends.get_bind_iff]
  dsimp only
  rw [if_neg (Nat.not_lt.mpr href), if_neg (by simp [hlocked]), if_neg (by simp [hvalid]),
    Ends.set_bind_iff, if_neg htype]
  rfl

/-- `iunlockput` of an inode that is referred to twice. -/
theorem iunlockput_shared (hip : s.inode i = ip) (href : ip.ref = 2) (hlocked : ip.locked = true) :
    Ends (iunlockput i) s (fun _ t => t = s.setInode i { ip with locked := false, ref := 1 })
      fun _ _ => False := by
  subst hip
  unfold iunlockput iunlock iput
  rw [Ends.bind_iff, Ends.get_bind_iff]
  dsimp only
  rw [if_neg (by simp [hlocked, href]), Ends.set_iff, Ends.get_bind_iff,
    if_neg (by simp [FileSys.setInode, href])]
  simp [FileSys.setInode, href]

theorem skipelem_name {name path : CStr} (hpath : path = SLASH :: name ∨ path = name)
    (hne : name ≠ []) (hslash : SLASH ∉ name) (hshort : name.length ≤ DIRSIZ) :
    skipelem path = some (name, []) := by
  have hall : ∀ c ∈ name, decide (c ≠ SLASH) = true := fun c hc =>
    decide_eq_true (ne_of_mem_of_not_mem hc hslash)
  have hnone : name.dropWhile (· = SLASH) = name := by
    cases name with
    | nil => rfl
    | cons c name =>
        have hc : c ≠ SLASH := fun h => hslash (by simp [h])
        rw [List.dropWhile_cons_of_neg (by simpa using hc)]
  have hskip : path.dropWhile (· = SLASH) = name := by
    rcases hpath with rfl | rfl
    · rw [List.dropWhile_cons_of_pos (by simp), hnone]
    · exact hnone
  have htake : name.takeWhile (· ≠ SLASH) = name := List.takeWhile_eq_self_iff.mpr hall
  have hdrop : name.dropWhile (· ≠ SLASH) = [] := List.dropWhile_eq_nil_iff.mpr hall
  unfold skipelem
  rw [hskip]
  dsimp only
  rw [if_neg hne, htake, hdrop, List.take_of_length_le hshort]
  rfl

/-- A copy of an inode has the bytes and the blocks of it. -/
theorem Holds.copy {d : Disk} {size : Nat} {type : UInt16} {data : List UInt8}
    (h : Holds d inum type size data) :
    (∀ p (hp : p < data.length), (⟨d, d.dinode inum⟩ : Node).byte p = data[p]) ∧
      (⟨d, d.dinode inum⟩ : Node).Mapped 0 data.length := by
  refine ⟨h.byte, fun p _ hp => h.mapped (p / BSIZE) ?_⟩
  have hdiv := Nat.div_mul_le_self p BSIZE
  omega

/-- **`dirlookup` of a file** in the root directory, locked and alone in the table. -/
theorem dirlookup_root {files : List SourceFile} {k : Nat} {size : Nat}
    (hroot : Holds s.toDisk ROOTINO T_DIR size (rootData files))
    (hsize : (rootData files).length ≤ size) (h : Named files)
    (hinodes : files.length + 2 ≤ NINODES) (hk : k < files.length)
    (hip : s.inode i = ip) (hcopy : ip.toDinode = s.dinode ROOTINO) (hinum : ip.inum = ROOTINO)
    (hothers : ∀ j ≠ i, (s.inode j).ref = 0) (href : ip.ref ≠ 0)
    (hfree : ∃ j, (s.inode j).ref = 0) :
    Ends (dirlookup i files[k].name) s (fun r t => ∃ j, r = some (j, DIRENTSIZE * (k + 2)) ∧
      j ≠ i ∧ t = s.setInode j
        { s.inode j with dev := ip.dev, inum := k + 2, ref := 1, valid := false })
      fun _ _ => False := by
  have hdir : (s.inode i).type = T_DIR := by
    rw [hip]
    exact (congrArg Dinode.type hcopy).trans hroot.type
  have hnode : s.nodeOf i = ⟨s.toDisk, s.dinode ROOTINO⟩ := by
    unfold FileSys.nodeOf
    rw [hip, hcopy]
  obtain ⟨hbyte, hmapped⟩ := hroot.copy
  rw [← hnode] at hbyte hmapped
  have hlength : (rootData files).length ≤ (s.nodeOf i).ip.size.toNat := by
    rwa [hnode, hroot.size]
  have hself : (FileSys.node i).set (s.nodeOf i) s = s := FileSys.node_set_self
  have hnone : ∀ j, (s.inode j).ref = 0 ∨ (s.inode j).inum ≠ k + 2 := by
    intro j
    by_cases hj : j = i
    · subst hj
      right
      rw [hip, hinum]
      unfold ROOTINO
      omega
    · exact .inl (hothers j hj)
  unfold dirlookup
  rw [Ends.get_bind_iff]
  dsimp only
  rw [if_neg (not_not_intro hdir), Ends.bind_iff, FileSys.node_iff]
  refine Ends.of_ok (findEntry_root hbyte hmapped hlength hinodes h hk) ?_
  dsimp only
  rw [hself]
  refine (iget_fresh hnone hfree).bind fun j t ⟨hzero, ht⟩ => ?_
  refine ⟨j, rfl, ?_, ?_⟩
  · rintro rfl
    rw [hip] at hzero
    exact href hzero
  · rw [ht, hip]

/-- `iget` of an inode that the first entry of the table is in use for. -/
theorem iget_first (hdev : (s.inode 0).dev = dev) (hinum : (s.inode 0).inum = inum)
    (href : 0 < (s.inode 0).ref) :
    Ends (iget dev inum) s
      (fun j t => j = 0 ∧ t = s.setInode 0 { s.inode 0 with ref := (s.inode 0).ref + 1 })
      fun _ _ => False := by
  have hcached : s.cached dev inum = some 0 := by
    have hfin : List.finRange NINODE = 0 :: (List.finRange NINODE).tail := rfl
    unfold FileSys.cached
    rw [hfin, List.find?_cons_of_pos]
    simp [hdev, hinum, href]
  unfold iget
  rw [Ends.get_bind_iff]
  simp only [hcached]
  exact ⟨rfl, rfl⟩

section Booted

variable {files : List SourceFile} {k size : Nat} {path : CStr}

/-- The rest of `namex`: the root directory is the first entry of the table, and no other
entry is in use. -/
theorem namexLoop_root (hroot : Holds s.toDisk ROOTINO T_DIR size (rootData files))
    (hsize : (rootData files).length ≤ size) (h : Named files)
    (hinodes : files.length + 2 ≤ NINODES) (hk : k < files.length)
    (hzero : s.inode 0 = { Inode.idle with dev := ROOTDEV, inum := ROOTINO, ref := 2 })
    (hothers : ∀ j ≠ 0, s.inode j = Inode.idle) (hskip : skipelem path = some (files[k].name, []))
    {fuel : Nat} (hfuel : fuel ≠ 0) :
    Ends (namexLoop false fuel path 0) s (fun r t => ∃ j, r = some (j, []) ∧
      t.toDisk = s.toDisk ∧ t.inode j = { Inode.idle with dev := ROOTDEV, inum := k + 2, ref := 1 })
      fun _ _ => False := by
  obtain ⟨fuel, rfl⟩ := Nat.exists_eq_succ_of_ne_zero hfuel
  have htype : (s.dinode ROOTINO).type ≠ 0 := by
    rw [hroot.type]
    decide
  unfold namexLoop
  simp only [hskip]
  refine (ilock_fresh hzero (by decide) rfl rfl htype).bind ?_
  rintro _ s₂ hs₂
  -- The root directory is locked, and has been read.
  have hdisk : s₂.toDisk = s.toDisk := by rw [hs₂]; rfl
  obtain ⟨ip, hip, hcopy, hdev, hinum, href, hlocked⟩ :
      ∃ ip, s₂.inode 0 = ip ∧ ip.toDinode = s.dinode ROOTINO ∧ ip.dev = ROOTDEV ∧
        ip.inum = ROOTINO ∧ ip.ref = 2 ∧ ip.locked = true :=
    ⟨_, rfl, by simp [hs₂, FileSys.setInode]⟩
  have hidle : ∀ j ≠ 0, s₂.inode j = Inode.idle := fun j hj => by
    simp [hs₂, FileSys.setInode, hj, hothers j hj]
  have hfree : (s₂.inode 1).ref = 0 := by
    rw [hidle 1 (by decide)]
    rfl
  rw [Ends.get_bind_iff, if_neg, if_neg (by simp)]
  · rw [← hdisk] at hroot hcopy
    refine (dirlookup_root hroot hsize h hinodes hk hip hcopy hinum (fun j hj => ?_) ?_
      ⟨1, hfree⟩).bind ?_
    · rw [hidle j hj]
      rfl
    · rw [href]
      decide
    · rintro _ s₃ ⟨j, rfl, hj, rfl⟩
      dsimp only
      have hip' : (s₂.setInode j
          { s₂.inode j with dev := ip.dev, inum := k + 2, ref := 1, valid := false }).inode 0 = ip := by
        simp [FileSys.setInode, hj.symm, hip]
      refine (iunlockput_shared hip' href hlocked).bind ?_
      · rintro _ _ rfl
        unfold namexLoop
        refine ⟨j, rfl, hdisk, ?_⟩
        simp [FileSys.setInode, hj, hidle j hj, hdev, Inode.idle]
  · rw [hip, hcopy]
    simp [hroot.type]

/-- **`namei` finds the files** once the kernel has booted. -/
theorem namei_booted {block : UInt32 → Block} (hs : s = (booted mkfsSb block).toFileSys)
    (hroot : Holds s.toDisk ROOTINO T_DIR size (rootData files))
    (hsize : (rootData files).length ≤ size) (hfits : Fits files) (h : Named files)
    (hk : k < files.length) {cwd : Fin NINODE}
    (hpath : path = SLASH :: files[k].name ∨ (path = files[k].name ∧ cwd = 0)) :
    Ends (namei cwd path) s (fun r t => ∃ j, r = some j ∧ t.toDisk = s.toDisk ∧
      t.inode j = { Inode.idle with dev := ROOTDEV, inum := k + 2, ref := 1 })
      fun _ _ => False := by
  have hfile := List.getElem_mem hk
  have hslash : SLASH ∉ files[k].name := fun hc =>
    hfits.slash _ hfile (SourceFile.name_sub hc)
  have hskip : skipelem path = some (files[k].name, []) :=
    skipelem_name (hpath.imp_right And.left) (h.nonempty _ hfile) hslash (h.short _ hfile)
  have hfuel : path.length ≠ 0 := by
    intro hnil
    rw [List.eq_nil_of_length_eq_zero hnil] at hskip
    cases hskip
  have hzero : s.inode 0 = { Inode.idle with dev := ROOTDEV, inum := ROOTINO, ref := 1 } := by
    rw [hs]
    rfl
  have hothers : ∀ j ≠ 0, s.inode j = Inode.idle := by
    intro j hj
    rw [hs]
    simp [booted, hj, Inode.idle]
  have hloop : Ends (namexLoop false path.length path 0)
      (s.setInode 0 { Inode.idle with dev := ROOTDEV, inum := ROOTINO, ref := 2 }) (fun r t =>
        ∃ j, r = some (j, []) ∧ t.toDisk = s.toDisk ∧
          t.inode j = { Inode.idle with dev := ROOTDEV, inum := k + 2, ref := 1 })
      fun _ _ => False := by
    refine namexLoop_root (by exact hroot) hsize h hfits.inodes hk ?_ (fun j hj => ?_) hskip hfuel
    · simp [FileSys.setInode]
    · simp [FileSys.setInode, hj, hothers j hj]
  have hnamex : Ends (namex false cwd path) s (fun r t => ∃ j, r = some (j, []) ∧
      t.toDisk = s.toDisk ∧ t.inode j = { Inode.idle with dev := ROOTDEV, inum := k + 2, ref := 1 })
      fun _ _ => False := by
    unfold namex
    split
    next =>
      refine (iget_first (by rw [hzero]) (by rw [hzero]) (by rw [hzero]; decide)).bind ?_
      rintro _ t ⟨rfl, rfl⟩
      rw [hzero]
      exact hloop
    next hhead =>
      rcases hpath with rfl | ⟨-, rfl⟩
      · exact absurd rfl hhead
      · unfold idup
        rw [Ends.bind_iff, Ends.modify_bind_iff, hzero]
        exact hloop
  unfold namei
  refine hnamex.bind ?_
  rintro _ t ⟨j, rfl, hdisk, hj⟩
  exact ⟨j, rfl, hdisk, hj⟩

end Booted

end Kernel

/-! ### Reading the files -/

/-- The file of inode `inum` is found by its path, has the length of `data`, and any read
returns its bytes. -/
def ReadsBack (s : FileSys) (cwd : Fin NINODE) (path : CStr) (inum : Nat) (data : List UInt8) :
    Prop :=
  ∃ j t u, namei cwd path s = .ok (some j) t ∧ ilock j t = .ok () u ∧
    (u.inode j).inum = inum ∧ (u.inode j).size.toNat = data.length ∧
    ∀ off m, off + m < 2 ^ 32 → FsM.node j (readi kernelDst off m) u =
      .ok ((((data.drop off).take m).length : Int), (data.drop off).take m) u

section ReadBack

variable {files : List SourceFile} {m : Image}

theorem readsBack_booted (hfits : Fits files) (h : Named files)
    (hb : Built (m.mounted mkfsSb) files) {k : Nat} (hk : k < files.length) {cwd : Fin NINODE}
    {path : CStr} (hpath : path = SLASH :: files[k].name ∨ (path = files[k].name ∧ cwd = 0)) :
    ReadsBack (booted mkfsSb m.block).toFileSys cwd path (k + 2) files[k].data := by
  have hfile := hb.fileAt k hk
  have hname := namei_booted (s := (booted mkfsSb m.block).toFileSys) rfl hb.rootDir
    (lt_rounded _).le hfits h hk hpath
  cases hrun : namei cwd path (booted mkfsSb m.block).toFileSys with
  | error e t => exact (hname.failed hrun).elim
  | ok r t =>
      obtain ⟨j, rfl, hdisk, hj⟩ := hname.ok hrun
      have hholds : Holds t.toDisk (k + 2) T_FILE files[k].data.length files[k].data := by
        rw [hdisk]
        exact hfile
      have htype : (t.dinode (k + 2)).type ≠ 0 := by
        rw [hholds.type]
        decide
      have hlock := ilock_fresh hj (Nat.le_refl 1) rfl rfl htype
      cases hilock : ilock j t with
      | error e u => exact (hlock.failed hilock).elim
      | ok r' u =>
          have hu := hlock.ok hilock
          have hnode : u.nodeOf j = ⟨t.toDisk, t.dinode (k + 2)⟩ := by
            simp [hu, FileSys.nodeOf, FileSys.setInode]
          obtain ⟨hbyte, hmapped⟩ := hholds.copy
          rw [← hnode] at hbyte hmapped
          have hsize : (u.nodeOf j).ip.size.toNat = files[k].data.length := by
            rw [hnode]
            exact hholds.size
          refine ⟨j, t, u, hrun, hilock, ?_, hsize, fun off n hlt => ?_⟩
          · simp [hu, FileSys.setInode]
          · have hread := readi_holds hsize hbyte hmapped hlt
            have hget : (FileSys.node j).get u = u.nodeOf j := rfl
            unfold FsM.node Component.run
            rw [hget, hread]
            dsimp only
            rw [FileSys.node_set_self]

/-- The blocks of an inode on the image are marked as used. -/
theorem Built.used {s : FileSys} (hb : Built s files) (hidle : ∀ i, (s.inode i).ref = 0)
    {inum : Nat} (hinum : inum < NINODES) (htype : (s.dinode inum).type ≠ 0) {pl : Place}
    (haddr : addrOf s.block (s.dinode inum) pl ≠ 0) :
    s.Used (addrOf s.block (s.dinode inum) pl) := by
  have hnone : ∀ i, ¬ (s.inode i).Holds inum := fun i hi => by
    have hlive := hi.1
    rw [hidle i] at hlive
    exact Nat.lt_irrefl 0 hlive
  have hroom : inum < s.sb.ninodes := by
    rw [hb.sb]
    exact hinum
  have htenant : s.tenant [] (placesOf inum pl) = addrOf s.block (s.dinode inum) pl := by
    unfold placesOf FileSys.tenant
    dsimp only
    rw [FileSys.copy_of_none hnone, if_pos ⟨hroom, htype⟩]
  rw [← htenant] at haddr ⊢
  exact (hb.owned.tenancy.taken_iff (hb.owned.tenancy.inRoom haddr)).mpr ⟨_, rfl⟩

/-- **The files of the image are read back**, by any path to them in the root directory, and
their blocks are marked as used. -/
theorem main_readsBack (hfits : Fits files) (h : Named files) :
    ∃ m s, main files = .ok m ∧ boot m.block = .ok s ∧
      (∀ k (hk : k < files.length) cwd path,
        path = SLASH :: files[k].name ∨ (path = files[k].name ∧ cwd = 0) →
          ReadsBack s.toFileSys cwd path (k + 2) files[k].data) ∧
      ∀ inum, (inum = ROOTINO ∨ (2 ≤ inum ∧ inum < files.length + 2)) → ∀ pl,
        addrOf s.block (s.dinode inum) pl ≠ 0 → s.Used (addrOf s.block (s.dinode inum) pl) := by
  obtain ⟨m, hmain, hsb, hb⟩ := main_builds hfits
  have hroom := hfits.inodes
  refine ⟨m, booted mkfsSb m.block, hmain, ?_, fun k hk cwd path hpath => ?_, ?_⟩
  · unfold boot
    rw [hsb]
    rfl
  · exact readsBack_booted hfits h hb hk hpath
  · intro inum hinum pl haddr
    have hlt : inum < NINODES := by
      rcases hinum with rfl | ⟨-, hlt⟩
      · decide
      · omega
    refine hb.used (fun _ => rfl) hlt ?_ haddr
    · rcases hinum with rfl | ⟨hge, hlt⟩
      · rw [hb.rootDir.type]
        decide
      · obtain ⟨k, rfl⟩ := Nat.exists_eq_add_of_le' hge
        rw [(hb.fileAt k (by omega)).type]
        decide

/-- `user/_cat`, with three bytes that two calls of `read` return. -/
def catFile : SourceFile :=
  ⟨userDir ++ [UNDERSCORE, 99, 97, 116], [[1, 2], [3]], by decide, by decide⟩

/-- `README`, which is empty. -/
def readmeFile : SourceFile := ⟨[82, 69, 65, 68, 77, 69], [], by decide, by decide⟩

theorem main_readsBack_two : ∃ m s, main [catFile, readmeFile] = .ok m ∧ boot m.block = .ok s ∧
    ReadsBack s.toFileSys 7 [SLASH, 99, 97, 116] 2 [1, 2, 3] ∧
    ReadsBack s.toFileSys 0 [82, 69, 65, 68, 77, 69] 3 [] := by
  have hfits : Fits [catFile, readmeFile] := ⟨by decide, by decide, by decide, by decide⟩
  have hnamed : Named [catFile, readmeFile] := ⟨by decide, by decide, by decide, by decide⟩
  obtain ⟨m, s, hmain, hboot, hread, -⟩ := main_readsBack hfits hnamed
  exact ⟨m, s, hmain, hboot, hread 0 (by decide) 7 _ (.inl rfl),
    hread 1 (by decide) 0 _ (.inr ⟨rfl, rfl⟩)⟩

/-- `_`, whose name on the image is empty. -/
def namelessFile : SourceFile := ⟨[UNDERSCORE], [[1]], by decide, by decide⟩

/-- `/` is the root directory. -/
theorem namei_slash {s : FileSys} {cwd : Fin NINODE} (hdev : (s.inode 0).dev = ROOTDEV)
    (hinum : (s.inode 0).inum = ROOTINO) (href : 0 < (s.inode 0).ref) :
    Ends (namei cwd [SLASH]) s (fun r t => r = some 0 ∧
      t = s.setInode 0 { s.inode 0 with ref := (s.inode 0).ref + 1 }) fun _ _ => False := by
  have hnamex : Ends (namex false cwd [SLASH]) s (fun r t => r = some (0, []) ∧
      t = s.setInode 0 { s.inode 0 with ref := (s.inode 0).ref + 1 }) fun _ _ => False := by
    refine (iget_first hdev hinum href).bind ?_
    rintro _ _ ⟨rfl, rfl⟩
    exact ⟨rfl, rfl⟩
  unfold namei
  refine hnamex.bind ?_
  rintro _ _ ⟨rfl, rfl⟩
  exact ⟨rfl, rfl⟩

/-- A file with the empty name is not found: its path is that of the root directory. -/
theorem nameless_notRead :
    ¬ ∀ files : List SourceFile, Fits files → (files.map SourceFile.name).Nodup →
      (∀ file ∈ files, file.name.length ≤ DIRSIZ) → ∀ m s, main files = .ok m →
      boot m.block = .ok s → ∀ k (hk : k < files.length),
        ∃ inum, ReadsBack s.toFileSys 0 (SLASH :: files[k].name) inum files[k].data := by
  intro hall
  have hfits : Fits [namelessFile] := ⟨by decide, by decide, by decide, by decide⟩
  obtain ⟨m, hmain, hsb, hb⟩ := main_builds hfits
  have hboot : boot m.block = .ok (booted mkfsSb m.block) := by
    unfold boot
    rw [hsb]
    rfl
  obtain ⟨inum, j, t, u, hnamei, hilock, -, hsize, -⟩ :=
    hall [namelessFile] hfits (by decide) (by decide) m _ hmain hboot 0 (by decide)
  obtain ⟨hj, ht⟩ := (namei_slash rfl rfl Nat.one_pos).ok hnamei
  obtain rfl := Option.some.inj hj
  have hip : t.inode 0 = { Inode.idle with dev := ROOTDEV, inum := ROOTINO, ref := 2 } := by
    rw [ht]
    rfl
  have hroot : Holds t.toDisk ROOTINO T_DIR (rounded (rootData [namelessFile]).length)
      (rootData [namelessFile]) := by
    rw [ht]
    exact hb.rootDir
  have htype : (t.dinode ROOTINO).type ≠ 0 := by
    rw [hroot.type]
    decide
  obtain rfl := (ilock_fresh hip (by decide) rfl rfl htype).ok hilock
  have hcopy : ((t.dinode ROOTINO).size).toNat = namelessFile.data.length := by
    simpa [FileSys.setInode] using hsize
  rw [hroot.size] at hcopy
  revert hcopy
  decide

end ReadBack

end Fs
