import OSN.Fs.Ownership
import OSN.Fs.Reading
import OSN.Fs.Refs

/-!
# Files without holes

The calls keep the files of all inodes without holes, and the entries of directories
within the file system.  They are followed with the entries of the inode table that they
have locked: only those are read and written, and between two functions on them the copy
in the table is what is on the disk.
-/

namespace Fs

variable {α : Type} {block block' : UInt32 → Block} {dip : Dinode} {ninodes : Nat}

/-- The entry of a directory at an offset. -/
def direntAt (block : UInt32 → Block) (dip : Dinode) (off : Nat) : Dirent :=
  .ofBytes (Bytes.slice (content block dip) off DIRENTSIZE)

/-- A directory names inodes of the file system only. -/
def InRange (ninodes : Nat) (block : UInt32 → Block) (dip : Dinode) : Prop :=
  dip.type = T_DIR → ∀ j, DIRENTSIZE * (j + 1) ≤ dip.size.toNat →
    (direntAt block dip (DIRENTSIZE * j)).inum < ninodes

/-- The file of an inode has no hole, and if it is a directory it is in order. -/
structure Sane (ninodes : Nat) (block : UInt32 → Block) (dip : Dinode) : Prop where
  full : Full block dip
  inRange : InRange ninodes block dip

theorem Sane.congr (h : Sane ninodes block dip)
    (hblock : ∀ bn, blockOf block' dip bn = blockOf block dip bn)
    (hcontent : ∀ p, content block' dip p = content block dip p) : Sane ninodes block' dip := by
  refine ⟨fun bn hbn => ?_, fun hdir j hj => ?_⟩
  · rw [hblock]
    exact h.full bn hbn
  · have hsame : content block' dip = content block dip := funext hcontent
    unfold direntAt
    rw [hsame]
    exact h.inRange hdir j hj

/-- The file stays what it is when its dinode is written back. -/
theorem Sane.same {n n' : Node} (h : Sane ninodes n.block n.ip) (htype : n'.ip.type = n.ip.type)
    (hsize : n'.ip.size = n.ip.size) (hblk : ∀ bn, n'.blk bn = n.blk bn)
    (hbyte : ∀ p, n'.byte p = n.byte p) : Sane ninodes n'.block n'.ip := by
  refine ⟨fun bn hbn => ?_, fun hdir j hj => ?_⟩
  · rw [hsize] at hbn
    exact fun hzero => h.full bn hbn ((hblk bn).symm.trans hzero)
  · rw [hsize] at hj
    have hsame : content n'.block n'.ip = content n.block n.ip := funext hbyte
    unfold direntAt
    rw [hsame]
    exact h.inRange (htype ▸ hdir) j hj

/-- **`writei`** leaves no hole in a file that had none. -/
theorem Wrote.full_of_full {ι : Type} {own : Place → ι} {f : ι → UInt32}
    {src : Nat → Option UInt8} {inum off m tot : Nat} {n n' : Node}
    (hw : Wrote own f inum src off m n tot n') (h : Full n.block n.ip) : Full n'.block n'.ip := by
  intro bn hbn
  rw [hw.size] at hbn
  by_cases hold : bn * BSIZE < n.ip.size.toNat
  · have hblk := h bn hold
    exact fun hzero => hblk ((hw.blk bn hblk).symm.trans hzero)
  · have hstart := hw.start
    have hmapped := hw.mapped (bn * BSIZE) (by omega) (by omega)
    rwa [Nat.mul_div_cancel _ (by decide)] at hmapped

theorem Sane.empty (hsize : dip.size = 0) : Sane ninodes block dip := by
  refine ⟨fun bn hbn => ?_, fun _ j hj => ?_⟩
  · rw [hsize] at hbn
    exact absurd hbn (Nat.not_lt_zero _)
  · rw [hsize] at hj
    exact absurd hj (Nat.not_le.mpr (Nat.mul_pos (by decide) (Nat.succ_pos j)))

namespace FileSys

/-- The entries of the inode table that the call has locked, and no others, are locked;
the copies in the table are what is on the disk, and no file has a hole. -/
structure Steady (locks : List (Fin NINODE)) (s : FileSys) : Prop extends Owned [] s where
  root : ROOTINO < s.sb.ninodes
  nodup : locks.Nodup
  lock : ∀ i, (s.inode i).locked = true ↔ i ∈ locks
  synced : ∀ i k, (s.inode i).Holds k → (s.inode i).toDinode = s.dinode k
  sane : ∀ k < s.sb.ninodes, (s.dinode k).type ≠ 0 → Sane s.sb.ninodes s.block (s.dinode k)

variable {s t : FileSys} {i j : Fin NINODE} {inum : Nat} {locks : List (Fin NINODE)} {ip : Inode}
  {f' : Tenant → UInt32} {n' : Node}

/-- The entries in use keep their inodes, and these their types. -/
structure Lasting (s t : FileSys) : Prop where
  sb : t.sb = s.sb
  entry : ∀ j, 0 < (s.inode j).ref → 0 < (t.inode j).ref → (t.inode j).inum = (s.inode j).inum ∧
    ((s.dinode (s.inode j).inum).type ≠ 0 →
      (t.dinode (s.inode j).inum).type = (s.dinode (s.inode j).inum).type)

theorem Lasting.refl : Lasting s s := ⟨rfl, fun _ _ _ => ⟨rfl, fun _ => rfl⟩⟩

theorem Lasting.setInode (hinum : 0 < (s.inode i).ref → 0 < ip.ref → ip.inum = (s.inode i).inum) :
    Lasting s (s.setInode i ip) := by
  refine ⟨rfl, fun j hj hj' => ?_⟩
  refine ⟨?_, fun _ => rfl⟩
  by_cases hji : j = i
  · subst hji
    have hself : (s.setInode j ip).inode j = ip := Function.update_self _ _ _
    rw [hself] at hj' ⊢
    exact hinum hj hj'
  · exact congrArg Inode.inum (Function.update_of_ne hji _ _)

namespace Steady

/-- Two locks change places. -/
theorem swap (h : Steady (i :: j :: locks) s) : Steady (j :: i :: locks) s :=
  { h with
    nodup := (List.Perm.swap j i locks).nodup_iff.mp h.nodup
    lock := fun k => (h.lock k).trans (List.Perm.swap j i locks).mem_iff }

/-- What is locked is in use and valid. -/
theorem holds (h : Steady locks s) (hi : i ∈ locks) : (s.inode i).Holds (s.inode i).inum := by
  obtain ⟨href, hvalid⟩ := h.locked i ((h.lock i).mpr hi)
  exact ⟨href, hvalid, rfl⟩

theorem inum_lt (h : Steady locks s) (hi : i ∈ locks) : (s.inode i).inum < s.sb.ninodes :=
  (h.range i (h.holds hi).1).2

theorem dev_eq (h : Steady locks s) (hi : i ∈ locks) : (s.inode i).dev = ROOTDEV :=
  (h.range i (h.holds hi).1).1

theorem copy_eq (h : Steady locks s) (hi : i ∈ locks) :
    (s.inode i).toDinode = s.dinode (s.inode i).inum := h.synced i _ (h.holds hi)

/-- The copy of a locked inode. -/
theorem sane_node (h : Steady locks s) (hi : i ∈ locks) :
    Sane s.sb.ninodes s.block (s.nodeOf i).ip := by
  have hcopy := h.copy_eq hi
  have htype := (h.type i _ (h.holds hi)).1
  change Sane _ _ (s.inode i).toDinode
  rw [hcopy]
  exact h.sane _ (h.inum_lt hi) (hcopy ▸ htype)

/-- **The table changes**, and the disk in its log only. -/
theorem congr (h : Steady locks s) {locks' : List (Fin NINODE)} (ht : Owned [] t)
    (hdisk : s.toDisk.SameBlocks t.toDisk) (hnodup : locks'.Nodup)
    (hlock : ∀ i, (t.inode i).locked = true ↔ i ∈ locks')
    (hsynced : ∀ i k, (t.inode i).Holds k → (t.inode i).toDinode = s.dinode k) :
    Steady locks' t := by
  have hdinode : ∀ k, t.dinode k = s.dinode k := fun k => by
    unfold Disk.dinode
    rw [hdisk.sb, hdisk.block]
  have hsb : t.sb = s.sb := hdisk.sb
  refine ⟨ht, hsb ▸ h.root, hnodup, hlock,
    fun i k hk => (hsynced i k hk).trans (hdinode k).symm, ?_⟩
  intro k hk htype
  rw [hdinode] at htype ⊢
  rw [show t.block = s.block from hdisk.block, show t.sb = s.sb from hdisk.sb]
  rw [show t.sb = s.sb from hdisk.sb] at hk
  exact h.sane k hk htype

/-- **An entry of the table changes.** -/
theorem setInode (h : Steady locks s) {locks' : List (Fin NINODE)}
    (ht : Owned [] (s.setInode i ip)) (hnodup : locks'.Nodup)
    (hself : ip.locked = true ↔ i ∈ locks') (hothers : ∀ j, j ≠ i → (j ∈ locks' ↔ j ∈ locks))
    (hsynced : ∀ k, ip.Holds k → ip.toDinode = s.dinode k) :
    Steady locks' (s.setInode i ip) := by
  have hinode : (s.setInode i ip).inode i = ip := Function.update_self _ _ _
  have hentry : ∀ j, j ≠ i → (s.setInode i ip).inode j = s.inode j :=
    fun j hj => Function.update_of_ne hj _ _
  refine h.congr ht ⟨rfl, rfl⟩ hnodup (fun j => ?_) fun j k hk => ?_
  · by_cases hj : j = i
    · subst hj
      rw [hinode]
      exact hself
    · rw [hentry j hj]
      exact (h.lock j).trans (hothers j hj).symm
  · by_cases hj : j = i
    · subst hj
      rw [hinode] at hk ⊢
      exact hsynced k hk
    · rw [hentry j hj] at hk ⊢
      exact h.synced j k hk

/-- The file of another inode is where it was, with what it held. -/
theorem other_same (h : Steady locks s) {n : Node} (hn : n.toDisk = s.toDisk)
    (hapart : Apart (placesOf inum) (s.tenant []) f' n n') {k : Nat} (hk : k < s.sb.ninodes)
    (hne : k ≠ inum) (hused : (s.dinode k).type ≠ 0) :
    (∀ bn, blockOf n'.block (s.dinode k) bn = blockOf s.block (s.dinode k) bn) ∧
      ∀ p, content n'.block (s.dinode k) p = content s.block (s.dinode k) p := by
  have hcopy : s.copy k = s.dinode k := by
    by_cases hheld : ∃ j, (s.inode j).Holds k
    · obtain ⟨j, hj⟩ := hheld
      rw [copy_of_holds h.unique hj, h.synced j k hj]
    · exact copy_of_none fun j hj => hheld ⟨j, hj⟩
  have huse : k < s.sb.ninodes ∧ (s.copy k).type ≠ 0 := by
    rw [hcopy]
    exact ⟨hk, hused⟩
  have hblock := blockOf_other hn hapart hne huse
  have hcontent := content_other hn hapart hne huse
  rw [hcopy] at hblock hcontent
  exact ⟨hblock, hcontent⟩

theorem sane_other (h : Steady locks s) {n : Node} (hn : n.toDisk = s.toDisk)
    (hapart : Apart (placesOf inum) (s.tenant []) f' n n')
    (hother : ∀ k < s.sb.ninodes, k ≠ inum → n'.toDisk.dinode k = s.dinode k) {k : Nat}
    (hk : k < s.sb.ninodes) (hne : k ≠ inum) (hused : (n'.toDisk.dinode k).type ≠ 0) :
    Sane s.sb.ninodes n'.block (n'.toDisk.dinode k) := by
  rw [hother k hk hne] at hused ⊢
  obtain ⟨hblock, hcontent⟩ := h.other_same hn hapart hk hne hused
  exact (h.sane k hk hused).congr hblock hcontent

/-- **Work on a locked inode.** -/
theorem work (h : Steady locks s) (hi : i ∈ locks) (hinum : (s.inode i).inum = inum)
    (hheld : Held (placesOf inum) f' n')
    (hapart : Apart (placesOf inum) (s.tenant []) f' (s.nodeOf i) n')
    (hother : ∀ k < s.sb.ninodes, k ≠ inum → n'.toDisk.dinode k = s.dinode k)
    (htype : n'.ip.type = (s.inode i).type) (hsync : n'.toDisk.dinode inum = n'.ip)
    (hsane : Sane s.sb.ninodes n'.block n'.ip) :
    Steady locks ((FileSys.node i).set n' s) ∧ Lasting s ((FileSys.node i).set n' s) := by
  subst hinum
  have hholds := h.holds hi
  have hsb : n'.sb = s.sb := hapart.sb
  have hself : ((FileSys.node i).set n' s).inode i = { s.inode i with toDinode := n'.ip } :=
    Function.update_self _ _ _
  have hentry : ∀ j, j ≠ i → ((FileSys.node i).set n' s).inode j = s.inode j :=
    fun j hj => Function.update_of_ne hj _ _
  have hroot : ROOTINO < n'.sb.ninodes := hsb ▸ h.root
  refine ⟨⟨h.node hholds hheld hapart hother htype (congrArg Dinode.type hsync), hroot, h.nodup,
    ?_, ?_, ?_⟩, hsb, fun j hj _ => ⟨?_, fun _ => ?_⟩⟩
  · intro j
    by_cases hj : j = i
    · subst hj
      rw [hself]
      exact h.lock j
    · rw [hentry j hj]
      exact h.lock j
  · intro j k hk
    by_cases hj : j = i
    · subst hj
      rw [hself] at hk ⊢
      obtain rfl : (s.inode j).inum = k := hk.2.2
      exact hsync.symm
    · rw [hentry j hj] at hk ⊢
      have hne : k ≠ (s.inode i).inum := by
        rintro rfl
        exact hj (h.unique j i hk.1 hholds.1 hk.2.2)
      have hlt := (h.range j hk.1).2
      rw [hk.2.2] at hlt
      exact (h.synced j k hk).trans (hother k hlt hne).symm
  · intro k hk hused
    change k < n'.sb.ninodes at hk
    change (n'.toDisk.dinode k).type ≠ 0 at hused
    change Sane n'.sb.ninodes n'.block (n'.toDisk.dinode k)
    rw [hsb] at hk ⊢
    by_cases hne : k = (s.inode i).inum
    · subst hne
      rw [hsync]
      exact hsane
    · exact h.sane_other rfl hapart hother hk hne hused
  · by_cases hji : j = i
    · subst hji
      rw [hself]
    · rw [hentry j hji]
  · change (n'.toDisk.dinode _).type = _
    by_cases hne : (s.inode j).inum = (s.inode i).inum
    · rw [hne, hsync, htype]
      exact (h.type i _ hholds).2
    · rw [hother _ (h.range j hj).2 hne]

end Steady

/-! ### What the functions keep -/

/-- A new entry of the table does for what it is to replace. -/
structure Replaces (locks locks' : List (Fin NINODE)) (s : FileSys) (i : Fin NINODE) (ip : Inode) :
    Prop where
  nodup : locks'.Nodup
  self : ip.locked = true ↔ i ∈ locks'
  others : ∀ j, j ≠ i → (j ∈ locks' ↔ j ∈ locks)
  synced : ∀ k, ip.Holds k → ip.toDinode = s.dinode k
  inum : 0 < (s.inode i).ref → 0 < ip.ref → ip.inum = (s.inode i).inum

namespace Steady

variable {locks' : List (Fin NINODE)}

/-- **Code that changes one entry of the table.** -/
theorem entry (h : Steady locks s) {x : FsM α}
    (howned : Ends x s (fun _ t => Owned [] t) NoFreeing)
    (hx : IfOk x s fun _ t => ∃ i ip, t = s.setInode i ip ∧ Replaces locks locks' s i ip) :
    IfOk x s fun _ t => Steady locks' t ∧ Lasting s t := by
  refine (howned.and hx).mono ?_ fun _ _ _ => trivial
  rintro a t ⟨ht, i, ip, rfl, hr⟩
  exact ⟨h.setInode ht hr.nodup hr.self hr.others hr.synced, .setInode hr.inum⟩

theorem ilock (h : Steady locks s) :
    IfOk (ilock i) s fun _ t => Steady (i :: locks) t ∧ Lasting s t := by
  refine h.entry h.toOwned.ilock ?_
  have hothers : ∀ j, j ≠ i → (j ∈ i :: locks ↔ j ∈ locks) := fun j hj => by simp [hj]
  unfold IfOk Fs.ilock
  rw [Ends.get_bind_iff]
  dsimp only
  split
  · trivial
  · split
    · trivial
    next hunlocked =>
      have hnotin : i ∉ locks := fun hi => hunlocked ((h.lock i).mpr hi)
      have hnodup := List.nodup_cons.mpr ⟨hnotin, h.nodup⟩
      split
      · exact ⟨i, _, rfl, hnodup, by simp, hothers, fun k hk => h.synced i k hk, fun _ _ => rfl⟩
      · rw [Ends.set_bind_iff]
        split
        · trivial
        · refine ⟨i, _, rfl, hnodup, by simp, hothers, ?_, fun _ _ => rfl⟩
          rintro k ⟨-, -, rfl⟩
          rfl

theorem iunlock (h : Steady (i :: locks) s) :
    IfOk (iunlock i) s fun _ t => Steady locks t ∧ Lasting s t := by
  refine h.entry h.toOwned.iunlock ?_
  obtain ⟨hnotin, hnodup⟩ := List.nodup_cons.mp h.nodup
  unfold IfOk Fs.iunlock
  rw [Ends.get_bind_iff]
  dsimp only
  split
  · trivial
  · exact ⟨i, _, rfl, hnodup, by simp [hnotin], fun j hj => by simp [hj],
      fun k hk => h.synced i k hk, fun _ _ => rfl⟩

/-- A reference more changes nothing else. -/
theorem replaces_addRef (h : Steady locks s) (hi : 0 < (s.inode i).ref) :
    Replaces locks locks s i { s.inode i with ref := (s.inode i).ref + 1 } :=
  ⟨h.nodup, h.lock i, fun _ _ => Iff.rfl, fun k hk => h.synced i k ⟨hi, hk.2⟩, fun _ _ => rfl⟩

theorem idup (h : Steady locks s) (hi : 0 < (s.inode i).ref) :
    IfOk (idup i) s fun _ t => Steady locks t ∧ Lasting s t :=
  h.entry (h.toOwned.idup hi) ⟨i, _, rfl, h.replaces_addRef hi⟩

theorem iget (h : Steady locks s) (hinum : inum < s.sb.ninodes) :
    IfOk (iget ROOTDEV inum) s fun _ t => Steady locks t ∧ Lasting s t := by
  refine h.entry (h.toOwned.iget hinum) ?_
  unfold IfOk Fs.iget
  rw [Ends.get_bind_iff]
  split
  next i hcached => exact ⟨i, _, rfl, h.replaces_addRef (cached_some hcached).1⟩
  next =>
    split
    next i hfree =>
      have href : (s.inode i).ref = 0 := by simpa using List.find?_some hfree
      refine ⟨i, _, rfl, h.nodup, h.lock i, fun _ _ => Iff.rfl, ?_, fun hpos => ?_⟩
      · intro k hk
        cases hk.2.1
      · omega
    next => trivial

/-- What is left when the last reference to an inode without links is given up. -/
structure Erased (s : FileSys) (i : Fin NINODE) (t : FileSys) : Prop where
  cleared : ∃ f' n', Cleared (placesOf (s.inode i).inum) (s.tenant []) (s.inode i).inum
    (s.nodeOf i) n' ∧ t.toDisk = n'.toDisk ∧
      Apart (placesOf (s.inode i).inum) (s.tenant []) f' (s.nodeOf i) n'
  ref : (t.inode i).ref = 0
  unlocked : (s.inode i).locked = false
  locked : (t.inode i).locked = false
  others : ∀ j, j ≠ i → t.inode j = s.inode j

theorem iput_erases (h : Steady locks s) (hi : 0 < (s.inode i).ref) :
    IfOk (iput i) s fun _ t => Erased s i t ∨
      t = s.setInode i { s.inode i with ref := (s.inode i).ref - 1 } := by
  unfold IfOk Fs.iput
  rw [Ends.get_bind_iff]
  dsimp only
  split
  next hfree =>
    obtain ⟨hone, hvalid, -⟩ := hfree
    have hholds : (s.inode i).Holds (s.inode i).inum := ⟨hi, hvalid, rfl⟩
    unfold Fs.ifree
    rw [Ends.bind_iff, Ends.get_bind_iff]
    dsimp only
    split
    · trivial
    next hunlocked =>
      rw [Ends.bind_iff, node_iff]
      refine ((h.held hholds).clear (h.range_of_holds hholds)).mono ?_ fun _ _ _ => trivial
      intro _ n' hc
      obtain ⟨f', -, hapart⟩ := hc.held
      refine Or.inl ⟨⟨f', n', hc, rfl, hapart⟩, ?_, Bool.eq_false_iff.mpr hunlocked, ?_,
        fun j hj => ?_⟩
      · simp [FileSys.node, FileSys.setInode, hone]
      · simp [FileSys.node, FileSys.setInode, hunlocked]
      · simp [FileSys.node, FileSys.setInode, hj]
  next => exact Or.inr rfl

/-- **`iput`**: of a locked inode there is another reference. -/
theorem iput (h : Steady locks s) (hi : 0 < (s.inode i).ref)
    (hmore : i ∈ locks → 1 < (s.inode i).ref) :
    IfOk (iput i) s fun _ t => Steady locks t ∧ Lasting s t := by
  have howned := h.toOwned.iput hi (fun hl => hmore ((h.lock i).mp hl)) fun _ hvalid _ =>
    (h.synced i _ ⟨hi, hvalid, rfl⟩).symm
  refine (howned.and (h.iput_erases hi)).mono ?_ fun _ _ _ => trivial
  rintro _ t ⟨ht, he | rfl⟩
  · obtain ⟨⟨f', n', hc, hdisk, hapart⟩, href, hunlocked, hlocked, hothers⟩ := he
    have hnotin : i ∉ locks := fun hi => by
      have hl := (h.lock i).mpr hi
      rw [hunlocked] at hl
      cases hl
    have hsb : t.sb = s.sb := by
      rw [hdisk]
      exact hapart.sb
    have hgone : ∀ k, ¬ (t.inode i).Holds k := fun k hk => by
      have hpos := hk.1
      omega
    have hfresh : ∀ j, j ≠ i → 0 < (s.inode j).ref → (s.inode j).inum ≠ (s.inode i).inum :=
      fun j hj hpos heq => hj (h.unique j i hpos hi heq)
    have hdinode : ∀ k < s.sb.ninodes, k ≠ (s.inode i).inum → t.dinode k = s.dinode k := by
      intro k hk hne
      rw [hdisk]
      exact hc.dinode_other k hk hne
    refine ⟨⟨ht, hsb ▸ h.root, h.nodup, fun j => ?_, fun j k hk => ?_, fun k hk hused => ?_⟩, hsb,
      fun j hj hj' => ?_⟩
    · by_cases hji : j = i
      · subst hji
        simp [hlocked, hnotin]
      · rw [hothers j hji]
        exact h.lock j
    · have hji : j ≠ i := by
        rintro rfl
        exact hgone k hk
      rw [hothers j hji] at hk ⊢
      have hrange := (h.range j hk.1).2
      rw [h.synced j k hk, hdinode k (hk.2.2 ▸ hrange) (hk.2.2 ▸ hfresh j hji hk.1)]
    · rw [hsb] at hk ⊢
      have hne : k ≠ (s.inode i).inum := by
        rintro rfl
        refine hused ?_
        rw [hdisk, hc.dinode_self, hc.header]
      have hsame : t.block = n'.block := congrArg Disk.block hdisk
      rw [hsame]
      rw [hdisk] at hused ⊢
      exact h.sane_other rfl hapart hc.dinode_other hk hne hused
    · have hji : j ≠ i := by
        rintro rfl
        omega
      rw [hothers j hji]
      have hrange := (h.range j hj).2
      refine ⟨rfl, fun _ => congrArg Dinode.type (hdinode _ hrange (hfresh j hji hj))⟩
  · refine ⟨h.setInode ht h.nodup (h.lock i) (fun _ _ => Iff.rfl) (fun k hk => ?_),
      .setInode fun _ _ => rfl⟩
    exact h.synced i k ⟨hi, hk.2⟩

/-- **`ialloc`** makes an inode with an empty file. -/
theorem ialloc (h : Steady locks s) {type : UInt16} :
    IfOk (ialloc ROOTDEV type) s fun _ t => Steady locks t ∧ Lasting s t := by
  unfold IfOk Fs.ialloc
  rw [Ends.get_bind_iff]
  split
  next inum hfound =>
    have hfree : (s.dinode inum).type = 0 := by simpa using List.find?_some hfound
    have hinum : inum < s.sb.ninodes := by
      have hmem := List.mem_of_find?_eq_some hfound
      rw [List.mem_range'_1] at hmem
      omega
    dsimp only
    rw [Ends.bind_iff, disk_iff]
    unfold store
    rw [Ends.modify_iff, Ends.bind_iff, disk_iff]
    refine logWrite_same.mono (fun _ d hd => ?_) fun _ _ _ => trivial
    have hu : Updated inum ⟨s.toDisk, { Dinode.zero with type }⟩ ⟨d, { Dinode.zero with type }⟩ :=
      ⟨hd.sb, rfl, hd.block⟩
    have hheld : Held (placesOf inum) (s.tenant []) ⟨s.toDisk, { Dinode.zero with type }⟩ :=
      h.toOwned.held_bare hfree fun _ => rfl
    have hother : ∀ k < s.sb.ninodes, k ≠ inum → d.dinode k = s.dinode k :=
      fun k hk hne => hu.dinode_other h.sound.layout hinum hk hne
    have hself : d.dinode inum = { Dinode.zero with type } := hu.dinode_self
    have hsb : d.sb = s.sb := hd.sb
    have hsteady : Steady locks ({ s with toDisk := d } : FileSys) := by
      have hroot : ROOTINO < d.sb.ninodes := hsb ▸ h.root
      refine ⟨h.toOwned.newInode hinum hfree (fun _ => rfl) hu, hroot, h.nodup, h.lock, ?_, ?_⟩
      · intro j k hk
        have hne : k ≠ inum := by
          rintro rfl
          exact h.none_of_free hfree j hk
        have hrange := (h.range j hk.1).2
        rw [hk.2.2] at hrange
        exact (h.synced j k hk).trans (hother k hrange hne).symm
      · intro k hk hused
        change k < d.sb.ninodes at hk
        change Sane d.sb.ninodes d.block (d.dinode k)
        rw [hsb] at hk ⊢
        by_cases hne : k = inum
        · subst hne
          rw [hself]
          exact .empty rfl
        · exact h.sane_other rfl (hu.apart hheld hinum) hother hk hne hused
    refine (hsteady.iget (by rw [show _ = s.sb from hsb]; exact hinum)).post ?_
    rintro _ t ⟨ht, hlast⟩
    refine ⟨ht, hlast.sb.trans hsb, fun j hj hj' => ?_⟩
    obtain ⟨hsame, htype⟩ := hlast.entry j hj hj'
    refine ⟨hsame, fun hused => ?_⟩
    have hne : (s.inode j).inum ≠ inum := by
      intro heq
      rw [heq] at hused
      exact hused hfree
    have hdinode := hother _ (h.range j hj).2 hne
    exact (htype (hdinode ▸ hused)).trans (congrArg Dinode.type hdinode)
  next => trivial

/-- Code on the log. -/
theorem log (h : Steady locks s) {x : DiskM α}
    (hx : Ends x s.toDisk (fun _ d => s.toDisk.SameBlocks d) NoFreeing) :
    IfOk (FsM.disk x) s fun _ t => Steady locks t ∧ Lasting s t := by
  have hsame : IfOk (FsM.disk x) s fun _ t => t.inode = s.inode ∧ s.toDisk.SameBlocks t.toDisk := by
    unfold IfOk
    rw [disk_iff]
    exact hx.mono (fun _ d hd => ⟨rfl, hd⟩) fun _ _ _ => trivial
  refine ((h.toOwned.sameBlocks hx).and hsame).mono ?_ fun _ _ _ => trivial
  rintro _ t ⟨ht, hinode, hdisk⟩
  have hdinode : ∀ k, t.dinode k = s.dinode k := fun k => by
    unfold Disk.dinode
    rw [hdisk.sb, hdisk.block]
  refine ⟨h.congr ht hdisk h.nodup ?_ ?_, hdisk.sb, fun j _ _ => ?_⟩
  · rw [hinode]
    exact h.lock
  · rw [hinode]
    exact h.synced
  · rw [hinode, hdinode]
    exact ⟨rfl, fun _ => rfl⟩

/-- Code that looks at a locked inode. -/
theorem look {x : NodeM α} {Q : α → Prop}
    (hx : IfOk x (s.nodeOf i) fun a n' => n' = s.nodeOf i ∧ Q a) :
    IfOk (FsM.node i x) s fun a t => t = s ∧ Q a := by
  unfold IfOk
  rw [node_iff]
  refine hx.post ?_
  rintro a _ ⟨rfl, ha⟩
  exact ⟨node_set_self, ha⟩

/-- A loop over the entries of a locked directory. -/
theorem findEntry (h : Steady locks s) (hi : i ∈ locks) {text : String}
    {p : Dirent → Bool} {first : Nat} (hdir : (s.inode i).type = T_DIR) (hfirst : DIRENTSIZE ∣ first) :
    IfOk (FsM.node i (findEntry text p (offsets first (s.inode i).size.toNat))) s fun r t =>
      t = s ∧ ∀ off de, r = some (off, de) → DIRENTSIZE ∣ off ∧ de.inum < s.sb.ninodes := by
  refine look ((findEntry_pure (h.sane_node hi).full _).mono ?_ fun _ _ _ => trivial)
  rintro r n ⟨hn, hr⟩
  refine ⟨hn, ?_⟩
  rintro off de rfl
  obtain ⟨hoff, hsize, rfl, -⟩ := hr
  obtain ⟨k, -, rfl⟩ := List.mem_map.mp hoff
  obtain ⟨j, rfl⟩ := hfirst
  rw [← Nat.mul_add] at hsize ⊢
  refine ⟨Nat.dvd_mul_right _ _, (h.sane_node hi).inRange hdir (j + k) ?_⟩
  exact hsize

/-- **`writei`** to a locked inode. -/
theorem writei (h : Steady locks s) (hi : i ∈ locks) (hinum : (s.inode i).inum = inum)
    {src : Nat → Option UInt8} {off m : Nat}
    (hrange : ∀ tot n', Wrote (placesOf inum) (s.tenant []) inum src off m (s.nodeOf i) tot n' →
      InRange s.sb.ninodes n'.block n'.ip) :
    IfOk (FsM.node i (writei inum src off m)) s fun _ t => Steady locks t ∧ Lasting s t := by
  have hholds : (s.inode i).Holds inum := hinum ▸ h.holds hi
  unfold IfOk
  rw [node_iff]
  refine ((h.held hholds).writei (h.range_of_holds hholds)).mono ?_ fun _ _ _ => trivial
  rintro r n' (⟨-, rfl⟩ | ⟨tot, -, hw⟩)
  · rw [node_set_self]
    exact ⟨h, .refl⟩
  · obtain ⟨f', hheld, hapart⟩ := hw.held
    refine h.work hi hinum hheld hapart hw.dinode_other ?_ hw.dinode_self
      ⟨hw.full_of_full (h.sane_node hi).full, hrange tot n' hw⟩
    rw [hw.header]
    rfl

/-- **An entry of a directory is written.** -/
theorem writeDirent (h : Steady locks s) (hi : i ∈ locks) (hinum : (s.inode i).inum = inum)
    {text : String} {de : Dirent} (hde : de.inum < s.sb.ninodes) (hname : de.name.length = DIRSIZ)
    {k : Nat} :
    IfOk (FsM.node i (writeDirent text inum de (DIRENTSIZE * k))) s fun _ t =>
      Steady locks t ∧ Lasting s t := by
  have hbytes := Dirent.bytes_length hname
  have hwrite : IfOk (FsM.node i (Fs.writei inum (kernelSrc de.bytes) (DIRENTSIZE * k)
      DIRENTSIZE)) s fun _ t => Steady locks t ∧ Lasting s t := by
    refine h.writei hi hinum fun tot n' hw hdir j hj => ?_
    have hfull : tot = DIRENTSIZE := hw.full fun p hp => by
      unfold kernelSrc
      rw [List.getElem?_eq_getElem (hbytes ▸ hp)]
      rfl
    have hstart := hw.start
    rw [hw.size, hfull] at hj
    by_cases hjk : j = k
    · subst hjk
      have hslice : Bytes.slice n'.byte (DIRENTSIZE * j) DIRENTSIZE = de.bytes := by
        have hall : Bytes.slice n'.byte (DIRENTSIZE * j) de.bytes.length = de.bytes :=
          Bytes.slice_eq_iff.mpr fun p hp => hw.wrote p (by omega)
        rwa [hbytes] at hall
      change (Dirent.ofBytes (Bytes.slice n'.byte (DIRENTSIZE * j) DIRENTSIZE)).inum < _
      rw [hslice, Dirent.ofBytes_bytes]
      exact lt_of_le_of_lt (Nat.mod_le _ _) hde
    · -- the other entries are what they were
      have hslice : Bytes.slice n'.byte (DIRENTSIZE * j) DIRENTSIZE =
          Bytes.slice (s.nodeOf i).byte (DIRENTSIZE * j) DIRENTSIZE := by
        refine Bytes.slice_congr fun p hp => hw.kept _ ?_
        unfold DIRENTSIZE DIRSIZ at *
        omega
      have hold : DIRENTSIZE * (j + 1) ≤ (s.nodeOf i).ip.size.toNat := by
        unfold DIRENTSIZE DIRSIZ at *
        omega
      change (Dirent.ofBytes (Bytes.slice n'.byte (DIRENTSIZE * j) DIRENTSIZE)).inum < _
      rw [hslice]
      exact (h.sane_node hi).inRange ((congrArg Dinode.type hw.header).symm.trans hdir) j hold
  have hsplit : FsM.node i (Fs.writeDirent text inum de (DIRENTSIZE * k)) =
      FsM.node i (Fs.writei inum (kernelSrc de.bytes) (DIRENTSIZE * k) DIRENTSIZE >>= fun r =>
        if r ≠ DIRENTSIZE then throw text else pure ()) := rfl
  unfold IfOk at hwrite ⊢
  rw [node_iff] at hwrite
  rw [hsplit, node_iff, Ends.bind_iff]
  refine hwrite.post fun r n' ht => ?_
  split
  · trivial
  · exact ht

/-- The header of a locked inode changes and is written back. -/
theorem rewrite (h : Steady locks s) (hi : i ∈ locks) (hinum : (s.inode i).inum = inum)
    {g : Dinode → Dinode}
    (hg : ∀ dip, (g dip).type = dip.type ∧ (g dip).size = dip.size ∧ (g dip).addrs = dip.addrs) :
    IfOk (FsM.node i do
      modify fun n : Node => { n with ip := g n.ip }
      iupdate inum) s fun _ t => Steady locks t ∧ Lasting s t := by
  have hholds : (s.inode i).Holds inum := hinum ▸ h.holds hi
  have hlt := h.range_of_holds hholds
  have hheld := h.held hholds
  have hgip := hg (s.nodeOf i).ip
  have hheld₁ : Held (placesOf inum) (s.tenant []) { s.nodeOf i with ip := g (s.nodeOf i).ip } :=
    hheld.setHeader rfl hgip.2.2
  have haddr : ∀ pl, ({ s.nodeOf i with ip := g (s.nodeOf i).ip } : Node).addr pl =
      (s.nodeOf i).addr pl := addr_setHeader rfl hgip.2.2
  have hblk : ∀ bn, ({ s.nodeOf i with ip := g (s.nodeOf i).ip } : Node).blk bn =
      (s.nodeOf i).blk bn := fun _ => Node.blk_congr (haddr _)
  have hapart₁ : Apart (placesOf inum) (s.tenant []) (s.tenant []) (s.nodeOf i)
      { s.nodeOf i with ip := g (s.nodeOf i).ip } := ⟨rfl, fun _ _ => rfl, fun _ _ _ => rfl⟩
  unfold IfOk
  rw [node_iff, Ends.modify_bind_iff]
  refine iupdate_updates.mono (fun _ n' hu => ?_) fun _ _ _ => trivial
  refine h.work hi hinum (hu.held hheld₁ hlt) (hapart₁.trans (hu.apart hheld₁ hlt))
    (fun k hk hne => hu.dinode_other h.sound.layout hlt hk hne) ?_ hu.dinode_self ?_
  · rw [hu.ip]
    exact hgip.1
  · refine (h.sane_node hi).same (n := s.nodeOf i) ?_ ?_ (fun bn => ?_) fun p => ?_
    · rw [hu.ip]
      exact hgip.1
    · rw [hu.ip]
      exact hgip.2.1
    · rw [hu.blk hheld₁ hlt, hblk]
    · rw [hu.byte hheld₁ hlt, Node.byte_eq, hblk, Node.byte_eq]

theorem itrunc (h : Steady locks s) (hi : i ∈ locks) (hinum : (s.inode i).inum = inum) :
    IfOk (FsM.node i (itrunc inum)) s fun _ t => Steady locks t ∧ Lasting s t := by
  have hholds : (s.inode i).Holds inum := hinum ▸ h.holds hi
  unfold IfOk
  rw [node_iff]
  refine ((h.held hholds).itrunc (h.range_of_holds hholds)).mono ?_ fun _ _ _ => trivial
  intro _ n' ht
  obtain ⟨f', hheld, hapart⟩ := ht.held
  refine h.work hi hinum hheld hapart ht.dinode_other ?_ ht.dinode_self (.empty ?_)
  · rw [ht.header]
    rfl
  · rw [ht.header]

end Steady

/-- The entry that `iget` returns. -/
theorem iget_names {dev : Nat} :
    IfOk (iget dev inum) s fun i t => (t.inode i).inum = inum ∧ t.toDisk = s.toDisk := by
  unfold IfOk Fs.iget
  rw [Ends.get_bind_iff]
  split
  next i hcached =>
    refine ⟨?_, rfl⟩
    simp [FileSys.setInode, (cached_some hcached).2.2]
  next =>
    split
    · exact ⟨by simp [FileSys.setInode], rfl⟩
    · trivial

/-- The inode that `ialloc` makes. -/
theorem ialloc_type {dev : Nat} {type : UInt16} :
    IfOk (ialloc dev type) s fun i t => (t.dinode (t.inode i).inum).type = type := by
  unfold IfOk Fs.ialloc
  rw [Ends.get_bind_iff]
  split
  next inum hfound =>
    dsimp only
    rw [Ends.bind_iff, disk_iff]
    unfold store
    rw [Ends.modify_iff, Ends.bind_iff, disk_iff]
    refine logWrite_same.mono (fun _ d hd => ?_) fun _ _ _ => trivial
    have hu : Updated inum ⟨s.toDisk, { Dinode.zero with type }⟩ ⟨d, { Dinode.zero with type }⟩ :=
      ⟨hd.sb, rfl, hd.block⟩
    have hself : d.dinode inum = { Dinode.zero with type } := hu.dinode_self
    refine iget_names.post ?_
    rintro i t ⟨hinum, hdisk⟩
    rw [hinum, hdisk]
    exact congrArg Dinode.type hself
  next => trivial

end FileSys

end Fs
