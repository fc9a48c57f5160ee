import OSN.Fs.PartWrites

/-!
# Files as byte arrays

A write within a transaction makes the file of its inode the old one with the bytes of the
source in it, and changes no other file.  What it needs are free blocks for those that are
missing, and entries of the log: `log_write` panics in a transaction that is too big.
-/

namespace Fs

namespace FileSys

/-- The file of an inode. -/
def file (s : FileSys) (k : Nat) : List UInt8 :=
  Bytes.slice (content s.block (s.copy k)) 0 (s.copy k).size.toNat

/-- Each data block has one owner, and the files have no holes. -/
structure Consistent (loose : List UInt32) (s : FileSys) : Prop extends Owned loose s where
  full : ∀ k < s.sb.ninodes, (s.copy k).type ≠ 0 → Full s.block (s.copy k)

/-- Inode `k` is not free. -/
def InUse (s : FileSys) (k : Nat) : Prop := k < s.sb.ninodes ∧ (s.copy k).type ≠ 0

variable {s t : FileSys} {loose : List UInt32} {i : Fin NINODE} {inum k : Nat}
  {f' : Tenant → UInt32}
  {n' : Node}

theorem file_of_holds (h : s.Unique) (hi : (s.inode i).Holds inum) :
    s.file inum = (s.nodeOf i).file := by
  unfold file
  rw [copy_of_holds h hi]
  rfl

theorem Consistent.full_of_holds (h : s.Consistent loose) (hi : (s.inode i).Holds inum) :
    Full s.block (s.inode i).toDinode := by
  have hlt := (h.range i hi.1).2
  rw [hi.2.2] at hlt
  have hcopy := copy_of_holds h.unique hi
  have hfull := h.full inum hlt
  rw [hcopy] at hfull
  exact hfull (h.type i inum hi).1

/-- What an inode is that is not worked on. -/
structure SameFile (s t : FileSys) (k : Nat) : Prop where
  copy : t.copy k = s.copy k
  blk : ∀ bn, blockOf t.block (t.copy k) bn = blockOf s.block (s.copy k) bn
  file : t.file k = s.file k

section Work

variable (h : s.Owned loose) (hi : (s.inode i).Holds inum)
  (ht : ((FileSys.node i).set n' s).Owned loose)
  (hother : ∀ j < s.sb.ninodes, j ≠ inum → n'.toDisk.dinode j = s.dinode j)
include h hi ht hother

/-- Work on one inode leaves the others what they are. -/
theorem copy_set_node (hk : k < s.sb.ninodes) (hne : k ≠ inum) :
    ((FileSys.node i).set n' s).copy k = s.copy k := by
  have hself : ((FileSys.node i).set n' s).inode i = { s.inode i with toDinode := n'.ip } :=
    Function.update_self _ _ _
  refine copy_other h.unique ht.unique hi.1 hi.2.2 ?_ (fun j hj => Function.update_of_ne hj _ _)
    hne (hother k hk hne)
  rw [hself]
  exact hi.2.2

/-- **And it leaves their files alone.** -/
theorem sameFile_set_node (hapart : Apart (placesOf inum) (s.tenant loose) f' (s.nodeOf i) n')
    (hk : s.InUse k) (hne : k ≠ inum) : SameFile s ((FileSys.node i).set n' s) k := by
  have hcopy := copy_set_node h hi ht hother hk.1 hne
  refine ⟨hcopy, fun bn => ?_, ?_⟩
  · rw [hcopy]
    exact blockOf_other (n := s.nodeOf i) rfl hapart hne hk bn
  · unfold FileSys.file
    rw [hcopy]
    exact congrArg (fun a => Bytes.slice a 0 _)
      (funext (content_other (n := s.nodeOf i) rfl hapart hne hk))

end Work

theorem SameFile.full (h : SameFile s t k) (hfull : Full s.block (s.copy k)) :
    Full t.block (t.copy k) := by
  intro bn hbn
  rw [h.blk]
  exact hfull bn (by rwa [h.copy] at hbn)

end FileSys

open FileSys

variable {s : FileSys} {loose : List UInt32} {i : Fin NINODE} {inum : Nat}
  {src : Nat → Option UInt8} {off m : Nat}

/-- What a write has done that has gone well. -/
structure WroteAll (s : FileSys) (loose : List UInt32) (i : Fin NINODE) (inum : Nat)
    (src : Nat → Option UInt8) (off m : Nat) (t : FileSys) : Prop where
  consistent : t.Consistent loose
  reads : (t.nodeOf i).ReadsAs (Bytes.overwrite (s.file inum) off (readable src 0 m))
  size : (t.inode i).size.toNat = max (s.inode i).size.toNat (off + m)
  others : ∀ k, s.InUse k → k ≠ inum → SameFile s t k

theorem indirectCost_le_two {n : Node} : n.indirectCost ≤ 2 := by
  unfold Node.indirectCost
  split
  · exact Nat.le_refl _
  · split <;> omega

/-- **A file is a byte array.**  In a transaction, with free blocks for what is missing,
`writei` of a source that can be read writes it all, and nothing else; or it panics, and
then the log had no room for two entries a block and three more. -/
theorem writei_writes (h : s.Consistent loose) (hi : (s.inode i).Holds inum)
    (hop : 0 < s.outstanding) (hstart : off ≤ (s.inode i).size.toNat)
    (hroom : off + m ≤ MAXFILE * BSIZE) (hsrc : ∀ j < m, (src j).isSome)
    (hfree : (s.nodeOf i).missingOf (touched off m) ≤ s.freeCount) :
    Ends (FsM.node i (writei inum src off m)) s
      (fun r t => r = m ∧ WroteAll s loose i inum src off m t)
      fun e _ => e = tooBig ∧ ¬ s.Room (2 * span off m + 3) := by
  have hheld := h.held hi
  have hfull := h.full_of_holds hi
  rw [node_iff]
  refine (hheld.writei_takes (h.range_of_holds hi)).mono ?_ ?_
  · rintro r n' (⟨-, -, href⟩ | ⟨tot, rfl, href, hw⟩)
    · have hstart' : off ≤ (s.nodeOf i).ip.size.toNat := hstart
      unfold Node.Refuses at href
      unfold MAXFILE NDIRECT NINDIRECT BSIZE at *
      omega
    · have hwrote := hw.wrote
      have hall : tot = m := hwrote.full hsrc
      subst hall
      obtain ⟨f', h', hapart⟩ := hwrote.held
      have htype : n'.ip.type = (s.inode i).type := by
        rw [hwrote.header]
        rfl
      have howned : ((FileSys.node i).set n' s).Owned loose := h.node hi h' hapart
        hwrote.dinode_other htype (congrArg Dinode.type hwrote.dinode_self)
      have hself : ((FileSys.node i).set n' s).inode i = { s.inode i with toDinode := n'.ip } :=
        Function.update_self _ _ _
      have hholds : (((FileSys.node i).set n' s).inode i).Holds inum := by
        rw [hself]
        exact hi
      have hothers : ∀ k, s.InUse k → k ≠ inum → SameFile s ((FileSys.node i).set n' s) k :=
        fun k hk hne => sameFile_set_node h.toOwned hi howned hwrote.dinode_other hapart hk hne
      have hnew : Full n'.block n'.ip := hwrote.full_of_full hfull
      refine ⟨rfl, ⟨howned, fun k hk hused => ?_⟩, ?_, ?_, hothers⟩
      · have hk' : k < s.sb.ninodes := by
          rw [← show n'.sb = s.sb from hapart.sb]
          exact hk
        by_cases hne : k = inum
        · subst hne
          rw [copy_of_holds howned.unique hholds, hself]
          exact hnew
        · have hcopy := copy_set_node h.toOwned hi howned hwrote.dinode_other hk' hne
          rw [hcopy] at hused
          exact (hothers k ⟨hk', hused⟩ hne).full (h.full k hk' hused)
      · rw [nodeOf_set, file_of_holds h.unique hi]
        refine (Full.readsAs_iff hnew ?_).mpr
          (hwrote.file_iff.mpr fun p _ hout => hwrote.kept p hout)
        rw [hwrote.overwrite_length]
        exact n'.ip.size.toNat_lt
      · rw [hself]
        exact hwrote.size
  · intro e n' hfail
    obtain ⟨he, hnot⟩ := hfail hop hfree
    refine ⟨he, fun hr => hnot (hr.mono rfl ?_)⟩
    have hcost := indirectCost_le_two (n := s.nodeOf i)
    change s.lh.length + _ ≤ s.lh.length + _
    omega

/-- What is asked of a write of `m` bytes to inode 1, in entry 0 of the table. -/
def Asks (past : Past (FileSys × List UInt32) BlockCall) (s : FileSys × List UInt32) (m : Nat) :
    Prop :=
  Machine.StepsMeet (fun past s c => c.WrittenBack past s) past ∧ (s.1.inode 0).Holds 1 ∧
    0 < s.1.outstanding ∧
    (s.1.nodeOf 0).missingOf (touched 0 m) ≤ s.1.freeCount ∧
    ∀ k < s.1.sb.ninodes, (s.1.copy k).type ≠ 0 → Full s.1.block (s.1.copy k)

instance (past : Past (FileSys × List UInt32) BlockCall) (s : FileSys × List UInt32) (m : Nat) :
    Decidable (Asks past s m) := by
  unfold Asks
  infer_instance

/-- Inode 1 is locked in a transaction. -/
def opened : List BlockCall := [.beginOp, .iget 1, .ilock 0]

theorem writei_writes_three : ∃ s t, FsM.node 0 (writei 1 (fun _ => some 7) 0 3) s = .ok 3 t ∧
    (t.nodeOf 0).ReadsAs [7, 7, 7] := by
  obtain ⟨past, s, run, ⟨hback, hi, hop, hfree, hfull⟩, hrun, hfile⟩ :=
    Machine.exists_run_of_trace smallFs_init opened
      (fun past s => Asks past s 3 ∧
        Ends (FsM.node 0 (writei 1 (fun _ => some 7) 0 3)) s.1 (fun r _ => r = 3)
          (fun _ _ => False) ∧ s.1.file 1 = []) (by decide)
  obtain ⟨r, t, hrun, rfl⟩ := hrun.exists_ok
  have hwrote := (writei_writes ⟨owned_run run hback, hfull⟩ hi hop (Nat.zero_le _)
    (by decide) (fun _ _ => rfl) hfree).ok hrun
  refine ⟨s.1, t, hrun, ?_⟩
  have hreads := hwrote.2.reads
  rw [hfile] at hreads
  exact hreads

/-- A file system as `smallFs`, with 46 data blocks, in a transaction that has logged 26 blocks. -/
def busyFs : FileSys :=
  { smallFs with
    sb := ⟨FSMAGIC, 80, 46, 3, 30, 2, 32, 33⟩
    outstanding := 1
    lh := (List.range 26).map fun k => UInt32.ofNat (50 + k) }

theorem busyFs_init : blockCalls.init (busyFs, []) := by
  refine ⟨FileSys.owned_of_bare ⟨?_, ?_, by decide, by decide⟩ (by decide)
    (by decide) fun _ => ⟨rfl, rfl⟩, rfl⟩
  · decide
  · decide

/-- **A write that is too big for a transaction.**  Three blocks, that are free, go into an
empty file, and the log has three entries left: the first of them is for the bitmap. -/
theorem writei_too_big : ∃ past s loose, Run blockCalls past (s, loose) ∧ s.Consistent loose ∧
    (s.inode 0).Holds 1 ∧ 0 < s.outstanding ∧ 3 * BSIZE ≤ MAXFILE * BSIZE ∧
    (s.nodeOf 0).missingOf (touched 0 (3 * BSIZE)) ≤ s.freeCount ∧
    ∃ t, FsM.node 0 (writei 1 (fun _ => some 7) 0 (3 * BSIZE)) s = .error tooBig t := by
  obtain ⟨past, s, run, ⟨hback, hi, hop, hfree, hfull⟩, hrun⟩ :=
    Machine.exists_run_of_trace busyFs_init [.iget 1, .ilock 0]
      (fun past s => Asks past s (3 * BSIZE) ∧
        Ends (FsM.node 0 (writei 1 (fun _ => some 7) 0 (3 * BSIZE))) s.1 (fun _ _ => False)
          fun e _ => e = tooBig) (by decide +kernel)
  refine ⟨past, s.1, s.2, run, ⟨owned_run run hback, hfull⟩, hi, hop, by decide, hfree, ?_⟩
  unfold Ends at hrun
  split at hrun
  next => exact hrun.elim
  next e t heq =>
    subst hrun
    exact ⟨t, heq⟩

end Fs
