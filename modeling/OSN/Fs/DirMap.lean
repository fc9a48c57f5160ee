import OSN.Fs.DirSlots
import OSN.Fs.PartWrites

/-!
# A directory is a finite map

`dirlookup`, `dirlink` and the part of `sys_unlink` that clears an entry are followed on one
directory, with whatever else happens between them as long as it leaves the entries of the
directory alone.
-/

namespace Fs

/-- What `sys_unlink` does to the entry at `off`. -/
def clearEntry (dp : Fin NINODE) (off : Nat) : FsM Unit := do
  let s ← get
  .node dp (writeDirent "unlink: writei" (s.inode dp).inum ⟨0, List.replicate DIRSIZ 0⟩ off)

/-- It comes first when an entry is removed. -/
theorem removeEntry_clears (dp ip : Fin NINODE) (off : Nat) : removeEntry dp ip off = do
    let s ← get
    clearEntry dp off
    if (s.inode ip).type = T_DIR then dropLink dp
    iunlockput dp
    dropLink ip
    iunlockput ip
    .disk endOp
    return 0 := by
  unfold removeEntry clearEntry
  simp only [bind_assoc]
  symm
  exact @get_get String FileSys Int fun s s' => do
    FsM.node dp (writeDirent "unlink: writei" (s'.inode dp).inum ⟨0, List.replicate DIRSIZ 0⟩ off)
    _

namespace FileSys

variable {s t u : FileSys} {i j : Fin NINODE} {dev inum : Nat} {name : CStr} {text : String}
  {p : Dirent → Bool}

/-! ### Entries of the inode table -/

/-- What `iget` has done. -/
structure Taken (s : FileSys) (dev inum : Nat) (j : Fin NINODE) (t : FileSys) : Prop where
  disk : t.toDisk = s.toDisk
  dev : (t.inode j).dev = dev
  inum : (t.inode j).inum = inum
  ref : (t.inode j).ref = (s.inode j).ref + 1
  fresh : (s.inode j).ref = 0 → (t.inode j).valid = false
  live : 0 < (s.inode j).ref → t.inode j = { s.inode j with ref := (s.inode j).ref + 1 }
  others : ∀ k, k ≠ j → t.inode k = s.inode k

/-- The inode table is full. -/
def TableFull (s : FileSys) (e : String) : Prop := e = "iget: no inodes" ∧ ∀ k, 0 < (s.inode k).ref

theorem iget_takes : Ends (iget dev inum) s (Taken s dev inum) fun e _ => TableFull s e := by
  unfold iget
  rw [Ends.get_bind_iff]
  split
  next i hcached =>
    obtain ⟨hpos, hdev, hinum⟩ := cached_some hcached
    refine ⟨rfl, ?_, ?_, ?_, fun hzero => by omega, fun _ => ?_, fun k hk => ?_⟩
    · simp [setInode, hdev]
    · simp [setInode, hinum]
    · simp [setInode]
    · simp [setInode]
    · simp [setInode, hk]
  next =>
    split
    next i hfree =>
      have hzero : (s.inode i).ref = 0 := by simpa using List.find?_some hfree
      refine ⟨rfl, ?_, ?_, ?_, fun _ => ?_, fun hpos => by omega, fun k hk => ?_⟩
      · simp [setInode]
      · simp [setInode]
      · simp [setInode, hzero]
      · simp [setInode]
      · simp [setInode, hk]
    next hnone =>
      refine ⟨rfl, fun k => ?_⟩
      have hk := List.find?_eq_none.mp hnone k (List.mem_finRange k)
      simpa [Nat.pos_iff_ne_zero] using hk

/-- Giving the new reference up again frees nothing. -/
theorem Taken.iput (h : Taken s dev inum j t) :
    Ends (iput j) t (fun _ u => u.toDisk = s.toDisk ∧ ∀ k, 0 < (s.inode k).ref →
      u.inode k = s.inode k) fun _ _ => False := by
  have hkeep : ¬ ((t.inode j).ref = 1 ∧ (t.inode j).valid ∧ (t.inode j).nlink = 0) := by
    rintro ⟨hone, hvalid, -⟩
    have href := h.ref
    rw [h.fresh (by omega)] at hvalid
    cases hvalid
  unfold Fs.iput
  rw [Ends.get_bind_iff]
  dsimp only
  rw [if_neg hkeep, Ends.modify_iff]
  refine ⟨h.disk, fun k hk => ?_⟩
  by_cases hkj : k = j
  · subst hkj
    simp [setInode, h.live hk]
  · simp [setInode, hkj, h.others k hkj]

/-! ### A directory in the table -/

/-- Entry `i` of the table is in use for a directory of whole entries. -/
structure IsDir (s : FileSys) (i : Fin NINODE) : Prop where
  live : 0 < (s.inode i).ref
  type : (s.inode i).type = T_DIR
  range : (s.inode i).inum < s.sb.ninodes
  held : ∃ f : Tenant → UInt32, Held (placesOf (s.inode i).inum) f (s.nodeOf i)
  whole : (s.nodeOf i).Whole

/-- The slots of the directory. -/
def slotsOf (s : FileSys) (i : Fin NINODE) : Slots CStr Nat := (s.nodeOf i).slots

/-- The directory has no hole. -/
def DirFull (s : FileSys) (i : Fin NINODE) : Prop := Full (s.nodeOf i).block (s.nodeOf i).ip

/-- The entries of the directory stay what they are. -/
structure Elsewhere (s : FileSys) (i : Fin NINODE) (t : FileSys) (j : Fin NINODE) : Prop where
  isDir : t.IsDir j
  slots : t.slotsOf j = s.slotsOf i

/-- What a search of the directory leaves. -/
structure Searched (s : FileSys) (i : Fin NINODE) (t : FileSys) : Prop where
  isDir : t.IsDir i
  slots : t.slotsOf i = s.slotsOf i
  byte : (t.nodeOf i).byte = (s.nodeOf i).byte
  ref : (t.inode i).ref = (s.inode i).ref
  others : ∀ k, k ≠ i → t.inode k = s.inode k
  same : s.DirFull i → t = s

theorem set_inode_self {n : Node} :
    ((FileSys.node i).set n s).inode i = { s.inode i with toDinode := n.ip } :=
  Function.update_self _ _ _

theorem set_inode_other {n : Node} (h : j ≠ i) : ((FileSys.node i).set n s).inode j = s.inode j :=
  Function.update_of_ne h _ _

/-- The directory is what the work on it has made of it. -/
theorem IsDir.set {n : Node} {f : Tenant → UInt32} (h : s.IsDir i) (hsb : n.sb = s.sb)
    (hheld : Held (placesOf (s.inode i).inum) f n) (htype : n.ip.type = (s.inode i).type)
    (hwhole : n.Whole) : ((FileSys.node i).set n s).IsDir i := by
  have hself : ((FileSys.node i).set n s).inode i = _ := set_inode_self
  refine ⟨?_, ?_, ?_, ⟨f, ?_⟩, ?_⟩
  · rw [hself]
    exact h.live
  · rw [hself]
    exact htype.trans h.type
  · rw [hself]
    change _ < n.sb.ninodes
    rw [hsb]
    exact h.range
  · rw [hself, nodeOf_set]
    exact hheld
  · rwa [nodeOf_set]

/-- The search for a name. -/
theorem IsDir.findsName (h : s.IsDir i) :
    Ends (FsM.node i (findEntry text (fun de => de.inum ≠ 0 ∧ namecmp name de.name)
        (offsets 0 (s.inode i).size.toNat))) s
      (fun r t => Searched s i t ∧ r = (s.nodeOf i).named name) fun _ _ => ¬ s.DirFull i := by
  obtain ⟨f, hheld⟩ := h.held
  rw [node_iff]
  refine hheld.findsName.mono ?_ ?_
  · rintro r n ⟨hlook, hsame, hr⟩
    obtain ⟨f', hheld', hquiet⟩ := hlook.held
    have htype : n.ip.type = (s.inode i).type := by
      rw [hlook.grown.header]
      rfl
    refine ⟨⟨h.set hquiet.sb hheld' htype (hlook.whole h.whole), ?_, ?_, ?_,
      fun k hk => set_inode_other hk, fun hfull => ?_⟩, hr⟩
    · unfold slotsOf
      rw [nodeOf_set]
      exact Node.slots_congr hlook.size hlook.byte
    · rw [nodeOf_set]
      exact hlook.byte
    · rw [set_inode_self]
    · rw [hsame hfull]
      exact node_set_self
  · rintro e n (hhole | ⟨-, htorn⟩)
    · exact hhole
    · exact absurd h.whole htorn

/-! ### `dirlookup` -/

/-- What `dirlookup` has found: an entry of the inode table for the inode of the name. -/
structure Found (s : FileSys) (i : Fin NINODE) (name : CStr) (r : Option (Fin NINODE × Nat))
    (t : FileSys) : Prop where
  elsewhere : Elsewhere s i t i
  number : r.map (fun x => (t.inode x.1).inum) = Slots.value (s.slotsOf i) (nameKey name)
  place : r.map Prod.snd = (Slots.index (s.slotsOf i) (nameKey name)).map fun j => DIRENTSIZE * j
  search : ∃ u, Searched s i u ∧ ∀ ip off, r = some (ip, off) → ∃ dev inum, Taken u dev inum ip t
  nothing : r = none → Searched s i t

theorem Taken.isDir (h : Taken s dev inum j t) (hdir : s.IsDir i) :
    Elsewhere s i t i := by
  have hdip : (t.inode i).toDinode = (s.inode i).toDinode ∧ (t.inode i).inum = (s.inode i).inum ∧
      0 < (t.inode i).ref := by
    by_cases hij : i = j
    · subst hij
      have hlive := h.live hdir.live
      rw [hlive]
      exact ⟨rfl, rfl, Nat.succ_pos _⟩
    · rw [h.others i hij]
      exact ⟨rfl, rfl, hdir.live⟩
  have hnode : t.nodeOf i = s.nodeOf i := by
    unfold nodeOf
    rw [h.disk, hdip.1]
  refine ⟨⟨hdip.2.2, ?_, ?_, ?_, ?_⟩, ?_⟩
  · rw [hdip.1]
    exact hdir.type
  · rw [hdip.2.1, h.disk]
    exact hdir.range
  · rw [hdip.2.1, hnode]
    exact hdir.held
  · rw [hnode]
    exact hdir.whole
  · unfold slotsOf
    rw [hnode]

theorem IsDir.dirlookup (h : s.IsDir i) :
    Ends (dirlookup i name) s (Found s i name)
      fun e _ => ¬ s.DirFull i ∨ TableFull s e := by
  unfold Fs.dirlookup
  rw [Ends.get_bind_iff]
  dsimp only
  rw [if_neg (not_not_intro h.type)]
  refine Ends.bind (h.findsName.mono (fun _ _ hr => hr) fun _ _ hhole => Or.inl hhole) ?_
  rintro r t ⟨ht, rfl⟩
  have hnumber : ((s.nodeOf i).named name).map (fun x => x.2.inum) =
      Slots.value (s.slotsOf i) (nameKey name) := Node.named_inum
  have hplace : ((s.nodeOf i).named name).map Prod.fst =
      (Slots.index (s.slotsOf i) (nameKey name)).map fun j => DIRENTSIZE * j := by
    unfold Node.named
    rw [Option.map_map]
    rfl
  cases hnamed : (s.nodeOf i).named name with
  | none =>
      rw [hnamed] at hnumber hplace
      exact ⟨⟨ht.isDir, ht.slots⟩, hnumber, hplace, ⟨t, ht, fun _ _ hr => by cases hr⟩, fun _ => ht⟩
  | some x =>
      rw [hnamed] at hnumber hplace
      refine Ends.bind (iget_takes.mono (fun _ _ hu => hu) fun e u hfull => ?_) ?_
      · by_cases hhole : s.DirFull i
        · rw [ht.same hhole] at hfull
          exact Or.inr hfull
        · exact Or.inl hhole
      · intro ip u hu
        have hdir := hu.isDir ht.isDir
        refine ⟨⟨hdir.isDir, hdir.slots.trans ht.slots⟩, ?_, hplace, ⟨t, ht, ?_⟩,
          fun hr => by cases hr⟩
        · rw [← hnumber, Option.map_some, Option.map_some, hu.inum]
        · rintro _ _ ⟨⟩
          exact ⟨_, _, hu⟩

/-! ### `dirlink` -/

/-- `dirlink` has changed nothing. -/
structure Refused (s : FileSys) (i : Fin NINODE) (t : FileSys) : Prop where
  elsewhere : Elsewhere s i t i
  byte : (t.nodeOf i).byte = (s.nodeOf i).byte
  others : ∀ k, k ≠ i → 0 < (s.inode k).ref → t.inode k = s.inode k
  same : s.DirFull i → t.toDisk = s.toDisk ∧ ∀ k, 0 < (s.inode k).ref → t.inode k = s.inode k

/-- One slot of the directory has changed. -/
structure SlotPut (s : FileSys) (i : Fin NINODE) (j : Nat) (x : Option (CStr × Nat))
    (t : FileSys) : Prop where
  isDir : t.IsDir i
  slots : t.slotsOf i = Slots.put (s.slotsOf i) j x
  at_slot : Slots.slot (t.slotsOf i) j = x
  others : ∀ k, k ≠ j → Slots.slot (t.slotsOf i) k = Slots.slot (s.slotsOf i) k
  inodes : ∀ k, k ≠ i → t.inode k = s.inode k

/-- The length of a directory with a new name. -/
def grownLength (l : Slots CStr Nat) : Nat := if none ∈ l then l.length else l.length + 1

/-- `dirlink` has given the name a slot, the first free one. -/
structure Added (s : FileSys) (i : Fin NINODE) (name : CStr) (inum : Nat) (t : FileSys) : Prop
    extends SlotPut s i (Slots.firstFree (s.slotsOf i)) (some (nameKey name, inum)) t where
  length : (t.slotsOf i).length = grownLength (s.slotsOf i)

/-- An entry has been written. -/
theorem IsDir.written {k : Nat} {de : Dirent} {f : Tenant → UInt32} {n : Node} (h : s.IsDir i)
    (hw : EntryWritten (placesOf (s.inode i).inum) f (s.inode i).inum k de (s.nodeOf i) n)
    (hk : k ≤ (s.slotsOf i).length) :
    SlotPut s i k de.stored.slot ((FileSys.node i).set n s) := by
  obtain ⟨f', hheld, hapart⟩ := hw.wrote.held
  have htype : n.ip.type = (s.inode i).type := by
    rw [hw.wrote.header]
    rfl
  have hslots : ((FileSys.node i).set n s).slotsOf i =
      Slots.put (s.slotsOf i) k de.stored.slot := by
    unfold slotsOf
    rw [nodeOf_set]
    exact hw.slots
  refine ⟨h.set hapart.sb hheld htype hw.whole, hslots, ?_, fun j hj => ?_,
    fun j hj => set_inode_other hj⟩
  · rw [hslots, Slots.slot_put hk, if_pos rfl]
  · rw [hslots, Slots.slot_put hk, if_neg hj]

/-- Whether a place for an entry is missing. -/
def NoPlace (s : FileSys) (i : Fin NINODE) (text : String) (k : Nat) (e : String) : Prop :=
  (s.nodeOf i).NoPlace text k e

theorem set_set {n n' : Node} : (FileSys.node i).set n' ((FileSys.node i).set n s) =
    (FileSys.node i).set n' s := by
  simp [FileSys.node]

/-- The new entry that `dirlink` writes. -/
theorem IsDir.added {f f₁ : Tenant → UInt32} {n₁ n : Node} (h : s.IsDir i) (hpos : 0 < inum)
    (hlt : inum < 2 ^ 16) (hlook : Looked (placesOf (s.inode i).inum) f (s.nodeOf i) n₁)
    (hw : EntryWritten (placesOf (s.inode i).inum) f₁ (s.inode i).inum
      (Slots.firstFree (s.slotsOf i)) ⟨inum, strncpy DIRSIZ name⟩ n₁ n) :
    Added s i name inum ((FileSys.node i).set n s) := by
  obtain ⟨f', hheld, hquiet⟩ := hlook.held
  have htype : n₁.ip.type = (s.inode i).type := by
    rw [hlook.grown.header]
    rfl
  have hdir : ((FileSys.node i).set n₁ s).IsDir i :=
    h.set hquiet.sb hheld htype (hlook.whole h.whole)
  have hslots : ((FileSys.node i).set n₁ s).slotsOf i = s.slotsOf i := by
    unfold slotsOf
    rw [nodeOf_set]
    exact Node.slots_congr hlook.size hlook.byte
  have hinum : (((FileSys.node i).set n₁ s).inode i).inum = (s.inode i).inum := by
    rw [set_inode_self]
  have hstored : (Dirent.stored ⟨inum, strncpy DIRSIZ name⟩).slot =
      some (nameKey name, inum) := by
    unfold Dirent.stored Dirent.slot
    rw [Nat.mod_eq_of_lt hlt, if_neg (Nat.ne_of_gt hpos), nameKey_strncpy]
  have hput : SlotPut ((FileSys.node i).set n₁ s) i (Slots.firstFree (s.slotsOf i))
      (Dirent.stored ⟨inum, strncpy DIRSIZ name⟩).slot
      ((FileSys.node i).set n ((FileSys.node i).set n₁ s)) := by
    refine hdir.written (f := f₁) ?_ ?_
    · rw [hinum, nodeOf_set]
      exact hw
    · rw [hslots]
      exact Slots.firstFree_le
  obtain ⟨hdir', hslots', hat, hothers, hinodes⟩ := hput
  rw [set_set, hslots, hstored] at hslots'
  rw [set_set, hstored] at hat
  rw [set_set] at hdir'
  refine ⟨⟨hdir', hslots', hat, fun k hk => ?_, fun k hk => set_inode_other hk⟩, ?_⟩
  · have hslot := hothers k hk
    rwa [set_set, hslots] at hslot
  · rw [hslots', Slots.length_put Slots.firstFree_le]
    have hle : Slots.firstFree (s.slotsOf i) ≤ (s.slotsOf i).length := Slots.firstFree_le
    unfold grownLength
    split
    next hfree =>
      have hlt := Slots.firstFree_lt_iff.mpr hfree
      omega
    next hnone =>
      have hge := mt Slots.firstFree_lt_iff.mp hnone
      omega

theorem Added.searched (h : Added t i name inum u) (ht : Searched s i t) :
    Added s i name inum u := by
  obtain ⟨⟨hdir, hslots, hat, hothers, hinodes⟩, hlength⟩ := h
  rw [ht.slots] at hslots hat hothers hlength
  exact ⟨⟨hdir, hslots, hat, hothers, fun k hk => (hinodes k hk).trans (ht.others k hk)⟩, hlength⟩

/-- **`dirlink`** refuses a name that is there, or gives it the first free slot. -/
theorem IsDir.dirlink (h : s.IsDir i) (hpos : 0 < inum) (hlt : inum < 2 ^ 16) :
    Ends (dirlink i name inum) s
      (fun r t => r = -1 ∧ Slots.value (s.slotsOf i) (nameKey name) ≠ none ∧ Refused s i t ∨
        r = 0 ∧ Slots.value (s.slotsOf i) (nameKey name) = none ∧ Added s i name inum t)
      fun e _ => ¬ s.DirFull i ∨ TableFull s e ∨
        s.NoPlace i "dirlink" (Slots.firstFree (s.slotsOf i)) e := by
  unfold Fs.dirlink
  refine Ends.bind (h.dirlookup.mono (fun _ _ hr => hr) fun e t hfail => ?_) ?_
  · exact hfail.imp_right Or.inl
  · rintro r t hfound
    have hnumber := hfound.number
    cases r with
    | some x =>
        obtain ⟨u, hu, htaken⟩ := hfound.search
        obtain ⟨dev, inum, htaken⟩ := htaken x.1 x.2 rfl
        refine Ends.bind (htaken.iput.mono (fun _ _ hv => hv) fun _ _ hf => hf.elim) ?_
        rintro - v ⟨hdisk, hinodes⟩
        have hi := hinodes i hu.isDir.live
        have hnode : v.nodeOf i = u.nodeOf i := by
          unfold nodeOf
          rw [hdisk, hi]
        refine Or.inl ⟨rfl, ?_, ⟨⟨?_, ?_⟩, ?_, fun k hk hlive => ?_, fun hfull => ?_⟩⟩
        · rw [← hnumber]
          nofun
        · obtain ⟨hlive, htype, hrange, hheld, hwhole⟩ := hu.isDir
          refine ⟨?_, ?_, ?_, ?_, ?_⟩
          · rwa [hi]
          · rwa [hi]
          · rwa [hi, hdisk]
          · rwa [hi, hnode]
          · rwa [hnode]
        · unfold slotsOf
          rw [hnode]
          exact hu.slots
        · rw [hnode]
          exact hu.byte
        · have hsame := hu.others k hk
          rw [← hsame] at hlive
          exact (hinodes k hlive).trans hsame
        · rw [hu.same hfull] at hdisk hinodes
          exact ⟨hdisk, hinodes⟩
    | none =>
        have ht := hfound.nothing rfl
        obtain ⟨f, hheld⟩ := ht.isDir.held
        dsimp only
        rw [Ends.get_bind_iff, Ends.bind_iff, node_iff]
        refine (hheld.addEntry ht.isDir.range ht.isDir.whole).mono ?_ ?_
        · rintro - n ⟨f₁, n₁, hlook, hquiet, hw⟩
          have hadded := ht.isDir.added hpos hlt hlook hw
          exact Or.inr ⟨rfl, hnumber.symm, hadded.searched ht⟩
        · intro e n hfail
          by_cases hfull : s.DirFull i
          · rw [ht.same hfull] at hfail
            exact hfail.imp_right Or.inr
          · exact Or.inl hfull

/-! ### Clearing an entry -/

/-- **An entry that is cleared** is a free slot. -/
theorem IsDir.clearEntry {k : Nat} (h : s.IsDir i) (hk : k < (s.slotsOf i).length) :
    Ends (clearEntry i (DIRENTSIZE * k)) s (fun _ t => SlotPut s i k none t)
      fun e _ => s.NoPlace i "unlink: writei" k e := by
  obtain ⟨f, hheld⟩ := h.held
  have hle : k ≤ (s.nodeOf i).entries := by
    rw [← Node.slots_length]
    exact Nat.le_of_lt hk
  unfold Fs.clearEntry
  rw [Ends.get_bind_iff, node_iff]
  exact (hheld.writeDirent h.range List.length_replicate h.whole hle).post fun _ n hw =>
    h.written hw (Nat.le_of_lt hk)

end FileSys

/-! ### Runs -/

open FileSys

/-- What changes the entries of a directory. -/
inductive DirCall
  | dirlink (name : CStr) (inum : Nat)
  | clear (name : CStr)

/-- The inode that was last linked under a name, the newest call first. -/
def lastLinked (m : CStr → Option Nat) : List DirCall → CStr → Option Nat
  | [] => m
  | .dirlink name inum :: past =>
      if lastLinked m past (nameKey name) = none then
        Function.update (lastLinked m past) (nameKey name) (some inum)
      else lastLinked m past
  | .clear name :: past => Function.update (lastLinked m past) (nameKey name) none

/-- The directory in entry `i` of the table in state `s` has gone through the calls `past`,
and is now in entry `j` in state `t`.  It may be unlocked between the calls and leave the
table, as long as its entries stay what they are. -/
inductive DirRun (s : FileSys) (i : Fin NINODE) : List DirCall → FileSys → Fin NINODE → Prop
  | start : DirRun s i [] s i
  | dirlookup {past : List DirCall} {t u : FileSys} {j : Fin NINODE} {name : CStr}
      {r : Option (Fin NINODE × Nat)} (run : DirRun s i past t j)
      (h : dirlookup j name t = .ok r u) : DirRun s i past u j
  | dirlink {past : List DirCall} {t u : FileSys} {j : Fin NINODE} {name : CStr} {inum : Nat}
      {r : Int} (run : DirRun s i past t j) (hpos : 0 < inum) (hlt : inum < 2 ^ 16)
      (h : dirlink j name inum t = .ok r u) : DirRun s i (.dirlink name inum :: past) u j
  | clear {past : List DirCall} {t u v w : FileSys} {j : Fin NINODE} {name : CStr}
      {ip : Fin NINODE} {off : Nat} (run : DirRun s i past t j)
      (hfound : Fs.dirlookup j name t = .ok (some (ip, off)) u) (hmeanwhile : Elsewhere u j v j)
      (h : clearEntry j off v = .ok () w) : DirRun s i (.clear name :: past) w j
  | elsewhere {past : List DirCall} {t u : FileSys} {j k : Fin NINODE} (run : DirRun s i past t j)
      (h : Elsewhere t j u k) : DirRun s i past u k

/-- The directory is a map with the names linked in it. -/
structure MapsTo (m : CStr → Option Nat) (t : FileSys) (j : Fin NINODE) : Prop where
  isDir : t.IsDir j
  unique : Slots.Unique (t.slotsOf j)
  value : Slots.value (t.slotsOf j) = m

namespace MapsTo

variable {m : CStr → Option Nat} {t u v : FileSys} {j k : Fin NINODE} {name : CStr} {inum : Nat}
  {r : Int}

theorem elsewhere (h : MapsTo m t j) (hu : Elsewhere t j u k) : MapsTo m u k :=
  ⟨hu.isDir, by rw [hu.slots]; exact h.unique, by rw [hu.slots]; exact h.value⟩

/-- **`dirlink`** adds a name that is new. -/
theorem dirlink (h : MapsTo m t j) (hpos : 0 < inum) (hlt : inum < 2 ^ 16)
    (hu : dirlink j name inum t = .ok r u) :
    MapsTo (if m (nameKey name) = none then Function.update m (nameKey name) (some inum) else m)
      u j := by
  rcases (h.isDir.dirlink hpos hlt).ok hu with ⟨-, hthere, href⟩ | ⟨-, hnew, hadded⟩
  · rw [h.value] at hthere
    rw [if_neg hthere]
    exact h.elsewhere href.elsewhere
  · have hfill := h.unique.value_fill (v := inum) Slots.firstFree_le Slots.slot_firstFree hnew
    have hunique := h.unique.fill (v := inum) Slots.firstFree_le hnew
    rw [← hadded.slots] at hfill hunique
    rw [h.value] at hnew hfill
    rw [if_pos hnew]
    exact ⟨hadded.isDir, hunique, hfill⟩

/-- **Clearing the entry** that `dirlookup` has found removes the name. -/
theorem clear {ip : Fin NINODE} {off : Nat} {w : FileSys} (h : MapsTo m t j)
    (hfound : dirlookup j name t = .ok (some (ip, off)) u) (hmeanwhile : Elsewhere u j v j)
    (hw : clearEntry j off v = .ok () w) :
    MapsTo (Function.update m (nameKey name) none) w j := by
  have hlook := h.isDir.dirlookup.ok hfound
  have hv := (h.elsewhere hlook.elsewhere).elsewhere hmeanwhile
  have hslots : v.slotsOf j = t.slotsOf j := hmeanwhile.slots.trans hlook.elsewhere.slots
  obtain ⟨n, hindex, hoff⟩ := Option.map_eq_some_iff.mp hlook.place.symm
  have hoff' : DIRENTSIZE * n = off := hoff
  obtain ⟨inum, hslot⟩ := Slots.index_spec hindex
  rw [← hslots] at hslot
  rw [← hoff'] at hw
  have hput := (hv.isDir.clearEntry (Slots.lt_of_slot hslot)).ok hw
  refine ⟨hput.isDir, ?_, ?_⟩
  · rw [hput.slots]
    exact hv.unique.clear (Nat.le_of_lt (Slots.lt_of_slot hslot))
  · rw [hput.slots, hv.unique.value_clear hslot, hv.value]

end MapsTo

variable {s t : FileSys} {i j : Fin NINODE} {past : List DirCall}

/-- **The invariant of the runs.** -/
theorem DirRun.mapsTo {m : CStr → Option Nat} (run : DirRun s i past t j) (h : MapsTo m s i) :
    MapsTo (lastLinked m past) t j := by
  induction run with
  | start => exact h
  | dirlookup run hr ih => exact ih.elsewhere (ih.isDir.dirlookup.ok hr).elsewhere
  | dirlink run hpos hlt hr ih =>
      unfold lastLinked
      exact ih.dirlink hpos hlt hr
  | clear run hfound hmeanwhile hr ih => exact ih.clear hfound hmeanwhile hr
  | elsewhere run hr ih => exact ih.elsewhere hr

/-- **A directory is a finite map** from what counts of a name to an inode.  `dirlookup`
returns the inode last linked; `dirlink` refuses a name that is there, and puts one that is
new into the first free slot; a cleared entry is a free slot, and the others stay.  They
stop only where the inode table is full, where there is no place for the entry, or where the
directory has a hole that reading would have to fill. -/
theorem dirRun_lastLinked (h : s.IsDir i) (hunique : Slots.Unique (s.slotsOf i))
    (run : DirRun s i past t j) :
    Slots.Unique (t.slotsOf j) ∧
    (∀ name, Ends (dirlookup j name) t
      (fun r u => r.map (fun x => (u.inode x.1).inum) =
        lastLinked (Slots.value (s.slotsOf i)) past (nameKey name) ∧ Elsewhere t j u j)
      fun e _ => ¬ t.DirFull j ∨ TableFull t e) ∧
    (∀ name inum, 0 < inum → inum < 2 ^ 16 → Ends (dirlink j name inum) t
      (fun r u =>
        (r = -1 ∧ lastLinked (Slots.value (s.slotsOf i)) past (nameKey name) ≠ none ∧
          Refused t j u) ∨
        (r = 0 ∧ lastLinked (Slots.value (s.slotsOf i)) past (nameKey name) = none ∧
          Added t j name inum u))
      fun e _ => ¬ t.DirFull j ∨ TableFull t e ∨
        t.NoPlace j "dirlink" (Slots.firstFree (t.slotsOf j)) e) ∧
    ∀ k < (t.slotsOf j).length, Ends (clearEntry j (DIRENTSIZE * k)) t
      (fun _ u => SlotPut t j k none u) fun e _ => t.NoPlace j "unlink: writei" k e := by
  obtain ⟨hdir, hunique', hvalue⟩ := run.mapsTo ⟨h, hunique, rfl⟩
  rw [← hvalue]
  refine ⟨hunique', fun name => ?_, fun name inum hpos hlt => hdir.dirlink hpos hlt,
    fun k hk => hdir.clearEntry hk⟩
  exact hdir.dirlookup.post fun r u hfound => ⟨hfound.number, hfound.elsewhere⟩

/-- `smallFs` in a transaction, with an empty directory in its inode table. -/
def dirFs : FileSys :=
  { smallFs with
    outstanding := 1
    inode := Function.update smallFs.inode 0
      { Dinode.zero with
        type := T_DIR, nlink := 1, dev := ROOTDEV, inum := 2, ref := 1, locked := true,
        valid := true } }

theorem dirFs_isDir : dirFs.IsDir 0 := by
  have howned : ({ smallFs with outstanding := 1 } : FileSys).Owned [] := by
    refine FileSys.owned_of_bare ⟨?_, ?_, by decide, by decide⟩ (by decide)
      (by decide) fun _ => ⟨rfl, rfl⟩
    · decide
    · decide
  have hfree : (smallFs.dinode 2).type = 0 := by decide
  exact ⟨by decide, by decide, by decide, ⟨_, howned.held_bare hfree fun _ => rfl⟩, by decide⟩

/-- `123456789012345`, a byte too long. -/
def fifteen : CStr := [49, 50, 51, 52, 53, 54, 55, 56, 57, 48, 49, 50, 51, 52, 53]

theorem dirRun_lastLinked_fifteen : ∃ t, dirlink 0 fifteen 5 dirFs = .ok 0 t ∧
    Ends (dirlookup 0 (fifteen.take DIRSIZ)) t
      (fun r u => r.map (fun x => (u.inode x.1).inum) = some 5)
      fun e _ => ¬ t.DirFull 0 ∨ TableFull t e := by
  have hlink : Ends (dirlink 0 fifteen 5) dirFs (fun r _ => r = 0) (fun _ _ => False) := by
    decide
  obtain ⟨r, t, ht, rfl⟩ := hlink.exists_ok
  have hempty : dirFs.slotsOf 0 = [] := rfl
  have hunique : Slots.Unique (dirFs.slotsOf 0) := by
    rw [hempty]
    nofun
  have hmap := dirRun_lastLinked dirFs_isDir hunique
    (.dirlink .start (by decide) (by decide) ht)
  refine ⟨t, ht, (hmap.2.1 (fifteen.take DIRSIZ)).post fun r u hr => hr.1.trans ?_⟩
  rw [hempty]
  decide

end Fs
