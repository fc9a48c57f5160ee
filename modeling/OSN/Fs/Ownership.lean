import OSN.Fs.Contents
import OSN.Lib.Run

/-!
# One owner for each data block

The inodes of the file system are the tenants of its data blocks, and so are the blocks
that a `balloc` has returned to a caller who has not put them anywhere (`loose`).  The
inode that counts is the copy in the table, if there is a valid one: `bmap` gives blocks
to the copy, and only `iupdate` writes them to the disk.
-/

namespace Fs

/-! ### The inode that counts -/

/-- Entry `i` of the table has the inode `inum`. -/
def Inode.Holds (ip : Inode) (inum : Nat) : Prop := 0 < ip.ref ∧ ip.valid = true ∧ ip.inum = inum

instance (ip : Inode) (inum : Nat) : Decidable (ip.Holds inum) := by
  unfold Inode.Holds
  infer_instance

namespace FileSys

/-- The copy of an inode in the table, or else the one on disk. -/
def copy (s : FileSys) (inum : Nat) : Dinode :=
  match (List.finRange NINODE).find? fun i => (s.inode i).Holds inum with
  | some i => (s.inode i).toDinode
  | none => s.dinode inum

/-- No inode has two entries in use. -/
def Unique (s : FileSys) : Prop :=
  ∀ i j, 0 < (s.inode i).ref → 0 < (s.inode j).ref → (s.inode i).inum = (s.inode j).inum → i = j

variable {s t : FileSys} {i j : Fin NINODE} {inum : Nat}

theorem copy_of_holds (h : s.Unique) (hi : (s.inode i).Holds inum) :
    s.copy inum = (s.inode i).toDinode := by
  unfold copy
  split
  next j hfound =>
    have hj : (s.inode j).Holds inum := by simpa using List.find?_some hfound
    rw [h j i hj.1 hi.1 (hj.2.2.trans hi.2.2.symm)]
  next hnone =>
    have hno := List.find?_eq_none.mp hnone i (List.mem_finRange i)
    exact absurd (decide_eq_true hi) hno

theorem copy_of_none (h : ∀ i, ¬ (s.inode i).Holds inum) : s.copy inum = s.dinode inum := by
  unfold copy
  split
  next j hfound =>
    have hj : (s.inode j).Holds inum := by simpa using List.find?_some hfound
    exact absurd hj (h j)
  next => rfl

/-- The copy is the same where the table and the disk are. -/
theorem copy_congr (hs : s.Unique) (ht : t.Unique)
    (htable : ∀ i, (t.inode i).Holds inum ↔ (s.inode i).Holds inum)
    (hsame : ∀ i, (s.inode i).Holds inum → (t.inode i).toDinode = (s.inode i).toDinode)
    (hdisk : t.dinode inum = s.dinode inum) : t.copy inum = s.copy inum := by
  by_cases hheld : ∃ i, (s.inode i).Holds inum
  · obtain ⟨i, hi⟩ := hheld
    rw [copy_of_holds hs hi, copy_of_holds ht ((htable i).mpr hi), hsame i hi]
  · have hno : ∀ i, ¬ (s.inode i).Holds inum := fun i hi => hheld ⟨i, hi⟩
    rw [copy_of_none hno, copy_of_none fun i hi => hno i ((htable i).mp hi), hdisk]

end FileSys

/-! ### The tenants -/

/-- The places of all inodes, and the blocks in a caller's hand. -/
abbrev Tenant := (Nat × Place) ⊕ Nat

/-- The places of one inode. -/
def placesOf (inum : Nat) (pl : Place) : Tenant := .inl (inum, pl)

theorem placesOf_inj (inum : Nat) : Function.Injective (placesOf inum) :=
  fun _ _ h => (Prod.mk.inj (Sum.inl.inj h)).2

namespace FileSys

/-- The block of a tenant.  An inode that is free has none. -/
def tenant (s : FileSys) (loose : List UInt32) : Tenant → UInt32
  | .inl (inum, pl) =>
      if inum < s.sb.ninodes ∧ (s.copy inum).type ≠ 0 then addrOf s.block (s.copy inum) pl else 0
  | .inr k => loose.getD k 0

/-- The inode table is in order: its entries in use are of different inodes, what is
locked is valid, and what is valid is not free. -/
structure Table (s : FileSys) : Prop where
  unique : s.Unique
  range : ∀ i, 0 < (s.inode i).ref → (s.inode i).dev = ROOTDEV ∧ (s.inode i).inum < s.sb.ninodes
  type : ∀ i inum, (s.inode i).Holds inum →
    (s.inode i).type ≠ 0 ∧ (s.inode i).type = (s.dinode inum).type
  locked : ∀ i, (s.inode i).locked = true → 0 < (s.inode i).ref ∧ (s.inode i).valid = true

/-- **Each data block has one owner** or is free. -/
structure Owned (loose : List UInt32) (s : FileSys) : Prop extends Table s where
  sound : s.toDisk.Sound
  tenancy : Tenancy s.sb.IsData s.toDisk.Used (s.tenant loose)

variable {s t : FileSys} {i j : Fin NINODE} {inum : Nat} {loose : List UInt32}

/-- The disk with an entry of the table. -/
def nodeOf (s : FileSys) (i : Fin NINODE) : Node := ⟨s.toDisk, (s.inode i).toDinode⟩

theorem node_set_self : (node i).set (s.nodeOf i) s = s := by
  unfold node nodeOf
  dsimp only
  rw [Function.update_eq_self]

theorem tenant_of_holds (h : s.Table) (hi : (s.inode i).Holds inum) (pl : Place) :
    s.tenant loose (placesOf inum pl) = (s.nodeOf i).addr pl := by
  have hrange := (h.range i hi.1).2
  rw [hi.2.2] at hrange
  have hcopy := copy_of_holds h.unique hi
  unfold placesOf tenant
  dsimp only
  rw [hcopy, if_pos ⟨hrange, (h.type i inum hi).1⟩]
  rfl

theorem Owned.held (h : Owned loose s) (hi : (s.inode i).Holds inum) :
    Held (placesOf inum) (s.tenant loose) (s.nodeOf i) :=
  ⟨h.sound, h.tenancy, placesOf_inj inum, tenant_of_holds h.toTable hi⟩

/-- An inode that is not in the table. -/
theorem Owned.held_dinode (h : Owned loose s) (hnone : ∀ i, ¬ (s.inode i).Holds inum)
    (hinum : inum < s.sb.ninodes) (htype : (s.dinode inum).type ≠ 0) :
    Held (placesOf inum) (s.tenant loose) ⟨s.toDisk, s.dinode inum⟩ := by
  refine ⟨h.sound, h.tenancy, placesOf_inj inum, fun pl => ?_⟩
  have hcopy := copy_of_none hnone
  unfold placesOf tenant
  dsimp only
  rw [hcopy, if_pos ⟨hinum, htype⟩]
  rfl

/-- The blocks are the same, and so are the inodes that count. -/
theorem Owned.congr (h : Owned loose s) (ht : t.Table) (hdisk : s.toDisk.SameBlocks t.toDisk)
    (hcopy : ∀ inum < s.sb.ninodes, t.copy inum = s.copy inum) : Owned loose t := by
  have hsb : t.sb = s.sb := hdisk.sb
  have hdata : t.sb.IsData = s.sb.IsData := by rw [hsb]
  refine ⟨ht, ⟨hsb ▸ h.sound.layout, ?_⟩, ?_⟩
  · intro b hb
    rw [hsb] at hb
    rw [hdisk.isFree]
    exact h.sound.reserved b hb
  · rw [hdata]
    refine h.tenancy.congr (fun x => ?_) fun b _ => ?_
    · cases x with
      | inl x =>
          unfold tenant
          dsimp only
          rw [hsb]
          by_cases hlt : x.1 < s.sb.ninodes
          · rw [hcopy x.1 hlt, hdisk.block]
          · rw [if_neg fun hboth => hlt hboth.1, if_neg fun hboth => hlt hboth.1]
      | inr k => rfl
    · unfold Disk.Used
      rw [hdisk.isFree]

variable {f' : Tenant → UInt32} {n n' : Node} {j' : Nat}

theorem placesOf_foreign (hj : j' ≠ inum) (pl pl' : Place) : placesOf inum pl ≠ .inl (j', pl') :=
  fun heq => hj (Prod.mk.inj (Sum.inl.inj heq)).1.symm

/-- The places of another inode have the blocks that they had. -/
theorem addrOf_other (hn : n.toDisk = s.toDisk)
    (hapart : Apart (placesOf inum) (s.tenant loose) f' n n') (hj : j' ≠ inum)
    (hused : j' < s.sb.ninodes ∧ (s.copy j').type ≠ 0) (pl : Place) :
    addrOf n'.block (s.copy j') pl = addrOf s.block (s.copy j') pl := by
  cases pl with
  | inl k => rfl
  | inr k =>
      simp only [addrOf]
      split
      · rfl
      next hind =>
        -- the indirect block is a block of the other inode
        have hown : s.tenant loose (.inl (j', .inl indirect)) = (s.copy j').addrs indirect :=
          if_pos hused
        have hblock := hapart.block _ (fun pl' => placesOf_foreign hj pl' (.inl indirect))
          (hown ▸ hind)
        rw [hown, hn] at hblock
        rw [hblock]

theorem blockOf_other (hn : n.toDisk = s.toDisk)
    (hapart : Apart (placesOf inum) (s.tenant loose) f' n n') (hj : j' ≠ inum)
    (hused : j' < s.sb.ninodes ∧ (s.copy j').type ≠ 0) (bn : Nat) :
    blockOf n'.block (s.copy j') bn = blockOf s.block (s.copy j') bn := by
  unfold blockOf
  rw [addrOf_other hn hapart hj hused]

/-- **Another file** holds what it held. -/
theorem content_other (hn : n.toDisk = s.toDisk)
    (hapart : Apart (placesOf inum) (s.tenant loose) f' n n') (hj : j' ≠ inum)
    (hused : j' < s.sb.ninodes ∧ (s.copy j').type ≠ 0) (p : Nat) :
    content n'.block (s.copy j') p = content s.block (s.copy j') p := by
  unfold content
  rw [blockOf_other hn hapart hj hused]
  split
  · rfl
  next hne =>
    have hlt : p / BSIZE < MAXFILE := by
      by_contra hlt
      exact hne (if_neg hlt)
    have hown : s.tenant loose (.inl (j', filePlace (p / BSIZE))) =
        blockOf s.block (s.copy j') (p / BSIZE) := (if_pos hused).trans (if_pos hlt).symm
    have hblock := hapart.block _ (fun pl' => placesOf_foreign hj pl' _) (hown ▸ hne)
    rw [hown, hn] at hblock
    rw [hblock]

/-- **Work on one inode** leaves the others what is theirs. -/
theorem owned_of_work (hn : n.toDisk = s.toDisk)
    (hheld : Held (placesOf inum) f' n') (hapart : Apart (placesOf inum) (s.tenant loose) f' n n')
    (ht : t.Table) (hdisk : t.toDisk = n'.toDisk)
    (hcopy : ∀ j < s.sb.ninodes, j ≠ inum → t.copy j = s.copy j)
    (hself : ∀ pl, t.tenant loose (placesOf inum pl) = n'.addr pl) : Owned loose t := by
  have hsb : t.sb = s.sb := by rw [hdisk, hapart.sb, hn]
  have htenant : ∀ x, t.tenant loose x = f' x := by
    intro x
    cases x with
    | inr k => exact (hapart.others (.inr k) fun pl heq => by cases heq).symm
    | inl x =>
        obtain ⟨j, pl⟩ := x
        by_cases hj : j = inum
        · subst hj
          exact (hself pl).trans (hheld.own_eq pl).symm
        · rw [hapart.others _ fun pl' => placesOf_foreign hj pl' pl]
          unfold tenant
          dsimp only
          rw [hsb]
          by_cases hused : j < s.sb.ninodes ∧ (s.copy j).type ≠ 0
          · rw [hcopy j hused.1 hj, if_pos hused, if_pos hused,
              show t.block = n'.block from congrArg Disk.block hdisk,
              addrOf_other hn hapart hj hused]
          · by_cases hlt : j < s.sb.ninodes
            · rw [hcopy j hlt hj, if_neg hused, if_neg hused]
            · rw [if_neg fun hboth => hlt hboth.1, if_neg hused]
  refine ⟨ht, hdisk ▸ hheld.sound, ?_⟩
  have htenancy := hheld.tenancy
  rw [← hdisk] at htenancy
  exact htenancy.congr htenant fun _ _ => Iff.rfl

/-- The other inodes are what they were when one entry of the table has changed. -/
theorem copy_other (hs : s.Unique) (ht : t.Unique) (hi : 0 < (s.inode i).ref)
    (hinum : (s.inode i).inum = inum) (hnum : (t.inode i).inum = inum)
    (hentries : ∀ j, j ≠ i → t.inode j = s.inode j) {k : Nat} (hk : k ≠ inum)
    (hdinode : t.dinode k = s.dinode k) : t.copy k = s.copy k := by
  refine copy_congr hs ht ?_ ?_ hdinode
  · intro j
    by_cases hj : j = i
    · subst hj
      exact iff_of_false (fun hholds => hk (hholds.2.2.symm.trans hnum))
        fun hholds => hk (hholds.2.2.symm.trans hinum)
    · rw [hentries j hj]
  · intro j hholds
    have hj : j ≠ i := by
      rintro rfl
      exact hk (hholds.2.2.symm.trans hinum)
    rw [hentries j hj]

/-- **Work on an entry of the table.** -/
theorem Owned.node (h : Owned loose s) (hi : (s.inode i).Holds inum)
    (hheld : Held (placesOf inum) f' n')
    (hapart : Apart (placesOf inum) (s.tenant loose) f' (s.nodeOf i) n')
    (hother : ∀ j < s.sb.ninodes, j ≠ inum → n'.toDisk.dinode j = s.dinode j)
    (htype : n'.ip.type = (s.inode i).type)
    (hsync : (n'.toDisk.dinode inum).type = n'.ip.type) :
    Owned loose ((FileSys.node i).set n' s) := by
  have hentry : ∀ j, j ≠ i → ((FileSys.node i).set n' s).inode j = s.inode j :=
    fun j hj => Function.update_of_ne hj _ _
  have hself : ((FileSys.node i).set n' s).inode i = { s.inode i with toDinode := n'.ip } :=
    Function.update_self _ _ _
  have hkeys : ∀ j, (((FileSys.node i).set n' s).inode j).ref = (s.inode j).ref ∧
      (((FileSys.node i).set n' s).inode j).dev = (s.inode j).dev ∧
      (((FileSys.node i).set n' s).inode j).inum = (s.inode j).inum ∧
      (((FileSys.node i).set n' s).inode j).valid = (s.inode j).valid ∧
      (((FileSys.node i).set n' s).inode j).locked = (s.inode j).locked := by
    intro j
    by_cases hj : j = i
    · subst hj
      rw [hself]
      exact ⟨rfl, rfl, rfl, rfl, rfl⟩
    · rw [hentry j hj]
      exact ⟨rfl, rfl, rfl, rfl, rfl⟩
  have hsb : n'.sb = s.sb := hapart.sb
  have htable : ((FileSys.node i).set n' s).Table := by
    refine ⟨?_, ?_, ?_, ?_⟩
    · intro j k
      rw [(hkeys j).1, (hkeys k).1, (hkeys j).2.2.1, (hkeys k).2.2.1]
      exact h.unique j k
    · intro j
      rw [(hkeys j).1, (hkeys j).2.1, (hkeys j).2.2.1]
      change 0 < _ → _ ∧ _ < n'.sb.ninodes
      rw [hsb]
      exact h.range j
    · intro j k hholds
      by_cases hj : j = i
      · subst hj
        have hk : inum = k := by
          rw [hself] at hholds
          exact hi.2.2.symm.trans hholds.2.2
        subst hk
        rw [hself]
        dsimp only
        rw [htype]
        exact ⟨(h.type j inum hi).1, (hsync.trans htype).symm⟩
      · rw [hentry j hj] at hholds ⊢
        have hk : k ≠ inum := by
          rintro rfl
          exact hj (h.unique j i hholds.1 hi.1 (hholds.2.2.trans hi.2.2.symm))
        have hrange := (h.range j hholds.1).2
        rw [hholds.2.2] at hrange
        have hold := h.type j k hholds
        rw [show ((FileSys.node i).set n' s).dinode k = s.dinode k from hother k hrange hk]
        exact hold
    · intro j
      rw [(hkeys j).1, (hkeys j).2.2.2.1, (hkeys j).2.2.2.2]
      exact h.locked j
  refine owned_of_work (n := s.nodeOf i) rfl hheld hapart htable rfl ?_ ?_
  · intro j hj hne
    exact copy_other h.unique htable.unique hi.1 hi.2.2 ((hkeys i).2.2.1.trans hi.2.2) hentry hne
      (hother j hj hne)
  · intro pl
    have hholds : (((FileSys.node i).set n' s).inode i).Holds inum := by
      rw [hself]
      exact hi
    rw [tenant_of_holds htable hholds, nodeOf, hself]
    rfl

/-! ### The functions on an inode -/

theorem node_iff {α : Type} {x : NodeM α} {Q : α → FileSys → Prop} {E : String → FileSys → Prop} :
    Ends (FsM.node i x) s Q E ↔ Ends x (s.nodeOf i) (fun a n' => Q a ((FileSys.node i).set n' s))
      fun e n' => E e ((FileSys.node i).set n' s) :=
  Ends.component_iff

theorem disk_iff {α : Type} {x : DiskM α} {Q : α → FileSys → Prop} {E : String → FileSys → Prop} :
    Ends (FsM.disk x) s Q E ↔ Ends x s.toDisk (fun a d => Q a { s with toDisk := d })
      fun e d => E e { s with toDisk := d } :=
  Ends.component_iff

theorem Owned.bmap (h : Owned loose s) (hi : (s.inode i).Holds inum) (bn : Nat) :
    Ends (FsM.node i (bmap bn)) s (fun _ t => Owned loose t) NoFreeing := by
  rw [node_iff]
  refine ((h.held hi).bmap bn).post fun b n' hn' => ?_
  obtain ⟨-, ⟨f', h', hquiet⟩, hgrown, -, -⟩ := hn'
  have hrange := (h.range i hi.1).2
  rw [hi.2.2] at hrange
  have htype : n'.ip.type = (s.inode i).type := by
    rw [hgrown.header]
    rfl
  refine h.node hi h' hquiet.toApart (fun j hj _ => hquiet.dinode h.sound.layout hj) htype ?_
  rw [hquiet.dinode h.sound.layout hrange, htype]
  exact (h.type i inum hi).2.symm

theorem Owned.range_of_holds (h : Owned loose s) (hi : (s.inode i).Holds inum) :
    inum < (s.nodeOf i).sb.ninodes := by
  have hrange := (h.range i hi.1).2
  rwa [hi.2.2] at hrange

theorem Owned.writei (h : Owned loose s) (hi : (s.inode i).Holds inum)
    {src : Nat → Option UInt8} {off m : Nat} :
    Ends (FsM.node i (writei inum src off m)) s (fun _ t => Owned loose t) NoFreeing := by
  rw [node_iff]
  refine ((h.held hi).writei (h.range_of_holds hi)).post fun r n' hn' => ?_
  obtain ⟨-, rfl⟩ | ⟨tot, -, hw⟩ := hn'
  · refine h.node hi (h.held hi) Apart.refl (fun _ _ _ => rfl) rfl ?_
    exact (h.type i inum hi).2.symm
  · obtain ⟨f', h', hapart⟩ := hw.held
    have htype : n'.ip.type = (s.inode i).type := by
      rw [hw.header]
      rfl
    exact h.node hi h' hapart hw.dinode_other htype (congrArg Dinode.type hw.dinode_self)

theorem Owned.itrunc (h : Owned loose s) (hi : (s.inode i).Holds inum) :
    Ends (FsM.node i (itrunc inum)) s (fun _ t => Owned loose t) NoFreeing := by
  rw [node_iff]
  refine ((h.held hi).itrunc (h.range_of_holds hi)).post fun _ n' ht => ?_
  obtain ⟨f', h', hapart⟩ := ht.held
  have htype : n'.ip.type = (s.inode i).type := by
    rw [ht.header]
    rfl
  exact h.node hi h' hapart ht.dinode_other htype (congrArg Dinode.type ht.dinode_self)

theorem Owned.iupdate (h : Owned loose s) (hi : (s.inode i).Holds inum) :
    Ends (FsM.node i (iupdate inum)) s (fun _ t => Owned loose t) NoFreeing := by
  have hinum := h.range_of_holds hi
  rw [node_iff]
  refine iupdate_updates.post fun _ n' hu => ?_
  exact h.node hi (hu.held (h.held hi) hinum) (hu.apart (h.held hi) hinum)
    (fun j hj hne => hu.dinode_other h.sound.layout hinum hj hne) (congrArg Dinode.type hu.ip)
    (congrArg Dinode.type hu.dinode_self)

/-! ### The table -/

/-- An entry of the table changes. -/
theorem Table.setInode (h : s.Table) {ip : Inode}
    (hunique : 0 < ip.ref → ∀ j, j ≠ i → 0 < (s.inode j).ref → (s.inode j).inum ≠ ip.inum)
    (hrange : 0 < ip.ref → ip.dev = ROOTDEV ∧ ip.inum < s.sb.ninodes)
    (htype : ∀ k, ip.Holds k → ip.type ≠ 0 ∧ ip.type = (s.dinode k).type)
    (hlocked : ip.locked = true → 0 < ip.ref ∧ ip.valid = true) : (s.setInode i ip).Table := by
  have hself : (s.setInode i ip).inode i = ip := Function.update_self _ _ _
  have hentry : ∀ j, j ≠ i → (s.setInode i ip).inode j = s.inode j :=
    fun j hj => Function.update_of_ne hj _ _
  refine ⟨?_, ?_, ?_, ?_⟩
  · intro j k hj hk hinum
    by_cases hji : j = i
    · by_cases hki : k = i
      · rw [hji, hki]
      · rw [hji, hself] at hj hinum
        rw [hentry k hki] at hk hinum
        exact absurd hinum.symm (hunique hj k hki hk)
    · rw [hentry j hji] at hj hinum
      by_cases hki : k = i
      · rw [hki, hself] at hk hinum
        exact absurd hinum (hunique hk j hji hj)
      · rw [hentry k hki] at hk hinum
        exact h.unique j k hj hk hinum
  · intro j hj
    by_cases hji : j = i
    · rw [hji, hself] at hj ⊢
      exact hrange hj
    · rw [hentry j hji] at hj ⊢
      exact h.range j hj
  · intro j k hholds
    by_cases hji : j = i
    · rw [hji, hself] at hholds ⊢
      exact htype k hholds
    · rw [hentry j hji] at hholds ⊢
      exact h.type j k hholds
  · intro j hj
    by_cases hji : j = i
    · rw [hji, hself] at hj ⊢
      exact hlocked hj
    · rw [hentry j hji] at hj ⊢
      exact h.locked j hj

/-- An entry of the table changes, and the inodes that count do not. -/
theorem Owned.setInode (h : Owned loose s) {ip : Inode} (ht : (s.setInode i ip).Table)
    (hcopy : ∀ k, ip.Holds k ∨ (s.inode i).Holds k → (s.setInode i ip).copy k = s.copy k) :
    Owned loose (s.setInode i ip) := by
  refine h.congr ht ⟨rfl, rfl⟩ fun k _ => ?_
  by_cases hchange : ip.Holds k ∨ (s.inode i).Holds k
  · exact hcopy k hchange
  · have hself : (s.setInode i ip).inode i = ip := Function.update_self _ _ _
    have hentry : ∀ j, j ≠ i → (s.setInode i ip).inode j = s.inode j :=
      fun j hj => Function.update_of_ne hj _ _
    refine copy_congr h.unique ht.unique ?_ ?_ rfl
    · intro j
      by_cases hji : j = i
      · rw [hji, hself]
        exact iff_of_false (fun hk => hchange (Or.inl hk)) fun hk => hchange (Or.inr hk)
      · rw [hentry j hji]
    · intro j hk
      have hji : j ≠ i := by
        rintro rfl
        exact hchange (Or.inr hk)
      rw [hentry j hji]

/-- An entry in use changes in its lock or its references only. -/
theorem Owned.setKeys (h : Owned loose s) {ip : Inode} (hi : 0 < (s.inode i).ref)
    (href : 0 < ip.ref) (hdinode : ip.toDinode = (s.inode i).toDinode)
    (hdev : ip.dev = (s.inode i).dev) (hinum : ip.inum = (s.inode i).inum)
    (hvalid : ip.valid = (s.inode i).valid) (hlocked : ip.locked = true → ip.valid = true) :
    Owned loose (s.setInode i ip) := by
  have hholds : ∀ k, ip.Holds k ↔ (s.inode i).Holds k := by
    intro k
    unfold Inode.Holds
    rw [hvalid, hinum]
    exact ⟨fun hk => ⟨hi, hk.2⟩, fun hk => ⟨href, hk.2⟩⟩
  have ht : (s.setInode i ip).Table := by
    refine h.toTable.setInode ?_ ?_ ?_ fun hl => ⟨href, hlocked hl⟩
    · intro _ j hj hjref hjinum
      exact hj (h.unique j i hjref hi (hjinum.trans hinum))
    · intro _
      rw [hdev, hinum]
      exact h.range i hi
    · intro k hk
      rw [show ip.type = (s.inode i).type from congrArg Dinode.type hdinode]
      exact h.type i k ((hholds k).mp hk)
  refine h.setInode ht fun k hk => ?_
  have hk' : (s.inode i).Holds k := hk.elim (hholds k).mp id
  have hself : (s.setInode i ip).inode i = ip := Function.update_self _ _ _
  rw [copy_of_holds h.unique hk', copy_of_holds ht.unique (i := i) (by
    rw [hself]
    exact (hholds k).mpr hk'), hself, hdinode]

theorem Owned.idup (h : Owned loose s) (hi : 0 < (s.inode i).ref) :
    Ends (idup i) s (fun _ t => Owned loose t) NoFreeing :=
  h.setKeys hi (Nat.succ_pos _) rfl rfl rfl rfl fun hl => (h.locked i hl).2

theorem found_cached {dev : Nat} (h : s.cached dev inum = some i) :
    0 < (s.inode i).ref ∧ (s.inode i).dev = dev ∧ (s.inode i).inum = inum := by
  simpa using List.find?_some h

/-- An entry that is not in use is taken for an inode that has none. -/
theorem Owned.recycle (h : Owned loose s) (hfree : (s.inode i).ref = 0) {ip : Inode}
    (hnone : ∀ j, 0 < (s.inode j).ref → (s.inode j).inum ≠ ip.inum) (hdev : ip.dev = ROOTDEV)
    (hrange : ip.inum < s.sb.ninodes) (hvalid : ip.valid = false)
    (hlocked : ip.locked = (s.inode i).locked) : Owned loose (s.setInode i ip) := by
  have hunlocked : ¬ ip.locked = true := by
    intro hl
    have hpos := (h.locked i (hlocked ▸ hl)).1
    omega
  have hnot : ∀ k, ¬ ip.Holds k := by
    intro k hk
    have hkvalid := hk.2.1
    rw [hvalid] at hkvalid
    cases hkvalid
  refine h.setInode (h.toTable.setInode (fun _ j _ => hnone j) (fun _ => ⟨hdev, hrange⟩)
    (fun k hk => absurd hk (hnot k)) fun hl => absurd hl hunlocked) fun k hk => ?_
  rcases hk with hk | hk
  · exact absurd hk (hnot k)
  · exact absurd hk.1 (by omega)

theorem Owned.iget (h : Owned loose s) (hinum : inum < s.sb.ninodes) :
    Ends (iget ROOTDEV inum) s (fun _ t => Owned loose t) NoFreeing := by
  unfold Fs.iget
  rw [Ends.get_bind_iff]
  split
  next i hcached =>
    exact h.setKeys (found_cached hcached).1 (Nat.succ_pos _) rfl rfl rfl rfl
      fun hl => (h.locked i hl).2
  next hcached =>
    split
    next i hfree =>
      have href : (s.inode i).ref = 0 := by simpa using List.find?_some hfree
      refine h.recycle href ?_ rfl hinum rfl rfl
      intro j hj hjinum
      have hno := List.find?_eq_none.mp hcached j (List.mem_finRange j)
      exact hno (by simpa using ⟨hj, (h.range j hj).1, hjinum⟩)
    next => exact (by decide : "iget: no inodes" ≠ freeingFree)

theorem Owned.ilock (h : Owned loose s) :
    Ends (ilock i) s (fun _ t => Owned loose t) NoFreeing := by
  unfold Fs.ilock
  rw [Ends.get_bind_iff]
  dsimp only
  split
  · exact (by decide : "ilock" ≠ freeingFree)
  next href =>
    have hpos : 0 < (s.inode i).ref := by omega
    split
    · exact (by decide : "sleeps on the inode" ≠ freeingFree)
    · split
      next hvalid => exact h.setKeys hpos hpos rfl rfl rfl rfl fun _ => hvalid
      next hinvalid =>
        rw [Ends.set_bind_iff]
        split
        · exact (by decide : "ilock: no type" ≠ freeingFree)
        next htype =>
          have hnone : ∀ k, ¬ (s.inode i).Holds k := fun k hk => hinvalid hk.2.1
          have ht : (s.setInode i { s.inode i with
              locked := true, valid := true, toDinode := s.dinode (s.inode i).inum }).Table :=
            h.toTable.setInode
              (fun _ j hj hjref hjinum => hj (h.unique j i hjref hpos hjinum))
              (fun _ => h.range i hpos)
              (by
                rintro k ⟨-, -, rfl⟩
                exact ⟨htype, rfl⟩)
              fun _ => ⟨hpos, rfl⟩
          refine h.setInode ht fun k hk => ?_
          rcases hk with hk | hk
          · obtain ⟨-, -, rfl⟩ := hk
            have hself := Function.update_self i { s.inode i with
              locked := true, valid := true, toDinode := s.dinode (s.inode i).inum } s.inode
            rw [copy_of_holds ht.unique (i := i) (by
              change (Function.update s.inode i _ i).Holds _
              rw [hself]
              exact ⟨hpos, rfl, rfl⟩)]
            change (Function.update s.inode i _ i).toDinode = _
            rw [hself, copy_of_none]
            intro j hj
            obtain rfl := h.unique j i hj.1 hpos hj.2.2
            exact hinvalid hj.2.1
          · exact absurd hk (hnone k)

theorem Owned.iunlock (h : Owned loose s) :
    Ends (iunlock i) s (fun _ t => Owned loose t) NoFreeing := by
  unfold Fs.iunlock
  rw [Ends.get_bind_iff]
  dsimp only
  split
  · exact (by decide : "iunlock" ≠ freeingFree)
  next hguard =>
    have hpos : 0 < (s.inode i).ref := by
      by_contra hzero
      exact hguard (Or.inr (by omega))
    exact h.setKeys hpos hpos rfl rfl rfl rfl fun hl => by cases hl

/-! ### Giving up references -/

/-- **A reference is given up.**  The last one to a valid copy may be if the copy has
been written back. -/
theorem Owned.unref (h : Owned loose s) (href : 0 < (s.inode i).ref)
    (hlocked : (s.inode i).locked = true → 1 < (s.inode i).ref)
    (hback : (s.inode i).ref = 1 → (s.inode i).valid = true →
      s.dinode (s.inode i).inum = (s.inode i).toDinode) :
    Owned loose (s.setInode i { s.inode i with ref := (s.inode i).ref - 1 }) := by
  by_cases hmore : 1 < (s.inode i).ref
  · exact h.setKeys href (Nat.sub_pos_of_lt hmore) rfl rfl rfl rfl fun hl => (h.locked i hl).2
  · have hone : (s.inode i).ref = 1 := by omega
    have hgone : ∀ k, ¬ ({ s.inode i with ref := (s.inode i).ref - 1 } : Inode).Holds k := by
      intro k hk
      have hpos := hk.1
      dsimp only at hpos
      omega
    have ht : (s.setInode i { s.inode i with ref := (s.inode i).ref - 1 }).Table := by
      refine h.toTable.setInode ?_ ?_ (fun k hk => absurd hk (hgone k)) fun hl =>
        absurd (hlocked hl) hmore
      · intro hpos
        dsimp only at hpos
        omega
      · intro hpos
        dsimp only at hpos
        omega
    refine h.setInode ht fun k hk => ?_
    rcases hk with hk | hk
    · exact absurd hk (hgone k)
    · have hnone : ∀ j, ¬ ((s.setInode i { s.inode i with ref := (s.inode i).ref - 1 }).inode
          j).Holds k := by
        intro j hj
        by_cases hji : j = i
        · subst hji
          have hself := Function.update_self j { s.inode j with ref := (s.inode j).ref - 1 } s.inode
          change (Function.update s.inode j _ j).Holds k at hj
          rw [hself] at hj
          exact hgone k hj
        · change (Function.update s.inode i _ j).Holds k at hj
          rw [Function.update_of_ne hji] at hj
          exact hji (h.unique j i hj.1 hk.1 (hj.2.2.trans hk.2.2.symm))
      rw [copy_of_none hnone, copy_of_holds h.unique hk, ← hback hone hk.2.1, hk.2.2]
      rfl

/-- Other dinodes are on the disk, but not of the inodes in the table. -/
theorem Table.setDisk (h : s.Table) {d : Disk} (hsb : d.sb = s.sb)
    (hdinode : ∀ j k, (s.inode j).Holds k → (d.dinode k).type = (s.dinode k).type) :
    ({ s with toDisk := d } : FileSys).Table := by
  refine ⟨h.unique, ?_, ?_, h.locked⟩
  · intro j hj
    change _ ∧ _ < d.sb.ninodes
    rw [hsb]
    exact h.range j hj
  · intro j k hk
    obtain ⟨htype, hsync⟩ := h.type j k hk
    exact ⟨htype, hsync.trans (hdinode j k hk).symm⟩

/-- An inode without blocks is free, and its copy is not valid any more. -/
theorem Owned.freed (h : Owned loose s) (hi : (s.inode i).Holds inum) {ip : Inode}
    (hheld : Held (placesOf inum) f' n')
    (hapart : Apart (placesOf inum) (s.tenant loose) f' (s.nodeOf i) n')
    (haddr : ∀ pl, n'.addr pl = 0) (htype : (n'.toDisk.dinode inum).type = 0)
    (hother : ∀ j < s.sb.ninodes, j ≠ inum → n'.toDisk.dinode j = s.dinode j)
    (hvalid : ip.valid = false) (hlocked : ip.locked = false) (hdev : ip.dev = (s.inode i).dev)
    (hinum : ip.inum = (s.inode i).inum) :
    Owned loose ({ s.setInode i ip with toDisk := n'.toDisk } : FileSys) := by
  have hgone : ∀ k, ¬ ip.Holds k := by
    intro k hk
    have hkvalid := hk.2.1
    rw [hvalid] at hkvalid
    cases hkvalid
  have hunlocked : ¬ ip.locked = true := by simp [hlocked]
  have hself : (s.setInode i ip).inode i = ip := Function.update_self _ _ _
  have hentry : ∀ j, j ≠ i → (s.setInode i ip).inode j = s.inode j :=
    fun j hj => Function.update_of_ne hj _ _
  have ht₀ : (s.setInode i ip).Table := by
    refine h.toTable.setInode ?_ ?_ (fun k hk => absurd hk (hgone k)) fun hl => absurd hl hunlocked
    · intro _ j hj hjref hjinum
      exact hj (h.unique j i hjref hi.1 (hjinum.trans hinum))
    · intro _
      rw [hdev, hinum]
      exact h.range i hi.1
  have ht : ({ s.setInode i ip with toDisk := n'.toDisk } : FileSys).Table := by
    refine ht₀.setDisk hapart.sb fun j k hk => ?_
    have hji : j ≠ i := by
      rintro rfl
      rw [hself] at hk
      exact hgone k hk
    rw [hentry j hji] at hk
    have hki : k ≠ inum := by
      rintro rfl
      exact hji (h.unique j i hk.1 hi.1 (hk.2.2.trans hi.2.2.symm))
    have hrange := (h.range j hk.1).2
    rw [hk.2.2] at hrange
    exact congrArg Dinode.type (hother k hrange hki)
  refine owned_of_work (n := s.nodeOf i) rfl hheld hapart ht rfl ?_ ?_
  · intro j hj hne
    exact copy_other h.unique ht.unique hi.1 hi.2.2
      ((congrArg Inode.inum hself).trans (hinum.trans hi.2.2)) hentry hne (hother j hj hne)
  · intro pl
    have hnone : ∀ j, ¬ ((s.setInode i ip).inode j).Holds inum := by
      intro j hj
      by_cases hji : j = i
      · rw [hji, hself] at hj
        exact hgone inum hj
      · rw [hentry j hji] at hj
        exact hji (h.unique j i hj.1 hi.1 (hj.2.2.trans hi.2.2.symm))
    have hcopy : ({ s.setInode i ip with toDisk := n'.toDisk } : FileSys).copy inum =
        n'.toDisk.dinode inum := copy_of_none hnone
    rw [haddr]
    refine if_neg fun hboth => hboth.2 ?_
    rw [hcopy]
    exact htype

/-- **The part of `iput` that frees an inode.** -/
theorem Owned.ifree (h : Owned loose s) (hi : (s.inode i).Holds inum) :
    Ends (ifree i) s (fun _ t => Owned loose t ∧ (t.inode i).ref = (s.inode i).ref ∧
      (t.inode i).valid = false ∧ (t.inode i).locked = false) NoFreeing := by
  unfold Fs.ifree
  rw [Ends.get_bind_iff]
  dsimp only
  split
  · exact (by decide : "sleeps on the inode" ≠ freeingFree)
  next hunlocked =>
    rw [hi.2.2, Ends.bind_iff, node_iff]
    refine ((h.held hi).clear (h.range_of_holds hi)).post fun _ n' hc => ?_
    obtain ⟨f', h', hapart⟩ := hc.held
    rw [Ends.modify_iff]
    have hstate : ((FileSys.node i).set n' s).setInode i
          { ((FileSys.node i).set n' s).inode i with valid := false } =
        { s.setInode i { s.inode i with toDinode := n'.ip, valid := false } with
          toDisk := n'.toDisk } := by
      simp [FileSys.node, FileSys.setInode]
    have hself : ({ s.setInode i { s.inode i with toDinode := n'.ip, valid := false } with
        toDisk := n'.toDisk } : FileSys).inode i =
          { s.inode i with toDinode := n'.ip, valid := false } := Function.update_self _ _ _
    have hfalse : (s.inode i).locked = false := Bool.eq_false_iff.mpr hunlocked
    rw [hstate, hself]
    refine ⟨h.freed hi h' hapart hc.addr ?_ hc.dinode_other rfl hfalse rfl rfl, rfl, rfl, hfalse⟩
    rw [hc.dinode_self, hc.header]

/-- **`iput`** frees the blocks of the inode, or leaves them to the dinode on disk. -/
theorem Owned.iput (h : Owned loose s) (href : 0 < (s.inode i).ref)
    (hlocked : (s.inode i).locked = true → 1 < (s.inode i).ref)
    (hback : (s.inode i).ref = 1 → (s.inode i).valid = true → (s.inode i).nlink ≠ 0 →
      s.dinode (s.inode i).inum = (s.inode i).toDinode) :
    Ends (iput i) s (fun _ t => Owned loose t) NoFreeing := by
  unfold Fs.iput
  rw [Ends.get_bind_iff]
  dsimp only
  split
  next hfree =>
    obtain ⟨hone, hvalid, hnlink⟩ := hfree
    refine (h.ifree ⟨href, hvalid, rfl⟩).bind fun _ t ht => ?_
    obtain ⟨hown, hsame, hinvalid, hunlocked⟩ := ht
    rw [Ends.modify_iff]
    refine hown.unref (hsame ▸ href) (fun hl => ?_) fun _ hv => ?_
    · rw [hunlocked] at hl
      cases hl
    · rw [hinvalid] at hv
      cases hv
  next hkeep =>
    rw [Ends.modify_iff]
    exact h.unref href hlocked fun hone hvalid =>
      hback hone hvalid fun hnlink => hkeep ⟨hone, hvalid, hnlink⟩

/-! ### New inodes and new blocks -/

theorem Owned.none_of_free (h : Owned loose s) (hfree : (s.dinode inum).type = 0) (i : Fin NINODE) :
    ¬ (s.inode i).Holds inum := by
  intro hi
  obtain ⟨htype, hsync⟩ := h.type i inum hi
  exact htype (hsync.trans hfree)

/-- A dinode without blocks in the place of a free one, as if it were in the table. -/
theorem Owned.held_bare (h : Owned loose s) (hfree : (s.dinode inum).type = 0) {dip : Dinode}
    (hbare : ∀ k, dip.addrs k = 0) :
    Held (placesOf inum) (s.tenant loose) ⟨s.toDisk, dip⟩ := by
  refine ⟨h.sound, h.tenancy, placesOf_inj inum, fun pl => ?_⟩
  have hzero : (⟨s.toDisk, dip⟩ : Node).addr pl = 0 := by
    cases pl with
    | inl k => exact hbare k
    | inr j => exact if_pos (hbare indirect)
  rw [hzero]
  refine if_neg fun hboth => hboth.2 ?_
  rw [copy_of_none (h.none_of_free hfree), hfree]

/-- **A dinode without blocks** takes the place of a free one. -/
theorem Owned.newInode (h : Owned loose s) {dip : Dinode} {d : Disk}
    (hinum : inum < s.sb.ninodes) (hfree : (s.dinode inum).type = 0)
    (hbare : ∀ k, dip.addrs k = 0) (hu : Updated inum ⟨s.toDisk, dip⟩ ⟨d, dip⟩) :
    Owned loose ({ s with toDisk := d } : FileSys) := by
  have hnone := h.none_of_free hfree
  have hheld := h.held_bare hfree hbare
  have hother : ∀ j < s.sb.ninodes, j ≠ inum → d.dinode j = s.dinode j :=
    fun j hj hne => hu.dinode_other h.sound.layout hinum hj hne
  have hself : d.dinode inum = dip := hu.dinode_self
  have ht : ({ s with toDisk := d } : FileSys).Table := by
    refine h.toTable.setDisk hu.sb fun j k hk => ?_
    have hrange := (h.range j hk.1).2
    rw [hk.2.2] at hrange
    have hne : k ≠ inum := by
      rintro rfl
      exact hnone j hk
    exact congrArg Dinode.type (hother k hrange hne)
  refine owned_of_work (n := ⟨s.toDisk, dip⟩) rfl (hu.held hheld hinum) (hu.apart hheld hinum)
    ht rfl ?_ ?_
  · intro j hj hne
    exact copy_congr h.unique ht.unique (fun _ => Iff.rfl) (fun _ _ => rfl) (hother j hj hne)
  · intro pl
    have hcopy : ({ s with toDisk := d } : FileSys).copy inum = dip :=
      (copy_of_none (s := { s with toDisk := d }) hnone).trans hself
    unfold placesOf tenant
    dsimp only
    rw [hcopy]
    split
    · rfl
    · cases pl with
      | inl k => exact (hbare k).symm
      | inr j => exact (if_pos (hbare indirect)).symm

/-- **`ialloc`** makes an inode without blocks. -/
theorem Owned.ialloc (h : Owned loose s) {type : UInt16} :
    Ends (ialloc ROOTDEV type) s (fun _ t => Owned loose t) NoFreeing := by
  unfold Fs.ialloc
  rw [Ends.get_bind_iff]
  split
  next inum hfound =>
    have hfree : (s.dinode inum).type = 0 := by simpa using List.find?_some hfound
    have hinum : inum < s.sb.ninodes := by
      have hmem := List.mem_of_find?_eq_some hfound
      rw [List.mem_range'_1] at hmem
      omega
    dsimp only
    rw [Ends.bind_iff, disk_iff]
    unfold store
    rw [Ends.modify_iff, Ends.bind_iff, disk_iff]
    refine logWrite_same.post fun _ d hd => ?_
    have hu : Updated inum ⟨s.toDisk, { Dinode.zero with type }⟩ ⟨d, { Dinode.zero with type }⟩ :=
      ⟨hd.sb, rfl, hd.block⟩
    refine (h.newInode hinum hfree (fun _ => rfl) hu).iget ?_
    change inum < d.sb.ninodes
    rw [hd.sb]
    exact hinum
  next => exact (by decide : "ialloc: no inodes" ≠ freeingFree)

/-- **`balloc`** puts a block into the caller's hand. -/
theorem Owned.balloc (h : Owned loose s) :
    Ends (FsM.disk balloc) s (fun b t => Owned (loose ++ [b]) t) NoFreeing := by
  rw [disk_iff]
  refine (balloc_allocates h.sound).post fun b d hd => ?_
  have hb : b ≠ 0 := h.tenancy.ne_zero hd.data
  have hempty : s.tenant loose (.inr loose.length) = 0 := by
    unfold tenant
    exact List.getD_eq_default _ _ (Nat.le_refl _)
  have htenancy := Tenancy.allocated h.tenancy hd hempty
  have hdinode : ∀ k < s.sb.ninodes, d.dinode k = s.dinode k := by
    intro k hk
    have hlt := h.sound.layout.IBLOCK_lt hk
    have hne : s.sb.IBLOCK k ≠ b := h.sound.layout.IBLOCK_ne hk hd.data
    unfold Disk.dinode
    rw [hd.sb, hd.block _ hne (Or.inl hlt)]
  have ht : ({ s with toDisk := d } : FileSys).Table := by
    refine h.toTable.setDisk hd.sb fun j k hk => ?_
    have hrange := (h.range j hk.1).2
    rw [hk.2.2] at hrange
    exact congrArg Dinode.type (hdinode k hrange)
  refine ⟨ht, h.sound.allocated hd, htenancy.congr ?_ fun _ _ => Iff.rfl⟩
  intro x
  cases x with
  | inr k =>
      by_cases hk : k = loose.length
      · subst hk
        simp [tenant]
      · have hne : (Sum.inr k : Tenant) ≠ .inr loose.length := fun heq => hk (Sum.inr.inj heq)
        rw [Function.update_of_ne hne]
        unfold tenant
        dsimp only
        by_cases hlt : k < loose.length
        · rw [List.getD_append _ _ _ _ hlt]
        · rw [List.getD_eq_default, List.getD_eq_default]
          · omega
          · rw [List.length_append, List.length_singleton]
            omega
  | inl x =>
      rw [Function.update_of_ne (by simp)]
      unfold tenant
      dsimp only
      rw [hd.sb]
      by_cases hlt : x.1 < s.sb.ninodes
      · have hcopy : ({ s with toDisk := d } : FileSys).copy x.1 = s.copy x.1 :=
          copy_congr h.unique ht.unique (fun _ => Iff.rfl) (fun _ _ => rfl) (hdinode x.1 hlt)
        rw [hcopy]
        by_cases hused : x.1 < s.sb.ninodes ∧ (s.copy x.1).type ≠ 0
        · rw [if_pos hused, if_pos hused]
          obtain ⟨k, pl⟩ := x
          cases pl with
          | inl j => rfl
          | inr j =>
              simp only [addrOf]
              split
              · rfl
              next hind =>
                have hown : s.tenant loose (.inl (k, .inl indirect)) = (s.copy k).addrs indirect :=
                  if_pos hused
                have hne : (s.copy k).addrs indirect ≠ b := by
                  rw [← hown]
                  exact h.tenancy.vacant hd.data hd.free _
                have hdata := h.tenancy.inRoom (i := .inl (k, .inl indirect)) (hown ▸ hind)
                rw [hown] at hdata
                rw [hd.block _ hne hdata.offBitmap]
        · rw [if_neg hused, if_neg hused]
      · rw [if_neg fun hboth => hlt hboth.1, if_neg fun hboth => hlt hboth.1]

/-- Code that only changes the log. -/
theorem Owned.sameBlocks {α : Type} {x : DiskM α} (h : Owned loose s)
    (hx : Ends x s.toDisk (fun _ d => s.toDisk.SameBlocks d) NoFreeing) :
    Ends (FsM.disk x) s (fun _ t => Owned loose t) NoFreeing := by
  rw [disk_iff]
  refine hx.post fun _ d hd => ?_
  have hdinode : ∀ k, d.dinode k = s.dinode k := by
    intro k
    unfold Disk.dinode
    rw [hd.sb, hd.block]
  have ht : ({ s with toDisk := d } : FileSys).Table :=
    h.toTable.setDisk hd.sb fun _ k _ => congrArg Dinode.type (hdinode k)
  exact h.congr ht hd fun k _ =>
    copy_congr h.unique ht.unique (fun _ => Iff.rfl) (fun _ _ => rfl) (hdinode k)

theorem beginOp_same {d : Disk} : Ends beginOp d (fun _ t => d.SameBlocks t) NoFreeing := by
  unfold beginOp
  rw [Ends.get_bind_iff]
  split
  · exact (by decide : "sleeps on the log" ≠ freeingFree)
  · exact ⟨rfl, rfl⟩

theorem endOp_same {d : Disk} : Ends endOp d (fun _ t => d.SameBlocks t) NoFreeing := by
  unfold endOp
  rw [Ends.modify_iff]
  split <;> exact ⟨rfl, rfl⟩

end FileSys

/-! ### Runs -/

/-- A call of a function that changes blocks or the table, with its arguments. -/
inductive BlockCall where
  | beginOp
  | endOp
  | balloc
  | bmap (i : Fin NINODE) (bn : Nat)
  | writei (i : Fin NINODE) (src : Nat → Option UInt8) (off n : Nat)
  | itrunc (i : Fin NINODE)
  | iupdate (i : Fin NINODE)
  | ialloc (type : UInt16)
  | iget (inum : Nat)
  | idup (i : Fin NINODE)
  | ilock (i : Fin NINODE)
  | iunlock (i : Fin NINODE)
  | iput (i : Fin NINODE)

namespace BlockCall

/-- What the callers of these functions see to: an inode is locked while it is worked on,
and who gives up a reference has one and has unlocked the inode. -/
def Allowed (s : FileSys) : BlockCall → Prop
  | .bmap i _ | .writei i _ _ _ | .itrunc i | .iupdate i => (s.inode i).locked = true
  | .iget inum => inum < s.sb.ninodes
  | .idup i => 0 < (s.inode i).ref
  | .iput i => 0 < (s.inode i).ref ∧ ((s.inode i).locked = true → 1 < (s.inode i).ref)
  | _ => True

instance (s : FileSys) (c : BlockCall) : Decidable (c.Allowed s) := by
  unfold Allowed
  split <;> infer_instance

/-- The call; it returns the block that it puts into the caller's hand. -/
def run : BlockCall → FsM (Option UInt32)
  | .beginOp => do
      .disk Fs.beginOp
      return none
  | .endOp => do
      .disk Fs.endOp
      return none
  | .balloc => do
      let b ← .disk Fs.balloc
      return some b
  | .bmap i bn => do
      let _ ← .node i (Fs.bmap bn)
      return none
  | .writei i src off n => do
      let s ← get
      let _ ← .node i (Fs.writei (s.inode i).inum src off n)
      return none
  | .itrunc i => do
      let s ← get
      .node i (Fs.itrunc (s.inode i).inum)
      return none
  | .iupdate i => do
      let s ← get
      .node i (Fs.iupdate (s.inode i).inum)
      return none
  | .ialloc type => do
      let _ ← Fs.ialloc ROOTDEV type
      return none
  | .iget inum => do
      let _ ← Fs.iget ROOTDEV inum
      return none
  | .idup i => do
      let _ ← Fs.idup i
      return none
  | .ilock i => do
      Fs.ilock i
      return none
  | .iunlock i => do
      Fs.iunlock i
      return none
  | .iput i => do
      Fs.iput i
      return none

/-- **`iupdate` comes before the last `iput`**: the dinode of an inode that keeps its links
is what its copy is when the copy loses its last reference. -/
def WrittenBack (_ : Past (FileSys × List UInt32) BlockCall) (s : FileSys × List UInt32) :
    BlockCall → Prop
  | .iput i => (s.1.inode i).ref = 1 → (s.1.inode i).valid = true → (s.1.inode i).nlink ≠ 0 →
      s.1.dinode (s.1.inode i).inum = (s.1.inode i).toDinode
  | _ => True

end BlockCall

/-- The calls one after the other, with the blocks in the caller's hand. -/
def blockCalls : Machine (FileSys × List UInt32) BlockCall where
  init := fun s => s.1.Owned [] ∧ s.2 = []
  step := fun s c =>
    if c.Allowed s.1 then
      match c.run s.1 with
      | .ok b t => some (t, s.2 ++ b.toList)
      | .error _ _ => none
    else none

namespace FileSys

variable {s : FileSys} {loose : List UInt32}

/-- **One call** keeps the owners apart, and frees no free block. -/
theorem Owned.call {past : Past (FileSys × List UInt32) BlockCall} (h : s.Owned loose)
    (c : BlockCall) (hc : c.Allowed s) (hback : c.WrittenBack past (s, loose)) :
    Ends (c.run) s (fun b t => t.Owned (loose ++ b.toList)) NoFreeing := by
  have hheld : ∀ i, (s.inode i).locked = true → (s.inode i).Holds (s.inode i).inum :=
    fun i hl => ⟨(h.locked i hl).1, (h.locked i hl).2, rfl⟩
  have hsame : ∀ {α : Type} {x : FsM α}, Ends x s (fun _ t => t.Owned loose) NoFreeing →
      Ends (x >>= fun _ => pure none) s (fun b t => t.Owned (loose ++ b.toList)) NoFreeing := by
    intro α x hx
    refine hx.bind fun _ t ht => ?_
    rw [Ends.pure_iff, Option.toList_none, List.append_nil]
    exact ht
  cases c with
  | beginOp => exact hsame (h.sameBlocks beginOp_same)
  | endOp => exact hsame (h.sameBlocks endOp_same)
  | balloc => exact h.balloc.bind fun b t ht => ht
  | bmap i bn => exact hsame (h.bmap (hheld i hc) bn)
  | writei i src off n => exact Ends.get_bind_iff.mpr (hsame (h.writei (hheld i hc)))
  | itrunc i => exact Ends.get_bind_iff.mpr (hsame (h.itrunc (hheld i hc)))
  | iupdate i => exact Ends.get_bind_iff.mpr (hsame (h.iupdate (hheld i hc)))
  | ialloc type => exact hsame h.ialloc
  | iget inum => exact hsame (h.iget hc)
  | idup i => exact hsame (h.idup hc)
  | ilock i => exact hsame h.ilock
  | iunlock i => exact hsame h.iunlock
  | iput i => exact hsame (h.iput hc.1 hc.2 hback)

/-- **A run of calls.** -/
theorem owned_run {past : Past (FileSys × List UInt32) BlockCall} {s : FileSys × List UInt32}
    (run : Run blockCalls past s) (hback : Machine.StepsMeet
      (fun past s c => c.WrittenBack past s) past) : s.1.Owned s.2 := by
  refine run.invariant_of_meet (P := fun _ s => s.1.Owned s.2) ?_ ?_ hback
  · rintro s ⟨hs, hempty⟩
    rwa [hempty]
  · intro past s c t _ hc hs hstep
    simp only [blockCalls] at hstep
    split at hstep
    next hallowed =>
      split at hstep
      next b t' hrun =>
        obtain rfl := Option.some.inj hstep
        exact (hs.call c hallowed hc).ok hrun
      next => cases hstep
    next => cases hstep

end FileSys

/-- **Each data block has one owner.**  In every run of the functions that write each
inode back before they drop it, the blocks of the inodes and those in the caller's hand
are pairwise distinct data blocks and just the data blocks that are marked as used; and
no call frees a free block. -/
theorem blocks_owned {past : Past (FileSys × List UInt32) BlockCall} {s : FileSys}
    {loose : List UInt32} (run : Run blockCalls past (s, loose))
    (hback : Machine.StepsMeet (fun past s c => c.WrittenBack past s) past) :
    (∀ x y, s.tenant loose x ≠ 0 → s.tenant loose x = s.tenant loose y → x = y) ∧
    (∀ x, s.tenant loose x ≠ 0 → s.sb.IsData (s.tenant loose x)) ∧
    (∀ b, s.sb.IsData b → (s.toDisk.Used b ↔ ∃ x, s.tenant loose x = b)) ∧
    ∀ (c : BlockCall) t, c.Allowed s → c.WrittenBack past (s, loose) →
      c.run s ≠ .error freeingFree t := by
  have howned : s.Owned loose := FileSys.owned_run run hback
  refine ⟨?_, ?_, ?_, ?_⟩
  · intro x y hx hxy
    exact howned.tenancy.alone hx hxy
  · intro x hx
    exact howned.tenancy.inRoom hx
  · intro b hb
    exact howned.tenancy.taken_iff hb
  · intro c t hc hback' hfail
    exact ((howned.call c hc hback').failed hfail) rfl

/-! ### What is not owned -/

/-- A data block that is marked as used and that no inode has. -/
def FileSys.Stray (s : FileSys) (b : UInt32) : Prop :=
  s.sb.IsData b ∧ s.toDisk.Used b ∧ ∀ inum pl, s.tenant [] (placesOf inum pl) ≠ b

/-- Inodes whose addresses are all 0 have no blocks. -/
theorem FileSys.tenant_of_bare {s : FileSys} {loose : List UInt32}
    (h : ∀ inum < s.sb.ninodes, ∀ k, (s.copy inum).addrs k = 0) (inum : Nat) (pl : Place) :
    s.tenant loose (placesOf inum pl) = 0 := by
  unfold placesOf tenant
  dsimp only
  split
  next hused =>
    cases pl with
    | inl k => exact h inum hused.1 k
    | inr j => exact if_pos (h inum hused.1 indirect)
  next => rfl

/-- **A file system without blocks in use** whose inode table is empty. -/
theorem FileSys.owned_of_bare {s : FileSys} (hsb : s.sb.Sound)
    (hbare : ∀ inum < s.sb.ninodes, ∀ k, (s.copy inum).addrs k = 0)
    (hbits : ∀ b < s.sb.size, s.isFree b = decide (s.sb.dataStart ≤ b))
    (htable : ∀ i, (s.inode i).ref = 0 ∧ (s.inode i).locked = false) : s.Owned [] := by
  have hnone : ∀ x, s.tenant [] x = 0 := by
    intro x
    cases x with
    | inl x => exact FileSys.tenant_of_bare hbare x.1 x.2
    | inr k => rfl
  have href : ∀ i, ¬ 0 < (s.inode i).ref := fun i => by
    rw [(htable i).1]
    exact Nat.lt_irrefl 0
  refine ⟨⟨?_, ?_, ?_, ?_⟩, ⟨hsb, ?_⟩, hsb.not_isData_zero, ?_, ?_, ?_⟩
  · intro i j hi
    exact absurd hi (href i)
  · intro i hi
    exact absurd hi (href i)
  · intro i inum hi
    exact absurd hi.1 (href i)
  · intro i hi
    rw [(htable i).2] at hi
    cases hi
  · intro b hb
    have hstart : s.sb.dataStart ≤ s.sb.size := Nat.sub_le _ _
    rw [hbits b (by omega), decide_eq_false (Nat.not_le.mpr hb)]
  · intro x y hx
    exact absurd (hnone x) hx
  · intro x hx
    exact absurd (hnone x) hx
  · intro b hb
    refine iff_of_false ?_ ?_
    · have hlow : s.sb.dataStart ≤ b.toNat := hb.1
      unfold Disk.Used
      rw [hbits b.toNat hb.2, decide_eq_true hlow]
      decide
    · rintro ⟨x, hx⟩
      rw [hnone x] at hx
      exact hsb.not_isData_zero (hx ▸ hb)

/-- A small file system: inode 1 has a link and no blocks, and all data blocks are free. -/
def smallFs : FileSys where
  sb := ⟨FSMAGIC, 38, 4, 3, 30, 2, 32, 33⟩
  block := fun b =>
    if b = 32 then
      Bytes.splice (fun _ => 0) (Dinode.place 1)
        { Dinode.zero with type := T_FILE, nlink := 1 }.bytes
    else if b = 33 then fun k => if k < 4 then 0xff else if k = 4 then 3 else 0
    else fun _ => 0
  outstanding := 0
  lh := []
  committed := []
  inode := fun _ =>
    { Dinode.zero with dev := 0, inum := 0, ref := 0, locked := false, valid := false }

theorem smallFs_owned : smallFs.Owned [] := by
  refine FileSys.owned_of_bare ⟨?_, ?_, by decide, by decide⟩ (by decide)
    (by decide) fun _ => ⟨rfl, rfl⟩
  · decide
  · decide

theorem smallFs_init : blockCalls.init (smallFs, []) := ⟨smallFs_owned, rfl⟩

instance : DecidableEq Dinode := fun dip dip' =>
  decidable_of_iff (dip.type = dip'.type ∧ dip.major = dip'.major ∧ dip.minor = dip'.minor ∧
      dip.nlink = dip'.nlink ∧ dip.size = dip'.size ∧ ∀ k, dip.addrs k = dip'.addrs k) <| by
    cases dip
    cases dip'
    simp [funext_iff]

instance (past : Past (FileSys × List UInt32) BlockCall) (s : FileSys × List UInt32)
    (c : BlockCall) : Decidable (c.WrittenBack past s) := by
  unfold BlockCall.WrittenBack
  split <;> infer_instance

/-- A file is written and closed, and a block is allocated. -/
theorem blocks_owned_small : ∃ past s loose, Run blockCalls past (s, loose) ∧
    (s.toDisk.Used 34 ∧ loose = [35]) ∧ ∃ x, s.tenant loose x = 34 := by
  obtain ⟨past, ⟨s, loose⟩, run, ⟨hused, hloose, hdata⟩, hback⟩ :=
    Machine.exists_run_of_trace smallFs_init
      [.beginOp, .iget 1, .ilock 0, .writei 0 (fun _ => some 7) 0 3, .iunlock 0, .iput 0, .balloc,
        .endOp]
      (fun past s =>
        (s.1.isFree 34 = false ∧ s.2 = [35] ∧ s.1.sb.dataStart ≤ 34 ∧ 34 < s.1.sb.size) ∧
        Machine.StepsMeet (fun past s c => c.WrittenBack past s) past) (by decide)
  exact ⟨past, s, loose, run, ⟨hused, hloose⟩,
    ((blocks_owned run hback).2.2.1 34 hdata).mp hused⟩

/-- Block 34 of the small file system is marked as used and the inodes have no blocks. -/
def FileSys.Leaked (s : FileSys) : Prop :=
  (s.sb.dataStart ≤ 34 ∧ 34 < s.sb.size) ∧ s.isFree 34 = false ∧ s.sb.ninodes = 3 ∧
    ∀ inum < 3, ∀ k, (s.copy inum).addrs k = 0

instance (s : FileSys) : Decidable s.Leaked := by
  unfold FileSys.Leaked
  infer_instance

theorem FileSys.Leaked.stray {s : FileSys} (h : s.Leaked) : s.Stray 34 := by
  obtain ⟨hdata, hused, hninodes, hbare⟩ := h
  refine ⟨hdata, hused, fun inum pl => ?_⟩
  rw [FileSys.tenant_of_bare (hninodes ▸ hbare)]
  decide

/-- **Blocks that no inode has**: one that `balloc` returns, and one that `bmap` gives to an
inode that is dropped before it is written back. -/
theorem stray_blocks :
    (∃ past s, Run blockCalls past s ∧ s.1.Stray 34 ∧
      Machine.StepsMeet (fun past s c => c.WrittenBack past s) past) ∧
    ∃ past s, Run blockCalls past s ∧ s.1.Stray 34 ∧ s.2 = [] := by
  constructor
  · obtain ⟨past, s, run, hs, hback⟩ :=
      Machine.exists_run_of_trace smallFs_init [.beginOp, .balloc]
        (fun past s => s.1.Leaked ∧
          Machine.StepsMeet (fun past s c => c.WrittenBack past s) past) (by decide)
    exact ⟨past, s, run, hs.stray, hback⟩
  · obtain ⟨past, s, run, hs, hempty⟩ :=
      Machine.exists_run_of_trace smallFs_init
        [.beginOp, .iget 1, .ilock 0, .bmap 0 0, .iunlock 0, .iput 0]
        (fun _ s => s.1.Leaked ∧ s.2 = []) (by decide)
    exact ⟨past, s, run, hs.stray, hempty⟩

end Fs
