import OSN.Fs.Owners

/-!
# What the functions on an inode take

`balloc` takes a block from the free ones, and every block that is written to takes an
entry of the log, unless it has one.  Of each function is said how many of either it takes
at most, that all it has changed is in the log (`Logged`), and that nothing but the log
makes it fail once there are blocks and a transaction (`FailsFor`).
-/

namespace Fs

open Xv6 (LOGSIZE)

/-- The panic of `log_write` that a transaction causes which is too large. -/
def tooBig : String := "too big a transaction"

namespace Disk

/-- `log_write` may take `k` entries more. -/
def Room (d : Disk) (k : Nat) : Prop := d.lh.length + k ≤ LOGSIZE ∧ d.lh.length + k ≤ d.sb.nlog - 1

instance (d : Disk) (k : Nat) : Decidable (d.Room k) := by
  unfold Room
  infer_instance

/-- The number of free blocks. -/
def freeCount (d : Disk) : Nat := (List.range d.sb.size).countP d.isFree

/-- What has changed is in the log; besides what was there, the log has blocks of `S` only. -/
structure Logged (S : UInt32 → Prop) (d t : Disk) : Prop where
  sb : t.sb = d.sb
  outstanding : t.outstanding = d.outstanding
  kept : ∀ c ∈ d.lh, c ∈ t.lh
  changed : ∀ c, t.block c ≠ d.block c → c ∈ t.lh
  only : ∀ c ∈ t.lh, c ∈ d.lh ∨ S c

/-- Code that needs `k` entries of the log fails for want of them only, if `ok` holds. -/
def FailsFor (d : Disk) (k : Nat) (ok : Prop) (e : String) (_ : Disk) : Prop :=
  0 < d.outstanding → ok → e = tooBig ∧ ¬ d.Room k

variable {d t u : Disk} {S S' : UInt32 → Prop} {b : UInt32} {k k' : Nat} {data : Block}

theorem Room.mono (h : t.Room k) (hsb : t.sb = d.sb)
    (hlength : d.lh.length + k' ≤ t.lh.length + k) : d.Room k' := by
  unfold Room at *
  rw [hsb] at h
  omega

namespace Logged

theorem refl : Logged S d d :=
  ⟨rfl, rfl, fun _ hc => hc, fun _ hc => absurd rfl hc, fun _ hc => Or.inl hc⟩

theorem mono (h : Logged S d t) (hS : ∀ c, S c → S' c) : Logged S' d t :=
  { h with only := fun c hc => (h.only c hc).imp_right (hS c) }

theorem trans (h : Logged S d t) (h' : Logged S t u) : Logged S d u where
  sb := h'.sb.trans h.sb
  outstanding := h'.outstanding.trans h.outstanding
  kept := fun c hc => h'.kept c (h.kept c hc)
  changed := by
    intro c hc
    by_cases hsame : u.block c = t.block c
    · exact h'.kept c (h.changed c (hsame ▸ hc))
    · exact h'.changed c hsame
  only := by
    intro c hc
    rcases h'.only c hc with hold | hnew
    · exact h.only c hold
    · exact Or.inr hnew

end Logged

end Disk

/-! ### Writing through the log -/

variable {d : Disk} {b : UInt32} {data : Block}

/-- What `log_write` has done. -/
structure Entered (b : UInt32) (d t : Disk) : Prop where
  same : d.SameBlocks t
  outstanding : t.outstanding = d.outstanding
  mem : b ∈ t.lh
  kept : ∀ c ∈ d.lh, c ∈ t.lh
  only : ∀ c ∈ t.lh, c ∈ d.lh ∨ c = b
  length : t.lh.length ≤ d.lh.length + 1
  absorbed : b ∈ d.lh → t.lh = d.lh

theorem logWrite_enters :
    Ends (logWrite b) d (fun _ t => Entered b d t) (d.FailsFor 1 True) := by
  unfold logWrite
  rw [Ends.get_bind_iff]
  split
  next hfull =>
    intro _ _
    refine ⟨rfl, fun hroom => ?_⟩
    unfold Disk.Room at hroom
    omega
  next =>
    split
    next hnone =>
      intro hsome
      omega
    next =>
      split
      next hmem =>
        exact ⟨⟨rfl, rfl⟩, rfl, hmem, fun _ hc => hc, fun _ hc => Or.inl hc, Nat.le_succ _,
          fun _ => rfl⟩
      next hnew =>
        refine ⟨⟨rfl, rfl⟩, rfl, ?_, ?_, ?_, ?_, fun hmem => absurd hmem hnew⟩
        · exact List.mem_append_right _ (List.mem_singleton_self b)
        · intro c hc
          exact List.mem_append_left _ hc
        · intro c hc
          exact (List.mem_append.mp hc).imp_right List.mem_singleton.mp
        · exact Nat.le_of_eq (List.length_append)

/-- A block that is written to and passed to `log_write`. -/
theorem Entered.logged {t : Disk} (h : Entered b (d.write b data) t) :
    Disk.Logged (· = b) d t where
  sb := h.same.sb
  outstanding := h.outstanding
  kept := h.kept
  changed := by
    intro c hc
    by_cases hcb : c = b
    · rw [hcb]
      exact h.mem
    · rw [h.same.block, Disk.write_ne hcb] at hc
      exact absurd rfl hc
  only := h.only

/-! ### Free blocks -/

/-- One block fewer is free. -/
theorem Disk.Allocated.freeCount {t : Disk} (h : d.Allocated b t) :
    t.freeCount + 1 = d.freeCount := by
  have hfree : d.isFree b.toNat = true := by
    have hnot := h.free
    unfold Disk.Used at hnot
    simpa using hnot
  have hcount : ∀ n, b.toNat < n → n ≤ d.sb.size →
      (List.range n).countP t.isFree + 1 = (List.range n).countP d.isFree := by
    intro n
    induction n with
    | zero =>
        intro hb
        exact absurd hb (Nat.not_lt_zero _)
    | succ n ih =>
        intro hb hn
        rw [List.range_succ, List.countP_append, List.countP_append, List.countP_singleton,
          List.countP_singleton, h.isFree n hn]
        by_cases hlast : n = b.toNat
        · have hbefore : (List.range n).countP t.isFree = (List.range n).countP d.isFree := by
            apply List.countP_congr
            intro m hm
            have hlt := List.mem_range.mp hm
            rw [h.isFree m (by omega)]
            simp only [Bool.and_eq_true, decide_eq_true_eq, and_iff_left_iff_imp]
            omega
          rw [hbefore]
          simp [hlast, hfree]
        · have hrest := ih (by omega) (by omega)
          simp only [hlast, ne_eq, not_false_eq_true, decide_true, Bool.and_true]
          omega
  unfold Disk.freeCount
  rw [h.sb]
  exact hcount d.sb.size h.data.2 (Nat.le_refl _)

theorem Disk.SameBlocks.freeCount {t : Disk} (h : d.SameBlocks t) : t.freeCount = d.freeCount := by
  unfold Disk.freeCount
  rw [h.sb]
  exact List.countP_congr fun n _ => by rw [h.isFree]

theorem Disk.freeCount_write (h : d.sb.Sound) (hb : d.sb.OffBitmap b) :
    (d.write b data).freeCount = d.freeCount :=
  List.countP_congr fun m hm => by rw [Disk.isFree_write h (List.mem_range.mp hm) hb]

/-- What `balloc` has taken when it returns `b`. -/
structure Took (d : Disk) (b : UInt32) (t : Disk) : Prop where
  allocated : d.Allocated b t
  logged : Disk.Logged (fun c => c = b ∨ ¬ d.sb.IsData c) d t
  mem : b ∈ t.lh
  length : t.lh.length ≤ d.lh.length + 2

theorem Disk.FailsFor.mono {t : Disk} {k k' : Nat} {ok ok' : Prop} {e : String} {u u' : Disk}
    (h : t.FailsFor k ok e u) (hsb : t.sb = d.sb) (houtstanding : t.outstanding = d.outstanding)
    (hok : ok' → ok) (hlength : t.lh.length + k ≤ d.lh.length + k') : d.FailsFor k' ok' e u' := by
  intro hsome hok'
  obtain ⟨he, hfull⟩ := h (houtstanding ▸ hsome) (hok hok')
  exact ⟨he, fun hroom => hfull (hroom.mono hsb.symm hlength)⟩

/-- **`balloc`** takes a block and two entries of the log, at most. -/
theorem balloc_takes (h : d.Sound) :
    Ends balloc d (fun b t => Took d b t) (d.FailsFor 2 (0 < d.freeCount)) := by
  have hlog : Ends balloc d
      (fun b t => Disk.Logged (fun c => c = b ∨ ¬ d.sb.IsData c) d t ∧ b ∈ t.lh ∧
        t.lh.length ≤ d.lh.length + 2) (d.FailsFor 2 (0 < d.freeCount)) := by
    unfold balloc
    rw [Ends.get_bind_iff]
    split
    next n hfound =>
      have hn : n < d.sb.size := List.mem_range.mp (List.mem_of_find?_eq_some hfound)
      have hbitmap : ¬ d.sb.IsData (d.sb.BBLOCK n) := by
        intro hdata
        exact h.layout.BBLOCK_ne hn hdata.offBitmap rfl
      unfold store
      rw [Ends.modify_bind_iff]
      refine Ends.bind (logWrite_enters.mono (fun _ _ ht => ht) ?_) fun _ t ht => ?_
      · intro e _ hfail
        exact hfail.mono rfl rfl (fun _ => trivial) (Nat.add_le_add_left (by decide) _)
      · have hfirst := ht.logged
        have hlength := ht.length
        unfold bzero store
        rw [Ends.bind_iff, Ends.modify_bind_iff]
        refine logWrite_enters.mono (fun _ u hu => ?_) ?_
        · have hlength' := hu.length
          refine ⟨(hfirst.mono ?_).trans (hu.logged.mono fun c hc => Or.inl hc), hu.mem, ?_⟩
          · rintro _ rfl
            exact Or.inr hbitmap
          · change u.lh.length ≤ t.lh.length + 1 at hlength'
            change t.lh.length ≤ d.lh.length + 1 at hlength
            omega
        · intro e _ hfail
          refine hfail.mono hfirst.sb hfirst.outstanding (fun _ => trivial) ?_
          exact Nat.add_le_add_right hlength 1
    next hnone =>
      intro _ hfree
      have hzero : d.freeCount = 0 := by
        refine List.countP_eq_zero.mpr fun n hn => ?_
        exact List.find?_eq_none.mp hnone n hn
      omega
  exact ((balloc_allocates h).and hlog).mono
    (fun b t ht => ⟨ht.1, ht.2.1, ht.2.2.1, ht.2.2.2⟩) fun _ _ he => he.2

/-! ### `bmap` -/

/-- The log of a node: blocks that were not the inode's may be in there, and its indirect
block. -/
def Node.MayLog (n : Node) (c : UInt32) : Prop :=
  ¬ n.sb.IsData c ∨ ¬ n.toDisk.Used c ∨ c = n.ip.addrs indirect

/-- The entries of the log that the indirect block may still take. -/
def Node.indirectCost (n : Node) : Nat :=
  if n.ip.addrs indirect = 0 then 2 else if n.ip.addrs indirect ∈ n.lh then 0 else 1

/-- The blocks that `bmap` allocates. -/
def Node.missing (n : Node) (bn : Nat) : Nat :=
  (if n.blk bn = 0 then 1 else 0) +
    if NDIRECT ≤ bn ∧ n.ip.addrs indirect = 0 then 1 else 0

/-- What `bmap` has taken when it returns `b`. -/
structure BmapTook (n : Node) (bn : Nat) (b : UInt32) (n' : Node) : Prop where
  logged : Disk.Logged n.MayLog n.toDisk n'.toDisk
  length : n'.lh.length + n'.indirectCost ≤
    n.lh.length + n.indirectCost + if n.blk bn = 0 then 2 else 0
  mem : n.blk bn = 0 → b ∈ n'.lh
  others : ∀ bn', bn' ≠ bn → n'.blk bn' = n.blk bn'
  freeCount : n'.toDisk.freeCount + n.missing bn = n.toDisk.freeCount

variable {ι : Type} {own : Place → ι} {f : ι → UInt32} {n n' : Node} {bn : Nat} {t : Disk}

/-- A block that is used stays used. -/
theorem Disk.Allocated.used {c : UInt32} (h : d.Allocated b t) (hc : d.sb.IsData c)
    (hused : d.Used c) : t.Used c := by
  unfold Disk.Used at *
  rw [h.isFree c.toNat hc.2, hused, Bool.false_and]

theorem Took.mayLog (h : Took n.toDisk b t) : Disk.Logged n.MayLog n.toDisk t :=
  h.logged.mono fun c hc => by
    rcases hc with hcb | hdata
    · exact Or.inr (Or.inl (hcb ▸ h.allocated.free))
    · exact Or.inl hdata

/-- The indirect block takes no more when the log grows. -/
theorem indirectCost_le (haddr : n'.ip.addrs indirect = n.ip.addrs indirect)
    (hkept : ∀ c ∈ n.lh, c ∈ n'.lh) : n'.indirectCost ≤ n.indirectCost := by
  unfold Node.indirectCost
  rw [haddr]
  split
  · exact Nat.le_refl _
  · split
    · exact Nat.zero_le _
    next hnot => rw [if_neg fun hmem => hnot (hkept _ hmem)]

theorem BmapTook.nothing (hb : n.blk bn ≠ 0) (hind : NDIRECT ≤ bn → n.ip.addrs indirect ≠ 0) :
    BmapTook n bn b n where
  logged := .refl
  length := Nat.le_add_right _ _
  mem := fun hzero => absurd hzero hb
  others := fun _ _ => rfl
  freeCount := by
    have hnone : ¬ (NDIRECT ≤ bn ∧ n.ip.addrs indirect = 0) := fun h => hind h.1 h.2
    rw [Node.missing, if_neg hb, if_neg hnone]
    exact Nat.add_zero _

/-- A block that changes alone. -/
theorem blk_others (hbn : bn < MAXFILE) (hothers : ∀ pl, pl ≠ filePlace bn → n'.addr pl = n.addr pl)
    {bn' : Nat} (hne : bn' ≠ bn) : n'.blk bn' = n.blk bn' := by
  by_cases hlt : bn' < MAXFILE
  · exact Node.blk_congr (hothers _ fun heq => hne (filePlace_inj hlt hbn heq))
  · rw [Node.blk_eq_zero hlt, Node.blk_eq_zero hlt]

/-- A direct block. -/
theorem BmapTook.direct (h : Held own f n) {hlow : bn < NDIRECT} (hzero : n.blk bn = 0)
    (ht : Took n.toDisk b t) :
    BmapTook n bn b ((⟨t, n.ip⟩ : Node).setAddr (Fs.direct bn hlow) b) where
  logged := ht.mayLog
  length := by
    have hne : indirect ≠ Fs.direct bn hlow := by
      intro heq
      have hval : NDIRECT = bn := congrArg Fin.val heq
      omega
    have hcost : ((⟨t, n.ip⟩ : Node).setAddr (Fs.direct bn hlow) b).indirectCost ≤
        n.indirectCost := indirectCost_le (Function.update_of_ne hne _ _) ht.logged.kept
    have hlength := ht.length
    rw [if_pos hzero]
    change t.lh.length + _ ≤ _
    omega
  mem := fun _ => ht.mem
  others := by
    have hplace : filePlace bn = .inl (Fs.direct bn hlow) := dif_pos hlow
    have hempty : n.ip.addrs (Fs.direct bn hlow) = 0 := by
      rw [Node.blk_eq (by unfold MAXFILE; omega), hplace] at hzero
      exact hzero
    refine fun _ => blk_others (by unfold MAXFILE; omega) fun pl hpl => ?_
    exact h.addr_giveAddr hempty ht.allocated (hplace ▸ hpl)
  freeCount := by
    have hcount := ht.allocated.freeCount
    rw [Node.missing, if_pos hzero, if_neg (by omega)]
    exact hcount

theorem blk_high (hlow : ¬ bn < NDIRECT) (hroom : bn - NDIRECT < NINDIRECT) :
    n.blk bn = n.addr (.inr ⟨bn - NDIRECT, hroom⟩) := by
  rw [Node.blk_eq (by unfold MAXFILE; omega), filePlace_high hlow hroom]

/-- **A block goes into the indirect block.** -/
theorem entry_takes (h : Held own f n) (hlow : ¬ bn < NDIRECT) (hroom : bn - NDIRECT < NINDIRECT)
    (hind : n.ip.addrs indirect ≠ 0)
    (hzero : entry (n.block (n.ip.addrs indirect)) (bn - NDIRECT) = 0) :
    Ends (do
      let addr ← NodeM.disk balloc
      let a ← NodeM.disk (bread (n.ip.addrs indirect))
      NodeM.disk (store (n.ip.addrs indirect) (setEntry a (bn - NDIRECT) addr))
      NodeM.disk (logWrite (n.ip.addrs indirect))
      return addr) n (BmapTook n bn)
      fun e n' => n.toDisk.FailsFor (n.indirectCost + 2 + 1) (0 < n.toDisk.freeCount) e
        n'.toDisk := by
  have hblk : n.blk bn = 0 := by
    rw [blk_high hlow hroom, Node.addr, addrOf, if_neg hind]
    exact hzero
  rw [Ends.bind_iff, NodeM.disk_iff]
  refine (balloc_takes h.sound).mono (fun b t ht => ?_) fun e _ hfail =>
    hfail.mono rfl rfl id (by omega)
  rw [Ends.bind_iff, NodeM.disk_bread, Ends.bind_iff, NodeM.disk_store, Ends.bind_iff,
    NodeM.disk_iff]
  have hlength := ht.length
  refine logWrite_enters.mono (fun _ u hu => ?_) fun e _ hfail => ?_
  · rw [Ends.pure_iff]
    have hlogged := ht.mayLog.trans (hu.logged.mono fun c hc => Or.inr (Or.inr hc))
    refine ⟨hlogged, ?_, fun _ => hu.kept b ht.mem, ?_, ?_⟩
    · rw [if_pos hblk]
      unfold Node.indirectCost
      rw [if_neg hind, if_neg hind, if_pos hu.mem]
      split
      next hmem =>
        have habsorbed := hu.absorbed (ht.logged.kept _ hmem)
        change u.lh = t.lh at habsorbed
        rw [habsorbed]
        omega
      next =>
        have hone := hu.length
        change u.lh.length ≤ t.lh.length + 1 at hone
        change u.lh.length + 0 ≤ _
        omega
    · have hplace : filePlace bn = .inr ⟨bn - NDIRECT, hroom⟩ := filePlace_high hlow hroom
      refine fun _ => blk_others (by unfold MAXFILE; omega) fun pl hpl => ?_
      exact h.addr_giveEntry (j := ⟨bn - NDIRECT, hroom⟩) hind ht.allocated hu.same.block
        (hplace ▸ hpl)
    · have hcount := ht.allocated.freeCount
      have hdata : n.sb.IsData (n.ip.addrs indirect) := h.isData_indirect hind
      have hsame : u.freeCount = t.freeCount := hu.same.freeCount.trans
        (Disk.freeCount_write (ht.logged.sb ▸ h.sound.layout) (ht.logged.sb ▸ hdata.offBitmap))
      rw [Node.missing, if_pos hblk, if_neg fun hboth => hind hboth.2]
      change u.freeCount + _ = _
      omega
  · refine hfail.mono ht.logged.sb ht.logged.outstanding (fun _ => trivial) ?_
    change t.lh.length + 1 ≤ _
    omega

/-- `ip->addrs[k]` when it is there. -/
theorem addrOrAlloc_ends {k : Fin (NDIRECT + 1)} {Q : UInt32 → Node → Prop}
    {E : String → Node → Prop} (hk : n.ip.addrs k ≠ 0) (hQ : Q (n.ip.addrs k) n) :
    Ends (addrOrAlloc k) n Q E :=
  Ends.of_ok (addrOrAlloc_eq hk) hQ

/-- `ip->addrs[k]` when it has to be allocated. -/
theorem addrOrAlloc_takes (h : n.toDisk.Sound) {k : Fin (NDIRECT + 1)} (hk : n.ip.addrs k = 0) :
    Ends (addrOrAlloc k) n
      (fun b n' => ∃ t, Took n.toDisk b t ∧ n' = (⟨t, n.ip⟩ : Node).setAddr k b)
      fun e n' => n.toDisk.FailsFor 2 (0 < n.toDisk.freeCount) e n'.toDisk := by
  unfold addrOrAlloc
  rw [Ends.get_bind_iff, if_pos hk, Ends.bind_iff, NodeM.disk_iff]
  exact (balloc_takes h).mono (fun b t ht => ⟨t, ht, rfl⟩) fun _ _ he => he

theorem setAddr_self {k : Fin (NDIRECT + 1)} : (n.setAddr k b).ip.addrs k = b := by
  simp [Node.setAddr]

/-- A new indirect block is empty and in the log. -/
theorem Took.indirect {ind : UInt32} (ht : Took n.toDisk ind t) (hne : ind ≠ 0)
    (hlow : ¬ bn < NDIRECT) (hroom : bn - NDIRECT < NINDIRECT) :
    ((⟨t, n.ip⟩ : Node).setAddr indirect ind).blk bn = 0 ∧
      ((⟨t, n.ip⟩ : Node).setAddr indirect ind).indirectCost = 0 := by
  have hmem : ind ∈ ((⟨t, n.ip⟩ : Node).setAddr Fs.indirect ind).lh := ht.mem
  have hblock : ((⟨t, n.ip⟩ : Node).setAddr Fs.indirect ind).block ind = fun _ => 0 :=
    ht.allocated.zeroed
  constructor
  · rw [blk_high hlow hroom, Node.addr, addrOf, setAddr_self, if_neg hne, hblock, entry_zeros]
  · rw [Node.indirectCost, setAddr_self, if_neg hne, if_pos hmem]

/-- What is allocated behind an indirect block that is new itself. -/
theorem BmapTook.behind (hheld : Held own f n) {ind : UInt32}
    (h : BmapTook ((⟨t, n.ip⟩ : Node).setAddr indirect ind) bn b n') (ht : Took n.toDisk ind t)
    (hne : ind ≠ 0) (hind : n.ip.addrs indirect = 0) (hlow : ¬ bn < NDIRECT)
    (hroom : bn - NDIRECT < NINDIRECT) : BmapTook n bn b n' := by
  obtain ⟨hblk₁, hcost₁⟩ := ht.indirect (n := n) hne hlow hroom
  have hblk : n.blk bn = 0 := by
    rw [blk_high hlow hroom]
    exact if_pos hind
  constructor
  · refine ht.mayLog.trans (h.logged.mono fun c hc => ?_)
    have hsb : t.sb = n.sb := ht.logged.sb
    rcases hc with hdata | hused | hself
    · exact Or.inl (by rw [← hsb]; exact hdata)
    · by_cases hdata : n.sb.IsData c
      · exact Or.inr (Or.inl fun hold => hused (ht.allocated.used hdata hold))
      · exact Or.inl hdata
    · rw [setAddr_self] at hself
      exact Or.inr (Or.inl (hself ▸ ht.allocated.free))
  · have hlength := h.length
    have hfirst := ht.length
    rw [hcost₁, if_pos hblk₁] at hlength
    change n'.lh.length + n'.indirectCost ≤ t.lh.length + 0 + 2 at hlength
    rw [if_pos hblk, Node.indirectCost.eq_def n, if_pos hind]
    omega
  · intro _
    exact h.mem hblk₁
  · intro bn' hne'
    rw [h.others bn' hne']
    exact Node.blk_congr (hheld.addr_giveAddr hind ht.allocated (filePlace_ne_indirect bn'))
  · have hcount := h.freeCount
    have hfirst := ht.allocated.freeCount
    rw [Node.missing, if_pos hblk₁, setAddr_self, if_neg fun hboth => hne hboth.2] at hcount
    rw [Node.missing, if_pos hblk, if_pos ⟨Nat.not_lt.mp hlow, hind⟩]
    change n'.toDisk.freeCount + (1 + 0) = t.freeCount at hcount
    omega

/-- **`bmap`** takes the blocks that are missing, two entries of the log if it allocates, and
what the indirect block may take. -/
theorem bmap_takes [DecidableEq ι] (h : Held own f n) (bn : Nat) :
    Ends (bmap bn) n (BmapTook n bn) fun e n' =>
      n.toDisk.FailsFor (n.indirectCost + (if n.blk bn = 0 then 2 else 0) + 1)
        (bn < MAXFILE ∧ n.missing bn ≤ n.toDisk.freeCount) e n'.toDisk := by
  unfold bmap
  split
  next hlow =>
    have hblk : n.blk bn = n.ip.addrs (direct bn hlow) := by
      rw [Node.blk_eq (by unfold MAXFILE; omega), filePlace, dif_pos hlow]
      rfl
    by_cases hzero : n.ip.addrs (direct bn hlow) = 0
    · refine (addrOrAlloc_takes h.sound hzero).mono ?_ fun e n' hfail => ?_
      · rintro b _ ⟨t, ht, rfl⟩
        exact .direct h (hblk.trans hzero) ht
      · refine hfail.mono rfl rfl (fun hok => ?_) (by rw [if_pos (hblk.trans hzero)]; omega)
        have hmissing := hok.2
        rw [Node.missing, if_pos (hblk.trans hzero)] at hmissing
        omega
    · refine addrOrAlloc_ends hzero (.nothing (hblk ▸ hzero) fun hhigh => ?_)
      omega
  next hlow =>
    split
    next hroom =>
      have hbn : bn < MAXFILE := by
        unfold MAXFILE
        omega
      by_cases hind : n.ip.addrs indirect = 0
      · have hblk : n.blk bn = 0 := by
          rw [blk_high hlow hroom]
          exact if_pos hind
        have hmissing : n.missing bn = 2 := by
          rw [Node.missing, if_pos hblk, if_pos ⟨by omega, hind⟩]
        refine Ends.bind (((h.addrOrAlloc indirect).and (addrOrAlloc_takes h.sound hind)).mono
          (fun _ _ hn => hn) fun e n' hfail => ?_) ?_
        · refine hfail.2.mono rfl rfl (fun hok => by omega) ?_
          rw [if_pos hblk]
          omega
        · rintro ind _ ⟨⟨⟨f₁, h₁, -⟩, -, -, hne⟩, t, ht, rfl⟩
          rw [Ends.bind_iff, NodeM.disk_bread]
          have hempty : entry (t.block ind) (bn - NDIRECT) = 0 := by
            rw [ht.allocated.zeroed, entry_zeros]
          obtain ⟨-, hcost₁⟩ := ht.indirect (n := n) hne hlow hroom
          split
          next hzero =>
            have hrest := entry_takes h₁ hlow hroom (by rw [setAddr_self]; exact hne)
              (by rw [setAddr_self]; exact hzero)
            rw [setAddr_self, hcost₁] at hrest
            refine hrest.mono (fun b n' htook => htook.behind h ht hne hind hlow hroom)
              fun e n' hfail => ?_
            have hcount := ht.allocated.freeCount
            have hlength := ht.length
            refine hfail.mono ht.logged.sb ht.logged.outstanding (fun hok => ?_) ?_
            · change 0 < t.freeCount
              omega
            · rw [Node.indirectCost, if_pos hind]
              change t.lh.length + _ ≤ _
              omega
          next hfull => exact absurd hempty hfull
      · refine Ends.bind (Q := fun b n' => b = n.ip.addrs indirect ∧ n' = n)
          (addrOrAlloc_ends hind ⟨rfl, rfl⟩) ?_
        rintro _ n ⟨rfl, rfl⟩
        rw [Ends.bind_iff, NodeM.disk_bread]
        split
        next hzero =>
          have hblk : n.blk bn = 0 := by
            rw [blk_high hlow hroom, Node.addr, addrOf, if_neg hind]
            exact hzero
          refine (entry_takes h hlow hroom hind hzero).mono (fun _ _ htook => htook)
            fun e n' hfail => hfail.mono rfl rfl (fun hok => ?_) (by rw [if_pos hblk])
          have hmissing := hok.2
          rw [Node.missing, if_pos hblk] at hmissing
          omega
        next hentry =>
          refine BmapTook.nothing ?_ fun _ => hind
          rw [blk_high hlow hroom, Node.addr, addrOf, if_neg hind]
          exact hentry
    next hroom =>
      intro _ hok
      unfold MAXFILE at hok
      omega

end Fs
