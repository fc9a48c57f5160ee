import OSN.Fs.Steady

/-!
# Calls on files without holes

The calls of `OSN.Fs.Calls` are followed with the references that they hold, the entries
that they have locked, and the state in which they began: what others refer to then stays
in its entry of the table, and of its type.
-/

namespace Fs

variable {α : Type}

namespace FileSys

/-- How a call that began in `s₀` has left the file system so far. -/
structure Kept (base : Fin NINODE → Nat) (s₀ : FileSys) (held locks : List (Fin NINODE))
    (s : FileSys) : Prop where
  counted : Counted base held s
  steady : Steady locks s
  sb : s.sb = s₀.sb
  lasts : ∀ j, 0 < base j → (s.inode j).inum = (s₀.inode j).inum ∧
    ((s₀.dinode (s₀.inode j).inum).type ≠ 0 →
      (s.dinode (s₀.inode j).inum).type = (s₀.dinode (s₀.inode j).inum).type)

variable {base base' : Fin NINODE → Nat} {held held' locks locks' : List (Fin NINODE)}
  {s₀ s t : FileSys} {i j : Fin NINODE} {inum : Nat} {r : Option (Fin NINODE)}

namespace Kept

/-- A call begins, or goes on with other references held. -/
theorem start (hc : Counted base held s) (hs : Steady locks s) : Kept base s held locks s :=
  ⟨hc, hs, rfl, fun _ _ => ⟨rfl, fun _ => rfl⟩⟩

theorem swap_held (h : Kept base s₀ (i :: j :: held) locks s) :
    Kept base s₀ (j :: i :: held) locks s := ⟨h.counted.swap, h.steady, h.sb, h.lasts⟩

theorem swap_locks (h : Kept base s₀ held (i :: j :: locks) s) :
    Kept base s₀ held (j :: i :: locks) s := ⟨h.counted, h.steady.swap, h.sb, h.lasts⟩

/-- What is locked is held or referred to by others. -/
theorem live (h : Kept base s₀ held locks s) (hi : i ∈ locks) : 0 < base i + held.count i := by
  rw [← h.counted.count i]
  exact (h.steady.holds hi).1

/-- **A function** that keeps both accounts. -/
theorem step {x : FsM α} {held' : α → List (Fin NINODE)} {locks' : α → List (Fin NINODE)}
    (h : Kept base s₀ held locks s) (hc : IfOk x s fun a => Counted base (held' a))
    (hs : IfOk x s fun a t => Steady (locks' a) t ∧ Lasting s t) :
    IfOk x s fun a => Kept base s₀ (held' a) (locks' a) := by
  refine (hc.and hs).mono ?_ fun _ _ _ => trivial
  rintro a t ⟨hcount, hsteady, hlast⟩
  refine ⟨hcount, hsteady, hlast.sb.trans h.sb, fun j hj => ?_⟩
  obtain ⟨hinum, htype⟩ := h.lasts j hj
  have hbefore := h.counted.count j
  have hafter := hcount.count j
  obtain ⟨hinum', htype'⟩ := hlast.entry j (by omega) (by omega)
  refine ⟨hinum'.trans hinum, fun hused => ?_⟩
  rw [hinum] at htype'
  exact (htype' (htype hused ▸ hused)).trans (htype hused)

theorem beginOp (h : Kept base s₀ held locks s) :
    IfOk (FsM.disk beginOp) s fun _ => Kept base s₀ held locks :=
  h.step h.counted.disk (h.steady.log beginOp_same)

theorem endOp (h : Kept base s₀ held locks s) :
    IfOk (FsM.disk endOp) s fun _ => Kept base s₀ held locks :=
  h.step h.counted.disk (h.steady.log endOp_same)

theorem ilock (h : Kept base s₀ held locks s) :
    IfOk (ilock i) s fun _ => Kept base s₀ held (i :: locks) :=
  h.step h.counted.ilock h.steady.ilock

theorem iunlock (h : Kept base s₀ held (i :: locks) s) :
    IfOk (iunlock i) s fun _ => Kept base s₀ held locks :=
  h.step h.counted.iunlock h.steady.iunlock

theorem iput (h : Kept base s₀ (i :: held) locks s)
    (hlive : i ∈ locks → 0 < base i + held.count i) :
    IfOk (iput i) s fun _ => Kept base s₀ held locks := by
  have hcount := h.counted.count i
  rw [List.count_cons_self] at hcount
  refine h.step h.counted.iput (h.steady.iput (by omega) fun hi => ?_)
  have hmore := hlive hi
  omega

theorem iunlockput (h : Kept base s₀ (i :: held) (i :: locks) s) :
    IfOk (iunlockput i) s fun _ => Kept base s₀ held locks := by
  obtain ⟨hnotin, -⟩ := List.nodup_cons.mp h.steady.nodup
  unfold IfOk Fs.iunlockput
  exact h.iunlock.bind fun _ _ ht => ht.iput fun hi => absurd hi hnotin

theorem idup (h : Kept base s₀ held locks s) (hi : 0 < base i) :
    IfOk (idup i) s fun j t => j = i ∧ Kept base s₀ (i :: held) locks t := by
  have hcount := h.counted.count i
  have hlive : 0 < (s.inode i).ref := by omega
  have hsame : IfOk (Fs.idup i) s fun j _ => j = i := rfl
  have hkept : IfOk (Fs.idup i) s fun _ => Kept base s₀ (i :: held) locks :=
    h.step ((h.counted.idup hlive).post fun _ _ hj => hj.2) (h.steady.idup hlive)
  exact hsame.both hkept

theorem iget (h : Kept base s₀ held locks s) (hinum : inum < s₀.sb.ninodes) :
    IfOk (iget ROOTDEV inum) s fun i => Kept base s₀ (i :: held) locks :=
  h.step h.counted.iget (h.steady.iget (h.sb ▸ hinum))

theorem ialloc (h : Kept base s₀ held locks s) {type : UInt16} :
    IfOk (ialloc ROOTDEV type) s fun i => Kept base s₀ (i :: held) locks :=
  h.step h.counted.ialloc h.steady.ialloc

/-- Work on a locked inode. -/
theorem node (h : Kept base s₀ held locks s) {x : NodeM α}
    (hx : IfOk (FsM.node i x) s fun _ t => Steady locks t ∧ Lasting s t) :
    IfOk (FsM.node i x) s fun _ => Kept base s₀ held locks :=
  h.step h.counted.node hx

/-! ### Directories and paths -/

/-- **`dirlookup`** in a locked directory. -/
theorem dirlookup (h : Kept base s₀ held locks s) (hi : i ∈ locks) {name : CStr} :
    IfOk (dirlookup i name) s fun r t =>
      Kept base s₀ (heldWith (r.map Prod.fst) held) locks t ∧
        ∀ j off, r = some (j, off) → DIRENTSIZE ∣ off := by
  unfold IfOk Fs.dirlookup
  rw [Ends.get_bind_iff]
  dsimp only
  split
  · trivial
  next hdir =>
    refine (h.steady.findEntry hi (not_not.mp hdir) (Nat.dvd_zero _)).bind ?_
    rintro r _ ⟨rfl, hr⟩
    split
    next off de =>
      obtain ⟨hoff, hinum⟩ := hr off de rfl
      rw [h.sb] at hinum
      rw [h.steady.dev_eq hi]
      refine (h.iget hinum).bind fun ip t ht => ⟨ht, ?_⟩
      rintro _ _ ⟨⟩
      exact hoff
    next => exact ⟨h, fun _ _ heq => by cases heq⟩

/-- The number of what is held or referred to by others. -/
theorem inum_lt (h : Kept base s₀ held locks s) (hlive : 0 < base i + held.count i) :
    (s.inode i).inum < s₀.sb.ninodes := by
  rw [← h.counted.count i] at hlive
  rw [← h.sb]
  exact (h.steady.range i hlive).2

/-- The part of `dirlink` that writes the entry. -/
theorem addEntry (h : Kept base s₀ held locks s) (hi : i ∈ locks) {name : CStr}
    (hinum : inum < s₀.sb.ninodes) :
    IfOk (FsM.node i (addEntry (s.inode i).inum name inum)) s fun _ =>
      Kept base s₀ held locks := by
  have hfind : IfOk (findEntry "dirlink read" (fun de => de.inum = 0)
      (offsets 0 (s.inode i).size.toNat)) (s.nodeOf i) fun r n' => n' = s.nodeOf i ∧
        ∀ x, r = some x → DIRENTSIZE ∣ x.1 := by
    refine (findEntry_pure (h.steady.sane_node hi).full _).mono ?_ fun _ _ _ => trivial
    rintro r n' ⟨hn, hr⟩
    refine ⟨hn, ?_⟩
    rintro x rfl
    obtain ⟨k, -, hk⟩ := List.mem_map.mp hr.1
    exact ⟨k, hk.symm.trans (Nat.zero_add _)⟩
  have hwrite : ∀ k, IfOk (FsM.node i (writeDirent "dirlink" (s.inode i).inum
      ⟨inum, strncpy DIRSIZ name⟩ (DIRENTSIZE * k))) s fun _ t => Steady locks t ∧ Lasting s t :=
    fun _ => h.steady.writeDirent hi rfl (h.sb ▸ hinum) strncpy_length
  refine h.node ?_
  unfold IfOk Fs.addEntry
  rw [node_iff, Ends.get_bind_iff]
  refine hfind.bind ?_
  rintro r _ ⟨rfl, hr⟩
  cases r with
  | none => exact node_iff.mp (hwrite _)
  | some x =>
      obtain ⟨k, hk⟩ := hr x rfl
      dsimp only
      rw [hk]
      exact node_iff.mp (hwrite k)

/-- **`dirlink`** in a locked directory. -/
theorem dirlink (h : Kept base s₀ held locks s) (hi : i ∈ locks) {name : CStr}
    (hinum : inum < s₀.sb.ninodes) :
    IfOk (dirlink i name inum) s fun _ => Kept base s₀ held locks := by
  have hlive : ∀ j ∈ locks, 0 < base j + held.count j := fun j hj => h.live hj
  unfold IfOk Fs.dirlink
  refine (h.dirlookup hi).bind ?_
  rintro r t ⟨ht, -⟩
  cases r with
  | none =>
      replace ht : Kept base s₀ held locks t := ht
      dsimp only
      rw [Ends.get_bind_iff]
      exact (ht.addEntry hi hinum).bind fun _ _ hu => hu
  | some x =>
      replace ht : Kept base s₀ (x.1 :: held) locks t := ht
      exact (ht.iput (hlive x.1)).bind fun _ _ hu => hu

/-- **`isdirempty`** only looks. -/
theorem isdirempty (h : Kept base s₀ held locks s) (hi : i ∈ locks) :
    IfOk (isdirempty i) s fun _ => Kept base s₀ held locks := by
  unfold IfOk Fs.isdirempty
  rw [Ends.get_bind_iff]
  have hfind : IfOk (findEntry "isdirempty: readi" (fun de => de.inum ≠ 0)
      (offsets (2 * DIRENTSIZE) (s.inode i).size.toNat)) (s.nodeOf i) fun _ n' =>
        n' = s.nodeOf i ∧ True :=
    (findEntry_pure (h.steady.sane_node hi).full _).mono (fun _ _ hr => ⟨hr.1, trivial⟩)
      fun _ _ _ => trivial
  refine (Steady.look hfind).bind ?_
  rintro r _ ⟨rfl, -⟩
  exact h

theorem namexLoop {parent : Bool} {fuel : Nat} {path : CStr} {ip : Fin NINODE}
    (h : Kept base s₀ (ip :: held) [] s) :
    IfOk (namexLoop parent fuel path ip) s fun r =>
      Kept base s₀ (heldWith (r.map Prod.fst) held) [] := by
  have hput : ∀ {ip : Fin NINODE} {s : FileSys}, Kept base s₀ (ip :: held) [] s →
      IfOk (Fs.iput ip) s fun _ => Kept base s₀ held [] := fun hs =>
    hs.iput fun hi => absurd hi List.not_mem_nil
  induction fuel generalizing path ip s with
  | zero =>
      unfold IfOk Fs.namexLoop
      split
      · split
        · exact (hput h).bind fun _ _ ht => ht
        · exact h
      · trivial
  | succ fuel ih =>
      unfold IfOk Fs.namexLoop
      split
      · split
        · exact (hput h).bind fun _ _ ht => ht
        · exact h
      · refine h.ilock.bind fun _ t ht => ?_
        rw [Ends.get_bind_iff]
        split
        · exact ht.iunlockput.bind fun _ _ hu => hu
        · split
          · exact ht.iunlock.bind fun _ _ hu => hu
          · refine (ht.dirlookup List.mem_cons_self).bind ?_
            rintro r u ⟨hu, -⟩
            cases r with
            | none => exact Ends.bind (iunlockput hu) fun _ _ hv => hv
            | some x =>
                have hswap : Kept base s₀ (ip :: x.1 :: held) [ip] u := swap_held hu
                exact hswap.iunlockput.bind fun _ v hv => ih hv

theorem namex (h : Kept base s₀ held [] s) {parent : Bool} {cwd : Fin NINODE} {path : CStr}
    (hcwd : 0 < base cwd) :
    IfOk (namex parent cwd path) s fun r => Kept base s₀ (heldWith (r.map Prod.fst) held) [] := by
  unfold IfOk Fs.namex
  split
  · exact (h.iget (h.sb ▸ h.steady.root)).bind fun ip t ht => ht.namexLoop
  · refine (h.idup hcwd).bind fun ip t ht => ?_
    obtain ⟨rfl, ht⟩ := ht
    exact ht.namexLoop

theorem namei (h : Kept base s₀ held [] s) {cwd : Fin NINODE} {path : CStr}
    (hcwd : 0 < base cwd) : IfOk (namei cwd path) s fun r => Kept base s₀ (heldWith r held) [] := by
  unfold IfOk Fs.namei
  exact (h.namex hcwd).bind fun _ _ ht => ht

/-! ### Calls on the file system -/

/-- Any reference may be given up when nothing is locked. -/
theorem iput_free (h : Kept base s₀ (i :: held) [] s) :
    IfOk (Fs.iput i) s fun _ => Kept base s₀ held [] :=
  h.iput fun hi => absurd hi List.not_mem_nil

/-- References are seen as held that were counted elsewhere, or the other way round. -/
theorem rebase (h : Kept base s₀ held locks s)
    (hsum : ∀ i, base i + held.count i = base' i + held'.count i)
    (hle : ∀ i, 0 < base' i → 0 < base i) : Kept base' s₀ held' locks s :=
  ⟨h.counted.rebase hsum, h.steady, h.sb, fun j hj => h.lasts j (hle j hj)⟩

/-- The type of an inode that others refer to. -/
theorem type_eq (h : Kept base s₀ held locks s) (hi : i ∈ locks) (hbase : 0 < base i)
    (hused : (s₀.dinode (s₀.inode i).inum).type ≠ 0) :
    (s.inode i).type = (s₀.dinode (s₀.inode i).inum).type := by
  obtain ⟨hinum, htype⟩ := h.lasts i hbase
  have hcopy := congrArg Dinode.type (h.steady.copy_eq hi)
  rw [hinum] at hcopy
  exact hcopy.trans (htype hused)

theorem putInode (h : Kept base s₀ (i :: held) [] s) :
    IfOk (putInode i) s fun _ => Kept base s₀ held [] := by
  unfold IfOk Fs.putInode
  exact h.beginOp.bind fun _ _ ht => ht.iput_free.bind fun _ _ hu => hu.endOp

/-- A file that is no directory is written to. -/
theorem writeChunk (h : Kept base s₀ held [] s) (hbase : 0 < base i)
    (hused : (s₀.dinode (s₀.inode i).inum).type ≠ 0)
    (hfile : (s₀.dinode (s₀.inode i).inum).type ≠ T_DIR) {src : Nat → Option UInt8}
    {off n1 : Nat} : IfOk (writeChunk i src off n1) s fun _ => Kept base s₀ held [] := by
  unfold IfOk Fs.writeChunk
  refine h.beginOp.bind fun _ t ht => ht.ilock.bind fun _ u hu => ?_
  rw [Ends.get_bind_iff]
  have hwrite : IfOk (FsM.node i (Fs.writei (u.inode i).inum src off n1)) u fun _ t =>
      Steady [i] t ∧ Lasting u t := by
    refine hu.steady.writei List.mem_cons_self rfl fun tot n' hw hdir => ?_
    have htype := hu.type_eq List.mem_cons_self hbase hused
    have hsame : n'.ip.type = (u.inode i).type := by
      rw [hw.header]
      rfl
    exact absurd (htype.symm.trans (hsame.symm.trans hdir)) hfile
  exact (hu.node hwrite).bind fun _ _ hv => hv.iunlock.bind fun _ _ hw => hw.endOp.bind
    fun _ _ hx => hx

/-- A locked inode is read. -/
theorem readi (h : Kept base s₀ held locks s) (hi : i ∈ locks) {dst : Nat → Bool} {off m : Nat} :
    IfOk (FsM.node i (readi dst off m)) s fun _ t => t = s ∧ True :=
  Steady.look ((readi_pure (h.steady.sane_node hi).full).mono
    (fun _ _ hr => ⟨hr.1, trivial⟩) fun _ _ _ => trivial)

theorem lockedRead (h : Kept base s₀ held [] s) {dst : Nat → Bool} {off n : Nat} :
    IfOk (lockedRead i dst off n) s fun _ => Kept base s₀ held [] := by
  unfold IfOk Fs.lockedRead
  refine h.ilock.bind fun _ t ht => (ht.readi List.mem_cons_self).bind ?_
  rintro _ _ ⟨rfl, -⟩
  exact ht.iunlock.bind fun _ _ hu => hu

theorem filestat (h : Kept base s₀ held [] s) :
    IfOk (filestat i) s fun _ => Kept base s₀ held [] := by
  unfold IfOk Fs.filestat
  exact h.ilock.bind fun _ _ ht => ht.iunlock

/-- The count of links of a locked inode changes. -/
theorem relink (g : UInt16 → UInt16) (h : Kept base s₀ held locks s) (hi : i ∈ locks)
    (hinum : (s.inode i).inum = inum) :
    IfOk (FsM.node i do
      modify fun n : Node => { n with ip := { n.ip with nlink := g n.ip.nlink } }
      iupdate inum) s fun _ => Kept base s₀ held locks :=
  h.node (h.steady.rewrite (g := fun dip => { dip with nlink := g dip.nlink }) hi hinum
    fun _ => ⟨rfl, rfl, rfl⟩)

theorem unlinkBack (h : Kept base s₀ (i :: held) [] s) :
    IfOk (unlinkBack i) s fun _ => Kept base s₀ held [] := by
  unfold IfOk Fs.unlinkBack
  refine h.ilock.bind fun _ t ht => ?_
  rw [Ends.get_bind_iff]
  exact (ht.relink (· - 1) List.mem_cons_self rfl).bind fun _ _ hu => hu.iunlockput.bind
    fun _ _ hv => hv.endOp.bind fun _ _ hw => hw

theorem linkPaths (h : Kept base s₀ held [] s) {cwd : Fin NINODE} {old new : CStr}
    (hcwd : 0 < base cwd) : IfOk (linkPaths cwd old new) s fun _ => Kept base s₀ held [] := by
  unfold IfOk Fs.linkPaths
  refine h.beginOp.bind fun _ t ht => (ht.namei hcwd).bind fun r u hu => ?_
  cases r with
  | none => exact Ends.bind (endOp hu) fun _ _ hv => hv
  | some ip =>
      replace hu : Kept base s₀ (ip :: held) [] _ := hu
      refine hu.ilock.bind fun _ v hv => ?_
      rw [Ends.get_bind_iff]
      split
      · exact hv.iunlockput.bind fun _ _ hw => hw.endOp.bind fun _ _ hx => hx
      · refine (hv.relink (· + 1) List.mem_cons_self rfl).bind fun _ _ hw => hw.iunlock.bind
          fun _ _ hx => ?_
        refine (hx.namex hcwd).bind fun r y hy => ?_
        cases r with
        | none => exact unlinkBack hy
        | some r =>
            replace hy : Kept base s₀ (r.1 :: ip :: held) [] _ := hy
            refine hy.ilock.bind fun _ z hz => ?_
            rw [Ends.get_bind_iff]
            split
            · exact hz.iunlockput.bind fun _ _ hdone => hdone.unlinkBack
            · have hinum : (z.inode ip).inum < s₀.sb.ninodes := hz.inum_lt (by
                rw [List.count_cons, List.count_cons_self]
                omega)
              refine (hz.dirlink List.mem_cons_self hinum).bind fun _ _ hlinked => ?_
              split
              · exact hlinked.iunlockput.bind fun _ _ hdone => hdone.unlinkBack
              · exact hlinked.iunlockput.bind fun _ _ hput =>
                  hput.iput_free.bind fun _ _ hdone => hdone.endOp.bind fun _ _ hend => hend

theorem unlinkBad (h : Kept base s₀ (i :: held) [i] s) :
    IfOk (unlinkBad i) s fun _ => Kept base s₀ held [] := by
  unfold IfOk Fs.unlinkBad
  exact h.iunlockput.bind fun _ _ ht => ht.endOp.bind fun _ _ hu => hu

theorem dropLink (h : Kept base s₀ held locks s) (hi : i ∈ locks) :
    IfOk (dropLink i) s fun _ => Kept base s₀ held locks := by
  unfold IfOk Fs.dropLink
  rw [Ends.get_bind_iff]
  exact h.relink (· - 1) hi rfl

theorem removeEntry {off : Nat} (h : Kept base s₀ (j :: i :: held) [j, i] s)
    (hoff : DIRENTSIZE ∣ off) : IfOk (removeEntry i j off) s fun _ => Kept base s₀ held [] := by
  have hend : ∀ t, Kept base s₀ (j :: i :: held) [j, i] t →
      IfOk (Fs.iunlockput i >>= fun _ => Fs.dropLink j >>= fun _ => Fs.iunlockput j >>= fun _ =>
        FsM.disk Fs.endOp >>= fun _ => pure (0 : Int)) t fun _ => Kept base s₀ held [] := by
    intro t ht
    exact ht.swap_held.swap_locks.iunlockput.bind fun _ _ hu =>
      (hu.dropLink List.mem_cons_self).bind fun _ _ hv => hv.iunlockput.bind
        fun _ _ hw => hw.endOp.bind fun _ _ hx => hx
  have hi : i ∈ [j, i] := by simp
  obtain ⟨k, rfl⟩ := hoff
  have hzero : 0 < s.sb.ninodes := Nat.lt_of_le_of_lt (Nat.zero_le _) h.steady.root
  unfold IfOk Fs.removeEntry
  rw [Ends.get_bind_iff]
  refine (h.node (h.steady.writeDirent hi rfl hzero List.length_replicate)).bind fun _ t ht => ?_
  split
  · exact (ht.dropLink hi).bind fun _ u hu => hend u hu
  · exact hend t ht

theorem unlinkPath (h : Kept base s₀ held [] s) {cwd : Fin NINODE} {path : CStr}
    (hcwd : 0 < base cwd) : IfOk (unlinkPath cwd path) s fun _ => Kept base s₀ held [] := by
  unfold IfOk Fs.unlinkPath
  refine h.beginOp.bind fun _ t ht => (ht.namex hcwd).bind fun r u hu => ?_
  cases r with
  | none => exact Ends.bind (endOp hu) fun _ _ hv => hv
  | some r =>
      replace hu : Kept base s₀ (r.1 :: held) [] _ := hu
      refine hu.ilock.bind fun _ v hv => ?_
      split
      · exact hv.unlinkBad
      · refine (hv.dirlookup List.mem_cons_self).bind ?_
        rintro x w ⟨hw, hoff⟩
        cases x with
        | none => exact unlinkBad hw
        | some x =>
            replace hw : Kept base s₀ (x.1 :: r.1 :: held) [r.1] _ := hw
            have hoff : DIRENTSIZE ∣ x.2 := hoff _ _ rfl
            refine hw.ilock.bind fun _ y hy => ?_
            rw [Ends.get_bind_iff]
            split
            · trivial
            · split
              · refine (hy.isdirempty List.mem_cons_self).bind fun _ z hz => ?_
                split
                · exact hz.removeEntry hoff
                · exact hz.iunlockput.bind fun _ _ hput => hput.unlinkBad
              · exact hy.removeEntry hoff

/-! ### New files -/

/-- The call began earlier. -/
theorem trans (h : Kept base s₀ held locks s) (h' : Kept base s held' locks' t) :
    Kept base s₀ held' locks' t := by
  refine ⟨h'.counted, h'.steady, h'.sb.trans h.sb, fun j hj => ?_⟩
  obtain ⟨hinum, htype⟩ := h.lasts j hj
  obtain ⟨hinum', htype'⟩ := h'.lasts j hj
  refine ⟨hinum'.trans hinum, fun hused => ?_⟩
  rw [hinum] at htype'
  exact (htype' (htype hused ▸ hused)).trans (htype hused)

/-- What is held counts as referred to by others from now on. -/
theorem pin (h : Kept base s₀ (i :: held) locks s) :
    Kept (fun j => base j + [i].count j) s held locks s := by
  refine .start (h.counted.rebase fun j => ?_) h.steady
  rw [List.count_cons, List.count_singleton]
  omega

/-- And no longer. -/
theorem unpin (h : Kept base s₀ (i :: held) locks s)
    (h' : Kept (fun j => base j + [i].count j) s held' locks' t) :
    Kept base s₀ (i :: held') locks' t := by
  refine h.trans (h'.rebase (fun j => ?_) fun j hj => ?_)
  · simp only [List.count_cons, List.count_nil]
    omega
  · exact Nat.lt_of_lt_of_le hj (Nat.le_add_right _ _)

/-- **The part of `create` that makes an inode.** -/
theorem createIn (h : Kept base s₀ (i :: held) [i] s) {name : CStr}
    {type major minor : UInt16} (htype : type ≠ 0) :
    IfOk (createIn i name type major minor) s fun r t =>
      Kept base s₀ (heldWith r held) r.toList t ∧ ∀ ip ∈ r, (t.inode ip).type = type := by
  have hcreate : IfOk (Fs.ialloc ROOTDEV type) s fun ip t =>
      Kept base s₀ (ip :: i :: held) [i] t ∧ (t.dinode (t.inode ip).inum).type = type :=
    (h.ialloc.and ialloc_type).mono (fun _ _ hr => hr) fun _ _ _ => trivial
  unfold IfOk Fs.createIn
  rw [Ends.get_bind_iff, h.steady.dev_eq List.mem_cons_self]
  refine hcreate.bind ?_
  rintro ip t ⟨ht, hiptype⟩
  -- both inodes stay in their entries for the rest of the call
  have hip := ht.pin
  have hboth := hip.pin
  refine Ends.post (Q := fun r u => r = some ip ∧
    Kept (fun j => base j + [ip].count j) t held [ip] u) ?_ ?_
  · refine hboth.ilock.bind fun _ u hu => ?_
    rw [Ends.get_bind_iff]
    have hnum : (u.inode ip).inum < t.sb.ninodes := by
      rw [← hu.sb]
      exact hu.steady.inum_lt List.mem_cons_self
    have hrewrite := hu.steady.rewrite List.mem_cons_self rfl
      (g := fun dip => { dip with major, minor, nlink := 1 }) fun _ => ⟨rfl, rfl, rfl⟩
    refine (hu.node hrewrite).bind fun _ v hv => ?_
    have hbase : 0 < base i + [ip].count i + [i].count i := by
      rw [List.count_singleton_self]
      omega
    have hdinum : ∀ {w}, Kept (fun j => base j + [ip].count j + [i].count j) t held [ip, i] w →
        (w.inode i).inum = (u.inode i).inum := fun hw =>
      (hw.lasts i hbase).1.trans (hu.lasts i hbase).1.symm
    have hparent : (u.inode i).inum < t.sb.ninodes := by
      rw [← hu.sb]
      exact hu.steady.inum_lt (by simp)
    have hend : ∀ w, Kept (fun j => base j + [ip].count j + [i].count j) t held [ip, i] w →
        Ends (Fs.dirlink i name (u.inode ip).inum >>= fun r =>
          if r < 0 then throw "create: dirlink"
          else Fs.iunlockput i >>= fun _ => pure (some ip)) w (fun r u => r = some ip ∧
            Kept (fun j => base j + [ip].count j) t held [ip] u) fun _ _ => True := by
      intro w hw
      refine (hw.dirlink (by simp) hnum).bind fun r x hx => ?_
      split
      · trivial
      · exact (hip.unpin hx).swap_locks.iunlockput.bind fun _ _ hy => ⟨rfl, hy⟩
    split
    · refine (hv.relink (· + 1) (by simp) (hdinum hv)).bind fun _ w hw => ?_
      refine (hw.dirlink List.mem_cons_self hnum).bind fun r x hx => ?_
      split
      · trivial
      · refine (hx.dirlink List.mem_cons_self hparent).bind fun r y hy => ?_
        split
        · trivial
        · exact hend y hy
    · exact hend v hv
  · rintro _ u ⟨rfl, hu⟩
    have hbase : 0 < base ip + [ip].count ip := by
      rw [List.count_singleton_self]
      omega
    refine ⟨ht.unpin hu, ?_⟩
    rintro _ ⟨⟩
    rw [hu.type_eq List.mem_cons_self hbase (by rw [hiptype]; exact htype), hiptype]

/-- **`create`** returns its inode locked; for `open` it is no directory. -/
theorem create (h : Kept base s₀ held [] s) {cwd : Fin NINODE} {path : CStr}
    {type major minor : UInt16} (hcwd : 0 < base cwd) (htype : type ≠ 0) :
    IfOk (create cwd path type major minor) s fun r t =>
      Kept base s₀ (heldWith r held) r.toList t ∧
        ∀ ip ∈ r, type = T_FILE → (t.inode ip).type ≠ T_DIR := by
  unfold IfOk Fs.create
  refine (h.namex hcwd).bind fun r t ht => ?_
  cases r with
  | none => exact ⟨ht, fun ip hip => by cases hip⟩
  | some r =>
      replace ht : Kept base s₀ (r.1 :: held) [] _ := ht
      refine ht.ilock.bind fun _ u hu => ?_
      refine (hu.dirlookup List.mem_cons_self).bind ?_
      rintro x v ⟨hv, -⟩
      cases x with
      | none =>
          refine (createIn hv htype).post ?_
          rintro r w ⟨hw, hmade⟩
          refine ⟨hw, fun ip hip hfile => ?_⟩
          rw [hmade ip hip, hfile]
          decide
      | some x =>
          have hswap : Kept base s₀ (r.1 :: x.1 :: held) [r.1] v := swap_held hv
          refine hswap.iunlockput.bind fun _ w hw => hw.ilock.bind fun _ y hy => ?_
          rw [Ends.get_bind_iff]
          split
          next hfile =>
            refine ⟨hy, ?_⟩
            rintro _ ⟨⟩ -
            rcases hfile.2 with heq | heq
            · rw [heq]
              decide
            · rw [heq]
              decide
          next => exact hy.iunlockput.bind fun _ _ hz => ⟨hz, fun ip hip => by cases hip⟩

theorem openInode (h : Kept base s₀ held [] s) {cwd : Fin NINODE} {path : CStr}
    {omode : UInt32} (hcwd : 0 < base cwd) :
    IfOk (openInode cwd path omode) s fun r t =>
      Kept base s₀ (heldWith r held) r.toList t ∧
        ∀ ip ∈ r, omode ≠ O_RDONLY → (t.inode ip).type ≠ T_DIR := by
  unfold IfOk Fs.openInode
  split
  · refine (h.create hcwd (by decide)).post ?_
    rintro r t ⟨ht, hfile⟩
    exact ⟨ht, fun ip hip _ => hfile ip hip rfl⟩
  · refine (h.namei hcwd).bind fun r t ht => ?_
    cases r with
    | none => exact ⟨ht, fun ip hip => by cases hip⟩
    | some ip =>
        replace ht : Kept base s₀ (ip :: held) [] _ := ht
        refine ht.ilock.bind fun _ u hu => ?_
        rw [Ends.get_bind_iff]
        split
        · exact hu.iunlockput.bind fun _ _ hv => ⟨hv, fun ip hip => by cases hip⟩
        next hmode =>
          refine ⟨hu, ?_⟩
          rintro _ ⟨⟩ hne hdir
          exact hmode ⟨hdir, hne⟩

theorem openBad (h : Kept base s₀ (i :: held) [i] s) :
    IfOk (openBad i) s fun _ => Kept base s₀ held [] := by
  unfold IfOk Fs.openBad
  exact h.iunlockput.bind fun _ _ ht => ht.endOp.bind fun _ _ hu => hu

theorem openDone (h : Kept base s₀ held [i] s) {omode : UInt32} :
    IfOk (openDone i omode) s fun _ => Kept base s₀ held [] := by
  unfold IfOk Fs.openDone
  rw [Ends.get_bind_iff]
  split
  · exact (h.node (h.steady.itrunc List.mem_cons_self rfl)).bind fun _ _ ht =>
      ht.iunlock.bind fun _ _ hu => hu.endOp
  · exact h.iunlock.bind fun _ _ hu => hu.endOp

theorem makeNode (h : Kept base s₀ held [] s) {cwd : Fin NINODE} {path : Option CStr}
    {type major minor : UInt16} (hcwd : 0 < base cwd) (htype : type ≠ 0) :
    IfOk (makeNode cwd path type major minor) s fun _ => Kept base s₀ held [] := by
  unfold IfOk Fs.makeNode
  refine h.beginOp.bind fun _ t ht => ?_
  split
  · exact ht.endOp.bind fun _ _ hu => hu
  · refine (ht.create hcwd htype).bind ?_
    rintro r u ⟨hu, -⟩
    cases r with
    | none => exact Ends.bind (endOp hu) fun _ _ hv => hv
    | some ip =>
        replace hu : Kept base s₀ (ip :: held) [ip] _ := hu
        exact hu.iunlockput.bind fun _ _ hv => hv.endOp.bind fun _ _ hw => hw

/-- **`sys_chdir`** gives up the reference to the old directory for one to the new. -/
theorem chdirInode (h : Kept base s₀ held [] s) {cwd : Fin NINODE} {path : Option CStr}
    (hbase : ∀ i, base i = base' i + if i = cwd then 1 else 0) :
    IfOk (chdirInode cwd path) s fun r t =>
      match r with
      | none => Kept base s₀ held [] t
      | some ip => Kept base' s₀ (ip :: held) [] t := by
  have hcwd : 0 < base cwd := by
    rw [hbase cwd, if_pos rfl]
    omega
  unfold IfOk Fs.chdirInode
  refine h.beginOp.bind fun _ t ht => ?_
  split
  · exact ht.endOp.bind fun _ _ hu => hu
  · refine (ht.namei hcwd).bind fun r u hu => ?_
    cases r with
    | none => exact Ends.bind (endOp hu) fun _ _ hv => hv
    | some ip =>
        replace hu : Kept base s₀ (ip :: held) [] _ := hu
        refine hu.ilock.bind fun _ v hv => ?_
        rw [Ends.get_bind_iff]
        split
        · exact hv.iunlockput.bind fun _ _ hw => hw.endOp.bind fun _ _ hx => hx
        · refine hv.iunlock.bind fun _ w hw => ?_
          have hold : Kept base' s₀ (cwd :: ip :: held) [] w := by
            refine hw.rebase (fun j => ?_) fun j hj => ?_
            · by_cases hj : j = cwd
              · rw [hbase j, if_pos hj, hj, List.count_cons_self]
                omega
              · rw [hbase j, if_neg hj, List.count_cons_of_ne (Ne.symm hj)]
                rfl
            · rw [hbase j]
              exact Nat.lt_of_lt_of_le hj (Nat.le_add_right _ _)
          exact hold.iput_free.bind fun _ _ hx => hx.endOp.bind fun _ _ hy => hy

theorem exec (h : Kept base s₀ held [] s) {cwd : Fin NINODE} {path : CStr}
    {reads : List (Nat × Nat)} (hcwd : 0 < base cwd) :
    IfOk (exec cwd path reads) s fun _ => Kept base s₀ held [] := by
  unfold IfOk Fs.exec
  refine h.beginOp.bind fun _ t ht => (ht.namei hcwd).bind fun r u hu => ?_
  cases r with
  | none => exact endOp hu
  | some ip =>
      have hread : ∀ read, Keeps (Kept base s₀ (ip :: held) [ip]) (execRead ip read) := by
        intro read v hv
        refine (hv.readi List.mem_cons_self).bind ?_
        rintro _ _ ⟨rfl, -⟩
        exact hv
      replace hu : Kept base s₀ (ip :: held) [] _ := hu
      refine hu.ilock.bind fun _ v hv => ?_
      refine Ends.bind (Keeps.forM hread v hv) fun _ w hw => ?_
      exact hw.iunlockput.bind fun _ _ hx => hx.endOp

end Kept

end FileSys

end Fs
