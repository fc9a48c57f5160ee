import OSN.Fs.Calls
import OSN.Lib.Headcount

/-!
# Reference counts

`ip->ref` counts the files and the current directories that point to an entry of the
inode table, and what the running system call holds; `f->ref` counts the descriptors
that point to a file, and again what the call holds.  The calls are followed with the
lists of what they hold: what puts a reference down has it on its list.
-/

namespace Fs

open Xv6 (Slot NPROC)

variable {α : Type}

/-! ### The inode table -/

namespace FileSys

/-- Each entry of the table in use has as many references as are kept elsewhere
(`base`) and held by the call, and no inode has two entries in use. -/
structure Counted (base : Fin NINODE → Nat) (held : List (Fin NINODE)) (s : FileSys) : Prop where
  count : ∀ i, (s.inode i).ref = base i + held.count i
  unique : ∀ i j, 0 < (s.inode i).ref → 0 < (s.inode j).ref →
    (s.inode i).dev = (s.inode j).dev → (s.inode i).inum = (s.inode j).inum → i = j

variable {base : Fin NINODE → Nat} {held held' : List (Fin NINODE)} {s t : FileSys}
  {i j : Fin NINODE}

theorem Counted.perm (h : Counted base held s) (hperm : held.Perm held') :
    Counted base held' s where
  count := fun i => by rw [h.count i, hperm.count_eq]
  unique := h.unique

/-- Two references change places. -/
theorem Counted.swap (h : Counted base (i :: j :: held) s) : Counted base (j :: i :: held) s :=
  h.perm (List.Perm.swap j i held)

/-- Nothing that matters for the references changes. -/
theorem Counted.congr (h : Counted base held s)
    (hsame : ∀ i, (t.inode i).ref = (s.inode i).ref ∧ (t.inode i).dev = (s.inode i).dev ∧
      (t.inode i).inum = (s.inode i).inum) : Counted base held t where
  count := fun i => by rw [(hsame i).1, h.count i]
  unique := by
    intro i j hi hj hdev hinum
    rw [(hsame i).1] at hi
    rw [(hsame j).1] at hj
    rw [(hsame i).2.1, (hsame j).2.1] at hdev
    rw [(hsame i).2.2, (hsame j).2.2] at hinum
    exact h.unique i j hi hj hdev hinum

/-- One entry changes, and what is held of it. -/
theorem Counted.change (h : Counted base held s) {ip : Inode}
    (hcount : ip.ref = base i + held'.count i)
    (hothers : ∀ j, j ≠ i → held'.count j = held.count j)
    (hunique : 0 < ip.ref → ∀ j, j ≠ i → 0 < (s.inode j).ref →
      (s.inode j).dev = ip.dev → (s.inode j).inum ≠ ip.inum) :
    Counted base held' (s.setInode i ip) := by
  constructor
  · intro j
    by_cases hj : j = i
    · subst hj
      simpa [FileSys.setInode] using hcount
    · rw [hothers j hj, ← h.count j]
      simp [FileSys.setInode, hj]
  · intro j k hjref hkref hdev hinum
    by_cases hj : j = i
    · by_cases hk : k = i
      · rw [hj, hk]
      · simp only [FileSys.setInode, hj, Function.update_self, ne_eq, hk, not_false_eq_true,
          Function.update_of_ne] at hjref hkref hdev hinum
        exact absurd hinum.symm (hunique hjref k hk hkref hdev.symm)
    · by_cases hk : k = i
      · simp only [FileSys.setInode, hk, Function.update_self, ne_eq, hj, not_false_eq_true,
          Function.update_of_ne] at hjref hkref hdev hinum
        exact absurd hinum (hunique hkref j hj hjref hdev)
      · simp only [FileSys.setInode, ne_eq, hj, hk, not_false_eq_true,
          Function.update_of_ne] at hjref hkref hdev hinum
        exact h.unique j k hjref hkref hdev hinum

/-- An entry keeps its inode; if it is in use it was before. -/
theorem Counted.changeRef (h : Counted base held s) {ip : Inode}
    (hdev : ip.dev = (s.inode i).dev) (hinum : ip.inum = (s.inode i).inum)
    (hlive : 0 < ip.ref → 0 < (s.inode i).ref) (hcount : ip.ref = base i + held'.count i)
    (hothers : ∀ j, j ≠ i → held'.count j = held.count j) :
    Counted base held' (s.setInode i ip) := by
  refine h.change hcount hothers ?_
  intro href j hj hjref hjdev hjinum
  exact hj (h.unique j i hjref (hlive href) (hjdev.trans hdev) (hjinum.trans hinum))

/-- An entry changes in nothing that matters. -/
theorem Counted.setInode (h : Counted base held s) {ip : Inode} (href : ip.ref = (s.inode i).ref)
    (hdev : ip.dev = (s.inode i).dev) (hinum : ip.inum = (s.inode i).inum) :
    Counted base held (s.setInode i ip) :=
  h.changeRef hdev hinum (fun hlive => href ▸ hlive) (href.trans (h.count i)) fun _ _ => rfl

theorem Counted.disk (h : Counted base held s) {x : DiskM α} :
    IfOk (FsM.disk x) s fun _ => Counted base held := by
  refine Ends.component_iff.mpr ?_
  unfold Ends
  split
  · exact h.congr fun _ => ⟨rfl, rfl, rfl⟩
  · trivial

theorem Counted.node (h : Counted base held s) {x : NodeM α} :
    IfOk (FsM.node i x) s fun _ => Counted base held := by
  refine Ends.component_iff.mpr ?_
  unfold Ends
  split
  next n _ =>
    have hset : Counted base held (s.setInode i { s.inode i with toDinode := n.ip }) :=
      h.setInode rfl rfl rfl
    exact hset.congr fun _ => ⟨rfl, rfl, rfl⟩
  next => trivial

/-- What is held of an entry, with one reference more. -/
theorem count_cons_other (hj : j ≠ i) : (i :: held).count j = held.count j :=
  List.count_cons_of_ne (Ne.symm hj)

/-- A reference more to an entry in use. -/
theorem Counted.addRef (h : Counted base held s) (hi : 0 < (s.inode i).ref) :
    Counted base (i :: held) (s.setInode i { s.inode i with ref := (s.inode i).ref + 1 }) := by
  refine h.changeRef rfl rfl (fun _ => hi) ?_ fun j hj => count_cons_other hj
  rw [List.count_cons_self, ← Nat.add_assoc, ← h.count i]

theorem Counted.idup (h : Counted base held s) (hi : 0 < (s.inode i).ref) :
    IfOk (idup i) s fun j t => j = i ∧ Counted base (i :: held) t :=
  ⟨rfl, h.addRef hi⟩

theorem cached_some {dev inum : Nat} (h : s.cached dev inum = some i) :
    0 < (s.inode i).ref ∧ (s.inode i).dev = dev ∧ (s.inode i).inum = inum := by
  simpa using List.find?_some h

theorem cached_none {dev inum : Nat} (h : s.cached dev inum = none) (j : Fin NINODE)
    (href : 0 < (s.inode j).ref) (hdev : (s.inode j).dev = dev) : (s.inode j).inum ≠ inum := by
  have hj := List.find?_eq_none.mp h j (List.mem_finRange j)
  simp only [decide_eq_true_eq, not_and] at hj
  exact hj href hdev

theorem Counted.iget (h : Counted base held s) {dev inum : Nat} :
    IfOk (iget dev inum) s fun i => Counted base (i :: held) := by
  unfold IfOk Fs.iget
  rw [Ends.get_bind_iff]
  split
  next i hcached => exact h.addRef (cached_some hcached).1
  next hcached =>
    split
    next i hfree =>
      have href : (s.inode i).ref = 0 := by simpa using List.find?_some hfree
      have hcount := h.count i
      refine h.change ?_ (fun j hj => count_cons_other hj) ?_
      · rw [List.count_cons_self]
        dsimp only
        omega
      · intro _ j _ hjref hjdev
        exact cached_none hcached j hjref hjdev
    next => trivial

theorem Counted.ialloc (h : Counted base held s) {dev : Nat} {type : UInt16} :
    IfOk (ialloc dev type) s fun i => Counted base (i :: held) := by
  unfold IfOk Fs.ialloc
  rw [Ends.get_bind_iff]
  split
  next inum _ => exact h.disk.bind fun _ t ht => ht.disk.bind fun _ u hu => hu.iget
  next => trivial

theorem Counted.ilock (h : Counted base held s) :
    IfOk (ilock i) s fun _ => Counted base held := by
  unfold IfOk Fs.ilock
  rw [Ends.get_bind_iff]
  dsimp only
  split
  · trivial
  · split
    · trivial
    · split
      · exact h.setInode rfl rfl rfl
      · rw [Ends.set_bind_iff]
        split
        · trivial
        · exact h.setInode rfl rfl rfl

theorem Counted.iunlock (h : Counted base held s) :
    IfOk (iunlock i) s fun _ => Counted base held := by
  unfold IfOk Fs.iunlock
  rw [Ends.get_bind_iff]
  dsimp only
  split
  · trivial
  · exact h.setInode rfl rfl rfl

theorem Counted.ifree (h : Counted base held s) :
    IfOk (ifree i) s fun _ => Counted base held := by
  unfold IfOk Fs.ifree
  rw [Ends.get_bind_iff]
  dsimp only
  split
  · trivial
  · exact h.node.bind fun _ t ht => ht.setInode rfl rfl rfl

/-- **`iput`** gives back a reference. -/
theorem Counted.iput (h : Counted base (i :: held) s) :
    IfOk (iput i) s fun _ => Counted base held := by
  unfold IfOk Fs.iput
  rw [Ends.get_bind_iff]
  dsimp only
  have hdrop : ∀ t, Counted base (i :: held) t →
      Counted base held (t.setInode i { t.inode i with ref := (t.inode i).ref - 1 }) := by
    intro t ht
    have hcount := ht.count i
    rw [List.count_cons_self] at hcount
    refine ht.changeRef rfl rfl ?_ ?_ fun j hj => (count_cons_other hj).symm
    · intro _
      omega
    · dsimp only
      omega
  split
  · exact h.ifree.bind fun _ t ht => hdrop t ht
  · exact hdrop s h

theorem Counted.iunlockput (h : Counted base (i :: held) s) :
    IfOk (iunlockput i) s fun _ => Counted base held := by
  unfold IfOk Fs.iunlockput
  exact h.iunlock.bind fun _ _ ht => ht.iput

/-! ### Directories and paths -/

/-- What is held with what a lookup returns. -/
def heldWith (r : Option (Fin NINODE)) (held : List (Fin NINODE)) : List (Fin NINODE) :=
  r.toList ++ held

theorem Counted.dirlookup (h : Counted base held s) {name : CStr} :
    IfOk (dirlookup i name) s fun r => Counted base (heldWith (r.map Prod.fst) held) := by
  unfold IfOk Fs.dirlookup
  rw [Ends.get_bind_iff]
  dsimp only
  split
  · trivial
  · refine h.node.bind fun r t ht => ?_
    split
    · exact ht.iget.bind fun ip u hu => hu
    · exact ht

theorem Counted.dirlink (h : Counted base held s) {name : CStr} {inum : Nat} :
    IfOk (dirlink i name inum) s fun _ => Counted base held := by
  unfold IfOk Fs.dirlink
  refine h.dirlookup.bind fun r t ht => ?_
  cases r with
  | none =>
      dsimp only
      rw [Ends.get_bind_iff]
      exact ht.node.bind fun _ u hu => hu
  | some x => exact ht.iput.bind fun _ u hu => hu

theorem Counted.isdirempty (h : Counted base held s) :
    IfOk (isdirempty i) s fun _ => Counted base held := by
  unfold IfOk Fs.isdirempty
  rw [Ends.get_bind_iff]
  exact h.node.bind fun _ _ ht => ht

theorem Counted.namexLoop {parent : Bool} {fuel : Nat} {path : CStr} {ip : Fin NINODE}
    (h : Counted base (ip :: held) s) :
    IfOk (namexLoop parent fuel path ip) s fun r =>
      Counted base (heldWith (r.map Prod.fst) held) := by
  induction fuel generalizing path ip s with
  | zero =>
      unfold IfOk Fs.namexLoop
      split
      · split
        · exact h.iput.bind fun _ _ ht => ht
        · exact h
      · trivial
  | succ fuel ih =>
      unfold IfOk Fs.namexLoop
      split
      · split
        · exact h.iput.bind fun _ _ ht => ht
        · exact h
      · refine h.ilock.bind fun _ t ht => ?_
        rw [Ends.get_bind_iff]
        split
        · exact ht.iunlockput.bind fun _ _ hu => hu
        · split
          · exact ht.iunlock.bind fun _ _ hu => hu
          · refine ht.dirlookup.bind fun r u hu => ?_
            cases r with
            | none => exact hu.iunlockput.bind fun _ _ hv => hv
            | some x =>
                have hswap : Counted base (ip :: x.1 :: held) u := hu.swap
                exact hswap.iunlockput.bind fun _ v hv => ih hv

theorem Counted.namex (h : Counted base held s) {parent : Bool} {cwd : Fin NINODE} {path : CStr}
    (hcwd : 0 < base cwd) :
    IfOk (namex parent cwd path) s fun r => Counted base (heldWith (r.map Prod.fst) held) := by
  have hlive : 0 < (s.inode cwd).ref := by
    rw [h.count cwd]
    omega
  unfold IfOk Fs.namex
  split
  · exact h.iget.bind fun ip t ht => ht.namexLoop
  · refine (h.idup hlive).bind fun ip t ht => ?_
    obtain ⟨rfl, ht⟩ := ht
    exact ht.namexLoop

theorem Counted.namei (h : Counted base held s) {cwd : Fin NINODE} {path : CStr}
    (hcwd : 0 < base cwd) : IfOk (namei cwd path) s fun r => Counted base (heldWith r held) := by
  unfold IfOk Fs.namei
  exact (h.namex hcwd).bind fun _ _ ht => ht

/-! ### Calls on the file system -/

/-- A reference is seen as held that was counted elsewhere, or the other way round. -/
theorem Counted.rebase {base' : Fin NINODE → Nat} (h : Counted base held s)
    (hsum : ∀ i, base i + held.count i = base' i + held'.count i) : Counted base' held' s where
  count := fun i => by rw [h.count i, hsum i]
  unique := h.unique

theorem Counted.putInode (h : Counted base (i :: held) s) :
    IfOk (putInode i) s fun _ => Counted base held := by
  unfold IfOk Fs.putInode
  exact h.disk.bind fun _ _ ht => ht.iput.bind fun _ _ hu => hu.disk

theorem Counted.writeChunk (h : Counted base held s) {src : Nat → Option UInt8} {off n1 : Nat} :
    IfOk (writeChunk i src off n1) s fun _ => Counted base held := by
  unfold IfOk Fs.writeChunk
  refine h.disk.bind fun _ t ht => ht.ilock.bind fun _ u hu => ?_
  rw [Ends.get_bind_iff]
  exact hu.node.bind fun _ _ hv => hv.iunlock.bind fun _ _ hw => hw.disk.bind fun _ _ hx => hx

theorem Counted.lockedRead (h : Counted base held s) {dst : Nat → Bool} {off n : Nat} :
    IfOk (lockedRead i dst off n) s fun _ => Counted base held := by
  unfold IfOk Fs.lockedRead
  exact h.ilock.bind fun _ _ ht => ht.node.bind fun _ _ hu => hu.iunlock.bind fun _ _ hv => hv

theorem Counted.filestat (h : Counted base held s) :
    IfOk (filestat i) s fun _ => Counted base held := by
  unfold IfOk Fs.filestat
  exact h.ilock.bind fun _ _ ht => ht.iunlock

theorem Counted.unlinkBack (h : Counted base (i :: held) s) :
    IfOk (unlinkBack i) s fun _ => Counted base held := by
  unfold IfOk Fs.unlinkBack
  refine h.ilock.bind fun _ t ht => ?_
  rw [Ends.get_bind_iff]
  exact ht.node.bind fun _ _ hu => hu.iunlockput.bind fun _ _ hv => hv.disk.bind fun _ _ hw => hw

theorem Counted.linkPaths (h : Counted base held s) {cwd : Fin NINODE} {old new : CStr}
    (hcwd : 0 < base cwd) : IfOk (linkPaths cwd old new) s fun _ => Counted base held := by
  unfold IfOk Fs.linkPaths
  refine h.disk.bind fun _ t ht => (ht.namei hcwd).bind fun r u hu => ?_
  cases r with
  | none => exact hu.disk.bind fun _ _ hv => hv
  | some ip =>
      replace hu : Counted base (ip :: held) _ := hu
      refine hu.ilock.bind fun _ v hv => ?_
      rw [Ends.get_bind_iff]
      split
      · exact hv.iunlockput.bind fun _ _ hw => hw.disk.bind fun _ _ hx => hx
      · refine hv.node.bind fun _ _ hw => hw.iunlock.bind fun _ _ hx => ?_
        refine (hx.namex hcwd).bind fun r y hy => ?_
        cases r with
        | none => exact Counted.unlinkBack hy
        | some r =>
            replace hy : Counted base (r.1 :: ip :: held) _ := hy
            refine hy.ilock.bind fun _ z hz => ?_
            rw [Ends.get_bind_iff]
            split
            · exact hz.iunlockput.bind fun _ _ hdone => hdone.unlinkBack
            · refine hz.dirlink.bind fun _ _ hlinked => ?_
              split
              · exact hlinked.iunlockput.bind fun _ _ hdone => hdone.unlinkBack
              · exact hlinked.iunlockput.bind fun _ _ hput =>
                  hput.iput.bind fun _ _ hdone => hdone.disk.bind fun _ _ hend => hend

theorem Counted.unlinkBad (h : Counted base (i :: held) s) :
    IfOk (unlinkBad i) s fun _ => Counted base held := by
  unfold IfOk Fs.unlinkBad
  exact h.iunlockput.bind fun _ _ ht => ht.disk.bind fun _ _ hu => hu

theorem Counted.dropLink (h : Counted base held s) :
    IfOk (dropLink i) s fun _ => Counted base held := by
  unfold IfOk Fs.dropLink
  rw [Ends.get_bind_iff]
  exact h.node

theorem Counted.removeEntry {off : Nat} (h : Counted base (j :: i :: held) s) :
    IfOk (removeEntry i j off) s fun _ => Counted base held := by
  have hend : ∀ t, Counted base (j :: i :: held) t →
      IfOk (Fs.iunlockput i >>= fun _ => Fs.dropLink j >>= fun _ => Fs.iunlockput j >>= fun _ =>
        FsM.disk endOp >>= fun _ => pure (0 : Int)) t fun _ => Counted base held := by
    intro t ht
    exact ht.swap.iunlockput.bind fun _ _ hu => hu.dropLink.bind fun _ _ hv =>
      hv.iunlockput.bind fun _ _ hw => hw.disk.bind fun _ _ hx => hx
  unfold IfOk Fs.removeEntry
  rw [Ends.get_bind_iff]
  refine h.node.bind fun _ t ht => ?_
  split
  · exact ht.dropLink.bind fun _ u hu => hend u hu
  · exact hend t ht

theorem Counted.unlinkPath (h : Counted base held s) {cwd : Fin NINODE} {path : CStr}
    (hcwd : 0 < base cwd) : IfOk (unlinkPath cwd path) s fun _ => Counted base held := by
  unfold IfOk Fs.unlinkPath
  refine h.disk.bind fun _ t ht => (ht.namex hcwd).bind fun r u hu => ?_
  cases r with
  | none => exact hu.disk.bind fun _ _ hv => hv
  | some r =>
      replace hu : Counted base (r.1 :: held) _ := hu
      refine hu.ilock.bind fun _ v hv => ?_
      split
      · exact hv.unlinkBad
      · refine hv.dirlookup.bind fun x w hw => ?_
        cases x with
        | none => exact Counted.unlinkBad hw
        | some x =>
            replace hw : Counted base (x.1 :: r.1 :: held) _ := hw
            refine hw.ilock.bind fun _ y hy => ?_
            rw [Ends.get_bind_iff]
            split
            · trivial
            · split
              · refine hy.isdirempty.bind fun _ z hz => ?_
                split
                · exact hz.removeEntry
                · exact hz.iunlockput.bind fun _ _ hput => hput.unlinkBad
              · exact hy.removeEntry

theorem Counted.createIn (h : Counted base (i :: held) s) {name : CStr}
    {type major minor : UInt16} :
    IfOk (createIn i name type major minor) s fun r => Counted base (heldWith r held) := by
  unfold IfOk Fs.createIn
  rw [Ends.get_bind_iff]
  refine h.ialloc.bind fun ip t ht => ht.ilock.bind fun _ u hu => ?_
  rw [Ends.get_bind_iff]
  refine hu.node.bind fun _ v hv => ?_
  have hend : ∀ w inum, Counted base (ip :: i :: held) w →
      IfOk (Fs.dirlink i name inum >>= fun r =>
        if r < 0 then throw "create: dirlink"
        else Fs.iunlockput i >>= fun _ => pure (some ip)) w
          fun r => Counted base (heldWith r held) := by
    intro w inum hw
    refine hw.dirlink.bind fun r x hx => ?_
    split
    · trivial
    · exact hx.swap.iunlockput.bind fun _ _ hy => hy
  split
  · refine hv.node.bind fun _ w hw => hw.dirlink.bind fun r x hx => ?_
    split
    · trivial
    · refine hx.dirlink.bind fun r y hy => ?_
      split
      · trivial
      · exact hend y _ hy
  · exact hend v _ hv

theorem Counted.create (h : Counted base held s) {cwd : Fin NINODE} {path : CStr}
    {type major minor : UInt16} (hcwd : 0 < base cwd) :
    IfOk (create cwd path type major minor) s fun r => Counted base (heldWith r held) := by
  unfold IfOk Fs.create
  refine (h.namex hcwd).bind fun r t ht => ?_
  cases r with
  | none => exact ht
  | some r =>
      replace ht : Counted base (r.1 :: held) _ := ht
      refine ht.ilock.bind fun _ u hu => ?_
      refine hu.dirlookup.bind fun x v hv => ?_
      cases x with
      | none => exact Counted.createIn hv
      | some x =>
          have hswap : Counted base (r.1 :: x.1 :: held) v := Counted.swap hv
          refine hswap.iunlockput.bind fun _ w hw => hw.ilock.bind fun _ y hy => ?_
          rw [Ends.get_bind_iff]
          split
          · exact hy
          · exact hy.iunlockput.bind fun _ _ hz => hz

theorem Counted.openInode (h : Counted base held s) {cwd : Fin NINODE} {path : CStr}
    {omode : UInt32} (hcwd : 0 < base cwd) :
    IfOk (openInode cwd path omode) s fun r => Counted base (heldWith r held) := by
  unfold IfOk Fs.openInode
  split
  · exact h.create hcwd
  · refine (h.namei hcwd).bind fun r t ht => ?_
    cases r with
    | none => exact ht
    | some ip =>
        replace ht : Counted base (ip :: held) _ := ht
        refine ht.ilock.bind fun _ u hu => ?_
        rw [Ends.get_bind_iff]
        split
        · exact hu.iunlockput.bind fun _ _ hv => hv
        · exact hu

theorem Counted.openBad (h : Counted base (i :: held) s) :
    IfOk (openBad i) s fun _ => Counted base held := by
  unfold IfOk Fs.openBad
  exact h.iunlockput.bind fun _ _ ht => ht.disk.bind fun _ _ hu => hu

theorem Counted.openDone (h : Counted base held s) {omode : UInt32} :
    IfOk (openDone i omode) s fun _ => Counted base held := by
  unfold IfOk Fs.openDone
  rw [Ends.get_bind_iff]
  split
  · exact h.node.bind fun _ _ ht => ht.iunlock.bind fun _ _ hu => hu.disk
  · exact h.iunlock.bind fun _ _ hu => hu.disk

theorem Counted.makeNode (h : Counted base held s) {cwd : Fin NINODE} {path : Option CStr}
    {type major minor : UInt16} (hcwd : 0 < base cwd) :
    IfOk (makeNode cwd path type major minor) s fun _ => Counted base held := by
  unfold IfOk Fs.makeNode
  refine h.disk.bind fun _ t ht => ?_
  split
  · exact ht.disk.bind fun _ _ hu => hu
  · refine (ht.create hcwd).bind fun r u hu => ?_
    cases r with
    | none => exact hu.disk.bind fun _ _ hv => hv
    | some ip =>
        replace hu : Counted base (ip :: held) _ := hu
        exact hu.iunlockput.bind fun _ _ hv => hv.disk.bind fun _ _ hw => hw

/-- **`sys_chdir`** gives up the reference to the old directory for one to the new. -/
theorem Counted.chdirInode {base' : Fin NINODE → Nat} (h : Counted base held s)
    {cwd : Fin NINODE} {path : Option CStr}
    (hbase : ∀ i, base i = base' i + if i = cwd then 1 else 0) :
    IfOk (chdirInode cwd path) s fun r t =>
      match r with
      | none => Counted base held t
      | some ip => Counted base' (ip :: held) t := by
  have hcwd : 0 < base cwd := by
    rw [hbase cwd, if_pos rfl]
    omega
  unfold IfOk Fs.chdirInode
  refine h.disk.bind fun _ t ht => ?_
  split
  · exact ht.disk.bind fun _ _ hu => hu
  · refine (ht.namei hcwd).bind fun r u hu => ?_
    cases r with
    | none => exact hu.disk.bind fun _ _ hv => hv
    | some ip =>
        replace hu : Counted base (ip :: held) _ := hu
        refine hu.ilock.bind fun _ v hv => ?_
        rw [Ends.get_bind_iff]
        split
        · exact hv.iunlockput.bind fun _ _ hw => hw.disk.bind fun _ _ hx => hx
        · refine hv.iunlock.bind fun _ w hw => ?_
          have hold : Counted base' (cwd :: ip :: held) w := by
            apply hw.rebase
            intro j
            by_cases hj : j = cwd
            · rw [hbase j, if_pos hj, hj, List.count_cons_self]
              omega
            · rw [hbase j, if_neg hj, List.count_cons_of_ne (Ne.symm hj)]
              rfl
          exact hold.iput.bind fun _ _ hx => hx.disk.bind fun _ _ hy => hy

theorem Counted.exec (h : Counted base held s) {cwd : Fin NINODE} {path : CStr}
    {reads : List (Nat × Nat)} (hcwd : 0 < base cwd) :
    IfOk (exec cwd path reads) s fun _ => Counted base held := by
  unfold IfOk Fs.exec
  refine h.disk.bind fun _ t ht => (ht.namei hcwd).bind fun r u hu => ?_
  cases r with
  | none => exact hu.disk
  | some ip =>
      have hread : ∀ read, Keeps (Counted base (ip :: held)) (execRead ip read) :=
        fun read v hv => hv.node.bind fun _ _ hw => hw
      replace hu : Counted base (ip :: held) _ := hu
      refine hu.ilock.bind fun _ v hv => ?_
      refine Ends.bind (Keeps.forM hread v hv) fun _ w hw => ?_
      exact hw.iunlockput.bind fun _ _ hx => hx.disk

end FileSys

/-! ### Files and processes -/

/-- The file points to an entry of the inode table. -/
def File.Uses (i : Fin NINODE) (ff : File) : Prop :=
  (ff.type = .inode ∨ ff.type = .device) ∧ ff.ip = i

/-- The file is the read end, or the write end, of the pipe in a page. -/
def File.IsEnd (pg : Nat) (writable : Bool) (ff : File) : Prop :=
  ff.type = .pipe ∧ ff.pipe = pg ∧ ff.writable = writable

instance (i : Fin NINODE) : DecidablePred (File.Uses i) := fun ff => by
  unfold File.Uses
  infer_instance

instance (pg : Nat) (writable : Bool) : DecidablePred (File.IsEnd pg writable) := fun ff => by
  unfold File.IsEnd
  infer_instance

/-- Code that does not use a page that has been freed, and what holds when it returns. -/
abbrev Safe (x : SysM α) (s : Sys) (Q : α → Sys → Prop) : Prop :=
  Ends x s Q fun e _ => ∀ pg, e ≠ .freed pg

namespace Sys

/-- All descriptors. -/
def slots (s : Sys) : Slot × Fin NOFILE → Option (Fin NFILE) := fun x => (s.proc x.1).ofile x.2

/-- The files and the current directories that point to an entry of the inode table. -/
def users (s : Sys) (i : Fin NINODE) : Nat :=
  headcount s.file (File.Uses i) + headcount s.proc fun pr => pr.cwd = some i

/-- The files that are the read end, or the write end, of a pipe. -/
def ends (s : Sys) (pg : Nat) (writable : Bool) : Nat := headcount s.file (File.IsEnd pg writable)

/-- A page holds a pipe just as long as an end of it is open, and knows which ones. -/
def PipeOk (pi : Option Pipe) (readers writers : Nat) : Prop :=
  match pi with
  | none => readers = 0 ∧ writers = 0
  | some pi =>
      readers = (if pi.readopen then 1 else 0) ∧ writers = (if pi.writeopen then 1 else 0) ∧
        (pi.readopen = true ∨ pi.writeopen = true)

/-- The references of the system while some files and inodes are held. -/
structure Books (files : List (Fin NFILE)) (inodes : List (Fin NINODE)) (s : Sys) : Prop where
  file : ∀ f, (s.file f).ref = headcount s.slots (· = some f) + files.count f
  inode : FileSys.Counted s.users inodes s.toFileSys
  idle : ∀ f, (s.file f).ref = 0 → (s.file f).type = .none
  pipes : ∀ pg, PipeOk (s.pipe pg) (s.ends pg false) (s.ends pg true)
  closed : ∀ q, (s.proc q).state = .unused ∨ (s.proc q).state = .zombie →
    (∀ fd, (s.proc q).ofile fd = none) ∧ (s.proc q).cwd = none

/-- Process `p` runs and holds them. -/
structure Refs (p : Slot) (files : List (Fin NFILE)) (inodes : List (Fin NINODE)) (s : Sys) :
    Prop extends Books files inodes s where
  runs : (s.proc p).state = .runnable

variable {p q : Slot} {files files' : List (Fin NFILE)} {inodes inodes' : List (Fin NINODE)}
  {s t : Sys} {f : Fin NFILE} {fd : Fin NOFILE} {ff : File}

theorem Refs.perm (h : Refs p files inodes s) (hperm : files.Perm files') :
    Refs p files' inodes s :=
  { h with file := fun f => by rw [h.file f, hperm.count_eq] }

theorem Refs.swap {f g : Fin NFILE} (h : Refs p (f :: g :: files) inodes s) :
    Refs p (g :: f :: files) inodes s :=
  h.perm (List.Perm.swap g f files)

/-- Only the file system changes. -/
theorem fs_ifOk {x : FsM α} {R : α → FileSys → Prop} (hx : IfOk x s.toFileSys R) :
    Safe (SysM.fs x) s fun a t => ∃ g, t = { s with toFileSys := g } ∧ R a g := by
  refine Ends.adaptExcept_iff.mpr (Ends.component_iff.mpr ?_)
  exact Ends.mono hx (fun a g hg => ⟨g, rfl, hg⟩) fun _ _ _ => nofun

/-- With the counts of the inodes of another file system. -/
theorem Refs.setFs (h : Refs p files inodes s) {g : FileSys}
    (hg : FileSys.Counted s.users inodes' g) : Refs p files inodes' { s with toFileSys := g } :=
  ⟨⟨h.file, hg, h.idle, h.pipes, h.closed⟩, h.runs⟩

/-- Code on the file system that keeps the counts. -/
theorem Refs.keep (h : Refs p files inodes s) {x : FsM α}
    (hx : IfOk x s.toFileSys fun _ => FileSys.Counted s.users inodes') :
    Safe (SysM.fs x) s fun _ => Refs p files inodes' :=
  (fs_ifOk hx).post fun _ _ hfs => by
    obtain ⟨g, rfl, hg⟩ := hfs
    exact h.setFs hg

/-- The current directory of a process is in use. -/
theorem users_pos {i : Fin NINODE} (hq : (s.proc q).cwd = some i) : 0 < s.users i := by
  have hpos := headcount_pos (f := s.proc) (Q := fun pr => pr.cwd = some i) (p := q) hq
  unfold users
  omega

/-! #### What changes with a file -/

/-- A file changes only in what no count looks at. -/
structure SameUse (ff ff' : File) : Prop where
  type : ff'.type = ff.type
  pipe : ff'.pipe = ff.pipe
  writable : ff'.writable = ff.writable
  ip : ff'.ip = ff.ip

theorem SameUse.uses {ff ff' : File} (h : SameUse ff ff') {i : Fin NINODE} :
    File.Uses i ff' ↔ File.Uses i ff := by
  unfold File.Uses
  rw [h.type, h.ip]

theorem SameUse.isEnd {ff ff' : File} (h : SameUse ff ff') {pg : Nat} {w : Bool} :
    File.IsEnd pg w ff' ↔ File.IsEnd pg w ff := by
  unfold File.IsEnd
  rw [h.type, h.pipe, h.writable]

theorem setFile_users (h : SameUse (s.file f) ff) : (s.setFile f ff).users = s.users := by
  funext i
  unfold users
  rw [show (s.setFile f ff).file = Function.update s.file f ff from rfl,
    headcount_update_same h.uses]
  rfl

theorem setFile_ends (h : SameUse (s.file f) ff) {pg : Nat} {w : Bool} :
    (s.setFile f ff).ends pg w = s.ends pg w := by
  unfold ends
  rw [show (s.setFile f ff).file = Function.update s.file f ff from rfl,
    headcount_update_same h.isEnd]

/-- The reference count of a file changes, with what the call holds of it. -/
theorem Refs.setRef (h : Refs p files inodes s) (huse : SameUse (s.file f) ff)
    (hcount : ff.ref = headcount s.slots (· = some f) + files'.count f)
    (hothers : ∀ g, g ≠ f → files'.count g = files.count g)
    (hidle : ff.ref = 0 → ff.type = .none) : Refs p files' inodes (s.setFile f ff) := by
  refine ⟨⟨?_, ?_, ?_, ?_, h.closed⟩, h.runs⟩
  · intro g
    rw [show (s.setFile f ff).slots = s.slots from rfl]
    by_cases hg : g = f
    · subst hg
      simpa [setFile] using hcount
    · have hold := h.file g
      rw [← hothers g hg] at hold
      simpa [setFile, hg] using hold
  · rw [setFile_users huse]
    exact h.inode
  · intro g
    by_cases hg : g = f
    · subst hg
      simpa [setFile] using hidle
    · simpa [setFile, hg] using h.idle g
  · intro pg
    rw [setFile_ends huse, setFile_ends huse]
    exact h.pipes pg

theorem count_cons_file {g : Fin NFILE} (hg : g ≠ f) : (f :: files).count g = files.count g :=
  List.count_cons_of_ne (Ne.symm hg)

theorem Refs.take (h : Refs p files inodes s) (hf : (s.file f).ref = 0) :
    Refs p (f :: files) inodes (s.setFile f { s.file f with ref := 1 }) := by
  have hcount := h.file f
  refine h.setRef ⟨rfl, rfl, rfl, rfl⟩ ?_ (fun g hg => count_cons_file hg) ?_
  · rw [List.count_cons_self]
    dsimp only
    omega
  · intro hzero
    cases hzero

theorem filealloc_eq : Safe filealloc s fun r t =>
      match r with
      | none => t = s
      | some f => (s.file f).ref = 0 ∧ t = s.setFile f { s.file f with ref := 1 } := by
  unfold Safe Fs.filealloc
  rw [Ends.get_bind_iff]
  split
  next f hfree => exact ⟨by simpa using List.find?_some hfree, rfl⟩
  next => rfl

theorem Refs.dup (h : Refs p files inodes s) :
    Refs p (f :: files) inodes (s.setFile f { s.file f with ref := (s.file f).ref + 1 }) := by
  have hcount := h.file f
  refine h.setRef ⟨rfl, rfl, rfl, rfl⟩ ?_ (fun g hg => count_cons_file hg) ?_
  · rw [List.count_cons_self]
    dsimp only
    omega
  · intro hzero
    cases hzero

theorem filedup_eq : Safe (filedup f) s fun _ t =>
    0 < (s.file f).ref ∧ t = s.setFile f { s.file f with ref := (s.file f).ref + 1 } := by
  unfold Safe Fs.filedup
  rw [Ends.get_bind_iff]
  split
  · exact nofun
  next hlive => exact ⟨by omega, rfl⟩

/-! #### What changes with a descriptor -/

theorem setOfile_slots {x : Option (Fin NFILE)} :
    (s.setOfile q fd x).slots = Function.update s.slots (q, fd) x := by
  funext ⟨r, gd⟩
  by_cases hr : r = q
  · subst hr
    by_cases hgd : gd = fd
    · subst hgd
      simp [slots, setOfile, setProc]
    · simp [slots, setOfile, setProc, hgd]
  · simp [slots, setOfile, setProc, hr]

theorem setOfile_users {x : Option (Fin NFILE)} : (s.setOfile q fd x).users = s.users := by
  funext i
  unfold users
  congr 1
  apply headcount_congr
  intro r
  by_cases hr : r = q
  · subst hr
    simp [setOfile, setProc]
  · simp [setOfile, setProc, hr]

theorem setOfile_state {x : Option (Fin NFILE)} {r : Slot} :
    ((s.setOfile q fd x).proc r).state = (s.proc r).state := by
  by_cases hr : r = q
  · subst hr
    simp [setOfile, setProc]
  · simp [setOfile, setProc, hr]

/-- The process is neither unused nor a zombie. -/
def Active (s : Sys) (q : Slot) : Prop := (s.proc q).state ≠ .unused ∧ (s.proc q).state ≠ .zombie

theorem Refs.active (h : Refs p files inodes s) : s.Active p := by
  unfold Active
  rw [h.runs]
  exact ⟨by decide, by decide⟩

/-- A descriptor changes, with what the call holds. -/
theorem Refs.setOfile (h : Refs p files inodes s) {x : Option (Fin NFILE)} (hq : s.Active q)
    (hcount : ∀ f, headcount (Function.update s.slots (q, fd) x) (· = some f) + files'.count f =
      headcount s.slots (· = some f) + files.count f) :
    Refs p files' inodes (s.setOfile q fd x) := by
  refine ⟨⟨?_, ?_, h.idle, h.pipes, ?_⟩, ?_⟩
  · intro f
    rw [setOfile_slots, hcount f]
    exact h.file f
  · rw [setOfile_users]
    exact h.inode
  · intro r hr
    rw [setOfile_state] at hr
    have hrq : r ≠ q := by
      rintro rfl
      exact hr.elim hq.1 hq.2
    have hproc : (s.setOfile q fd x).proc r = s.proc r := by
      simp [Sys.setOfile, setProc, hrq]
    rw [hproc]
    exact h.closed r hr
  · rw [setOfile_state]
    exact h.runs

/-- A file that the call holds gets a descriptor. -/
theorem Refs.place (h : Refs p (f :: files) inodes s) (hq : s.Active q)
    (hfree : (s.proc q).ofile fd = none) : Refs p files inodes (s.setOfile q fd (some f)) := by
  apply h.setOfile hq
  intro g
  have hslot : s.slots (q, fd) = none := hfree
  by_cases hg : g = f
  · subst hg
    have henter := headcount_update_enter (f := s.slots) (p := (q, fd)) (Q := (· = some g))
      (a := some g) (by simp [hslot]) rfl
    rw [henter, List.count_cons_self]
    omega
  · have hsame := headcount_update_same (f := s.slots) (p := (q, fd)) (Q := (· = some g))
      (a := some f) (by simp [hslot, Ne.symm hg])
    rw [hsame, count_cons_file hg]

/-- The file of a descriptor is taken into the hand. -/
theorem Refs.unplace (h : Refs p files inodes s) (hq : s.Active q)
    (hf : (s.proc q).ofile fd = some f) : Refs p (f :: files) inodes (s.setOfile q fd none) := by
  apply h.setOfile hq
  intro g
  have hslot : s.slots (q, fd) = some f := hf
  by_cases hg : g = f
  · subst hg
    have hleave := headcount_update_leave (f := s.slots) (p := (q, fd)) (Q := (· = some g))
      (a := none) (by simp [hslot]) (by simp)
    rw [List.count_cons_self]
    omega
  · have hsame := headcount_update_same (f := s.slots) (p := (q, fd)) (Q := (· = some g))
      (a := none) (by simp [hslot, Ne.symm hg])
    rw [hsame, count_cons_file hg]

theorem fdalloc_eq : Safe (fdalloc p f) s fun r t =>
    match r with
    | none => t = s
    | some fd => (s.proc p).ofile fd = none ∧ t = s.setOfile p fd (some f) := by
  unfold Safe Fs.fdalloc
  rw [Ends.get_bind_iff]
  split
  next fd hfree => exact ⟨by simpa using List.find?_some hfree, rfl⟩
  next => rfl

/-! #### Closing a file -/

/-- The last reference to a file is given up. -/
def closing (s : Sys) (f : Fin NFILE) : Sys :=
  s.setFile f { s.file f with ref := 0, type := .none }

theorem closing_users {i : Fin NINODE} :
    (s.closing f).users i + (if File.Uses i (s.file f) then 1 else 0) = s.users i := by
  have hmove := headcount_update (Q := File.Uses i) s.file f
    { s.file f with ref := 0, type := .none }
  have hnone : ¬ File.Uses i { s.file f with ref := 0, type := .none } := by
    simp [File.Uses]
  rw [if_neg hnone] at hmove
  have husers : (s.closing f).users i = headcount (Function.update s.file f
    { s.file f with ref := 0, type := .none }) (File.Uses i) +
      headcount s.proc fun pr => pr.cwd = some i := rfl
  rw [husers, users]
  omega

theorem closing_ends (pg : Nat) (w : Bool) :
    (s.closing f).ends pg w + (if File.IsEnd pg w (s.file f) then 1 else 0) = s.ends pg w := by
  have hmove := headcount_update (Q := File.IsEnd pg w) s.file f
    { s.file f with ref := 0, type := .none }
  have hnone : ¬ File.IsEnd pg w { s.file f with ref := 0, type := .none } := by
    simp [File.IsEnd]
  rw [if_neg hnone] at hmove
  exact hmove

/-- The counts after a file is closed; the call holds the inode of the file, and the
pipe of the file has to be put right. -/
theorem Refs.closing (h : Refs p (f :: files) inodes s) (hlast : (s.file f).ref = 1)
    (hinodes : ∀ i, inodes'.count i =
      inodes.count i + if File.Uses i (s.file f) then 1 else 0) (pipe : Nat → Option Pipe)
    (hpipes : ∀ pg, PipeOk (pipe pg) ((s.closing f).ends pg false) ((s.closing f).ends pg true)) :
    Refs p files inodes' { s.closing f with pipe } := by
  have hcount := h.file f
  rw [List.count_cons_self] at hcount
  refine ⟨⟨?_, ?_, ?_, hpipes, h.closed⟩, h.runs⟩
  · intro g
    have hslots : ({ s.closing f with pipe } : Sys).slots = s.slots := rfl
    rw [hslots]
    by_cases hg : g = f
    · subst hg
      simp only [Sys.closing, setFile, Function.update_self]
      omega
    · have hold := h.file g
      rw [count_cons_file hg] at hold
      simpa [Sys.closing, setFile, hg] using hold
  · apply h.inode.rebase
    intro i
    have husers := closing_users (s := s) (f := f) (i := i)
    have hsame : ({ s.closing f with pipe } : Sys).users = (s.closing f).users := rfl
    rw [hsame, hinodes i]
    omega
  · intro g
    by_cases hg : g = f
    · subst hg
      simp [Sys.closing, setFile]
    · simpa [Sys.closing, setFile, hg] using h.idle g

/-- The pipe of an end that is closed. -/
theorem PipeOk.close {pi : Pipe} {readers writers readers' writers' : Nat} {w : Bool}
    (h : PipeOk (some pi) readers writers)
    (hreaders : readers' + (if w = false then 1 else 0) = readers)
    (hwriters : writers' + (if w = true then 1 else 0) = writers) :
    let pi' : Pipe := if w then { pi with writeopen := false } else { pi with readopen := false }
    PipeOk (if pi'.readopen = false ∧ pi'.writeopen = false then none else some pi')
      readers' writers' := by
  obtain ⟨hread, hwrite, hopen⟩ := h
  obtain ⟨readopen, writeopen⟩ := pi
  cases w <;> cases readopen <;> cases writeopen <;> simp_all [PipeOk]

/-- **`pipeclose`** keeps the pipes in step with the file table. -/
theorem Refs.closePipe (h : Refs p (f :: files) inodes s) (hlast : (s.file f).ref = 1)
    (htype : (s.file f).type = .pipe) :
    Safe (pipeclose (s.file f).pipe (s.file f).writable) (s.closing f)
      fun _ => Refs p files inodes := by
  have hnouse : ∀ i, ¬ File.Uses i (s.file f) := fun i => by simp [File.Uses, htype]
  have hend : ∀ pg w, File.IsEnd pg w (s.file f) ↔ (s.file f).pipe = pg ∧ (s.file f).writable = w :=
    fun pg w => by simp [File.IsEnd, htype]
  have hmove : ∀ pg w, (s.closing f).ends pg w +
      (if (s.file f).pipe = pg ∧ (s.file f).writable = w then 1 else 0) = s.ends pg w := by
    intro pg w
    have hclosing := closing_ends (s := s) (f := f) pg w
    simpa only [hend] using hclosing
  -- the pipes of the other pages have lost no end
  have hfinish : ∀ pi, PipeOk pi ((s.closing f).ends (s.file f).pipe false)
      ((s.closing f).ends (s.file f).pipe true) →
      Refs p files inodes ((s.closing f).setPipe (s.file f).pipe pi) := by
    intro pi hok
    refine h.closing hlast (fun i => by simp [hnouse i]) _ ?_
    intro pg
    by_cases hpg : pg = (s.file f).pipe
    · subst hpg
      rw [Function.update_self]
      exact hok
    · have hsame : ∀ w, (s.closing f).ends pg w = s.ends pg w := by
        intro w
        simpa [Ne.symm hpg] using hmove pg w
      rw [Function.update_of_ne hpg, hsame, hsame]
      exact h.pipes pg
  unfold Safe Fs.pipeclose
  rw [Ends.get_bind_iff]
  split
  next hpi =>
    -- the file is an end of the pipe, so the page has not been freed
    have hok := h.pipes (s.file f).pipe
    rw [show s.pipe (s.file f).pipe = none from hpi] at hok
    have hopen := headcount_pos (f := s.file) (p := f)
      ((hend (s.file f).pipe (s.file f).writable).mpr ⟨rfl, rfl⟩)
    have hno : s.ends (s.file f).pipe (s.file f).writable = 0 := by
      cases (s.file f).writable
      · exact hok.1
      · exact hok.2
    exact absurd hno (Nat.ne_of_gt hopen)
  next pi hpi =>
    have hok := h.pipes (s.file f).pipe
    rw [show s.pipe (s.file f).pipe = some pi from hpi] at hok
    have hreaders := hmove (s.file f).pipe false
    have hwriters := hmove (s.file f).pipe true
    simp only [true_and] at hreaders hwriters
    have hclose := hok.close hreaders hwriters
    dsimp only at hclose ⊢
    generalize (if (s.file f).writable = true then ({ pi with writeopen := false } : Pipe)
      else { pi with readopen := false }) = pi' at hclose ⊢
    by_cases hboth : pi'.readopen = false ∧ pi'.writeopen = false
    · rw [if_pos hboth] at hclose ⊢
      exact hfinish none hclose
    · rw [if_neg hboth] at hclose ⊢
      exact hfinish _ hclose

/-- The file of an inode or a device is closed; its inode has to be put. -/
theorem Refs.closeInode (h : Refs p (f :: files) inodes s) (hlast : (s.file f).ref = 1)
    (htype : (s.file f).type = .inode ∨ (s.file f).type = .device) :
    Refs p files ((s.file f).ip :: inodes) (s.closing f) := by
  have hends : ∀ pg w, (s.closing f).ends pg w = s.ends pg w := by
    intro pg w
    have hno : ¬ File.IsEnd pg w (s.file f) := by
      rcases htype with htype | htype <;> simp [File.IsEnd, htype]
    simpa [hno] using closing_ends (s := s) (f := f) pg w
  refine h.closing hlast ?_ s.pipe ?_
  · intro i
    rw [List.count_cons]
    simp [File.Uses, htype]
  · intro pg
    rw [hends, hends]
    exact h.pipes pg

/-- **`fileclose`** gives up a reference. -/
theorem Refs.fileclose (h : Refs p (f :: files) inodes s) :
    Safe (fileclose f) s fun _ => Refs p files inodes := by
  have hcount := h.file f
  rw [List.count_cons_self] at hcount
  unfold Safe Fs.fileclose
  rw [Ends.get_bind_iff]
  dsimp only
  split
  next => exact nofun
  next hlive =>
    split
    next hmore =>
      refine h.setRef ⟨rfl, rfl, rfl, rfl⟩ ?_ (fun g hg => (count_cons_file hg).symm) ?_
      · dsimp only
        omega
      · intro hzero
        dsimp only at hzero
        omega
    next hlast =>
      have hone : (s.file f).ref = 1 := by omega
      rw [Ends.set_bind_iff]
      have hput : (s.file f).type = .inode ∨ (s.file f).type = .device →
          Safe (SysM.fs (putInode (s.file f).ip)) (s.closing f) fun _ => Refs p files inodes := by
        intro htype
        have hclosing := h.closeInode hone htype
        exact hclosing.keep hclosing.inode.putInode
      split
      next htype => exact h.closePipe hone htype
      next htype => exact hput (Or.inl htype)
      next htype => exact hput (Or.inr htype)
      next htype =>
        have hends : ∀ pg w, (s.closing f).ends pg w = s.ends pg w := by
          intro pg w
          have hno : ¬ File.IsEnd pg w (s.file f) := by simp [File.IsEnd, htype]
          simpa [hno] using closing_ends (s := s) (f := f) pg w
        refine h.closing hone (fun i => by simp [File.Uses, htype]) s.pipe fun pg => ?_
        rw [hends, hends]
        exact h.pipes pg

/-! #### The calls -/

theorem argfd_eq {n : Int} : Safe (argfd p n) s fun r t =>
    t = s ∧ ∀ fd f, r = some (fd, f) → (s.proc p).ofile fd = some f := by
  unfold Safe Fs.argfd
  rw [Ends.get_bind_iff]
  split
  · refine ⟨rfl, ?_⟩
    intro fd f hr
    simp only [Option.map_eq_some_iff, Prod.mk.injEq] at hr
    obtain ⟨g, hg, rfl, rfl⟩ := hr
    exact hg
  · exact ⟨rfl, fun fd f hr => by cases hr⟩

/-- A file with a descriptor is open. -/
theorem Books.live (h : Books files inodes s) (hf : (s.proc q).ofile fd = some f) :
    0 < (s.file f).ref := by
  have hpos := headcount_pos (f := s.slots) (Q := (· = some f)) (p := (q, fd)) hf
  rw [h.file f]
  omega

theorem Refs.sysDup (h : Refs p files inodes s) {n : Int} :
    Safe (sysDup p n) s fun _ => Refs p files inodes := by
  unfold Safe Fs.sysDup
  refine argfd_eq.bind fun r t ht => ?_
  obtain ⟨rfl, hr⟩ := ht
  cases r with
  | none => exact h
  | some x =>
      have hlive := h.live (hr x.1 x.2 rfl)
      refine (fdalloc_eq (f := x.2)).bind fun r u hu => ?_
      cases r with
      | none =>
          obtain rfl := hu
          exact h
      | some fd =>
          obtain ⟨hfree, rfl⟩ := hu
          refine filedup_eq.bind fun _ v hv => ?_
          obtain ⟨-, rfl⟩ := hv
          exact h.dup.place h.active hfree

/-- The offset of a file changes. -/
theorem Refs.setOff (h : Refs p files inodes s) {off : Nat} :
    Refs p files inodes (s.setFile f { s.file f with off }) :=
  h.setRef ⟨rfl, rfl, rfl, rfl⟩ (h.file f) (fun _ _ => rfl) (h.idle f)

theorem Refs.filereadInode (h : Refs p files inodes s) {dst : Nat → Bool} {n : Nat} :
    Safe (filereadInode f dst n) s fun _ => Refs p files inodes := by
  unfold Safe Fs.filereadInode
  rw [Ends.get_bind_iff]
  refine (h.keep h.inode.lockedRead).bind fun r t ht => ?_
  split
  split
  · exact ht.setOff
  · exact ht

theorem Refs.sysRead (h : Refs p files inodes s) {n : Int} {dst : Nat → Bool} {m : Int32} :
    Safe (sysRead p n dst m) s fun _ => Refs p files inodes := by
  unfold Safe Fs.sysRead
  refine argfd_eq.bind fun r t ht => ?_
  obtain ⟨rfl, -⟩ := ht
  cases r with
  | none => exact h
  | some x =>
      dsimp only
      rw [Ends.get_bind_iff]
      split
      · exact h
      · split
        · exact h.filereadInode.bind fun _ _ ht => ht
        · exact nofun
        · exact h
        · exact h

theorem Refs.writeChunks (h : Refs p files inodes s) {src : Nat → Option UInt8} {n fuel i : Nat} :
    Safe (writeChunks f src n fuel i) s fun _ => Refs p files inodes := by
  induction fuel generalizing s i with
  | zero => exact h
  | succ fuel ih =>
      unfold Safe Fs.writeChunks
      split
      · dsimp only
        rw [Ends.get_bind_iff]
        refine (h.keep h.inode.writeChunk).bind fun r t ht => ?_
        split
        · split
          · exact ht.setOff
          · exact ih ht.setOff
        · split
          · exact ht
          · exact ih ht
      · exact h

theorem Refs.sysWrite (h : Refs p files inodes s) {n : Int} {src : Nat → Option UInt8}
    {m : Int32} : Safe (sysWrite p n src m) s fun _ => Refs p files inodes := by
  unfold Safe Fs.sysWrite
  refine argfd_eq.bind fun r t ht => ?_
  obtain ⟨rfl, -⟩ := ht
  cases r with
  | none => exact h
  | some x =>
      dsimp only
      rw [Ends.get_bind_iff]
      split
      · exact h
      · split
        · exact h.writeChunks.bind fun _ _ ht => ht
        · exact nofun
        · exact h
        · exact h

theorem Refs.sysClose (h : Refs p files inodes s) {n : Int} :
    Safe (sysClose p n) s fun _ => Refs p files inodes := by
  unfold Safe Fs.sysClose
  refine argfd_eq.bind fun r t ht => ?_
  obtain ⟨rfl, hr⟩ := ht
  cases r with
  | none => exact h
  | some x =>
      dsimp only
      rw [Ends.modify_bind_iff]
      exact (h.unplace h.active (hr x.1 x.2 rfl)).fileclose.bind fun _ _ ht => ht

theorem Refs.sysFstat (h : Refs p files inodes s) {n : Int} :
    Safe (sysFstat p n) s fun _ => Refs p files inodes := by
  unfold Safe Fs.sysFstat
  refine argfd_eq.bind fun r t ht => ?_
  obtain ⟨rfl, -⟩ := ht
  cases r with
  | none => exact h
  | some x =>
      dsimp only
      rw [Ends.get_bind_iff]
      split
      · exact (h.keep h.inode.filestat).bind fun _ _ ht => ht
      · exact (h.keep h.inode.filestat).bind fun _ _ ht => ht
      · exact h
      · exact h

/-- A new file is made to point to an inode that the call holds. -/
theorem Refs.fill (h : Refs p files (j :: inodes) s) (hnew : (s.file f).type = .none)
    (href : ff.ref = (s.file f).ref) (hlive : ff.ref ≠ 0) (huses : File.Uses j ff) :
    Refs p files inodes (s.setFile f ff) := by
  have hnot : ∀ i, ¬ File.Uses i (s.file f) := fun i => by simp [File.Uses, hnew]
  refine ⟨⟨?_, ?_, ?_, ?_, h.closed⟩, h.runs⟩
  · intro g
    rw [show (s.setFile f ff).slots = s.slots from rfl]
    by_cases hg : g = f
    · subst hg
      simpa [setFile, href] using h.file g
    · simpa [setFile, hg] using h.file g
  · apply h.inode.rebase
    intro i
    have hmove := headcount_update (Q := File.Uses i) s.file f ff
    have husers : (s.setFile f ff).users i = headcount (Function.update s.file f ff) (File.Uses i) +
      headcount s.proc fun pr => pr.cwd = some i := rfl
    rw [if_neg (hnot i)] at hmove
    rw [husers, users]
    by_cases hi : i = j
    · subst hi
      rw [if_pos huses] at hmove
      rw [List.count_cons_self]
      omega
    · have hother : ¬ File.Uses i ff := fun hi' => hi (hi'.2.symm.trans huses.2)
      rw [if_neg hother] at hmove
      rw [List.count_cons_of_ne (Ne.symm hi)]
      omega
  · intro g
    by_cases hg : g = f
    · subst hg
      intro hzero
      exact absurd (by simpa [setFile] using hzero) hlive
    · simpa [setFile, hg] using h.idle g
  · intro pg
    have hends : ∀ w, (s.setFile f ff).ends pg w = s.ends pg w := by
      intro w
      refine headcount_update_same ?_
      rcases huses.1 with htype | htype <;> simp [File.IsEnd, hnew, htype]
    rw [hends, hends]
    exact h.pipes pg

theorem Refs.openPath (h : Refs p files inodes s) {cwd : Fin NINODE} {path : CStr}
    {omode : UInt32} (hcwd : (s.proc p).cwd = some cwd) :
    Safe (openPath p cwd path omode) s fun _ => Refs p files inodes := by
  unfold Safe Fs.openPath
  refine (fs_ifOk h.inode.disk).bind fun _ t ht => ?_
  obtain ⟨g, rfl, hg⟩ := ht
  refine (fs_ifOk (hg.openInode (users_pos hcwd))).bind fun r u hu => ?_
  obtain ⟨g', rfl, hg'⟩ := hu
  cases r with
  | none => exact ((h.setFs hg').keep hg'.disk).bind fun _ _ hv => hv
  | some ip =>
      have hopen : Refs p files (ip :: inodes) { s with toFileSys := g' } := h.setFs hg'
      generalize { s with toFileSys := g' } = u at hopen ⊢
      dsimp only
      rw [Ends.get_bind_iff]
      split
      · exact hopen.keep hopen.inode.openBad
      · refine filealloc_eq.bind fun r v hv => ?_
        cases r with
        | none =>
            obtain rfl := hv
            exact hopen.keep hopen.inode.openBad
        | some f =>
            obtain ⟨hfree, rfl⟩ := hv
            have hnew : (u.file f).type = .none := hopen.idle f hfree
            have htake := hopen.take hfree
            refine (fdalloc_eq (f := f)).bind fun r w hw => ?_
            cases r with
            | none =>
                obtain rfl := hw
                exact htake.fileclose.bind fun _ x hx => hx.keep hx.inode.openBad
            | some fd =>
                obtain ⟨hfd, rfl⟩ := hw
                have hplaced := htake.place htake.active hfd
                dsimp only
                rw [Ends.modify_bind_iff]
                have hfile : ((u.setFile f { u.file f with ref := 1 }).setOfile p fd
                    (some f)).file f = { u.file f with ref := 1 } := Function.update_self _ _ _
                have hdone : ∀ y, Refs p files inodes y →
                    Safe (SysM.fs (Fs.openDone ip omode) >>= fun _ => pure (fd.val : Int)) y
                      fun _ => Refs p files inodes :=
                  fun y hy => (hy.keep hy.inode.openDone).bind fun _ _ hx => hx
                apply hdone
                apply hplaced.fill
                · rw [hfile]
                  exact hnew
                · rfl
                · dsimp only
                  rw [hfile]
                  exact Nat.one_ne_zero
                · refine ⟨?_, rfl⟩
                  dsimp only
                  split
                  · exact Or.inr rfl
                  · exact Or.inl rfl

theorem count_cons_if {i j : Fin NINODE} :
    (j :: inodes).count i = inodes.count i + if i = j then 1 else 0 := by
  by_cases hij : i = j
  · rw [hij, List.count_cons_self, if_pos rfl]
  · rw [List.count_cons_of_ne (Ne.symm hij), if_neg hij]
    rfl

/-! #### Processes -/

/-- A process changes in other things than its descriptors, and so does the file
system. -/
theorem Books.setProc (h : Books files inodes s) {pr : Proc} {g : FileSys}
    (hofile : pr.ofile = (s.proc q).ofile)
    (hinode : FileSys.Counted (s.setProc q pr).users inodes' g)
    (hclosed : pr.state = .unused ∨ pr.state = .zombie →
      (∀ fd, pr.ofile fd = none) ∧ pr.cwd = none) :
    Books files inodes' { s.setProc q pr with toFileSys := g } := by
  refine ⟨?_, hinode, h.idle, h.pipes, ?_⟩
  · intro f
    have hslots : ({ s.setProc q pr with toFileSys := g } : Sys).slots = s.slots := by
      funext x
      by_cases hx : x.1 = q
      · simp [slots, Sys.setProc, hx, hofile]
      · simp [slots, Sys.setProc, hx]
    rw [hslots]
    exact h.file f
  · intro r hr
    by_cases hrq : r = q
    · subst hrq
      simpa [Sys.setProc] using hclosed (by simpa [Sys.setProc] using hr)
    · have hsame : (s.setProc q pr).proc r = s.proc r := by simp [Sys.setProc, hrq]
      rw [hsame] at hr ⊢
      exact h.closed r hr

/-- The users of an inode when a process changes its current directory. -/
theorem setProc_users (pr : Proc) (i : Fin NINODE) :
    (s.setProc q pr).users i + (if (s.proc q).cwd = some i then 1 else 0) =
      s.users i + if pr.cwd = some i then 1 else 0 := by
  have hmove := headcount_update (Q := fun pr : Proc => pr.cwd = some i) s.proc q pr
  have husers : (s.setProc q pr).users i = headcount s.file (File.Uses i) +
      headcount (Function.update s.proc q pr) fun pr => pr.cwd = some i := rfl
  rw [husers, users]
  omega

/-- A process without a current directory gets one. -/
theorem setProc_users_enter (pr : Proc) {i j : Fin NINODE} (hold : (s.proc q).cwd = none)
    (hnew : pr.cwd = some i) :
    (s.setProc q pr).users j = s.users j + if j = i then 1 else 0 := by
  have hmove := setProc_users (s := s) (q := q) pr j
  rw [hold, hnew] at hmove
  simpa [eq_comm] using hmove

theorem setCwd_users {x : Option (Fin NINODE)} {i : Fin NINODE} :
    (s.setCwd q x).users i + (if (s.proc q).cwd = some i then 1 else 0) =
      s.users i + if x = some i then 1 else 0 := setProc_users _ i

/-- A current directory is seen as held. -/
theorem setCwd_sum {cwd i : Fin NINODE} (hcwd : (s.proc q).cwd = some cwd) :
    s.users i = (s.setCwd q none).users i + if i = cwd then 1 else 0 := by
  have hmove := setCwd_users (s := s) (q := q) (x := none) (i := i)
  rw [hcwd] at hmove
  simp only [Option.some.injEq, reduceCtorEq, if_false, Nat.add_zero] at hmove
  rw [← hmove]
  simp [eq_comm]

theorem Refs.sysChdir (h : Refs p files inodes s) {cwd : Fin NINODE} {path : Option CStr}
    (hcwd : (s.proc p).cwd = some cwd) :
    Safe (sysChdir p cwd path) s fun _ => Refs p files inodes := by
  unfold Safe Fs.sysChdir
  refine (fs_ifOk (h.inode.chdirInode fun i => setCwd_sum hcwd)).bind fun r t ht => ?_
  obtain ⟨g, rfl, hg⟩ := ht
  cases r with
  | none => exact h.setFs hg
  | some ip =>
      have hcounted : FileSys.Counted (s.setCwd p (some ip)).users inodes g := by
        apply FileSys.Counted.rebase hg
        intro i
        have hmove := setCwd_users (s := s) (q := p) (x := some ip) (i := i)
        have hold := setCwd_sum (s := s) (i := i) hcwd
        rw [hcwd] at hmove
        simp only [Option.some.injEq, eq_comm (a := cwd), eq_comm (a := ip)] at hmove
        rw [count_cons_if]
        omega
      refine ⟨h.setProc rfl hcounted ?_, ?_⟩
      · intro hstate
        exact absurd hstate (by simp [h.runs])
      · simpa [Sys.setCwd, Sys.setProc] using h.runs

/-- The system with other processes. -/
def withProc (s : Sys) (proc : Slot → Proc) : Sys := { s with proc }

/-- `fileclose` has nothing to do with the processes. -/
theorem fileclose_withProc (proc : Slot → Proc) :
    Fs.fileclose f (s.withProc proc) =
      match Fs.fileclose f s with
      | .ok a t => .ok a (t.withProc proc)
      | .error e t => .error e (t.withProc proc) := by
  have hget : ∀ u : Sys, (get : SysM Sys) u = .ok u u := fun _ => rfl
  have hfs : ∀ (x : FsM Unit) (u : Sys), SysM.fs x (u.withProc proc) =
      match SysM.fs x u with
      | .ok a t => .ok a (t.withProc proc)
      | .error e t => .error e (t.withProc proc) := by
    intro x u
    simp only [SysM.fs, EStateM.adaptExcept, Component.run, fsPart, withProc]
    cases x u.toFileSys <;> rfl
  have hpipe : ∀ (pg : Nat) (w : Bool) (u : Sys), pipeclose pg w (u.withProc proc) =
      match pipeclose pg w u with
      | .ok a t => .ok a (t.withProc proc)
      | .error e t => .error e (t.withProc proc) := by
    intro pg w u
    simp only [pipeclose, bind, EStateM.bind, hget, withProc]
    cases u.pipe pg with
    | none => rfl
    | some pi =>
        obtain ⟨readopen, writeopen⟩ := pi
        cases w <;> cases readopen <;> cases writeopen <;> rfl
  simp only [Fs.fileclose, bind, EStateM.bind, hget]
  have hfile : (s.withProc proc).file f = s.file f := rfl
  rw [hfile]
  split
  · rfl
  · split
    · rfl
    · have hset : ∀ ff, (s.withProc proc).setFile f ff = (s.setFile f ff).withProc proc :=
        fun _ => rfl
      simp only [set, MonadStateOf.set, hset]
      cases (s.file f).type with
      | none => rfl
      | pipe => exact hpipe _ _ _
      | inode | device => exact hfs _ _

/-- A process that keeps its current directory. -/
theorem setProc_users_same {pr : Proc} (hcwd : pr.cwd = (s.proc q).cwd) :
    (s.setProc q pr).users = s.users := by
  funext i
  have hmove := setProc_users (s := s) (q := q) pr i
  rw [hcwd] at hmove
  omega

/-- `reparent` changes parents only. -/
theorem reparent_proc : ((s.reparent p).proc q).ofile = (s.proc q).ofile ∧
    ((s.reparent p).proc q).cwd = (s.proc q).cwd ∧
    ((s.reparent p).proc q).state = (s.proc q).state := by
  unfold Sys.reparent
  dsimp only
  split
  · exact ⟨rfl, rfl, rfl⟩
  · exact ⟨rfl, rfl, rfl⟩

theorem Books.reparent (h : Books files inodes s) : Books files inodes (s.reparent p) := by
  have hslots : (s.reparent p).slots = s.slots := funext fun x => by
    rw [slots, reparent_proc.1]
    rfl
  have husers : (s.reparent p).users = s.users := by
    funext i
    unfold users
    congr 1
    exact headcount_congr fun q => by rw [reparent_proc.2.1]
  refine ⟨?_, ?_, h.idle, h.pipes, ?_⟩
  · rw [hslots]
    exact h.file
  · rw [husers]
    exact h.inode
  · intro q hq
    obtain ⟨hofile, hcwd, hstate⟩ := reparent_proc (s := s) (p := p) (q := q)
    rw [hofile, hcwd]
    rw [hstate] at hq
    exact h.closed q hq

/-- A pass of the loop of `exit`. -/
theorem Refs.exitFile (h : Refs p files inodes s) :
    Safe (exitFile p fd) s fun _ t => Refs p files inodes t ∧ (t.proc p).ofile fd = none ∧
      (t.proc p).cwd = (s.proc p).cwd ∧
      ∀ fd', (s.proc p).ofile fd' = none → (t.proc p).ofile fd' = none := by
  unfold Safe Fs.exitFile
  rw [Ends.get_bind_iff]
  split
  next hnone => exact ⟨h, hnone, rfl, fun _ hfd => hfd⟩
  next f hf =>
    -- the file is closed before the descriptor, which makes no difference
    have hclose := (h.unplace h.active hf).fileclose
    have hproc : s.setOfile p fd none = s.withProc (s.setOfile p fd none).proc := rfl
    have hsame : s.withProc s.proc = s := rfl
    have hkeeps := fileclose_withProc (s := s) (f := f) s.proc
    rw [hsame] at hkeeps
    rw [hproc] at hclose
    unfold Safe Ends at hclose
    rw [fileclose_withProc] at hclose
    unfold Ends
    simp only [bind, EStateM.bind]
    cases hcase : Fs.fileclose f s with
    | error e t =>
        rw [hcase] at hclose
        exact hclose
    | ok a t =>
        rw [hcase] at hclose hkeeps
        have htproc : t.proc = s.proc := by
          have hok := EStateM.Result.ok.inj hkeeps
          rw [hok.2]
          rfl
        have hset : t.withProc (s.setOfile p fd none).proc = t.setOfile p fd none := by
          simp only [withProc, Sys.setOfile, Sys.setProc, htproc]
        dsimp only at hclose
        rw [hset] at hclose
        refine ⟨hclose, ?_, ?_, ?_⟩
        · simp [Sys.setOfile, Sys.setProc]
        · simp [Sys.setOfile, Sys.setProc, htproc]
        · intro fd' hfd'
          by_cases hfd : fd' = fd
          · simp [Sys.setOfile, Sys.setProc, hfd]
          · simp [Sys.setOfile, Sys.setProc, hfd, htproc, hfd']

/-- The loop of `exit`. -/
theorem Refs.exitFiles (h : Refs p files inodes s) :
    Safe ((List.finRange NOFILE).forM (Fs.exitFile p)) s fun _ t =>
      Refs p files inodes t ∧ (t.proc p).cwd = (s.proc p).cwd ∧
        ∀ fd, (t.proc p).ofile fd = none := by
  let I : List (Fin NOFILE) → Sys → Prop := fun rest t => Refs p files inodes t ∧
    (t.proc p).cwd = (s.proc p).cwd ∧ ∀ fd, fd ∉ rest → (t.proc p).ofile fd = none
  have hstart : I (List.finRange NOFILE) s :=
    ⟨h, rfl, fun fd hfd => absurd (List.mem_finRange fd) hfd⟩
  refine (Ends.forM hstart ?_).post fun _ t ht => ?_
  · intro fd rest t ht
    obtain ⟨hrefs, htcwd, hdone⟩ := ht
    refine hrefs.exitFile.post fun _ u hu => ?_
    obtain ⟨hurefs, hufd, hucwd, hukeeps⟩ := hu
    refine ⟨hurefs, hucwd.trans htcwd, ?_⟩
    intro fd' hfd'
    by_cases hfd : fd' = fd
    · rw [hfd]
      exact hufd
    · exact hukeeps fd' (hdone fd' (by simp [hfd, hfd']))
  · obtain ⟨hrefs, htcwd, hdone⟩ := ht
    exact ⟨hrefs, htcwd, fun fd => hdone fd List.not_mem_nil⟩

/-- **`exit`** gives everything up. -/
theorem Refs.exit (h : Refs p files inodes s) {cwd : Fin NINODE}
    (hcwd : (s.proc p).cwd = some cwd) :
    Safe (Fs.exit p cwd) s fun _ => Books files inodes := by
  unfold Safe Fs.exit
  split
  · exact nofun
  · refine h.exitFiles.bind fun _ t ht => ?_
    obtain ⟨hrefs, hsamecwd, hclosed⟩ := ht
    have htcwd : (t.proc p).cwd = some cwd := hsamecwd.trans hcwd
    have hhold : FileSys.Counted (t.setCwd p none).users (cwd :: inodes) t.toFileSys := by
      apply hrefs.inode.rebase
      intro i
      rw [setCwd_sum htcwd, count_cons_if]
      omega
    refine (fs_ifOk hhold.putInode).bind fun _ u hu => ?_
    obtain ⟨g, rfl, hg⟩ := hu
    have hbooks : Books files inodes { t.setCwd p none with toFileSys := g } := by
      refine hrefs.setProc rfl hg ?_
      intro hstate
      exact ⟨hclosed, rfl⟩
    have hcwdu : ((({ t with toFileSys := g } : Sys).setCwd p none).proc p).cwd = none := by
      simp [Sys.setCwd, Sys.setProc]
    have hofile : ∀ fd,
        ((({ t with toFileSys := g } : Sys).setCwd p none).proc p).ofile fd = none := by
      intro fd
      simpa [Sys.setCwd, Sys.setProc] using hclosed fd
    rw [Ends.modify_bind_iff, Ends.modify_bind_iff, Ends.modify_iff]
    rw [show ({ t.setCwd p none with toFileSys := g } : Sys) =
      ({ t with toFileSys := g } : Sys).setCwd p none from rfl] at hbooks
    generalize ({ t with toFileSys := g } : Sys).setCwd p none = u at hbooks hcwdu hofile ⊢
    have hreparent := hbooks.reparent (p := p)
    have hsame := reparent_proc (s := u) (p := p) (q := p)
    have husers : ((u.reparent p).setProc p
        { (u.reparent p).proc p with state := .zombie }).users = (u.reparent p).users :=
      setProc_users_same rfl
    refine hreparent.setProc rfl (husers ▸ hreparent.inode) ?_
    · intro _
      exact ⟨fun fd => by rw [hsame.1]; exact hofile fd, by rw [hsame.2.1]; exact hcwdu⟩

/-- What `fork` has done of the descriptors of the child. -/
structure Forking (p np : Slot) (cwd : Fin NINODE) (files : List (Fin NFILE))
    (inodes : List (Fin NINODE)) (rest : List (Fin NOFILE)) (s : Sys) : Prop where
  refs : Refs p files inodes s
  nodup : rest.Nodup
  active : s.Active np
  left : ∀ fd ∈ rest, (s.proc np).ofile fd = none
  child : (s.proc np).cwd = none
  cwd : (s.proc p).cwd = some cwd
  other : p ≠ np

theorem Forking.step {np : Slot} {cwd : Fin NINODE} {rest : List (Fin NOFILE)}
    (h : Forking p np cwd files inodes (fd :: rest) s) :
    Safe (forkFile p np fd) s fun _ => Forking p np cwd files inodes rest := by
  obtain ⟨hfd, hnodup⟩ := List.nodup_cons.mp h.nodup
  unfold Safe Fs.forkFile
  rw [Ends.get_bind_iff]
  split
  next hnone =>
    exact ⟨h.refs, hnodup, h.active, fun fd' hfd' => h.left fd' (List.mem_cons_of_mem fd hfd'),
      h.child, h.cwd, h.other⟩
  next f hf =>
    refine filedup_eq.bind fun _ t ht => ?_
    obtain ⟨-, rfl⟩ := ht
    have hplaced := (h.refs.dup (f := f)).place h.active
      (h.left fd List.mem_cons_self)
    refine ⟨hplaced, hnodup, ?_, ?_, ?_, ?_, h.other⟩
    · unfold Active
      rw [setOfile_state]
      exact h.active
    · intro fd' hfd'
      have hne : fd' ≠ fd := fun heq => hfd (heq ▸ hfd')
      simpa [Sys.setOfile, Sys.setProc, setFile, hne] using
        h.left fd' (List.mem_cons_of_mem fd hfd')
    · simpa [Sys.setOfile, Sys.setProc, setFile] using h.child
    · simpa [Sys.setOfile, Sys.setProc, setFile, h.other] using h.cwd

/-- The loop of `fork` begins. -/
theorem Refs.forking (h : Refs p files inodes s) {np : Slot} {cwd : Fin NINODE}
    (hcwd : (s.proc p).cwd = some cwd) (hunused : (s.proc np).state = .unused) :
    Forking p np cwd files inodes (List.finRange NOFILE)
      (s.setProc np { s.proc np with state := .used }) := by
  obtain ⟨hfree, hnocwd⟩ := h.closed np (Or.inl hunused)
  have hother : p ≠ np := by
    rintro rfl
    rw [h.runs] at hunused
    cases hunused
  have husers : (s.setProc np { s.proc np with state := .used }).users = s.users :=
    setProc_users_same rfl
  have hused : Books files inodes (s.setProc np { s.proc np with state := .used }) :=
    h.setProc rfl (husers ▸ h.inode) (by simp)
  refine ⟨⟨hused, ?_⟩, List.nodup_finRange _, ?_, ?_, ?_, ?_, hother⟩
  · simpa [Sys.setProc, hother] using h.runs
  · simp [Active, Sys.setProc]
  · intro fd _
    simpa [Sys.setProc] using hfree fd
  · simpa [Sys.setProc] using hnocwd
  · simpa [Sys.setProc, hother] using hcwd

theorem Refs.fork (h : Refs p files inodes s) {cwd : Fin NINODE} {memory : Bool}
    (hcwd : (s.proc p).cwd = some cwd) :
    Safe (Fs.fork p cwd memory) s fun _ => Books files inodes := by
  unfold Safe Fs.fork
  rw [Ends.get_bind_iff]
  split
  · exact h.toBooks
  next np hfound =>
    split
    · exact h.toBooks
    · rw [Ends.modify_bind_iff]
      have hunused : (s.proc np).state = .unused := by simpa using List.find?_some hfound
      have hstart := h.forking hcwd hunused
      refine Ends.bind (Ends.forM hstart fun fd rest t ht => ht.step) fun _ t ht => ?_
      have hlive : 0 < (t.inode cwd).ref := by
        have hpos := users_pos ht.cwd
        rw [ht.refs.inode.count cwd]
        omega
      refine (fs_ifOk (ht.refs.inode.idup hlive)).bind fun i u hu => ?_
      obtain ⟨g, rfl, rfl, hg⟩ := hu
      dsimp only
      rw [Ends.modify_bind_iff]
      have hcounted : FileSys.Counted (t.setProc np { t.proc np with
          cwd := some i, parent := some p, state := .runnable }).users inodes g := by
        apply hg.rebase
        intro j
        have hmove := setProc_users_enter (j := j) { t.proc np with
          cwd := some i, parent := some p, state := .runnable } ht.child rfl
        calc t.users j + (i :: inodes).count j
            = (t.users j + if j = i then 1 else 0) + inodes.count j := by
              rw [count_cons_if]
              omega
          _ = _ := congrArg (· + inodes.count j) hmove.symm
      exact ht.refs.setProc rfl hcounted (by simp)

theorem Refs.wait (h : Refs p files inodes s) {copied : Bool} :
    Safe (Fs.wait p copied) s fun _ => Books files inodes := by
  unfold Safe Fs.wait
  rw [Ends.get_bind_iff]
  split
  next np hfound =>
    split
    · rw [Ends.modify_bind_iff]
      have hzombie : (s.proc np).state = .zombie := by
        have hboth := List.find?_some hfound
        simp only [decide_eq_true_eq] at hboth
        exact hboth.2
      have husers : (s.setProc np { s.proc np with parent := none, state := .unused }).users =
          s.users := setProc_users_same rfl
      exact h.setProc rfl (husers ▸ h.inode) fun _ => h.closed np (Or.inr hzombie)
    · exact h.toBooks
  next =>
    split
    · exact nofun
    · exact h.toBooks

/-- Two new files are made the ends of a pipe in a page that held none. -/
theorem Refs.connect (h : Refs p files inodes s) {f0 f1 : Fin NFILE} {ff0 ff1 : File} {pg : Nat}
    (hne : f1 ≠ f0) (h0 : (s.file f0).type = .none) (h1 : (s.file f1).type = .none)
    (hpage : s.pipe pg = none) (hread : File.IsEnd pg false ff0) (hwrite : File.IsEnd pg true ff1)
    (href0 : ff0.ref = (s.file f0).ref) (href1 : ff1.ref = (s.file f1).ref)
    (hlive0 : ff0.ref ≠ 0) (hlive1 : ff1.ref ≠ 0) :
    Refs p files inodes
      (((s.setPipe pg (some ⟨true, true⟩)).setFile f0 ff0).setFile f1 ff1) := by
  have hcount : ∀ (Q : File → Prop) [DecidablePred Q], ¬ Q (s.file f0) → ¬ Q (s.file f1) →
      headcount (Function.update (Function.update s.file f0 ff0) f1 ff1) Q =
        headcount s.file Q + (if Q ff0 then 1 else 0) + if Q ff1 then 1 else 0 := by
    intro Q _ hno0 hno1
    have hfirst := headcount_update (Q := Q) s.file f0 ff0
    have hsecond := headcount_update (Q := Q) (Function.update s.file f0 ff0) f1 ff1
    rw [Function.update_of_ne hne, if_neg hno1] at hsecond
    rw [if_neg hno0] at hfirst
    omega
  have hfile : ∀ g, Function.update (Function.update s.file f0 ff0) f1 ff1 g =
      if g = f1 then ff1 else if g = f0 then ff0 else s.file g := by
    intro g
    simp only [Function.update_apply]
  refine ⟨⟨?_, ?_, ?_, ?_, h.closed⟩, h.runs⟩
  · intro g
    have hg := h.file g
    change (Function.update (Function.update s.file f0 ff0) f1 ff1 g).ref = _
    rw [hfile g]
    split
    next heq =>
      rw [href1, ← heq]
      exact hg
    next =>
      split
      next heq =>
        rw [href0, ← heq]
        exact hg
      next => exact hg
  · apply h.inode.rebase
    intro i
    have husers := hcount (File.Uses i) (by simp [File.Uses, h0]) (by simp [File.Uses, h1])
    have hno0 : ¬ File.Uses i ff0 := by simp [File.Uses, hread.1]
    have hno1 : ¬ File.Uses i ff1 := by simp [File.Uses, hwrite.1]
    rw [if_neg hno0, if_neg hno1] at husers
    simp only [users, setFile, setPipe, husers, Nat.add_zero]
  · intro g
    change (Function.update (Function.update s.file f0 ff0) f1 ff1 g).ref = 0 →
      (Function.update (Function.update s.file f0 ff0) f1 ff1 g).type = .none
    rw [hfile g]
    split
    · exact fun hzero => absurd hzero hlive1
    · split
      · exact fun hzero => absurd hzero hlive0
      · exact h.idle g
  · intro pg'
    have hends : ∀ w, headcount (Function.update (Function.update s.file f0 ff0) f1 ff1)
        (File.IsEnd pg' w) = s.ends pg' w + if pg' = pg then 1 else 0 := by
      intro w
      have hread' : File.IsEnd pg' w ff0 ↔ pg' = pg ∧ w = false := by
        simp [File.IsEnd, hread.1, hread.2.1, hread.2.2, eq_comm]
      have hwrite' : File.IsEnd pg' w ff1 ↔ pg' = pg ∧ w = true := by
        simp [File.IsEnd, hwrite.1, hwrite.2.1, hwrite.2.2, eq_comm]
      rw [hcount (File.IsEnd pg' w) (by simp [File.IsEnd, h0]) (by simp [File.IsEnd, h1])]
      simp only [hread', hwrite', ends]
      cases w <;> simp
    change PipeOk (Function.update s.pipe pg (some ⟨true, true⟩) pg')
      (headcount (Function.update (Function.update s.file f0 ff0) f1 ff1) (File.IsEnd pg' false))
      (headcount (Function.update (Function.update s.file f0 ff0) f1 ff1) (File.IsEnd pg' true))
    rw [hends, hends]
    have hold := h.pipes pg'
    by_cases hpg : pg' = pg
    · subst hpg
      rw [hpage] at hold
      simp [PipeOk, hold.1, hold.2]
    · rw [Function.update_of_ne hpg, if_neg hpg]
      exact hold

theorem Refs.pipealloc (h : Refs p files inodes s) {page : Option Nat}
    (hpage : ∀ pg, page = some pg → s.pipe pg = none) :
    Safe (Fs.pipealloc page) s fun r t =>
      match r with
      | none => Refs p files inodes t
      | some (f0, f1) => Refs p (f0 :: f1 :: files) inodes t := by
  unfold Safe Fs.pipealloc
  refine filealloc_eq.bind fun r t ht => ?_
  cases r with
  | none =>
      obtain rfl := ht
      exact h
  | some f0 =>
      obtain ⟨hfree0, rfl⟩ := ht
      have htake0 := h.take hfree0
      refine filealloc_eq.bind fun r u hu => ?_
      cases r with
      | none =>
          obtain rfl := hu
          exact htake0.fileclose.bind fun _ _ hv => hv
      | some f1 =>
          obtain ⟨hfree1, rfl⟩ := hu
          have htake1 := htake0.take hfree1
          have hne : f1 ≠ f0 := by
            rintro rfl
            simp [setFile] at hfree1
          cases page with
          | none =>
              exact htake1.swap.fileclose.bind fun _ _ hv => hv.fileclose.bind fun _ _ hw => hw
          | some pg =>
              have h1 : (s.file f1).ref = 0 := by simpa [setFile, hne] using hfree1
              dsimp only
              rw [Ends.modify_bind_iff, Ends.modify_bind_iff, Ends.modify_bind_iff]
              refine htake1.swap.connect hne ?_ ?_ (hpage pg rfl) ⟨rfl, rfl, rfl⟩ ⟨rfl, rfl, rfl⟩
                ?_ ?_ ?_ ?_
              · simpa [setFile, hne.symm] using h.idle f0 hfree0
              · simpa [setFile, hne] using h.idle f1 h1
              · simp [setFile, setPipe]
              · simp [setFile, setPipe, hne]
              · simp [setFile, setPipe, hne.symm]
              · simp [setFile, setPipe, hne]

theorem Refs.sysPipe (h : Refs p files inodes s) {page : Option Nat} {copied : Bool}
    (hpage : ∀ pg, page = some pg → s.pipe pg = none) :
    Safe (Fs.sysPipe p page copied) s fun _ => Refs p files inodes := by
  have hback : ∀ {rf wf : Fin NFILE} t, Refs p (rf :: wf :: files) inodes t →
      Safe (Fs.fileclose rf >>= fun _ => Fs.fileclose wf >>= fun _ => pure (-1 : Int)) t
        fun _ => Refs p files inodes :=
    fun t ht => ht.fileclose.bind fun _ _ hu => hu.fileclose.bind fun _ _ hv => hv
  unfold Safe Fs.sysPipe
  refine (h.pipealloc hpage).bind fun r t ht => ?_
  cases r with
  | none => exact ht
  | some r =>
      obtain ⟨rf, wf⟩ := r
      refine (fdalloc_eq (f := rf)).bind fun r u hu => ?_
      cases r with
      | none =>
          obtain rfl := hu
          exact hback u ht
      | some fd0 =>
          obtain ⟨hfd0, rfl⟩ := hu
          have hplaced0 := Refs.place ht ht.active hfd0
          have hat0 : ((t.setOfile p fd0 (some rf)).proc p).ofile fd0 = some rf := by
            simp [Sys.setOfile, setProc]
          refine (fdalloc_eq (f := wf)).bind fun r v hv => ?_
          cases r with
          | none =>
              obtain rfl := hv
              dsimp only
              rw [Ends.modify_bind_iff]
              exact hback _ (hplaced0.unplace hplaced0.active hat0)
          | some fd1 =>
              obtain ⟨hfd1, rfl⟩ := hv
              have hplaced1 := hplaced0.place hplaced0.active hfd1
              have hne : fd0 ≠ fd1 := by
                rintro rfl
                rw [hat0] at hfd1
                cases hfd1
              dsimp only
              split
              · exact hplaced1
              · rw [Ends.modify_bind_iff, Ends.modify_bind_iff]
                have hat1 : (((t.setOfile p fd0 (some rf)).setOfile p fd1 (some wf)).proc p).ofile
                    fd0 = some rf := by simp [Sys.setOfile, setProc, hne]
                have hback0 := hplaced1.unplace hplaced1.active hat1
                have hat2 : ((((t.setOfile p fd0 (some rf)).setOfile p fd1 (some wf)).setOfile p
                    fd0 none).proc p).ofile fd1 = some wf := by
                  simp [Sys.setOfile, setProc, hne.symm]
                exact hback _ (hback0.unplace hback0.active hat2).swap

/-! #### Runs -/

theorem Refs.call (h : Refs p [] [] s) {cwd : Fin NINODE} {c : Call}
    (hcwd : (s.proc p).cwd = some cwd) (hfresh : c.Fresh s) :
    Safe (c.run p cwd) s fun _ => Books [] [] := by
  have hbooks : ∀ {x : SysM Int}, Safe x s (fun _ => Refs p [] []) →
      Safe x s fun _ => Books [] [] :=
    fun hx => hx.post fun _ _ ht => ht.toBooks
  have hbase := users_pos hcwd
  cases c with
  | dup fd => exact hbooks h.sysDup
  | read fd dst n => exact hbooks h.sysRead
  | write fd src n => exact hbooks h.sysWrite
  | close fd => exact hbooks h.sysClose
  | fstat fd => exact hbooks h.sysFstat
  | link old new =>
      cases old with
      | none => exact h.toBooks
      | some old =>
          cases new with
          | none => exact h.toBooks
          | some new => exact hbooks (h.keep (h.inode.linkPaths hbase))
  | unlink path =>
      cases path with
      | none => exact h.toBooks
      | some path => exact hbooks (h.keep (h.inode.unlinkPath hbase))
  | openFile path omode =>
      cases path with
      | none => exact h.toBooks
      | some path => exact hbooks (h.openPath hcwd)
  | mkdir path => exact hbooks (h.keep (h.inode.makeNode hbase))
  | mknod path major minor => exact hbooks (h.keep (h.inode.makeNode hbase))
  | chdir path => exact hbooks (h.sysChdir hcwd)
  | exec path reads =>
      cases path with
      | none => exact h.toBooks
      | some path => exact hbooks ((h.keep (h.inode.exec hbase)).bind fun _ _ ht => ht)
  | pipe page copied =>
      refine hbooks (h.sysPipe ?_)
      rintro pg rfl
      exact hfresh
  | fork memory => exact h.fork hcwd
  | exit => exact (h.exit hcwd).bind fun _ _ ht => ht
  | wait copied => exact h.wait

theorem books_boot {block : UInt32 → Block} (h : boot block = .ok s) : Books [] [] s := by
  unfold boot at h
  cases hsb : fsinit block with
  | error text =>
      rw [hsb] at h
      cases h
  | ok sb =>
      rw [hsb] at h
      obtain rfl := Except.ok.inj h
      unfold booted
      refine ⟨?_, ⟨?_, ?_⟩, fun _ _ => rfl, ?_, ?_⟩
      · intro f
        rw [headcount_eq_zero]
        · rfl
        · intro x
          dsimp only [slots]
          split <;> simp
      · intro i
        have hnofile : headcount
            (fun _ : Fin NFILE => (⟨.none, 0, false, false, 0, 0, 0, 0⟩ : File))
            (File.Uses i) = 0 := headcount_eq_zero fun _ => by simp [File.Uses]
        have hproc := headcount_update (Q := fun pr : Proc => pr.cwd = some i)
          (fun _ : Slot => (⟨.unused, none, fun _ => none, none⟩ : Proc)) initproc
          ⟨.runnable, none, fun _ => none, some 0⟩
        rw [headcount_eq_zero (f := fun _ : Slot => (⟨.unused, none, fun _ => none, none⟩ : Proc))
          (fun _ => by simp)] at hproc
        have hsame : (fun q : Slot => if q = initproc
              then (⟨.runnable, none, fun _ => none, some 0⟩ : Proc)
              else ⟨.unused, none, fun _ => none, none⟩) =
            Function.update (fun _ => ⟨.unused, none, fun _ => none, none⟩) initproc
              ⟨.runnable, none, fun _ => none, some 0⟩ := by
          funext q
          rw [Function.update_apply]
        simp only [reduceCtorEq, if_false, Nat.add_zero, Nat.zero_add, Option.some.injEq] at hproc
        simp only [users, hnofile, hsame, hproc, List.count_nil, Nat.add_zero, Nat.zero_add,
          eq_comm (a := i)]
      · intro i j hi hj _ _
        have hzero : ∀ k : Fin NINODE, 0 < (if k = 0 then 1 else 0) → k = 0 := fun k hk => by
          by_contra hne
          simp [hne] at hk
        rw [hzero i hi, hzero j hj]
      · intro pg
        exact ⟨headcount_eq_zero fun _ => by simp [File.IsEnd],
          headcount_eq_zero fun _ => by simp [File.IsEnd]⟩
      · intro q hq
        by_cases hinit : q = initproc
        · simp [hinit] at hq
        · simp [hinit]

theorem Books.step (h : Books [] [] s) {e : Slot × Call} (hstep : s.step e = some t) :
    Books [] [] t := by
  unfold Sys.step at hstep
  split at hstep
  next cwd hruns hcwd =>
    split at hstep
    next hfresh =>
      have hcall := (Refs.mk h hruns).call hcwd hfresh
      cases hcase : e.2.run e.1 cwd s with
      | ok r u =>
          rw [hcase] at hstep
          obtain rfl := Option.some.inj hstep
          exact hcall.ok hcase
      | error text u =>
          rw [hcase] at hstep
          cases hstep
    next => cases hstep
  next => cases hstep

theorem books_run {past : Past Sys (Slot × Call)} (run : Run sysCalls past s) : Books [] [] s := by
  induction run with
  | init h =>
      obtain ⟨block, hboot⟩ := h
      exact books_boot hboot
  | step run h ih => exact ih.step h

/-- A page holds a pipe just as long as a descriptor leads to an end of it. -/
theorem Books.pipe_none (h : Books [] [] s) (pg : Nat) :
    s.pipe pg = none ↔
      ∀ q fd f w, (s.proc q).ofile fd = some f → ¬ File.IsEnd pg w (s.file f) := by
  have hok := h.pipes pg
  constructor
  · intro hnone q fd f w _ hend
    rw [hnone] at hok
    have hpos := headcount_pos (f := s.file) (p := f) hend
    have hno : s.ends pg w = 0 := by
      cases w
      · exact hok.1
      · exact hok.2
    exact absurd hno (Nat.ne_of_gt hpos)
  · intro hno
    have hends : ∀ w, s.ends pg w = 0 := by
      intro w
      refine headcount_eq_zero fun f hend => ?_
      -- a file of a pipe is open, so a descriptor leads to it
      have hlive : (s.file f).ref ≠ 0 := by
        intro hzero
        have htype := h.idle f hzero
        rw [hend.1] at htype
        cases htype
      rw [h.file f, List.count_nil, Nat.add_zero] at hlive
      obtain ⟨⟨q, fd⟩, hslot⟩ : ∃ x, s.slots x = some f := by
        by_contra hall
        exact hlive (headcount_eq_zero fun x hx => hall ⟨x, hx⟩)
      exact hno q fd f w hslot hend
    cases hpipe : s.pipe pg with
    | none => rfl
    | some pi =>
        rw [hpipe, hends, hends] at hok
        obtain ⟨hread, hwrite, hopen⟩ := hok
        obtain ⟨readopen, writeopen⟩ := pi
        cases readopen <;> cases writeopen <;> simp at hread hwrite hopen

end Sys

/-- **The reference counts are exact.**  In every run of the system calls, between two
of them: a file has as many references as descriptors point to it, an inode as many as
files and current directories; no inode has two entries of the table in use; the page
of a pipe is there as long as an end of it has a descriptor, no longer, and no call
touches a page that has been freed. -/
theorem reference_counts {past : Past Sys (Slot × Call)} {s : Sys} (run : Run sysCalls past s) :
    (∀ f, (s.file f).ref = headcount s.slots (· = some f)) ∧
    (∀ i, (s.inode i).ref =
      headcount s.file (File.Uses i) + headcount s.proc fun pr => pr.cwd = some i) ∧
    (∀ i j, 0 < (s.inode i).ref → 0 < (s.inode j).ref → (s.inode i).dev = (s.inode j).dev →
      (s.inode i).inum = (s.inode j).inum → i = j) ∧
    (∀ pg, s.pipe pg = none ↔
      ∀ q fd f w, (s.proc q).ofile fd = some f → ¬ File.IsEnd pg w (s.file f)) ∧
    ∀ p cwd (c : Call) pg t, (s.proc p).state = .runnable → (s.proc p).cwd = some cwd → c.Fresh s →
      c.run p cwd s ≠ .error (.freed pg) t := by
  have hbooks := Sys.books_run run
  refine ⟨?_, ?_, hbooks.inode.unique, hbooks.pipe_none, ?_⟩
  · intro f
    rw [hbooks.file f, List.count_nil, Nat.add_zero]
  · intro i
    rw [hbooks.inode.count i, List.count_nil, Nat.add_zero]
    rfl
  intro p cwd c pg t hruns hcwd hfresh hfail
  exact ((Sys.Refs.mk hbooks hruns).call hcwd hfresh).failed hfail pg rfl

/-- A disk with nothing but the magic number of a file system. -/
def magicOnly : UInt32 → Block := fun b k =>
  if b = 1 then (Bytes.leBytes 4 FSMAGIC).getD k 0 else 0

/-- The first process makes a pipe in page 7, forks, and its child closes an end. -/
def pipedCalls : List (Slot × Call) := [(0, .pipe (some 7) true), (0, .fork true), (1, .close 0)]

theorem reference_counts_piped : ∃ past s, Run sysCalls past s ∧
    ((s.file 0).ref = 1 ∧ (s.file 1).ref = 2 ∧ s.pipe 7 ≠ none) ∧
    (s.file 1).ref = headcount s.slots (· = some 1) := by
  have hmagic : (readsb (magicOnly 1)).magic = FSMAGIC := by decide
  have hboot : boot magicOnly = .ok (booted (readsb (magicOnly 1)) magicOnly) := by
    simp [boot, fsinit, hmagic, Except.map]
  obtain ⟨past, s, run, hends⟩ := Machine.exists_run_of_trace (M := sysCalls)
    (s := booted (readsb (magicOnly 1)) magicOnly) ⟨magicOnly, hboot⟩ pipedCalls
    (fun _ s => (s.file 0).ref = 1 ∧ (s.file 1).ref = 2 ∧ s.pipe 7 ≠ none) (by decide)
  exact ⟨past, s, run, hends, (reference_counts run).1 1⟩

end Fs
