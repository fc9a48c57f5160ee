import OSN.Fs.SteadyCalls

/-!
# System calls on files without holes

Between two system calls nothing is locked, and a file that can be written to is not a
directory: so `filewrite` leaves the directories alone.
-/

namespace Fs

open Xv6 (Slot NPROC)

variable {α : Type}

theorem Safe.ifOk {x : SysM α} {s : Sys} {Q : α → Sys → Prop} (h : Safe x s Q) : IfOk x s Q :=
  h.mono (fun _ _ hq => hq) fun _ _ _ => trivial

namespace Sys

open FileSys (Kept Steady)

/-- The file system is in order while some inodes are locked, and who has a file open for
writing has not got a directory. -/
structure Whole (locks : List (Fin NINODE)) (s : Sys) : Prop where
  steady : Steady locks s.toFileSys
  plain : ∀ f, (s.file f).type = .inode → (s.file f).writable = true →
    (s.dinode (s.inode (s.file f).ip).inum).type ≠ 0 ∧
      (s.dinode (s.inode (s.file f).ip).inum).type ≠ T_DIR

variable {p q : Slot} {files files' : List (Fin NFILE)} {inodes held locks : List (Fin NINODE)}
  {base : Fin NINODE → Nat} {s t : Sys} {f : Fin NFILE} {fd : Fin NOFILE} {ff : File} {g : FileSys}

/-- The file system is the same, and files only change in what does not matter here. -/
structure Alike (s t : Sys) : Prop where
  fs : t.toFileSys = s.toFileSys
  file : ∀ f, (t.file f).type = .inode → SameUse (s.file f) (t.file f)

theorem Alike.of_file (hfs : t.toFileSys = s.toFileSys) (hfile : t.file = s.file) : Alike s t :=
  ⟨hfs, fun f _ => by rw [hfile]; exact ⟨rfl, rfl, rfl, rfl⟩⟩

theorem Alike.refl : Alike s s := .of_file rfl rfl

theorem Alike.trans {u : Sys} (h : Alike s t) (h' : Alike t u) : Alike s u := by
  refine ⟨h'.fs.trans h.fs, fun f hf => ?_⟩
  have hsame' := h'.file f hf
  have hsame := h.file f (hsame'.type.symm.trans hf)
  exact ⟨hsame'.type.trans hsame.type, hsame'.pipe.trans hsame.pipe,
    hsame'.writable.trans hsame.writable, hsame'.ip.trans hsame.ip⟩

/-- One file changes. -/
theorem Alike.setFile (hff : ff.type = .inode → SameUse (s.file f) ff) :
    Alike s (s.setFile f ff) := by
  refine ⟨rfl, fun g hg => ?_⟩
  by_cases hgf : g = f
  · subst hgf
    have hself : (s.setFile g ff).file g = ff := Function.update_self _ _ _
    rw [hself] at hg ⊢
    exact hff hg
  · have hother : (s.setFile f ff).file g = s.file g := Function.update_of_ne hgf _ _
    rw [hother]
    exact ⟨rfl, rfl, rfl, rfl⟩

theorem Alike.setRef {n : Nat} : Alike s (s.setFile f { s.file f with ref := n }) :=
  .setFile fun _ => ⟨rfl, rfl, rfl, rfl⟩

theorem Alike.setOfile {x : Option (Fin NFILE)} : Alike s (s.setOfile q fd x) := .of_file rfl rfl

theorem Alike.setPipe (pg : Nat) (pi : Option Pipe) : Alike s (s.setPipe pg pi) := .of_file rfl rfl

theorem Whole.alike (h : Whole locks s) (ht : Alike s t) : Whole locks t := by
  refine ⟨by rw [ht.fs]; exact h.steady, fun f hf hwritable => ?_⟩
  have hsame := ht.file f hf
  rw [ht.fs, hsame.ip]
  exact h.plain f (hsame.type.symm.trans hf) (hsame.writable.symm.trans hwritable)

/-- The inode of an open file is in use. -/
theorem users_file (hf : (s.file f).type = .inode) : 0 < s.users (s.file f).ip := by
  have hpos := headcount_pos (f := s.file) (Q := File.Uses (s.file f).ip) (p := f)
    ⟨Or.inl hf, rfl⟩
  unfold users
  omega

/-- **The file system changes.** -/
theorem Whole.fs {locks' : List (Fin NINODE)} (h : Whole locks s)
    (hk : Kept base s.toFileSys held locks' g)
    (hbase : ∀ f, (s.file f).type = .inode → 0 < base (s.file f).ip) :
    Whole locks' { s with toFileSys := g } := by
  refine ⟨hk.steady, fun f hf hwritable => ?_⟩
  obtain ⟨hused, hplain⟩ := h.plain f hf hwritable
  obtain ⟨hinum, htype⟩ := hk.lasts _ (hbase f hf)
  change (g.dinode (g.inode (s.file f).ip).inum).type ≠ 0 ∧ _ ≠ T_DIR
  rw [hinum, htype hused]
  exact ⟨hused, hplain⟩

/-- Process `p` runs in such a system, with what it holds. -/
structure InOrder (p : Slot) (files : List (Fin NFILE)) (inodes locks : List (Fin NINODE))
    (s : Sys) : Prop extends Refs p files inodes s, Whole locks s

theorem InOrder.kept (h : InOrder p files inodes locks s) :
    Kept s.users s.toFileSys inodes locks s.toFileSys := .start h.inode h.steady

/-- Code that keeps the references and the files. -/
theorem InOrder.of {x : SysM α} (hr : Safe x s fun _ => Refs p files inodes)
    (hw : IfOk x s fun _ => Whole locks) : IfOk x s fun _ => InOrder p files inodes locks :=
  (hr.and hw).mono (fun _ _ h => ⟨h.1, h.2⟩) fun _ _ _ => trivial

/-- Code on the file system. -/
theorem fs_run {x : FsM α} {R : α → FileSys → Prop} (hx : IfOk x s.toFileSys R) :
    IfOk (SysM.fs x) s fun a t => ∃ g, t = { s with toFileSys := g } ∧ R a g :=
  (fs_ifOk hx).ifOk

theorem InOrder.setFs {inodes' locks' : List (Fin NINODE)} (h : InOrder p files inodes locks s)
    (hg : Kept s.users s.toFileSys inodes' locks' g) :
    InOrder p files inodes' locks' { s with toFileSys := g } :=
  ⟨h.toRefs.setFs hg.counted, h.toWhole.fs hg fun _ hf => users_file hf⟩

theorem InOrder.keep {inodes' locks' : List (Fin NINODE)} (h : InOrder p files inodes locks s)
    {x : FsM α} (hx : IfOk x s.toFileSys fun _ => Kept s.users s.toFileSys inodes' locks') :
    IfOk (SysM.fs x) s fun _ => InOrder p files inodes' locks' := by
  refine (fs_run hx).post ?_
  rintro _ _ ⟨g, rfl, hg⟩
  exact h.setFs hg

/-- The offset of a file changes. -/
theorem InOrder.setOff (h : InOrder p files inodes locks s) {off : Nat} :
    InOrder p files inodes locks (s.setFile f { s.file f with off }) :=
  ⟨h.toRefs.setOff, h.toWhole.alike (.setFile fun _ => ⟨rfl, rfl, rfl, rfl⟩)⟩

/-! ### Files -/

theorem pipeclose_alike {pg : Nat} {w : Bool} : IfOk (pipeclose pg w) s fun _ => Alike s := by
  unfold IfOk Fs.pipeclose
  rw [Ends.get_bind_iff]
  split
  · trivial
  · dsimp only
    split
    · split
      · exact .of_file rfl rfl
      · exact .of_file rfl rfl
    · split
      · exact .of_file rfl rfl
      · exact .of_file rfl rfl

theorem closing_alike : Alike s (s.closing f) := .setFile nofun

/-- A file that has not been given a type is closed. -/
theorem fileclose_alike (hnone : (s.file f).type = .none) :
    IfOk (fileclose f) s fun _ => Alike s := by
  unfold IfOk Fs.fileclose
  rw [Ends.get_bind_iff]
  dsimp only
  split
  · trivial
  · split
    · exact .setRef
    · rw [Ends.set_bind_iff, hnone]
      exact closing_alike

theorem InOrder.fileclose (h : InOrder p (f :: files) inodes [] s) :
    IfOk (fileclose f) s fun _ => InOrder p files inodes [] := by
  refine InOrder.of h.toRefs.fileclose ?_
  unfold IfOk Fs.fileclose
  rw [Ends.get_bind_iff]
  dsimp only
  split
  · trivial
  next hlive =>
    split
    · exact h.toWhole.alike .setRef
    next hlast =>
      have hone : (s.file f).ref = 1 := by omega
      have hclosed : Whole [] (s.closing f) := h.toWhole.alike closing_alike
      have hput : (s.file f).type = .inode ∨ (s.file f).type = .device →
          IfOk (SysM.fs (putInode (s.file f).ip)) (s.closing f) fun _ => Whole [] := by
        intro htype
        have hclosing : InOrder p files ((s.file f).ip :: inodes) [] (s.closing f) :=
          ⟨h.toRefs.closeInode hone htype, hclosed⟩
        exact (hclosing.keep hclosing.kept.putInode).post fun _ _ ht => ht.toWhole
      rw [Ends.set_bind_iff]
      split
      next => exact pipeclose_alike.post fun _ _ ht => hclosed.alike ht
      next htype => exact hput (Or.inl htype)
      next htype => exact hput (Or.inr htype)
      next => exact hclosed

theorem InOrder.take (h : InOrder p files inodes locks s) (hf : (s.file f).ref = 0) :
    InOrder p (f :: files) inodes locks (s.setFile f { s.file f with ref := 1 }) :=
  ⟨h.toRefs.take hf, h.toWhole.alike .setRef⟩

theorem InOrder.place (h : InOrder p (f :: files) inodes locks s)
    (hfree : (s.proc p).ofile fd = none) :
    InOrder p files inodes locks (s.setOfile p fd (some f)) :=
  ⟨h.toRefs.place h.active hfree, h.toWhole.alike .setOfile⟩

theorem InOrder.unplace (h : InOrder p files inodes locks s)
    (hf : (s.proc p).ofile fd = some f) :
    InOrder p (f :: files) inodes locks (s.setOfile p fd none) :=
  ⟨h.toRefs.unplace h.active hf, h.toWhole.alike .setOfile⟩

theorem InOrder.sysDup (h : InOrder p files inodes [] s) {n : Int} :
    IfOk (sysDup p n) s fun _ => InOrder p files inodes [] := by
  refine InOrder.of h.toRefs.sysDup (Ends.post (Q := fun _ => Alike s) ?_ fun _ _ ht => h.toWhole.alike ht)
  unfold Fs.sysDup
  refine Ends.bind argfd_eq.ifOk fun r t ht => ?_
  obtain ⟨rfl, -⟩ := ht
  cases r with
  | none => exact .refl
  | some x =>
      refine Ends.bind fdalloc_eq.ifOk fun r u hu => ?_
      cases r with
      | none =>
          obtain rfl := hu
          exact .refl
      | some fd =>
          obtain ⟨-, rfl⟩ := hu
          refine Ends.bind filedup_eq.ifOk fun _ v hv => ?_
          obtain ⟨-, rfl⟩ := hv
          exact Alike.setOfile.trans .setRef

/-- `argfd` looks at the descriptors. -/
theorem argfd_same {n : Int} : IfOk (argfd p n) s fun _ t => t = s :=
  argfd_eq.ifOk.post fun _ _ ht => ht.1

theorem InOrder.filereadInode (h : InOrder p files inodes [] s) {dst : Nat → Bool} {n : Nat} :
    IfOk (filereadInode f dst n) s fun _ => InOrder p files inodes [] := by
  unfold IfOk Fs.filereadInode
  rw [Ends.get_bind_iff]
  refine (h.keep h.kept.lockedRead).bind fun r t ht => ?_
  split
  split
  · exact ht.setOff
  · exact ht

theorem InOrder.sysRead (h : InOrder p files inodes [] s) {n : Int} {dst : Nat → Bool}
    {m : Int32} : IfOk (sysRead p n dst m) s fun _ => InOrder p files inodes [] := by
  unfold IfOk Fs.sysRead
  refine argfd_same.bind ?_
  rintro r _ rfl
  cases r with
  | none => exact h
  | some x =>
      dsimp only
      rw [Ends.get_bind_iff]
      split
      · exact h
      · split
        · exact h.filereadInode.bind fun _ _ ht => ht
        · trivial
        · exact h
        · exact h

/-- **The loop of `filewrite`**: the file is no directory all along. -/
theorem InOrder.writeChunks (h : InOrder p files inodes [] s) (hf : (s.file f).type = .inode)
    (hwritable : (s.file f).writable = true) {src : Nat → Option UInt8} {n fuel i : Nat} :
    IfOk (writeChunks f src n fuel i) s fun _ => InOrder p files inodes [] := by
  induction fuel generalizing s i with
  | zero => exact h
  | succ fuel ih =>
      unfold IfOk Fs.writeChunks
      split
      · dsimp only
        rw [Ends.get_bind_iff]
        obtain ⟨hused, hfile⟩ := h.plain f hf hwritable
        refine (fs_run (h.kept.writeChunk (users_file hf) hused hfile)).bind ?_
        rintro r _ ⟨g, rfl, hg⟩
        have ht := h.setFs hg
        have hself : ∀ off, (({ s with toFileSys := g } : Sys).setFile f
            { s.file f with off }).file f = { s.file f with off } := fun off =>
          Function.update_self _ _ _
        have hoff : ∀ off, InOrder p files inodes [] (({ s with toFileSys := g } : Sys).setFile f
            { s.file f with off }) := fun off => ht.setOff
        split
        · split
          · exact hoff _
          · refine ih (hoff _) ?_ ?_
            · rw [hself]
              exact hf
            · rw [hself]
              exact hwritable
        · split
          · exact ht
          · exact ih ht hf hwritable
      · exact h

theorem InOrder.sysWrite (h : InOrder p files inodes [] s) {n : Int} {src : Nat → Option UInt8}
    {m : Int32} : IfOk (sysWrite p n src m) s fun _ => InOrder p files inodes [] := by
  unfold IfOk Fs.sysWrite
  refine argfd_same.bind ?_
  rintro r _ rfl
  cases r with
  | none => exact h
  | some x =>
      dsimp only
      rw [Ends.get_bind_iff]
      split
      · exact h
      next hwritable =>
        split
        next hf =>
          exact (h.writeChunks hf (by simpa using hwritable)).bind fun _ _ ht => ht
        · trivial
        · exact h
        · exact h

theorem InOrder.sysClose (h : InOrder p files inodes [] s) {n : Int} :
    IfOk (sysClose p n) s fun _ => InOrder p files inodes [] := by
  unfold IfOk Fs.sysClose
  refine argfd_eq.ifOk.bind fun r t ht => ?_
  obtain ⟨rfl, hr⟩ := ht
  cases r with
  | none => exact h
  | some x =>
      dsimp only
      rw [Ends.modify_bind_iff]
      exact (h.unplace (hr x.1 x.2 rfl)).fileclose.bind fun _ _ hu => hu

theorem InOrder.sysFstat (h : InOrder p files inodes [] s) {n : Int} :
    IfOk (sysFstat p n) s fun _ => InOrder p files inodes [] := by
  unfold IfOk Fs.sysFstat
  refine argfd_same.bind ?_
  rintro r _ rfl
  cases r with
  | none => exact h
  | some x =>
      dsimp only
      rw [Ends.get_bind_iff]
      split
      · exact (h.keep h.kept.filestat).bind fun _ _ ht => ht
      · exact (h.keep h.kept.filestat).bind fun _ _ ht => ht
      · exact h
      · exact h

/-- A new file is made to point to an inode that the call holds. -/
theorem InOrder.fill {i : Fin NINODE} (h : InOrder p files (i :: inodes) locks s)
    (hnew : (s.file f).type = .none) (href : ff.ref = (s.file f).ref) (hlive : ff.ref ≠ 0)
    (huses : File.Uses i ff)
    (hplain : ff.writable = true → (s.dinode (s.inode i).inum).type ≠ 0 ∧
      (s.dinode (s.inode i).inum).type ≠ T_DIR) :
    InOrder p files inodes locks (s.setFile f ff) := by
  refine ⟨h.toRefs.fill hnew href hlive huses, ⟨h.steady, fun g hg hwritable => ?_⟩⟩
  by_cases hgf : g = f
  · subst hgf
    have hself : (s.setFile g ff).file g = ff := Function.update_self _ _ _
    rw [hself] at hwritable ⊢
    rw [huses.2]
    exact hplain hwritable
  · have hother : (s.setFile f ff).file g = s.file g := Function.update_of_ne hgf _ _
    rw [hother] at hg hwritable ⊢
    exact h.plain g hg hwritable

/-- A file open for writing is not open for reading only. -/
theorem ne_rdonly {omode : UInt32} (h : omode &&& O_WRONLY ≠ 0 ∨ omode &&& O_RDWR ≠ 0) :
    omode ≠ O_RDONLY := by
  rintro rfl
  revert h
  decide

/-- What is known of a locked inode is on the disk. -/
theorem Whole.plain_locked {i : Fin NINODE} (h : Whole locks s) (hi : i ∈ locks)
    (hdir : (s.inode i).type ≠ T_DIR) :
    (s.dinode (s.inode i).inum).type ≠ 0 ∧ (s.dinode (s.inode i).inum).type ≠ T_DIR := by
  obtain ⟨hused, hsame⟩ := h.steady.type i _ (h.steady.holds hi)
  rw [← hsame]
  exact ⟨hused, hdir⟩

theorem InOrder.openPath (h : InOrder p files inodes [] s) {cwd : Fin NINODE} {path : CStr}
    {omode : UInt32} (hcwd : (s.proc p).cwd = some cwd) :
    IfOk (openPath p cwd path omode) s fun _ => InOrder p files inodes [] := by
  unfold IfOk Fs.openPath
  refine (fs_run h.kept.beginOp).bind ?_
  rintro _ _ ⟨g, rfl, hg⟩
  refine (fs_run (hg.openInode (users_pos hcwd))).bind ?_
  rintro r _ ⟨g', rfl, hg', hfile⟩
  cases r with
  | none =>
      have hnone : InOrder p files inodes [] { s with toFileSys := g' } := h.setFs hg'
      exact (hnone.keep hnone.kept.endOp).bind fun _ _ ht => ht
  | some ip =>
      have hopen : InOrder p files (ip :: inodes) [ip] { s with toFileSys := g' } := h.setFs hg'
      replace hfile : omode ≠ O_RDONLY → (({ s with toFileSys := g' } : Sys).inode ip).type ≠
        T_DIR := hfile ip rfl
      generalize { s with toFileSys := g' } = u at hopen hfile ⊢
      dsimp only
      rw [Ends.get_bind_iff]
      split
      · exact hopen.keep hopen.kept.openBad
      · refine filealloc_eq.ifOk.bind fun r v hv => ?_
        cases r with
        | none =>
            obtain rfl := hv
            exact hopen.keep hopen.kept.openBad
        | some f =>
            obtain ⟨hfree, rfl⟩ := hv
            have hnew : (u.file f).type = .none := hopen.idle f hfree
            have htake := hopen.take hfree
            have hself : (u.setFile f { u.file f with ref := 1 }).file f =
              { u.file f with ref := 1 } := Function.update_self _ _ _
            refine fdalloc_eq.ifOk.bind fun r w hw => ?_
            cases r with
            | none =>
                obtain rfl := hw
                have hnone : ((u.setFile f { u.file f with ref := 1 }).file f).type = .none := by
                  rw [hself]
                  exact hnew
                have hclose := InOrder.of htake.toRefs.fileclose
                  ((fileclose_alike hnone).post fun _ _ ht => htake.toWhole.alike ht)
                exact hclose.bind fun _ x hx => hx.keep hx.kept.openBad
            | some fd =>
                obtain ⟨hfd, rfl⟩ := hw
                have hplaced := htake.place hfd
                dsimp only
                rw [Ends.modify_bind_iff]
                have hdone : ∀ y, InOrder p files inodes [ip] y →
                    IfOk (SysM.fs (Fs.openDone ip omode) >>= fun _ => pure (fd.val : Int)) y
                      fun _ => InOrder p files inodes [] :=
                  fun y hy => (hy.keep hy.kept.openDone).bind fun _ _ hx => hx
                apply hdone
                apply hplaced.fill
                · change ((u.setFile f { u.file f with ref := 1 }).file f).type = .none
                  rw [hself]
                  exact hnew
                · rfl
                · change ((u.setFile f { u.file f with ref := 1 }).file f).ref ≠ 0
                  rw [hself]
                  exact Nat.one_ne_zero
                · refine ⟨?_, rfl⟩
                  dsimp only
                  split
                  · exact Or.inr rfl
                  · exact Or.inl rfl
                · intro hwritable
                  refine hopen.toWhole.plain_locked List.mem_cons_self (hfile (ne_rdonly ?_))
                  simpa using hwritable

theorem InOrder.sysChdir (h : InOrder p files inodes [] s) {cwd : Fin NINODE}
    {path : Option CStr} (hcwd : (s.proc p).cwd = some cwd) :
    IfOk (sysChdir p cwd path) s fun _ => InOrder p files inodes [] := by
  refine InOrder.of (h.toRefs.sysChdir hcwd) ?_
  unfold IfOk Fs.sysChdir
  refine (fs_run (h.kept.chdirInode fun i => setCwd_sum hcwd)).bind ?_
  rintro r _ ⟨g, rfl, hg⟩
  cases r with
  | none => exact (h.setFs hg).toWhole
  | some ip =>
      have hwhole : Whole [] { s with toFileSys := g } :=
        h.toWhole.fs hg fun f hf => users_file (s := s.setCwd p none) hf
      exact hwhole.alike (.of_file rfl rfl)

/-! ### Pipes -/

/-- The files of a pipe are no inodes. -/
theorem InOrder.pipealloc (h : InOrder p files inodes [] s) {page : Option Nat} :
    IfOk (Fs.pipealloc page) s fun _ => Whole [] := by
  unfold IfOk Fs.pipealloc
  refine filealloc_eq.ifOk.bind fun r t ht => ?_
  cases r with
  | none =>
      obtain rfl := ht
      exact h.toWhole
  | some f0 =>
      obtain ⟨hfree0, rfl⟩ := ht
      have htake0 := h.take hfree0
      refine filealloc_eq.ifOk.bind fun r u hu => ?_
      cases r with
      | none =>
          obtain rfl := hu
          exact htake0.fileclose.bind fun _ _ hv => hv.toWhole
      | some f1 =>
          obtain ⟨hfree1, rfl⟩ := hu
          have htake1 := htake0.take hfree1
          cases page with
          | none =>
              have hswap : InOrder p (f0 :: f1 :: files) inodes [] _ := ⟨htake1.swap, htake1.toWhole⟩
              exact hswap.fileclose.bind fun _ _ hv => hv.fileclose.bind fun _ _ hw => hw.toWhole
          | some pg =>
              dsimp only
              rw [Ends.modify_bind_iff, Ends.modify_bind_iff, Ends.modify_bind_iff]
              have hpipe := htake1.toWhole.alike (.setPipe pg (some ⟨true, true⟩))
              refine Whole.alike (Whole.alike hpipe (.setFile ?_)) (.setFile ?_)
              · exact nofun
              · exact nofun

theorem InOrder.sysPipe (h : InOrder p files inodes [] s) {page : Option Nat} {copied : Bool}
    (hpage : ∀ pg, page = some pg → s.pipe pg = none) :
    IfOk (Fs.sysPipe p page copied) s fun _ => Whole [] := by
  have hback : ∀ {rf wf : Fin NFILE} t, InOrder p (rf :: wf :: files) inodes [] t →
      IfOk (Fs.fileclose rf >>= fun _ => Fs.fileclose wf >>= fun _ => pure (-1 : Int)) t
        fun _ => Whole [] :=
    fun t ht => ht.fileclose.bind fun _ _ hu => hu.fileclose.bind fun _ _ hv => hv.toWhole
  unfold IfOk Fs.sysPipe
  refine ((h.toRefs.pipealloc hpage).ifOk.both h.pipealloc).bind ?_
  rintro r t ⟨ht, hwhole⟩
  cases r with
  | none => exact hwhole
  | some r =>
      obtain ⟨rf, wf⟩ := r
      have hmade : InOrder p (rf :: wf :: files) inodes [] t := ⟨ht, hwhole⟩
      refine fdalloc_eq.ifOk.bind fun r u hu => ?_
      cases r with
      | none =>
          obtain rfl := hu
          exact hback u hmade
      | some fd0 =>
          obtain ⟨hfd0, rfl⟩ := hu
          have hplaced0 := hmade.place hfd0
          have hat0 : ((t.setOfile p fd0 (some rf)).proc p).ofile fd0 = some rf := by
            simp [Sys.setOfile, setProc]
          refine fdalloc_eq.ifOk.bind fun r v hv => ?_
          cases r with
          | none =>
              obtain rfl := hv
              dsimp only
              rw [Ends.modify_bind_iff]
              exact hback _ (hplaced0.unplace hat0)
          | some fd1 =>
              obtain ⟨hfd1, rfl⟩ := hv
              have hplaced1 := hplaced0.place hfd1
              have hne : fd0 ≠ fd1 := by
                rintro rfl
                rw [hat0] at hfd1
                cases hfd1
              dsimp only
              split
              · exact hplaced1.toWhole
              · rw [Ends.modify_bind_iff, Ends.modify_bind_iff]
                have hat1 : (((t.setOfile p fd0 (some rf)).setOfile p fd1 (some wf)).proc p).ofile
                    fd0 = some rf := by simp [Sys.setOfile, setProc, hne]
                have hback0 := hplaced1.unplace hat1
                have hat2 : ((((t.setOfile p fd0 (some rf)).setOfile p fd1 (some wf)).setOfile p
                    fd0 none).proc p).ofile fd1 = some wf := by
                  simp [Sys.setOfile, setProc, hne.symm]
                have hback1 := hback0.unplace hat2
                exact hback _ ⟨hback1.swap, hback1.toWhole⟩

/-! ### Processes -/

/-- The processes have no part in it. -/
theorem Whole.withProc (h : Whole locks s) {proc : Slot → Proc} : Whole locks (s.withProc proc) :=
  h.alike (.of_file rfl rfl)

theorem InOrder.exitFile (h : InOrder p files inodes [] s) :
    IfOk (exitFile p fd) s fun _ => Whole [] := by
  unfold IfOk Fs.exitFile
  rw [Ends.get_bind_iff]
  split
  next hnone => exact h.toWhole
  next f hf =>
    -- the file is closed before the descriptor, which makes no difference
    have hclose := (h.unplace hf).fileclose
    rw [show s.setOfile p fd none = s.withProc (s.setOfile p fd none).proc from rfl] at hclose
    unfold IfOk Ends at hclose
    rw [fileclose_withProc] at hclose
    unfold Ends
    simp only [bind, EStateM.bind]
    cases hcase : Fs.fileclose f s with
    | error e t => trivial
    | ok a t =>
        rw [hcase] at hclose
        have hback : Whole [] ((t.withProc (s.setOfile p fd none).proc).withProc t.proc) :=
          hclose.toWhole.withProc
        exact hback.alike .setOfile

/-- The loop of `exit`. -/
theorem InOrder.exitFiles (h : InOrder p files inodes [] s) :
    IfOk ((List.finRange NOFILE).forM (Fs.exitFile p)) s fun _ => InOrder p files inodes [] := by
  refine Keeps.forM (P := InOrder p files inodes []) (fun fd t ht => ?_) s h
  exact InOrder.of (ht.toRefs.exitFile.post fun _ _ hu => hu.1) ht.exitFile

/-- **`exit`** gives up the current directory in a transaction. -/
theorem InOrder.exit (h : InOrder p files inodes [] s) {cwd : Fin NINODE}
    (hcwd : (s.proc p).cwd = some cwd) : IfOk (Fs.exit p cwd) s fun _ => Whole [] := by
  unfold IfOk Fs.exit
  split
  · trivial
  · refine (h.toRefs.exitFiles.ifOk.both h.exitFiles).bind ?_
    rintro _ t ⟨⟨hrefs, hsamecwd, -⟩, ht⟩
    have hhold : FileSys.Counted (t.setCwd p none).users (cwd :: inodes) t.toFileSys := by
      apply hrefs.inode.rebase
      intro i
      rw [setCwd_sum (hsamecwd.trans hcwd), count_cons_if]
      omega
    have hkept : Kept (t.setCwd p none).users t.toFileSys (cwd :: inodes) [] t.toFileSys :=
      .start hhold ht.steady
    refine (fs_run hkept.putInode).bind ?_
    rintro _ _ ⟨g, rfl, hg⟩
    rw [Ends.modify_bind_iff, Ends.modify_bind_iff, Ends.modify_iff]
    have hwhole : Whole [] { t with toFileSys := g } :=
      ht.toWhole.fs hg fun f hf => users_file (s := t.setCwd p none) hf
    exact hwhole.alike (.of_file rfl rfl)

theorem forkFile_alike {np : Slot} : IfOk (forkFile p np fd) s fun _ => Alike s := by
  unfold IfOk Fs.forkFile
  rw [Ends.get_bind_iff]
  split
  · exact .refl
  · refine filedup_eq.ifOk.bind fun _ t ht => ?_
    obtain ⟨-, rfl⟩ := ht
    exact Alike.setRef.trans .setOfile

theorem InOrder.fork (h : InOrder p files inodes [] s) {cwd : Fin NINODE} {memory : Bool}
    (hcwd : (s.proc p).cwd = some cwd) : IfOk (Fs.fork p cwd memory) s fun _ => Whole [] := by
  unfold IfOk Fs.fork
  rw [Ends.get_bind_iff]
  split
  · exact h.toWhole
  next np hfound =>
    split
    · exact h.toWhole
    · rw [Ends.modify_bind_iff]
      have hunused : (s.proc np).state = .unused := by simpa using List.find?_some hfound
      have hstart := h.forking hcwd hunused
      have hwhole : Whole [] (s.setProc np { s.proc np with state := .used }) :=
        h.toWhole.alike (.of_file rfl rfl)
      refine Ends.bind (Ends.forM (I := fun rest t =>
        Forking p np cwd files inodes rest t ∧ Whole [] t) ⟨hstart, hwhole⟩
        fun fd rest t ht => ?_) fun _ t ht => ?_
      · exact (ht.1.step.ifOk.both forkFile_alike).post fun _ _ hu => ⟨hu.1, ht.2.alike hu.2⟩
      · have hsound : InOrder p files inodes [] t := ⟨ht.1.refs, ht.2⟩
        refine (hsound.keep ((hsound.kept.idup (users_pos ht.1.cwd)).post
          fun _ _ hj => hj.2)).bind fun _ u hu => ?_
        exact hu.toWhole.alike (.of_file rfl rfl)

theorem InOrder.wait (h : InOrder p files inodes [] s) {copied : Bool} :
    IfOk (Fs.wait p copied) s fun _ => Whole [] := by
  unfold IfOk Fs.wait
  rw [Ends.get_bind_iff]
  split
  · split
    · exact h.toWhole.alike (.of_file rfl rfl)
    · exact h.toWhole
  · split
    · trivial
    · exact h.toWhole

/-! ### Runs -/

theorem InOrder.call (h : InOrder p [] [] [] s) {cwd : Fin NINODE} {c : Call}
    (hcwd : (s.proc p).cwd = some cwd) (hfresh : c.Fresh s) :
    IfOk (c.run p cwd) s fun _ => Whole [] := by
  have hwhole : ∀ {x : SysM Int}, IfOk x s (fun _ => InOrder p [] [] []) →
      IfOk x s fun _ => Whole [] :=
    fun hx => hx.post fun _ _ ht => ht.toWhole
  have hbase := users_pos hcwd
  cases c with
  | dup fd => exact hwhole h.sysDup
  | read fd dst n => exact hwhole h.sysRead
  | write fd src n => exact hwhole h.sysWrite
  | close fd => exact hwhole h.sysClose
  | fstat fd => exact hwhole h.sysFstat
  | link old new =>
      cases old with
      | none => exact h.toWhole
      | some old =>
          cases new with
          | none => exact h.toWhole
          | some new => exact hwhole (h.keep (h.kept.linkPaths hbase))
  | unlink path =>
      cases path with
      | none => exact h.toWhole
      | some path => exact hwhole (h.keep (h.kept.unlinkPath hbase))
  | openFile path omode =>
      cases path with
      | none => exact h.toWhole
      | some path => exact hwhole (h.openPath hcwd)
  | mkdir path => exact hwhole (h.keep (h.kept.makeNode hbase (by decide)))
  | mknod path major minor => exact hwhole (h.keep (h.kept.makeNode hbase (by decide)))
  | chdir path => exact hwhole (h.sysChdir hcwd)
  | exec path reads =>
      cases path with
      | none => exact h.toWhole
      | some path => exact hwhole ((h.keep (h.kept.exec hbase)).bind fun _ _ ht => ht)
  | pipe page copied =>
      refine h.sysPipe ?_
      rintro pg rfl
      exact hfresh
  | fork memory => exact h.fork hcwd
  | exit => exact (h.exit hcwd).bind fun _ _ ht => ht
  | wait copied => exact h.wait

theorem Whole.step (h : Whole [] s) (hbooks : Books [] [] s) {e : Slot × Call}
    (hstep : s.step e = some t) : Whole [] t := by
  unfold Sys.step at hstep
  split at hstep
  next cwd hruns hcwd =>
    split at hstep
    next hfresh =>
      have hcall := (InOrder.mk (Refs.mk hbooks hruns) h).call hcwd hfresh
      cases hcase : e.2.run e.1 cwd s with
      | ok r u =>
          rw [hcase] at hstep
          obtain rfl := Option.some.inj hstep
          exact hcall.ok hcase
      | error text u =>
          rw [hcase] at hstep
          cases hstep
    next => cases hstep
  next => cases hstep

end Sys

end Fs
