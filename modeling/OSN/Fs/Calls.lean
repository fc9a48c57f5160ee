import OSN.Fs.Dir
import OSN.Lib.Run
import OSN.Kernel.Proc

/-!
# The system calls on files

The file table, the open files and the current directory of each process, and the
system calls on them.  A call runs from its beginning to its end; one that fails in the
sense of `Fs.Disk` never returns, and nothing happens after it.

A call takes from memory what it is given here: a path as `argstr` has it (`none` when
it cannot be read or is too long), whether a destination can be written and what a
source holds, whether `kalloc`, `copyout` and the copy of the memory in `fork` succeed.
What pipes and devices transfer is left out, as is `exec` but for what it reads of the
file.
-/

namespace Fs

open Xv6 (MAXOPBLOCKS Slot NPROC ProcState)

/-- Open files per process. -/
def NOFILE : Nat := 16

/-- Open files per system. -/
def NFILE : Nat := 100

instance neZeroOfile : NeZero NOFILE := ⟨by decide⟩

instance neZeroFile : NeZero NFILE := ⟨by decide⟩

/-- Maximum major device number. -/
def NDEV : Nat := 10

def O_RDONLY : UInt32 := 0x000
def O_WRONLY : UInt32 := 0x001
def O_RDWR : UInt32 := 0x002
def O_CREATE : UInt32 := 0x200
def O_TRUNC : UInt32 := 0x400

inductive FileType where
  | none | pipe | inode | device
  deriving DecidableEq

/-- `struct file`. -/
structure File where
  type : FileType
  ref : Nat
  readable : Bool
  writable : Bool
  pipe : Nat
  ip : Fin NINODE
  off : Nat
  major : UInt16

/-- Which ends of a pipe are open. -/
structure Pipe where
  readopen : Bool
  writeopen : Bool
  deriving DecidableEq

/-- `struct proc`, as far as files go. -/
structure Proc where
  state : ProcState
  parent : Option Slot
  ofile : Fin NOFILE → Option (Fin NFILE)
  cwd : Option (Fin NINODE)

/-- The file system, `ftable`, the pages that hold a pipe, and the processes. -/
structure Sys extends FileSys where
  file : Fin NFILE → File
  pipe : Nat → Option Pipe
  proc : Slot → Proc

/-- How a system call fails: it stops as code of the file system does, or uses a page
that has been freed. -/
inductive Fault where
  | stop (text : String)
  | freed (page : Nat)
  deriving DecidableEq

/-- Code of a system call. -/
abbrev SysM := EStateM Fault Sys

/-- The file system of the kernel. -/
def Sys.fsPart : Component Sys FileSys where
  get := Sys.toFileSys
  set := fun f s => { s with toFileSys := f }

/-- Work on the file system. -/
def SysM.fs {α : Type} (x : FsM α) : SysM α := (Sys.fsPart.run x).adaptExcept .stop

namespace Sys

def setFile (s : Sys) (f : Fin NFILE) (ff : File) : Sys :=
  { s with file := Function.update s.file f ff }

def setPipe (s : Sys) (pg : Nat) (pi : Option Pipe) : Sys :=
  { s with pipe := Function.update s.pipe pg pi }

def setProc (s : Sys) (p : Slot) (pr : Proc) : Sys :=
  { s with proc := Function.update s.proc p pr }

/-- `p->ofile[fd] = f`. -/
def setOfile (s : Sys) (p : Slot) (fd : Fin NOFILE) (f : Option (Fin NFILE)) : Sys :=
  s.setProc p { s.proc p with ofile := Function.update (s.proc p).ofile fd f }

/-- `p->cwd = ip`. -/
def setCwd (s : Sys) (p : Slot) (ip : Option (Fin NINODE)) : Sys :=
  s.setProc p { s.proc p with cwd := ip }

end Sys

/-! ### The file table -/

/-- `filealloc`. -/
def filealloc : SysM (Option (Fin NFILE)) := do
  let s ← get
  match (List.finRange NFILE).find? fun f => (s.file f).ref = 0 with
  | some f =>
      set (s.setFile f { s.file f with ref := 1 })
      return some f
  | none => return none

/-- `filedup`. -/
def filedup (f : Fin NFILE) : SysM Unit := do
  let s ← get
  if (s.file f).ref < 1 then throw (.stop "filedup")
  else set (s.setFile f { s.file f with ref := (s.file f).ref + 1 })

/-- `pipeclose`.  A pipe whose page has been freed is not there any more. -/
def pipeclose (pg : Nat) (writable : Bool) : SysM Unit := do
  let s ← get
  match s.pipe pg with
  | none => throw (.freed pg)
  | some pi =>
      let pi := if writable then { pi with writeopen := false } else { pi with readopen := false }
      if pi.readopen = false ∧ pi.writeopen = false then set (s.setPipe pg none)
      else set (s.setPipe pg (some pi))

/-- A transaction that drops an inode. -/
def putInode (ip : Fin NINODE) : FsM Unit := do
  .disk beginOp
  iput ip
  .disk endOp

/-- `fileclose`. -/
def fileclose (f : Fin NFILE) : SysM Unit := do
  let s ← get
  let ff := s.file f
  if ff.ref < 1 then throw (.stop "fileclose")
  else if ff.ref - 1 > 0 then set (s.setFile f { ff with ref := ff.ref - 1 })
  else
    set (s.setFile f { ff with ref := 0, type := .none })
    match ff.type with
    | .pipe => pipeclose ff.pipe ff.writable
    | .inode | .device => .fs (putInode ff.ip)
    | .none => pure ()

/-- A pass of the loop of `filewrite`: what `writei` returns. -/
def writeChunk (ip : Fin NINODE) (src : Nat → Option UInt8) (off n1 : Nat) : FsM Int := do
  .disk beginOp
  ilock ip
  let s ← get
  let r ← .node ip (writei (s.inode ip).inum src off n1)
  iunlock ip
  .disk endOp
  return r

/-- `max` of `filewrite`. -/
def MAXWRITE : Nat := (MAXOPBLOCKS - 1 - 1 - 2) / 2 * BSIZE

/-- The loop of `filewrite`; it returns `i`. -/
def writeChunks (f : Fin NFILE) (src : Nat → Option UInt8) (n : Nat) : Nat → Nat → SysM Nat
  | 0, i => return i
  | fuel + 1, i =>
      if i < n then do
        let n1 := min (n - i) MAXWRITE
        let s ← get
        let r ← .fs (writeChunk (s.file f).ip (fun k => src (i + k)) (s.file f).off n1)
        if r > 0 then
          modify fun s => s.setFile f { s.file f with off := (s.file f).off + r.toNat }
        if r ≠ n1 then return i
        else writeChunks f src n fuel (i + n1)
      else return i

/-- `filewrite` to an inode. -/
def filewriteInode (f : Fin NFILE) (src : Nat → Option UInt8) (n : Int) : SysM Int := do
  let i ← writeChunks f src n.toNat n.toNat 0
  return if (i : Int) = n then n else -1

/-- A read of an inode. -/
def lockedRead (ip : Fin NINODE) (dst : Nat → Bool) (off n : Nat) : FsM (Int × List UInt8) := do
  ilock ip
  let r ← .node ip (readi dst off n)
  iunlock ip
  return r

/-- `fileread` from an inode. -/
def filereadInode (f : Fin NFILE) (dst : Nat → Bool) (n : Nat) : SysM (Int × List UInt8) := do
  let s ← get
  let (r, l) ← .fs (lockedRead (s.file f).ip dst (s.file f).off n)
  if r > 0 then
    modify fun s => s.setFile f { s.file f with off := (s.file f).off + r.toNat }
  return (r, l)

/-- `filestat`, before its `copyout`. -/
def filestat (ip : Fin NINODE) : FsM Unit := do
  ilock ip
  iunlock ip

/-! ### The calls -/

/-- `argfd`. -/
def argfd (p : Slot) (fd : Int) : SysM (Option (Fin NOFILE × Fin NFILE)) := do
  let s ← get
  if h : 0 ≤ fd ∧ fd < NOFILE then
    let fd : Fin NOFILE := ⟨fd.toNat, by omega⟩
    return ((s.proc p).ofile fd).map fun f => (fd, f)
  else return none

/-- `fdalloc`. -/
def fdalloc (p : Slot) (f : Fin NFILE) : SysM (Option (Fin NOFILE)) := do
  let s ← get
  match (List.finRange NOFILE).find? fun fd => (s.proc p).ofile fd = none with
  | some fd =>
      set (s.setOfile p fd (some f))
      return some fd
  | none => return none

/-- `sys_dup`. -/
def sysDup (p : Slot) (fd : Int) : SysM Int := do
  match ← argfd p fd with
  | none => return -1
  | some (_, f) =>
    match ← fdalloc p f with
    | none => return -1
    | some fd =>
        filedup f
        return fd.val

/-- `sys_read`. -/
def sysRead (p : Slot) (fd : Int) (dst : Nat → Bool) (n : Int32) : SysM Int := do
  match ← argfd p fd with
  | none => return -1
  | some (_, f) =>
      let s ← get
      if (s.file f).readable = false then return -1
      else
        match (s.file f).type with
        | .inode => return (← filereadInode f dst n.toUInt32.toNat).1
        | .none => throw (.stop "fileread")
        | .pipe | .device => return -1

/-- `sys_write`. -/
def sysWrite (p : Slot) (fd : Int) (src : Nat → Option UInt8) (n : Int32) : SysM Int := do
  match ← argfd p fd with
  | none => return -1
  | some (_, f) =>
      let s ← get
      if (s.file f).writable = false then return -1
      else
        match (s.file f).type with
        | .inode => filewriteInode f src n.toInt
        | .none => throw (.stop "filewrite")
        | .pipe | .device => return -1

/-- `sys_close`. -/
def sysClose (p : Slot) (fd : Int) : SysM Int := do
  match ← argfd p fd with
  | none => return -1
  | some (fd, f) =>
      modify fun s => s.setOfile p fd none
      fileclose f
      return 0

/-- `sys_fstat`. -/
def sysFstat (p : Slot) (fd : Int) : SysM Int := do
  match ← argfd p fd with
  | none => return -1
  | some (_, f) =>
      let s ← get
      match (s.file f).type with
      | .inode | .device =>
          .fs (filestat (s.file f).ip)
          return 0
      | .none | .pipe => return -1

/-- The end of `sys_link` after an error. -/
def unlinkBack (ip : Fin NINODE) : FsM Int := do
  ilock ip
  let s ← get
  .node ip do
    modify fun s => { s with ip := { s.ip with nlink := s.ip.nlink - 1 } }
    iupdate (s.inode ip).inum
  iunlockput ip
  .disk endOp
  return -1

/-- `sys_link`, from its `begin_op` on. -/
def linkPaths (cwd : Fin NINODE) (old new : CStr) : FsM Int := do
  .disk beginOp
  match ← namei cwd old with
  | none =>
      .disk endOp
      return -1
  | some ip =>
      ilock ip
      let s ← get
      if (s.inode ip).type = T_DIR then
        iunlockput ip
        .disk endOp
        return -1
      else
        .node ip do
          modify fun s => { s with ip := { s.ip with nlink := s.ip.nlink + 1 } }
          iupdate (s.inode ip).inum
        iunlock ip
        match ← nameiparent cwd new with
        | none => unlinkBack ip
        | some (dp, name) =>
            ilock dp
            let s ← get
            if (s.inode dp).dev ≠ (s.inode ip).dev then
              iunlockput dp
              unlinkBack ip
            else if (← dirlink dp name (s.inode ip).inum) < 0 then
              iunlockput dp
              unlinkBack ip
            else
              iunlockput dp
              iput ip
              .disk endOp
              return 0

/-- `bad:` of `sys_unlink`. -/
def unlinkBad (dp : Fin NINODE) : FsM Int := do
  iunlockput dp
  .disk endOp
  return -1

/-- `nlink--` and `iupdate`. -/
def dropLink (ip : Fin NINODE) : FsM Unit := do
  let s ← get
  .node ip do
    modify fun s => { s with ip := { s.ip with nlink := s.ip.nlink - 1 } }
    iupdate (s.inode ip).inum

/-- The end of `sys_unlink`, which removes the entry of `ip` at `off` from `dp`. -/
def removeEntry (dp ip : Fin NINODE) (off : Nat) : FsM Int := do
  let s ← get
  .node dp (writeDirent "unlink: writei" (s.inode dp).inum ⟨0, List.replicate DIRSIZ 0⟩ off)
  if (s.inode ip).type = T_DIR then dropLink dp
  iunlockput dp
  dropLink ip
  iunlockput ip
  .disk endOp
  return 0

/-- `sys_unlink`, from its `begin_op` on. -/
def unlinkPath (cwd : Fin NINODE) (path : CStr) : FsM Int := do
  .disk beginOp
  match ← nameiparent cwd path with
  | none =>
      .disk endOp
      return -1
  | some (dp, name) =>
      ilock dp
      if namecmp name dot ∨ namecmp name dotdot then unlinkBad dp
      else
        match ← dirlookup dp name with
        | none => unlinkBad dp
        | some (ip, off) =>
            ilock ip
            let s ← get
            if (s.inode ip).nlink.toInt16 < 1 then throw "unlink: nlink < 1"
            else if (s.inode ip).type = T_DIR then
              if ← isdirempty ip then removeEntry dp ip off
              else
                iunlockput ip
                unlinkBad dp
            else removeEntry dp ip off

/-- The part of `create` that makes a new inode under a name of `dp`. -/
def createIn (dp : Fin NINODE) (name : CStr) (type major minor : UInt16) :
    FsM (Option (Fin NINODE)) := do
  let s ← get
  let ip ← ialloc (s.inode dp).dev type
  ilock ip
  let s ← get
  let inum := (s.inode ip).inum
  let dinum := (s.inode dp).inum
  .node ip do
    modify fun s => { s with ip := { s.ip with major, minor, nlink := 1 } }
    iupdate inum
  if type = T_DIR then
    .node dp do
      modify fun s => { s with ip := { s.ip with nlink := s.ip.nlink + 1 } }
      iupdate dinum
    if (← dirlink ip dot inum) < 0 then throw "create dots"
    else if (← dirlink ip dotdot dinum) < 0 then throw "create dots"
  if (← dirlink dp name inum) < 0 then throw "create: dirlink"
  else
    iunlockput dp
    return some ip

/-- `create`. -/
def create (cwd : Fin NINODE) (path : CStr) (type major minor : UInt16) :
    FsM (Option (Fin NINODE)) := do
  match ← nameiparent cwd path with
  | none => return none
  | some (dp, name) =>
      ilock dp
      match ← dirlookup dp name with
      | some (ip, _) =>
          iunlockput dp
          ilock ip
          let s ← get
          if type = T_FILE ∧ ((s.inode ip).type = T_FILE ∨ (s.inode ip).type = T_DEVICE) then
            return some ip
          else
            iunlockput ip
            return none
      | none => createIn dp name type major minor

/-- The inode that `sys_open` opens, locked. -/
def openInode (cwd : Fin NINODE) (path : CStr) (omode : UInt32) : FsM (Option (Fin NINODE)) := do
  if omode &&& O_CREATE ≠ 0 then create cwd path T_FILE 0 0
  else
    match ← namei cwd path with
    | none => return none
    | some ip =>
        ilock ip
        let s ← get
        if (s.inode ip).type = T_DIR ∧ omode ≠ O_RDONLY then
          iunlockput ip
          return none
        else return some ip

/-- An error of `sys_open` with the inode in hand. -/
def openBad (ip : Fin NINODE) : FsM Int := do
  iunlockput ip
  .disk endOp
  return -1

/-- The end of `sys_open`. -/
def openDone (ip : Fin NINODE) (omode : UInt32) : FsM Unit := do
  let s ← get
  if omode &&& O_TRUNC ≠ 0 ∧ (s.inode ip).type = T_FILE then
    .node ip (itrunc (s.inode ip).inum)
  iunlock ip
  .disk endOp

/-- `sys_open`, from its `begin_op` on. -/
def openPath (p : Slot) (cwd : Fin NINODE) (path : CStr) (omode : UInt32) : SysM Int := do
  .fs (.disk beginOp)
  match ← .fs (openInode cwd path omode) with
  | none =>
      .fs (.disk endOp)
      return -1
  | some ip =>
      let s ← get
      if (s.inode ip).type = T_DEVICE ∧ ¬ (s.inode ip).major < UInt16.ofNat NDEV then
        -- a negative `short` is one of the large numbers
        .fs (openBad ip)
      else
        match ← filealloc with
        | none => .fs (openBad ip)
        | some f =>
          match ← fdalloc p f with
          | none =>
              fileclose f
              .fs (openBad ip)
          | some fd =>
              modify fun s =>
                s.setFile f
                  { s.file f with
                    type := if (s.inode ip).type = T_DEVICE then .device else .inode
                    major := if (s.inode ip).type = T_DEVICE then (s.inode ip).major
                      else (s.file f).major
                    off := if (s.inode ip).type = T_DEVICE then (s.file f).off else 0
                    ip
                    readable := omode &&& O_WRONLY = 0
                    writable := omode &&& O_WRONLY ≠ 0 ∨ omode &&& O_RDWR ≠ 0 }
              .fs (openDone ip omode)
              return fd.val

/-- `sys_mkdir` and `sys_mknod`. -/
def makeNode (cwd : Fin NINODE) (path : Option CStr) (type major minor : UInt16) : FsM Int := do
  .disk beginOp
  match path with
  | none =>
      .disk endOp
      return -1
  | some path =>
    match ← create cwd path type major minor with
    | none =>
        .disk endOp
        return -1
    | some ip =>
        iunlockput ip
        .disk endOp
        return 0

/-- The lookup of `sys_chdir`, and its errors. -/
def chdirInode (cwd : Fin NINODE) (path : Option CStr) : FsM (Option (Fin NINODE)) := do
  .disk beginOp
  match path with
  | none =>
      .disk endOp
      return none
  | some path =>
    match ← namei cwd path with
    | none =>
        .disk endOp
        return none
    | some ip =>
        ilock ip
        let s ← get
        if (s.inode ip).type ≠ T_DIR then
          iunlockput ip
          .disk endOp
          return none
        else
          iunlock ip
          iput cwd
          .disk endOp
          return some ip

/-- `sys_chdir`. -/
def sysChdir (p : Slot) (cwd : Fin NINODE) (path : Option CStr) : SysM Int := do
  match ← .fs (chdirInode cwd path) with
  | none => return -1
  | some ip =>
      modify fun s => s.setCwd p (some ip)
      return 0

/-- A read of `exec` from the file. -/
def execRead (ip : Fin NINODE) (read : Nat × Nat) : FsM Unit := do
  let _ ← .node ip (readi kernelDst read.1 read.2)

/-- `exec`, with what the headers and the segments of the file make it read. -/
def exec (cwd : Fin NINODE) (path : CStr) (reads : List (Nat × Nat)) : FsM Unit := do
  .disk beginOp
  match ← namei cwd path with
  | none => .disk endOp
  | some ip =>
      ilock ip
      reads.forM (execRead ip)
      iunlockput ip
      .disk endOp

/-- `pipealloc`; `page` is what `kalloc` returns. -/
def pipealloc (page : Option Nat) : SysM (Option (Fin NFILE × Fin NFILE)) := do
  match ← filealloc with
  | none => return none
  | some f0 =>
    match ← filealloc with
    | none =>
        fileclose f0
        return none
    | some f1 =>
      match page with
      | none =>
          fileclose f0
          fileclose f1
          return none
      | some pg =>
          modify fun s => s.setPipe pg (some ⟨true, true⟩)
          modify fun s =>
            s.setFile f0
              { s.file f0 with type := .pipe, readable := true, writable := false, pipe := pg }
          modify fun s =>
            s.setFile f1
              { s.file f1 with type := .pipe, readable := false, writable := true, pipe := pg }
          return some (f0, f1)

/-- `sys_pipe`; `copied` tells whether the `copyout`s succeed. -/
def sysPipe (p : Slot) (page : Option Nat) (copied : Bool) : SysM Int := do
  match ← pipealloc page with
  | none => return -1
  | some (rf, wf) =>
    match ← fdalloc p rf with
    | none =>
        fileclose rf
        fileclose wf
        return -1
    | some fd0 =>
      match ← fdalloc p wf with
      | none =>
          modify fun s => s.setOfile p fd0 none
          fileclose rf
          fileclose wf
          return -1
      | some fd1 =>
          if copied then return 0
          else
            modify fun s => s.setOfile p fd0 none
            modify fun s => s.setOfile p fd1 none
            fileclose rf
            fileclose wf
            return -1

/-- A pass of the loop over the open files in `fork`. -/
def forkFile (p np : Slot) (fd : Fin NOFILE) : SysM Unit := do
  let s ← get
  match (s.proc p).ofile fd with
  | none => pure ()
  | some f =>
      filedup f
      modify fun s => s.setOfile np fd (some f)

/-- `fork`; `memory` tells whether all of its allocations succeed. -/
def fork (p : Slot) (cwd : Fin NINODE) (memory : Bool) : SysM Int := do
  let s ← get
  match (List.finRange NPROC).find? fun np => (s.proc np).state = .unused with
  | none => return -1
  | some np =>
      if memory = false then return -1
      else
        modify fun s => s.setProc np { s.proc np with state := .used }
        (List.finRange NOFILE).forM (forkFile p np)
        let _ ← .fs (idup cwd)
        modify fun s =>
          s.setProc np { s.proc np with cwd := some cwd, parent := some p, state := .runnable }
        return np.val

/-- A pass of the loop over the open files in `exit`. -/
def exitFile (p : Slot) (fd : Fin NOFILE) : SysM Unit := do
  let s ← get
  match (s.proc p).ofile fd with
  | none => pure ()
  | some f =>
      fileclose f
      modify fun s => s.setOfile p fd none

/-- `initproc` is the first process. -/
def initproc : Slot := 0

/-- `reparent`. -/
def Sys.reparent (s : Sys) (p : Slot) : Sys :=
  { s with
    proc := fun q =>
      if (s.proc q).parent = some p then { s.proc q with parent := some initproc } else s.proc q }

/-- `exit`. -/
def exit (p : Slot) (cwd : Fin NINODE) : SysM Unit := do
  if p = initproc then throw (.stop "init exiting")
  else
    (List.finRange NOFILE).forM (exitFile p)
    .fs (putInode cwd)
    modify fun s => s.setCwd p none
    modify fun s => s.reparent p
    modify fun s => s.setProc p { s.proc p with state := .zombie }

/-- `wait`, when a child has exited; `copied` tells whether its `copyout` succeeds. -/
def wait (p : Slot) (copied : Bool) : SysM Int := do
  let s ← get
  match (List.finRange NPROC).find? fun np =>
      (s.proc np).parent = some p ∧ (s.proc np).state = .zombie with
  | some np =>
      if copied then
        modify fun s => s.setProc np { s.proc np with parent := none, state := .unused }
        return np.val
      else return -1
  | none =>
      if ∃ np, (s.proc np).parent = some p then throw (.stop "sleeps in wait") else return -1

/-! ### Runs -/

/-- A system call with its arguments. -/
inductive Call where
  | dup (fd : Int)
  | read (fd : Int) (dst : Nat → Bool) (n : Int32)
  | write (fd : Int) (src : Nat → Option UInt8) (n : Int32)
  | close (fd : Int)
  | fstat (fd : Int)
  | link (old new : Option CStr)
  | unlink (path : Option CStr)
  | openFile (path : Option CStr) (omode : UInt32)
  | mkdir (path : Option CStr)
  | mknod (path : Option CStr) (major minor : UInt16)
  | chdir (path : Option CStr)
  | exec (path : Option CStr) (reads : List (Nat × Nat))
  | pipe (page : Option Nat) (copied : Bool)
  | fork (memory : Bool)
  | exit
  | wait (copied : Bool)

/-- A call of a process, with its current directory. -/
def Call.run (p : Slot) (cwd : Fin NINODE) : Call → SysM Int
  | .dup fd => sysDup p fd
  | .read fd dst n => sysRead p fd dst n
  | .write fd src n => sysWrite p fd src n
  | .close fd => sysClose p fd
  | .fstat fd => sysFstat p fd
  | .link (some old) (some new) => .fs (linkPaths cwd old new)
  | .link _ _ => return -1
  | .unlink (some path) => .fs (unlinkPath cwd path)
  | .unlink none => return -1
  | .openFile (some path) omode => openPath p cwd path omode
  | .openFile none _ => return -1
  | .mkdir path => .fs (makeNode cwd path T_DIR 0 0)
  | .mknod path major minor => .fs (makeNode cwd path T_DEVICE major minor)
  | .chdir path => sysChdir p cwd path
  | .exec (some path) reads => do
      .fs (Fs.exec cwd path reads)
      return 0
  | .exec none _ => return -1
  | .pipe page copied => sysPipe p page copied
  | .fork memory => Fs.fork p cwd memory
  | .exit => do
      Fs.exit p cwd
      return 0
  | .wait copied => Fs.wait p copied

/-- `kalloc` returns no page that is in use. -/
def Call.Fresh (s : Sys) : Call → Prop
  | .pipe (some pg) _ => s.pipe pg = none
  | _ => True

instance (s : Sys) (c : Call) : Decidable (c.Fresh s) := by
  unfold Call.Fresh
  split <;> infer_instance

/-- A process makes a system call, which returns. -/
def Sys.step (s : Sys) (e : Slot × Call) : Option Sys :=
  match (s.proc e.1).state, (s.proc e.1).cwd with
  | .runnable, some cwd =>
      if e.2.Fresh s then
        match e.2.run e.1 cwd s with
        | .ok _ t => some t
        | .error _ _ => none
      else none
  | _, _ => none

/-- The system once the kernel has booted: with the first process of `userinit`. -/
def booted (sb : Superblock) (block : UInt32 → Block) : Sys where
  sb := sb
  block := block
  outstanding := 0
  lh := []
  committed := []
  inode := fun i =>
    { Dinode.zero with
      dev := if i = 0 then ROOTDEV else 0
      inum := if i = 0 then ROOTINO else 0
      ref := if i = 0 then 1 else 0
      locked := false
      valid := false }
  file := fun _ => ⟨.none, 0, false, false, 0, 0, 0, 0⟩
  pipe := fun _ => none
  proc := fun p =>
    if p = initproc then ⟨.runnable, none, fun _ => none, some 0⟩
    else ⟨.unused, none, fun _ => none, none⟩

/-- The kernel boots from a disk. -/
def boot (block : UInt32 → Block) : Except String Sys :=
  (fsinit block).map fun sb => booted sb block

/-- The system calls of all processes, one after the other. -/
def sysCalls : Machine Sys (Slot × Call) where
  init := fun s => ∃ block, boot block = .ok s
  step := Sys.step

end Fs
