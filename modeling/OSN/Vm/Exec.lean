import OSN.Fs.Files
import OSN.Vm.UserTable

/-!
# `exec`

`exec` builds a new page table from a file, gives it a stack with the arguments, and only
then lets go of the old one.  The file is what `namei` finds: its bytes, or nothing; the
calls of the file system are recorded in their order.
-/

namespace Vm

open Xv6 (PGSIZE MAXVA)
open Fs (CStr SLASH)

def MAXARG : Nat := 32

/-- `"\x7FELF"` in little endian. -/
def ELF_MAGIC : Nat := 0x464C457F

def ELF_PROG_LOAD : Nat := 1

/-- The fields of `struct elfhdr` that `exec` reads. -/
structure Elfhdr where
  magic : Nat
  entry : Nat
  phoff : Nat
  phnum : Nat
  deriving DecidableEq

/-- `sizeof(struct elfhdr)` -/
def ELFHDRSIZE : Nat := 64

/-- A number of `w` bytes at an offset of a structure. -/
def field (bytes : List UInt8) (off w : Nat) : Nat := Bytes.ofLe ((bytes.drop off).take w)

def Elfhdr.ofBytes (bytes : List UInt8) : Elfhdr where
  magic := field bytes 0 4
  entry := field bytes 24 8
  phoff := field bytes 32 8
  phnum := field bytes 56 2

/-- The fields of `struct proghdr` that `exec` reads. -/
structure Proghdr where
  type : Nat
  off : Nat
  vaddr : Nat
  filesz : Nat
  memsz : Nat
  deriving DecidableEq

/-- `sizeof(struct proghdr)` -/
def PROGHDRSIZE : Nat := 56

def Proghdr.ofBytes (bytes : List UInt8) : Proghdr where
  type := field bytes 0 4
  off := field bytes 8 8
  vaddr := field bytes 16 8
  filesz := field bytes 32 8
  memsz := field bytes 40 8

/-- `readi` to a kernel address: the bytes that it moves.  Both numbers are a `uint`. -/
def readi (content : List UInt8) (off n : Nat) : List UInt8 :=
  if content.length < off ∨ (off + n) % 2 ^ 32 < off then []
  else (content.drop off).take n

/-- The loop of `loadseg`. -/
def loadsegLoop (pagetable va : Nat) (content : List UInt8) (offset sz : Nat) :
    Nat → Nat → RamM Int
  | 0, _ => throw "loadseg goes on"
  | fuel + 1, i =>
      if i < sz then do
        let pa ← walkaddr pagetable ((va + i) % 2 ^ 64)
        if pa = 0 then throw "loadseg: address should exist"
        else
          let n := if sz - i < PGSIZE then sz - i else PGSIZE
          let bytes := readi content ((offset + i) % 2 ^ 32) n
          modify fun s => s.memmove pa bytes
          if bytes.length ≠ n then return -1
          else loadsegLoop pagetable va content offset sz fuel ((i + PGSIZE) % 2 ^ 32)
      else return 0

/-- `loadseg`. -/
def loadseg (pagetable va : Nat) (content : List UInt8) (offset sz : Nat) : RamM Int :=
  loadsegLoop pagetable va content offset sz (sz / PGSIZE + 2) 0

/-- The loop of `exec` over the program headers: whether it comes to its end, and `sz`.
Its `off` is an `int`, and `loadseg` takes a `uint` for an offset and a size. -/
def loadLoop (content : List UInt8) (pagetable : Nat) : Nat → Nat → Nat → RamM (Bool × Nat)
  | 0, _, sz => return (true, sz)
  | k + 1, off, sz => do
      let bytes := readi content off PROGHDRSIZE
      if bytes.length ≠ PROGHDRSIZE then return (false, sz)
      else
        let ph := Proghdr.ofBytes bytes
        let next := (off + PROGHDRSIZE) % 2 ^ 32
        if ph.type ≠ ELF_PROG_LOAD then loadLoop content pagetable k next sz
        else if ph.memsz < ph.filesz then return (false, sz)
        else if (ph.vaddr + ph.memsz) % 2 ^ 64 < ph.vaddr then return (false, sz)
        else
          let sz1 ← uvmalloc pagetable sz ((ph.vaddr + ph.memsz) % 2 ^ 64)
          if sz1 = 0 then return (false, sz)
          else if ph.vaddr % PGSIZE ≠ 0 then return (false, sz1)
          else
            let r ← loadseg pagetable ph.vaddr content (ph.off % 2 ^ 32) (ph.filesz % 2 ^ 32)
            if r < 0 then return (false, sz1)
            else loadLoop content pagetable k next sz1

/-- The loop of `exec` over the arguments: `sp` and `ustack` at its end. -/
def pushArgs (pagetable stackbase : Nat) :
    Nat → List Nat → List CStr → RamM (Option (Nat × List Nat))
  | sp, ustack, [] => return some (sp, ustack)
  | sp, ustack, arg :: args =>
      if MAXARG ≤ ustack.length then return none
      else
        let sp := (sp + 2 ^ 64 - (arg.length + 1)) % 2 ^ 64
        let sp := sp - sp % 16
        if sp < stackbase then return none
        else do
          let r ← copyout pagetable sp (arg ++ [0])
          if r < 0 then return none
          else pushArgs pagetable stackbase sp (ustack ++ [sp]) args

/-- What `exec` does to the new stack: `sp` at its end, and the number of arguments. -/
def pushStack (pagetable sz : Nat) (argv : List CStr) : RamM (Option (Nat × Nat)) := do
  uvmclear pagetable (sz - 2 * PGSIZE)
  let stackbase := sz - PGSIZE
  match ← pushArgs pagetable stackbase sz [] argv with
  | none => return none
  | some (sp, ustack) =>
      let bytes := (ustack ++ [0]).flatMap (Bytes.leBytes 8)
      let sp := (sp + 2 ^ 64 - bytes.length) % 2 ^ 64
      let sp := sp - sp % 16
      if sp < stackbase then return none
      else
        let r ← copyout pagetable sp bytes
        if r < 0 then return none else return some (sp, ustack.length)

/-! ### The process -/

/-- The calls of the file system. -/
inductive FsCall
  | beginOp
  | namei
  | ilock
  | iunlockput
  | endOp
  deriving DecidableEq

/-- The process that calls `exec`, the memory, and the calls of the file system so far. -/
structure Task where
  ram : Ram
  calls : List FsCall
  pagetable : Nat
  sz : Nat
  /-- The address of its page. -/
  trapframe : Nat
  name : List UInt8

abbrev TaskM := EStateM String Task

/-- The memory of the task. -/
def Task.ramPart : Component Task Ram where
  get := Task.ram
  set r s := { s with ram := r }

def TaskM.ram {α : Type} (x : RamM α) : TaskM α := Task.ramPart.run x

/-- A call of the file system. -/
def call (c : FsCall) : TaskM Unit := modify fun s => { s with calls := s.calls ++ [c] }

/-- `safestrcpy` of a string to an array; behind the null of a short one there is another. -/
def safestrcpy (array : List UInt8) (src : CStr) (n : Nat) : List UInt8 :=
  if src.length < n - 1 then src ++ [0, 0] ++ array.drop (src.length + 2)
  else src.take (n - 1) ++ [0] ++ array.drop n

/-- What follows the last slash. -/
def lastElement (path : CStr) : CStr := (path.reverse.takeWhile (· ≠ SLASH)).reverse

/-- The end of `exec` that it comes to by `goto bad`; `ip` is whether there is an inode. -/
def execBad (pagetable sz : Nat) (ip : Bool) : TaskM Int := do
  if pagetable ≠ 0 then .ram (procFreepagetable pagetable sz)
  if ip then
    call .iunlockput
    call .endOp
  return -1

/-- `exec` commits to the user image. -/
def execCommit (path : CStr) (entry pagetable sz sp argc : Nat) : TaskM Int := do
  let p ← get
  .ram (store (p.trapframe + 120) sp)
  modify fun s => { s with
    name := safestrcpy s.name (lastElement path) 16
    pagetable := pagetable
    sz := sz }
  .ram (store (p.trapframe + 24) entry)
  .ram (store (p.trapframe + 48) sp)
  .ram (procFreepagetable p.pagetable p.sz)
  return argc

/-- `exec` after the program has been loaded. -/
def execStack (path : CStr) (argv : List CStr) (entry pagetable sz : Nat) : TaskM Int := do
  call .iunlockput
  call .endOp
  let sz := PGROUNDUP sz
  let sz1 ← .ram (uvmalloc pagetable sz ((sz + 2 * PGSIZE) % 2 ^ 64))
  if sz1 = 0 then execBad pagetable sz false
  else
    match ← .ram (pushStack pagetable sz1 argv) with
    | none => execBad pagetable sz1 false
    | some (sp, argc) => execCommit path entry pagetable sz1 sp argc

/-- `exec` of a file. -/
def execFile (trampoline : Nat) (content : List UInt8) (path : CStr) (argv : List CStr) :
    TaskM Int := do
  call .ilock
  let bytes := readi content 0 ELFHDRSIZE
  let elf := Elfhdr.ofBytes bytes
  if bytes.length ≠ ELFHDRSIZE then execBad 0 0 true
  else if elf.magic ≠ ELF_MAGIC then execBad 0 0 true
  else
    let p ← get
    let pagetable ← .ram (procPagetable trampoline p.trapframe)
    if pagetable = 0 then execBad 0 0 true
    else
      let (loaded, sz) ← .ram (loadLoop content pagetable elf.phnum (elf.phoff % 2 ^ 32) 0)
      if loaded then execStack path argv elf.entry pagetable sz
      else execBad pagetable sz true

/-- `exec`; `file` is what `namei` finds. -/
def exec (trampoline : Nat) (file : Option (List UInt8)) (path : CStr) (argv : List CStr) :
    TaskM Int := do
  call .beginOp
  call .namei
  match file with
  | none =>
      call .endOp
      return -1
  | some content => execFile trampoline content path argv

/-! ### Reading the file -/

/-- **`readi`** is what the file system's `readi` does to the file of an inode. -/
theorem readi_file {n : Fs.Node} (h : Fs.Full n.block n.ip) {off m : Nat} (hoff : off < 2 ^ 32)
    (hm : m < 2 ^ 32) : Fs.readi Fs.kernelDst off m n =
      .ok (((readi n.file off m).length : Int), readi n.file off m) n := by
  unfold readi
  by_cases hsum : off + m < 2 ^ 32
  · have hreads := h.readsAs off m hsum
    rw [hreads]
    split
    next hguard =>
      rw [Nat.mod_eq_of_lt hsum] at hguard
      have hpast : n.file.length ≤ off := by omega
      rw [List.drop_of_length_le hpast, List.take_nil]
    next => rfl
  · have hguard : off > n.ip.size.toNat ∨ (off + m) % 2 ^ 32 < off := by omega
    rw [if_pos (by rw [Fs.Node.file_length]; exact hguard)]
    change (if off > n.ip.size.toNat ∨ (off + m) % 2 ^ 32 < off then _ else _ :
      Fs.NodeM (Int × List UInt8)) n = _
    rw [if_pos hguard]
    rfl

end Vm
