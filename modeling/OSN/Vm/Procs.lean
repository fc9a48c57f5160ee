import OSN.Kernel.Waitx
import OSN.Vm.Estate

/-!
# Processes and their memory

The functions of `proc.c` that give memory to a process and take it back: `allocproc`,
`freeproc`, `fork`, `exit`, `wait`, and `growproc` and `exec` on the memory of one process.
To the process table they do what the functions of the table do.

Open files, the context that a process is switched to and its trace mask are left out: they
are not in its memory.  `kalloc` may fail at every call.
-/

namespace Vm

open Xv6 (PGSIZE UserMem Slot Kernel)
open Fs (CStr)

/-- `struct proc`, the fields for its memory. -/
structure Space where
  trapframe : Nat := 0
  pagetable : Nat := 0
  sz : Nat := 0
  name : List UInt8 := List.replicate 16 0

/-- The process table, and the memory of the machine. -/
structure Sys where
  ram : Ram
  calls : List FsCall
  kernel : Kernel
  space : Slot → Space

abbrev SysM := EStateM String Sys

namespace Sys

/-- The memory of the machine. -/
def ramPart : Component Sys Ram where
  get := Sys.ram
  set r s := { s with ram := r }

/-- Process `i` as `exec` sees it. -/
def taskPart (i : Slot) : Component Sys Task where
  get s := ⟨s.ram, s.calls, (s.space i).pagetable, (s.space i).sz, (s.space i).trapframe,
    (s.space i).name⟩
  set p s := { s with
    ram := p.ram
    calls := p.calls
    space := Function.update s.space i ⟨p.trapframe, p.pagetable, p.sz, p.name⟩ }

def setSpace (s : Sys) (i : Slot) (f : Space → Space) : Sys :=
  { s with space := Function.update s.space i (f (s.space i)) }

def setKernel (s : Sys) (f : Kernel → Kernel) : Sys := { s with kernel := f s.kernel }

end Sys

/-- Code for the memory. -/
def SysM.ram {α : Type} (x : RamM α) : SysM α := Sys.ramPart.run x

def setSpace (i : Slot) (f : Space → Space) : SysM Unit := modify fun s => s.setSpace i f

def setKernel (f : Kernel → Kernel) : SysM Unit := modify fun s => s.setKernel f

/-- The string in an array. -/
def cstr (array : List UInt8) : CStr := array.takeWhile (· ≠ 0)

/-- `sizeof(struct trapframe)`. -/
def TRAPFRAMESIZE : Nat := 288

/-- `*dst = *src` of two trapframes. -/
def copyTrapframe (dst src : Nat) : RamM Unit :=
  modify fun s => s.memmove dst (Bytes.slice s.mem src TRAPFRAMESIZE)

/-- `freeproc`. -/
def freeproc (i : Slot) : SysM Unit := do
  let s ← get
  .ram (if (s.space i).trapframe ≠ 0 then kfree (s.space i).trapframe else pure ())
  setSpace i fun p => { p with trapframe := 0 }
  .ram (if (s.space i).pagetable ≠ 0 then procFreepagetable (s.space i).pagetable (s.space i).sz
    else pure ())
  setSpace i fun p => { p with pagetable := 0, sz := 0, name := p.name.set 0 0 }
  setKernel (·.modify i Xv6.freeproc)

/-- `allocproc` when it has found a slot. -/
def allocSlot (trampoline : Nat) (i : Slot) : SysM (Option Slot) := do
  setKernel fun k => { k.modify i (Xv6.allocprocFields k.ticks k.nextpid) with
    nextpid := k.nextpid + 1 }
  let trapframe ← .ram kalloc
  setSpace i fun p => { p with trapframe := trapframe }
  if trapframe = 0 then
    freeproc i
    return none
  else
    let pagetable ← .ram (procPagetable trampoline trapframe)
    setSpace i fun p => { p with pagetable := pagetable }
    if pagetable = 0 then
      freeproc i
      return none
    else return some i

/-- `allocproc`. -/
def allocproc (trampoline : Nat) : SysM (Option Slot) := do
  let s ← get
  match Xv6.findSlot fun i => (s.kernel.proc i).state = .unused with
  | none => return none
  | some i => allocSlot trampoline i

/-- `fork` when it has got the slot `np`. -/
def forkInto (me np : Slot) : SysM Int := do
  let s ← get
  let r ← .ram (uvmcopy (s.space me).pagetable (s.space np).pagetable (s.space me).sz)
  if r < 0 then
    freeproc np
    return -1
  else
    setSpace np fun p => { p with sz := (s.space me).sz }
    .ram (copyTrapframe (s.space np).trapframe (s.space me).trapframe)
    -- `np->trapframe->a0 = 0`
    .ram (store ((s.space np).trapframe + 112) 0)
    setSpace np fun p => { p with name := safestrcpy p.name (cstr (s.space me).name) 16 }
    setKernel (·.modify np (Xv6.forkFields me))
    return (s.kernel.proc np).pid

/-- `fork`. -/
def fork (trampoline : Nat) (me : Slot) : SysM Int := do
  match ← allocproc trampoline with
  | none => return -1
  | some np => forkInto me np

/-- `sys_sbrk` of `n` bytes. -/
def sysSbrk (me : Slot) (n : Int) : SysM Int := do
  let p := (← get).space me
  let (r, sz) ← .ram (growproc p.pagetable p.sz n)
  setSpace me fun p => { p with sz := sz }
  if r < 0 then return -1 else return (BitVec.ofNat 32 p.sz).toInt

/-- `exec` of process `me`. -/
def execProc (trampoline : Nat) (me : Slot) (file : Option (List UInt8)) (path : CStr)
    (argv : List CStr) : SysM Int := (Sys.taskPart me).run (exec trampoline file path argv)

/-- `exit`, but for the files. -/
def exit (me : Slot) (status : Int) : SysM Unit :=
  if me = Xv6.initproc then throw "init exiting" else setKernel (Xv6.exit me status)

/-- `wait` when it has found a child that is a ZOMBIE. -/
def reap (me np : Slot) (addr : UInt64) : SysM Int := do
  let s ← get
  let r ← .ram (if addr ≠ 0 then
      copyout (s.space me).pagetable addr.toNat (Xv6.intWord (s.kernel.proc np).xstate)
    else pure 0)
  if r < 0 then return -1
  else
    freeproc np
    return (s.kernel.proc np).pid

/-- One pass of `wait`; `none` is that it sleeps. -/
def wait (me : Slot) (addr : UInt64) : SysM (Option Int) := do
  let s ← get
  match Xv6.zombieChild me s.kernel with
  | some np => some <$> reap me np addr
  | none =>
      if Xv6.givesUp me s.kernel then return some (-1)
      else
        setKernel (·.modify me (Xv6.sleepProc (some (.proc me))))
        return none

/-- `uvminit`. -/
def uvminit (pagetable : Nat) (src : List UInt8) : RamM Unit := do
  if PGSIZE ≤ src.length then throw "inituvm: more than a page"
  else
    let mem ← kalloc
    memset mem 0 PGSIZE
    let _ ← mappages pagetable 0 PGSIZE mem (PTE_W ||| PTE_R ||| PTE_X ||| PTE_U)
    modify fun s => s.memmove mem src

/-- The program that calls `exec("/init")`. -/
def initcode : List UInt8 :=
  [0x17, 0x05, 0x00, 0x00, 0x13, 0x05, 0x45, 0x02, 0x97, 0x05, 0x00, 0x00, 0x93, 0x85, 0x35, 0x02,
    0x93, 0x08, 0x70, 0x00, 0x73, 0x00, 0x00, 0x00, 0x93, 0x08, 0x20, 0x00, 0x73, 0x00, 0x00, 0x00,
    0xef, 0xf0, 0x9f, 0xff, 0x2f, 0x69, 0x6e, 0x69, 0x74, 0x00, 0x00, 0x24, 0x00, 0x00, 0x00, 0x00,
    0x00, 0x00, 0x00, 0x00]

/-- `userinit`; `allocproc` may not fail there. -/
def userinit (trampoline : Nat) : SysM Unit := do
  match ← allocproc trampoline with
  | none => throw "userinit: no process"
  | some p =>
      let s ← get
      .ram (uvminit (s.space p).pagetable initcode)
      setSpace p fun q => { q with sz := PGSIZE }
      .ram (store ((s.space p).trapframe + 24) 0)
      .ram (store ((s.space p).trapframe + 48) PGSIZE)
      -- `"initcode"`
      setSpace p fun q => { q with
        name := safestrcpy q.name [105, 110, 105, 116, 99, 111, 100, 101] 16 }
      setKernel (·.modify p fun q => { q with state := .runnable })

/-- `copyout` to process `me`, as `read`, `fstat` and `pipe` do it. -/
def writeUser (me : Slot) (va : Nat) (bytes : List UInt8) : SysM Int := do
  let p := (← get).space me
  .ram (copyout p.pagetable va bytes)

/-- `copyin` from process `me`, as `write` does it. -/
def readUser (me : Slot) (va len : Nat) : SysM (Int × List UInt8) := do
  let p := (← get).space me
  .ram (copyin p.pagetable va len)

/-- A trap: the registers of process `me` are saved. -/
def saveRegs (me : Slot) (regs : List UInt8) : SysM Unit := do
  let p := (← get).space me
  .ram (modify fun r => r.memmove p.trapframe (regs.take TRAPFRAMESIZE))

/-- What happens to the process table only. -/
inductive Turn
  | dispatch (i : Slot) (now : UInt32)
  | yield (i : Slot)
  | sleep (i : Slot) (chan : Option Xv6.Chan)
  | wakeup (me : Option Slot) (chan : Option Xv6.Chan)
  | clockintr (me : Option Slot)
  | kill (pid : Int)
  | setpriority (pid : Int) (priority : UInt32)

/-- May it happen? -/
def Turn.Ready (k : Kernel) : Turn → Prop
  | .dispatch i _ => (k.proc i).state = .runnable
  | .yield i => (k.proc i).state = .running
  | .sleep i _ => (k.proc i).state = .running
  | _ => True

instance (k : Kernel) : (t : Turn) → Decidable (t.Ready k)
  | .dispatch i _ => inferInstanceAs (Decidable ((k.proc i).state = .runnable))
  | .yield i => inferInstanceAs (Decidable ((k.proc i).state = .running))
  | .sleep i _ => inferInstanceAs (Decidable ((k.proc i).state = .running))
  | .wakeup _ _ => inferInstanceAs (Decidable True)
  | .clockintr _ => inferInstanceAs (Decidable True)
  | .kill _ => inferInstanceAs (Decidable True)
  | .setpriority _ _ => inferInstanceAs (Decidable True)

def Turn.apply (k : Kernel) : Turn → Kernel
  | .dispatch i now => k.modify i (Xv6.dispatchProc now)
  | .yield i => k.modify i (Xv6.yieldProc k.ticks)
  | .sleep i chan => k.modify i (Xv6.sleepProc chan)
  | .wakeup me chan => Xv6.wakeup me chan k
  | .clockintr me => Xv6.clockintr me k
  | .kill pid => (Xv6.kill pid k).2
  | .setpriority pid priority => (Xv6.setpriority pid priority k).2

/-- What may happen to the machine. -/
inductive Op
  | turn (t : Turn)
  | fork (me : Slot)
  | sbrk (me : Slot) (n : Int)
  | exec (me : Slot) (file : Option (List UInt8)) (path : CStr) (argv : List CStr)
  | exit (me : Slot) (status : Int)
  | wait (me : Slot) (addr : UInt64)
  | write (me : Slot) (va : Nat) (bytes : List UInt8)
  | read (me : Slot) (va len : Nat)
  | trap (me : Slot) (regs : List UInt8)

/-- What a call returns, if it does. -/
inductive Reply
  | nothing
  | value (r : Int)
  | bytes (r : Int) (l : List UInt8)
  deriving DecidableEq

/-- May it happen?  The arguments of `exec` come from `sys_exec`. -/
def Op.Ready (k : Kernel) : Op → Prop
  | .turn t => t.Ready k
  | .fork me => (k.proc me).state = .running
  | .sbrk me n => (k.proc me).state = .running ∧ -2 ^ 31 ≤ n ∧ n < 2 ^ 31
  | .exec me file _ argv => (k.proc me).state = .running ∧
      (∀ content ∈ file, content.length < 2 ^ 32) ∧ argv.length < MAXARG ∧
      ∀ arg ∈ argv, arg.length < PGSIZE
  | .exit me _ => (k.proc me).state = .running
  | .wait me _ => (k.proc me).state = .running
  | .write me _ _ => (k.proc me).state = .running
  | .read me _ _ => (k.proc me).state = .running
  | .trap me regs => (k.proc me).state = .running ∧ regs.length = TRAPFRAMESIZE

instance (k : Kernel) : (op : Op) → Decidable (op.Ready k)
  | .turn t => inferInstanceAs (Decidable (t.Ready k))
  | .fork me => inferInstanceAs (Decidable ((k.proc me).state = .running))
  | .sbrk me n =>
      inferInstanceAs (Decidable ((k.proc me).state = .running ∧ -2 ^ 31 ≤ n ∧ n < 2 ^ 31))
  | .exec me file _ argv => inferInstanceAs (Decidable ((k.proc me).state = .running ∧
      (∀ content ∈ file, content.length < 2 ^ 32) ∧ argv.length < MAXARG ∧
      ∀ arg ∈ argv, arg.length < PGSIZE))
  | .exit me _ => inferInstanceAs (Decidable ((k.proc me).state = .running))
  | .wait me _ => inferInstanceAs (Decidable ((k.proc me).state = .running))
  | .write me _ _ => inferInstanceAs (Decidable ((k.proc me).state = .running))
  | .read me _ _ => inferInstanceAs (Decidable ((k.proc me).state = .running))
  | .trap me regs =>
      inferInstanceAs (Decidable ((k.proc me).state = .running ∧ regs.length = TRAPFRAMESIZE))

/-- **What happens.** -/
def perform (trampoline : Nat) : Op → SysM Reply
  | .turn t => do
      setKernel fun k => t.apply k
      return .nothing
  | .fork me => .value <$> fork trampoline me
  | .sbrk me n => .value <$> sysSbrk me n
  | .exec me file path argv => .value <$> execProc trampoline me file path argv
  | .exit me status => do
      exit me status
      return .nothing
  | .wait me addr => do
      match ← wait me addr with
      | some r => return .value r
      | none => return .nothing
  | .write me va bytes => .value <$> writeUser me va bytes
  | .read me va len => do
      let (r, l) ← readUser me va len
      return .bytes r l
  | .trap me regs => do
      saveRegs me regs
      return .nothing

end Vm
