import OSN.Kernel.Mlfq
import OSN.Kernel.Fcfs
import OSN.Kernel.Pbs
import OSN.Kernel.Streams
import OSN.Lib.Threads

/-!
# The kernel, lock by lock

Here the functions of `proc.c`, `trap.c` and `sysproc.c`, and those of `pipe.c`
and `console.c` that sleep, are code for the threads of `OSN.Lib.Threads`: every
`acquire`, `release` and `swtch` is a step of its own, and all harts may step in
between.  What a function does to a process it has locked is taken from
`OSN.Kernel.Proc`.

A process in user mode may make any system call; which one, whether memory
can be allocated, and whatever else the code here does not decide, it asks.
So it does for what `ProcQueueDequeue` returns: the queues of the MLFQ
scheduler are written by all harts without a lock.
-/

namespace Xv6

/-- The spinlocks.  `condition a` stands for the lock of any other kernel
object that processes sleep on (the log, a sleep lock, a device). -/
inductive Lock where
  | condition (a : Nat)
  | pipe (pi : Nat)
  | cons
  | ticks
  | wait
  | proc (p : Slot)
  | pid
  deriving DecidableEq

/-- The kernel threads, each with its `struct context`: the scheduler of a
hart, and the kernel side of a process. -/
inductive Thread (n : Nat) where
  | scheduler (h : Fin n)
  | proc (p : Slot)
  deriving DecidableEq

/-- `DEFAULT_SCHEDULER`, `FCFS`, `PBS` or `MLFQ`. -/
inductive Policy where
  | defaultScheduler | fcfs | pbs | mlfq
  deriving DecidableEq

/-- What takes a process out of user mode. -/
inductive Trap where
  | timer
  | device (a i : Nat)
  | uart (c : UInt8)
  | fork
  | exit (status : Int)
  | wait
  | waitx
  | kill (pid : Int)
  | sleep (n : UInt32)
  | setPriority (newPriority procid : Int)
  | pipewrite (pi : Nat) (n : Int)
  | piperead (pi : Nat) (n : Int)
  | pipeclose (pi : Nat) (writable : Bool)
  | consoleread (n : Int)
  /-- A system call on another kernel object. -/
  | condition (a : Nat)
  /-- An exception that is not a system call. -/
  | fault
  deriving DecidableEq

/-- What code does next with the lock of another kernel object: sleep until
condition `i` is true, make it true, make it false, or return. -/
inductive ConditionStep where
  | sleep (i : Nat)
  | make (i : Nat)
  | spoil (i : Nat)
  | leave
  deriving DecidableEq

/-- The answers to whatever the code asks. -/
structure Input where
  trap : Trap := .timer
  /-- Does the allocation or the copy succeed? -/
  ok : Bool := true
  /-- What `ProcQueueDequeue` returns. -/
  queued : Option Slot := none
  /-- Does `ProcQueueRemove` loop for ever? -/
  stuck : Bool := false
  condition : ConditionStep := .leave
  deriving DecidableEq

/-- Where code jumps to: the loops without a bound, and the points between
which a process is in user mode. -/
inductive Label where
  /-- The `for(;;)` of `scheduler`. -/
  | scheduler
  /-- The dequeue loops of the MLFQ scheduler, at queue `i`. -/
  | dequeue (i : Nat)
  | forkret
  /-- User mode. -/
  | user
  /-- The end of `usertrap`. -/
  | trapret
  /-- The `for(;;)` of `wait` and `waitx`. -/
  | waitLoop
  /-- The `while` loop of `sys_sleep`. -/
  | sleepLoop (ticks0 n : UInt32)
  /-- The `while` loop of `pipewrite`. -/
  | pipewriteLoop (pi : Nat) (i n : Int)
  /-- The `while` loop of `piperead`. -/
  | pipereadLoop (pi : Nat) (n : Int)
  /-- The `for` loop of `piperead`. -/
  | pipereadCopy (pi : Nat) (i n : Int)
  /-- The `while` loops of `consoleread`. -/
  | consolereadLoop (target n : Int)
  /-- Inside a system call on another kernel object, with its lock held. -/
  | condition (a : Nat)

/-- Where a process is in a loop that tests `killed` and sleeps. -/
inductive Loop where
  | outside
  /-- It has found `killed == 0` and is going to sleep. -/
  | tested
  /-- It sleeps, or has been woken up and not run yet. -/
  | asleep
  deriving DecidableEq

/-- The memory that the threads share.  The last four are auxiliary variables
that no code reads. -/
structure Shared (n : Nat) extends Sys n where
  pipe : Nat → Pipe
  cons : Console
  /-- Is condition `i` of the kernel object `a` true? -/
  condition : Nat → Nat → Bool
  /-- The slot that the `fork` of a process has made USED and not yet RUNNABLE,
  its local `np`. -/
  np : Slot → Option Slot
  /-- What a process in `sleep` is about to sleep on. -/
  bound : Slot → Option Chan
  loop : Slot → Loop
  /-- The children that have been reaped, each with the process that did it,
  newest first. -/
  reaped : List (Slot × Slot)

namespace Shared

variable {n : Nat}

/-- The processes. -/
abbrev proc (s : Shared n) (p : Slot) : Proc := s.kernel.proc p

/-- Change one process. -/
def modifyProc (s : Shared n) (p : Slot) (f : Proc → Proc) : Shared n :=
  { s with kernel := s.kernel.modify p f }

/-- `c->proc = p` on hart `h`. -/
def setCpu (s : Shared n) (h : Fin n) (p : Option Slot) : Shared n :=
  { s with cpu := Function.update s.cpu h p }

/-- Write the auxiliary variables of process `p`. -/
def setNp (s : Shared n) (p : Slot) (np : Option Slot) : Shared n :=
  { s with np := fun q => if q = p then np else s.np q }

def setBound (s : Shared n) (p : Slot) (chan : Option Chan) : Shared n :=
  { s with bound := Function.update s.bound p chan }

def setLoop (s : Shared n) (p : Slot) (loop : Loop) : Shared n :=
  { s with loop := Function.update s.loop p loop }

/-- Write condition `i` of the kernel object `a`. -/
def setCondition (s : Shared n) (a i : Nat) (b : Bool) : Shared n :=
  { s with condition := Function.update s.condition a (Function.update (s.condition a) i b) }

/-- Change a pipe. -/
def modifyPipe (s : Shared n) (pi : Nat) (f : Pipe → Pipe) : Shared n :=
  { s with pipe := Function.update s.pipe pi (f (s.pipe pi)) }

/-- Change the console. -/
def modifyCons (s : Shared n) (f : Console → Console) : Shared n := { s with cons := f s.cons }

/-- `p->chan = chan; p->state = SLEEPING;` in `sleep`. -/
def fallAsleep (s : Shared n) (p : Slot) (chan : Chan) : Shared n :=
  ((s.modifyProc p (sleepProc (some chan))).setBound p none).setLoop p
    (if s.loop p = .tested then .asleep else .outside)

/-- `p->chan = 0` in `sleep`. -/
def getUp (s : Shared n) (p : Slot) : Shared n :=
  (s.modifyProc p fun q => { q with chan := none }).setLoop p .outside

/-- `freeproc(np)` in `wait`. -/
def reap (s : Shared n) (np p : Slot) : Shared n :=
  { s.modifyProc np freeproc with reaped := (np, p) :: s.reaped }

end Shared

/-- The rest of the code of a kernel thread. -/
abbrev KernelProg (n : Nat) : Type :=
  Threads.Prog (Fin n) Lock (Thread n) Input Label (Shared n)

/-- The harts, with the kernel threads they run. -/
abbrev KernelConfig (n : Nat) : Type :=
  Threads.Config (Fin n) Lock (Thread n) Input Label (Shared n)

/-- Code of the kernel that returns a value. -/
abbrev Code (n : Nat) : Type → Type :=
  Threads.Code (Fin n) Lock (Thread n) Input Label (Shared n)

/-- `low->nrun++; low->state = RUNNING;` of the FCFS scheduler. -/
def startFcfs (p : Proc) : Proc := { p with nrun := p.nrun + 1, state := .running }

/-- The same of the PBS and MLFQ schedulers, with `low->runtime = 0;
low->sched1 = ticks;`. -/
def startProc (now : UInt32) (p : Proc) : Proc :=
  { p with nrun := p.nrun + 1, state := .running, runtime := 0, sched1 := now }

/-- A dispatch, with the `p->chan = 0` of a process that comes out of `sleep`. -/
theorem dispatchFcfs_eq (p : Proc) : dispatchFcfs p = { startFcfs p with chan := none } := rfl

theorem dispatchProc_eq (now : UInt32) (p : Proc) :
    dispatchProc now p = { startProc now p with chan := none } := rfl

namespace Code

open Threads.Code (acquire release update read modifyGet ask swtch prepare jump hang when)

variable {n : Nat}

/-- The table, for the loops `for(p = proc; p < &proc[NPROC]; p++)`. -/
def table : List Slot := List.finRange NPROC

/-- `myproc()`. -/
def myproc : Code n (Option Slot) := read fun h s => s.cpu h

/-- `mycpu()`. -/
def mycpu : Code n (Fin n) := read fun h _ => h

/-- Read `ticks`. -/
def ticks : Code n UInt32 := read fun _ s => s.kernel.ticks

/-- Read a process. -/
def getProc (p : Slot) : Code n Proc := read fun _ s => s.proc p

/-- Write a process. -/
def setProc (p : Slot) (f : Proc → Proc) : Code n Unit := update fun _ s => s.modifyProc p f

/-! ### Switching, sleeping, waking -/

/-- `sched`. -/
def sched : Code n Unit := do
  match ← myproc with
  | none => hang
  | some p => swtch (.proc p) (.scheduler (← mycpu))

/-- `yield`. -/
def yield : Code n Unit := do
  match ← myproc with
  | none => hang
  | some p =>
      acquire (.proc p)
      let now ← ticks
      setProc p (yieldProc now)
      sched
      release (.proc p)

/-- `sleep`. -/
def sleep (chan : Chan) (lk : Lock) : Code n Unit := do
  match ← myproc with
  | none => hang
  | some p =>
      acquire (.proc p)
      update fun _ s => s.setBound p (some chan)
      release lk
      update fun _ s => s.fallAsleep p chan
      sched
      update fun _ s => s.getUp p
      release (.proc p)
      acquire lk

/-- `wakeup`. -/
def wakeup (chan : Option Chan) : Code n Unit :=
  table.forM fun p => do
    when ((← myproc) ≠ some p) do
      acquire (.proc p)
      let now ← ticks
      setProc p (wakeupProc now chan)
      release (.proc p)

/-- Test `p->killed` in a loop that is going to sleep if it is 0 and the memory
is as it `sleeps`. -/
def testKilled (p : Slot) (sleeps : Shared n → Bool) : Code n Bool :=
  modifyGet
    (fun _ s => s.setLoop p (if (s.proc p).killed = 0 ∧ sleeps s then .tested else .outside))
    fun _ s => (s.proc p).killed ≠ 0

/-- `kill`, with its return value. -/
def kill (pid : Int) : Code n Int := do
  let found ← table.findSomeM? fun p => do
    acquire (.proc p)
    if (← getProc p).pid = pid then
      let now ← ticks
      setProc p (killProc now)
      release (.proc p)
      return some 0
    else
      release (.proc p)
      return none
  return found.getD (-1)

/-! ### Making processes -/

/-- `allocpid`. -/
def allocpid : Code n Int := do
  acquire .pid
  let pid ← read fun _ s => s.kernel.nextpid
  update fun _ s => { s with kernel := { s.kernel with nextpid := s.kernel.nextpid + 1 } }
  release .pid
  return pid

/-- `freeproc(p); release(&p->lock);` on the way out of `allocproc` and
`fork`. -/
def giveBack (me p : Slot) : Code n Unit := do
  update fun _ s => (s.modifyProc p freeproc).setNp me none
  release (.proc p)

/-- The loop of `allocproc`: the lock of the slot that is found stays held. -/
def findUnused : Code n (Option Slot) :=
  table.findSomeM? fun p => do
    acquire (.proc p)
    if (← getProc p).state = .unused then return some p
    else
      release (.proc p)
      return none

/-- `allocproc`, called by process `me`; returns with the lock of the slot
held. -/
def allocproc (me : Slot) : Code n (Option Slot) := do
  match ← findUnused with
  | none => return none
  | some p =>
      let pid ← allocpid
      let now ← ticks
      update fun _ s => (s.modifyProc p (allocprocFields now pid)).setNp me (some p)
      -- the trap frame
      if !(← ask).ok then
        giveBack me p
        return none
      else
        -- the page table
        if !(← ask).ok then
          giveBack me p
          return none
        else
          prepare (.proc p) .forkret
          return some p

/-- `fork`, with its return value. -/
def fork : Code n Int := do
  match ← myproc with
  | none => hang
  | some p =>
      match ← allocproc p with
      | none => return -1
      | some np =>
          -- uvmcopy
          if !(← ask).ok then
            giveBack p np
            return -1
          else
            let child ← getProc np
            release (.proc np)
            acquire .wait
            setProc np fun q => { q with parent := some p }
            release .wait
            acquire (.proc np)
            update fun _ s => (s.modifyProc np fun q => { q with state := .runnable }).setNp p none
            release (.proc np)
            return child.pid

/-! ### Ending processes -/

/-- `reparent`. -/
def reparent (p : Slot) : Code n Unit :=
  table.forM fun pp => do
    when ((← getProc pp).parent = some p) do
      setProc pp fun q => { q with parent := some initproc }
      wakeup (some (.proc initproc))

/-- `exit`, from the point where all files are closed. -/
def exit (status : Int) : Code n Unit := do
  match ← myproc with
  | none => hang
  | some p =>
      -- panic("init exiting")
      if p = initproc then hang
      else
        acquire .wait
        reparent p
        wakeup ((← getProc p).parent.map .proc)
        acquire (.proc p)
        let now ← ticks
        setProc p (exitProc now status)
        release .wait
        sched
        -- panic("zombie exit")
        hang

/-- `wait`, up to its loop. -/
def wait : Code n Unit := do
  acquire .wait
  jump .waitLoop

/-- `waitx`, which takes the same locks and only reads more of the child. -/
def waitx : Code n Unit := wait

/-- The body of the loop over the table in `wait`. -/
def waitSlot (p : Slot) (havekids : Bool) (np : Slot) : Code n Bool := do
  if (← getProc np).parent = some p then
    acquire (.proc np)
    if (← getProc np).state = .zombie then
      -- copyout
      when (← ask).ok (update fun _ s => s.reap np p)
      release (.proc np)
      release .wait
      jump .trapret
    else
      release (.proc np)
      return true
  else return havekids

/-- The body of the `for(;;)` of `wait`. -/
def waitLoop : Code n Unit := do
  match ← myproc with
  | none => hang
  | some p =>
      let havekids ← table.foldlM (waitSlot p) false
      if havekids = false then
        release .wait
        jump .trapret
      else if ← testKilled p fun _ => true then
        release .wait
        jump .trapret
      else
        sleep (.proc p) .wait
        jump .waitLoop

/-! ### The clock -/

/-- `RunningTime`. -/
def runningTime : Code n Unit :=
  table.forM fun p => do
    acquire (.proc p)
    setProc p runningTimeProc
    release (.proc p)

/-- `clockintr`. -/
def clockintr : Code n Unit := do
  acquire .ticks
  update fun _ s => { s with kernel := { s.kernel with ticks := s.kernel.ticks + 1 } }
  runningTime
  wakeup (some .ticks)
  release .ticks

/-- `sys_sleep`, up to its loop. -/
def sysSleep (len : UInt32) : Code n Unit := do
  acquire .ticks
  let ticks0 ← ticks
  jump (.sleepLoop ticks0 len)

/-- The body of the loop of `sys_sleep`. -/
def sleepLoop (ticks0 len : UInt32) : Code n Unit := do
  match ← myproc with
  | none => hang
  | some p =>
      if (← ticks) - ticks0 < len then
        if ← testKilled p fun _ => true then
          release .ticks
          jump .trapret
        else
          sleep .ticks .ticks
          jump (.sleepLoop ticks0 len)
      else
        release .ticks
        jump .trapret

/-! ### Pipes and the console -/

/-- Read a pipe. -/
def getPipe (pi : Nat) : Code n Pipe := read fun _ s => s.pipe pi

/-- Write a pipe. -/
def setPipe (pi : Nat) (f : Pipe → Pipe) : Code n Unit := update fun _ s => s.modifyPipe pi f

/-- `release(l)` and the return to user mode. -/
def leave (l : Lock) : Code n Unit := do
  release l
  jump .trapret

/-- `wakeup(chan)`, `release(l)` and the return to user mode. -/
def wakeupLeave (chan : Chan) (l : Lock) : Code n Unit := do
  wakeup (some chan)
  leave l

/-- `pipeclose`. -/
def pipeclose (pi : Nat) (writable : Bool) : Code n Unit := do
  acquire (.pipe pi)
  setPipe pi (Pipe.close writable)
  wakeupLeave (if writable then .nread pi else .nwrite pi) (.pipe pi)

/-- `pipewrite`, up to its loop. -/
def pipewrite (pi : Nat) (len : Int) : Code n Unit := do
  acquire (.pipe pi)
  jump (.pipewriteLoop pi 0 len)

/-- The body of the loop of `pipewrite`. -/
def pipewriteLoop (pi : Nat) (i len : Int) : Code n Unit := do
  match ← myproc with
  | none => hang
  | some pr =>
      if i < len then
        if (← getPipe pi).readopen = false then leave (.pipe pi)
        else if ← testKilled pr fun s => (s.pipe pi).full then leave (.pipe pi)
        else if (← getPipe pi).full then
          wakeup (some (.nread pi))
          sleep (.nwrite pi) (.pipe pi)
          jump (.pipewriteLoop pi i len)
        else
          -- copyin
          if (← ask).ok then
            setPipe pi Pipe.put
            jump (.pipewriteLoop pi (i + 1) len)
          else wakeupLeave (.nread pi) (.pipe pi)
      else wakeupLeave (.nread pi) (.pipe pi)

/-- `piperead`, up to its first loop. -/
def piperead (pi : Nat) (len : Int) : Code n Unit := do
  acquire (.pipe pi)
  jump (.pipereadLoop pi len)

/-- The body of the loop of `piperead` that waits for data. -/
def pipereadLoop (pi : Nat) (len : Int) : Code n Unit := do
  match ← myproc with
  | none => hang
  | some pr =>
      let p ← getPipe pi
      if p.drained ∧ p.writeopen then
        if ← testKilled pr fun _ => true then leave (.pipe pi)
        else
          sleep (.nread pi) (.pipe pi)
          jump (.pipereadLoop pi len)
      else jump (.pipereadCopy pi 0 len)

/-- The body of the loop of `piperead` that copies, and what comes after it. -/
def pipereadCopy (pi : Nat) (i len : Int) : Code n Unit := do
  if i < len then
    if (← getPipe pi).drained then wakeupLeave (.nwrite pi) (.pipe pi)
    else
      setPipe pi Pipe.take
      -- copyout
      if (← ask).ok then jump (.pipereadCopy pi (i + 1) len)
      else wakeupLeave (.nwrite pi) (.pipe pi)
  else wakeupLeave (.nwrite pi) (.pipe pi)

/-- `consoleread`, up to its loops. -/
def consoleread (len : Int) : Code n Unit := do
  acquire .cons
  jump (.consolereadLoop len len)

/-- The body of the loops of `consoleread`. -/
def consolereadLoop (target len : Int) : Code n Unit := do
  match ← myproc with
  | none => hang
  | some p =>
      if 0 < len then
        let cons ← read fun _ s => s.cons
        if cons.r = cons.w then
          if ← testKilled p fun _ => true then leave .cons
          else
            sleep .consR .cons
            jump (.consolereadLoop target len)
        else
          let c ← modifyGet (fun _ s => s.modifyCons fun cons => { cons with r := cons.r + 1 })
            fun _ s => s.cons.char s.cons.r
          if c = ctrl 'D' then
            when (len < target) (update fun _ s => s.modifyCons fun cons => { cons with r := cons.r - 1 })
            leave .cons
          else
            -- either_copyout
            if (← ask).ok then
              if c = '\n'.toUInt8 then leave .cons
              else jump (.consolereadLoop target (len - 1))
            else leave .cons
      else leave .cons

/-- `consoleintr`. -/
def consoleintr (c : UInt8) : Code n Unit := do
  acquire .cons
  let wakes ← modifyGet (fun _ s => s.modifyCons fun cons => (cons.intr c).1)
    fun _ s => (s.cons.intr c).2
  when wakes (wakeup (some .consR))
  release .cons

/-! ### Other kernel objects -/

/-- A system call that uses the lock of one kernel object: it may sleep until a
condition is true, and it may make conditions true and wake up others. -/
def condition (a : Nat) : Code n Unit := do
  match (← ask).condition with
  | .sleep i =>
      if ← read fun _ s => s.condition a i then jump (.condition a)
      else
        sleep (.condition a i) (.condition a)
        jump (.condition a)
  | .make i =>
      update fun _ s => s.setCondition a i true
      wakeup (some (.condition a i))
      jump (.condition a)
  | .spoil i =>
      update fun _ s => s.setCondition a i false
      jump (.condition a)
  | .leave => leave (.condition a)

/-- The interrupt of a device makes a condition true: `virtio_disk_intr`. -/
def device (a i : Nat) : Code n Unit := do
  acquire (.condition a)
  update fun _ s => s.setCondition a i true
  wakeup (some (.condition a i))
  release (.condition a)

/-! ### Traps -/

/-- `devintr` for the timer: hart 0 keeps the clock. -/
def timer : Code n Unit := do
  when ((← mycpu).val = 0) clockintr

/-- What process `p` does at the end of a timer trap. -/
def giveUp (policy : Policy) (p : Slot) : Code n Unit :=
  match policy with
  | .defaultScheduler => yield
  | .mlfq => do
      when ((← getProc p).timeinQ = 0) do
        setProc p demote
        yield
  | .fcfs | .pbs => pure ()

/-- An interrupt of the kernel or of a process in user mode. -/
inductive Interrupt where
  | timer
  | device (a i : Nat)
  | uart (c : UInt8)
  deriving DecidableEq

/-- `kerneltrap`. -/
def kerneltrap (policy : Policy) : Interrupt → Code n Unit
  | .timer => do
      timer
      match ← myproc with
      | none => pure ()
      | some p => when ((← getProc p).state = .running) (giveUp policy p)
  | .device a i => device a i
  | .uart c => consoleintr c

/-- `if(p->killed) exit(-1);` -/
def exitIfKilled (p : Slot) : Code n Unit := do
  when ((← getProc p).killed ≠ 0) (exit (-1))

/-- `syscall`, for the system calls that end in `usertrap`, and the rest of
`usertrap`. -/
def usertrap (policy : Policy) (p : Slot) : Trap → Code n Unit
  | .timer => do
      timer
      exitIfKilled p
      giveUp policy p
      jump .user
  | .device a i => do
      device a i
      jump .trapret
  | .uart c => do
      consoleintr c
      jump .trapret
  | .fork => do
      exitIfKilled p
      let _ ← fork
      jump .trapret
  | .exit status => do
      exitIfKilled p
      exit status
  | .wait => do
      exitIfKilled p
      wait
  | .waitx => do
      exitIfKilled p
      waitx
  | .kill pid => do
      exitIfKilled p
      let _ ← kill pid
      jump .trapret
  | .sleep len => do
      exitIfKilled p
      sysSleep len
  | .setPriority newPriority procid => do
      exitIfKilled p
      update fun _ s => { s with kernel := (sysSetPriority newPriority procid s.kernel).2 }
      jump .trapret
  | .pipewrite pi len => do
      exitIfKilled p
      pipewrite pi len
  | .piperead pi len => do
      exitIfKilled p
      piperead pi len
  | .pipeclose pi writable => do
      exitIfKilled p
      pipeclose pi writable
  | .consoleread len => do
      exitIfKilled p
      consoleread len
  | .condition a => do
      exitIfKilled p
      acquire (.condition a)
      jump (.condition a)
  | .fault => do
      setProc p fun q => { q with killed := 1 }
      jump .trapret

/-- A process in user mode, until its next trap. -/
def user (policy : Policy) : Code n Unit := do
  match ← myproc with
  | none => hang
  | some p => usertrap policy p (← ask).trap

/-- The end of `usertrap`. -/
def trapret : Code n Unit := do
  match ← myproc with
  | none => hang
  | some p =>
      exitIfKilled p
      jump .user

/-- `forkret`. -/
def forkret : Code n Unit := do
  match ← myproc with
  | none => hang
  | some p =>
      release (.proc p)
      jump .user

/-! ### The schedulers -/

/-- `c->proc = p; swtch(&c->context, &p->context); c->proc = 0;` -/
def switchTo (p : Slot) : Code n Unit := do
  let h ← mycpu
  update fun h s => s.setCpu h (some p)
  swtch (.scheduler h) (.proc p)
  update fun h s => s.setCpu h none

/-- The default scheduler, one pass. -/
def defaultScheduler : Code n Unit := do
  table.forM fun p => do
    acquire (.proc p)
    when ((← getProc p).state = .runnable) do
      setProc p fun q => { q with state := .running }
      switchTo p
    release (.proc p)
  jump .scheduler

/-- The body of the loop of the FCFS and PBS schedulers: visit slot `p` with
the lock of `low` held, and return the new `low`. -/
def scanSlot (rule : ScanRule) (low : Option Slot) (p : Slot) : Code n (Option Slot) := do
  acquire (.proc p)
  if (← getProc p).state = .runnable then
    setProc p rule.visit
    match low with
    | none => return some p
    | some l =>
        if rule.beats (← getProc p) (← getProc l) then
          release (.proc l)
          return some p
        else
          release (.proc p)
          return some l
  else
    release (.proc p)
    return low

/-- The FCFS and the PBS scheduler, one pass. -/
def scanScheduler (rule : ScanRule) (start : UInt32 → Proc → Proc) : Code n Unit := do
  match ← table.foldlM (scanSlot rule) none with
  | none => jump .scheduler
  | some low =>
      let now ← ticks
      setProc low (start now)
      switchTo low
      release (.proc low)
      jump .scheduler

/-- The body of the loop of `ageing`. -/
def ageSlot (p : Slot) : Code n Unit := do
  acquire (.proc p)
  let now ← ticks
  let q ← getProc p
  when (q.state = .runnable ∧ 24 < now - q.qEnter) do
    if q.inQ = 1 ∧ (← ask).stuck then hang
    else setProc p fun q => promote now (if q.inQ = 1 then setInQ 0 q else q)
  release (.proc p)

/-- The body of the loop that enqueues RUNNABLE processes. -/
def enqueueSlot (p : Slot) : Code n Unit := do
  acquire (.proc p)
  let q ← getProc p
  when (q.state = .runnable ∧ q.inQ = 0) (setProc p (setInQ 1))
  release (.proc p)

/-- The MLFQ scheduler, one pass up to the dequeue loops. -/
def mlfqScheduler : Code n Unit := do
  table.forM ageSlot
  table.forM enqueueSlot
  jump (.dequeue 0)

/-- The dequeue loops and the dispatch of the MLFQ scheduler. -/
def dequeue (i : Nat) : Code n Unit := do
  if i < 5 then
    match (← ask).queued with
    | none => jump (.dequeue (i + 1))
    | some p =>
        acquire (.proc p)
        setProc p (setInQ 0)
        if (← getProc p).state = .runnable then
          let now ← ticks
          setProc p fun q => startProc now (setQEnter now q)
          switchTo p
          let now ← ticks
          setProc p (setQEnter now)
          release (.proc p)
          jump .scheduler
        else
          release (.proc p)
          jump (.dequeue i)
  else jump .scheduler

/-- `scheduler`, one pass. -/
def scheduler : Policy → Code n Unit
  | .defaultScheduler => defaultScheduler
  | .fcfs => scanScheduler Xv6.fcfs fun _ => startFcfs
  | .pbs => scanScheduler Xv6.pbs startProc
  | .mlfq => mlfqScheduler

end Code

variable {n : Nat}

/-- The code at each label. -/
def code (policy : Policy) : Label → KernelProg n
  | .scheduler => (Code.scheduler policy).body
  | .dequeue i => (Code.dequeue i).body
  | .forkret => Code.forkret.body
  | .user => (Code.user policy).body
  | .trapret => Code.trapret.body
  | .waitLoop => Code.waitLoop.body
  | .sleepLoop ticks0 len => (Code.sleepLoop ticks0 len).body
  | .pipewriteLoop pi i len => (Code.pipewriteLoop pi i len).body
  | .pipereadLoop pi len => (Code.pipereadLoop pi len).body
  | .pipereadCopy pi i len => (Code.pipereadCopy pi i len).body
  | .consolereadLoop target len => (Code.consolereadLoop target len).body
  | .condition a => (Code.condition a).body

/-- An interrupt of kernel code, which goes on afterwards. -/
def handler (policy : Policy) (i : Code.Interrupt) (prog : KernelProg n) : KernelProg n :=
  Code.kerneltrap policy i fun _ => prog

/-- After `main`: `userinit` has run and every hart enters its scheduler.  The
only context that has been set up is that of the first process. -/
def booted (n : Nat) : Threads.Config (Fin n) Lock (Thread n) Input Label (Shared n) where
  shared :=
    { kernel := userinit, cpu := fun _ => none, pipe := fun _ => {}, cons := {},
      condition := fun _ _ => false, np := fun _ => none, bound := fun _ => none,
      loop := fun _ => .outside, reaped := [] }
  held := fun _ => []
  context := fun t => if t = .proc initproc then .goto .forkret else .hang
  running := fun _ => .goto .scheduler

/-- The machine of the kernel with one of its schedulers, on `n` harts. -/
def kernelThreads (policy : Policy) (n : Nat) :=
  Threads.machine (code policy) (handler policy) (booted n)

end Xv6
