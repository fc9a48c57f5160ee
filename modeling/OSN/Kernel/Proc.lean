import Mathlib.Algebra.GroupWithZero.Nat
import Mathlib.Logic.Function.Basic
import Mathlib.Data.List.Basic
import Mathlib.Data.Fintype.Basic
import Mathlib.Data.Fintype.Prod
import Mathlib.Data.UInt
import Mathlib.Tactic.Common

/-!
# The process table of the kernel

`struct proc` with the fields that `proc.c`, `trap.c` and `sysproc.c` read and
write for scheduling, and the functions of `proc.c` on them: first what each
does to the fields of one process, then what it does to the whole table.
Memory, open files, the trap frame and the name are left out: no function
here reads them.

A table function that takes each `p->lock` in turn is the map of its body over
the slots, because the body reads only the slot it has locked.
-/

namespace Xv6

/-- `NPROC` of param.h. -/
def NPROC : Nat := 64

instance : NeZero NPROC := ⟨by decide⟩

theorem NPROC_pos : 0 < NPROC := by decide

/-- A pointer into `proc[NPROC]`. -/
abbrev Slot := Fin NPROC

instance lawfulBEqEntry : LawfulBEq (Option Slot) := inferInstance

/-- `enum procstate`. -/
inductive ProcState where
  | unused | used | sleeping | runnable | running | zombie
  deriving DecidableEq, Repr

/-- The address a process sleeps on: its own slot (`wait`), `&ticks`
(`sys_sleep`), the indices of a pipe or of the console, condition `i` of some
other kernel object, or anything else. -/
inductive Chan where
  | proc (p : Slot)
  | ticks
  | nread (pi : Nat)
  | nwrite (pi : Nat)
  | consR
  | condition (a i : Nat)
  | other (addr : Nat)
  deriving DecidableEq, Repr

/-- `struct proc`, the fields the scheduling code uses. -/
structure Proc where
  state : ProcState := .unused
  chan : Option Chan := none
  killed : Int := 0
  xstate : Int := 0
  pid : Int := 0
  parent : Option Slot := none
  birthtime : UInt32 := 0
  staticPriority : UInt32 := 0
  dynamicPriority : UInt32 := 0
  niceness : UInt32 := 0
  sched1 : UInt32 := 0
  runtime : UInt32 := 0
  sched2 : UInt32 := 0
  inQ : UInt32 := 0
  level : UInt32 := 0
  timeinQ : UInt32 := 0
  qEnter : UInt32 := 0
  timeineachq : Nat → UInt32 := fun _ => 0
  rtime : UInt32 := 0
  etime : UInt32 := 0
  nrun : UInt32 := 0

/-- A process that has a slot of the table. -/
def Proc.live (p : Proc) : Prop := p.state ≠ .unused

/-- `1 << level`, the time slice of an MLFQ level. -/
def slice (level : UInt32) : UInt32 := 1 <<< level

/-! ### One process -/

/-- What `allocproc` writes into the slot it found. -/
def allocprocFields (ticks : UInt32) (pid : Int) (p : Proc) : Proc :=
  { p with
    pid := pid, state := .used, birthtime := ticks
    inQ := 0, qEnter := ticks, level := 0, timeinQ := slice 0
    rtime := 0, etime := 0, timeineachq := fun _ => 0, nrun := 0
    staticPriority := 60, niceness := 5 }

/-- `freeproc`. -/
def freeproc (p : Proc) : Proc :=
  { p with
    pid := 0, parent := none, chan := none, killed := 0, xstate := 0, state := .unused }

/-- The end of `fork`: the parent is recorded and the child may run. -/
def forkFields (parent : Slot) (p : Proc) : Proc :=
  { p with parent := some parent, state := .runnable }

/-- The body of the loop of `RunningTime`. -/
def runningTimeProc (p : Proc) : Proc :=
  if p.state = .running then
    { p with
      runtime := p.runtime + 1, rtime := p.rtime + 1, timeinQ := p.timeinQ - 1
      timeineachq := Function.update p.timeineachq p.level.toNat
        (p.timeineachq p.level.toNat + 1) }
  else p

/-- A sleeping process becomes RUNNABLE, as in `wakeup` and `kill`. -/
def wakeProc (ticks : UInt32) (p : Proc) : Proc :=
  { p with state := .runnable, sched2 := ticks }

/-- The body of the loop of `wakeup`. -/
def wakeupProc (ticks : UInt32) (chan : Option Chan) (p : Proc) : Proc :=
  if p.state = .sleeping ∧ p.chan = chan then wakeProc ticks p else p

/-- What `kill` does to the process it found. -/
def killProc (ticks : UInt32) (p : Proc) : Proc :=
  let p := { p with killed := 1 }
  if p.state = .sleeping then wakeProc ticks p else p

/-- `yield` up to the call of `sched`. -/
def yieldProc (ticks : UInt32) (p : Proc) : Proc :=
  { p with state := .runnable, sched2 := ticks }

/-- A process is given the hart, as PBS and MLFQ do it.  If it comes out of
`sleep`, the first thing it does, still under `p->lock`, is `p->chan = 0`. -/
def dispatchProc (now : UInt32) (p : Proc) : Proc :=
  { p with
    nrun := p.nrun + 1, state := .running, runtime := 0, sched1 := now, chan := none }

/-- `sleep` up to the call of `sched`. -/
def sleepProc (chan : Option Chan) (p : Proc) : Proc :=
  { p with chan := chan, state := .sleeping }

/-- The end of `exit` up to the call of `sched`. -/
def exitProc (ticks : UInt32) (status : Int) (p : Proc) : Proc :=
  { p with xstate := status, state := .zombie, etime := ticks }

/-- What `_setpriority` writes into the process it found. -/
def setpriorityProc (priority : UInt32) (p : Proc) : Proc :=
  { p with staticPriority := priority, niceness := 5 }

/-! ### The table -/

/-- The globals of the kernel that the table functions share. -/
structure Kernel where
  ticks : UInt32
  nextpid : Int
  proc : Slot → Proc

namespace Kernel

/-- Change one slot of the table. -/
def modify (k : Kernel) (i : Slot) (f : Proc → Proc) : Kernel :=
  { k with proc := fun j => if j = i then f (k.proc i) else k.proc j }

/-- Change every slot of the table. -/
def map (k : Kernel) (f : Slot → Proc → Proc) : Kernel :=
  { k with proc := fun i => f i (k.proc i) }

variable {k : Kernel} {i j : Slot} {f : Proc → Proc} {g : Slot → Proc → Proc}

@[simp] theorem modify_ticks : (k.modify i f).ticks = k.ticks := rfl

@[simp] theorem modify_nextpid : (k.modify i f).nextpid = k.nextpid := rfl

theorem modify_proc : (k.modify i f).proc j = if j = i then f (k.proc j) else k.proc j := by
  by_cases h : j = i
  · subst h
    simp [modify]
  · simp [modify, h]

@[simp] theorem modify_proc_self : (k.modify i f).proc i = f (k.proc i) := by
  simp [modify]

@[simp] theorem modify_proc_of_ne (h : j ≠ i) : (k.modify i f).proc j = k.proc j := by
  simp [modify, h]

@[simp] theorem map_ticks : (k.map g).ticks = k.ticks := rfl

@[simp] theorem map_nextpid : (k.map g).nextpid = k.nextpid := rfl

@[simp] theorem map_proc : (k.map g).proc i = g i (k.proc i) := rfl

end Kernel

/-- The first slot, in table order, that passes a test. -/
def findSlot (test : Slot → Bool) : Option Slot :=
  (List.finRange NPROC).find? test

theorem findSlot_some {test : Slot → Bool} {i : Slot} (h : findSlot test = some i) :
    test i = true :=
  List.find?_some h

theorem findSlot_none {test : Slot → Bool} (h : findSlot test = none) (i : Slot) :
    test i = false := by
  simpa using List.find?_eq_none.mp h i (List.mem_finRange i)

/-- `initproc`, the slot `userinit` fills: the first of the table. -/
def initproc : Slot := 0

/-- `RunningTime`. -/
def runningTime (k : Kernel) : Kernel :=
  k.map fun _ => runningTimeProc

/-- `wakeup`, called with `myproc() == me`. -/
def wakeup (me : Option Slot) (chan : Option Chan) (k : Kernel) : Kernel :=
  k.map fun i p => if some i = me then p else wakeupProc k.ticks chan p

/-- `clockintr`. -/
def clockintr (me : Option Slot) (k : Kernel) : Kernel :=
  wakeup me (some .ticks) (runningTime { k with ticks := k.ticks + 1 })

/-- `kill`, with its return value. -/
def kill (pid : Int) (k : Kernel) : Int × Kernel :=
  match findSlot fun i => (k.proc i).pid = pid with
  | some i => (0, k.modify i (killProc k.ticks))
  | none => (-1, k)

/-- `allocproc`: the slot it returns with its lock held, if any.  With
`ok = false` the trap frame or the page table cannot be allocated and the slot
is given back by `freeproc`. -/
def allocproc (ok : Bool) (k : Kernel) : Option Slot × Kernel :=
  match findSlot fun i => (k.proc i).state = .unused with
  | none => (none, k)
  | some i =>
      let k' := { k.modify i (allocprocFields k.ticks k.nextpid) with nextpid := k.nextpid + 1 }
      if ok then (some i, k') else (none, k'.modify i freeproc)

/-- `fork`, called by `me`, with its return value.  With `ok = false` some
allocation on the way (in `allocproc` or in `uvmcopy`) fails. -/
def fork (me : Slot) (ok : Bool) (k : Kernel) : Int × Kernel :=
  match allocproc ok k with
  | (none, k') => (-1, k')
  | (some i, k') => ((k'.proc i).pid, k'.modify i (forkFields me))

/-- The assignments of `reparent`. -/
def adoptChildren (me : Slot) (k : Kernel) : Kernel :=
  k.map fun _ p => if p.parent = some me then { p with parent := some initproc } else p

/-- Has `me` a child? -/
def havekids (me : Slot) (k : Kernel) : Bool :=
  (findSlot fun i => (k.proc i).parent = some me).isSome

/-- `reparent`: `me`'s children go to `initproc`, which is woken for each of
them. -/
def reparent (me : Slot) (k : Kernel) : Kernel :=
  if havekids me k then wakeup (some me) (some (.proc initproc)) (adoptChildren me k)
  else adoptChildren me k

/-- `exit` from `acquire(&wait_lock)` to the call of `sched`. -/
def exit (me : Slot) (status : Int) (k : Kernel) : Kernel :=
  let k := reparent me k
  let k := wakeup (some me) ((k.proc me).parent.map .proc) k
  k.modify me (exitProc k.ticks status)

/-- One scan of the loop of `wait` (and of `waitx`): the first ZOMBIE child, if
there is one. -/
def zombieChild (me : Slot) (k : Kernel) : Option Slot :=
  findSlot fun i => (k.proc i).parent = some me ∧ (k.proc i).state = .zombie

/-- `_setpriority`, with its return value. -/
def setpriority (pid : Int) (priority : UInt32) (k : Kernel) : UInt32 × Kernel :=
  match findSlot fun i => (k.proc i).pid = pid with
  | some i => ((k.proc i).staticPriority, k.modify i (setpriorityProc priority))
  | none => (0, k)

/-- `sys_set_priority`: its first argument, the new priority, is handed to
`_setpriority` as the pid and its second, the pid, as the priority. -/
def sysSetPriority (newPriority procid : Int) (k : Kernel) : UInt32 × Kernel :=
  setpriority newPriority (UInt32.ofBitVec (BitVec.ofInt 32 procid)) k

/-- The table before `userinit`: every slot zeroed, as static data is. -/
def procinit : Kernel := { ticks := 0, nextpid := 1, proc := fun _ => {} }

/-- `userinit`: slot 0 becomes the first process, RUNNABLE. -/
def userinit : Kernel :=
  (allocproc true procinit).2.modify initproc fun p => { p with state := .runnable }

/-- The slot that `userinit` gets from `allocproc` is `initproc`. -/
theorem allocproc_procinit : (allocproc true procinit).1 = some initproc := by decide

@[simp] theorem userinit_ticks : userinit.ticks = 0 := by decide

/-- The table after `userinit`. -/
theorem userinit_proc (i : Slot) :
    userinit.proc i =
      if i = initproc then { allocprocFields 0 1 {} with state := .runnable } else {} := by
  have hfind : (findSlot fun i => (procinit.proc i).state = .unused) = some initproc := by
    decide
  have halloc : (allocproc true procinit).2 =
      { procinit.modify initproc (allocprocFields 0 1) with nextpid := 2 } := by
    rw [allocproc, hfind]
    rfl
  rw [userinit, halloc]
  by_cases hi : i = initproc
  · subst hi
    rw [Kernel.modify_proc_self, if_pos rfl]
    rfl
  · rw [Kernel.modify_proc_of_ne hi, if_neg hi]
    exact if_neg hi

@[simp] theorem runningTimeProc_state {p : Proc} : (runningTimeProc p).state = p.state := by
  unfold runningTimeProc
  split <;> rfl

theorem runningTimeProc_of_ne {p : Proc} (h : p.state ≠ .running) : runningTimeProc p = p := by
  simp [runningTimeProc, h]

theorem wakeupProc_of_ne {p : Proc} {now : UInt32} {chan : Option Chan}
    (h : p.state ≠ .sleeping) : wakeupProc now chan p = p := by
  simp [wakeupProc, h]

/-! ### What each table function does to a slot -/

section Effects

variable {k : Kernel} {i : Slot} {me : Slot} {who : Option Slot} {chan : Option Chan}

@[simp] theorem wakeup_ticks : (wakeup who chan k).ticks = k.ticks := rfl

@[simp] theorem wakeup_nextpid : (wakeup who chan k).nextpid = k.nextpid := rfl

@[simp] theorem wakeup_proc :
    (wakeup who chan k).proc i =
      if some i = who then k.proc i else wakeupProc k.ticks chan (k.proc i) := rfl

@[simp] theorem runningTime_ticks : (runningTime k).ticks = k.ticks := rfl

@[simp] theorem runningTime_nextpid : (runningTime k).nextpid = k.nextpid := rfl

@[simp] theorem runningTime_proc : (runningTime k).proc i = runningTimeProc (k.proc i) := rfl

theorem clockintr_proc :
    (clockintr who k).proc i =
      if some i = who then runningTimeProc (k.proc i)
      else wakeupProc (k.ticks + 1) (some .ticks) (runningTimeProc (k.proc i)) := rfl

@[simp] theorem clockintr_ticks : (clockintr who k).ticks = k.ticks + 1 := rfl

@[simp] theorem clockintr_nextpid : (clockintr who k).nextpid = k.nextpid := rfl

@[simp] theorem kill_ticks {pid : Int} : (kill pid k).2.ticks = k.ticks := by
  unfold kill
  split <;> rfl

@[simp] theorem kill_nextpid {pid : Int} : (kill pid k).2.nextpid = k.nextpid := by
  unfold kill
  split <;> rfl

@[simp] theorem setpriority_nextpid {pid : Int} {priority : UInt32} :
    (setpriority pid priority k).2.nextpid = k.nextpid := by
  unfold setpriority
  split <;> rfl

@[simp] theorem allocproc_ticks {ok : Bool} : (allocproc ok k).2.ticks = k.ticks := by
  unfold allocproc
  split
  · rfl
  · cases ok <;> rfl

@[simp] theorem fork_ticks {ok : Bool} : (fork me ok k).2.ticks = k.ticks := by
  have halloc : (allocproc ok k).2.ticks = k.ticks := allocproc_ticks
  unfold fork
  split <;> simp_all

/-- `fork` takes a pid if it finds a free slot. -/
theorem fork_nextpid {ok : Bool} :
    (fork me ok k).2.nextpid =
      if ∃ i, (k.proc i).state = .unused then k.nextpid + 1 else k.nextpid := by
  cases hfind : findSlot fun i => (k.proc i).state = .unused with
  | none =>
      have hfull : ¬ ∃ i, (k.proc i).state = .unused := by
        intro hunused
        obtain ⟨i, hi⟩ := hunused
        simpa [hi] using findSlot_none hfind i
      simp [fork, allocproc, hfind, hfull]
  | some i =>
      have hfree : ∃ i, (k.proc i).state = .unused := ⟨i, by simpa using findSlot_some hfind⟩
      rw [if_pos hfree]
      cases ok <;> simp [fork, allocproc, hfind]

@[simp] theorem setpriority_ticks {pid : Int} {priority : UInt32} :
    (setpriority pid priority k).2.ticks = k.ticks := by
  unfold setpriority
  split <;> rfl

@[simp] theorem reparent_ticks : (reparent me k).ticks = k.ticks := by
  unfold reparent
  split <;> rfl

@[simp] theorem reparent_nextpid : (reparent me k).nextpid = k.nextpid := by
  unfold reparent
  split <;> rfl

@[simp] theorem exit_ticks {status : Int} : (exit me status k).ticks = k.ticks := by
  simp [exit]

@[simp] theorem exit_nextpid {status : Int} : (exit me status k).nextpid = k.nextpid := by
  simp [exit]

end Effects

end Xv6
