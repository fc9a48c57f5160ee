import OSN.Kernel.Harts
import OSN.Kernel.ProcQueue
import OSN.Lib.Run

/-!
# The MLFQ kernel

The machine of the kernel compiled with `-D MLFQ`, on any number of harts.
The scheduler of a hart runs through the phases of its `for(;;)` loop:
`ageing`, one slot a step; the loop that queues what became RUNNABLE, as one
step; and the dequeue loops, one `ProcQueueDequeue` a step, until a process is
dispatched or all five queues are empty.  Between any two steps every process
event of any hart may happen, and the timer check of `usertrap` and
`kerneltrap` is a step of its own.

Where `ProcQueueRemove` does not come back, the ageing step has no successor.
-/

namespace Xv6

/-- Where the scheduler of a hart is in its loop. -/
inductive Phase where
  /-- `ageing()` is about to look at slot `i`. -/
  | ageing (i : Slot)
  /-- The loop that enqueues RUNNABLE processes comes next. -/
  | enqueue
  /-- `ProcQueueDequeue(&mfq[i])` comes next. -/
  | dequeue (i : Nat)
  deriving DecidableEq, Repr

/-- The state of the MLFQ kernel.  `mfq` has five queues, 0 to 4. -/
structure Mlfq (n : Nat) extends Sys n where
  mfq : Nat → ProcQueue Slot
  phase : Fin n → Phase

/-- A process event, the timer check of hart `h`, or the next step of the
scheduler of hart `h`. -/
inductive MlfqEvent (n : Nat) where
  | proc (e : ProcEvent n)
  | timerTrap (h : Fin n)
  | scheduler (h : Fin n)
  deriving DecidableEq

/-- Is the event a clock tick? -/
def MlfqEvent.isTick {n : Nat} : MlfqEvent n → Bool
  | .proc e => e.isTick
  | _ => false

/-! ### One process -/

/-- `p->inQ = inQ`. -/
def setInQ (inQ : UInt32) (p : Proc) : Proc := { p with inQ := inQ }

/-- What the scheduler does to a process that has switched back to it, and to
one that it is about to dispatch. -/
def setQEnter (now : UInt32) (p : Proc) : Proc := { p with qEnter := now }

/-- The level and slice that the timer check of `usertrap` and `kerneltrap`
gives a process whose slice is used up. -/
def demote (p : Proc) : Proc :=
  if p.level < 4 then { p with level := p.level + 1, timeinQ := slice (p.level + 1) }
  else if p.level = 4 then { p with timeinQ := slice p.level }
  else p

/-- The body of `ageing` after the process is out of its queue. -/
def promote (now : UInt32) (p : Proc) : Proc :=
  let p := if 0 < p.level then
      { p with level := p.level - 1, timeinQ := slice (p.level - 1) }
    else p
  { p with qEnter := now }

@[simp] theorem setQEnter_state {now : UInt32} {p : Proc} :
    (setQEnter now p).state = p.state := rfl

@[simp] theorem setInQ_state {inQ : UInt32} {p : Proc} : (setInQ inQ p).state = p.state := rfl

@[simp] theorem setInQ_inQ {inQ : UInt32} {p : Proc} : (setInQ inQ p).inQ = inQ := rfl

@[simp] theorem setInQ_level {inQ : UInt32} {p : Proc} : (setInQ inQ p).level = p.level := rfl

@[simp] theorem promote_state {now : UInt32} {p : Proc} : (promote now p).state = p.state := by
  unfold promote
  split <;> rfl

@[simp] theorem promote_inQ {now : UInt32} {p : Proc} : (promote now p).inQ = p.inQ := by
  unfold promote
  split <;> rfl

@[simp] theorem promote_qEnter {now : UInt32} {p : Proc} : (promote now p).qEnter = now := rfl

/-! ### Steps of the scheduler -/

namespace Mlfq

variable {n : Nat}

/-- The processes of a state. -/
abbrev proc (s : Mlfq n) (i : Slot) : Proc := s.kernel.proc i

/-- Change one process. -/
def modifyProc (s : Mlfq n) (i : Slot) (f : Proc → Proc) : Mlfq n :=
  { s with kernel := s.kernel.modify i f }

/-- Change one queue. -/
def setQueue (s : Mlfq n) (l : Nat) (q : ProcQueue Slot) : Mlfq n :=
  { s with mfq := Function.update s.mfq l q }

/-- Move the scheduler of hart `h`. -/
def setPhase (s : Mlfq n) (h : Fin n) (phase : Phase) : Mlfq n :=
  { s with phase := Function.update s.phase h phase }

/-- The test of `ageing`. -/
def Overdue (s : Mlfq n) (i : Slot) : Prop :=
  (s.proc i).state = .runnable ∧ 24 < s.kernel.ticks - (s.proc i).qEnter

instance (s : Mlfq n) (i : Slot) : Decidable (s.Overdue i) := by
  unfold Overdue
  infer_instance

/-- The body of the loop of `ageing`. -/
def ageSlot (s : Mlfq n) (i : Slot) : Option (Mlfq n) :=
  if s.Overdue i then
    if (s.proc i).inQ = 1 then
      (procQueueRemove NPROC (fun j => (s.proc j).pid) (s.mfq (s.proc i).level.toNat)
        (s.proc i).pid).map fun q =>
          (s.setQueue (s.proc i).level.toNat q).modifyProc i fun p =>
            promote s.kernel.ticks (setInQ 0 p)
    else some (s.modifyProc i (promote s.kernel.ticks))
  else some s

/-- The body of the loop that enqueues RUNNABLE processes. -/
def enqueueSlot (s : Mlfq n) (i : Slot) : Mlfq n :=
  if (s.proc i).state = .runnable ∧ (s.proc i).inQ = 0 then
    (s.setQueue (s.proc i).level.toNat
      (procQueueEnqueue (s.mfq (s.proc i).level.toNat) i)).modifyProc i (setInQ 1)
  else s

/-- The loop that enqueues RUNNABLE processes. -/
def enqueueLoop (s : Mlfq n) : Mlfq n :=
  (List.finRange NPROC).foldl enqueueSlot s

/-- The scheduler of hart `h` gives the hart to process `i`. -/
def dispatch (s : Mlfq n) (h : Fin n) (i : Slot) : Mlfq n :=
  let s := s.modifyProc i fun p =>
    dispatchProc s.kernel.ticks (setQEnter s.kernel.ticks p)
  { s with cpu := Function.update s.cpu h (some i) }

/-- One `ProcQueueDequeue(&mfq[l])` of the dequeue loops, and what is done
with the pointer it returns. -/
def dequeueStep (s : Mlfq n) (h : Fin n) (l : Nat) : Mlfq n :=
  let r := procQueueDequeue (s.mfq l)
  let s := s.setQueue l r.2
  match r.1 with
  | none => s.setPhase h (if l < 4 then .dequeue (l + 1) else .ageing 0)
  | some i =>
      let s := s.modifyProc i (setInQ 0)
      if (s.proc i).state = .runnable then (s.setPhase h (.ageing 0)).dispatch h i else s

/-- The next step of the scheduler of hart `h`, which must not be running a
process. -/
def schedulerStep (s : Mlfq n) (h : Fin n) : Option (Mlfq n) :=
  if s.cpu h = none then
    match s.phase h with
    | .ageing i =>
        (s.ageSlot i).map fun s =>
          s.setPhase h (if hi : i.val + 1 < NPROC then .ageing ⟨i.val + 1, hi⟩ else .enqueue)
    | .enqueue => some (s.enqueueLoop.setPhase h (.dequeue 0))
    | .dequeue l => some (s.dequeueStep h l)
  else none

/-- The timer check of `usertrap` and `kerneltrap` for the running process. -/
def timerTrap (s : Mlfq n) (h : Fin n) : Option (Mlfq n) :=
  (s.cpu h).map fun p =>
    if (s.proc p).timeinQ ≤ 0 then
      { s with
        toSys := s.toSys.leave setQEnter h p fun p => yieldProc s.kernel.ticks (demote p) }
    else s

/-- A step of the MLFQ kernel. -/
def step (s : Mlfq n) : MlfqEvent n → Option (Mlfq n)
  | .proc e => (s.toSys.procStep setQEnter e).map fun t => { s with toSys := t }
  | .timerTrap h => s.timerTrap h
  | .scheduler h => s.schedulerStep h

/-- After `main`: `pq_init` and `userinit` have run and every hart enters its
scheduler. -/
def boot (n : Nat) : Mlfq n where
  kernel := userinit
  cpu := fun _ => none
  mfq := fun _ => pqInit
  phase := fun _ => .ageing 0

/-! ### What the parts of a step leave alone -/

section Fields

variable {s : Mlfq n} {i j : Slot} {f : Proc → Proc} {h h' : Fin n} {l : Nat}
  {q : ProcQueue Slot} {phase : Phase}

@[simp] theorem modifyProc_proc_self : (s.modifyProc i f).proc i = f (s.proc i) := by
  simp [proc, modifyProc]

@[simp] theorem modifyProc_proc_of_ne (hj : j ≠ i) :
    (s.modifyProc i f).proc j = s.proc j := by
  simp [proc, modifyProc, hj]

/-- A change that keeps the state of the one process keeps every state. -/
theorem modifyProc_state (hf : (f (s.proc i)).state = (s.proc i).state) :
    ((s.modifyProc i f).proc j).state = (s.proc j).state := by
  by_cases hj : j = i
  · subst hj
    simpa using hf
  · simp [hj]

@[simp] theorem modifyProc_ticks : (s.modifyProc i f).kernel.ticks = s.kernel.ticks := rfl

@[simp] theorem modifyProc_cpu : (s.modifyProc i f).cpu = s.cpu := rfl

@[simp] theorem modifyProc_mfq : (s.modifyProc i f).mfq = s.mfq := rfl

@[simp] theorem modifyProc_phase : (s.modifyProc i f).phase = s.phase := rfl

@[simp] theorem setQueue_kernel : (s.setQueue l q).kernel = s.kernel := rfl

@[simp] theorem setQueue_proc : (s.setQueue l q).proc i = s.proc i := rfl

@[simp] theorem setQueue_cpu : (s.setQueue l q).cpu = s.cpu := rfl

@[simp] theorem setQueue_phase : (s.setQueue l q).phase = s.phase := rfl

@[simp] theorem setQueue_mfq : (s.setQueue l q).mfq = Function.update s.mfq l q := rfl

@[simp] theorem setPhase_kernel : (s.setPhase h phase).kernel = s.kernel := rfl

@[simp] theorem setPhase_proc : (s.setPhase h phase).proc i = s.proc i := rfl

@[simp] theorem setPhase_cpu : (s.setPhase h phase).cpu = s.cpu := rfl

@[simp] theorem setPhase_mfq : (s.setPhase h phase).mfq = s.mfq := rfl

@[simp] theorem setPhase_phase :
    (s.setPhase h phase).phase = Function.update s.phase h phase := rfl

@[simp] theorem dispatch_proc_self :
    (s.dispatch h i).proc i =
      dispatchProc s.kernel.ticks (setQEnter s.kernel.ticks (s.proc i)) := by
  simp [proc, dispatch, modifyProc]

@[simp] theorem dispatch_proc_of_ne (hj : j ≠ i) : (s.dispatch h i).proc j = s.proc j := by
  simp [proc, dispatch, modifyProc, hj]

@[simp] theorem dispatch_ticks : (s.dispatch h i).kernel.ticks = s.kernel.ticks := rfl

@[simp] theorem dispatch_cpu : (s.dispatch h i).cpu = Function.update s.cpu h (some i) := rfl

@[simp] theorem dispatch_mfq : (s.dispatch h i).mfq = s.mfq := rfl

@[simp] theorem dispatch_phase : (s.dispatch h i).phase = s.phase := rfl

end Fields

end Mlfq

/-- The machine of the MLFQ kernel on `n` harts. -/
def mlfq (n : Nat) : Machine (Mlfq n) (MlfqEvent n) where
  init s := s = Mlfq.boot n
  step := Mlfq.step

/-- The scheduler of hart `h` alone, for `k` steps. -/
def scheduling {n : Nat} (h : Fin n) (k : Nat) : List (MlfqEvent n) :=
  List.replicate k (.scheduler h)

/-- A clock tick of hart `h`, and its timer check after it. -/
def tickAndCheck {n : Nat} (h : Fin n) : List (MlfqEvent n) :=
  [.proc (.clockintr h), .timerTrap h]

end Xv6
