import OSN.Lib.Run
import OSN.Lib.Ring
import OSN.Kernel.Streams
import Mathlib.Data.UInt

/-!
# A pipe is a bounded queue

`piperead` and `pipewrite` hold `pi->lock` except while they sleep.  One event
is one pass through a loop of one of them, or a step into or out of the lock, so
the calls of any number of processes interleave where they give the lock up.
Copies from and to user memory may fail at any byte, and a process may be killed
at any time.

The counters `nread` and `nwrite` only ever grow, and wrap around.  What lies
between them in `data` is the queue (`Queue`): a write appends to it, a read
removes its head.
-/

namespace Xv6

/-- `struct pipe`, without its lock. -/
structure PipeBuffer extends Pipe where
  data : Nat → UInt8

namespace PipeBuffer

/-- `pi->data[pi->nwrite++ % PIPESIZE] = ch`. -/
def store (pi : PipeBuffer) (ch : UInt8) : PipeBuffer :=
  { pi with
    toPipe := pi.put
    data := Function.update pi.data (pi.nwrite % PIPESIZE).toNat ch }

/-- `ch = pi->data[pi->nread++ % PIPESIZE]`, the byte. -/
def next (pi : PipeBuffer) : UInt8 := pi.data (pi.nread % PIPESIZE).toNat

end PipeBuffer

/-- Where a process is. -/
inductive PipeAt where
  | out
  /-- Acquires `pi->lock`, for the loop of `pipewrite`. -/
  | lockWrite (n i : Int)
  /-- At the top of the loop of `pipewrite`. -/
  | write (n i : Int)
  /-- Sleeps on `&pi->nwrite`. -/
  | full (n i : Int)
  /-- Acquires `pi->lock`, for the first loop of `piperead`. -/
  | lockRead (n : Int)
  /-- At the top of the first loop of `piperead`. -/
  | wait (n : Int)
  /-- Sleeps on `&pi->nread`. -/
  | empty (n : Int)
  /-- At the top of the second loop of `piperead`. -/
  | copy (n i : Int)
  deriving DecidableEq

/-- A pipe and the processes that use it.  The last two fields are kept for the
record: the code does not have them. -/
structure PipeCalls (N : Nat) extends PipeBuffer where
  lock : Option (Fin N)
  call : Fin N → PipeAt
  /-- The bytes that all writers have put in, oldest first. -/
  written : List UInt8
  /-- The bytes that all readers have taken out, oldest first. -/
  taken : List UInt8

/-- One event. -/
inductive PipeEvent (N : Nat) where
  /-- A process calls `pipewrite`. -/
  | write (p : Fin N) (n : Int)
  /-- A process calls `piperead`. -/
  | read (p : Fin N) (n : Int)
  /-- A process acquires the lock. -/
  | acquire (p : Fin N)
  /-- A pass through the loop of `pipewrite`; `copyin` gives `ch`, or fails. -/
  | put (p : Fin N) (killed : Bool) (ch : Option UInt8)
  /-- A pass through the first loop of `piperead`. -/
  | await (p : Fin N) (killed : Bool)
  /-- A pass through the second loop of `piperead`; `copyout` delivers the byte,
  or fails. -/
  | take (p : Fin N) (delivered : Bool)
  /-- `kill` wakes a process up. -/
  | kill (p : Fin N)
  /-- `pipeclose`. -/
  | close (writable : Bool)

namespace PipeCalls

variable {N : Nat}

def setCall (s : PipeCalls N) (p : Fin N) (at' : PipeAt) : PipeCalls N :=
  { s with call := Function.update s.call p at' }

/-- `wakeup(&pi->nread)`. -/
def wakeReaders (s : PipeCalls N) : PipeCalls N :=
  { s with
    call := fun p =>
      match s.call p with
      | .empty n => .lockRead n
      | other => other }

/-- `wakeup(&pi->nwrite)`. -/
def wakeWriters (s : PipeCalls N) : PipeCalls N :=
  { s with
    call := fun p =>
      match s.call p with
      | .full n i => .lockWrite n i
      | other => other }

/-- The process gives up the lock and goes on at `at'`. -/
def release (s : PipeCalls N) (p : Fin N) (at' : PipeAt) : PipeCalls N :=
  { s.setCall p at' with lock := none }

/-- `acquire(&pi->lock)`. -/
def acquire (s : PipeCalls N) (p : Fin N) : Option (PipeCalls N) :=
  if s.lock = none then
    match s.call p with
    | .lockWrite n i => some { s.setCall p (.write n i) with lock := some p }
    | .lockRead n => some { s.setCall p (.wait n) with lock := some p }
    | _ => none
  else none

/-- A pass through the loop of `pipewrite`. -/
def put (s : PipeCalls N) (p : Fin N) (killed : Bool) (ch : Option UInt8) :
    Option (PipeCalls N) :=
  match s.call p with
  | .write n i =>
      if i < n then
        if s.readopen = false ∨ killed = true then some (s.release p .out)
        else if s.full then some (s.wakeReaders.release p (.full n i))
        else
          match ch with
          | none => some (s.wakeReaders.release p .out)
          | some ch =>
              some
                { s.setCall p (.write n (i + 1)) with
                  toPipeBuffer := s.store ch
                  written := s.written ++ [ch] }
      else some (s.wakeReaders.release p .out)
  | _ => none

/-- A pass through the first loop of `piperead`. -/
def await (s : PipeCalls N) (p : Fin N) (killed : Bool) : Option (PipeCalls N) :=
  match s.call p with
  | .wait n =>
      if s.drained ∧ s.writeopen then
        if killed then some (s.release p .out) else some (s.release p (.empty n))
      else some (s.setCall p (.copy n 0))
  | _ => none

/-- A pass through the second loop of `piperead`. -/
def take (s : PipeCalls N) (p : Fin N) (delivered : Bool) : Option (PipeCalls N) :=
  match s.call p with
  | .copy n i =>
      if i < n ∧ ¬ s.drained then
        let t :=
          { s with
            toPipe := s.toPipe.take
            taken := s.taken ++ [s.next] }
        some (if delivered then t.setCall p (.copy n (i + 1)) else t.wakeWriters.release p .out)
      else some (s.wakeWriters.release p .out)
  | _ => none

/-- `kill` makes a sleeping process runnable. -/
def kill (s : PipeCalls N) (p : Fin N) : Option (PipeCalls N) :=
  match s.call p with
  | .full n i => some (s.setCall p (.lockWrite n i))
  | .empty n => some (s.setCall p (.lockRead n))
  | _ => none

/-- `pipeclose`. -/
def close (s : PipeCalls N) (writable : Bool) : Option (PipeCalls N) :=
  if s.lock = none then
    let t := { s with toPipe := s.toPipe.close writable }
    some (if writable then t.wakeReaders else t.wakeWriters)
  else none

/-- A step. -/
def step (s : PipeCalls N) : PipeEvent N → Option (PipeCalls N)
  | .write p n => if s.call p = .out then some (s.setCall p (.lockWrite n 0)) else none
  | .read p n => if s.call p = .out then some (s.setCall p (.lockRead n)) else none
  | .acquire p => s.acquire p
  | .put p killed ch => s.put p killed ch
  | .await p killed => s.await p killed
  | .take p delivered => s.take p delivered
  | .kill p => s.kill p
  | .close writable => s.close writable

end PipeCalls

/-- What `pipealloc` sets up; the bytes of the page are whatever they are. -/
structure PipeCalls.Allocated {N : Nat} (s : PipeCalls N) : Prop where
  pipe : s.toPipe = {}
  lock : s.lock = none
  call : ∀ p, s.call p = .out
  written : s.written = []
  taken : s.taken = []

/-- A pipe from `pipealloc` on, with `N` processes that may use it. -/
def pipe (N : Nat) : Machine (PipeCalls N) (PipeEvent N) where
  init := PipeCalls.Allocated
  step := PipeCalls.step

/-! ### What a step does to the buffer -/

variable {N : Nat} {s t : PipeCalls N} {e : PipeEvent N}
  {past : Past (PipeCalls N) (PipeEvent N)}

/-- A step leaves the bytes and the counters alone, puts one byte in or takes one
out. -/
inductive PipeMove (s t : PipeCalls N) : Prop
  | keep (hread : t.nread = s.nread) (hwrite : t.nwrite = s.nwrite) (hdata : t.data = s.data)
      (hwritten : t.written = s.written) (htaken : t.taken = s.taken)
  | put (ch : UInt8) (hroom : s.full = false) (hread : t.nread = s.nread)
      (hwrite : t.nwrite = s.nwrite + 1)
      (hdata : t.data = Function.update s.data (s.nwrite % PIPESIZE).toNat ch)
      (hwritten : t.written = s.written ++ [ch]) (htaken : t.taken = s.taken)
  | take (hsome : s.drained = false) (hread : t.nread = s.nread + 1)
      (hwrite : t.nwrite = s.nwrite) (hdata : t.data = s.data) (hwritten : t.written = s.written)
      (htaken : t.taken = s.taken ++ [s.data (s.nread % PIPESIZE).toNat])

theorem PipeCalls.put_moves {p : Fin N} {killed : Bool} {ch : Option UInt8}
    (h : s.put p killed ch = some t) : PipeMove s t := by
  unfold PipeCalls.put at h
  split at h
  next n i hcall =>
    split at h
    · split at h
      · cases h
        exact .keep rfl rfl rfl rfl rfl
      · split at h
        · cases h
          exact .keep rfl rfl rfl rfl rfl
        next hroom =>
          cases ch with
          | none =>
              cases h
              exact .keep rfl rfl rfl rfl rfl
          | some ch =>
              cases h
              exact .put ch (by simpa using hroom) rfl rfl rfl rfl rfl
    · cases h
      exact .keep rfl rfl rfl rfl rfl
  next => cases h

theorem PipeCalls.await_moves {p : Fin N} {killed : Bool} (h : s.await p killed = some t) :
    PipeMove s t := by
  unfold PipeCalls.await at h
  split at h
  next n hcall =>
    split at h
    · split at h
      · cases h
        exact .keep rfl rfl rfl rfl rfl
      · cases h
        exact .keep rfl rfl rfl rfl rfl
    · cases h
      exact .keep rfl rfl rfl rfl rfl
  next => cases h

theorem PipeCalls.take_moves {p : Fin N} {delivered : Bool} (h : s.take p delivered = some t) :
    PipeMove s t := by
  unfold PipeCalls.take at h
  split at h
  next n i hcall =>
    split at h
    next hmore =>
      have hsome : s.drained = false := by simpa using hmore.2
      cases delivered with
      | true =>
          cases h
          exact .take hsome rfl rfl rfl rfl rfl
      | false =>
          cases h
          exact .take hsome rfl rfl rfl rfl rfl
    next =>
      cases h
      exact .keep rfl rfl rfl rfl rfl
  next => cases h

theorem PipeCalls.step_moves (h : s.step e = some t) : PipeMove s t := by
  cases e with
  | write p n | read p n =>
      simp only [PipeCalls.step, Option.ite_none_right_eq_some, Option.some.injEq] at h
      obtain ⟨-, rfl⟩ := h
      exact .keep rfl rfl rfl rfl rfl
  | acquire p =>
      simp only [PipeCalls.step, PipeCalls.acquire] at h
      split at h
      · split at h
        · cases h
          exact .keep rfl rfl rfl rfl rfl
        · cases h
          exact .keep rfl rfl rfl rfl rfl
        · cases h
      · cases h
  | put p killed ch => exact PipeCalls.put_moves h
  | await p killed => exact PipeCalls.await_moves h
  | take p delivered => exact PipeCalls.take_moves h
  | kill p =>
      simp only [PipeCalls.step, PipeCalls.kill] at h
      split at h
      · cases h
        exact .keep rfl rfl rfl rfl rfl
      · cases h
        exact .keep rfl rfl rfl rfl rfl
      · cases h
  | close writable =>
      simp only [PipeCalls.step, PipeCalls.close, Option.ite_none_right_eq_some,
        Option.some.injEq] at h
      obtain ⟨-, rfl⟩ := h
      cases writable with
      | true => exact .keep rfl rfl rfl rfl rfl
      | false => exact .keep rfl rfl rfl rfl rfl

/-! ### The queue -/

/-- The bytes between the counters are those put in and not yet taken out. -/
structure PipeCalls.Queue (s : PipeCalls N) (pending : List UInt8) : Prop where
  written : s.written = s.taken ++ pending
  nread : s.nread = UInt32.ofNat s.taken.length
  window : Ring.Window PIPESIZE.toNat (2 ^ 32) s.data s.nread.toNat s.nwrite.toNat pending

theorem PIPESIZE_dvd : PIPESIZE.toNat ∣ 2 ^ 32 := by decide

theorem PIPESIZE_lt : PIPESIZE.toNat < 2 ^ 32 := by decide

theorem PipeCalls.Queue.full_iff {pending : List UInt8} (h : s.Queue pending) :
    s.full = true ↔ pending.length = PIPESIZE.toNat := by
  rw [← h.window.full_iff PIPESIZE_lt, Pipe.full, beq_iff_eq, ← UInt32.toNat_inj, UInt32.toNat_add]

theorem PipeCalls.Queue.drained_iff {pending : List UInt8} (h : s.Queue pending) :
    s.drained = true ↔ pending = [] := by
  rw [← h.window.empty_iff PIPESIZE_lt, Pipe.drained, beq_iff_eq, ← UInt32.toNat_inj, eq_comm]

/-- **A write appends to the queue.** -/
theorem PipeCalls.Queue.put {pending : List UInt8} (h : s.Queue pending) {ch : UInt8}
    (hroom : s.full = false) (hread : t.nread = s.nread) (hwrite : t.nwrite = s.nwrite + 1)
    (hdata : t.data = Function.update s.data (s.nwrite % PIPESIZE).toNat ch)
    (hwritten : t.written = s.written ++ [ch]) (htaken : t.taken = s.taken) :
    t.Queue (pending ++ [ch]) := by
  have hnot : pending.length ≠ PIPESIZE.toNat := by
    intro hfull
    rw [h.full_iff.mpr hfull] at hroom
    cases hroom
  constructor
  · rw [hwritten, htaken, h.written, List.append_assoc]
  · rw [hread, htaken, h.nread]
  · rw [hread, hwrite, hdata, UInt32.toNat_add, UInt32.toNat_mod]
    exact h.window.push PIPESIZE_dvd (Nat.lt_of_le_of_ne h.window.bounded hnot)

/-- **A read removes the head of the queue.** -/
theorem PipeCalls.Queue.take {pending : List UInt8} (h : s.Queue pending)
    (hsome : s.drained = false) (hread : t.nread = s.nread + 1) (hwrite : t.nwrite = s.nwrite)
    (hdata : t.data = s.data) (hwritten : t.written = s.written)
    (htaken : t.taken = s.taken ++ [s.data (s.nread % PIPESIZE).toNat]) :
    ∃ rest, t.Queue rest := by
  cases pending with
  | nil =>
      rw [h.drained_iff.mpr rfl] at hsome
      cases hsome
  | cons ch rest =>
      obtain ⟨hhead, hrest⟩ := h.window.pop PIPESIZE_dvd
      rw [UInt32.toNat_mod, hhead] at htaken
      refine ⟨rest, ?_, ?_, ?_⟩
      · rw [hwritten, htaken, h.written, List.append_assoc]
        rfl
      · rw [hread, htaken, List.length_append, UInt32.ofNat_add, h.nread]
        rfl
      · rw [hread, hwrite, hdata, UInt32.toNat_add]
        exact hrest

/-- **A step of the pipe is a step of the queue.** -/
theorem PipeMove.queue (hmove : PipeMove s t) {pending : List UInt8} (h : s.Queue pending) :
    ∃ pending', t.Queue pending' := by
  cases hmove with
  | keep hread hwrite hdata hwritten htaken =>
      refine ⟨pending, ?_, ?_, ?_⟩
      · rw [hwritten, htaken, h.written]
      · rw [hread, htaken, h.nread]
      · rw [hread, hwrite, hdata]
        exact h.window
  | put ch hroom hread hwrite hdata hwritten htaken =>
      exact ⟨_, h.put hroom hread hwrite hdata hwritten htaken⟩
  | take hsome hread hwrite hdata hwritten htaken =>
      exact h.take hsome hread hwrite hdata hwritten htaken

theorem PipeCalls.Allocated.queue (h : s.Allocated) : s.Queue [] := by
  constructor
  · rw [h.written, h.taken]
    rfl
  · rw [h.taken, h.pipe]
    rfl
  · rw [h.pipe]
    exact .nil (by decide)

theorem pipe_queue (run : Run (pipe N) past s) : ∃ pending, s.Queue pending := by
  induction run with
  | init h => exact ⟨[], h.queue⟩
  | step _ h ih =>
      obtain ⟨pending, hqueue⟩ := ih
      exact (PipeCalls.step_moves h).queue hqueue

/-- **A pipe is a bounded queue.**  In every reachable state the counters are at
most `PIPESIZE` apart, the bytes taken out are the first of those put in, and the
others are still there, in order, between the counters. -/
theorem pipe_fifo (run : Run (pipe N) past s) :
    (s.nwrite - s.nread).toNat ≤ PIPESIZE.toNat ∧ s.taken <+: s.written ∧
      s.written.length = s.taken.length + (s.nwrite - s.nread).toNat ∧
      s.nread = UInt32.ofNat s.taken.length ∧ s.nwrite = UInt32.ofNat s.written.length ∧
      ∀ k (hk : k < s.written.length), s.taken.length ≤ k →
        s.data (UInt32.ofNat k % PIPESIZE).toNat = s.written[k] := by
  obtain ⟨pending, h⟩ := pipe_queue run
  have hbound := h.window.bounded
  have hlength : s.written.length = s.taken.length + pending.length := by
    rw [h.written, List.length_append]
  have hcount : (s.nwrite - s.nread).toNat = pending.length := by
    rw [UInt32.toNat_sub, Nat.add_comm]
    exact h.window.length_eq PIPESIZE_lt
  have hfront : s.nread.toNat % PIPESIZE.toNat = s.taken.length % PIPESIZE.toNat := by
    rw [h.nread, UInt32.toNat_ofNat', Nat.mod_mod_of_dvd _ PIPESIZE_dvd]
  refine ⟨by omega, ⟨pending, h.written.symm⟩, by omega, h.nread, ?_, ?_⟩
  · rw [← UInt32.toNat_inj, h.window.back, h.nread, UInt32.toNat_ofNat', UInt32.toNat_ofNat',
      Nat.mod_add_mod, hlength]
  · intro k hk hle
    have hplace : k - s.taken.length < pending.length := by omega
    have hcell := congrArg (·[k - s.taken.length]?) h.window.cells
    simp only [Ring.segment, hfront, List.getElem?_map, List.getElem?_range hplace,
      Option.map_some, List.getElem?_eq_getElem hplace, Option.some.injEq, Nat.mod_add_mod,
      Nat.add_sub_cancel' hle] at hcell
    rw [UInt32.toNat_mod, UInt32.toNat_ofNat', Nat.mod_mod_of_dvd _ PIPESIZE_dvd, hcell]
    simp only [h.written, List.getElem_append_right hle]

/-- A pipe whose page holds junk, and one process. -/
def freshPipe : PipeCalls 1 where
  readopen := true
  writeopen := true
  data := fun _ => 5
  lock := none
  call := fun _ => .out
  written := []
  taken := []

/-- The process writes two bytes and reads one of them back. -/
theorem pipe_fifo_two : ∃ past s, Run (pipe 1) past s ∧ s.written = [7, 8] ∧ s.taken = [7] ∧
    (s.nwrite - s.nread).toNat ≤ PIPESIZE.toNat ∧ s.taken <+: s.written := by
  obtain ⟨past, s, run, hwritten, htaken⟩ := Machine.exists_run_of_trace (M := pipe 1)
    (s := freshPipe) ⟨rfl, rfl, fun _ => rfl, rfl, rfl⟩
    [.write 0 2, .acquire 0, .put 0 false (some 7), .put 0 false (some 8), .put 0 false none,
      .read 0 1, .acquire 0, .await 0 false, .take 0 true]
    (fun _ s => s.written = [7, 8] ∧ s.taken = [7]) (by decide)
  have hfifo := pipe_fifo run
  exact ⟨past, s, run, hwritten, htaken, hfifo.1, hfifo.2.1⟩

end Xv6
