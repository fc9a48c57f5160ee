import OSN.Kernel.Proc

/-!
# Harts, and the steps of processes and interrupts

Each hart has a `struct cpu`, of which the field `proc` matters here: the
process it runs, or none while it is in its scheduler.  A process event is one
of the steps that are the same under every scheduler: a clock interrupt, a
wakeup, or something the running process does.  When the process leaves its
hart, the event includes the switch to the scheduler and what that does before
it releases `p->lock`.

`Effect` says once what such an event can do to one slot; the invariants of
the schedulers are read off it.
-/

namespace Xv6

/-- The process table with `n` harts. -/
structure Sys (n : Nat) where
  kernel : Kernel
  /-- `cpus[h].proc`. -/
  cpu : Fin n → Option Slot

/-- Steps of processes and interrupts, on hart `h`. -/
inductive ProcEvent (n : Nat) where
  /-- The timer interrupt of hart 0. -/
  | clockintr (h : Fin n)
  /-- `wakeup(chan)`, by the running process or by a device interrupt. -/
  | wakeup (h : Fin n) (chan : Chan)
  | kill (h : Fin n) (pid : Int)
  | fork (h : Fin n) (ok : Bool)
  | exit (h : Fin n) (status : Int)
  /-- One scan of `wait` or `waitx`; `ok`: `copyout` of the status succeeds. -/
  | wait (h : Fin n) (ok : Bool)
  | sleep (h : Fin n) (chan : Chan)
  | yield (h : Fin n)
  | setPriority (h : Fin n) (newPriority procid : Int)
  deriving DecidableEq

/-- Is the event a clock tick? -/
def ProcEvent.isTick {n : Nat} : ProcEvent n → Bool
  | .clockintr _ => true
  | _ => false

/-- The pid that `allocproc` hands out in the event, if it calls it. -/
def ProcEvent.newpid {n : Nat} (nextpid : Int) : ProcEvent n → Option Int
  | .fork _ _ => some nextpid
  | _ => none

namespace Sys

variable {n : Nat}

/-- Apply a table function. -/
def withKernel (s : Sys n) (k : Kernel) : Sys n := { s with kernel := k }

/-- The running process `p` of hart `h` calls `sched`; `after` is what the
scheduler does to it when it comes back from `swtch`. -/
def leave (after : UInt32 → Proc → Proc) (s : Sys n) (h : Fin n) (p : Slot)
    (f : Proc → Proc) : Sys n :=
  { kernel := s.kernel.modify p fun q => after s.kernel.ticks (f q)
    cpu := Function.update s.cpu h none }

/-- A process event, or `none` where it cannot happen. -/
def procStep (after : UInt32 → Proc → Proc) (s : Sys n) : ProcEvent n → Option (Sys n)
  | .clockintr h =>
      if h.val = 0 then some (s.withKernel (clockintr (s.cpu h) s.kernel)) else none
  | .wakeup h chan => some (s.withKernel (Xv6.wakeup (s.cpu h) (some chan) s.kernel))
  | .kill h pid => (s.cpu h).map fun _ => s.withKernel (Xv6.kill pid s.kernel).2
  | .fork h ok => (s.cpu h).map fun p => s.withKernel (Xv6.fork p ok s.kernel).2
  | .exit h status =>
      (s.cpu h).bind fun p =>
        -- panic("init exiting")
        if p = initproc then none
        else some ((s.withKernel (Xv6.exit p status s.kernel)).leave after h p id)
  | .wait h ok =>
      (s.cpu h).map fun p =>
        match zombieChild p s.kernel with
        | some i => if ok then s.withKernel (s.kernel.modify i freeproc) else s
        | none =>
            if havekids p s.kernel = true ∧ (s.kernel.proc p).killed = 0 then
              s.leave after h p (sleepProc (some (.proc p)))
            else s
  | .sleep h chan => (s.cpu h).map fun p => s.leave after h p (sleepProc (some chan))
  | .yield h => (s.cpu h).map fun p => s.leave after h p (yieldProc s.kernel.ticks)
  | .setPriority h a b => (s.cpu h).map fun _ => s.withKernel (sysSetPriority a b s.kernel).2

end Sys

/-- Write the fields of a process that others may set without looking at its
state. -/
def Proc.mark (p : Proc) (killed : Int) (parent : Option Slot)
    (staticPriority niceness : UInt32) : Proc :=
  { p with
    killed := killed, parent := parent
    staticPriority := staticPriority, niceness := niceness }

/-- What `wakeup`, `kill`, `reparent` and `_setpriority` can do to a process:
mark it, or wake it up if it sleeps. -/
inductive Touched (now : UInt32) (p : Proc) : Proc → Prop
  | marked (killed : Int) (parent : Option Slot) (staticPriority niceness : UInt32) :
      Touched now p (p.mark killed parent staticPriority niceness)
  | woken (hasleep : p.state = .sleeping) (killed : Int) (parent : Option Slot)
      (staticPriority niceness : UInt32) :
      Touched now p ((wakeProc now p).mark killed parent staticPriority niceness)

namespace Touched

variable {now : UInt32} {p q r : Proc}

theorem refl (now : UInt32) (p : Proc) : Touched now p p :=
  marked p.killed p.parent p.staticPriority p.niceness

/-- Two such changes in a row are one of them: a process is woken once. -/
theorem trans (hpq : Touched now p q) (hqr : Touched now q r) : Touched now p r := by
  cases hpq with
  | marked k a b c =>
      cases hqr with
      | marked k' a' b' c' => exact marked (p := p) k' a' b' c'
      | woken h k' a' b' c' => exact woken (p := p) h k' a' b' c'
  | woken h k a b c =>
      cases hqr with
      | marked k' a' b' c' => exact woken (p := p) h k' a' b' c'
      | woken h' => cases h'

/-- A process that does not sleep is only marked. -/
theorem eq_mark (h : Touched now p q) (hawake : p.state ≠ .sleeping) :
    ∃ killed parent staticPriority niceness,
      q = p.mark killed parent staticPriority niceness := by
  cases h with
  | marked k a b c => exact ⟨k, a, b, c, rfl⟩
  | woken hasleep => exact absurd hasleep hawake

theorem wakeupProc (now : UInt32) (chan : Option Chan) (p : Proc) :
    Touched now p (wakeupProc now chan p) := by
  unfold Xv6.wakeupProc
  split
  case isTrue h => exact woken h.1 p.killed p.parent p.staticPriority p.niceness
  case isFalse => exact refl now p

theorem killProc (now : UInt32) (p : Proc) : Touched now p (killProc now p) := by
  simp only [Xv6.killProc]
  split
  case isTrue h => exact woken h 1 p.parent p.staticPriority p.niceness
  case isFalse => exact marked 1 p.parent p.staticPriority p.niceness

theorem wakeup (who : Option Slot) (chan : Option Chan) (k : Kernel) (i : Slot) :
    Touched k.ticks (k.proc i) ((wakeup who chan k).proc i) := by
  rw [wakeup_proc]
  split
  · exact refl _ _
  · exact wakeupProc _ _ _

theorem reparent (me : Slot) (k : Kernel) (i : Slot) :
    Touched k.ticks (k.proc i) ((reparent me k).proc i) := by
  have hadopt : Touched k.ticks (k.proc i) ((adoptChildren me k).proc i) := by
    simp only [adoptChildren, Kernel.map_proc]
    split
    · exact marked _ (some initproc) _ _
    · exact refl _ _
  simp only [Xv6.reparent]
  split
  · exact hadopt.trans (wakeup _ _ (adoptChildren me k) i)
  · exact hadopt

theorem kill (pid : Int) (k : Kernel) (i : Slot) :
    Touched k.ticks (k.proc i) ((kill pid k).2.proc i) := by
  unfold Xv6.kill
  split
  case h_1 j hfind =>
      by_cases hij : i = j
      · subst hij
        simpa using killProc k.ticks (k.proc i)
      · simpa [hij] using refl k.ticks (k.proc i)
  case h_2 => exact refl _ _

theorem setpriority (pid : Int) (priority : UInt32) (k : Kernel) (i : Slot) :
    Touched k.ticks (k.proc i) ((setpriority pid priority k).2.proc i) := by
  unfold Xv6.setpriority
  split
  case h_1 j hfind =>
      by_cases hij : i = j
      · subst hij
        rw [Kernel.modify_proc_self]
        exact marked (p := k.proc i) (k.proc i).killed (k.proc i).parent priority 5
      · simpa [hij] using refl k.ticks (k.proc i)
  case h_2 => exact refl _ _

end Touched

/-- **What an event can do to a slot that does not leave its hart.**  `now` is
the clock after the event, `tick` says that the event is a clock tick, and
`newpid` is the pid that `allocproc` hands out in it. -/
inductive Effect (now : UInt32) (tick : Prop) (newpid : Option Int) (p : Proc) : Proc → Prop
  | touched {q : Proc} (hstill : tick → p.state ≠ .running) (h : Touched now p q) :
      Effect now tick newpid p q
  /-- Counted by the clock while it runs. -/
  | ticked (htick : tick) (hrun : p.state = .running) :
      Effect now tick newpid p (runningTimeProc p)
  /-- Made by `fork`. -/
  | born (hfree : p.state = .unused) {pid : Int} (hpid : newpid = some pid) (parent : Slot) :
      Effect now tick newpid p (forkFields parent (allocprocFields now pid p))
  /-- Taken by `allocproc` and given back when an allocation fails. -/
  | unborn (hfree : p.state = .unused) {pid : Int} (hpid : newpid = some pid) :
      Effect now tick newpid p (freeproc (allocprocFields now pid p))
  /-- Freed by its parent in `wait`. -/
  | reaped (hzombie : p.state = .zombie) : Effect now tick newpid p (freeproc p)

/-- **What an event does to the process that leaves its hart.** -/
inductive Left (after : UInt32 → Proc → Proc) (now : UInt32) (p : Proc) : Proc → Prop
  | yielded : Left after now p (after now (yieldProc now p))
  | slept (chan : Chan) : Left after now p (after now (sleepProc (some chan) p))
  | exited {q : Proc} (h : Touched now p q) (status : Int) :
      Left after now p (after now (exitProc now status q))

theorem Effect.refl (now : UInt32) {tick : Prop} {newpid : Option Int} (p : Proc)
    (hstill : tick → p.state ≠ .running) : Effect now tick newpid p p :=
  .touched hstill (Touched.refl now p)

/-- The clock counts the running processes and may wake the sleeping ones. -/
theorem Effect.clockintr {tick : Prop} {newpid : Option Int} (htick : tick)
    (who : Option Slot) (k : Kernel) (i : Slot) :
    Effect (k.ticks + 1) tick newpid (k.proc i) ((Xv6.clockintr who k).proc i) := by
  rw [clockintr_proc]
  by_cases hrun : (k.proc i).state = .running
  · rw [wakeupProc_of_ne (by simp [hrun]), ite_self]
    exact .ticked htick hrun
  · rw [runningTimeProc_of_ne hrun]
    split
    · exact .refl _ _ fun _ => hrun
    · exact .touched (fun _ => hrun) (Touched.wakeupProc _ _ _)

/-- `fork` fills one free slot, or gives it back, and touches no other. -/
theorem Effect.fork {tick : Prop} (htick : ¬ tick) (me : Slot) (ok : Bool) (k : Kernel)
    (i : Slot) :
    Effect k.ticks tick (some k.nextpid) (k.proc i) ((Xv6.fork me ok k).2.proc i) := by
  have hsame : ∀ p, Effect k.ticks tick (some k.nextpid) p p :=
    fun p => .refl _ p fun h => absurd h htick
  cases hfind : findSlot fun j => (k.proc j).state = .unused with
  | none => simpa [Xv6.fork, allocproc, hfind] using hsame _
  | some j =>
      have hfree : (k.proc j).state = .unused := by simpa using findSlot_some hfind
      cases ok
      all_goals
        simp only [Xv6.fork, allocproc, hfind, reduceIte, Bool.false_eq_true, Kernel.modify_proc]
        split_ifs with hij
      · exact hij ▸ .unborn hfree rfl
      · exact hsame _
      · exact hij ▸ .born hfree rfl _
      · exact hsame _

/-- `exit` only touches the others. -/
theorem Touched.exit_of_ne {me i : Slot} (status : Int) (k : Kernel) (hi : i ≠ me) :
    Touched k.ticks (k.proc i) ((Xv6.exit me status k).proc i) := by
  simp only [Xv6.exit, Kernel.modify_proc_of_ne hi]
  exact (Touched.reparent me k i).trans (reparent_ticks (k := k) ▸ Touched.wakeup _ _ _ i)

/-- The exiting process becomes a ZOMBIE. -/
theorem exit_self (me : Slot) (status : Int) (k : Kernel) :
    ∃ q, Touched k.ticks (k.proc me) q ∧
      (Xv6.exit me status k).proc me = exitProc k.ticks status q := by
  refine ⟨(reparent me k).proc me, Touched.reparent me k me, ?_⟩
  simp [Xv6.exit]

section Inversion

variable {n : Nat} {after : UInt32 → Proc → Proc} {s t : Sys n} {e : ProcEvent n}

/-- A process that calls `sched` leaves its hart; no other slot changes. -/
theorem leave_left {h : Fin n} {p : Slot} {f : Proc → Proc}
    (hcpu : s.cpu h = some p) (ht : s.leave after h p f = t)
    (hleft : Left after s.kernel.ticks (s.kernel.proc p)
      (after s.kernel.ticks (f (s.kernel.proc p)))) :
    ∃ h p, s.cpu h = some p ∧ t.cpu = Function.update s.cpu h none ∧
      Left after t.kernel.ticks (s.kernel.proc p) (t.kernel.proc p) ∧
      ∀ i, i ≠ p → Touched t.kernel.ticks (s.kernel.proc i) (t.kernel.proc i) := by
  subst ht
  refine ⟨h, p, hcpu, rfl, ?_, ?_⟩
  · simpa [Sys.leave] using hleft
  · intro i hi
    simpa [Sys.leave, hi] using Touched.refl s.kernel.ticks (s.kernel.proc i)

/-- **The step of a process event, inverted.**  The clock moves by one at a
tick and not otherwise; and either no hart changes its process and every slot
sees one `Effect`, or one process leaves its hart and the others are at most
touched. -/
theorem procStep_cases (h : s.procStep after e = some t) :
    t.kernel.ticks = (if e.isTick then s.kernel.ticks + 1 else s.kernel.ticks) ∧
    ((t.cpu = s.cpu ∧
        ∀ i, Effect t.kernel.ticks (e.isTick = true) (e.newpid s.kernel.nextpid)
          (s.kernel.proc i) (t.kernel.proc i)) ∨
      (e.isTick = false ∧ ∃ h p, s.cpu h = some p ∧ t.cpu = Function.update s.cpu h none ∧
        Left after t.kernel.ticks (s.kernel.proc p) (t.kernel.proc p) ∧
        ∀ i, i ≠ p → Touched t.kernel.ticks (s.kernel.proc i) (t.kernel.proc i))) := by
  cases e with
  | clockintr h0 =>
      obtain ⟨-, rfl⟩ : h0.val = 0 ∧ s.withKernel (Xv6.clockintr (s.cpu h0) s.kernel) = t := by
        simpa [Sys.procStep] using h
      exact ⟨rfl, Or.inl ⟨rfl, fun i => Effect.clockintr rfl (s.cpu h0) s.kernel i⟩⟩
  | wakeup h0 chan =>
      obtain rfl : s.withKernel (Xv6.wakeup (s.cpu h0) (some chan) s.kernel) = t := by
        simpa [Sys.procStep] using h
      exact ⟨rfl, Or.inl ⟨rfl, fun i => .touched nofun (Touched.wakeup _ _ s.kernel i)⟩⟩
  | kill h0 pid =>
      obtain ⟨p, hcpu, rfl⟩ := Option.map_eq_some_iff.mp h
      refine ⟨by simp [ProcEvent.isTick, Sys.withKernel], Or.inl ⟨rfl, fun i => .touched nofun ?_⟩⟩
      simpa [Sys.withKernel] using Touched.kill pid s.kernel i
  | fork h0 ok =>
      obtain ⟨p, hcpu, rfl⟩ := Option.map_eq_some_iff.mp h
      refine ⟨by simp [ProcEvent.isTick, Sys.withKernel], Or.inl ⟨rfl, ?_⟩⟩
      intro i
      simpa [Sys.withKernel, ProcEvent.newpid] using
        Effect.fork (by simp [ProcEvent.isTick]) p ok s.kernel i
  | exit h0 status =>
      obtain ⟨p, hcpu, hexit⟩ := Option.bind_eq_some_iff.mp h
      obtain ⟨-, rfl⟩ : p ≠ initproc ∧ _ = t := by simpa using hexit
      refine ⟨by simp [ProcEvent.isTick, Sys.withKernel, Sys.leave],
        Or.inr ⟨rfl, h0, p, hcpu, rfl, ?_, ?_⟩⟩
      · obtain ⟨q, htouched, hself⟩ := exit_self p status s.kernel
        simpa [Sys.leave, Sys.withKernel, hself] using Left.exited htouched status
      · intro i hi
        simpa [Sys.leave, Sys.withKernel, hi] using Touched.exit_of_ne status s.kernel hi
  | wait h0 ok =>
      obtain ⟨p, hcpu, hwait⟩ := Option.map_eq_some_iff.mp h
      cases hchild : zombieChild p s.kernel with
      | some i =>
          have hzombie : (s.kernel.proc i).state = .zombie := by
            have := findSlot_some hchild
            simp_all
          cases ok with
          | false =>
              obtain rfl : s = t := by simpa [hchild] using hwait
              exact ⟨rfl, Or.inl ⟨rfl, fun j => .refl _ _ nofun⟩⟩
          | true =>
              obtain rfl : s.withKernel (s.kernel.modify i freeproc) = t := by
                simpa [hchild] using hwait
              refine ⟨rfl, Or.inl ⟨rfl, ?_⟩⟩
              intro j
              by_cases hj : j = i
              · subst hj
                simpa [Sys.withKernel] using Effect.reaped hzombie
              · simpa [Sys.withKernel, hj] using Effect.refl _ _ nofun
      | none =>
          simp only [hchild] at hwait
          split at hwait
          · exact ⟨by subst hwait; rfl, Or.inr ⟨rfl, leave_left hcpu hwait (.slept _)⟩⟩
          · subst hwait
            exact ⟨rfl, Or.inl ⟨rfl, fun j => .refl _ _ nofun⟩⟩
  | sleep h0 chan =>
      obtain ⟨p, hcpu, rfl⟩ := Option.map_eq_some_iff.mp h
      exact ⟨rfl, Or.inr ⟨rfl, leave_left hcpu rfl (.slept chan)⟩⟩
  | yield h0 =>
      obtain ⟨p, hcpu, rfl⟩ := Option.map_eq_some_iff.mp h
      exact ⟨rfl, Or.inr ⟨rfl, leave_left hcpu rfl .yielded⟩⟩
  | setPriority h0 a b =>
      obtain ⟨p, hcpu, rfl⟩ := Option.map_eq_some_iff.mp h
      refine ⟨by simp [ProcEvent.isTick, Sys.withKernel, sysSetPriority],
        Or.inl ⟨rfl, fun i => .touched nofun ?_⟩⟩
      simpa [Sys.withKernel, sysSetPriority] using Touched.setpriority a _ s.kernel i

/-- `nextpid` moves when `allocproc` finds a slot, and not otherwise. -/
theorem procStep_nextpid (h : s.procStep after e = some t) :
    t.kernel.nextpid =
      if (e.newpid s.kernel.nextpid).isSome ∧ ∃ i, (s.kernel.proc i).state = .unused then
        s.kernel.nextpid + 1 else s.kernel.nextpid := by
  cases e with
  | clockintr h0 =>
      obtain ⟨-, rfl⟩ : h0.val = 0 ∧ s.withKernel (Xv6.clockintr (s.cpu h0) s.kernel) = t := by
        simpa [Sys.procStep] using h
      rfl
  | wakeup h0 chan =>
      obtain rfl : s.withKernel (Xv6.wakeup (s.cpu h0) (some chan) s.kernel) = t := by
        simpa [Sys.procStep] using h
      rfl
  | fork h0 ok =>
      obtain ⟨p, -, rfl⟩ := Option.map_eq_some_iff.mp h
      simp [ProcEvent.newpid, Sys.withKernel, fork_nextpid]
  | wait h0 ok =>
      obtain ⟨p, -, hwait⟩ := Option.map_eq_some_iff.mp h
      subst hwait
      simp only [ProcEvent.newpid, Option.isSome_none, Bool.false_eq_true, false_and, if_false]
      split <;> split <;> rfl
  | exit h0 status =>
      obtain ⟨p, -, hexit⟩ := Option.bind_eq_some_iff.mp h
      obtain ⟨-, rfl⟩ : p ≠ initproc ∧ _ = t := by simpa using hexit
      simp [ProcEvent.newpid, Sys.leave, Sys.withKernel]
  | kill h0 | sleep h0 | yield h0 | setPriority h0 =>
      obtain ⟨p, -, rfl⟩ := Option.map_eq_some_iff.mp h
      simp [ProcEvent.newpid, Sys.leave, Sys.withKernel, sysSetPriority]

/-- With every hart in its scheduler only interrupts happen: the clock and
`wakeup`. -/
theorem procStep_idle (hidle : ∀ h, s.cpu h = none) (h : s.procStep after e = some t) :
    t.cpu = s.cpu ∧ ∀ i, (s.kernel.proc i).state ≠ .running →
      Touched t.kernel.ticks (s.kernel.proc i) (t.kernel.proc i) := by
  cases e with
  | clockintr h0 =>
      obtain ⟨-, rfl⟩ : h0.val = 0 ∧ s.withKernel (Xv6.clockintr (s.cpu h0) s.kernel) = t := by
        simpa [Sys.procStep] using h
      refine ⟨rfl, ?_⟩
      intro i hrun
      simpa [Sys.withKernel, clockintr_proc, hidle, runningTimeProc_of_ne hrun] using
        Touched.wakeupProc _ _ _
  | wakeup h0 chan =>
      obtain rfl : s.withKernel (Xv6.wakeup (s.cpu h0) (some chan) s.kernel) = t := by
        simpa [Sys.procStep] using h
      exact ⟨rfl, fun i _ => Touched.wakeup _ _ s.kernel i⟩
  | kill h0 | fork h0 | exit h0 | wait h0 | sleep h0 | yield h0 | setPriority h0 =>
      simp [Sys.procStep, hidle] at h

/-! ### Running processes and harts -/

/-- An event that does not leave a hart neither starts nor stops a process. -/
theorem Effect.running_iff {now : UInt32} {tick : Prop} {newpid : Option Int} {p q : Proc}
    (h : Effect now tick newpid p q) : q.state = .running ↔ p.state = .running := by
  cases h with
  | touched _ h =>
      cases h with
      | marked => rfl
      | woken hasleep => simp [Proc.mark, wakeProc, hasleep]
  | ticked => simp
  | born hfree => simp [forkFields, hfree]
  | unborn hfree => simp [freeproc, hfree]
  | reaped hzombie => simp [freeproc, hzombie]

/-- A RUNNABLE process that stays where it is, is at most marked. -/
theorem Effect.eq_mark {now : UInt32} {tick : Prop} {newpid : Option Int} {p q : Proc}
    (h : Effect now tick newpid p q) (hrun : p.state = .runnable) :
    ∃ killed parent staticPriority niceness,
      q = p.mark killed parent staticPriority niceness := by
  cases h with
  | touched _ h => exact h.eq_mark (by simp [hrun])
  | ticked _ hrunning => simp [hrun] at hrunning
  | born hfree => simp [hrun] at hfree
  | unborn hfree => simp [hrun] at hfree
  | reaped hzombie => simp [hrun] at hzombie

theorem Touched.running_iff {now : UInt32} {p q : Proc} (h : Touched now p q) :
    q.state = .running ↔ p.state = .running :=
  (show Effect now False none p q from .touched nofun h).running_iff

/-- A process that has left its hart is not RUNNING. -/
theorem Left.not_running {now : UInt32} {p q : Proc}
    (hafter : ∀ now p, (after now p).state = p.state) (h : Left after now p q) :
    q.state ≠ .running := by
  cases h with
  | yielded => simp [hafter, yieldProc]
  | slept => simp [hafter, sleepProc]
  | exited => simp [hafter, exitProc]

/-- **Every RUNNING process has one hart**, and what a hart runs is RUNNING. -/
structure Hosted (s : Sys n) : Prop where
  running : ∀ h p, s.cpu h = some p → (s.kernel.proc p).state = .running
  hart : ∀ p, (s.kernel.proc p).state = .running → ∃ h, s.cpu h = some p
  unique : ∀ h h' p, s.cpu h = some p → s.cpu h' = some p → h = h'

namespace Hosted

/-- What changes neither `c->proc` nor who is RUNNING keeps it. -/
theorem of_same (hs : Hosted s) (hcpu : t.cpu = s.cpu)
    (hrun : ∀ i, (t.kernel.proc i).state = .running ↔ (s.kernel.proc i).state = .running) :
    Hosted t where
  running h p hp := (hrun p).mpr (hs.running h p (hcpu ▸ hp))
  hart p hp := by
    obtain ⟨h, hh⟩ := hs.hart p ((hrun p).mp hp)
    exact ⟨h, hcpu ▸ hh⟩
  unique h h' p hp hp' := hs.unique h h' p (hcpu ▸ hp) (hcpu ▸ hp')

/-- A process that stops running and leaves its hart keeps it. -/
theorem of_leave (hs : Hosted s) {h : Fin n} {p : Slot} (hp : s.cpu h = some p)
    (hcpu : t.cpu = Function.update s.cpu h none)
    (hself : (t.kernel.proc p).state ≠ .running)
    (hothers : ∀ i, i ≠ p →
      ((t.kernel.proc i).state = .running ↔ (s.kernel.proc i).state = .running)) :
    Hosted t where
  running h' i hi := by
    rw [hcpu] at hi
    have hne : h' ≠ h := by
      intro heq
      subst heq
      simp at hi
    rw [Function.update_of_ne hne] at hi
    have hip : i ≠ p := by
      intro heq
      subst heq
      exact hne (hs.unique _ _ _ hi hp)
    exact (hothers i hip).mpr (hs.running h' i hi)
  hart i hi := by
    have hip : i ≠ p := by
      intro heq
      subst heq
      exact hself hi
    obtain ⟨h', hh'⟩ := hs.hart i ((hothers i hip).mp hi)
    have hne : h' ≠ h := by
      intro heq
      subst heq
      exact hip (Option.some.inj (hh'.symm.trans hp))
    exact ⟨h', by rw [hcpu, Function.update_of_ne hne, hh']⟩
  unique h₁ h₂ i h₁i h₂i := by
    rw [hcpu] at h₁i h₂i
    have hne₁ : h₁ ≠ h := by
      intro heq
      subst heq
      simp at h₁i
    have hne₂ : h₂ ≠ h := by
      intro heq
      subst heq
      simp at h₂i
    rw [Function.update_of_ne hne₁] at h₁i
    rw [Function.update_of_ne hne₂] at h₂i
    exact hs.unique _ _ _ h₁i h₂i

/-- A free hart that takes a process which is not RUNNING and makes it so
keeps it. -/
theorem of_dispatch (hs : Hosted s) {h : Fin n} {p : Slot} (hfree : s.cpu h = none)
    (hp : (s.kernel.proc p).state ≠ .running)
    (hcpu : t.cpu = Function.update s.cpu h (some p))
    (hself : (t.kernel.proc p).state = .running)
    (hothers : ∀ i, i ≠ p →
      ((t.kernel.proc i).state = .running ↔ (s.kernel.proc i).state = .running)) :
    Hosted t where
  running h' i hi := by
    by_cases hip : i = p
    · exact hip ▸ hself
    · have hne : h' ≠ h := by
        intro heq
        subst heq
        rw [hcpu, Function.update_self, Option.some.injEq] at hi
        exact hip hi.symm
      rw [hcpu, Function.update_of_ne hne] at hi
      exact (hothers i hip).mpr (hs.running h' i hi)
  hart i hi := by
    by_cases hip : i = p
    · exact ⟨h, by rw [hcpu, Function.update_self, hip]⟩
    · obtain ⟨h', hh'⟩ := hs.hart i ((hothers i hip).mp hi)
      have hne : h' ≠ h := by
        intro heq
        subst heq
        simp [hfree] at hh'
      exact ⟨h', by rw [hcpu, Function.update_of_ne hne, hh']⟩
  unique h₁ h₂ i h₁i h₂i := by
    have hosts : ∀ h', t.cpu h' = some i → h' = h ∧ i = p ∨ h' ≠ h ∧ s.cpu h' = some i := by
      intro h' hh'
      by_cases hne : h' = h
      · subst hne
        rw [hcpu, Function.update_self, Option.some.injEq] at hh'
        exact Or.inl ⟨rfl, hh'.symm⟩
      · rw [hcpu, Function.update_of_ne hne] at hh'
        exact Or.inr ⟨hne, hh'⟩
    rcases hosts h₁ h₁i with ⟨rfl, rfl⟩ | ⟨-, hs₁⟩ <;>
      rcases hosts h₂ h₂i with ⟨rfl, hi⟩ | ⟨-, hs₂⟩
    · rfl
    · exact absurd (hs.running _ _ hs₂) hp
    · exact absurd (hs.running _ _ (hi ▸ hs₁)) hp
    · exact hs.unique _ _ _ hs₁ hs₂

/-- A process event keeps it. -/
theorem procStep (hafter : ∀ now p, (after now p).state = p.state) (hs : Hosted s)
    (h : s.procStep after e = some t) : Hosted t := by
  rcases (procStep_cases h).2 with ⟨hcpu, heff⟩ | ⟨-, h', p, hp, hcpu, hleft, hothers⟩
  · exact hs.of_same hcpu fun i => (heff i).running_iff
  · exact hs.of_leave hp hcpu (hleft.not_running hafter) fun i hi => (hothers i hi).running_iff

end Hosted

end Inversion

end Xv6
