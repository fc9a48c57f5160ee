import OSN.Kernel.Harts
import OSN.Lib.Run

/-!
# Who is marked as killed

`freeproc` clears `killed`, and `allocproc` counts on that: it writes every
field of the slot it takes but this one.  `kill` finds its victim by the pid
alone, and a slot that is UNUSED has pid 0, so `kill(0)` marks the first such
slot, and the process that is made in it next is born killed.  Nothing else
marks an UNUSED slot: the invariant is that the live processes are those with
a positive pid.

The machine here leaves open which RUNNABLE process a hart runs next, so that
what holds in it holds for every scheduler: none of them reads or writes a
pid or `killed`.
-/

namespace Xv6

variable {n : Nat}

/-- A process event, or the scheduler of hart `h` runs process `p`. -/
inductive TableEvent (n : Nat) where
  | proc (e : ProcEvent n)
  | dispatch (h : Fin n) (p : Slot)
  deriving DecidableEq

namespace Sys

/-- The processes of a state. -/
abbrev proc (s : Sys n) (p : Slot) : Proc := s.kernel.proc p

/-- Some scheduler gives hart `h` to process `p`, which sets `p->chan = 0` if
it comes out of `sleep`. -/
def dispatch (s : Sys n) (h : Fin n) (p : Slot) : Option (Sys n) :=
  if s.cpu h = none ∧ (s.proc p).state = .runnable then
    some
      { kernel := s.kernel.modify p fun q => { q with state := .running, chan := none }
        cpu := Function.update s.cpu h (some p) }
  else none

/-- A step of the kernel, as far as the process table goes. -/
def tableStep (s : Sys n) : TableEvent n → Option (Sys n)
  | .proc e => s.procStep (fun _ p => p) e
  | .dispatch h p => s.dispatch h p

end Sys

/-- The process table of the kernel on `n` harts, after `userinit`. -/
def table (n : Nat) : Machine (Sys n) (TableEvent n) where
  init s := s = { kernel := userinit, cpu := fun _ => none }
  step := Sys.tableStep

/-! ### What a step does to pid and `killed` -/

/-- As far as `kill` can tell, nothing has happened to the process. -/
structure Unaltered (p q : Proc) : Prop where
  pid : q.pid = p.pid
  killed : q.killed = p.killed
  unused : q.state = .unused ↔ p.state = .unused

namespace Unaltered

variable {p q r : Proc}

theorem refl (p : Proc) : Unaltered p p := ⟨rfl, rfl, Iff.rfl⟩

theorem trans (hpq : Unaltered p q) (hqr : Unaltered q r) : Unaltered p r :=
  ⟨hqr.pid.trans hpq.pid, hqr.killed.trans hpq.killed, hqr.unused.trans hpq.unused⟩

theorem runningTimeProc (p : Proc) : Unaltered p (runningTimeProc p) := by
  refine ⟨?_, ?_, by rw [runningTimeProc_state]⟩ <;> unfold Xv6.runningTimeProc <;> split <;> rfl

theorem wakeupProc (now : UInt32) (chan : Option Chan) (p : Proc) :
    Unaltered p (wakeupProc now chan p) := by
  unfold Xv6.wakeupProc
  split
  case isTrue h => exact ⟨rfl, rfl, by simp [wakeProc, h.1]⟩
  case isFalse => exact refl p

theorem wakeup (who : Option Slot) (chan : Option Chan) (k : Kernel) (i : Slot) :
    Unaltered (k.proc i) ((Xv6.wakeup who chan k).proc i) := by
  rw [wakeup_proc]
  split
  · exact refl _
  · exact wakeupProc _ _ _

theorem clockintr (who : Option Slot) (k : Kernel) (i : Slot) :
    Unaltered (k.proc i) ((Xv6.clockintr who k).proc i) := by
  rw [clockintr_proc]
  split
  · exact runningTimeProc _
  · exact (runningTimeProc _).trans (wakeupProc _ _ _)

theorem reparent (me : Slot) (k : Kernel) (i : Slot) :
    Unaltered (k.proc i) ((Xv6.reparent me k).proc i) := by
  have hadopt : Unaltered (k.proc i) ((adoptChildren me k).proc i) := by
    simp only [adoptChildren, Kernel.map_proc]
    split
    · exact ⟨rfl, rfl, Iff.rfl⟩
    · exact refl _
  simp only [Xv6.reparent]
  split
  · exact hadopt.trans (wakeup _ _ (adoptChildren me k) i)
  · exact hadopt

/-- The exiting process stays live. -/
theorem exit (me : Slot) (status : Int) (k : Kernel) (i : Slot)
    (hme : (k.proc me).state ≠ .unused) : Unaltered (k.proc i) ((Xv6.exit me status k).proc i) := by
  have hwoken : Unaltered (k.proc i) ((Xv6.wakeup (some me)
      (((Xv6.reparent me k).proc me).parent.map .proc) (Xv6.reparent me k)).proc i) :=
    (reparent me k i).trans (wakeup _ _ _ i)
  by_cases hi : i = me
  · subst hi
    refine hwoken.trans ⟨by simp [Xv6.exit, exitProc], by simp [Xv6.exit, exitProc], ?_⟩
    have hlive := hwoken.unused.not.mpr hme
    simpa [Xv6.exit, exitProc] using hlive
  · simpa [Xv6.exit, hi] using hwoken

theorem setpriority (pid : Int) (priority : UInt32) (k : Kernel) (i : Slot) :
    Unaltered (k.proc i) ((Xv6.setpriority pid priority k).2.proc i) := by
  unfold Xv6.setpriority
  split
  case h_1 j _ =>
      by_cases hij : i = j
      · subst hij
        rw [Kernel.modify_proc_self]
        exact ⟨rfl, rfl, Iff.rfl⟩
      · simpa [hij] using refl (k.proc i)
  case h_2 => exact refl _

/-- Other states of a live process. -/
theorem of_state (hp : p.state ≠ .unused) (hpid : q.pid = p.pid) (hkilled : q.killed = p.killed)
    (hq : q.state ≠ .unused) : Unaltered p q :=
  ⟨hpid, hkilled, by simp [hp, hq]⟩

end Unaltered

/-- **What one event does to a slot**, as far as pid and `killed` go. -/
inductive Fate (e : ProcEvent n) (nextpid : Int) (p : Proc) : Proc → Prop
  | unaltered {q : Proc} (h : Unaltered p q) : Fate e nextpid p q
  | killed {h : Fin n} {q : Proc} (he : e = .kill h p.pid) (hpid : q.pid = p.pid)
      (hkilled : q.killed = 1) (hunused : q.state = .unused ↔ p.state = .unused) :
      Fate e nextpid p q
  /-- Made by `fork`, which does not write `killed`. -/
  | born {q : Proc} (hfree : p.state = .unused) (hpid : q.pid = nextpid)
      (hkilled : q.killed = p.killed) (hlive : q.live) : Fate e nextpid p q
  /-- Given back by `fork`, or freed in `wait`. -/
  | freed {q : Proc} (hpid : q.pid = 0) (hkilled : q.killed = 0) (hunused : q.state = .unused) :
      Fate e nextpid p q

/-- `fork` fills one free slot, or gives it back, and touches no other. -/
theorem Fate.fork {e : ProcEvent n} (me : Slot) (ok : Bool) (k : Kernel) (i : Slot) :
    Fate e k.nextpid (k.proc i) ((Xv6.fork me ok k).2.proc i) := by
  cases hfind : findSlot fun j => (k.proc j).state = .unused with
  | none => simpa [Xv6.fork, allocproc, hfind] using Fate.unaltered (.refl _)
  | some j =>
      have hfree : (k.proc j).state = .unused := by simpa using findSlot_some hfind
      cases ok
      all_goals
        simp only [Xv6.fork, allocproc, hfind, reduceIte, Bool.false_eq_true, Kernel.modify_proc]
        split_ifs with hij
      · exact .freed rfl rfl rfl
      · exact .unaltered (.refl _)
      · exact hij ▸ .born hfree rfl rfl (by simp [Proc.live, forkFields])
      · exact .unaltered (.refl _)

/-- `kill` marks one slot at most. -/
theorem Fate.kill (h : Fin n) (pid : Int) (nextpid : Int) (k : Kernel) (i : Slot) :
    Fate (.kill h pid) nextpid (k.proc i) ((Xv6.kill pid k).2.proc i) := by
  unfold Xv6.kill
  split
  case h_1 j hfind =>
      by_cases hij : i = j
      · subst hij
        obtain rfl : (k.proc i).pid = pid := by simpa using findSlot_some hfind
        rw [Kernel.modify_proc_self]
        by_cases hsleep : (k.proc i).state = .sleeping
        · exact .killed (h := h) rfl (by simp [killProc, hsleep, wakeProc])
            (by simp [killProc, hsleep, wakeProc]) (by simp [killProc, hsleep, wakeProc])
        · exact .killed (h := h) rfl (by simp [killProc, hsleep]) (by simp [killProc, hsleep])
            (by simp [killProc, hsleep])
      · simpa [hij] using Fate.unaltered (.refl (k.proc i))
  case h_2 => exact .unaltered (.refl _)

/-- A running process that leaves its hart stays live. -/
theorem Fate.leave {e : ProcEvent n} {s : Sys n} {h : Fin n} {p : Slot} {f : Proc → Proc}
    {nextpid : Int} (hp : (s.proc p).state ≠ .unused) (hf : Unaltered (s.proc p) (f (s.proc p)))
    (i : Slot) : Fate e nextpid (s.proc i) ((s.leave (fun _ q => q) h p f).proc i) := by
  by_cases hi : i = p
  · subst hi
    simpa [Sys.proc, Sys.leave] using Fate.unaltered hf
  · simpa [Sys.proc, Sys.leave, hi] using Fate.unaltered (.refl (s.proc i))

/-- **Every process event, slot by slot.** -/
theorem procStep_fate {s t : Sys n} {e : ProcEvent n} (hosted : Hosted s)
    (h : s.procStep (fun _ q => q) e = some t) (i : Slot) :
    Fate e s.kernel.nextpid (s.proc i) (t.proc i) := by
  have hrunning : ∀ {h0 p}, s.cpu h0 = some p → (s.proc p).state ≠ .unused := by
    intro h0 p hp
    simp [Sys.proc, hosted.running h0 p hp]
  cases e with
  | clockintr h0 =>
      obtain ⟨-, rfl⟩ : h0.val = 0 ∧ s.withKernel (Xv6.clockintr (s.cpu h0) s.kernel) = t := by
        simpa [Sys.procStep] using h
      exact .unaltered (.clockintr _ _ i)
  | wakeup h0 chan =>
      obtain rfl : s.withKernel (Xv6.wakeup (s.cpu h0) (some chan) s.kernel) = t := by
        simpa [Sys.procStep] using h
      exact .unaltered (.wakeup _ _ _ i)
  | kill h0 pid =>
      obtain ⟨p, -, rfl⟩ := Option.map_eq_some_iff.mp h
      exact .kill h0 pid _ _ i
  | fork h0 ok =>
      obtain ⟨p, -, rfl⟩ := Option.map_eq_some_iff.mp h
      exact .fork p ok _ i
  | exit h0 status =>
      obtain ⟨p, hp, hexit⟩ := Option.bind_eq_some_iff.mp h
      obtain ⟨-, rfl⟩ : p ≠ initproc ∧ _ = t := by simpa using hexit
      have hsame := Unaltered.exit p status s.kernel i (hrunning hp)
      by_cases hi : i = p
      · subst hi
        simpa [Sys.proc, Sys.leave, Sys.withKernel] using Fate.unaltered hsame
      · simpa [Sys.proc, Sys.leave, Sys.withKernel, hi] using Fate.unaltered hsame
  | wait h0 ok =>
      obtain ⟨p, hp, hwait⟩ := Option.map_eq_some_iff.mp h
      cases hchild : zombieChild p s.kernel with
      | some j =>
          cases ok with
          | false =>
              obtain rfl : s = t := by simpa [hchild] using hwait
              exact .unaltered (.refl _)
          | true =>
              obtain rfl : s.withKernel (s.kernel.modify j freeproc) = t := by
                simpa [hchild] using hwait
              by_cases hi : i = j
              · subst hi
                rw [show (s.withKernel (s.kernel.modify i freeproc)).proc i = freeproc (s.proc i) by
                  simp [Sys.proc, Sys.withKernel]]
                exact .freed rfl rfl rfl
              · simpa [Sys.proc, Sys.withKernel, hi] using Fate.unaltered (.refl (s.proc i))
      | none =>
          simp only [hchild] at hwait
          split at hwait
          · subst hwait
            exact .leave (hrunning hp) (.of_state (hrunning hp) rfl rfl (by simp [sleepProc])) i
          · subst hwait
            exact .unaltered (.refl _)
  | sleep h0 chan =>
      obtain ⟨p, hp, rfl⟩ := Option.map_eq_some_iff.mp h
      exact .leave (hrunning hp) (.of_state (hrunning hp) rfl rfl (by simp [sleepProc])) i
  | yield h0 =>
      obtain ⟨p, hp, rfl⟩ := Option.map_eq_some_iff.mp h
      exact .leave (hrunning hp) (.of_state (hrunning hp) rfl rfl (by simp [yieldProc])) i
  | setPriority h0 a b =>
      obtain ⟨p, -, rfl⟩ := Option.map_eq_some_iff.mp h
      exact .unaltered (.setpriority _ _ _ i)

/-! ### Pids and runs -/

/-- The live processes are those with a positive pid. -/
structure PidInv (s : Sys n) : Prop where
  hosted : Hosted s
  next : 0 < s.kernel.nextpid
  unused : ∀ p, (s.proc p).state = .unused → (s.proc p).pid = 0
  live : ∀ p, (s.proc p).live → 0 < (s.proc p).pid

variable {s t : Sys n} {e : TableEvent n} {past : Past (Sys n) (TableEvent n)}

/-- What a dispatch does, slot by slot. -/
theorem Sys.dispatch_eq_some {h : Fin n} {p : Slot} (hstep : s.dispatch h p = some t) :
    (s.cpu h = none ∧ (s.proc p).state = .runnable) ∧
      t.cpu = Function.update s.cpu h (some p) ∧ t.kernel.nextpid = s.kernel.nextpid ∧
      (t.proc p).state = .running ∧
        ∀ i, Unaltered (s.proc i) (t.proc i) ∧ (i ≠ p → t.proc i = s.proc i) := by
  unfold Sys.dispatch at hstep
  split at hstep
  case isTrue hready =>
      obtain rfl := Option.some.inj hstep
      refine ⟨hready, rfl, rfl, by simp [Sys.proc], ?_⟩
      intro i
      by_cases hi : i = p
      · subst hi
        exact ⟨⟨by simp [Sys.proc], by simp [Sys.proc], by simp [Sys.proc, hready.2]⟩,
          fun hne => absurd rfl hne⟩
      · exact ⟨by simpa [Sys.proc, hi] using Unaltered.refl (s.proc i), fun _ => by simp [Sys.proc, hi]⟩
  case isFalse => simp at hstep

/-- An invariant about pids that one event keeps. -/
theorem PidInv.of_fate {e : ProcEvent n} (hs : PidInv s) (hosted : Hosted t)
    (hnext : s.kernel.nextpid ≤ t.kernel.nextpid)
    (hfate : ∀ i, Fate e s.kernel.nextpid (s.proc i) (t.proc i)) : PidInv t := by
  refine ⟨hosted, Int.lt_of_lt_of_le hs.next hnext, ?_, ?_⟩
  · intro p hp
    cases hfate p with
    | unaltered h => exact h.pid.trans (hs.unused p (h.unused.mp hp))
    | killed _ hpid _ hunused => exact hpid.trans (hs.unused p (hunused.mp hp))
    | born _ _ _ hlive => exact absurd hp hlive
    | freed hpid => exact hpid
  · intro p hp
    cases hfate p with
    | unaltered h =>
        rw [h.pid]
        exact hs.live p (h.unused.not.mp hp)
    | killed _ hpid _ hunused =>
        rw [hpid]
        exact hs.live p (hunused.not.mp hp)
    | born _ hpid => exact hpid ▸ hs.next
    | freed _ _ hunused => exact absurd hunused hp

theorem PidInv.step (hs : PidInv s) (h : s.tableStep e = some t) : PidInv t := by
  cases e with
  | proc e =>
      refine hs.of_fate (hs.hosted.procStep (fun _ _ => rfl) h) ?_ (procStep_fate hs.hosted h)
      rw [procStep_nextpid h]
      split <;> omega
  | dispatch h0 p =>
      obtain ⟨⟨hfree, hrun⟩, hcpu, hnext, hrunning, hsame⟩ := Sys.dispatch_eq_some h
      refine ⟨hs.hosted.of_dispatch hfree (by simp [hrun]) hcpu hrunning fun i hi => ?_, hnext ▸ hs.next,
        ?_, ?_⟩
      · rw [show t.kernel.proc i = s.kernel.proc i from (hsame i).2 hi]
      · intro i hi
        exact (hsame i).1.pid.trans (hs.unused i ((hsame i).1.unused.mp hi))
      · intro i hi
        rw [(hsame i).1.pid]
        exact hs.live i ((hsame i).1.unused.not.mp hi)

theorem pidInv (run : Run (table n) past s) : PidInv s := by
  refine run.invariant (P := fun _ s => PidInv s) (fun s hinit => ?_)
    fun _ _ _ _ _ hs hstep => hs.step hstep
  obtain rfl : s = { kernel := userinit, cpu := fun _ => none } := hinit
  have hproc : ∀ p, (({ kernel := userinit, cpu := fun _ => none } : Sys n).proc p) = _ := userinit_proc
  have hnext : 0 < userinit.nextpid := by decide
  refine ⟨⟨nofun, ?_, nofun⟩, hnext, ?_, ?_⟩
  · intro p hp
    rw [show userinit.proc p = _ from hproc p] at hp
    split at hp <;> simp at hp
  · intro p hp
    rw [hproc] at hp ⊢
    split at hp
    · simp at hp
    · rw [if_neg (by assumption)]
  · intro p hp
    rw [Proc.live, hproc] at hp
    rw [hproc]
    split at hp
    · rw [if_pos (by assumption)]
      decide
    · simp at hp

/-! ### Nobody is born killed -/

/-- No UNUSED slot is marked as killed. -/
def UnusedClear (s : Sys n) : Prop := ∀ p, (s.proc p).state = .unused → (s.proc p).killed = 0

instance (s : Sys n) : Decidable (UnusedClear s) := by
  unfold UnusedClear
  infer_instance

/-- A step between two states in which a process that is made starts unmarked,
and `kill` marks none but live processes. -/
structure Unmarked (s : Sys n) (e : TableEvent n) (t : Sys n) : Prop where
  born : ∀ p, (s.proc p).state = .unused → (t.proc p).live → (t.proc p).killed = 0
  kill : ∀ h pid, e = .proc (.kill h pid) → ∀ p, (t.proc p).killed ≠ (s.proc p).killed →
    (s.proc p).live

/-- **No process is born killed** in a run: all its states and steps are as
they should be. -/
def NeverBornKilled (past : Past (Sys n) (TableEvent n)) (s : Sys n) : Prop :=
  Machine.StepsMeet (fun _ u e => UnusedClear u ∧ ∀ t, u.tableStep e = some t → Unmarked u e t)
    past ∧ UnusedClear s

/-- `kill(0)` is not called while the table has an UNUSED slot. -/
def NoKillZero (_ : Past (Sys n) (TableEvent n)) (s : Sys n) (e : TableEvent n) : Prop :=
  ∀ h, e = .proc (.kill h 0) → ∀ p, (s.proc p).live

instance (past : Past (Sys n) (TableEvent n)) (s : Sys n) (e : TableEvent n) :
    Decidable (NoKillZero past s e) := by
  unfold NoKillZero Proc.live
  infer_instance

/-- With no `kill(0)` that finds an UNUSED slot, those slots stay clear. -/
theorem UnusedClear.step (hs : PidInv s) (hclear : UnusedClear s) (hkill : NoKillZero past s e)
    (h : s.tableStep e = some t) : UnusedClear t := by
  intro p hp
  cases e with
  | proc e =>
      cases procStep_fate hs.hosted h p with
      | unaltered h => exact h.killed.trans (hclear p (h.unused.mp hp))
      | killed he _ _ hunused =>
          -- the victim is UNUSED, so it was `kill(0)`
          have hfree := hunused.mp hp
          rw [hs.unused p hfree] at he
          exact absurd hfree (hkill _ (congrArg _ he) p)
      | born _ _ _ hlive => exact absurd hp hlive
      | freed _ hkilled => exact hkilled
  | dispatch h0 q =>
      have hsame := ((Sys.dispatch_eq_some h).2.2.2.2 p).1
      exact hsame.killed.trans (hclear p (hsame.unused.mp hp))

/-- A step from a clear state makes unmarked processes only. -/
theorem Unmarked.of_clear (hs : PidInv s) (hclear : UnusedClear s) (hkill : NoKillZero past s e)
    (h : s.tableStep e = some t) : Unmarked s e t := by
  constructor
  · intro p hfree hlive
    cases e with
    | proc e =>
        cases procStep_fate hs.hosted h p with
        | unaltered h => exact absurd (h.unused.mpr hfree) hlive
        | killed _ _ _ hunused => exact absurd (hunused.mpr hfree) hlive
        | born _ _ hkilled => exact hkilled.trans (hclear p hfree)
        | freed _ hkilled => exact hkilled
    | dispatch h0 q =>
        have hsame := ((Sys.dispatch_eq_some h).2.2.2.2 p).1
        exact absurd (hsame.unused.mpr hfree) hlive
  · intro h0 pid he p hmarked
    subst he
    intro hfree
    have hpid := hs.unused p hfree
    have hstep : s.procStep (fun _ q => q) (.kill h0 pid) = some t := h
    cases procStep_fate hs.hosted hstep p with
    | unaltered h => exact hmarked h.killed
    | killed he =>
        obtain ⟨-, rfl⟩ := ProcEvent.kill.inj he
        exact hkill h0 (by rw [hpid]) p hfree
    | born _ _ hkilled => exact hmarked hkilled
    | freed _ hkilled => exact hmarked (hkilled.trans (hclear p hfree).symm)

/-- `kill(0)` marks an UNUSED slot if there is one. -/
theorem not_unusedClear_of_kill {h0 : Fin n} {p : Slot} (hs : PidInv s)
    (hfree : (s.proc p).state = .unused) (h : s.tableStep (.proc (.kill h0 0)) = some t) :
    ¬ UnusedClear t := by
  intro hclear
  obtain ⟨q, -, rfl⟩ := Option.map_eq_some_iff.mp h
  have hpid : (s.proc p).pid = 0 := hs.unused p hfree
  cases hfind : findSlot fun i => (s.kernel.proc i).pid = 0 with
  | none =>
      have hnot := findSlot_none hfind p
      simp [hpid] at hnot
  | some i =>
      have hpid : (s.proc i).pid = 0 := by simpa using findSlot_some hfind
      have hunused : (s.proc i).state = .unused := by
        by_contra hlive
        exact absurd hpid (Int.ne_of_gt (hs.live i hlive))
      have hmarked : (s.withKernel (Xv6.kill 0 s.kernel).2).proc i = { s.proc i with killed := 1 } := by
        simp [Sys.proc, Sys.withKernel, Xv6.kill, hfind, killProc, hunused]
      have hzero := hclear i (by rw [hmarked, hunused])
      rw [hmarked] at hzero
      exact absurd hzero Int.one_ne_zero

theorem unusedClear_of_noKillZero (run : Run (table n) past s)
    (hmeet : Machine.StepsMeet NoKillZero past) : UnusedClear s := by
  refine run.invariant_of_meet (P := fun _ s => UnusedClear s) (fun s hinit => ?_)
    (fun _ _ _ _ run hkill hclear hstep => hclear.step (pidInv run) hkill hstep) hmeet
  obtain rfl : s = { kernel := userinit, cpu := fun _ => none } := hinit
  intro p _
  rw [show Sys.proc _ p = _ from userinit_proc p]
  split <;> rfl

/-- **When nobody is born killed.**  In a run of any number of harts, whatever
forks, exits, waits and kills there are: all UNUSED slots are clear in every
state, every process that is made starts unmarked, and `kill` marks none but
live processes, if and only if `kill(0)` is never called while the table has an
UNUSED slot. -/
theorem neverBornKilled_iff (run : Run (table n) past s) :
    NeverBornKilled past s ↔ Machine.StepsMeet NoKillZero past := by
  constructor
  · intro hnever
    obtain ⟨hsteps, hclear⟩ := hnever
    induction run with
    | init => trivial
    | @step past s t e run h ih =>
        refine ⟨?_, ih hsteps.2 hsteps.1.1⟩
        intro h0 he p hfree
        subst he
        exact not_unusedClear_of_kill (pidInv run) hfree h hclear
  · intro hmeet
    refine ⟨?_, unusedClear_of_noKillZero run hmeet⟩
    induction run with
    | init => trivial
    | step run h ih =>
        have hclear := unusedClear_of_noKillZero run hmeet.2
        exact ⟨⟨hclear, fun t ht => .of_clear (pidInv run) hclear hmeet.1 ht⟩, ih hmeet.2⟩

/-- The theorem at a run in which init forks a child and kills it. -/
theorem neverBornKilled_iff_child : ∃ past s, Run (table 1) past s ∧
    TableEvent.proc (.kill 0 2) ∈ past.map Prod.snd ∧ NeverBornKilled past s := by
  obtain ⟨past, s, run, hkill, hmeet⟩ := Machine.exists_run_of_trace (M := table 1) rfl
    [.dispatch 0 initproc, .proc (.fork 0 true), .proc (.kill 0 2)]
    (fun past _ => TableEvent.proc (.kill 0 2) ∈ past.map Prod.snd ∧
      Machine.StepsMeet NoKillZero past) (by decide)
  exact ⟨past, s, run, hkill, (neverBornKilled_iff run).mpr hmeet⟩

/-- init calls `kill(0)`, which succeeds, and forks. -/
def killZero : List (TableEvent 1) :=
  [.dispatch 0 initproc, .proc (.kill 0 0), .proc (.fork 0 true)]

/-- A process is born killed: the child in slot 1 starts with `killed == 1`. -/
theorem bornKilled : ¬ ∀ (n : Nat) past s, Run (table n) past s → NeverBornKilled past s := by
  intro h
  obtain ⟨past, s, run, ⟨-, -⟩, hnot⟩ := Machine.exists_run_of_trace (M := table 1) rfl killZero
    (fun past s => ((s.proc 1).state = .runnable ∧ (s.proc 1).killed = 1) ∧
      ¬ Machine.StepsMeet (fun _ u _ => UnusedClear u) past) (by decide)
  exact hnot ((h 1 past s run).1.mono fun _ _ _ hstep => hstep.1)

end Xv6
