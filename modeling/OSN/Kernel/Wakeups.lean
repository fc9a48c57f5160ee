import OSN.Kernel.LockProtocol

/-!
# Wakeups and kills

What the discipline of the locks means for those who sleep.  While the lock of
a kernel object is free, nobody sleeps on a condition of it that is true
(`no_lost_wakeup`).

`kill` sets `killed` under `p->lock`, but the loops of `wait`, `sys_sleep`,
`pipewrite`, `piperead` and `consoleread` test it under another lock and take
`p->lock` only afterwards, in `sleep`.  A kill that comes between the two is
lost (`kill_lost`); where none does, nobody sleeps in such a loop who has been
killed (`kill_not_lost`).
-/

namespace Xv6

open Threads Threads.Discipline

variable {n : Nat} {policy : Policy} {c c' : KernelConfig n} {p : Slot} {h : Fin n} {a i : Nat}
  {chan : Chan} {past : Past (KernelConfig n) (Event (Fin n) Input Code.Interrupt)}
  {e : Event (Fin n) Input Code.Interrupt}

/-- **No lost wakeup.**  A process tests its condition and sleeps on it, and who
makes it true wakes up the sleepers, all with the lock of the object held.
Whatever the scheduler, the number of harts and the interleaving: while the
lock is free and the condition is true, nobody sleeps on it. -/
theorem no_lost_wakeup (hc : (kernelThreads policy n).Reachable c) (hfree : c.Free (.condition a))
    (htrue : c.shared.condition a i = true) :
    ∀ p, ¬ ((c.shared.proc p).state = .sleeping ∧
      (c.shared.proc p).chan = some (.condition a i)) := by
  obtain ⟨who, kept⟩ := kernel_kept hc
  have hsettled : Settled (.condition a) c.shared := kept.free (.condition a) hfree
  intro p hasleep
  exact hsettled (.condition a i) p rfl htrue (Or.inr hasleep)

/-- The first process sleeps on a condition, and the interrupt of the device
that makes it true comes to hart 1. -/
def deviceDone : List (Event (Fin 2) Input Code.Interrupt) :=
  List.replicate 28 (.run 0 { trap := .condition 0, condition := .sleep 0 }) ++
    .interrupt 1 (.device 0 0) :: List.replicate 323 (.run 1 {})

set_option maxRecDepth 20000 in
theorem no_lost_wakeup_device : ∃ c : KernelConfig 2,
    (c.shared.proc initproc).chan = some (.condition 0 0) ∧
      ∀ p, ¬ ((c.shared.proc p).state = .sleeping ∧
        (c.shared.proc p).chan = some (.condition 0 0)) := by
  obtain ⟨past, c, run, hfree, htrue, hchan⟩ := Machine.exists_run_of_trace
    (M := kernelThreads .defaultScheduler 2) (s := booted 2) rfl deviceDone
    (fun _ c => c.Free (.condition 0) ∧ c.shared.condition 0 0 = true ∧
      (c.shared.proc initproc).chan = some (.condition 0 0)) (by decide +kernel)
  exact ⟨c, hchan, no_lost_wakeup ⟨past, run⟩ hfree htrue⟩

/-! ### Kills -/

/-- Hart `h` is about to set `killed` of process `p`. -/
def Killing (c : KernelConfig n) (h : Fin n) (p : Slot) : Prop :=
  match c.running h with
  | .act f _ => (c.shared.proc p).killed = 0 ∧ ((f h c.shared).proc p).killed ≠ 0
  | _ => False

instance : Decidable (Killing c h p) := by
  unfold Killing
  split <;> infer_instance

/-- The step does not set `killed` of a process between the test in its loop and
the state SLEEPING. -/
def SparesTested (_ : Past (KernelConfig n) (Event (Fin n) Input Code.Interrupt))
    (c : KernelConfig n) (e : Event (Fin n) Input Code.Interrupt) : Prop :=
  ∀ p, c.shared.loop p = .tested → ¬ Killing c e.hart p

instance : Decidable (SparesTested past c e) :=
  inferInstanceAs (Decidable (∀ p, c.shared.loop p = .tested → ¬ Killing c e.hart p))

/-- Who has found `killed == 0` and is going to sleep, or sleeps in such a loop,
has not been killed. -/
def Spared (c : KernelConfig n) : Prop :=
  ∀ p, (c.shared.loop p = .tested → (c.shared.proc p).killed = 0) ∧
    ((c.shared.proc p).state = .sleeping → c.shared.loop p = .asleep →
      (c.shared.proc p).killed = 0)

/-- A step that does not kill the process leaves it so. -/
theorem killed_of_step (hstep : (kernelThreads policy n).step c e = some c')
    (hnot : ¬ Killing c e.hart p) (hkilled : (c.shared.proc p).killed = 0) :
    (c'.shared.proc p).killed = 0 := by
  rcases Config.step_shared hstep with hsame | ⟨f, next, hrun, hshared⟩
  · rw [hsame]
    exact hkilled
  · by_contra hne
    apply hnot
    rw [hshared] at hne
    simp only [Killing, hrun]
    exact ⟨hkilled, hne⟩

theorem step_spared (hc : (kernelThreads policy n).Reachable c)
    (hspares : SparesTested past c e) (hspared : Spared c)
    (hstep : (kernelThreads policy n).step c e = some c') : Spared c' := by
  obtain ⟨who, kept⟩ := kernel_kept hc
  have hguar : Guar (who e.hart) (c.held e.hart) c.shared c'.shared :=
    kept.guar_of_step (discipline_laws n) hstep
  intro p
  obtain ⟨htested, hasleep⟩ := hspared p
  have hloop := hguar.loop p
  constructor
  · intro hnow
    rcases hloop.tested hnow with hbefore | hkilled
    · exact killed_of_step hstep (hspares p hbefore) (htested hbefore)
    · exact hkilled
  · intro hsleeping hnow
    obtain ⟨hsame, hbefore | hbefore⟩ := hloop.asleep hsleeping hnow
    · exact hsame.trans (htested hbefore)
    · exact hsame.trans (hasleep hbefore.1 hbefore.2)

theorem booted_spared : Spared (booted n) := by
  intro p
  constructor
  · intro htested
    cases htested
  · intro _ hasleep
    cases hasleep

/-- **No kill is lost that does not come between test and sleep.**  In a run in
which none does, nobody sleeps in a loop that tests `killed` who has been
killed. -/
theorem kill_not_lost (run : Run (kernelThreads policy n) past c)
    (hmeet : Machine.StepsMeet SparesTested past) :
    ∀ p chan, (c.shared.proc p).state = .sleeping → (c.shared.proc p).chan = some chan →
      chan.Tested → (c.shared.proc p).killed = 0 := by
  have hspared : Spared c := by
    refine run.invariant_of_meet (P := fun _ c => Spared c) (fun c hinit => ?_)
      (fun past c e c' run hspares hspared hstep => step_spared ⟨past, run⟩ hspares hspared hstep)
      hmeet
    obtain rfl : c = booted n := hinit
    exact booted_spared
  obtain ⟨who, kept⟩ := kernel_kept ⟨past, run⟩
  intro p chan hsleeping hchan htested
  exact (hspared p).2 hsleeping (kept.inv.looped p chan hsleeping hchan htested)

/-- A child of the first process reads an empty pipe on hart 1 and gets as far as
`early` steps; its parent kills it on hart 0; and the child goes on. -/
def readerKilled (early late : Nat) : List (Event (Fin 2) Input Code.Interrupt) :=
  List.replicate 41 (.run 0 { trap := .fork }) ++
    List.replicate early (.run 1 { trap := .piperead 0 1 }) ++
    List.replicate 12 (.run 0 { trap := .kill 2 }) ++ List.replicate late (.run 1 {})

/-- The kill finds the reader SLEEPING and wakes it up. -/
theorem kill_not_lost_reader : ∃ past c, Run (kernelThreads .defaultScheduler 2) past c ∧
    ((c.shared.proc 1).state = .runnable ∧ (c.shared.proc 1).killed = 1) ∧
      ∀ p chan, (c.shared.proc p).state = .sleeping → (c.shared.proc p).chan = some chan →
        chan.Tested → (c.shared.proc p).killed = 0 := by
  obtain ⟨past, c, run, hmeet, hkilled⟩ := Machine.exists_run_of_trace
    (M := kernelThreads .defaultScheduler 2) (s := booted 2) rfl (readerKilled 32 0)
    (fun past c => Machine.StepsMeet SparesTested past ∧
      (c.shared.proc 1).state = .runnable ∧ (c.shared.proc 1).killed = 1) (by decide +kernel)
  exact ⟨past, c, run, hkilled, kill_not_lost run hmeet⟩

/-- **A kill that comes between is lost**: the reader sleeps on the pipe with
`killed == 1`, and its lock is free. -/
theorem kill_lost : ∃ past c, Run (kernelThreads .defaultScheduler 2) past c ∧
    c.Free (.proc 1) ∧ (c.shared.proc 1).state = .sleeping ∧
      (c.shared.proc 1).chan = some (.nread 0) ∧ (c.shared.proc 1).killed = 1 :=
  Machine.exists_run_of_trace
    (M := kernelThreads .defaultScheduler 2) (s := booted 2) rfl (readerKilled 22 10)
    (fun _ c => c.Free (.proc 1) ∧ (c.shared.proc 1).state = .sleeping ∧
      (c.shared.proc 1).chan = some (.nread 0) ∧ (c.shared.proc 1).killed = 1) (by decide +kernel)

end Xv6
