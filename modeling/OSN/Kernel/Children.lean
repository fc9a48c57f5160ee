import OSN.Kernel.LockProtocol

/-!
# No exited child is lost

What the discipline of the locks means for the process tree, for any number of
harts and any interleaving.  Every process has a parent that is alive
(`parent_alive`); every exit of a slot is reaped once, or the slot is still a
ZOMBIE (`reaps_add_zombie`); only the parent reaps (`reaped_by_parent`); and
while `wait_lock` is free, nobody sleeps in `wait` who has a ZOMBIE child
(`zombie_not_awaited`).
-/

namespace Xv6

open Threads Threads.Discipline

variable {n : Nat} {policy : Policy} {c c' : KernelConfig n} {p q r : Slot}
  {past : Past (KernelConfig n) (Event (Fin n) Input Code.Interrupt)}
  {e : Event (Fin n) Input Code.Interrupt}

/-- How often the slot became a ZOMBIE, up to the present state. -/
def exits (q : Slot) :
    Past (KernelConfig n) (Event (Fin n) Input Code.Interrupt) → KernelConfig n → Nat
  | [], _ => 0
  | (c, _) :: past, c' =>
      exits q past c +
        if (c.shared.proc q).state ≠ .zombie ∧ (c'.shared.proc q).state = .zombie then 1 else 0

/-- How often the slot was freed in `wait`. -/
def reaps (q : Slot) (s : Shared n) : Nat := s.reaped.countP fun child => child.1 = q

/-- A process that has begun to run has a parent that is alive. -/
theorem parent_alive (hc : (kernelThreads policy n).Reachable c) (hinit : q ≠ initproc)
    (hq : (c.shared.proc q).state.Alive ∨ (c.shared.proc q).state = .zombie) :
    ∃ r, (c.shared.proc q).parent = some r ∧ (c.shared.proc r).state.Alive := by
  obtain ⟨who, kept⟩ := kernel_kept hc
  have hborn : (c.shared.proc q).state ≠ .unused ∧ (c.shared.proc q).state ≠ .used := by
    rcases hq with (h | h | h) | h <;> simp [h]
  have hparent := kept.inv.has_parent q hinit hborn.1 hborn.2
  obtain ⟨r, hr⟩ := Option.ne_none_iff_exists'.mp hparent
  exact ⟨r, hr, kept.inv.parent_alive q r hr⟩

/-- What a step does to the list of the reaped: it frees a ZOMBIE whose parent
the hart runs, or leaves all ZOMBIEs alone. -/
theorem step_reaps (hc : (kernelThreads policy n).Reachable c)
    (hstep : (kernelThreads policy n).step c e = some c') :
    (c'.shared.reaped = c.shared.reaped ∧
        ∀ q, (c.shared.proc q).state = .zombie → (c'.shared.proc q).state = .zombie) ∨
      ∃ q r, c.shared.cpu e.hart = some r ∧ c'.shared.reaped = (q, r) :: c.shared.reaped ∧
        ZombieChild r q c.shared ∧ (c'.shared.proc q).state = .unused ∧
        ∀ q', q' ≠ q → (c.shared.proc q').state = .zombie → (c'.shared.proc q').state = .zombie := by
  obtain ⟨who, kept⟩ := kernel_kept hc
  have hguar : Guar (who e.hart) (c.held e.hart) c.shared c'.shared :=
    kept.guar_of_step (discipline_laws n) hstep
  refine hguar.reaps.imp id fun hreaps => ?_
  obtain ⟨q, r, hwho, hreaped, hparent, hzombie, hunused, hothers⟩ := hreaps
  have hon := kept.on e.hart
  rw [hwho] at hon
  exact ⟨q, r, hon.1, hreaped, ⟨hparent, hzombie⟩, hunused, hothers⟩

/-- What a step adds to the two sides of the account. -/
theorem step_exits (hc : (kernelThreads policy n).Reachable c)
    (hstep : (kernelThreads policy n).step c e = some c') (q : Slot) :
    reaps q c'.shared + (if (c'.shared.proc q).state = .zombie then 1 else 0) =
      reaps q c.shared + (if (c.shared.proc q).state = .zombie then 1 else 0) +
        if (c.shared.proc q).state ≠ .zombie ∧ (c'.shared.proc q).state = .zombie then 1 else 0 := by
  rcases step_reaps hc hstep with ⟨hreaped, hkept⟩ | ⟨i, r, -, hreaped, hchild, hunused, hkept⟩
  · rw [reaps, hreaped, ← reaps]
    by_cases hzombie : (c.shared.proc q).state = .zombie
    · simp [hzombie, hkept q hzombie]
    · simp [hzombie]
  · by_cases hqi : q = i
    · subst hqi
      simp [reaps, hreaped, hchild.2, hunused]
    · have hreaps : reaps q c'.shared = reaps q c.shared := by
        simp [reaps, hreaped, Ne.symm hqi]
      rw [hreaps]
      by_cases hzombie : (c.shared.proc q).state = .zombie
      · simp [hzombie, hkept q hqi hzombie]
      · simp [hzombie]

/-- **No exit is lost and none is reaped twice**: every exit of a slot has been
reaped once, or the slot is still a ZOMBIE. -/
theorem reaps_add_zombie (run : Run (kernelThreads policy n) past c) (q : Slot) :
    reaps q c.shared + (if (c.shared.proc q).state = .zombie then 1 else 0) = exits q past c := by
  induction run with
  | init hinit =>
      obtain rfl : _ = booted n := hinit
      rw [booted_state]
      split <;> rfl
  | step run hstep ih => rw [step_exits ⟨_, run⟩ hstep q, ih, exits]

/-- While `wait_lock` is free, nobody sleeps in `wait` who has a ZOMBIE child. -/
theorem zombie_not_awaited (hc : (kernelThreads policy n).Reachable c) (hfree : c.Free .wait)
    (hsleeping : (c.shared.proc p).state = .sleeping)
    (hchan : (c.shared.proc p).chan = some (.proc p)) : ¬ ZombieChild p q c.shared := by
  obtain ⟨who, kept⟩ := kernel_kept hc
  have hsettled : Settled .wait c.shared := kept.free .wait hfree
  intro hchild
  exact hsettled (.proc p) p rfl ⟨q, hchild.1, hchild.2⟩ (Or.inr ⟨hsleeping, hchan⟩)

/-- **The process tree never loses an exited child**, whatever the scheduler,
the number of harts and the interleaving. -/
theorem children_kept (run : Run (kernelThreads policy n) past c) :
    (∀ q, q ≠ initproc →
      ((c.shared.proc q).state.Alive ∨ (c.shared.proc q).state = .zombie) →
        ∃ r, (c.shared.proc q).parent = some r ∧ (c.shared.proc r).state ≠ .unused ∧
          (c.shared.proc r).state ≠ .zombie) ∧
      (∀ q, reaps q c.shared + (if (c.shared.proc q).state = .zombie then 1 else 0) =
        exits q past c) ∧
      (∀ e c', (kernelThreads policy n).step c e = some c' →
        c'.shared.reaped = c.shared.reaped ∨
          ∃ q r, c'.shared.reaped = (q, r) :: c.shared.reaped ∧ ZombieChild r q c.shared ∧
            c.shared.cpu e.hart = some r) ∧
      (c.Free .wait → ∀ p q, (c.shared.proc p).state = .sleeping →
        (c.shared.proc p).chan = some (.proc p) → ¬ ZombieChild p q c.shared) := by
  have hc : (kernelThreads policy n).Reachable c := ⟨past, run⟩
  refine ⟨?_, reaps_add_zombie run, ?_,
    fun hfree p q hsleeping hchan => zombie_not_awaited hc hfree hsleeping hchan⟩
  · intro q hinit hq
    obtain ⟨r, hparent, halive⟩ := parent_alive hc hinit hq
    refine ⟨r, hparent, ?_⟩
    rcases halive with h | h | h <;> simp [h]
  · intro e c' hstep
    refine (step_reaps hc hstep).imp (fun h => h.1) fun h => ?_
    obtain ⟨q, r, hcpu, hreaped, hchild, -⟩ := h
    exact ⟨q, r, hreaped, hchild, hcpu⟩

/-- The first process forks on hart 0, the child exits on hart 1, and its parent
reaps it. -/
def childReaped : List (Event (Fin 2) Input Code.Interrupt) :=
  List.replicate 41 (.run 0 { trap := .fork }) ++ List.replicate 595 (.run 1 { trap := .exit 0 }) ++
    List.replicate 15 (.run 0 { trap := .wait })

set_option maxRecDepth 20000 in
theorem children_kept_reaped :
    ∃ past c, Run (kernelThreads .defaultScheduler 2) past c ∧
      c.shared.reaped = [(1, initproc)] ∧ exits 1 past c = 1 := by
  obtain ⟨past, c, run, hreaped, hunused⟩ := Machine.exists_run_of_trace
    (M := kernelThreads .defaultScheduler 2) (s := booted 2) rfl childReaped
    (fun _ c => c.shared.reaped = [(1, initproc)] ∧ (c.shared.proc 1).state = .unused)
    (by decide)
  refine ⟨past, c, run, hreaped, ?_⟩
  have haccount := (children_kept run).2.1 1
  simpa [reaps, hreaped, hunused] using haccount.symm

end Xv6
