import OSN.Kernel.Critical

/-!
# Switching, sleeping and waking up

The loops over the table that lock one process at a time, the switch between a
process and the scheduler in both directions, and from these `yield` and
`sleep`.  A `wakeup` by those who hold the lock of the channel leaves nobody
asleep on it (`wakeup_triple`), and a process goes to sleep only on what is not
due (`sleep_triple`).
-/

namespace Xv6

open Threads Threads.Discipline
open Threads.Code (acquire release update)

variable {n : Nat} {t : Thread n} {X : List Lock} {A : Fin n → Shared n → Prop} {p i : Slot}
  {h h' h₀ : Fin n} {s s' : Shared n} {l lk : Lock} {chan : Chan} {M : Shared n → Prop}

/-! ### The loops that lock one process at a time -/

section Loops

variable (hX : ∀ m ∈ X, m.Early)
include hX

theorem wakeup_quiet (chan : Option Chan) :
    (discipline n).Quiet t X (Code.wakeup chan : Code n Unit) := by
  refine Quiet.forM fun p => Quiet.bind (quiet_read _) fun me => Quiet.when fun _ => ?_
  intro A hA
  refine (lock_triple hA fun m hm => (hX m hm).rank_lt).bind fun _ => ?_
  refine (quiet_read _ _ (stable_inside hA)).bind fun now => ?_
  exact (setProc_triple' hA (proc_notMem hX) (keeps_wakeupProc now chan)).bind fun _ =>
    unlock_triple hA

theorem runningTime_quiet : (discipline n).Quiet t X (Code.runningTime : Code n Unit) := by
  refine Quiet.forM fun p => ?_
  intro A hA
  refine (lock_triple hA fun m hm => (hX m hm).rank_lt).bind fun _ => ?_
  refine (setProc_quiet (fun q => ?_) _ (stable_inside hA)).bind fun _ => unlock_triple hA
  unfold runningTimeProc
  split <;> exact ⟨⟨rfl, rfl, rfl⟩, rfl⟩

theorem kill_quiet (pid : Int) : (discipline n).Quiet t X (Code.kill pid : Code n Int) := by
  refine Quiet.bind (Quiet.findSomeM fun p => ?_) fun found => Quiet.pure _
  intro A hA
  refine (lock_triple hA fun m hm => (hX m hm).rank_lt).bind fun _ => ?_
  refine (quiet_read _ _ (stable_inside hA)).bind fun q => ?_
  split
  · refine (quiet_read _ _ (stable_inside hA)).bind fun now => ?_
    refine (setProc_triple' hA (proc_notMem hX) (keeps_killProc now)).bind fun _ => ?_
    exact (unlock_triple hA).bind fun _ => Triple.pure (some 0)
  · exact (unlock_triple hA).bind fun _ => Triple.pure none

theorem ageSlot_quiet : (discipline n).Quiet t X (Code.ageSlot p : Code n Unit) := by
  intro A hA
  refine (lock_triple hA fun m hm => (hX m hm).rank_lt).bind fun _ => ?_
  refine (quiet_read _ _ (stable_inside hA)).bind fun now => ?_
  refine (quiet_read _ _ (stable_inside hA)).bind fun q => ?_
  refine Triple.bind (Triple.when (fun _ => ?_) fun _ _ _ _ hs => hs) fun _ => unlock_triple hA
  refine Triple.ask.bind fun i => ?_
  split
  · exact Triple.hang trivial
  · refine setProc_quiet (fun q => ?_) _ (stable_inside hA)
    unfold promote
    split <;> split <;> exact ⟨⟨rfl, rfl, rfl⟩, rfl⟩

theorem enqueueSlot_quiet : (discipline n).Quiet t X (Code.enqueueSlot p : Code n Unit) := by
  intro A hA
  refine (lock_triple hA fun m hm => (hX m hm).rank_lt).bind fun _ => ?_
  refine (quiet_read _ _ (stable_inside hA)).bind fun q => ?_
  refine Triple.bind (Triple.when (fun _ => ?_) fun _ _ _ _ hs => hs) fun _ => unlock_triple hA
  refine setProc_quiet (fun _ => ?_) _ (stable_inside hA)
  exact ⟨⟨rfl, rfl, rfl⟩, rfl⟩

end Loops

/-! ### Waking up those who wait for what is due -/

/-- A process that runs code without its own lock is not asleep. -/
theorem not_bound_of_on (hon : (discipline n).on t h [] s) (hcpu : s.cpu h = some p) :
    ¬ BoundTo p chan s := by
  cases t with
  | scheduler h₀ => simp [hon.2 rfl] at hcpu
  | proc q =>
      obtain rfl : q = p := Option.some.inj (hon.1.symm.trans hcpu)
      obtain ⟨hrunning, hbound⟩ := hon.2 List.not_mem_nil
      intro hcases
      rcases hcases with hb | ⟨hsleeping, -⟩
      · simp [hbound] at hb
      · simp [hrunning] at hsleeping

/-- A process that holds locks, but not its own, is where it may be without
them. -/
theorem on_nil (hX : ∀ m ∈ X, m.Early) (hon : (discipline n).on (.proc p) h X s) :
    (discipline n).on (.proc p) h [] s :=
  ⟨hon.1, fun _ => hon.2 (proc_notMem hX)⟩

/-- One step of the loop of `wakeup`. -/
theorem wakeupProc_not_sleeping (now : UInt32) (chan : Chan) (q : Proc) :
    ¬ ((wakeupProc now (some chan) q).state = .sleeping ∧
      (wakeupProc now (some chan) q).chan = some chan) := by
  unfold wakeupProc
  split
  case isTrue => exact fun h => nomatch h.1
  case isFalse h => exact h

/-- **`wakeup`** by those who hold the lock of the channel: nobody sleeps on it
any more. -/
theorem wakeup_triple (chan : Chan) (hX : ∀ m ∈ X, m.Early) (hl : chan.lock ∈ X)
    (hA : (discipline n).Stable t X A)
    (hme : ∀ h s, (discipline n).Here t h X s → A h s → (discipline n).on t h [] s) :
    (discipline n).Triple t X A (Code.wakeup (some chan) : Code n Unit) (fun _ => X)
      fun _ h s => A h s ∧ ∀ q, ¬ BoundTo q chan s := by
  have hstable : ∀ rest : List Slot, (discipline n).Stable t X fun h s =>
      A h s ∧ ∀ q, q ∉ rest → ¬ BoundTo q chan s :=
    fun rest => hA.and (stable_not_bound hl (· ∉ rest))
  have hloop : (discipline n).Triple t X
      (fun h s => A h s ∧ ∀ q, q ∉ Code.table → ¬ BoundTo q chan s)
      (Code.wakeup (some chan) : Code n Unit) (fun _ => X)
      fun _ h s => A h s ∧ ∀ q, q ∉ [] → ¬ BoundTo q chan s := by
    refine Triple.forM_rest (P := fun rest h s => A h s ∧ ∀ q, q ∉ rest → ¬ BoundTo q chan s)
      fun p rest => ?_
    have hvisited : ∀ {s : Shared n}, (∀ q, q ∉ p :: rest → ¬ BoundTo q chan s) →
        ¬ BoundTo p chan s → ∀ q, q ∉ rest → ¬ BoundTo q chan s := by
      intro s hothers hp q hq
      by_cases hqp : q = p
      · exact hqp ▸ hp
      · exact hothers q (by simp [hqp, hq])
    refine (Triple.read (discipline_laws n) (hstable (p :: rest)) _).bind fun me => ?_
    refine Triple.when (fun _ => ?_) fun hself h s hhere hs => ?_
    · refine Triple.pre (A := fun h s => A h s ∧ ∀ q, q ∉ p :: rest → ¬ BoundTo q chan s) ?_
        fun h s _ hs => hs.1
      refine (lock_triple (hstable (p :: rest)) fun m hm => (hX m hm).rank_lt).bind fun _ => ?_
      refine (quiet_read _ _ (stable_inside (hstable (p :: rest)))).bind fun now => ?_
      refine (setProc_triple (hstable (p :: rest)) (proc_notMem hX)
        (stable_inside (hstable (p :: rest)))
        (fun h s hin => ⟨hin, keeps_wakeupProc now (some chan) (s.proc p)⟩)
        fun h s _ hs hproc => ⟨hs.1, hvisited hs.2 ?_⟩).bind fun _ => unlock_triple (hstable rest)
      intro hcases
      rcases hcases with hbound | hasleep
      · simp [hproc.bound] at hbound
      · rw [Shared.modifyProc_proc_self] at hasleep
        exact wakeupProc_not_sleeping now chan _ hasleep
    · have hme' : s.cpu h = some p := by
        rw [← hs.2]
        simpa using hself
      exact ⟨hs.1.1, hvisited hs.1.2 (not_bound_of_on (hme h s hhere hs.1.1) hme')⟩
  refine (hloop.pre fun h s _ hs => ⟨hs, fun q hq => absurd (List.mem_finRange q) hq⟩).post
    fun _ h s _ hs => ⟨hs.1, fun q => hs.2 q List.not_mem_nil⟩

/-- Nobody sleeps on what is due, save perhaps on one channel. -/
def SettledBut (l : Lock) (chan : Chan) (s : Shared n) : Prop :=
  ∀ chan' p, chan'.lock = l → chan' ≠ chan → Due s chan' → ¬ BoundTo p chan' s

theorem stable_settledBut (hl : l ∈ X) :
    (discipline n).Stable t X fun _ s => SettledBut l chan s :=
  stable_held hl fun _ _ hkept hsettled chan' p hchan hne hdue hbound =>
    hsettled chan' p hchan hne (hkept.due hchan hdue) (hkept.calm chan' p hchan hbound)

/-- Those who made something due wake up the sleepers before they give the lock
back. -/
theorem settle_triple (chan : Chan) (hX : ∀ m ∈ X, m.Early) (hl : chan.lock ∈ X)
    (hA : (discipline n).Stable t X A)
    (hme : ∀ h s, (discipline n).Here t h X s → A h s → (discipline n).on t h [] s) :
    (discipline n).Triple t X (fun h s => A h s ∧ SettledBut chan.lock chan s)
      (Code.wakeup (some chan) : Code n Unit) (fun _ => X)
      fun _ h s => A h s ∧ Settled chan.lock s := by
  refine (wakeup_triple chan hX hl (hA.and (stable_settledBut hl)) fun h s hhere hs =>
    hme h s hhere hs.1).post fun _ h s _ hs => ⟨hs.1.1, fun chan' p hchan hdue hbound => ?_⟩
  by_cases hsame : chan' = chan
  · subst hsame
    exact hs.2 p hbound
  · exact hs.1.2 chan' p hchan hsame hdue hbound

/-! ### Switching between a process and the scheduler -/

/-- `myproc()` of a process. -/
theorem myproc_triple (hA : (discipline n).Stable (.proc p) X A) :
    (discipline n).Triple (.proc p) X A (Code.myproc : Code n (Option Slot)) (fun _ => X)
      fun o h s => o = some p ∧ A h s := by
  refine (Triple.read (discipline_laws n) hA _).post fun o h s hhere hs => ⟨?_, hs.1⟩
  rw [hs.2]
  exact hhere.2.1

/-- `let p ← myproc` in the code of a process. -/
theorem myproc_bind {α : Type} {c : Option Slot → Code n α} {Y : α → List Lock}
    {P : α → Fin n → Shared n → Prop} (hA : (discipline n).Stable (.proc p) X A)
    (hc : (discipline n).Triple (.proc p) X A (c (some p)) Y P) :
    (discipline n).Triple (.proc p) X A (Code.myproc >>= c) Y P := by
  refine (myproc_triple hA).bind fun o => ?_
  intro next hnext h s hhere hs
  obtain ⟨rfl, hs⟩ := hs
  exact hc next hnext h s hhere hs

/-- The process runs, and is not about to sleep. -/
def Awake (p : Slot) (s : Shared n) : Prop :=
  (s.proc p).state = .running ∧ s.bound p = none

/-- The process is about to leave its hart. -/
def Leaving (p : Slot) (s : Shared n) : Prop :=
  (s.proc p).state ≠ .running ∧ s.bound p = none

theorem stable_awake (hp : .proc p ∈ X) : (discipline n).Stable t X fun _ s => Awake p s :=
  stable_slot hp fun _ _ hkept h => ⟨hkept.state.trans h.1, hkept.bound.trans h.2⟩

theorem stable_leaving (hp : .proc p ∈ X) : (discipline n).Stable t X fun _ s => Leaving p s :=
  stable_slot hp fun _ _ hkept h => ⟨hkept.state ▸ h.1, hkept.bound.trans h.2⟩

/-- **From the process to the scheduler and back.**  The process gives up its
lock while it is not RUNNING and has it back when it is. -/
theorem sched_triple (hM : Mine p M) :
    (discipline n).Triple (.proc p) [.proc p] (fun _ s => Leaving p s ∧ M s)
      (Code.sched : Code n Unit) (fun _ => [.proc p]) fun _ _ s => Awake p s ∧ M s := by
  have hstable : (discipline n).Stable (.proc p) [.proc p] fun _ s => Leaving p s ∧ M s :=
    (stable_leaving List.mem_cons_self).and hM.stable
  apply myproc_bind hstable
  refine (Triple.read (discipline_laws n) hstable _).bind fun h₀ => ?_
  -- with the lock held the process stays on its hart
  have hstable' : (discipline n).Stable (.proc p) [.proc p]
      fun h s => (Leaving p s ∧ M s) ∧ h₀ = h := by
    intro h s h' s' hs hseen
    exact ⟨hstable h s h' s' hs.1 hseen, hs.2.trans (hseen.1.1 (by simp)).symm⟩
  refine Triple.swtch hstable' fun h s hhere hs => ?_
  obtain ⟨⟨hleaving, hMs⟩, rfl⟩ := hs
  refine ⟨nofun, fun h' held hne hon => hne hon.1.symm, ⟨hhere.1, rfl, nofun⟩,
    ⟨p, rfl, hhere.2.1, hleaving.1, hleaving.2⟩, ?_⟩
  intro h' held s' hback
  obtain ⟨haway, -, hheld, hawake⟩ := hback
  exact ⟨hheld, hawake, hM s s' haway hMs⟩

/-- The process takes its own lock: it is RUNNING. -/
theorem own_lock_triple (hX : ∀ m ∈ X, m.Early) (hA : (discipline n).Stable (.proc p) X A) :
    (discipline n).Triple (.proc p) X A (acquire (.proc p) : Code n Unit)
      (fun _ => .proc p :: X) fun _ h s => Awake p s ∧ A h s :=
  (lock_triple hA fun m hm => (hX m hm).rank_lt).post fun _ _ _ _ hin =>
    ⟨hin.2.2.2 (proc_notMem hX), hin.1⟩

/-- The process gives its own lock back: it is RUNNING. -/
theorem own_unlock_triple (hM : Mine p M) :
    (discipline n).Triple (.proc p) [.proc p] (fun _ s => Awake p s ∧ M s)
      (release (.proc p) : Code n Unit) (fun _ => []) fun _ _ s => M s := by
  have hstable : (discipline n).Stable (.proc p) [.proc p] fun _ s => Awake p s ∧ M s :=
    (stable_awake List.mem_cons_self).and hM.stable
  have hrelease := Triple.release (I := Input) (l := .proc p) (B := fun _ s => M s) hstable
    List.mem_cons_self fun h s hhere hs =>
      ⟨⟨⟨fun _ => ⟨h, hhere.2.1⟩, fun _ => hs.1.1⟩, hs.1.2⟩, ⟨hhere.2.1, fun _ => hs.1⟩, hs.2⟩
  simpa using hrelease

/-- A process that runs is alive. -/
theorem Awake.alive (h : Awake p s) : (s.proc p).state.Alive := Or.inr (Or.inr h.1)

/-- What a process may write to its own slot while it holds its lock. -/
structure OwnWrite (p : Slot) (X : List Lock) (s s' : Shared n) : Prop where
  only : OnlySlot p s s'
  np : s'.np = s.np
  parent : (s'.proc p).parent = (s.proc p).parent
  reaped : s'.reaped = s.reaped
  calm : ∀ chan, chan.lock ∉ X → BoundTo p chan s' → BoundTo p chan s
  zombie : .wait ∉ X → (s'.proc p).state ≠ .zombie
  loop : LoopKept p s s'
  looped : ∀ chan, (s'.proc p).state = .sleeping → (s'.proc p).chan = some chan →
    chan.Tested → s'.loop p = .asleep

theorem OwnWrite.guar (hwrite : OwnWrite p X s s') (hp : .proc p ∈ X)
    (hrunning : (s.proc p).state = .running) : Guar (.proc p) X s s' := by
  have hnot : (s.proc p).state ≠ .zombie := by simp [hrunning]
  refine hwrite.only.guar ⟨fun h => absurd hp h, hwrite.calm, fun hwait => ?_,
    fun h => absurd rfl h, hwrite.loop⟩ (fun _ _ => by rw [hwrite.np])
    (fun _ _ _ hparent => by rwa [hwrite.parent])
    (hwrite.only.reaps_none hwrite.reaped fun h => absurd h hnot)
  exact ⟨fun r hr => hwrite.parent ▸ hr, iff_of_false (hwrite.zombie hwait) hnot,
    fun h => absurd h hnot⟩

/-- Such a write by a process that runs and stays alive. -/
theorem own_write_triple {f : Shared n → Shared n} {B C : Shared n → Prop} (hp : .proc p ∈ X)
    (hB : (discipline n).Stable (.proc p) X fun _ s => B s)
    (hwrite : ∀ s, B s → (s.proc p).state = .running ∧ OwnWrite p X s (f s) ∧
      ((f s).proc p).state.Alive ∧ C (f s)) :
    (discipline n).Triple (.proc p) X (fun _ s => B s) (update fun _ s => f s : Code n Unit)
      (fun _ => X) fun _ _ s => C s := by
  refine Triple.update hB fun h s hhere hs => ?_
  obtain ⟨hrunning, hown, halive, hC⟩ := hwrite s hs
  refine ⟨hown.guar hp hrunning, ⟨?_, ?_⟩, hC⟩
  · exact hhere.1.of_alive hown.only hown.np hown.parent (Or.inr (Or.inr hrunning)) halive
      hown.looped
  · exact ⟨(congrFun hown.only.cpu h).trans hhere.2.1, fun hnot => absurd hp hnot⟩

/-- The state that a process writes before it calls `sched`. -/
theorem runnable_triple {f : Proc → Proc} (hM : Mine p M)
    (hf : ∀ q, (f q).state = .runnable ∧ (f q).parent = q.parent) :
    (discipline n).Triple (.proc p) [.proc p] (fun _ s => Awake p s ∧ M s)
      (Code.setProc p f : Code n Unit) (fun _ => [.proc p]) fun _ _ s => Leaving p s ∧ M s := by
  have hp : Lock.proc p ∈ [Lock.proc p] := List.mem_cons_self
  refine own_write_triple hp ((stable_awake hp).and hM.stable) fun s hs => ?_
  obtain ⟨hawake, hMs⟩ := hs
  have hstate : ((s.modifyProc p f).proc p).state = .runnable := by
    rw [Shared.modifyProc_proc_self, (hf _).1]
  have hparent : ((s.modifyProc p f).proc p).parent = (s.proc p).parent := by
    rw [Shared.modifyProc_proc_self, (hf _).2]
  have hnot : ∀ v, v ≠ .runnable → ((s.modifyProc p f).proc p).state ≠ v :=
    fun v hv hstate' => hv (hstate'.symm.trans hstate)
  have hsleeping := hnot .sleeping (by decide)
  refine ⟨hawake.1, ⟨onlySlot_modifyProc, rfl, hparent, rfl, ?_,
    fun _ => hnot .zombie (by decide), ⟨fun h => Or.inl h, fun h => absurd h hsleeping⟩,
    fun _ h => absurd h hsleeping⟩, Or.inr (Or.inl hstate), ⟨hnot .running (by decide), hawake.2⟩,
    hM s _ ⟨rfl, ?_, rfl⟩ hMs⟩
  · intro chan _ hbound
    exact hbound.imp id fun hasleep => absurd hasleep.1 hsleeping
  · intro i _ hi
    by_cases hip : i = p
    · subst hip
      rwa [hparent]
    · rwa [Shared.modifyProc_proc_of_ne hip]

theorem yield_triple (hM : Mine p M) :
    (discipline n).Triple (.proc p) [] (fun _ s => M s) (Code.yield : Code n Unit)
      (fun _ => []) fun _ _ s => M s := by
  have hstable : (discipline n).Stable (.proc p) [.proc p] fun _ s => Awake p s ∧ M s :=
    (stable_awake List.mem_cons_self).and hM.stable
  apply myproc_bind hM.stable
  refine (own_lock_triple (by simp) hM.stable).bind fun _ => ?_
  refine (quiet_read _ _ hstable).bind fun now => ?_
  refine (runnable_triple hM fun q => ?_).bind fun _ => ?_
  · exact ⟨rfl, rfl⟩
  · exact (sched_triple hM).bind fun _ => own_unlock_triple hM

/-- A process that holds no lock counts on nothing but what is its own. -/
theorem yield_quiet : (discipline n).Quiet (.proc p) [] (Code.yield : Code n Unit) := by
  intro A hA next hnext h s hhere hs
  refine yield_triple (mine_own s) next (fun a h' s' hhere' hown => ?_) h s hhere .refl
  exact hnext a h' s' hhere' (hA h s h' s' hs ⟨⟨nofun, hown, nofun⟩, hhere'⟩)

/-! ### Going to sleep -/

theorem Chan.lock_early (chan : Chan) : chan.lock.Early := by
  cases chan <;> simp [Chan.lock, Lock.Early, Lock.rank]

/-- The locks that protect nothing anybody waits for here. -/
def Lock.Plain : Lock → Prop
  | .wait | .condition _ => False
  | .pipe _ | .cons | .ticks | .proc _ | .pid => True

theorem not_due_of_plain (hl : chan.lock.Plain) : ¬ Due s chan := by
  cases chan with
  | proc | condition | other => exact False.elim hl
  | ticks | nread | nwrite | consR => exact id

theorem settled_of_plain (hl : l.Plain) : Settled l s :=
  fun _ _ hchan hdue => absurd hdue (not_due_of_plain (hchan ▸ hl))

/-- The process is about to sleep on the channel. -/
def Falling (p : Slot) (chan : Chan) (s : Shared n) : Prop :=
  (s.proc p).state = .running ∧ s.bound p = some chan

theorem stable_falling (hp : .proc p ∈ X) :
    (discipline n).Stable t X fun _ s => Falling p chan s :=
  stable_slot hp fun _ _ hkept h => ⟨hkept.state.trans h.1, hkept.bound.trans h.2⟩

/-- A process that is going to sleep in a loop that tests `killed` has tested
it. -/
def Prepared (p : Slot) (chan : Chan) (s : Shared n) : Prop :=
  chan.Tested → s.loop p = .tested

theorem mine_prepared : Mine p fun s : Shared n => Prepared p chan s :=
  fun _ _ hown hs htested => hown.loop.trans (hs htested)

/-- With both locks held the process counts as asleep on what is not due. -/
theorem bind_triple :
    (discipline n).Triple (.proc p) [.proc p, chan.lock]
      (fun _ s => Awake p s ∧ (Settled chan.lock s ∧ ¬ Due s chan) ∧ Prepared p chan s)
      (update fun _ s => s.setBound p (some chan) : Code n Unit) (fun _ => [.proc p, chan.lock])
      fun _ _ s => (Falling p chan s ∧ Prepared p chan s) ∧ Settled chan.lock s := by
  have hp : Lock.proc p ∈ [Lock.proc p, chan.lock] := List.mem_cons_self
  have hl : chan.lock ∈ [Lock.proc p, chan.lock] := by simp
  refine own_write_triple hp ((stable_awake hp).and (((stable_settled hl).and
    (stable_not_due hl)).and mine_prepared.stable)) fun s hs => ?_
  obtain ⟨⟨hrunning, hbound⟩, ⟨hsettled, hdue⟩, hprepared⟩ := hs
  have hothers : ∀ q, q ≠ p → (s.setBound p (some chan)).bound q = s.bound q := by
    intro q hq
    simp [hq]
  -- what it is bound to now
  have hself : ∀ chan', BoundTo p chan' (s.setBound p (some chan)) → chan' = chan := by
    intro chan' hcases
    rcases hcases with hb | ⟨hsleeping, -⟩
    · simpa using hb.symm
    · simp [hrunning] at hsleeping
  have hawake : ((s.setBound p (some chan)).proc p).state ≠ .sleeping := by simp [hrunning]
  refine ⟨hrunning, ⟨⟨fun _ _ => rfl, hothers, fun _ _ => rfl, rfl, rfl, rfl⟩, rfl, rfl, rfl, ?_,
    fun _ => by simp [hrunning], ⟨fun h => Or.inl h, fun h => absurd h hawake⟩, fun _ h => absurd h
    hawake⟩, Or.inr (Or.inr hrunning), ⟨⟨hrunning, by simp⟩, hprepared⟩, ?_⟩
  · intro chan' hnot hb
    exact absurd (hself chan' hb ▸ hl) hnot
  · intro chan' q hchan hdue' hb
    by_cases hq : q = p
    · subst hq
      exact hdue (hself chan' hb ▸ hdue')
    · apply hsettled chan' q hchan hdue'
      simpa [BoundTo, hq] using hb

/-- `release(lk)` in `sleep`. -/
theorem bound_release_triple :
    (discipline n).Triple (.proc p) [.proc p, chan.lock]
      (fun _ s => (Falling p chan s ∧ Prepared p chan s) ∧ Settled chan.lock s)
      (release chan.lock : Code n Unit) (fun _ => [.proc p])
      fun _ _ s => Falling p chan s ∧ Prepared p chan s := by
  have hne : Lock.proc p ≠ chan.lock := by
    intro heq
    exact proc_notMem (X := [chan.lock]) (p := p) (by simpa using chan.lock_early) (by simp [heq])
  have herase : [Lock.proc p, chan.lock].erase chan.lock = [.proc p] := by
    rw [List.erase_cons_tail (by simpa using hne), List.erase_cons_head]
  have hstable : (discipline n).Stable (.proc p) [.proc p, chan.lock]
      fun _ s => (Falling p chan s ∧ Prepared p chan s) ∧ Settled chan.lock s :=
    ((stable_falling List.mem_cons_self).and mine_prepared.stable).and (stable_settled (by simp))
  rw [← herase]
  refine Triple.release hstable (by simp) fun h s hhere hs => ?_
  refine ⟨chan.lock_early.lockInv_iff.mpr hs.2, ?_, hs.1⟩
  rw [herase]
  exact ⟨hhere.2.1, fun hnot => absurd List.mem_cons_self hnot⟩

theorem fallAsleep_triple :
    (discipline n).Triple (.proc p) [.proc p] (fun _ s => Falling p chan s ∧ Prepared p chan s)
      (update fun _ s => s.fallAsleep p chan : Code n Unit) (fun _ => [.proc p])
      fun _ _ s => Leaving p s ∧ True := by
  have hp : Lock.proc p ∈ [Lock.proc p] := List.mem_cons_self
  refine own_write_triple hp ((stable_falling hp).and mine_prepared.stable) fun s hs => ?_
  obtain ⟨hfalling, hprepared⟩ := hs
  have hothers : ∀ q, q ≠ p → (s.fallAsleep p chan).proc q = s.proc q ∧
      (s.fallAsleep p chan).bound q = s.bound q ∧ (s.fallAsleep p chan).loop q = s.loop q := by
    intro q hq
    simp [Shared.fallAsleep, hq]
  have hproc : (s.fallAsleep p chan).proc p = sleepProc (some chan) (s.proc p) := by
    simp [Shared.fallAsleep]
  have hstate : ((s.fallAsleep p chan).proc p).state = .sleeping := by
    rw [hproc]
    rfl
  have hchan : ((s.fallAsleep p chan).proc p).chan = some chan := by
    rw [hproc]
    rfl
  have hbound : (s.fallAsleep p chan).bound p = none := by simp [Shared.fallAsleep]
  have hloop : (s.fallAsleep p chan).loop p = if s.loop p = .tested then .asleep else .outside := by
    simp [Shared.fallAsleep]
  refine ⟨hfalling.1, ⟨⟨fun q hq => (hothers q hq).1, fun q hq => (hothers q hq).2.1, fun q hq =>
    (hothers q hq).2.2, rfl, rfl, rfl⟩, rfl, by rw [hproc]; rfl, rfl, ?_, fun _ => by simp [hstate],
    ⟨?_, ?_⟩, ?_⟩, Or.inl hstate, ⟨by simp [hstate], hbound⟩, trivial⟩
  · intro chan' _ hb
    -- it was bound to the channel before
    rcases hb with hb | ⟨-, hb⟩
    · simp [hbound] at hb
    · exact Or.inl (hfalling.2.trans (hchan.symm.trans hb))
  · intro h
    rw [hloop] at h
    split at h <;> simp at h
  · intro _ h
    rw [hloop] at h
    split at h
    case isTrue htested => exact ⟨by rw [hproc]; rfl, Or.inl htested⟩
    case isFalse => simp at h
  · intro chan' _ hchan' htested
    obtain rfl : chan = chan' := Option.some.inj (hchan.symm.trans hchan')
    rw [hloop, if_pos (hprepared htested)]

theorem getUp_triple :
    (discipline n).Triple (.proc p) [.proc p] (fun _ s => Awake p s ∧ True)
      (update fun _ s => s.getUp p : Code n Unit) (fun _ => [.proc p])
      fun _ _ s => Awake p s ∧ True := by
  have hp : Lock.proc p ∈ [Lock.proc p] := List.mem_cons_self
  refine own_write_triple hp ((stable_awake hp).and Stable.true) fun s hs => ?_
  obtain ⟨hawake, -⟩ := hs
  have hothers : ∀ q, q ≠ p → (s.getUp p).proc q = s.proc q ∧ (s.getUp p).loop q = s.loop q := by
    intro q hq
    simp [Shared.getUp, hq]
  have hproc : (s.getUp p).proc p = { s.proc p with chan := none } := by simp [Shared.getUp]
  have hstate : ((s.getUp p).proc p).state = .running := by
    rw [hproc]
    exact hawake.1
  have hsleeping : ((s.getUp p).proc p).state ≠ .sleeping := by simp [hstate]
  refine ⟨hawake.1, ⟨⟨fun q hq => (hothers q hq).1, fun _ _ => rfl, fun q hq => (hothers q hq).2, rfl,
    rfl, rfl⟩, rfl, by rw [hproc], rfl, ?_, fun _ => by simp [hstate],
    ⟨?_, fun h => absurd h hsleeping⟩, fun _ h => absurd h hsleeping⟩, Or.inr (Or.inr hstate),
    ⟨hstate, hawake.2⟩, trivial⟩
  · intro chan' _ hb
    exact hb.imp id fun hasleep => absurd hasleep.1 hsleeping
  · intro h
    simp [Shared.getUp] at h

/-- **`sleep`** on what is not due, by a process that holds the lock of the
channel and no other. -/
theorem sleep_triple (chan : Chan) :
    (discipline n).Triple (.proc p) [chan.lock]
      (fun _ s => (Settled chan.lock s ∧ ¬ Due s chan) ∧ Prepared p chan s)
      (Code.sleep chan chan.lock : Code n Unit) (fun _ => [chan.lock])
      fun _ _ s => Settled chan.lock s := by
  have hl : chan.lock ∈ [chan.lock] := List.mem_cons_self
  have hearly : ∀ m ∈ [chan.lock], m.Early := by simpa using chan.lock_early
  have hstable : (discipline n).Stable (.proc p) [chan.lock]
      fun _ s => (Settled chan.lock s ∧ ¬ Due s chan) ∧ Prepared p chan s :=
    ((stable_settled hl).and (stable_not_due hl)).and mine_prepared.stable
  apply myproc_bind hstable
  refine (own_lock_triple hearly hstable).bind fun _ => ?_
  refine bind_triple.bind fun _ => ?_
  refine bound_release_triple.bind fun _ => ?_
  refine fallAsleep_triple.bind fun _ => ?_
  refine (sched_triple mine_true).bind fun _ => ?_
  refine getUp_triple.bind fun _ => ?_
  refine (own_unlock_triple mine_true).bind fun _ => ?_
  exact (lock_first_triple mine_true.stable).post fun _ h s _ hin =>
    chan.lock_early.lockInv_iff.mp hin.2.1

end Xv6
