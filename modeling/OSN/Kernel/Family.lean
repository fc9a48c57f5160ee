import OSN.Kernel.Switch

/-!
# The process tree

`exit`, `wait` and `fork` keep to the discipline.  Whoever holds `wait_lock`
hands on the children of a process before it becomes a ZOMBIE
(`reparent_triple`), and a process that goes to sleep in `wait` has seen under
`wait_lock` that none of its children is a ZOMBIE (`waitSlot_triple`).  The
slot that a `fork` is making is its own until it is RUNNABLE (`Taken`).
-/

namespace Xv6

open Threads Threads.Discipline
open Threads.Code (acquire release update)

variable {n : Nat} {t : Thread n} {X : List Lock} {A : Fin n → Shared n → Prop} {p q i r : Slot}
  {h h' : Fin n} {s s' : Shared n} {l : Lock} {M : Shared n → Prop} {f : Proc → Proc}
  {o : Option Slot}

/-- Code of a process that does not return: it ends in a jump. -/
abbrev Ends (p : Slot) (X : List Lock) (B : Shared n → Prop) (c : Code n Unit) : Prop :=
  (discipline n).Triple (.proc p) X (fun _ s => B s) c (fun _ => []) fun _ _ _ => False

theorem early_singleton (hl : l.Early) : ∀ m ∈ [l], m.Early := by
  simpa using hl

theorem wait_early : ∀ m ∈ [Lock.wait], m.Early := early_singleton (by decide)

/-- A process with early locks in hand is RUNNING. -/
theorem awake_of_here (hX : ∀ m ∈ X, m.Early) (hhere : (discipline n).Here (.proc p) h X s) :
    Awake p s :=
  hhere.2.2 (proc_notMem hX)

/-- The first lock of a process that counts on what is its own. -/
theorem process_lock_triple (hl : l.Early) (hM : Mine p M) :
    (discipline n).Triple (.proc p) [] (fun _ s => M s) (acquire l : Code n Unit) (fun _ => [l])
      fun _ _ s => Settled l s ∧ M s :=
  (lock_first_triple hM.stable).post fun _ _ _ _ hin => ⟨hl.lockInv_iff.mp hin.2.1, hin.1⟩

/-- The only lock of a process is given back. -/
theorem process_unlock_triple (hl : l.Early) (hM : Mine p M) :
    (discipline n).Triple (.proc p) [l] (fun _ s => Settled l s ∧ M s)
      (release l : Code n Unit) (fun _ => []) fun _ _ s => M s := by
  have hstable : (discipline n).Stable (.proc p) [l] fun _ s => Settled l s ∧ M s :=
    (stable_settled List.mem_cons_self).and hM.stable
  have hrelease := Triple.release (I := Input) (B := fun _ s => M s) hstable List.mem_cons_self
    fun h s hhere hs => ⟨hl.lockInv_iff.mpr hs.1,
      by simpa using on_nil (early_singleton hl) hhere.2, hs.2⟩
  simpa using hrelease

/-- `release(l)` and the return to user mode. -/
theorem leave_ends (hl : l.Early) : Ends p [l] (Settled l) (Code.leave l : Code n Unit) := by
  refine ((process_unlock_triple hl mine_true).pre fun h s _ hs => ⟨hs, trivial⟩).bind fun _ => ?_
  exact Triple.jump mine_true.stable fun h s _ _ => ⟨rfl, p, rfl⟩

/-! ### Ending processes -/

/-- A slot gets a parent, by those who hold `wait_lock`. -/
theorem Guar.setParent (hwait : .wait ∈ X) :
    Guar t X s (s.modifyProc i fun q => { q with parent := some r }) := by
  refine onlySlot_modifyProc.guar ⟨fun _ => ?_, fun chan _ hbound => ?_, fun hnot => absurd hwait hnot,
    fun _ => ⟨fun hrunning => ?_, rfl, rfl⟩, LoopKept.of_same ?_ ?_ rfl⟩ (fun _ _ => rfl)
    (fun _ _ _ _ => ?_) (onlySlot_modifyProc.reaps_none rfl fun hzombie => ?_)
  all_goals simp_all [BoundTo]

theorem SharedInv.setParent (hinv : SharedInv s) (hr : (s.proc r).state.Alive) :
    SharedInv (s.modifyProc i fun q => { q with parent := some r }) := by
  have hstate : ∀ q, ((s.modifyProc i fun q => { q with parent := some r }).proc q).state =
      (s.proc q).state := by
    intro q
    by_cases hq : q = i
    · simp [hq]
    · simp [hq]
  refine hinv.of_onlySlot onlySlot_modifyProc (fun _ _ _ hj => hj)
    ⟨fun q hq => (hstate i).trans (hinv.np_used q i hq), fun q q' => hinv.np_unique q q' i,
      fun halive => Or.inl ?_, fun r' hr' => Or.inr ?_, fun _ _ _ => by simp, fun chan => ?_⟩
  · rwa [hstate]
  · obtain rfl : r = r' := by simpa using hr'
    rwa [hstate]
  · simpa using hinv.looped i chan

/-- Nobody is due any more than before but the new parent. -/
theorem Settled.setParent (hsettled : Settled .wait s) :
    SettledBut .wait (.proc r) (s.modifyProc i fun q => { q with parent := some r }) := by
  intro chan q hl hne hdue hbound
  have hbound' : BoundTo q chan s := by
    by_cases hq : q = i
    · subst hq
      simpa [BoundTo] using hbound
    · simpa [BoundTo, hq] using hbound
  refine hsettled chan q hl ?_ hbound'
  cases chan with
  | proc p =>
      obtain ⟨c, hparent, hzombie⟩ := hdue
      have hci : c ≠ i := by
        intro heq
        subst heq
        have hrp : r = p := by simpa using hparent
        exact hne (by rw [hrp])
      exact ⟨c, by simpa [hci] using hparent, by simpa [hci] using hzombie⟩
  | ticks | nread | nwrite | consR | condition | other => exact hdue

/-- No slot but those of the list has the process as its parent. -/
def ChildrenIn (p : Slot) (rest : List Slot) (s : Shared n) : Prop :=
  ∀ q, q ∉ rest → (s.proc q).parent ≠ some p

theorem stable_childrenIn (hwait : .wait ∈ X) (rest : List Slot) :
    (discipline n).Stable t X fun _ s => ChildrenIn p rest s :=
  stable_held hwait fun _ _ hkept hs q hq hparent => hs q hq ((hkept.family rfl q).parent p hparent)

/-- `pp->parent = initproc; wakeup(initproc);` -/
theorem adopt_triple (hp : p ≠ initproc) (pp : Slot) (rest : List Slot) :
    (discipline n).Triple (.proc p) [.wait]
      (fun _ s => ChildrenIn p (pp :: rest) s ∧ Settled .wait s)
      (do Code.setProc pp fun q => { q with parent := some initproc }
          Code.wakeup (some (.proc initproc)) : Code n Unit) (fun _ => [.wait])
      fun _ _ s => ChildrenIn p rest s ∧ Settled .wait s := by
  have hwait : Lock.wait ∈ [Lock.wait] := List.mem_cons_self
  refine Triple.bind (Z := fun _ => [.wait])
    (P := fun _ _ s => ChildrenIn p rest s ∧ SettledBut .wait (.proc initproc) s) ?_ fun _ => ?_
  · refine Triple.update ((stable_childrenIn hwait _).and (stable_settled hwait))
      fun h s hhere hs => ?_
    refine ⟨Guar.setParent hwait, ⟨hhere.1.setParent hhere.1.init_alive, hhere.2.1, ?_⟩,
      ?_, hs.2.setParent⟩
    · intro _
      have hawake := awake_of_here wait_early hhere
      by_cases hpp : p = pp
      · subst hpp
        simpa [Awake] using hawake
      · simpa [Awake, hpp] using hawake
    · intro c hc hparent
      by_cases hcpp : c = pp
      · subst hcpp
        exact hp (by simpa using hparent.symm)
      · exact hs.1 c (by simp [hcpp, hc]) (by simpa [hcpp] using hparent)
  · exact settle_triple (.proc initproc) wait_early hwait (stable_childrenIn hwait rest)
      fun h s hhere _ => on_nil wait_early hhere.2

/-- **`reparent`** leaves the process without children. -/
theorem reparent_triple (hp : p ≠ initproc) :
    (discipline n).Triple (.proc p) [.wait] (fun _ s => Settled .wait s)
      (Code.reparent p : Code n Unit) (fun _ => [.wait])
      fun _ _ s => ChildrenIn p [] s ∧ Settled .wait s := by
  have hwait : Lock.wait ∈ [Lock.wait] := List.mem_cons_self
  have hloop : (discipline n).Triple (.proc p) [.wait]
      (fun _ s => ChildrenIn p Code.table s ∧ Settled .wait s)
      (Code.reparent p : Code n Unit) (fun _ => [.wait])
      fun _ _ s => ChildrenIn p [] s ∧ Settled .wait s := by
    refine Triple.forM_rest (P := fun rest _ s => ChildrenIn p rest s ∧ Settled .wait s)
      fun pp rest => ?_
    refine (Triple.read (discipline_laws n) ((stable_childrenIn hwait (pp :: rest)).and
      (stable_settled hwait)) _).bind fun q => ?_
    refine Triple.when (fun _ => (adopt_triple hp pp rest).pre fun h s _ hs => hs.1)
      fun hother h s _ hs => ⟨fun c hc => ?_, hs.1.2⟩
    by_cases hcpp : c = pp
    · rw [hcpp, ← hs.2]
      exact hother
    · exact hs.1.1 c (by simp [hcpp, hc])
  exact hloop.pre fun h s _ hs => ⟨fun q hq => absurd (List.mem_finRange q) hq, hs⟩

/-- Nobody sleeps in `wait` for the process. -/
def Unawaited (p : Slot) (s : Shared n) : Prop :=
  ∀ r, (s.proc p).parent = some r → ∀ q, ¬ BoundTo q (.proc r) s

theorem stable_unawaited (hwait : .wait ∈ X) :
    (discipline n).Stable t X fun _ s => Unawaited p s :=
  stable_held hwait fun _ _ hkept hs r hr q hbound =>
    hs r ((hkept.family rfl p).parent r hr) q (hkept.calm (.proc r) q rfl hbound)

/-- `wakeup(p->parent)`, where `c` comes next. -/
theorem wakeup_parent_bind {B : Shared n → Prop} {c : Code n Unit} {Y : Unit → List Lock}
    {P : Unit → Fin n → Shared n → Prop}
    (hB : (discipline n).Stable (.proc p) [.wait] fun _ s => B s)
    (hc : (discipline n).Triple (.proc p) [.wait] (fun _ s => B s ∧ Unawaited p s) c Y P) :
    (discipline n).Triple (.proc p) [.wait] (fun _ s => B s)
      (do Code.wakeup ((← Code.getProc p).parent.map .proc); c : Code n Unit) Y P := by
  have hwait : Lock.wait ∈ [Lock.wait] := List.mem_cons_self
  refine (Triple.read (discipline_laws n) hB _).bind fun q => ?_
  -- the parent may be lost meanwhile, but not change
  have hparent : (discipline n).Stable (.proc p) [.wait]
      fun _ s => B s ∧ ∀ r, (s.proc p).parent = some r → q.parent = some r :=
    hB.and (stable_held hwait fun s s' hkept hs r hr => hs r ((hkept.family rfl p).parent r hr))
  refine Triple.pre (A := fun _ s => B s ∧ ∀ r, (s.proc p).parent = some r → q.parent = some r) ?_
    fun h s _ hs => ⟨hs.1, fun r hr => hs.2 ▸ hr⟩
  refine Triple.bind (Z := fun _ => [.wait]) (P := fun _ _ s => B s ∧ Unawaited p s) ?_ fun _ => hc
  cases hq : q.parent with
  | none =>
      rw [hq] at hparent
      refine (wakeup_quiet wait_early _ _ hparent).post fun _ h s _ hs => ⟨hs.1, fun r hr => ?_⟩
      exact absurd (hs.2 r hr) nofun
  | some r =>
      rw [hq] at hparent
      refine (wakeup_triple (.proc r) wait_early hwait hparent fun h s hhere _ =>
        on_nil wait_early hhere.2).post fun _ h s _ hs => ⟨hs.1.1, fun r' hr' => ?_⟩
      obtain rfl : r = r' := Option.some.inj (hs.1.2 r' hr')
      exact hs.2

/-- The last write of `exit`, with both locks held. -/
theorem exitProc_triple (hp : p ≠ initproc) (now : UInt32) (status : Int) :
    (discipline n).Triple (.proc p) [.proc p, .wait]
      (fun _ s => Awake p s ∧ (ChildrenIn p [] s ∧ Settled .wait s) ∧ Unawaited p s)
      (Code.setProc p (exitProc now status) : Code n Unit) (fun _ => [.proc p, .wait])
      fun _ _ s => Leaving p s ∧ Settled .wait s := by
  have hmem : Lock.proc p ∈ [Lock.proc p, .wait] := List.mem_cons_self
  have hwait : Lock.wait ∈ [Lock.proc p, .wait] := by simp
  refine Triple.update ((stable_awake hmem).and (((stable_childrenIn hwait []).and
    (stable_settled hwait)).and (stable_unawaited hwait))) fun h s hhere hs => ?_
  obtain ⟨⟨hrunning, hbound⟩, ⟨hchildless, hsettled⟩, hunawaited⟩ := hs
  have hself : (s.modifyProc p (exitProc now status)).proc p = exitProc now status (s.proc p) :=
    Shared.modifyProc_proc_self
  have hstate : ((s.modifyProc p (exitProc now status)).proc p).state = .zombie := by
    rw [hself]
    rfl
  have hparent : ∀ q, ((s.modifyProc p (exitProc now status)).proc q).parent =
      (s.proc q).parent := by
    intro q
    by_cases hq : q = p
    · subst hq
      rw [hself]
      rfl
    · rw [Shared.modifyProc_proc_of_ne hq]
  have hbefore : ∀ chan q, BoundTo q chan (s.modifyProc p (exitProc now status)) →
      BoundTo q chan s := by
    intro chan q hb
    by_cases hq : q = p
    · subst hq
      exact hb.imp id fun hasleep => absurd (hasleep.1.symm.trans hstate) (by decide)
    · simpa [BoundTo, hq] using hb
  have hwrite : OwnWrite p [.proc p, .wait] s (s.modifyProc p (exitProc now status)) :=
    ⟨onlySlot_modifyProc, rfl, hparent p, rfl, fun chan _ => hbefore chan p,
      fun hnot => absurd hwait hnot, ⟨fun hloop => Or.inl hloop,
      fun hsleeping => absurd (hsleeping.symm.trans hstate) (by decide)⟩,
      fun _ hsleeping => absurd (hsleeping.symm.trans hstate) (by decide)⟩
  have hnone : ∀ q, s.np q ≠ some p := fun q hq =>
    absurd ((hhere.1.np_used q p hq).symm.trans hrunning) (by decide)
  have hinv : SharedInv (s.modifyProc p (exitProc now status)) := by
    refine hhere.1.of_onlySlot onlySlot_modifyProc (fun _ _ _ hj => hj)
      ⟨fun q hq => absurd hq (hnone q), fun q _ hq => absurd hq (hnone q),
        fun _ => Or.inr ⟨hp, fun q => hchildless q List.not_mem_nil⟩,
        fun r hr => Or.inl (hparent p ▸ hr), fun hinit _ _ => ?_,
        fun chan hsleeping => absurd (hsleeping.symm.trans hstate) (by decide)⟩
    rw [hparent]
    exact hhere.1.has_parent p hinit (by simp [hrunning]) (by simp [hrunning])
  refine ⟨hwrite.guar hmem hrunning, ⟨hinv, hhere.2.1, fun hnot => absurd hmem hnot⟩,
    ⟨by rw [hstate]; decide, hbound⟩, ?_⟩
  intro chan q hl hdue hb
  -- what is due now was so before, or waits for this process
  cases chan with
  | proc r =>
      obtain ⟨c, hc, hzombie⟩ := hdue
      rw [hparent] at hc
      by_cases hcp : c = p
      · subst hcp
        exact hunawaited r hc q (hbefore _ q hb)
      · rw [Shared.modifyProc_proc_of_ne hcp] at hzombie
        exact hsettled (.proc r) q rfl ⟨c, hc, hzombie⟩ (hbefore _ q hb)
  | ticks | nread | nwrite | consR | other => exact hdue
  | condition => cases hl

/-- `release(&wait_lock)` in `exit`. -/
theorem exit_release_triple :
    (discipline n).Triple (.proc p) [.proc p, .wait] (fun _ s => Leaving p s ∧ Settled .wait s)
      (release .wait : Code n Unit) (fun _ => [.proc p]) fun _ _ s => Leaving p s ∧ True := by
  have hstable : (discipline n).Stable (.proc p) [.proc p, .wait]
      fun _ s => Leaving p s ∧ Settled .wait s :=
    (stable_leaving List.mem_cons_self).and (stable_settled (by simp))
  have hrelease := Triple.release (I := Input) (l := .wait)
    (B := fun _ s => Leaving p s ∧ True) hstable (by simp) fun h s hhere hs =>
    ⟨hs.2, ?_, hs.1, trivial⟩
  · rwa [List.erase_cons_tail (by simp), List.erase_cons_head] at hrelease
  · rw [List.erase_cons_tail (by simp), List.erase_cons_head]
    exact ⟨hhere.2.1, fun hnot => absurd List.mem_cons_self hnot⟩

/-- **`exit`** does not come back. -/
theorem exit_ends (status : Int) : Ends p [] (fun _ => True) (Code.exit status : Code n Unit) := by
  apply myproc_bind Stable.true
  simp only
  split
  case isTrue => exact Triple.hang trivial
  case isFalse hinit =>
      have hmem : Lock.proc p ∈ [Lock.proc p, .wait] := List.mem_cons_self
      have hwait : Lock.wait ∈ [Lock.proc p, .wait] := by simp
      have hfamily : ∀ Y, .wait ∈ Y → (discipline n).Stable (.proc p) Y
          fun _ s => (ChildrenIn p [] s ∧ Settled .wait s) ∧ Unawaited p s :=
        fun Y hY => ((stable_childrenIn hY []).and (stable_settled hY)).and (stable_unawaited hY)
      refine (process_lock_triple (by decide) mine_true).bind fun _ => ?_
      refine ((reparent_triple hinit).pre fun h s _ hs => hs.1).bind fun _ => ?_
      refine wakeup_parent_bind ((stable_childrenIn List.mem_cons_self []).and
        (stable_settled List.mem_cons_self)) ?_
      refine (own_lock_triple wait_early (hfamily _ List.mem_cons_self)).bind fun _ => ?_
      refine (quiet_read _ _ ((stable_awake hmem).and (hfamily _ hwait))).bind fun now => ?_
      refine (exitProc_triple hinit now status).bind fun _ => ?_
      refine exit_release_triple.bind fun _ => ?_
      exact (sched_triple mine_true).bind fun _ => Triple.hang trivial

theorem exitIfKilled_triple :
    (discipline n).Triple (.proc p) [] (fun _ _ => True) (Code.exitIfKilled p : Code n Unit)
      (fun _ => []) fun _ _ _ => True := by
  refine (quiet_read _ _ Stable.true).bind fun q => ?_
  exact Triple.when (fun _ => (exit_ends (-1)).post fun _ _ _ _ => False.elim) fun _ _ _ _ hs => hs

/-! ### Waiting for children -/

/-- The test of `killed` by a process that is going to sleep if it fails. -/
theorem testKilled_triple {B : Shared n → Prop} {sleeps : Shared n → Bool} (hX : ∀ m ∈ X, m.Early)
    (hB : (discipline n).Stable (.proc p) X fun _ s => B s)
    (hloop : ∀ s loop, B s → B (s.setLoop p loop))
    (hsleeps : ∀ s loop, sleeps (s.setLoop p loop) = sleeps s) :
    (discipline n).Triple (.proc p) X (fun _ s => B s) (Code.testKilled p sleeps : Code n Bool)
      (fun _ => X) fun killed _ s => B s ∧ (killed = false → sleeps s = true → s.loop p = .tested) := by
  refine Triple.modifyGet hB fun h s hhere hs => ?_
  obtain ⟨hrunning, -⟩ := awake_of_here hX hhere
  have hawake : ∀ loop, ((s.setLoop p loop).proc p).state ≠ .sleeping := by simp [hrunning]
  have hguar : ∀ loop, (loop = .tested → (s.proc p).killed = 0) →
      Guar (.proc p) X s (s.setLoop p loop) := by
    intro loop htested
    have honly : OnlySlot p s (s.setLoop p loop) :=
      ⟨fun _ _ => rfl, fun _ _ => rfl, fun q hq => by simp [hq], rfl, rfl, rfl⟩
    refine honly.guar ⟨fun _ => ⟨rfl, rfl, rfl⟩, fun _ _ hbound => hbound,
      fun _ => ⟨fun _ hr => hr, Iff.rfl, fun _ => rfl⟩, fun hne => absurd rfl hne,
      ⟨fun hnow => Or.inr (htested ?_), fun hsleeping => absurd hsleeping (hawake loop)⟩⟩
      (fun _ _ => rfl) (fun _ _ _ hparent => hparent) (honly.reaps_none rfl id)
    simpa using hnow
  have hinv : ∀ loop, SharedInv (s.setLoop p loop) := by
    intro loop
    obtain ⟨hhart, hused, hunique, hinit, halive, hparent, hlooped⟩ := hhere.1
    refine ⟨hhart, hused, hunique, hinit, halive, hparent, ?_⟩
    intro q chan hsleeping hchan htested
    have hq : q ≠ p := by
      intro heq
      subst heq
      exact hawake loop hsleeping
    simpa [hq] using hlooped q chan hsleeping hchan htested
  refine ⟨hguar _ fun htested => ?_, ⟨hinv _, hhere.2⟩, hloop s _ hs, ?_⟩
  · split at htested
    case isTrue htest => exact htest.1
    case isFalse => cases htested
  · intro hkilled hsleep
    rw [hsleeps] at hsleep
    simpa [hsleep] using hkilled

/-- No child of the process is a ZOMBIE, unless it is in the list. -/
def NoZombieBut (p : Slot) (rest : List Slot) (s : Shared n) : Prop :=
  ∀ q, q ∉ rest → (s.proc q).parent = some p → (s.proc q).state ≠ .zombie

theorem stable_noZombieBut (hwait : .wait ∈ X) (rest : List Slot) :
    (discipline n).Stable t X fun _ s => NoZombieBut p rest s := by
  refine stable_held hwait fun s s' hkept hs q hq hparent hzombie => ?_
  have hfamily := hkept.family rfl q
  exact hs q hq (hfamily.parent p hparent) (hfamily.zombie.mp hzombie)

theorem NoZombieBut.visit {rest : List Slot} (hs : NoZombieBut p (i :: rest) s)
    (hi : (s.proc i).parent = some p → (s.proc i).state ≠ .zombie) : NoZombieBut p rest s := by
  intro q hq
  by_cases hqi : q = i
  · subst hqi
    exact hi
  · exact hs q (by simp [hqi, hq])

/-- A ZOMBIE child of process `p`. -/
def ZombieChild (p i : Slot) (s : Shared n) : Prop :=
  (s.proc i).parent = some p ∧ (s.proc i).state = .zombie

theorem stable_zombieChild (hwait : .wait ∈ X) :
    (discipline n).Stable t X fun _ s => ZombieChild p i s := by
  refine stable_held hwait fun s s' hkept hs => ?_
  have hfamily := hkept.family rfl i
  exact ⟨(hfamily.orphan hs.2).trans hs.1, hfamily.zombie.mpr hs.2⟩

theorem reap_only : OnlySlot i s (s.reap i p) :=
  ⟨fun _ hq => Shared.modifyProc_proc_of_ne hq, fun _ _ => rfl, fun _ _ => rfl, rfl, rfl, rfl⟩

section Reap

variable (hchild : ZombieChild p i s)
include hchild

theorem reap_before (c : Slot) :
    (((s.reap i p).proc c).state ≠ .unused → c ≠ i) ∧
      (c ≠ i → (s.reap i p).proc c = s.proc c) := by
  refine ⟨?_, fun hc => Shared.modifyProc_proc_of_ne hc⟩
  intro hused heq
  subst heq
  apply hused
  show ((s.modifyProc c freeproc).proc c).state = .unused
  rw [Shared.modifyProc_proc_self]
  rfl

/-- With `wait_lock` and the lock of the child the parent may free it. -/
theorem Guar.reap (hi : .proc i ∈ X) (hwait : .wait ∈ X) (hinv : SharedInv s) :
    Guar (.proc p) X s (s.reap i p) := by
  have hself : (s.reap i p).proc i = freeproc (s.proc i) := Shared.modifyProc_proc_self
  have hnot : ∀ v, v ≠ .unused → ((s.reap i p).proc i).state ≠ v := by
    intro v hv
    rw [hself]
    exact Ne.symm hv
  refine reap_only.guar ⟨fun h => absurd hi h, fun chan _ hbound => ?_, fun h => absurd hwait h,
    fun _ => ⟨fun hrunning => ?_, rfl, rfl⟩, fun h => Or.inl h, fun hsleeping => ?_⟩ (fun _ _ => rfl)
    (fun q _ hq => ?_) (Or.inr ⟨i, p, rfl, rfl, hchild.1, hchild.2, ?_, fun q hq hzombie => ?_⟩)
  · exact hbound.imp id fun hasleep => absurd hasleep.1 (hnot .sleeping (by decide))
  · exact absurd (hchild.2.symm.trans hrunning) (by decide)
  · exact absurd hsleeping (hnot .sleeping (by decide))
  · exact absurd (hchild.2.symm.trans (hinv.np_used q i hq)) (by decide)
  · rw [hself]
    rfl
  · rwa [reap_only.proc q hq]

theorem SharedInv.reap (hinv : SharedInv s) : SharedInv (s.reap i p) := by
  have hself : (s.reap i p).proc i = freeproc (s.proc i) := Shared.modifyProc_proc_self
  have hnone : ∀ q, s.np q ≠ some i := fun q hq =>
    absurd (hchild.2.symm.trans (hinv.np_used q i hq)) (by decide)
  have hdead : ¬ (s.proc i).state.Alive := by
    rw [hchild.2]
    decide
  have hunused : ((s.reap i p).proc i).state = .unused := by
    rw [hself]
    rfl
  refine hinv.of_onlySlot reap_only (fun _ _ _ hj => hj)
    ⟨fun q hq => absurd hq (hnone q), fun q _ hq => absurd hq (hnone q),
      fun halive => absurd halive hdead, fun r hr => ?_, fun _ hnot => absurd hunused hnot,
      fun chan hsleeping => ?_⟩
  · rw [hself] at hr
    cases hr
  · exact absurd (hsleeping.symm.trans hunused) (by decide)

theorem Settled.reap (hsettled : Settled .wait s) : Settled .wait (s.reap i p) := by
  have hbefore := reap_before hchild
  intro chan q hl hdue hbound
  refine hsettled chan q hl ?_ ?_
  · cases chan with
    | proc r =>
        obtain ⟨c, hparent, hzombie⟩ := hdue
        have hci := (hbefore c).1 (by simp [hzombie])
        rw [(hbefore c).2 hci] at hparent hzombie
        exact ⟨c, hparent, hzombie⟩
    | ticks | nread | nwrite | consR | other => exact hdue
    | condition => cases hl
  · refine hbound.imp id fun hasleep => ?_
    have hqi := (hbefore q).1 (by simp [hasleep.1])
    rwa [(hbefore q).2 hqi] at hasleep

end Reap

/-- **`freeproc` in `wait`.** -/
theorem reap_triple :
    (discipline n).Triple (.proc p) [.proc i, .wait]
      (fun h s => Inside (.proc p) [.wait] (.proc i) (fun _ s => Settled .wait s) h s ∧
        ZombieChild p i s)
      (update fun _ s => s.reap i p : Code n Unit) (fun _ => [.proc i, .wait])
      fun _ => Inside (.proc p) [.wait] (.proc i) fun _ s => Settled .wait s := by
  have hi : Lock.proc i ∈ [Lock.proc i, .wait] := List.mem_cons_self
  have hwait : Lock.wait ∈ [Lock.proc i, .wait] := by simp
  refine Triple.update ((stable_inside (stable_settled List.mem_cons_self)).and
    (stable_zombieChild hwait)) fun h s hhere hs => ?_
  obtain ⟨⟨hsettled, hproc, hon⟩, hchild⟩ := hs
  have hinv : ProcInv i s := hproc
  have hon' : (discipline n).on (.proc p) h [.wait] (s.reap i p) := by
    obtain ⟨hrunning, hbound⟩ := hon.2 (by simp)
    have hpi : p ≠ i := by
      intro heq
      subst heq
      exact absurd (hchild.2.symm.trans hrunning) (by decide)
    refine ⟨hon.1, fun _ => ⟨?_, hbound⟩⟩
    rwa [(reap_before hchild p).2 hpi]
  have hself : (s.reap i p).proc i = freeproc (s.proc i) := Shared.modifyProc_proc_self
  refine ⟨Guar.reap hchild hi hwait hhere.1, ⟨hhere.1.reap hchild,
    (discipline_laws n).on_acquire _ hon'⟩, hsettled.reap hchild, ⟨?_, hinv.bound⟩, hon'⟩
  rw [hself]
  refine iff_of_false (by simp [freeproc]) fun hhost => ?_
  exact absurd (hchild.2.symm.trans (hinv.running.mpr hhost)) (by decide)

/-- One step of the search: a ZOMBIE is reaped, and any other child is none. -/
theorem waitSlot_triple (havekids : Bool) (rest : List Slot) :
    (discipline n).Triple (.proc p) [.wait]
      (fun _ s => NoZombieBut p (i :: rest) s ∧ Settled .wait s)
      (Code.waitSlot p havekids i : Code n Bool) (fun _ => [.wait])
      fun _ _ s => NoZombieBut p rest s ∧ Settled .wait s := by
  have hwait : Lock.wait ∈ [Lock.wait] := List.mem_cons_self
  have hstable : ∀ rest : List Slot, (discipline n).Stable (.proc p) [.wait]
      fun _ s => NoZombieBut p rest s ∧ Settled .wait s :=
    fun rest => (stable_noZombieBut hwait rest).and (stable_settled hwait)
  refine (Triple.read (discipline_laws n) (hstable (i :: rest)) _).bind fun q => ?_
  split
  case isTrue hparent =>
      -- the child may have gone meanwhile, but not if it is a ZOMBIE
      have hmine : (discipline n).Stable (.proc p) [.wait] fun _ s =>
          (NoZombieBut p (i :: rest) s ∧ Settled .wait s) ∧
            ((s.proc i).state = .zombie → (s.proc i).parent = some p) := by
        refine (hstable (i :: rest)).and (stable_held hwait fun s s' hkept hs hzombie => ?_)
        have hfamily := hkept.family rfl i
        have hzombie' := hfamily.zombie.mp hzombie
        exact (hfamily.orphan hzombie').trans (hs hzombie')
      refine Triple.pre (A := fun _ s => (NoZombieBut p (i :: rest) s ∧ Settled .wait s) ∧
        ((s.proc i).state = .zombie → (s.proc i).parent = some p)) ?_
        fun h s _ hs => ⟨hs.1, fun _ => hs.2 ▸ hparent⟩
      refine (lock_triple hmine fun m hm => (wait_early m hm).rank_lt).bind fun _ => ?_
      refine (Triple.read (discipline_laws n) (stable_inside hmine) _).bind fun q => ?_
      split
      case isTrue hzombie =>
          refine Triple.pre (A := fun h s => Inside (.proc p) [.wait] (.proc i)
            (fun _ s => Settled .wait s) h s ∧ ZombieChild p i s) ?_ fun h s _ hs => ?_
          · refine Triple.ask.bind fun input => ?_
            refine Triple.bind (Triple.when (fun _ => reap_triple) fun _ h s _ hs => hs.1) fun _ => ?_
            refine (unlock_triple (stable_settled hwait)).bind fun _ => ?_
            refine ((process_unlock_triple (by decide) mine_true).pre fun h s _ hs =>
              ⟨hs, trivial⟩).bind fun _ => ?_
            exact Triple.jump mine_true.stable fun h s _ _ => ⟨rfl, p, rfl⟩
          · have hstate : (s.proc i).state = .zombie := hs.2 ▸ hzombie
            exact ⟨⟨hs.1.1.1.2, hs.1.2⟩, hs.1.1.2 hstate, hstate⟩
      case isFalse hother =>
          refine Triple.pre (A := Inside (.proc p) [.wait] (.proc i)
            fun _ s => NoZombieBut p rest s ∧ Settled .wait s) ?_ fun h s _ hs => ?_
          · exact (unlock_triple (hstable rest)).bind fun _ =>
              Triple.pure (P := fun _ _ s => NoZombieBut p rest s ∧ Settled .wait s) true
          · exact ⟨⟨hs.1.1.1.1.visit fun _ => hs.2 ▸ hother, hs.1.1.1.2⟩, hs.1.2⟩
  case isFalse hother =>
      exact (Triple.pure (P := fun _ _ s => NoZombieBut p rest s ∧ Settled .wait s) havekids).pre
        fun h s _ hs => ⟨hs.1.1.visit fun hparent => absurd (hs.2 ▸ hparent) hother, hs.1.2⟩

/-- The body of the `for(;;)` of `wait` goes to sleep only when no child is a
ZOMBIE. -/
theorem waitLoop_ends : Ends p [.wait] (Settled .wait) (Code.waitLoop : Code n Unit) := by
  have hwait : Lock.wait ∈ [Lock.wait] := List.mem_cons_self
  have hstable : (discipline n).Stable (.proc p) [.wait]
      fun _ s => NoZombieBut p [] s ∧ Settled .wait s :=
    (stable_noZombieBut hwait []).and (stable_settled hwait)
  apply myproc_bind (stable_settled hwait)
  refine Triple.bind ((Triple.foldlM (Y := fun _ _ => [Lock.wait])
    (P := fun rest _ _ s => NoZombieBut p rest s ∧ Settled .wait s)
    (fun i rest havekids _ => waitSlot_triple havekids rest) false).pre
      fun h s _ hs => ⟨fun q hq => absurd (List.mem_finRange q) hq, hs⟩) fun havekids => ?_
  split
  · exact (leave_ends (by decide)).pre fun h s _ hs => hs.2
  · refine (testKilled_triple wait_early hstable (fun _ _ hs => hs) fun _ _ => rfl).bind
      fun killed => ?_
    split
    · exact (leave_ends (by decide)).pre fun h s _ hs => hs.1.2
    case isFalse hkilled =>
        refine ((sleep_triple (.proc p)).pre fun h s _ hs =>
          ⟨⟨hs.1.2, fun hdue => ?_⟩, fun _ => hs.2 (by simpa using hkilled) rfl⟩).bind fun _ => ?_
        · obtain ⟨q, hparent, hzombie⟩ := hdue
          exact hs.1.1 q List.not_mem_nil hparent hzombie
        · exact Triple.jump (stable_settled hwait) fun h s _ hs => ⟨rfl, ⟨p, rfl⟩, hs⟩

theorem wait_ends : Ends p [] (fun _ => True) (Code.wait : Code n Unit) := by
  refine (process_lock_triple (by decide) mine_true).bind fun _ => ?_
  exact Triple.jump ((stable_settled List.mem_cons_self).and mine_true.stable) fun h s _ hs =>
    ⟨rfl, ⟨p, rfl⟩, hs.1⟩

end Xv6
