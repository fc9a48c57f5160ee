import OSN.Kernel.Family

/-!
# Making processes

`allocproc` and `fork` keep to the discipline.  The slot that a process takes
in `allocproc` is its own, its `np`, until it is RUNNABLE: nobody else runs it,
reaps it or gives it another parent (`Taken`), and the child may run only when
it has its parent (`start_child_triple`).
-/

namespace Xv6

open Threads Threads.Discipline
open Threads.Code (release update prepare)

variable {n : Nat} {t : Thread n} {X : List Lock} {p i : Slot} {h : Fin n} {s s' : Shared n}
  {f : Proc → Proc} {o : Option Slot}

theorem allocpid_quiet (hX : ∀ m ∈ X, m.rank < Lock.rank .pid) :
    (discipline n).Quiet t X (Code.allocpid : Code n Int) := by
  intro A hA
  refine (lock_triple hA hX).bind fun _ => ?_
  refine (quiet_read _ _ (stable_inside hA)).bind fun pid => ?_
  refine (unseen_quiet (fun h s _ => ?_) _ (stable_inside hA)).bind fun _ => ?_
  · exact ⟨⟨fun _ => rfl, fun _ => rfl, fun _ => rfl, rfl, rfl, rfl, rfl, rfl, rfl, rfl⟩,
      fun _ _ => rfl⟩
  · exact (unlock_triple hA).bind fun _ => Triple.pure (P := fun _ => A) pid

/-- A slot that is no process yet, and that no hart runs. -/
def Vacant (i : Slot) (s : Shared n) : Prop :=
  (s.proc i).state = .unused ∧ s.bound i = none ∧ Unhosted i s

theorem stable_vacant (hi : .proc i ∈ X) : (discipline n).Stable t X fun _ s => Vacant i s :=
  stable_slot hi fun _ _ hkept hs =>
    ⟨hkept.state.trans hs.1, hkept.bound.trans hs.2.1, fun h hh => hs.2.2 h ((hkept.cpu h).mp hh)⟩

/-- What `fork` knows of the slot it has taken. -/
def Taken (p i : Slot) (s : Shared n) : Prop :=
  s.np p = some i ∧ s.bound i = none ∧ Unhosted i s

theorem mine_np (o : Option Slot) : Mine p fun s : Shared n => s.np p = o :=
  fun _ _ hown hs => hown.np.trans hs

theorem stable_taken (hi : .proc i ∈ X) : (discipline n).Stable (.proc p) X fun _ s => Taken p i s :=
  (mine_np (some i)).stable.and (stable_slot hi fun _ _ hkept hs =>
    ⟨hkept.bound.trans hs.1, fun h hh => hs.2 h ((hkept.cpu h).mp hh)⟩)

/-- What a process may make of a slot `i` with the lock of the slot in hand, when
its `np` becomes `o`. -/
structure Makes (p i : Slot) (o : Option Slot) (f : Proc → Proc) (s : Shared n) : Prop where
  before : (s.proc i).state = .unused ∨ (s.proc i).state = .used
  others : ∀ q, q ≠ p → s.np q ≠ some i
  after : (f (s.proc i)).state = .unused ∨ (f (s.proc i)).state = .used ∨
    (f (s.proc i)).state = .runnable ∧ (f (s.proc i)).parent ≠ none
  parent : ∀ r, (f (s.proc i)).parent = some r → (s.proc i).parent = some r
  np : ∀ j ∈ o, j = i ∧ (f (s.proc i)).state = .used

namespace Makes

theorem only : OnlySlot i s ((s.modifyProc i f).setNp p o) :=
  ⟨fun _ hq => Shared.modifyProc_proc_of_ne hq, fun _ _ => rfl, fun _ _ => rfl, rfl, rfl, rfl⟩

variable (hmakes : Makes p i o f s)
include hmakes

theorem before_ne {v : ProcState} (hunused : v ≠ .unused) (hused : v ≠ .used) :
    (s.proc i).state ≠ v := by
  rcases hmakes.before with h | h
  · exact h ▸ Ne.symm hunused
  · exact h ▸ Ne.symm hused

theorem after_ne {v : ProcState} (hunused : v ≠ .unused) (hused : v ≠ .used)
    (hrunnable : v ≠ .runnable) : (f (s.proc i)).state ≠ v := by
  rcases hmakes.after with h | h | ⟨h, -⟩
  · exact h ▸ Ne.symm hunused
  · exact h ▸ Ne.symm hused
  · exact h ▸ Ne.symm hrunnable

theorem guar (hi : .proc i ∈ X) : Guar (.proc p) X s ((s.modifyProc i f).setNp p o) := by
  have hself : ((s.modifyProc i f).setNp p o).proc i = f (s.proc i) := Shared.modifyProc_proc_self
  have hnot : (((s.modifyProc i f).setNp p o).proc i).state ≠ .sleeping := by
    rw [hself]
    exact hmakes.after_ne (by decide) (by decide) (by decide)
  have hzombie := hmakes.before_ne (v := .zombie) (by decide) (by decide)
  refine only.guar ⟨fun h => absurd hi h, fun chan _ hbound => ?_, fun _ => ⟨fun r hr => ?_, ?_, ?_⟩,
    fun _ => ⟨fun hrunning => ?_, rfl, rfl⟩, fun h => Or.inl h, fun hsleeping => absurd hsleeping hnot⟩
    (fun q hq => ?_) (fun q hq hnp => ?_) (only.reaps_none rfl fun h => absurd h hzombie)
  · exact hbound.imp id fun hasleep => absurd hasleep.1 hnot
  · exact hmakes.parent r (hself ▸ hr)
  · rw [hself]
    exact iff_of_false (hmakes.after_ne (by decide) (by decide) (by decide)) hzombie
  · exact fun h => absurd h hzombie
  · exact absurd hrunning (hmakes.before_ne (by decide) (by decide))
  · have hqp : q ≠ p := by
      intro heq
      subst heq
      exact hq rfl
    simp [hqp]
  · refine absurd hnp (hmakes.others q ?_)
    intro heq
    subst heq
    exact hq rfl

theorem inv (hinv : SharedInv s) : SharedInv ((s.modifyProc i f).setNp p o) := by
  have hself : ((s.modifyProc i f).setNp p o).proc i = f (s.proc i) := Shared.modifyProc_proc_self
  have hmine : ∀ q, ((s.modifyProc i f).setNp p o).np q = some i → q = p := by
    intro q hq
    by_contra hne
    exact hmakes.others q hne (by simpa [hne] using hq)
  have hdead : ¬ (s.proc i).state.Alive := by
    rcases hmakes.before with h | h <;> rw [h] <;> decide
  refine hinv.of_onlySlot only (fun q j hj hq => ?_) ⟨fun q hq => ?_,
    fun q q' hq hq' => (hmine q hq).trans (hmine q' hq').symm, fun halive => absurd halive hdead,
    fun r hr => Or.inl (hmakes.parent r (hself ▸ hr)), fun _ hunused hused => ?_,
    fun chan hsleeping => ?_⟩
  · by_cases hqp : q = p
    · obtain ⟨hji, -⟩ := hmakes.np j (by simpa [hqp] using hq)
      exact absurd hji hj
    · simpa [hqp] using hq
  · have hqp := hmine q hq
    obtain ⟨-, hused⟩ := hmakes.np i (by simpa [hqp] using hq)
    rwa [hself]
  · rw [hself] at hunused hused ⊢
    rcases hmakes.after with h | h | h
    · exact absurd h hunused
    · exact absurd h hused
    · exact h.2
  · rw [hself] at hsleeping
    exact absurd hsleeping (hmakes.after_ne (by decide) (by decide) (by decide))

/-- Where the process is not affected. -/
theorem on (hon : (discipline n).on (.proc p) h [] s) :
    (discipline n).on (.proc p) h [] ((s.modifyProc i f).setNp p o) := by
  obtain ⟨hrunning, hbound⟩ := hon.2 List.not_mem_nil
  have hpi : p ≠ i := by
    intro heq
    subst heq
    exact hmakes.before_ne (by decide) (by decide) hrunning
  refine ⟨hon.1, fun _ => ⟨?_, hbound⟩⟩
  rwa [Shared.setNp_proc, Shared.modifyProc_proc_of_ne hpi]

/-- The slot may be left to others. -/
theorem procInv (hbound : s.bound i = none) (hfree : Unhosted i s) :
    ProcInv i ((s.modifyProc i f).setNp p o) := by
  refine ⟨iff_of_false ?_ fun hhost => ?_, hbound⟩
  · rw [Shared.setNp_proc, Shared.modifyProc_proc_self]
    exact hmakes.after_ne (by decide) (by decide) (by decide)
  · obtain ⟨h, hh⟩ := hhost
    exact hfree h hh

end Makes

theorem findUnused_triple :
    (discipline n).Triple (.proc p) [] (fun _ _ => True) (Code.findUnused : Code n (Option Slot))
      (fun o => o.toList.map .proc) fun o _ s => ∀ i ∈ o, Vacant i s := by
  refine Triple.pre (Triple.findSomeM (Y := fun o => o.toList.map Lock.proc)
    (P := fun o _ (s : Shared n) => ∀ i ∈ o, Vacant i s) fun i _ => ?_) (by simp)
  refine Triple.pre (A := fun _ _ => True) ?_ (by simp)
  refine (lock_first_triple Stable.true).bind fun _ => ?_
  refine (Triple.read (discipline_laws n) (stable_inside Stable.true) _).bind fun q => ?_
  split
  case isTrue hfree =>
      refine (Triple.pure (some i)).pre fun h s _ hs => ?_
      obtain ⟨⟨-, hproc, -⟩, hq⟩ := hs
      have hunused : (s.proc i).state = .unused := hq ▸ hfree
      have hinv : ProcInv i s := hproc
      intro j hj
      obtain rfl : i = j := by simpa using hj
      refine ⟨hunused, hinv.bound, ?_⟩
      intro h hh
      have hrunning := hinv.running.mpr ⟨h, hh⟩
      simp [hunused] at hrunning
  case isFalse =>
      refine Triple.pre ?_ fun h s _ hs => hs.1
      refine (unlock_triple Stable.true).bind fun _ => ?_
      exact (Triple.pure none).pre (by simp)

/-- A process that has slot `i` is not the slot itself. -/
theorem Taken.ne (hs : Taken p i s) (hon : s.cpu h = some p) : p ≠ i := by
  intro heq
  subst heq
  exact hs.2.2 h hon

/-- Where the process is without the lock of the slot. -/
theorem on_of_ne (hne : p ≠ i) (hon : (discipline n).on (.proc p) h [.proc i] s) :
    (discipline n).on (.proc p) h [] s :=
  ⟨hon.1, fun _ => hon.2 (by simpa using hne)⟩

/-- `freeproc` and `release` of a slot that was taken. -/
theorem giveBack_triple :
    (discipline n).Triple (.proc p) [.proc i] (fun _ s => Taken p i s)
      (Code.giveBack p i : Code n Unit) (fun _ => []) fun _ _ _ => True := by
  have hi : Lock.proc i ∈ [Lock.proc i] := List.mem_cons_self
  refine Triple.bind (Z := fun _ => [.proc i])
    (P := fun _ => Inside (.proc p) [] (.proc i) fun _ _ => True) ?_ fun _ =>
      unlock_triple Stable.true
  refine Triple.update (stable_taken hi) fun h s hhere hs => ?_
  have hused := hhere.1.np_used p i hs.1
  have hmakes : Makes p i none freeproc s := ⟨Or.inr hused, fun q hq hnp =>
    hq (hhere.1.np_unique q p i hnp hs.1), Or.inl rfl, nofun, nofun⟩
  have hon := hmakes.on (on_of_ne (hs.ne hhere.2.1) hhere.2)
  exact ⟨hmakes.guar hi, ⟨hmakes.inv hhere.1, (discipline_laws n).on_acquire _ hon⟩,
    trivial, hmakes.procInv hs.2.1 hs.2.2, hon⟩

/-- `allocproc` with the slot that `findUnused` found: the process takes it. -/
theorem take_triple (now : UInt32) (pid : Int) :
    (discipline n).Triple (.proc p) [.proc i] (fun _ s => Vacant i s)
      (update fun _ s => (s.modifyProc i (allocprocFields now pid)).setNp p (some i) : Code n Unit)
      (fun _ => [.proc i]) fun _ _ s => Taken p i s := by
  have hi : Lock.proc i ∈ [Lock.proc i] := List.mem_cons_self
  refine Triple.update (stable_vacant hi) fun h s hhere hs => ?_
  obtain ⟨hunused, hbound, hfree⟩ := hs
  have hmakes : Makes p i (some i) (allocprocFields now pid) s := by
    refine ⟨Or.inl hunused, ?_, Or.inr (Or.inl rfl), fun r hr => hr, ?_⟩
    · intro q _ hnp
      exact absurd (hunused.symm.trans (hhere.1.np_used q i hnp)) (by decide)
    · intro j hj
      obtain rfl : i = j := by simpa using hj
      exact ⟨rfl, rfl⟩
  have hne : p ≠ i := by
    intro heq
    subst heq
    exact hfree h hhere.2.1
  refine ⟨hmakes.guar hi, ⟨hmakes.inv hhere.1, (discipline_laws n).on_acquire _
    (hmakes.on (on_of_ne hne hhere.2))⟩, ?_, hbound, hfree⟩
  simp

/-- The context of a new process begins at `forkret`. -/
theorem forkret_parked (h : Fin n) (held : List Lock) (s s' : Shared n)
    (hback : (discipline n).Back (.proc i) s h held s') :
    (discipline n).Jumps .forkret (.proc i) h held s' := by
  obtain ⟨-, -, rfl, hrunning, hbound⟩ := hback
  intro h'' s'' hseen
  obtain ⟨hrunning', hbound'⟩ := stable_awake List.mem_cons_self _ _ _ _ ⟨hrunning, hbound⟩ hseen
  exact ⟨i, rfl, rfl, hrunning', hbound'⟩

theorem prepare_triple :
    (discipline n).Triple (.proc p) [.proc i] (fun _ s => Taken p i s)
      (prepare (.proc i) .forkret : Code n Unit) (fun _ => [.proc i]) fun _ _ s => Taken p i s := by
  refine Triple.prepare (stable_taken List.mem_cons_self) fun h s hhere hs => ?_
  refine ⟨?_, fun h' held _ hon => hs.2.2 h' hon.1, fun h' held s' => forkret_parked h' held s s'⟩
  intro hsame
  exact hs.ne hhere.2.1 (Thread.proc.inj hsame).symm

/-- `allocproc` returns a slot of the caller's own, with its lock held. -/
theorem allocproc_triple :
    (discipline n).Triple (.proc p) [] (fun _ _ => True)
      (Code.allocproc p : Code n (Option Slot)) (fun o => o.toList.map .proc)
      fun o _ s => ∀ i ∈ o, Taken p i s := by
  have hnone : (discipline n).Triple (.proc p) [] (fun _ _ => True)
      (pure none : Code n (Option Slot)) (fun o => o.toList.map .proc)
      fun o _ s => ∀ i ∈ o, Taken p i s := (Triple.pure none).pre (by simp)
  refine findUnused_triple.bind fun o => ?_
  cases o with
  | none => exact hnone.pre (by simp)
  | some i =>
      have hvacant : (discipline n).Stable (.proc p) [.proc i] fun _ s => Vacant i s :=
        stable_vacant List.mem_cons_self
      have hpid : ∀ m ∈ [Lock.proc i], m.rank < Lock.rank .pid := by
        simp [Lock.rank]
      refine Triple.pre (A := fun _ s => Vacant i s) ?_ fun h s _ hs => hs i rfl
      refine (allocpid_quiet hpid _ hvacant).bind fun pid => ?_
      refine (quiet_read _ _ hvacant).bind fun now => ?_
      refine (take_triple now pid).bind fun _ => ?_
      refine Triple.ask.bind fun input => ?_
      split
      · exact giveBack_triple.bind fun _ => hnone
      · refine Triple.ask.bind fun input => ?_
        split
        · exact giveBack_triple.bind fun _ => hnone
        · refine prepare_triple.bind fun _ => ?_
          refine (Triple.pure (some i)).pre fun h s _ hs => ?_
          simpa using hs

/-- The process gives up the lock of the slot, which stays USED. -/
theorem taken_release_triple :
    (discipline n).Triple (.proc p) [.proc i] (fun _ s => Taken p i s)
      (release (.proc i) : Code n Unit) (fun _ => []) fun _ _ s => s.np p = some i := by
  have hgive : ∀ h s, (discipline n).Here (.proc p) h [.proc i] s → Taken p i s →
      (discipline n).lockInv (.proc i) s ∧
        (discipline n).on (.proc p) h ([Lock.proc i].erase (.proc i)) s ∧ s.np p = some i := by
    intro h s hhere hs
    have hused := hhere.1.np_used p i hs.1
    refine ⟨⟨iff_of_false (by simp [hused]) fun hhost => ?_, hs.2.1⟩, ?_, hs.1⟩
    · obtain ⟨h', hh'⟩ := hhost
      exact hs.2.2 h' hh'
    · rw [List.erase_cons_head]
      exact on_of_ne (hs.ne hhere.2.1) hhere.2
  simpa using Triple.release (I := Input) (stable_taken List.mem_cons_self) List.mem_cons_self hgive

/-- What `fork` knows of the child that has its parent. -/
def Born (p i : Slot) (s : Shared n) : Prop :=
  s.np p = some i ∧ (s.proc i).parent ≠ none

theorem mine_born : Mine p fun s : Shared n => Born p i s :=
  fun _ _ hown hs => ⟨hown.np.trans hs.1, hown.child i hs.1 hs.2⟩

/-- `np->parent = p`. -/
theorem setParent_triple :
    (discipline n).Triple (.proc p) [.wait] (fun _ s => Settled .wait s ∧ s.np p = some i)
      (Code.setProc i fun q => { q with parent := some p } : Code n Unit) (fun _ => [.wait])
      fun _ _ s => Settled .wait s ∧ Born p i s := by
  have hwait : Lock.wait ∈ [Lock.wait] := List.mem_cons_self
  refine Triple.update ((stable_settled hwait).and (mine_np (some i)).stable) fun h s hhere hs => ?_
  obtain ⟨hsettled, hnp⟩ := hs
  have hused := hhere.1.np_used p i hnp
  have hawake := awake_of_here wait_early hhere
  have hstate : ∀ q, ((s.modifyProc i fun q => { q with parent := some p }).proc q).state =
      (s.proc q).state := by
    intro q
    by_cases hq : q = i
    · simp [hq]
    · simp [hq]
  refine ⟨Guar.setParent hwait, ⟨hhere.1.setParent hawake.alive, hhere.2.1, ?_⟩, ?_, hnp, by simp⟩
  · intro _
    rw [hstate]
    exact hawake
  · intro chan q hl hdue
    -- the child itself is no ZOMBIE
    by_cases hchan : chan = .proc p
    · subst hchan
      obtain ⟨c, hparent, hzombie⟩ := hdue
      rw [hstate] at hzombie
      have hci : c ≠ i := by
        intro heq
        subst heq
        exact absurd (hzombie.symm.trans hused) (by decide)
      rw [Shared.modifyProc_proc_of_ne hci] at hparent
      intro hbound
      apply hsettled (.proc p) q rfl ⟨c, hparent, hzombie⟩
      by_cases hq : q = i
      · subst hq
        simpa [BoundTo] using hbound
      · simpa [BoundTo, hq] using hbound
    · exact hsettled.setParent chan q hl hchan hdue

/-- The end of `fork`: the child may run. -/
theorem start_child_triple :
    (discipline n).Triple (.proc p) [.proc i]
      (Inside (.proc p) [] (.proc i) fun _ s => Born p i s)
      (update fun _ s => (s.modifyProc i fun q => { q with state := .runnable }).setNp p none :
        Code n Unit)
      (fun _ => [.proc i]) fun _ => Inside (.proc p) [] (.proc i) fun _ _ => True := by
  refine Triple.update (stable_inside mine_born.stable) fun h s hhere hs => ?_
  obtain ⟨⟨hnp, hparent⟩, hproc, hon⟩ := hs
  have hinv : ProcInv i s := hproc
  have hused := hhere.1.np_used p i hnp
  have hmakes : Makes p i none (fun q => { q with state := .runnable }) s :=
    ⟨Or.inr hused, fun q hq hnp' => hq (hhere.1.np_unique q p i hnp' hnp),
      Or.inr (Or.inr ⟨rfl, hparent⟩), fun r hr => hr, nofun⟩
  have hfree : Unhosted i s := fun h hh =>
    absurd (hused.symm.trans (hinv.running.mpr ⟨h, hh⟩)) (by decide)
  exact ⟨hmakes.guar List.mem_cons_self, ⟨hmakes.inv hhere.1, (discipline_laws n).on_acquire _
    (hmakes.on hon)⟩, trivial, hmakes.procInv hinv.bound hfree, hmakes.on hon⟩

theorem fork_triple :
    (discipline n).Triple (.proc p) [] (fun _ _ => True) (Code.fork : Code n Int) (fun _ => [])
      fun _ _ _ => True := by
  apply myproc_bind Stable.true
  refine allocproc_triple.bind fun o => ?_
  cases o with
  | none => exact (Triple.pure (P := fun _ _ _ => True) (-1)).pre (by simp)
  | some i =>
      refine Triple.pre (A := fun _ s => Taken p i s) ?_ fun h s _ hs => hs i rfl
      refine Triple.ask.bind fun input => ?_
      split
      · exact giveBack_triple.bind fun _ => Triple.pure (P := fun _ _ _ => True) (-1)
      · refine (quiet_read _ _ (stable_taken List.mem_cons_self)).bind fun child => ?_
        refine taken_release_triple.bind fun _ => ?_
        refine (process_lock_triple (by decide) (mine_np (some i))).bind fun _ => ?_
        refine setParent_triple.bind fun _ => ?_
        refine (process_unlock_triple (by decide) mine_born).bind fun _ => ?_
        refine (lock_first_triple mine_born.stable).bind fun _ => ?_
        refine start_child_triple.bind fun _ => ?_
        refine (unlock_triple Stable.true).bind fun _ => ?_
        exact Triple.pure (P := fun _ _ _ => True) child.pid

end Xv6
