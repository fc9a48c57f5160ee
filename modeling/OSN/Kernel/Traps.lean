import OSN.Kernel.Forking

/-!
# Traps and interrupts

The system calls that sleep on the clock, on a pipe, on the console or on
another kernel object keep to the discipline, and so do the interrupts that
wake them up.  Whoever makes a condition of another kernel object true wakes
up those who sleep on it before the lock of the object is free
(`condition_ends`, `device_quiet`).
-/

namespace Xv6

open Threads Threads.Discipline
open Threads.Code (acquire jump)

variable {n : Nat} {t : Thread n} {X : List Lock} {A : Fin n → Shared n → Prop} {p : Slot}
  {h : Fin n} {s : Shared n} {chan : Chan} {l : Lock} {a i : Nat} {b : Bool}

/-! ### Sleeping on the clock, on a pipe or on the console -/

/-- `sleep` on a channel nobody is owed anything on, after the test of `killed`. -/
theorem plain_sleep_triple (chan : Chan) (hl : chan.lock.Plain) :
    (discipline n).Triple (.proc p) [chan.lock] (fun _ s => s.loop p = .tested)
      (Code.sleep chan chan.lock : Code n Unit) (fun _ => [chan.lock]) fun _ _ _ => True :=
  ((sleep_triple chan).pre fun _ _ _ htested =>
    ⟨⟨settled_of_plain hl, not_due_of_plain hl⟩, fun _ => htested⟩).post fun _ _ _ _ _ => trivial

/-- The first lock of a process that counts on nothing. -/
theorem plain_lock_triple :
    (discipline n).Triple (.proc p) [] (fun _ _ => True) (acquire l : Code n Unit) (fun _ => [l])
      fun _ _ _ => True :=
  (lock_first_triple Stable.true).post fun _ _ _ _ _ => trivial

/-- Jumps of a process that counts on nothing. -/
theorem process_jump {label : Label}
    (hlabel : ∀ h s, (discipline n).spec label (.proc p) h X s) :
    Ends p X (fun _ => True) (jump label : Code n Unit) :=
  Triple.jump Stable.true fun h s _ _ => hlabel h s

theorem plain_leave_ends (hl : l.Early) (hplain : l.Plain) :
    Ends p [l] (fun _ => True) (Code.leave l : Code n Unit) :=
  (leave_ends hl).pre fun _ _ _ _ => settled_of_plain hplain

/-- `wakeup`, `release` and the return to user mode. -/
theorem wakeupLeave_ends (chan : Chan) (hl : l.Early) (hplain : l.Plain) :
    Ends p [l] (fun _ => True) (Code.wakeupLeave chan l : Code n Unit) :=
  (wakeup_quiet (early_singleton hl) _ _ Stable.true).bind fun _ => plain_leave_ends hl hplain

/-- The end of the loops: test `killed`, and sleep if it is 0. -/
theorem test_sleep_ends (chan : Chan) (hl : chan.lock.Plain) {again gone : Code n Unit}
    (hagain : Ends p [chan.lock] (fun _ => True) again)
    (hgone : Ends p [chan.lock] (fun _ => True) gone) :
    Ends p [chan.lock] (fun _ => True) (do
      if ← Code.testKilled p fun _ => true then gone
      else
        Code.sleep chan chan.lock
        again) := by
  refine (testKilled_triple (early_singleton chan.lock_early) Stable.true (fun _ _ _ => trivial)
    fun _ _ => rfl).bind fun killed => ?_
  split
  case isTrue => exact hgone.pre fun _ _ _ _ => trivial
  case isFalse hkilled =>
      refine ((plain_sleep_triple chan hl).pre fun h s _ hs => ?_).bind fun _ => hagain
      exact hs.2 (by simpa using hkilled) rfl

theorem sysSleep_ends (len : UInt32) :
    Ends p [] (fun _ => True) (Code.sysSleep len : Code n Unit) := by
  refine plain_lock_triple.bind fun _ => ?_
  refine (quiet_read _ _ Stable.true).bind fun ticks0 => ?_
  exact process_jump fun _ _ => ⟨rfl, p, rfl⟩

theorem sleepLoop_ends (ticks0 len : UInt32) :
    Ends p [.ticks] (fun _ => True) (Code.sleepLoop ticks0 len : Code n Unit) := by
  apply myproc_bind Stable.true
  refine (quiet_read _ _ Stable.true).bind fun now => ?_
  split
  · exact test_sleep_ends .ticks trivial (process_jump fun _ _ => ⟨rfl, p, rfl⟩)
      (plain_leave_ends (by decide) trivial)
  · exact plain_leave_ends (by decide) trivial

section Pipe

variable (pi : Nat)

theorem pipe_early : (Lock.pipe pi).Early := by simp [Lock.Early, Lock.rank]

/-- What is in a pipe is protected by its lock. -/
theorem setPipe_triple (f : Pipe → Pipe) :
    (discipline n).Triple (.proc p) [.pipe pi] (fun _ _ => True)
      (Code.setPipe pi f : Code n Unit) (fun _ => [.pipe pi]) fun _ _ _ => True := by
  refine Triple.update Stable.true fun h s hhere _ => ?_
  have hunseen : UnseenBut [.pipe pi] s (s.modifyPipe pi f) :=
    unseenBut_modifyPipe List.mem_cons_self f
  exact ⟨hunseen.guar fun _ _ => rfl, ⟨hhere.1.of_unseenBut hunseen, hhere.2⟩, trivial⟩

theorem pipe_leave_ends : Ends p [.pipe pi] (fun _ => True) (Code.leave (.pipe pi) : Code n Unit) :=
  plain_leave_ends (pipe_early pi) trivial

theorem pipe_wakeupLeave_ends (chan : Chan) :
    Ends p [.pipe pi] (fun _ => True) (Code.wakeupLeave chan (.pipe pi) : Code n Unit) :=
  wakeupLeave_ends chan (pipe_early pi) trivial

theorem pipeclose_ends (writable : Bool) :
    Ends p [] (fun _ => True) (Code.pipeclose pi writable : Code n Unit) := by
  refine plain_lock_triple.bind fun _ => ?_
  refine (setPipe_triple pi _).bind fun _ => ?_
  exact pipe_wakeupLeave_ends pi _

theorem mine_loop (loop : Loop) : Mine p fun s : Shared n => s.loop p = loop :=
  fun _ _ hown hs => hown.loop.trans hs

/-- A process that goes to sleep if the pipe is full. -/
theorem stable_full (hpi : .pipe pi ∈ X) :
    (discipline n).Stable (.proc p) X fun _ s => (s.pipe pi).full = true → s.loop p = .tested := by
  intro h s h' s' hs hseen hfull
  rw [(seen_kept hseen _ hpi).pipe pi rfl] at hfull
  exact (seen_own hseen).loop.trans (hs hfull)

theorem pipewriteLoop_ends (k len : Int) :
    Ends p [.pipe pi] (fun _ => True) (Code.pipewriteLoop pi k len : Code n Unit) := by
  have hearly : ∀ m ∈ [Lock.pipe pi], m.Early := early_singleton (pipe_early pi)
  apply myproc_bind Stable.true
  simp only
  split
  · refine (quiet_read _ _ Stable.true).bind fun pipe => ?_
    split
    · exact pipe_leave_ends pi
    · refine (testKilled_triple hearly Stable.true (fun _ _ _ => trivial) fun _ _ => rfl).bind
        fun killed => ?_
      split
      case isTrue => exact (pipe_leave_ends pi).pre fun _ _ _ _ => trivial
      case isFalse hkilled =>
        refine Triple.pre (A := fun _ s => (s.pipe pi).full = true → s.loop p = .tested) ?_
          fun h s _ hs => hs.2 (by simpa using hkilled)
        refine (Triple.read (discipline_laws n) (stable_full pi (by simp)) _).bind fun pipe => ?_
        split
        case isTrue hfull =>
          refine Triple.pre (A := fun _ s => s.loop p = .tested) ?_ fun h s _ hs =>
            hs.1 (hs.2 ▸ hfull)
          refine (wakeup_quiet hearly _ _ (mine_loop .tested).stable).bind fun _ => ?_
          refine (plain_sleep_triple (.nwrite pi) trivial).bind fun _ => ?_
          exact process_jump fun _ _ => ⟨rfl, p, rfl⟩
        case isFalse =>
          refine Triple.pre (A := fun _ _ => True) ?_ fun _ _ _ _ => trivial
          refine Triple.ask.bind fun input => ?_
          split
          · refine (setPipe_triple pi _).bind fun _ => ?_
            exact process_jump fun _ _ => ⟨rfl, p, rfl⟩
          · exact pipe_wakeupLeave_ends pi _
  · exact pipe_wakeupLeave_ends pi _

theorem pipereadLoop_ends (len : Int) :
    Ends p [.pipe pi] (fun _ => True) (Code.pipereadLoop pi len : Code n Unit) := by
  apply myproc_bind Stable.true
  refine (quiet_read _ _ Stable.true).bind fun pipe => ?_
  split
  · exact test_sleep_ends (.nread pi) trivial (process_jump fun _ _ => ⟨rfl, p, rfl⟩)
      (pipe_leave_ends pi)
  · exact process_jump fun _ _ => ⟨rfl, p, rfl⟩

theorem pipereadCopy_ends (k len : Int) :
    Ends p [.pipe pi] (fun _ => True) (Code.pipereadCopy pi k len : Code n Unit) := by
  unfold Code.pipereadCopy
  split
  · refine (quiet_read _ _ Stable.true).bind fun pipe => ?_
    split
    · exact pipe_wakeupLeave_ends pi _
    · refine (setPipe_triple pi _).bind fun _ => ?_
      refine Triple.ask.bind fun input => ?_
      split
      · exact process_jump fun _ _ => ⟨rfl, p, rfl⟩
      · exact pipe_wakeupLeave_ends pi _
  · exact pipe_wakeupLeave_ends pi _

end Pipe

theorem cons_leave_ends : Ends p [.cons] (fun _ => True) (Code.leave .cons : Code n Unit) :=
  plain_leave_ends (by decide) trivial

/-- Nobody counts on what is in the console. -/
theorem modifyCons_unseen (f : Console → Console) :
    Unseen s (s.modifyCons f) ∧ ∀ q, (s.proc q).state = .sleeping →
      ((s.modifyCons f).proc q).killed = (s.proc q).killed :=
  ⟨⟨fun _ => rfl, fun _ => rfl, fun _ => rfl, rfl, rfl, rfl, rfl, rfl, rfl, rfl⟩, fun _ _ => rfl⟩

theorem consolereadLoop_ends (target len : Int) :
    Ends p [.cons] (fun _ => True) (Code.consolereadLoop target len : Code n Unit) := by
  apply myproc_bind Stable.true
  simp only
  split
  · refine (quiet_read _ _ Stable.true).bind fun cons => ?_
    split
    · exact test_sleep_ends .consR trivial (process_jump fun _ _ => ⟨rfl, p, rfl⟩) cons_leave_ends
    · refine (unseen_modifyGet_quiet (fun _ _ _ => modifyCons_unseen _) _
        Stable.true).bind fun c => ?_
      split
      · refine Triple.bind (Triple.when (fun _ => ?_) fun _ _ _ _ hs => hs) fun _ => cons_leave_ends
        exact unseen_quiet (fun _ _ _ => modifyCons_unseen _) _ Stable.true
      · refine Triple.ask.bind fun input => ?_
        split
        · split
          · exact cons_leave_ends
          · exact process_jump fun _ _ => ⟨rfl, p, rfl⟩
        · exact cons_leave_ends
  · exact cons_leave_ends

/-! ### Other kernel objects -/

theorem condition_early (a : Nat) : (Lock.condition a).Early := by simp [Lock.Early, Lock.rank]

/-- What is written under the lock of a kernel object nobody else notices. -/
theorem setCondition_guar (hl : .condition a ∈ X) (hinv : SharedInv s) :
    Guar t X s (s.setCondition a i b) ∧ SharedInv (s.setCondition a i b) := by
  have hunseen : UnseenBut X s (s.setCondition a i b) := unseenBut_setCondition hl
  exact ⟨hunseen.guar fun _ _ => rfl, hinv.of_unseenBut hunseen⟩

theorem setCondition_of_ne {chan : Chan} (hne : chan ≠ .condition a i)
    (hdue : Due (s.setCondition a i b) chan) : Due s chan := by
  cases chan with
  | condition a' i' =>
      have hdue' : (s.setCondition a i b).condition a' i' = true := hdue
      rw [Shared.setCondition_condition] at hdue'
      show s.condition a' i' = true
      by_cases ha : a' = a
      · subst ha
        have hi : i' ≠ i := by
          intro heq
          subst heq
          exact hne rfl
        simpa [hi] using hdue'
      · simpa [ha] using hdue'
  | proc | ticks | nread | nwrite | consR | other => exact hdue

/-- A condition that becomes true is due. -/
theorem Settled.make (hsettled : Settled l s) :
    SettledBut l (.condition a i) (s.setCondition a i true) :=
  fun chan q hl hne hdue => hsettled chan q hl (setCondition_of_ne hne hdue)

/-- A condition that becomes false is not. -/
theorem Settled.spoil (hsettled : Settled l s) : Settled l (s.setCondition a i false) := by
  intro chan q hl hdue
  by_cases hchan : chan = .condition a i
  · subst hchan
    have hdue' : (s.setCondition a i false).condition a i = true := hdue
    simp at hdue'
  · exact hsettled chan q hl (setCondition_of_ne hchan hdue)

/-- A system call on another kernel object goes to sleep only on a condition
that is false, and wakes up those who sleep on one that it makes true. -/
theorem condition_ends (a : Nat) :
    Ends p [.condition a] (Settled (.condition a)) (Code.condition a : Code n Unit) := by
  have hl : Lock.condition a ∈ [Lock.condition a] := List.mem_cons_self
  have hearly : ∀ m ∈ [Lock.condition a], m.Early := early_singleton (condition_early a)
  have hagain : Ends p [.condition a] (Settled (.condition a))
      (jump (.condition a) : Code n Unit) :=
    Triple.jump (stable_settled hl) fun h s _ hs => ⟨rfl, ⟨p, rfl⟩, hs⟩
  refine Triple.ask.bind fun input => ?_
  split
  case h_1 i _ =>
      refine (Triple.read (discipline_laws n) (stable_settled hl) _).bind fun b => ?_
      split
      case isTrue => exact hagain.pre fun h s _ hs => hs.1
      case isFalse hfalse =>
          refine ((sleep_triple (.condition a i)).pre fun h s _ hs =>
            ⟨⟨hs.1, fun hdue => hfalse ?_⟩, False.elim⟩).bind fun _ => hagain
          rw [hs.2]
          exact hdue
  case h_2 i _ =>
      refine Triple.bind (Z := fun _ => [.condition a])
        (P := fun _ _ s => True ∧ SettledBut (.condition a) (.condition a i) s) ?_ fun _ => ?_
      · refine Triple.update (stable_settled hl) fun h s hhere hs => ?_
        obtain ⟨hguar, hinv⟩ := setCondition_guar hl hhere.1
        exact ⟨hguar, ⟨hinv, hhere.2⟩, trivial, hs.make⟩
      · refine (settle_triple (.condition a i) hearly hl Stable.true fun h s hhere _ =>
          on_nil hearly hhere.2).bind fun _ => ?_
        exact hagain.pre fun h s _ hs => hs.2
  case h_3 i _ =>
      refine Triple.bind (Z := fun _ => [.condition a])
        (P := fun _ _ s => Settled (.condition a) s) ?_ fun _ => hagain
      refine Triple.update (stable_settled hl) fun h s hhere hs => ?_
      obtain ⟨hguar, hinv⟩ := setCondition_guar hl hhere.1
      exact ⟨hguar, ⟨hinv, hhere.2⟩, hs.spoil⟩
  case h_4 => exact leave_ends (condition_early a)

/-! ### Interrupts -/

theorem clockintr_quiet : (discipline n).Quiet t [] (Code.clockintr : Code n Unit) := by
  have hearly : ∀ m ∈ [Lock.ticks], m.Early := early_singleton (by decide)
  intro A hA
  refine (lock_first_triple hA).bind fun _ => ?_
  refine (unseen_quiet (fun h s _ => ?_) _ (stable_inside hA)).bind fun _ => ?_
  · exact ⟨⟨fun _ => rfl, fun _ => rfl, fun _ => rfl, rfl, rfl, rfl, rfl, rfl, rfl, rfl⟩,
      fun _ _ => rfl⟩
  · refine (runningTime_quiet hearly _ (stable_inside hA)).bind fun _ => ?_
    exact (wakeup_quiet hearly _ _ (stable_inside hA)).bind fun _ => unlock_triple hA

theorem consoleintr_quiet (c : UInt8) :
    (discipline n).Quiet t [] (Code.consoleintr c : Code n Unit) := by
  have hearly : ∀ m ∈ [Lock.cons], m.Early := early_singleton (by decide)
  intro A hA
  refine (lock_first_triple hA).bind fun _ => ?_
  refine (unseen_modifyGet_quiet (fun _ _ _ => modifyCons_unseen _) _
    (stable_inside hA)).bind fun wakes => ?_
  refine Triple.bind (Triple.when (fun _ => ?_) fun _ _ _ _ hs => hs) fun _ => unlock_triple hA
  exact wakeup_quiet hearly _ _ (stable_inside hA)

/-- The interrupt of a device, on top of any thread. -/
theorem device_quiet (a i : Nat) :
    (discipline n).Quiet t [] (Code.device a i : Code n Unit) := by
  have hl : Lock.condition a ∈ [Lock.condition a] := List.mem_cons_self
  have hearly : ∀ m ∈ [Lock.condition a], m.Early := early_singleton (condition_early a)
  intro A hA
  have houtside : (discipline n).Stable t [.condition a]
      fun h s => A h s ∧ (discipline n).on t h [] s := stable_tail hA
  refine (lock_first_triple hA).bind fun _ => ?_
  refine Triple.bind (Z := fun _ => [.condition a]) (P := fun _ h s =>
    (A h s ∧ (discipline n).on t h [] s) ∧ SettledBut (.condition a) (.condition a i) s) ?_ fun _ => ?_
  · refine Triple.update (stable_inside hA) fun h s hhere hin => ?_
    obtain ⟨hAs, hsettled, hon⟩ := hin
    have hsettled' : Settled (.condition a) s := (condition_early a).lockInv_iff.mp hsettled
    have hunseen : UnseenBut [.condition a] s (s.setCondition a i true) := unseenBut_setCondition hl
    have hseen : (discipline n).Seen t [] h s h (s.setCondition a i true) :=
      hunseen.seen nofun hhere.1 hon
    exact ⟨hunseen.guar fun _ _ => rfl, ⟨hseen.2.1, hunseen.on hhere.2⟩,
      ⟨hA h s h _ hAs hseen, hseen.2.2⟩, hsettled'.make⟩
  · refine (settle_triple (.condition a i) hearly hl houtside fun h s _ hs => hs.2).bind fun _ => ?_
    exact (unlock_triple hA).pre fun h s _ hs =>
      ⟨hs.1.1, (condition_early a).lockInv_iff.mpr hs.2, hs.1.2⟩

theorem timer_quiet : (discipline n).Quiet t [] (Code.timer : Code n Unit) :=
  Quiet.bind (quiet_read _) fun _ => Quiet.when fun _ => clockintr_quiet

theorem demote_unseen (q : Proc) : ProcUnseen q (demote q) ∧ (demote q).killed = q.killed := by
  unfold demote
  split
  · exact ⟨⟨rfl, rfl, rfl⟩, rfl⟩
  · split <;> exact ⟨⟨rfl, rfl, rfl⟩, rfl⟩

theorem giveUp_quiet (policy : Policy) :
    (discipline n).Quiet (.proc p) [] (Code.giveUp policy p : Code n Unit) := by
  cases policy with
  | defaultScheduler => exact yield_quiet
  | mlfq =>
      refine Quiet.bind (quiet_read _) fun q => Quiet.when fun _ => ?_
      exact Quiet.bind (setProc_quiet demote_unseen) fun _ => yield_quiet
  | fcfs | pbs => exact Quiet.pure ()

/-- An interrupt on top of a scheduler finds `myproc() == 0`; on top of a
process it may make it yield. -/
theorem kerneltrap_quiet (policy : Policy) (i : Code.Interrupt) :
    (discipline n).Quiet t [] (Code.kerneltrap policy i : Code n Unit) := by
  cases i with
  | device a i => exact device_quiet a i
  | uart c => exact consoleintr_quiet c
  | timer =>
      refine Quiet.bind timer_quiet fun _ => ?_
      cases t with
      | scheduler h₀ =>
          intro A hA
          refine (Triple.read (discipline_laws n) hA _).bind fun o => ?_
          intro next hnext h s hhere hs
          obtain rfl : o = none := hs.2.trans (hhere.2.2 rfl)
          exact hnext () h s hhere hs.1
      | proc p =>
          intro A hA
          apply myproc_bind hA
          refine (quiet_read _ _ hA).bind fun q => ?_
          exact Triple.when (fun _ => giveUp_quiet policy _ hA) fun _ _ _ _ hs => hs

/-! ### User mode -/

theorem sysSetPriority_unseen (newPriority procid : Int) :
    Unseen s { s with kernel := (sysSetPriority newPriority procid s.kernel).2 } ∧
      ∀ q, (s.proc q).state = .sleeping →
        ((sysSetPriority newPriority procid s.kernel).2.proc q).killed = (s.proc q).killed := by
  have hproc : ∀ q, ProcUnseen (s.kernel.proc q)
      ((sysSetPriority newPriority procid s.kernel).2.proc q) ∧
        ((sysSetPriority newPriority procid s.kernel).2.proc q).killed =
          (s.kernel.proc q).killed := by
    intro q
    unfold sysSetPriority setpriority
    split
    case h_1 j hj =>
        rw [Kernel.modify_proc]
        split <;> exact ⟨⟨rfl, rfl, rfl⟩, rfl⟩
    case h_2 => exact ⟨⟨rfl, rfl, rfl⟩, rfl⟩
  exact ⟨⟨fun q => (hproc q).1.state, fun q => (hproc q).1.chan, fun q => (hproc q).1.parent, rfl,
    rfl, rfl, rfl, rfl, rfl, rfl⟩, fun q _ => (hproc q).2⟩

/-- `p->killed = 1` of the process itself, which is RUNNING. -/
theorem fault_quiet :
    (discipline n).Quiet (.proc p) []
      (Code.setProc p fun q => { q with killed := 1 } : Code n Unit) := by
  refine unseen_quiet fun h s hhere => ⟨unseen_modifyProc ⟨rfl, rfl, rfl⟩, fun q hsleeping => ?_⟩
  obtain ⟨hrunning, -⟩ := awake_of_here (by simp) hhere
  have hq : q ≠ p := by
    intro heq
    subst heq
    exact absurd (hrunning.symm.trans hsleeping) (by decide)
  rw [Shared.modifyProc_proc_of_ne hq]

/-- A trap of a process ends in a jump. -/
theorem usertrap_ends (policy : Policy) (trap : Trap) :
    Ends p [] (fun _ => True) (Code.usertrap policy p trap : Code n Unit) := by
  have hret : Ends p [] (fun _ => True) (jump .trapret : Code n Unit) :=
    process_jump fun _ _ => ⟨rfl, p, rfl⟩
  cases trap with
  | timer =>
      refine (timer_quiet _ Stable.true).bind fun _ => ?_
      refine exitIfKilled_triple.bind fun _ => ?_
      refine (giveUp_quiet policy _ Stable.true).bind fun _ => ?_
      exact process_jump fun _ _ => ⟨rfl, p, rfl⟩
  | device a i => exact (device_quiet a i _ Stable.true).bind fun _ => hret
  | uart c => exact (consoleintr_quiet c _ Stable.true).bind fun _ => hret
  | fork => exact exitIfKilled_triple.bind fun _ => fork_triple.bind fun _ => hret
  | exit status => exact exitIfKilled_triple.bind fun _ => exit_ends status
  | wait | waitx => exact exitIfKilled_triple.bind fun _ => wait_ends
  | kill pid =>
      refine exitIfKilled_triple.bind fun _ => ?_
      exact (kill_quiet (by simp) pid _ Stable.true).bind fun _ => hret
  | sleep len => exact exitIfKilled_triple.bind fun _ => sysSleep_ends len
  | setPriority newPriority procid =>
      refine exitIfKilled_triple.bind fun _ => ?_
      exact (unseen_quiet (fun _ _ _ => sysSetPriority_unseen newPriority procid) _
        Stable.true).bind fun _ => hret
  | pipewrite pi len =>
      refine exitIfKilled_triple.bind fun _ => plain_lock_triple.bind fun _ => ?_
      exact process_jump fun _ _ => ⟨rfl, p, rfl⟩
  | piperead pi len =>
      refine exitIfKilled_triple.bind fun _ => plain_lock_triple.bind fun _ => ?_
      exact process_jump fun _ _ => ⟨rfl, p, rfl⟩
  | pipeclose pi writable => exact exitIfKilled_triple.bind fun _ => pipeclose_ends pi writable
  | consoleread len =>
      refine exitIfKilled_triple.bind fun _ => plain_lock_triple.bind fun _ => ?_
      exact process_jump fun _ _ => ⟨rfl, p, rfl⟩
  | condition a =>
      refine exitIfKilled_triple.bind fun _ => ?_
      refine (process_lock_triple (condition_early a) mine_true).bind fun _ => ?_
      exact Triple.jump ((stable_settled List.mem_cons_self).and mine_true.stable) fun h s _ hs =>
        ⟨rfl, ⟨p, rfl⟩, hs.1⟩
  | fault => exact (fault_quiet _ Stable.true).bind fun _ => hret

theorem user_ends (policy : Policy) :
    Ends p [] (fun _ => True) (Code.user policy : Code n Unit) := by
  apply myproc_bind Stable.true
  exact Triple.ask.bind fun input => usertrap_ends policy input.trap

theorem trapret_ends : Ends p [] (fun _ => True) (Code.trapret : Code n Unit) := by
  apply myproc_bind Stable.true
  refine exitIfKilled_triple.bind fun _ => ?_
  exact process_jump fun _ _ => ⟨rfl, p, rfl⟩

theorem forkret_ends : Ends p [.proc p] (Awake p) (Code.forkret : Code n Unit) := by
  apply myproc_bind (stable_awake List.mem_cons_self)
  refine ((own_unlock_triple mine_true).pre fun h s _ hs => ⟨hs, trivial⟩).bind fun _ => ?_
  exact process_jump fun _ _ => ⟨rfl, p, rfl⟩

end Xv6
