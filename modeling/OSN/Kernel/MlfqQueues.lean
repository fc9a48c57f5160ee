import OSN.Kernel.MlfqSteps
import Mathlib.Data.Fintype.Card
import Mathlib.Data.List.Sublists
import Mathlib.Tactic.SplitIfs

/-!
# Who is in which MLFQ queue

On one hart, as long as `ProcQueueRemove` is only asked for the last entry of
a wrapped segment, the queues and the flag `inQ` agree: queue `l` holds the
RUNNABLE processes of level `l` whose flag is set, each once.  `Steady` is that
invariant with the entries of the queues as a witness, `Fresh` is the pass of
the scheduler that takes the null pointers of `pq_init` off, and
`QueueChange` says what a step does to the entries.

Without the condition the flag and the queues part for good: `ageing` clears
the flag of a process whose pointer `ProcQueueRemove` has left where it was.
-/

namespace Xv6

/-! ### What the queues depend on -/

/-- A change of a process that no queue notices. -/
structure QueueStable (p q : Proc) : Prop where
  queued : p.state = .runnable → p.inQ = 1 →
    q.state = .runnable ∧ q.inQ = 1 ∧ q.level = p.level
  flag : q.inQ = p.inQ ∨ q.inQ = 0
  level : p.level.toNat < 5 → q.level.toNat < 5

theorem QueueStable.refl (p : Proc) : QueueStable p p :=
  ⟨fun hrun hflag => ⟨hrun, hflag, rfl⟩, Or.inl rfl, id⟩

/-- No queue notices a process event. -/
theorem Effect.queueStable {now : UInt32} {tick : Prop} {newpid : Option Int} {p q : Proc}
    (h : Effect now tick newpid p q) : QueueStable p q := by
  cases h with
  | touched _ h =>
      cases h with
      | marked => exact ⟨fun hrun hflag => ⟨hrun, hflag, rfl⟩, Or.inl rfl, id⟩
      | woken hasleep => exact ⟨fun hrun => by simp [hasleep] at hrun, Or.inl rfl, id⟩
  | ticked _ hrun =>
      refine ⟨fun h => by simp [hrun] at h, ?_, ?_⟩ <;> simp [runningTimeProc, hrun]
  | born hfree =>
      refine ⟨fun hrun => by simp [hfree] at hrun, Or.inr rfl, ?_⟩
      intro _
      simp [forkFields, allocprocFields]
  | unborn hfree =>
      refine ⟨fun hrun => by simp [hfree] at hrun, Or.inr rfl, ?_⟩
      intro _
      simp [freeproc, allocprocFields]
  | reaped hzombie => exact ⟨fun hrun => by simp [hzombie] at hrun, Or.inl rfl, id⟩

theorem Touched.queueStable {now : UInt32} {p q : Proc} (h : Touched now p q) :
    QueueStable p q :=
  (show Effect now False none p q from .touched nofun h).queueStable

/-- No queue notices a process that leaves its hart: it was in none. -/
theorem Left.queueStable {now : UInt32} {p q : Proc} (hrun : p.state = .running)
    (h : Left setQEnter now p q) : QueueStable p q := by
  have hnot : p.state ≠ .runnable := by simp [hrun]
  cases h with
  | yielded => exact ⟨fun h => absurd h hnot, Or.inl rfl, id⟩
  | slept => exact ⟨fun h => absurd h hnot, Or.inl rfl, id⟩
  | exited h =>
      have hq := h.queueStable
      exact ⟨fun h => absurd h hnot, hq.flag, hq.level⟩

/-- No queue notices that the timer check takes the hart from a process. -/
theorem yieldProc_demote_queueStable {p : Proc} (now : UInt32) (hrun : p.state = .running) :
    QueueStable p (setQEnter now (yieldProc now (demote p))) := by
  refine ⟨fun h => by simp [hrun] at h, Or.inl ?_, ?_⟩
  · simp [setQEnter, yieldProc]
  · intro h
    simpa [setQEnter, yieldProc] using demote_level h

/-- No queue notices the promotion of a process that is in none. -/
theorem promote_queueStable {p : Proc} (now : UInt32) (hflag : p.inQ ≠ 1) :
    QueueStable p (promote now p) :=
  ⟨fun _ h => absurd h hflag, Or.inl promote_inQ, promote_level now⟩

/-! ### The invariant -/

/-- **Steady state of one hart.**  Queue `l` holds the processes `entries l`:
these are RUNNABLE, of level `l` and flagged, and every flagged process is one
of them. -/
structure Steady (s : Mlfq 1) (entries : Nat → List Slot) : Prop where
  hosted : Hosted s.toSys
  holds : ∀ l, l < 5 → Holds (s.mfq l) ((entries l).map some)
  level : ∀ p, (s.proc p).level.toNat < 5
  queued : ∀ l, ∀ p ∈ entries l,
    (s.proc p).state = .runnable ∧ (s.proc p).inQ = 1 ∧ (s.proc p).level.toNat = l
  flagged : ∀ p, (s.proc p).inQ ≠ 0 →
    (s.proc p).inQ = 1 ∧ p ∈ entries (s.proc p).level.toNat
  nodup : ∀ l, (entries l).Nodup
  turn : ∀ l, s.phase 0 = .dequeue l → l < 5

/-- `ageing` asks `ProcQueueRemove` only for the last entry of a wrapped
segment whose `rear` is not at index 0. -/
def AgesLast {n : Nat} (_ : Past (Mlfq n) (MlfqEvent n)) (s : Mlfq n) (e : MlfqEvent n) : Prop :=
  ∀ h, e = .scheduler h → ∀ i, s.phase h = .ageing i →
    s.Overdue i → (s.proc i).inQ = 1 → RemovesLast (s.mfq (s.proc i).level.toNat) i

instance {n : Nat} (past : Past (Mlfq n) (MlfqEvent n)) (s : Mlfq n) (e : MlfqEvent n) :
    Decidable (AgesLast past s e) := by
  unfold AgesLast
  infer_instance

namespace Steady

variable {s t : Mlfq 1} {entries : Nat → List Slot} {i p : Slot} {l : Nat}

/-- A process without the flag is in no queue. -/
theorem not_mem_of_flag (hs : Steady s entries) (hflag : (s.proc p).inQ = 0) :
    p ∉ entries l := by
  intro hp
  have := (hs.queued l p hp).2.1
  simp [hflag] at this

/-- What no queue notices keeps the state steady, with the same entries. -/
theorem of_stable (hs : Steady s entries) (hhosted : Hosted t.toSys) (hmfq : t.mfq = s.mfq)
    (hturn : ∀ l, t.phase 0 = .dequeue l → l < 5)
    (hstable : ∀ i, QueueStable (s.proc i) (t.proc i)) : Steady t entries where
  hosted := hhosted
  holds l hl := hmfq ▸ hs.holds l hl
  level p := (hstable p).level (hs.level p)
  queued l p hp := by
    obtain ⟨hrun, hflag, hlevel⟩ := hs.queued l p hp
    obtain ⟨hrun', hflag', hlevel'⟩ := (hstable p).queued hrun hflag
    exact ⟨hrun', hflag', hlevel' ▸ hlevel⟩
  flagged p hp := by
    have hsame : (t.proc p).inQ = (s.proc p).inQ := (hstable p).flag.resolve_right hp
    obtain ⟨hflag, hmem⟩ := hs.flagged p (hsame ▸ hp)
    have hlevel := ((hstable p).queued (hs.queued _ p hmem).1 hflag).2.2
    exact ⟨hsame.trans hflag, hlevel ▸ hmem⟩
  nodup := hs.nodup
  turn := hturn

/-- The scheduler moves on, to one of the five queues if to a queue. -/
theorem setPhase (hs : Steady s entries) {phase : Phase}
    (hturn : ∀ l, phase = .dequeue l → l < 5) : Steady (s.setPhase 0 phase) entries := by
  refine hs.of_stable (hs.hosted.of_same rfl fun _ => Iff.rfl) rfl (fun l hl => ?_)
    fun _ => QueueStable.refl _
  exact hturn l (by simpa using hl)

/-- **The enqueue loop** keeps the state steady. -/
theorem enqueueLoop (hs : Steady s entries) :
    Steady s.enqueueLoop fun l => entries l ++ s.joiners l := by
  have hnodup : ∀ l, (entries l ++ s.joiners l).Nodup := by
    intro l
    refine (hs.nodup l).append Mlfq.joiners_nodup fun p hp hjoin => ?_
    exact hs.not_mem_of_flag (Mlfq.mem_joiners.mp hjoin).1.2 hp
  refine ⟨?_, ?_, ?_, ?_, ?_, hnodup, fun l hl => hs.turn l (by simpa using hl)⟩
  · exact hs.hosted.of_same Mlfq.enqueueLoop_cpu fun i => by
      rw [show s.enqueueLoop.kernel.proc i = s.enqueueLoop.proc i from rfl,
        Mlfq.enqueueLoop_state]
  · intro l hl
    have hroom : (entries l ++ s.joiners l).length ≤ NPROC := by
      simpa using (hnodup l).length_le_card
    rw [List.map_append]
    exact Mlfq.enqueueLoop_holds (hs.holds l hl) (by simpa using hroom)
  · intro p
    rw [Mlfq.enqueueLoop_level]
    exact hs.level p
  · intro l p hp
    rw [Mlfq.enqueueLoop_proc]
    rcases List.mem_append.mp hp with hold | hjoin
    · have hq := hs.queued l p hold
      rw [if_neg (fun hwait => hs.not_mem_of_flag hwait.2 hold)]
      exact hq
    · obtain ⟨hwait, hl⟩ := Mlfq.mem_joiners.mp hjoin
      rw [if_pos hwait]
      exact ⟨hwait.1, rfl, hl⟩
  · intro p hp
    rw [Mlfq.enqueueLoop_level, List.mem_append, Mlfq.mem_joiners]
    rw [Mlfq.enqueueLoop_proc] at hp ⊢
    by_cases hwait : s.Waiting p
    · rw [if_pos hwait]
      exact ⟨rfl, Or.inr ⟨hwait, rfl⟩⟩
    · rw [if_neg hwait] at hp ⊢
      exact ⟨(hs.flagged p hp).1, Or.inl (hs.flagged p hp).2⟩

/-- Taking one process out of its queue and clearing its flag keeps the state
steady, whatever else happens to that process. -/
theorem remove {q : ProcQueue Slot} {rest : List Slot} (hs : Steady s entries)
    (hperm : (p :: rest).Perm (entries l)) (hsub : rest.Sublist (entries l))
    (hhosted : Hosted t.toSys) (hmfq : t.mfq = Function.update s.mfq l q)
    (hq : Holds q (rest.map some)) (hothers : ∀ j, j ≠ p → t.proc j = s.proc j)
    (hflag : (t.proc p).inQ = 0) (hlevel : (t.proc p).level.toNat < 5)
    (hturn : ∀ l, t.phase 0 = .dequeue l → l < 5) :
    Steady t (Function.update entries l rest) := by
  have hp : p ∈ entries l := hperm.mem_iff.mp List.mem_cons_self
  have hnot : p ∉ rest := (List.nodup_cons.mp (hperm.nodup_iff.mpr (hs.nodup l))).1
  have hmem : ∀ j l', j ∈ Function.update entries l rest l' ↔ j ∈ entries l' ∧ j ≠ p := by
    intro j l'
    by_cases hl : l' = l
    · subst hl
      rw [Function.update_self, ← hperm.mem_iff, List.mem_cons]
      exact ⟨fun h => ⟨Or.inr h, fun hj => hnot (hj ▸ h)⟩, fun h => h.1.resolve_left h.2⟩
    · rw [Function.update_of_ne hl]
      refine ⟨fun h => ⟨h, ?_⟩, And.left⟩
      -- a process is in the queue of its level only
      intro heq
      subst heq
      exact hl ((hs.queued l' j h).2.2.symm.trans (hs.queued l j hp).2.2)
  refine ⟨hhosted, ?_, ?_, ?_, ?_, ?_, hturn⟩
  · intro l' hl'
    rw [hmfq]
    by_cases hl : l' = l
    · subst hl
      simpa using hq
    · simpa [hl] using hs.holds l' hl'
  · intro j
    by_cases hj : j = p
    · exact hj ▸ hlevel
    · rw [hothers j hj]
      exact hs.level j
  · intro l' j hj
    obtain ⟨hj, hne⟩ := (hmem j l').mp hj
    rw [hothers j hne]
    exact hs.queued l' j hj
  · intro j hj
    have hne : j ≠ p := by
      intro heq
      subst heq
      exact hj hflag
    rw [hothers j hne] at hj ⊢
    exact ⟨(hs.flagged j hj).1, (hmem j _).mpr ⟨(hs.flagged j hj).2, hne⟩⟩
  · intro l'
    by_cases hl : l' = l
    · subst hl
      rw [Function.update_self]
      exact hsub.nodup (hs.nodup l')
    · rw [Function.update_of_ne hl]
      exact hs.nodup l'

/-- Where `ProcQueueRemove` is asked for a last entry, it takes that entry
off. -/
theorem removes_last (hs : Steady s entries)
    (hlast : RemovesLast (s.mfq (s.proc p).level.toNat) p) :
    ∃ q rest, procQueueRemove NPROC (fun j => (s.proc j).pid) (s.mfq (s.proc p).level.toNat)
        (s.proc p).pid = some q ∧
      entries (s.proc p).level.toNat = rest ++ [p] ∧ Holds q (rest.map some) := by
  obtain ⟨q, fs, hq, hes, hholds⟩ :=
    (hs.holds _ (hs.level p)).remove_last hlast (fun j => (s.proc j).pid) (NPROC - 1)
      (s.proc p).pid
  obtain ⟨rest, last, hrest, rfl, hmap⟩ := List.map_eq_append_iff.mp hes
  obtain ⟨j, rfl, hj⟩ : ∃ j, last = [j] ∧ some j = some p := by
    simpa [List.map_eq_singleton_iff] using hmap
  rw [Option.some.inj hj] at hrest
  exact ⟨q, rest, hq, hrest, hholds⟩

/-- **`ageing` of one slot** keeps the state steady, if it asks
`ProcQueueRemove` only for a last entry. -/
theorem ageSlot (hs : Steady s entries) (h : s.ageSlot i = some t)
    (hlast : s.Overdue i → (s.proc i).inQ = 1 →
      RemovesLast (s.mfq (s.proc i).level.toNat) i) :
    t.phase = s.phase ∧ ∃ entries', Steady t entries' ∧
      ∀ l, (entries' l).Sublist (entries l) := by
  rcases Mlfq.ageSlot_cases h with ⟨-, rfl⟩ | ⟨hover, hflag, rfl⟩ | ⟨hover, hflag, q, hq, rfl⟩
  · exact ⟨rfl, entries, hs, fun l => List.Sublist.refl _⟩
  · have hhosted : Hosted (s.modifyProc i (promote s.kernel.ticks)).toSys :=
      hs.hosted.of_same rfl fun j => by rw [Mlfq.modifyProc_state promote_state]
    refine ⟨rfl, entries, hs.of_stable hhosted rfl hs.turn fun j => ?_,
      fun l => List.Sublist.refl _⟩
    by_cases hj : j = i
    · subst hj
      simpa using promote_queueStable _ hflag
    · simpa [hj] using QueueStable.refl _
  · obtain ⟨q', rest, hq', hentries, hholds⟩ := hs.removes_last (hlast hover hflag)
    obtain rfl : q' = q := Option.some.inj (hq'.symm.trans hq)
    have hsub : rest.Sublist (entries (s.proc i).level.toNat) := by
      rw [hentries]
      exact List.sublist_append_left rest [i]
    have hperm : (i :: rest).Perm (entries (s.proc i).level.toNat) := by
      rw [hentries]
      exact (List.perm_append_singleton i rest).symm
    refine ⟨rfl, _, hs.remove hperm hsub ?_ rfl hholds ?_ ?_ ?_ hs.turn, ?_⟩
    · refine hs.hosted.of_same rfl fun j => ?_
      rw [Mlfq.modifyProc_state (by simp), Mlfq.setQueue_proc]
    · intro j hj
      simp [hj]
    · simp
    · rw [Mlfq.modifyProc_proc_self]
      exact promote_level _ (hs.level i)
    · intro l
      by_cases hl : l = (s.proc i).level.toNat
      · subst hl
        simpa using hsub
      · simp [hl]

/-- **A dequeue call on an empty queue** only moves the scheduler on. -/
theorem dequeueStep_nil (hs : Steady s entries) (hl : l < 5) (hempty : entries l = []) :
    s.dequeueStep 0 l = s.setPhase 0 (if l < 4 then .dequeue (l + 1) else .ageing 0) := by
  have hholds : Holds (s.mfq l) [] := by simpa [hempty] using hs.holds l hl
  have hsame : s.setQueue l (s.mfq l) = s := by
    simp [Mlfq.setQueue, Function.update_eq_self]
  simp [Mlfq.dequeueStep, hholds.dequeue_nil, hsame]

/-- **A dequeue call on another queue** dispatches its first process. -/
theorem dequeueStep_cons {rest : List Slot} (hs : Steady s entries) (hl : l < 5)
    (hcpu : s.cpu 0 = none) (hentries : entries l = p :: rest) :
    (s.dequeueStep 0 l).cpu 0 = some p ∧ (s.dequeueStep 0 l).phase 0 = .ageing 0 ∧
      Steady (s.dequeueStep 0 l) (Function.update entries l rest) := by
  have hp : p ∈ entries l := by simp [hentries]
  have hrun := (hs.queued l p hp).1
  have hholds : Holds (s.mfq l) (some p :: rest.map some) := by
    simpa [hentries] using hs.holds l hl
  obtain ⟨hret, hq⟩ := hholds.dequeue_cons
  set q := (procQueueDequeue (s.mfq l)).2 with hqdef
  have hstep : s.dequeueStep 0 l =
      (((s.setQueue l q).modifyProc p (setInQ 0)).setPhase 0 (.ageing 0)).dispatch 0 p := by
    simp [Mlfq.dequeueStep, hret, hrun, hqdef]
  rw [hstep]
  have hperm : (p :: rest).Perm (entries l) := by rw [hentries]
  have hsub : rest.Sublist (entries l) := by
    rw [hentries]
    exact List.sublist_cons_self p rest
  refine ⟨by simp, by simp, hs.remove hperm hsub ?_ rfl hq ?_ ?_ ?_ ?_⟩
  · refine hs.hosted.of_dispatch hcpu (by simp [hrun]) rfl ?_ ?_
    · simp [Mlfq.dispatch, Mlfq.modifyProc, dispatchProc]
    · intro i hi
      simp [Mlfq.dispatch, Mlfq.modifyProc, hi]
  · intro j hj
    simp [hj]
  · simp [dispatchProc, setQEnter]
  · simpa [dispatchProc, setQEnter] using hs.level p
  · intro l' hl'
    simp at hl'

end Steady

/-- **What a step of one hart does to the entries of the queues.** -/
inductive QueueChange (s : Mlfq 1) (entries : Nat → List Slot) (e : MlfqEvent 1)
    (t : Mlfq 1) (entries' : Nat → List Slot) : Prop
  /-- A process event or a timer check. -/
  | kept (he : e ≠ .scheduler 0) (hphase : t.phase = s.phase) (hsame : entries' = entries)
  /-- `ageing` takes at most one process out. -/
  | aged {i : Slot} (he : e = .scheduler 0) (hphase : s.phase 0 = .ageing i)
      (hnext : ∀ l, t.phase 0 ≠ .dequeue l) (hsub : ∀ l, (entries' l).Sublist (entries l))
  /-- The enqueue loop appends the joiners. -/
  | enqueued (he : e = .scheduler 0) (hphase : s.phase 0 = .enqueue)
      (ht : t = s.enqueueLoop.setPhase 0 (.dequeue 0))
      (happend : entries' = fun l => entries l ++ s.joiners l)
  /-- A queue turns out to be empty. -/
  | emptied {l : Nat} (he : e = .scheduler 0) (hphase : s.phase 0 = .dequeue l)
      (hempty : entries l = []) (hsame : entries' = entries)
      (ht : t = s.setPhase 0 (if l < 4 then .dequeue (l + 1) else .ageing 0))
  /-- The first process of a queue is dispatched. -/
  | dispatched {l : Nat} {p : Slot} {rest : List Slot} (he : e = .scheduler 0)
      (hphase : s.phase 0 = .dequeue l) (hfirst : entries l = p :: rest)
      (hrest : entries' = Function.update entries l rest) (hcpu : t.cpu 0 = some p)
      (hnext : t.phase 0 = .ageing 0)

/-- **Step lemma.**  A step that `AgesLast` allows keeps the state steady and
changes the entries in one of the five ways. -/
theorem Steady.step {s t : Mlfq 1} {entries : Nat → List Slot} {e : MlfqEvent 1}
    {past : Past (Mlfq 1) (MlfqEvent 1)} (hs : Steady s entries)
    (hmeet : AgesLast past s e) (h : s.step e = some t) :
    ∃ entries', Steady t entries' ∧ QueueChange s entries e t entries' := by
  cases e with
  | proc e =>
      obtain ⟨u, hu, rfl⟩ := Option.map_eq_some_iff.mp h
      have hhosted : Hosted u := hs.hosted.procStep (fun now p => setQEnter_state) hu
      refine ⟨entries, hs.of_stable hhosted rfl hs.turn fun i => ?_,
        .kept (by simp) rfl rfl⟩
      rcases (procStep_cases hu).2 with ⟨-, heff⟩ | ⟨-, h', p, hp, -, hleft, hothers⟩
      · exact (heff i).queueStable
      · by_cases hi : i = p
        · subst hi
          exact hleft.queueStable (hs.hosted.running h' i hp)
        · exact (hothers i hi).queueStable
  | timerTrap h0 =>
      obtain ⟨p, hp, ht⟩ := Option.map_eq_some_iff.mp h
      split at ht
      · subst ht
        have hrun := hs.hosted.running h0 p hp
        refine ⟨entries, hs.of_stable ?_ rfl hs.turn fun i => ?_, .kept (by simp) rfl rfl⟩
        · apply hs.hosted.of_leave hp rfl (by simp [Sys.leave, setQEnter, yieldProc])
          intro i hi
          simp [Sys.leave, hi]
        · by_cases hi : i = p
          · subst hi
            simpa [Mlfq.proc, Sys.leave] using yieldProc_demote_queueStable _ hrun
          · simpa [Mlfq.proc, Sys.leave, hi] using QueueStable.refl _
      · subst ht
        exact ⟨entries, hs, .kept (by simp) rfl rfl⟩
  | scheduler h0 =>
      obtain rfl : h0 = 0 := Subsingleton.elim h0 0
      by_cases hcpu : s.cpu 0 = none
      · simp only [Mlfq.step, Mlfq.schedulerStep, hcpu, if_true] at h
        cases hphase : s.phase 0 with
        | ageing i =>
            simp only [hphase] at h
            obtain ⟨u, hu, rfl⟩ := Option.map_eq_some_iff.mp h
            obtain ⟨-, entries', hs', hsub⟩ := hs.ageSlot hu (hmeet 0 rfl i hphase)
            refine ⟨entries', hs'.setPhase ?_, .aged rfl hphase ?_ hsub⟩
            · intro l hl
              split at hl <;> simp at hl
            · intro l hl
              simp only [Mlfq.setPhase_phase, Function.update_self] at hl
              split at hl <;> simp at hl
        | enqueue =>
            simp only [hphase, Option.some.injEq] at h
            subst h
            refine ⟨_, hs.enqueueLoop.setPhase ?_, .enqueued rfl hphase rfl rfl⟩
            intro l hl
            obtain rfl : 0 = l := by simpa using hl
            decide
        | dequeue l =>
            simp only [hphase, Option.some.injEq] at h
            have hl := hs.turn l hphase
            cases hentries : entries l with
            | nil =>
                rw [hs.dequeueStep_nil hl hentries] at h
                subst h
                refine ⟨entries, hs.setPhase ?_, .emptied rfl hphase hentries rfl rfl⟩
                intro l' hl'
                split at hl'
                · obtain rfl : l + 1 = l' := by simpa using hl'
                  omega
                · simp at hl'
            | cons p rest =>
                obtain ⟨hcpu', hnext, hs'⟩ := hs.dequeueStep_cons hl hcpu hentries
                subst h
                exact ⟨_, hs', .dispatched rfl hphase hentries rfl hcpu' hnext⟩
      · simp [Mlfq.step, Mlfq.schedulerStep, hcpu] at h

/-! ### The first pass -/

/-- The queues before any process but `initproc` has run. -/
def initEntries (l : Nat) : List Slot := if l = 0 then [initproc] else []

/-- **The first pass of the scheduler.**  Only `initproc` is there, and each
queue that the dequeue loops have not yet reached still has the null pointer
of `pq_init` first. -/
structure Fresh (s : Mlfq 1) : Prop where
  idle : s.cpu 0 = none
  first : (s.proc initproc).state = .runnable
  others : ∀ p, p ≠ initproc → (s.proc p).state = .unused ∧ (s.proc p).inQ = 0
  level : ∀ p, (s.proc p).level = 0
  stage : match s.phase 0 with
    | .dequeue l => l < 5 ∧ (s.proc initproc).inQ = 1 ∧ ∀ l' < 5,
        Holds (s.mfq l') ((if l ≤ l' then [none] else []) ++ (initEntries l').map some)
    | _ => (s.proc initproc).inQ = 0 ∧ ∀ l' < 5, Holds (s.mfq l') [none]

namespace Fresh

variable {s t : Mlfq 1} {i : Slot} {l : Nat}

theorem boot : Fresh (Mlfq.boot 1) where
  idle := rfl
  first := by
    rw [Mlfq.proc, Mlfq.boot, userinit_proc, if_pos rfl]
  others p hp := by
    rw [Mlfq.proc, Mlfq.boot, userinit_proc, if_neg hp]
    exact ⟨rfl, rfl⟩
  level p := by
    rw [Mlfq.proc, Mlfq.boot, userinit_proc]
    split <;> rfl
  stage := by
    refine ⟨?_, fun l _ => pqInit_holds⟩
    rw [Mlfq.proc, Mlfq.boot, userinit_proc, if_pos rfl]
    rfl

/-- A step of the first pass that leaves scheduler and queues alone. -/
theorem of_same (hs : Fresh s) (hcpu : t.cpu = s.cpu) (hphase : t.phase = s.phase)
    (hmfq : t.mfq = s.mfq)
    (hproc : ∀ i, (t.proc i).state = (s.proc i).state ∧ (t.proc i).level = (s.proc i).level ∧
      (t.proc i).inQ = (s.proc i).inQ) : Fresh t where
  idle := hcpu ▸ hs.idle
  first := (hproc _).1.trans hs.first
  others p hp :=
    ⟨(hproc p).1.trans (hs.others p hp).1, (hproc p).2.2.trans (hs.others p hp).2⟩
  level p := (hproc p).2.1.trans (hs.level p)
  stage := by
    rw [hphase, hmfq, (hproc initproc).2.2]
    exact hs.stage

/-- Only `initproc` joins, and it joins queue 0. -/
theorem joiners (hs : Fresh s) (hflag : (s.proc initproc).inQ = 0) :
    s.joiners l = initEntries l := by
  have hmem : ∀ p, p ∈ s.joiners l ↔ p = initproc ∧ l = 0 := by
    intro p
    rw [Mlfq.mem_joiners, hs.level p]
    constructor
    · intro hjoins
      obtain ⟨hwait, rfl⟩ := hjoins
      refine ⟨by_contra fun hp => ?_, rfl⟩
      have hrun := hwait.1
      simp [(hs.others p hp).1] at hrun
    · intro hfirst
      obtain ⟨rfl, rfl⟩ := hfirst
      exact ⟨⟨hs.first, hflag⟩, rfl⟩
  unfold initEntries
  split_ifs with hl
  · apply List.perm_singleton.mp
    apply (List.perm_ext_iff_of_nodup Mlfq.joiners_nodup (List.nodup_singleton _)).mpr
    intro p
    rw [hmem, List.mem_singleton, and_iff_left hl]
  · refine List.eq_nil_iff_forall_not_mem.mpr fun p hp => ?_
    exact hl ((hmem p).mp hp).2

/-- The scheduler moves on to the same kind of stage. -/
theorem setPhase_of_flag (hs : Fresh s) {phase : Phase} (hflag : (s.proc initproc).inQ = 0)
    (hholds : ∀ l < 5, Holds (s.mfq l) [none]) (hphase : ∀ l, phase ≠ .dequeue l) :
    Fresh (s.setPhase 0 phase) where
  idle := hs.idle
  first := hs.first
  others := hs.others
  level := hs.level
  stage := by
    simp only [Mlfq.setPhase_phase, Function.update_self]
    exact ⟨hflag, hholds⟩

/-- The enqueue loop of the first pass. -/
theorem enqueueLoop (hs : Fresh s) (hflag : (s.proc initproc).inQ = 0)
    (hholds : ∀ l < 5, Holds (s.mfq l) [none]) :
    Fresh (s.enqueueLoop.setPhase 0 (.dequeue 0)) where
  idle := by simpa using hs.idle
  first := by simpa using hs.first
  others p hp := by
    have hwait : ¬ s.Waiting p := by simp [Mlfq.Waiting, (hs.others p hp).1]
    rw [Mlfq.setPhase_proc, Mlfq.enqueueLoop_proc, if_neg hwait]
    exact hs.others p hp
  level p := by simpa using hs.level p
  stage := by
    simp only [Mlfq.setPhase_phase, Function.update_self, Mlfq.setPhase_proc, Mlfq.setPhase_mfq]
    refine ⟨by decide, ?_, ?_⟩
    · rw [Mlfq.enqueueLoop_proc, if_pos ⟨hs.first, hflag⟩]
      rfl
    · intro l hl
      have hroom : [(none : Option Slot)].length + (s.joiners l).length ≤ NPROC := by
        rw [hs.joiners hflag, initEntries]
        split <;> simp [NPROC]
      rw [if_pos (Nat.zero_le l), ← hs.joiners hflag]
      exact Mlfq.enqueueLoop_holds (hholds l hl) hroom

/-- A dequeue call of the first pass returns the null pointer; after the last
one the state is steady. -/
theorem dequeueStep (hs : Fresh s) (hphase : s.phase 0 = .dequeue l) :
    (s.dequeueStep 0 l).cpu 0 = none ∧
      (Fresh (s.dequeueStep 0 l) ∨
        (s.dequeueStep 0 l).phase 0 = .ageing 0 ∧
        Steady (s.dequeueStep 0 l) initEntries) := by
  have hstage := hs.stage
  simp only [hphase] at hstage
  obtain ⟨hl, hflag, hholds⟩ := hstage
  have hfirst := hholds l hl
  rw [if_pos (Nat.le_refl l)] at hfirst
  obtain ⟨hret, hq⟩ := hfirst.dequeue_cons
  set q := (procQueueDequeue (s.mfq l)).2 with hqdef
  have hstep : s.dequeueStep 0 l =
      (s.setQueue l q).setPhase 0 (if l < 4 then .dequeue (l + 1) else .ageing 0) := by
    simp [Mlfq.dequeueStep, hret, hqdef]
  have hqueues : ∀ l' < 5, Holds ((s.setQueue l q).mfq l')
      ((if l + 1 ≤ l' then [none] else []) ++ (initEntries l').map some) := by
    intro l' hl'
    by_cases heq : l' = l
    · subst heq
      rw [if_neg (Nat.not_succ_le_self l')]
      simpa using hq
    · have hiff : l ≤ l' ↔ l + 1 ≤ l' := by omega
      simpa [heq, hiff] using hholds l' hl'
  rw [hstep]
  refine ⟨hs.idle, ?_⟩
  by_cases hlast : l < 4
  · left
    refine ⟨hs.idle, hs.first, hs.others, hs.level, ?_⟩
    rw [if_pos hlast]
    simp only [Mlfq.setPhase_phase, Function.update_self]
    exact ⟨by omega, hflag, hqueues⟩
  · right
    rw [if_neg hlast]
    refine ⟨by simp, ⟨⟨?_, ?_, ?_⟩, ?_, ?_, ?_, ?_, ?_, ?_⟩⟩
    · intro h p hp
      obtain rfl : h = 0 := Subsingleton.elim h 0
      simp [hs.idle] at hp
    · intro p hp
      exfalso
      by_cases hi : p = initproc
      · subst hi
        simp [hs.first] at hp
      · simp [(hs.others p hi).1] at hp
    · intro h h' _ _ _
      exact Subsingleton.elim h h'
    · intro l' hl'
      have hholds' := hqueues l' hl'
      rw [if_neg (by omega)] at hholds'
      exact hholds'
    · intro p
      simp [hs.level p]
    · intro l' p hp
      unfold initEntries at hp
      split_ifs at hp with h0
      · obtain rfl : p = initproc := by simpa using hp
        simp [hs.first, hflag, hs.level, h0]
      · simp at hp
    · intro p hp
      by_cases hi : p = initproc
      · subst hi
        simp [hflag, hs.level, initEntries]
      · exact absurd (hs.others p hi).2 hp
    · intro l'
      unfold initEntries
      split_ifs <;> simp
    · intro l' hl'
      simp at hl'

/-- **Step lemma of the first pass.**  No process is dispatched in it, and it
goes on or the state has become steady with `initproc` alone in queue 0. -/
theorem step {e : MlfqEvent 1} (hs : Fresh s) (h : s.step e = some t) :
    t.cpu 0 = none ∧ (Fresh t ∨ t.phase 0 = .ageing 0 ∧ Steady t initEntries) := by
  have hidle : ∀ h, s.cpu h = none := fun h => Subsingleton.elim h 0 ▸ hs.idle
  cases e with
  | proc e =>
      obtain ⟨u, hu, rfl⟩ := Option.map_eq_some_iff.mp h
      obtain ⟨hcpu, htouched⟩ := procStep_idle hidle hu
      suffices hfresh : Fresh { s with toSys := u } from ⟨hfresh.idle, Or.inl hfresh⟩
      refine hs.of_same hcpu rfl rfl fun i => ?_
      have hstate : (s.proc i).state = .runnable ∨ (s.proc i).state = .unused := by
        by_cases hi : i = initproc
        · exact Or.inl (hi ▸ hs.first)
        · exact Or.inr (hs.others i hi).1
      have htouch := htouched i (by rcases hstate with h | h <;> simp [h])
      obtain ⟨k, a, b, c, hmark⟩ := htouch.eq_mark (by rcases hstate with h | h <;> simp [h])
      rw [show Mlfq.proc { s with toSys := u } i = u.kernel.proc i from rfl, hmark]
      exact ⟨rfl, rfl, rfl⟩
  | timerTrap h0 => simp [Mlfq.step, Mlfq.timerTrap, hidle h0] at h
  | scheduler h0 =>
      obtain rfl : h0 = 0 := Subsingleton.elim h0 0
      simp only [Mlfq.step, Mlfq.schedulerStep, hs.idle, if_true] at h
      have hstage := hs.stage
      cases hphase : s.phase 0 with
      | ageing i =>
          simp only [hphase] at h hstage
          obtain ⟨u, hu, rfl⟩ := Option.map_eq_some_iff.mp h
          have hnext : ∀ l, (if hi : i.val + 1 < NPROC then Phase.ageing ⟨i.val + 1, hi⟩
              else .enqueue) ≠ .dequeue l := by
            intro l hl
            split at hl <;> simp at hl
          rcases Mlfq.ageSlot_cases hu with ⟨-, rfl⟩ | ⟨-, -, rfl⟩ | ⟨-, hflag, -⟩
          · exact ⟨hs.idle, Or.inl (hs.setPhase_of_flag hstage.1 hstage.2 hnext)⟩
          · have hsame : Fresh (s.modifyProc i (promote s.kernel.ticks)) := by
              refine hs.of_same rfl rfl rfl fun j => ?_
              by_cases hj : j = i
              · subst hj
                simp [promote, hs.level j]
              · simp [hj]
            have hstage' := hsame.stage
            simp only [Mlfq.modifyProc_phase, hphase] at hstage'
            exact ⟨hs.idle, Or.inl (hsame.setPhase_of_flag hstage'.1 hstage'.2 hnext)⟩
          · by_cases hi : i = initproc
            · simp [hi, hstage.1] at hflag
            · simp [(hs.others i hi).2] at hflag
      | enqueue =>
          simp only [hphase, Option.some.injEq] at h hstage
          subst h
          have hfresh := hs.enqueueLoop hstage.1 hstage.2
          exact ⟨hfresh.idle, Or.inl hfresh⟩
      | dequeue l =>
          simp only [hphase, Option.some.injEq] at h
          subst h
          exact hs.dequeueStep hphase

end Fresh

/-! ### Membership -/

/-- **Membership.**  Every RUNNABLE process is flagged and its pointer occurs
once in the live segment of the queue of its level and in no other queue; an
unflagged process occurs in none. -/
def Membership {n : Nat} (s : Mlfq n) : Prop :=
  ∀ p : Slot,
    ((s.proc p).state = .runnable →
      (s.proc p).inQ = 1 ∧ (s.proc p).level.toNat < 5 ∧
      (s.mfq (s.proc p).level.toNat).live.count (some p) = 1 ∧
      ∀ l : Fin 5, l.val ≠ (s.proc p).level.toNat → some p ∉ (s.mfq l).live) ∧
    ((s.proc p).inQ = 0 → ∀ l : Fin 5, some p ∉ (s.mfq l).live)

instance {n : Nat} (s : Mlfq n) : Decidable (Membership s) := by
  unfold Membership
  infer_instance

/-- A steady state in which the enqueue loop has just left nobody out. -/
theorem Steady.membership {s : Mlfq 1} {entries : Nat → List Slot} (hs : Steady s entries)
    (hall : ∀ p, (s.proc p).state = .runnable → (s.proc p).inQ ≠ 0) : Membership s := by
  have hlive : ∀ l : Fin 5, ∀ p, some p ∈ (s.mfq l).live ↔ p ∈ entries l := by
    intro l p
    rw [(hs.holds l l.isLt).live_eq]
    simp
  intro p
  constructor
  · intro hrun
    obtain ⟨hflag, hmem⟩ := hs.flagged p (hall p hrun)
    refine ⟨hflag, hs.level p, ?_, ?_⟩
    · rw [(hs.holds _ (hs.level p)).live_eq]
      exact List.count_eq_one_of_mem ((hs.nodup _).map (Option.some_injective _))
        (List.mem_map_of_mem hmem)
    · intro l hl
      rw [hlive]
      intro hp
      exact hl (hs.queued l p hp).2.2.symm
  · intro hflag l
    rw [hlive]
    exact hs.not_mem_of_flag hflag

/-- The same at the end of the enqueue loop of the first pass. -/
theorem Fresh.membership {s : Mlfq 1} (hs : Fresh s) (hphase : s.phase 0 = .dequeue 0) :
    Membership s := by
  have hstage := hs.stage
  simp only [hphase] at hstage
  obtain ⟨-, hflag, hholds⟩ := hstage
  have hlive : ∀ l : Fin 5, (s.mfq l).live = none :: (initEntries l).map some := by
    intro l
    rw [(hholds l l.isLt).live_eq, if_pos (Nat.zero_le _)]
    rfl
  intro p
  by_cases hp : p = initproc
  · subst hp
    refine ⟨fun _ => ⟨hflag, by simp [hs.level], ?_, ?_⟩, ?_⟩
    · rw [hs.level, show UInt32.toNat 0 = (0 : Fin 5).val from rfl, hlive 0]
      decide
    · intro l hl
      rw [hs.level] at hl
      have hl0 : l.val ≠ 0 := hl
      rw [hlive, initEntries, if_neg hl0]
      simp
    · intro h
      simp [hflag] at h
  · constructor
    · intro hrun
      simp [(hs.others p hp).1] at hrun
    · intro _ l
      rw [hlive, initEntries]
      split_ifs <;> simp [hp]

/-- **Every run is in its first pass or steady**, as long as `AgesLast` holds
at its steps. -/
theorem fresh_or_steady {past : Past (Mlfq 1) (MlfqEvent 1)} {s : Mlfq 1}
    (run : Run (mlfq 1) past s) (hmeet : Machine.StepsMeet AgesLast past) :
    Fresh s ∨ ∃ entries, Steady s entries := by
  induction run with
  | init h =>
      subst h
      exact Or.inl Fresh.boot
  | step run h ih =>
      rcases ih hmeet.2 with hfresh | ⟨entries, hs⟩
      · rcases (hfresh.step h).2 with hfresh' | ⟨-, hs'⟩
        · exact Or.inl hfresh'
        · exact Or.inr ⟨_, hs'⟩
      · obtain ⟨entries', hs', -⟩ := hs.step hmeet.1 h
        exact Or.inr ⟨entries', hs'⟩

/-- **Membership after every enqueue loop** of a run of one hart in which
`ageing` asks `ProcQueueRemove` only for last entries of wrapped segments. -/
theorem membership_of_agesLast {past : Past (Mlfq 1) (MlfqEvent 1)} {s t : Mlfq 1}
    (run : Run (mlfq 1) past s) (hmeet : Machine.StepsMeet AgesLast past)
    (hphase : s.phase 0 = .enqueue) (hstep : (mlfq 1).step s (.scheduler 0) = some t) :
    Membership t := by
  have hagain : AgesLast past s (.scheduler 0) := by
    intro h _ i hi
    obtain rfl : h = 0 := Subsingleton.elim h 0
    simp [hphase] at hi
  have ht : s.cpu 0 = none ∧ s.enqueueLoop.setPhase 0 (.dequeue 0) = t := by
    simpa [mlfq, Mlfq.step, Mlfq.schedulerStep, hphase] using hstep
  have hnext : t.phase 0 = .dequeue 0 := by simp [← ht.2]
  rcases fresh_or_steady (run.step hstep) ⟨hagain, hmeet⟩ with hfresh | ⟨entries, hs⟩
  · exact hfresh.membership hnext
  · refine hs.membership fun p hrun => ?_
    obtain rfl := ht.2
    rw [Mlfq.setPhase_proc] at hrun ⊢
    rw [Mlfq.enqueueLoop_proc] at hrun ⊢
    by_cases hwait : s.Waiting p
    · simp [hwait]
    · rw [if_neg hwait] at hrun ⊢
      exact fun hflag => hwait ⟨hrun, hflag⟩

/-- The theorem at the first pass. -/
theorem membership_of_agesLast_first : ∃ past s t, Run (mlfq 1) past s ∧
    (mlfq 1).step s (.scheduler 0) = some t ∧ Membership t := by
  obtain ⟨past, s, run, hmeet, hphase, hstep⟩ := Machine.exists_run_of_trace
    (M := mlfq 1) rfl (scheduling 0 NPROC)
    (fun past s => Machine.StepsMeet AgesLast past ∧ s.phase 0 = .enqueue ∧
      ((mlfq 1).step s (.scheduler 0)).isSome = true) (by decide +kernel)
  obtain ⟨t, ht⟩ := Option.isSome_iff_exists.mp hstep
  exact ⟨past, s, t, run, ht, membership_of_agesLast run hmeet hphase ht⟩

/-- A run in which `ageing` removes the wrong entry.  After the pass that
clears the null pointers, init and its child sink to level 1 and sleep; the
child comes back after 23 ticks and is alone in `mfq[1]`, where
`ProcQueueRemove` finds nothing to do but sets `rear` behind `front`. -/
def agedOut : List (MlfqEvent 1) :=
  scheduling 0 136 ++ .proc (.fork 0 true) :: tickAndCheck 0 ++
  scheduling 0 66 ++ tickAndCheck 0 ++
  scheduling 0 67 ++ .proc (.sleep 0 (.other 0)) ::
  scheduling 0 67 ++ .proc (.sleep 0 (.other 0)) ::
  List.replicate 23 (.proc (.clockintr 0)) ++ .proc (.wakeup 0 (.other 0)) ::
  scheduling 0 67 ++ tickAndCheck 0 ++ tickAndCheck 0 ++ scheduling 0 64

set_option maxRecDepth 10000 in
/-- Membership fails: `mfq[1]` has run all the way round, and init's old
pointer is live in it while init is queued in `mfq[2]`. -/
theorem membership_fails :
    ¬ ∀ past s t, Run (mlfq 1) past s → s.phase 0 = .enqueue →
      (mlfq 1).step s (.scheduler 0) = some t → Membership t := by
  intro h
  obtain ⟨past, s, run, hphase, hstep⟩ := Machine.exists_run_of_trace
    (M := mlfq 1) rfl agedOut
    (fun _ s => s.phase 0 = .enqueue ∧
      ((mlfq 1).step s (.scheduler 0)).any (fun t => decide (¬ Membership t)) = true)
    (by decide +kernel)
  obtain ⟨t, ht, hnot⟩ := (Option.any_eq_true _ _).mp hstep
  exact of_decide_eq_true hnot (h past s t run hphase ht)

end Xv6
