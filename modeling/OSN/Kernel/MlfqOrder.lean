import OSN.Kernel.MlfqQueues

/-!
# In which order MLFQ dispatches

On one hart, and under the condition of the module before: a pass dispatches
from the lowest level that was RUNNABLE at the end of its enqueue loop, and
there the process that has been in the queue longest.  How long a process has
been in a queue is read off the past of the run.
-/

namespace Xv6

variable {past : Past (Mlfq 1) (MlfqEvent 1)} {s t : Mlfq 1} {e : MlfqEvent 1}
  {entries entries' : Nat → List Slot} {p q : Slot} {l : Nat}

/-- For how many states in a row, up to now, `p` has been in queue `l`. -/
def residence {n : Nat} (l : Nat) (p : Slot) : Past (Mlfq n) (MlfqEvent n) → Mlfq n → Nat
  | [], s => if some p ∈ (s.mfq l).live then 1 else 0
  | (u, _) :: past, s => if some p ∈ (s.mfq l).live then residence l p past u + 1 else 0

/-- `p` came into queue `l` before `q`: in an earlier enqueue loop, or in the
same one, which goes through the table in order. -/
def Older {n : Nat} (l : Nat) (past : Past (Mlfq n) (MlfqEvent n)) (s : Mlfq n)
    (p q : Slot) : Prop :=
  residence l q past s < residence l p past s ∨
    residence l q past s = residence l p past s ∧ p < q

instance {n : Nat} (l : Nat) (past : Past (Mlfq n) (MlfqEvent n)) (s : Mlfq n) (p q : Slot) :
    Decidable (Older l past s p q) := by
  unfold Older
  infer_instance

/-- The state right after the latest enqueue loop. -/
def enqueued : Past (Mlfq 1) (MlfqEvent 1) → Mlfq 1 → Mlfq 1
  | [], s => s
  | (u, e) :: past, s =>
      if e = .scheduler 0 ∧ u.phase 0 = .enqueue then s else enqueued past u

/-- **The dispatch order.**  `p` may be taken from queue `l`: no process that
was RUNNABLE after the enqueue loop has a lower level, and of the RUNNABLE
processes of level `l` it is the one that came into queue `l` first. -/
def DispatchOrder (past : Past (Mlfq 1) (MlfqEvent 1)) (s : Mlfq 1) (l : Nat) (p : Slot) :
    Prop :=
  (∀ q, ((enqueued past s).proc q).state = .runnable →
    l ≤ ((enqueued past s).proc q).level.toNat) ∧
  ∀ q, q ≠ p → (s.proc q).state = .runnable → (s.proc q).level.toNat = l →
    Older l past s p q

instance : Decidable (DispatchOrder past s l p) := by
  unfold DispatchOrder
  infer_instance

/-- **The order of the queues.**  Each queue is ordered by age; and while the
dequeue loops have come to queue `l`, everything that was RUNNABLE after the
enqueue loop is still in the queue of its level, which is `l` or higher. -/
structure Ordered (past : Past (Mlfq 1) (MlfqEvent 1)) (s : Mlfq 1)
    (entries : Nat → List Slot) : Prop where
  sorted : ∀ l < 5, (entries l).Pairwise (Older l past s)
  unserved : ∀ l, s.phase 0 = .dequeue l → ∀ q,
    ((enqueued past s).proc q).state = .runnable →
      q ∈ entries ((enqueued past s).proc q).level.toNat ∧
      l ≤ ((enqueued past s).proc q).level.toNat

section Residence

/-- In a steady state, who is in a queue is who its entries are. -/
theorem Steady.mem_live (hs : Steady s entries) (hl : l < 5) :
    some p ∈ (s.mfq l).live ↔ p ∈ entries l := by
  rw [(hs.holds l hl).live_eq]
  simp

theorem Steady.residence_pos (hs : Steady s entries) (hl : l < 5) (hp : p ∈ entries l) :
    0 < residence l p past s := by
  have hlive := (hs.mem_live hl).mpr hp
  cases past with
  | nil => simp [residence, hlive]
  | cons => simp [residence, hlive]

theorem Steady.residence_eq_zero (hs : Steady s entries) (hl : l < 5) (hp : p ∉ entries l) :
    residence l p past s = 0 := by
  have hlive : some p ∉ (s.mfq l).live := fun h => hp ((hs.mem_live hl).mp h)
  cases past with
  | nil => simp [residence, hlive]
  | cons => simp [residence, hlive]

/-- Whoever is in the queue after a step has been there one state longer than
before it. -/
theorem Steady.residence_step (ht : Steady t entries') (hl : l < 5) (hp : p ∈ entries' l) :
    residence l p ((s, e) :: past) t = residence l p past s + 1 := by
  simp [residence, (ht.mem_live hl).mpr hp]

end Residence

/-- The processes that stay in their queues keep their order. -/
theorem Ordered.sorted_of_sublist (ho : Ordered past s entries) (ht : Steady t entries')
    (hl : l < 5) (hsub : (entries' l).Sublist (entries l)) :
    (entries' l).Pairwise (Older l ((s, e) :: past) t) := by
  refine ((ho.sorted l hl).sublist hsub).imp_of_mem fun {p q} hp hq holder => ?_
  rw [Older, ht.residence_step hl hp, ht.residence_step hl hq]
  exact holder.imp (Nat.add_lt_add_right · 1) fun h => ⟨by rw [h.1], h.2⟩

/-- The processes that join come behind the others, in table order. -/
theorem Ordered.sorted_of_append (hs : Steady s entries) (ho : Ordered past s entries)
    (ht : Steady t fun l => entries l ++ s.joiners l) (hl : l < 5) :
    (entries l ++ s.joiners l).Pairwise (Older l ((s, e) :: past) t) := by
  have hage : ∀ p ∈ entries l ++ s.joiners l,
      residence l p ((s, e) :: past) t = residence l p past s + 1 := fun p hp =>
    ht.residence_step hl hp
  have hnew : ∀ p ∈ s.joiners l, residence l p past s = 0 := by
    intro p hp
    exact hs.residence_eq_zero hl (hs.not_mem_of_flag (Mlfq.mem_joiners.mp hp).1.2)
  refine List.pairwise_append.mpr ⟨?_, ?_, fun p hp q hq => ?_⟩
  · refine (ho.sorted l hl).imp_of_mem fun {p q} hp hq holder => ?_
    rw [Older, hage p (List.mem_append_left _ hp), hage q (List.mem_append_left _ hq)]
    exact holder.imp (Nat.add_lt_add_right · 1) fun h => ⟨by rw [h.1], h.2⟩
  · have htable : (s.joiners l).Pairwise (· < ·) := by
      unfold Mlfq.joiners Mlfq.joining
      exact (List.pairwise_lt_finRange NPROC).filter _
    refine htable.imp_of_mem fun {p q} hp hq hlt => Or.inr ⟨?_, hlt⟩
    rw [hage p (List.mem_append_right _ hp), hage q (List.mem_append_right _ hq),
      hnew p hp, hnew q hq]
  · left
    rw [hage p (List.mem_append_left _ hp), hage q (List.mem_append_right _ hq), hnew q hq]
    have : 0 < residence l p past s := hs.residence_pos hl hp
    omega

/-- **Step lemma for the order.**  It is kept by every change of the queues. -/
theorem Ordered.step (hs : Steady s entries) (ho : Ordered past s entries)
    (ht : Steady t entries') (hchange : QueueChange s entries e t entries') :
    Ordered ((s, e) :: past) t entries' := by
  cases hchange with
  | kept he hphase hsame =>
      subst hsame
      refine ⟨fun l hl => ho.sorted_of_sublist ht hl (List.Sublist.refl _), ?_⟩
      intro l hl q hq
      rw [hphase] at hl
      rw [enqueued, if_neg (fun h => he h.1)] at hq ⊢
      exact ho.unserved l hl q hq
  | aged he hphase hnext hsub =>
      exact ⟨fun l hl => ho.sorted_of_sublist ht hl (hsub l), fun l hl => absurd hl (hnext l)⟩
  | enqueued he hphase hloop happend =>
      subst happend
      refine ⟨fun l hl => Ordered.sorted_of_append hs ho ht hl, ?_⟩
      intro l hl q hq
      have hl0 : l = 0 := by
        have : Phase.dequeue 0 = .dequeue l := by simpa [hloop] using hl
        simpa using this.symm
      rw [Xv6.enqueued, if_pos ⟨he, hphase⟩] at hq ⊢
      refine ⟨?_, by omega⟩
      -- after the loop every RUNNABLE process is flagged
      have hflag : (t.proc q).inQ ≠ 0 := by
        rw [hloop, Mlfq.setPhase_proc, Mlfq.enqueueLoop_proc] at hq ⊢
        by_cases hwait : s.Waiting q
        · simp [hwait]
        · rw [if_neg hwait] at hq ⊢
          exact fun h => hwait ⟨hq, h⟩
      exact (ht.flagged q hflag).2
  | @emptied l' he hphase hempty hsame hloop =>
      subst hsame
      refine ⟨fun l hl => ho.sorted_of_sublist ht hl (List.Sublist.refl _), ?_⟩
      intro l hl q hq
      have hnot : ¬ (e = .scheduler 0 ∧ s.phase 0 = .enqueue) := by simp [hphase]
      rw [enqueued, if_neg hnot] at hq ⊢
      obtain ⟨hmem, hle⟩ := ho.unserved l' hphase q hq
      refine ⟨hmem, ?_⟩
      have hne : ((enqueued past s).proc q).level.toNat ≠ l' := by
        intro heq
        rw [heq, hempty] at hmem
        simp at hmem
      simp only [hloop, Mlfq.setPhase_phase, Function.update_self] at hl
      split at hl
      · have : l' + 1 = l := by simpa using hl
        omega
      · simp at hl
  | @dispatched l' p rest he hphase hfirst hrest hcpu hnext =>
      refine ⟨fun l hl => ho.sorted_of_sublist ht hl ?_, fun l hl => by simp [hnext] at hl⟩
      rw [hrest]
      by_cases heq : l = l'
      · subst heq
        rw [Function.update_self, hfirst]
        exact List.sublist_cons_self p rest
      · rw [Function.update_of_ne heq]

/-- **Every run is in its first pass or steady and ordered**, as long as
`AgesLast` holds at its steps. -/
theorem fresh_or_ordered (run : Run (mlfq 1) past s)
    (hmeet : Machine.StepsMeet AgesLast past) :
    Fresh s ∨ ∃ entries, Steady s entries ∧ Ordered past s entries := by
  induction run with
  | init h =>
      subst h
      exact Or.inl Fresh.boot
  | step run h ih =>
      rcases ih hmeet.2 with hfresh | ⟨entries, hs, ho⟩
      · rcases (hfresh.step h).2 with hfresh' | ⟨hphase, hs'⟩
        · exact Or.inl hfresh'
        · refine Or.inr ⟨_, hs', fun l _ => ?_, fun l hl => by simp [hphase] at hl⟩
          unfold initEntries
          split_ifs <;> simp
      · obtain ⟨entries', hs', hchange⟩ := hs.step hmeet.1 h
        exact Or.inr ⟨entries', hs', ho.step hs hs' hchange⟩

/-- **The dispatch order holds** at every dispatch of a run of one hart in
which `ageing` asks `ProcQueueRemove` only for last entries of wrapped
segments. -/
theorem dispatchOrder_of_agesLast (run : Run (mlfq 1) past s)
    (hmeet : Machine.StepsMeet AgesLast past) (hphase : s.phase 0 = .dequeue l)
    (hstep : (mlfq 1).step s (.scheduler 0) = some t) (hcpu : t.cpu 0 = some p) :
    DispatchOrder past s l p := by
  have hmeet' : AgesLast past s (.scheduler 0) := by
    intro h _ i hi
    obtain rfl : h = 0 := Subsingleton.elim h 0
    simp [hphase] at hi
  rcases fresh_or_ordered run hmeet with hfresh | ⟨entries, hs, ho⟩
  · have hidle := (hfresh.step (show s.step (.scheduler 0) = some t from hstep)).1
    simp [hidle] at hcpu
  · obtain ⟨entries', ht, hchange⟩ := hs.step hmeet' hstep
    have hl := hs.turn l hphase
    cases hchange with
    | kept he => exact absurd rfl he
    | aged _ hphase' => simp [hphase] at hphase'
    | enqueued _ hphase' => simp [hphase] at hphase'
    | emptied _ _ _ _ ht' =>
        have hidle : s.cpu 0 = none := by
          by_contra hne
          simp [mlfq, Mlfq.step, Mlfq.schedulerStep, hne] at hstep
        simp [ht', hidle] at hcpu
    | @dispatched l' p' rest _ hphase' hfirst _ hcpu' _ =>
        obtain rfl : l = l' := by simpa [hphase] using hphase'
        obtain rfl : p = p' := by simpa [hcpu] using hcpu'
        refine ⟨fun q hq => (ho.unserved l hphase q hq).2, ?_⟩
        intro q hne hrun hlevel
        have hsorted := ho.sorted l hl
        have hp : p ∈ entries l := by simp [hfirst]
        by_cases hq : q ∈ entries l
        · rw [hfirst] at hsorted hq
          exact (List.pairwise_cons.mp hsorted).1 q ((List.mem_cons.mp hq).resolve_left hne)
        · left
          rw [hs.residence_eq_zero hl hq]
          exact hs.residence_pos hl hp

/-- The theorem at the first dispatch, of `initproc` from queue 0. -/
theorem dispatchOrder_of_agesLast_first : ∃ past s t, Run (mlfq 1) past s ∧
    (mlfq 1).step s (.scheduler 0) = some t ∧ t.cpu 0 = some initproc ∧
    DispatchOrder past s 0 initproc := by
  obtain ⟨past, s, run, hmeet, hphase, hstep⟩ := Machine.exists_run_of_trace
    (M := mlfq 1) rfl (scheduling 0 135)
    (fun past s => Machine.StepsMeet AgesLast past ∧ s.phase 0 = .dequeue 0 ∧
      ((mlfq 1).step s (.scheduler 0)).any (fun t => t.cpu 0 = some initproc) = true)
    (by decide +kernel)
  obtain ⟨t, ht, hcpu⟩ := (Option.any_eq_true _ _).mp hstep
  have hcpu' : t.cpu 0 = some initproc := of_decide_eq_true hcpu
  exact ⟨past, s, t, run, ht, hcpu', dispatchOrder_of_agesLast run hmeet hphase ht hcpu'⟩

/-- `agedOut`, continued: the child sinks to level 1 while `mfq[1]` is full of
null pointers, the first of which ends the search of that queue. -/
def overtaken : List (MlfqEvent 1) :=
  agedOut ++ scheduling 0 2 ++ .proc (.sleep 0 (.other 0)) ::
  scheduling 0 68 ++ .proc (.wakeup 0 (.other 0)) :: .proc (.sleep 0 (.other 1)) ::
  scheduling 0 66 ++ .proc (.wakeup 0 (.other 1)) :: tickAndCheck 0 ++ scheduling 0 67

set_option maxRecDepth 10000 in
/-- The dispatch order fails: init is dispatched from level 2 although its
child is RUNNABLE at level 1. -/
theorem dispatchOrder_fails :
    ¬ ∀ past s t l p, Run (mlfq 1) past s → s.phase 0 = .dequeue l →
      (mlfq 1).step s (.scheduler 0) = some t → t.cpu 0 = some p →
      DispatchOrder past s l p := by
  intro h
  obtain ⟨past, s, run, hphase, hstep, hnot⟩ := Machine.exists_run_of_trace
    (M := mlfq 1) rfl overtaken
    (fun past s => s.phase 0 = .dequeue 2 ∧
      ((mlfq 1).step s (.scheduler 0)).any (fun t => t.cpu 0 = some initproc) = true ∧
      ¬ DispatchOrder past s 2 initproc)
    (by decide +kernel)
  obtain ⟨t, ht, hcpu⟩ := (Option.any_eq_true _ _).mp hstep
  exact hnot (h past s t 2 initproc run hphase ht (of_decide_eq_true hcpu))

end Xv6
