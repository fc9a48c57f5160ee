import OSN.Kernel.Mlfq

/-!
# What the steps of the MLFQ kernel do

The enqueue loop as a whole, the other steps inverted: for each, what can have
happened to the processes and to `c->proc`, so that no invariant has to unfold
a step.
-/

namespace Xv6

/-! ### Levels -/

@[simp] theorem demote_inQ {p : Proc} : (demote p).inQ = p.inQ := by
  unfold demote
  split
  · rfl
  · split <;> rfl

/-- The five levels are enough for the timer check. -/
theorem demote_level {p : Proc} (h : p.level.toNat < 5) : (demote p).level.toNat < 5 := by
  unfold demote
  split
  case isTrue hlt =>
      have : p.level.toNat < 4 := by simpa [UInt32.lt_iff_toNat_lt] using hlt
      simp only [UInt32.toNat_add, UInt32.toNat_one]
      omega
  case isFalse =>
      split <;> exact h

/-- They are enough for `ageing`. -/
theorem promote_level {p : Proc} (now : UInt32) (h : p.level.toNat < 5) :
    (promote now p).level.toNat < 5 := by
  unfold promote
  by_cases hpos : 0 < p.level
  · have hle : (1 : UInt32) ≤ p.level := by
      rw [UInt32.le_iff_toNat_le]
      simpa [UInt32.lt_iff_toNat_lt, Nat.one_le_iff_ne_zero, Nat.pos_iff_ne_zero] using hpos
    simp only [hpos, if_true, UInt32.toNat_sub_of_le _ _ hle, UInt32.toNat_one]
    omega
  · simpa [hpos] using h

namespace Mlfq

variable {n : Nat} {s : Mlfq n} {slots : List Slot} {i j : Slot} {l : Nat}

/-! ### The loop that enqueues -/

/-- What the enqueue loop looks for. -/
def Waiting (s : Mlfq n) (i : Slot) : Prop :=
  (s.proc i).state = .runnable ∧ (s.proc i).inQ = 0

instance (s : Mlfq n) (i : Slot) : Decidable (s.Waiting i) := by
  unfold Waiting
  infer_instance

/-- The ones among `slots` that it puts into queue `l`, in table order. -/
def joining (s : Mlfq n) (slots : List Slot) (l : Nat) : List Slot :=
  slots.filter fun i => s.Waiting i ∧ (s.proc i).level.toNat = l

theorem mem_joining : i ∈ s.joining slots l ↔
    i ∈ slots ∧ s.Waiting i ∧ (s.proc i).level.toNat = l := by
  simp [joining]

/-- The loop body sets the flag of a waiting process. -/
theorem enqueueSlot_proc :
    (s.enqueueSlot j).proc i =
      if i = j ∧ s.Waiting i then setInQ 1 (s.proc i) else s.proc i := by
  by_cases hij : i = j
  · subst hij
    by_cases hwait : s.Waiting i
    · simp [enqueueSlot, hwait, hwait.1, hwait.2]
    · have : ¬ ((s.proc i).state = .runnable ∧ (s.proc i).inQ = 0) := hwait
      simp [enqueueSlot, this, hwait]
  · simp only [hij, false_and, if_false, enqueueSlot]
    split
    · simp [hij]
    · rfl

theorem enqueueSlot_proc_of_ne (hij : i ≠ j) : (s.enqueueSlot j).proc i = s.proc i := by
  rw [enqueueSlot_proc, if_neg (fun h => hij h.1)]

/-- The loop body appends a waiting process to the queue of its level. -/
theorem enqueueSlot_mfq :
    (s.enqueueSlot j).mfq l =
      if s.Waiting j ∧ (s.proc j).level.toNat = l then procQueueEnqueue (s.mfq l) j
      else s.mfq l := by
  by_cases hwait : s.Waiting j
  · have hcond : (s.proc j).state = .runnable ∧ (s.proc j).inQ = 0 := hwait
    by_cases hl : (s.proc j).level.toNat = l
    · simp [enqueueSlot, hcond, hwait, hl]
    · simp [enqueueSlot, hcond, hl, Function.update_of_ne (Ne.symm hl)]
  · have hcond : ¬ ((s.proc j).state = .runnable ∧ (s.proc j).inQ = 0) := hwait
    simp [enqueueSlot, hcond, hwait]

@[simp] theorem enqueueSlot_cpu : (s.enqueueSlot j).cpu = s.cpu := by
  unfold enqueueSlot
  split <;> rfl

@[simp] theorem enqueueSlot_phase : (s.enqueueSlot j).phase = s.phase := by
  unfold enqueueSlot
  split <;> rfl

@[simp] theorem enqueueSlot_ticks : (s.enqueueSlot j).kernel.ticks = s.kernel.ticks := by
  unfold enqueueSlot
  split <;> rfl

/-- The body leaves the other slots to the rest of the loop as they were. -/
theorem joining_enqueueSlot (hj : j ∉ slots) :
    (s.enqueueSlot j).joining slots l = s.joining slots l := by
  apply List.filter_congr
  intro i hi
  have hij : i ≠ j := fun h => hj (h ▸ hi)
  apply decide_eq_decide.mpr
  rw [Waiting, Waiting, enqueueSlot_proc_of_ne hij]

theorem foldl_enqueueSlot_proc :
    (slots.foldl enqueueSlot s).proc i =
      if i ∈ slots ∧ s.Waiting i then setInQ 1 (s.proc i) else s.proc i := by
  induction slots generalizing s with
  | nil => simp
  | cons j rest ih =>
      rw [List.foldl_cons, ih]
      by_cases hij : i = j
      · subst hij
        by_cases hwait : s.Waiting i
        · have hself : (s.enqueueSlot i).proc i = setInQ 1 (s.proc i) := by
            rw [enqueueSlot_proc, if_pos ⟨rfl, hwait⟩]
          have hdone : ¬ (s.enqueueSlot i).Waiting i := by simp [Waiting, hself]
          rw [if_neg (fun h => hdone h.2), hself, if_pos ⟨List.mem_cons_self, hwait⟩]
        · have hsame : (s.enqueueSlot i).proc i = s.proc i := by
            rw [enqueueSlot_proc, if_neg (fun h => hwait h.2)]
          have hdone : ¬ (s.enqueueSlot i).Waiting i := by rwa [Waiting, hsame]
          rw [if_neg (fun h => hdone h.2), hsame, if_neg (fun h => hwait h.2)]
      · simp [Waiting, enqueueSlot_proc_of_ne hij, hij]

/-- Queue `l` after the loop: what it held, and then the processes that
joined, in table order. -/
theorem foldl_enqueueSlot_holds {es : List (Option Slot)} (hnodup : slots.Nodup)
    (h : Holds (s.mfq l) es) (hroom : es.length + (s.joining slots l).length ≤ NPROC) :
    Holds ((slots.foldl enqueueSlot s).mfq l) (es ++ (s.joining slots l).map some) := by
  induction slots generalizing s es with
  | nil => simpa [joining] using h
  | cons j rest ih =>
      obtain ⟨hj, hrest⟩ := List.nodup_cons.mp hnodup
      have hsame := joining_enqueueSlot (s := s) (l := l) hj
      by_cases hjoin : s.Waiting j ∧ (s.proc j).level.toNat = l
      · have hcons : s.joining (j :: rest) l = j :: s.joining rest l := by
          simp [joining, hjoin]
        rw [hcons, List.length_cons] at hroom
        have hmfq : (s.enqueueSlot j).mfq l = procQueueEnqueue (s.mfq l) j := by
          rw [enqueueSlot_mfq, if_pos hjoin]
        have hnext : Holds ((s.enqueueSlot j).mfq l) (es ++ [some j]) :=
          hmfq ▸ h.enqueue (by omega)
        have := ih hrest hnext (by rw [hsame]; simp; omega)
        rw [hsame] at this
        simpa [hcons] using this
      · have hcons : s.joining (j :: rest) l = s.joining rest l := by
          simp [joining, hjoin]
        rw [hcons] at hroom ⊢
        have hmfq : (s.enqueueSlot j).mfq l = s.mfq l := by
          rw [enqueueSlot_mfq, if_neg hjoin]
        have := ih hrest (hmfq ▸ h) (by rw [hsame]; exact hroom)
        rwa [hsame] at this

theorem foldl_enqueueSlot_same (s : Mlfq n) (slots : List Slot) :
    (slots.foldl enqueueSlot s).cpu = s.cpu ∧ (slots.foldl enqueueSlot s).phase = s.phase ∧
      (slots.foldl enqueueSlot s).kernel.ticks = s.kernel.ticks := by
  induction slots generalizing s with
  | nil => exact ⟨rfl, rfl, rfl⟩
  | cons j rest ih => simpa using ih (s.enqueueSlot j)

/-- Who joins queue `l` in the enqueue loop of state `s`. -/
def joiners (s : Mlfq n) (l : Nat) : List Slot :=
  s.joining (List.finRange NPROC) l

theorem mem_joiners : i ∈ s.joiners l ↔ s.Waiting i ∧ (s.proc i).level.toNat = l := by
  simp [joiners, mem_joining]

theorem joiners_nodup : (s.joiners l).Nodup := by
  unfold joiners joining
  exact (List.nodup_finRange NPROC).filter _

/-- **The enqueue loop** sets the flags of the waiting processes. -/
theorem enqueueLoop_proc :
    s.enqueueLoop.proc i = if s.Waiting i then setInQ 1 (s.proc i) else s.proc i := by
  simp [enqueueLoop, foldl_enqueueSlot_proc]

/-- **The enqueue loop** appends the joiners to each queue. -/
theorem enqueueLoop_holds {es : List (Option Slot)} (h : Holds (s.mfq l) es)
    (hroom : es.length + (s.joiners l).length ≤ NPROC) :
    Holds (s.enqueueLoop.mfq l) (es ++ (s.joiners l).map some) := by
  unfold enqueueLoop joiners at *
  exact foldl_enqueueSlot_holds (List.nodup_finRange NPROC) h hroom

@[simp] theorem enqueueLoop_cpu : s.enqueueLoop.cpu = s.cpu := by
  simp only [enqueueLoop, foldl_enqueueSlot_same]

@[simp] theorem enqueueLoop_phase : s.enqueueLoop.phase = s.phase := by
  simp only [enqueueLoop, foldl_enqueueSlot_same]

@[simp] theorem enqueueLoop_ticks : s.enqueueLoop.kernel.ticks = s.kernel.ticks := by
  simp only [enqueueLoop, foldl_enqueueSlot_same]

@[simp] theorem enqueueLoop_state : (s.enqueueLoop.proc i).state = (s.proc i).state := by
  rw [enqueueLoop_proc]
  split <;> rfl

@[simp] theorem enqueueLoop_level : (s.enqueueLoop.proc i).level = (s.proc i).level := by
  rw [enqueueLoop_proc]
  split <;> rfl

/-! ### Steps, inverted -/

/-- **`ageing` of one slot, inverted.**  A process that is not overdue is left
alone.  One that is leaves its queue if it is flagged, and is promoted. -/
theorem ageSlot_cases {s t : Mlfq n} {i : Slot} (h : s.ageSlot i = some t) :
    (¬ s.Overdue i ∧ t = s) ∨
    (s.Overdue i ∧ (s.proc i).inQ ≠ 1 ∧ t = s.modifyProc i (promote s.kernel.ticks)) ∨
    (s.Overdue i ∧ (s.proc i).inQ = 1 ∧ ∃ q,
      procQueueRemove NPROC (fun j => (s.proc j).pid) (s.mfq (s.proc i).level.toNat)
        (s.proc i).pid = some q ∧
      t = (s.setQueue (s.proc i).level.toNat q).modifyProc i fun p =>
        promote s.kernel.ticks (setInQ 0 p)) := by
  by_cases hover : s.Overdue i
  · by_cases hflag : (s.proc i).inQ = 1
    · obtain ⟨q, hq, ht⟩ := Option.map_eq_some_iff.mp (by
        simpa only [ageSlot, hover, hflag, if_true] using h)
      exact Or.inr (Or.inr ⟨hover, hflag, q, hq, ht.symm⟩)
    · refine Or.inr (Or.inl ⟨hover, hflag, ?_⟩)
      simpa [ageSlot, hover, hflag, eq_comm] using h
  · refine Or.inl ⟨hover, ?_⟩
    simpa [ageSlot, hover, eq_comm] using h

/-- **One dequeue call of the scheduler, inverted.**  Null moves the scheduler
on, a pointer to a process that is not RUNNABLE is dropped, and another is
dispatched. -/
theorem dequeueStep_cases (s : Mlfq n) (h : Fin n) (l : Nat) :
    ((procQueueDequeue (s.mfq l)).1 = none ∧
      s.dequeueStep h l = (s.setQueue l (procQueueDequeue (s.mfq l)).2).setPhase h
        (if l < 4 then .dequeue (l + 1) else .ageing 0)) ∨
    (∃ p, (procQueueDequeue (s.mfq l)).1 = some p ∧ (s.proc p).state ≠ .runnable ∧
      s.dequeueStep h l =
        (s.setQueue l (procQueueDequeue (s.mfq l)).2).modifyProc p (setInQ 0)) ∨
    (∃ p, (procQueueDequeue (s.mfq l)).1 = some p ∧ (s.proc p).state = .runnable ∧
      s.dequeueStep h l =
        (((s.setQueue l (procQueueDequeue (s.mfq l)).2).modifyProc p (setInQ 0)).setPhase h
          (.ageing 0)).dispatch h p) := by
  cases hret : (procQueueDequeue (s.mfq l)).1 with
  | none =>
      left
      simp [dequeueStep, hret]
  | some p =>
      right
      by_cases hrun : (s.proc p).state = .runnable
      · right
        exact ⟨p, rfl, hrun, by simp [dequeueStep, hret, hrun]⟩
      · left
        exact ⟨p, rfl, hrun, by simp [dequeueStep, hret, hrun]⟩

/-- **The timer check, inverted.**  Nothing happens while the slice lasts;
when it is used up the process is given the next level and yields. -/
theorem timerTrap_cases {s t : Mlfq n} {h : Fin n} (ht : s.timerTrap h = some t) :
    ∃ p, s.cpu h = some p ∧
      (0 < (s.proc p).timeinQ ∧ t = s ∨
        (s.proc p).timeinQ = 0 ∧ t.cpu = Function.update s.cpu h none ∧
        t.kernel.ticks = s.kernel.ticks ∧
        t.proc p = setQEnter s.kernel.ticks (yieldProc s.kernel.ticks (demote (s.proc p))) ∧
        ∀ i, i ≠ p → t.proc i = s.proc i) := by
  obtain ⟨p, hp, hstep⟩ := Option.map_eq_some_iff.mp ht
  refine ⟨p, hp, ?_⟩
  split at hstep
  case isTrue hle =>
      have hzero : (s.proc p).timeinQ = 0 := UInt32.le_zero_iff.mp hle
      subst hstep
      refine Or.inr ⟨hzero, rfl, rfl, ?_, fun i hi => ?_⟩
      · simp [proc, Sys.leave]
      · simp [proc, Sys.leave, hi]
  case isFalse hgt => exact Or.inl ⟨UInt32.not_le.mp hgt, hstep.symm⟩

/-- **The scheduler step, inverted**, as far as the processes go: a slot is
aged, or only flags change, or a RUNNABLE process is dispatched. -/
theorem schedulerStep_cases {s t : Mlfq n} {h : Fin n} (ht : s.schedulerStep h = some t) :
    s.cpu h = none ∧ t.kernel.ticks = s.kernel.ticks ∧
    ((∃ i inQ, s.phase h = .ageing i ∧ s.Overdue i ∧ t.cpu = s.cpu ∧
        t.proc i = promote s.kernel.ticks (setInQ inQ (s.proc i)) ∧
        ∀ j, j ≠ i → t.proc j = s.proc j) ∨
      ((∀ i, s.phase h = .ageing i → ¬ s.Overdue i) ∧ t.cpu = s.cpu ∧
        ∀ j, ∃ inQ, t.proc j = setInQ inQ (s.proc j)) ∨
      (∃ l p, s.phase h = .dequeue l ∧ (s.proc p).state = .runnable ∧
        t.cpu = Function.update s.cpu h (some p) ∧
        t.proc p = dispatchProc s.kernel.ticks
          (setQEnter s.kernel.ticks (setInQ 0 (s.proc p))) ∧
        ∀ j, j ≠ p → t.proc j = s.proc j)) := by
  by_cases hcpu : s.cpu h = none
  · simp only [schedulerStep, hcpu, if_true] at ht
    refine ⟨hcpu, ?_⟩
    cases hphase : s.phase h with
    | ageing i =>
        simp only [hphase] at ht
        obtain ⟨u, hu, rfl⟩ := Option.map_eq_some_iff.mp ht
        rcases ageSlot_cases hu with ⟨hnot, rfl⟩ | ⟨hover, -, rfl⟩ | ⟨hover, -, q, -, rfl⟩
        · refine ⟨rfl, Or.inr (Or.inl ⟨?_, rfl, fun j => ⟨(u.proc j).inQ, rfl⟩⟩)⟩
          intro j hj
          obtain rfl : i = j := by simpa using hj
          exact hnot
        · refine ⟨rfl, Or.inl ⟨i, (s.proc i).inQ, rfl, hover, rfl, ?_, ?_⟩⟩
          · exact modifyProc_proc_self
          · intro j hj
            simp [hj]
        · refine ⟨rfl, Or.inl ⟨i, 0, rfl, hover, rfl, ?_, ?_⟩⟩
          · exact modifyProc_proc_self
          · intro j hj
            simp [hj]
    | enqueue =>
        simp only [hphase, Option.some.injEq] at ht
        subst ht
        refine ⟨by simp, Or.inr (Or.inl ⟨by simp, by simp, ?_⟩)⟩
        intro j
        rw [setPhase_proc, enqueueLoop_proc]
        split
        · exact ⟨1, rfl⟩
        · exact ⟨(s.proc j).inQ, rfl⟩
    | dequeue l =>
        simp only [hphase, Option.some.injEq] at ht
        subst ht
        rcases dequeueStep_cases s h l with ⟨hnone, hstep⟩ | ⟨p, hp, hnot, hstep⟩ |
          ⟨p, hp, hrun, hstep⟩
        · rw [hstep]
          exact ⟨rfl, Or.inr (Or.inl ⟨by simp, rfl, fun j => ⟨(s.proc j).inQ, rfl⟩⟩)⟩
        · rw [hstep]
          refine ⟨rfl, Or.inr (Or.inl ⟨by simp, rfl, ?_⟩)⟩
          intro j
          by_cases hj : j = p
          · subst hj
            exact ⟨0, modifyProc_proc_self⟩
          · exact ⟨(s.proc j).inQ, modifyProc_proc_of_ne hj⟩
        · rw [hstep]
          refine ⟨rfl, Or.inr (Or.inr ⟨l, p, rfl, hrun, rfl, ?_, ?_⟩)⟩
          · simp
          · intro j hj
            simp [hj]
  · simp [schedulerStep, hcpu] at ht

end Mlfq

/-- **Every RUNNING process has one hart** in every reachable state of the MLFQ
kernel. -/
theorem Mlfq.step_hosted {n : Nat} {s t : Mlfq n} {e : MlfqEvent n} (hs : Hosted s.toSys)
    (h : s.step e = some t) : Hosted t.toSys := by
  cases e with
  | proc e =>
      obtain ⟨u, hu, rfl⟩ := Option.map_eq_some_iff.mp h
      exact hs.procStep (fun now p => setQEnter_state) hu
  | timerTrap h0 =>
      obtain ⟨p, hp, ⟨-, rfl⟩ | ⟨-, hcpu, -, hself, hothers⟩⟩ := Mlfq.timerTrap_cases h
      · exact hs
      · refine hs.of_leave hp hcpu ?_ fun i hi => by
          rw [show t.kernel.proc i = s.kernel.proc i from hothers i hi]
        rw [show t.kernel.proc p = _ from hself]
        simp [yieldProc]
  | scheduler h0 =>
      obtain ⟨hfree, -, ⟨i, inQ, -, -, hcpu, hself, hothers⟩ | ⟨-, hcpu, hall⟩ |
        ⟨l, p, -, hrun, hcpu, hself, hothers⟩⟩ := Mlfq.schedulerStep_cases h
      · refine hs.of_same hcpu fun j => ?_
        by_cases hj : j = i
        · subst hj
          rw [show t.kernel.proc j = _ from hself]
          simp
        · rw [show t.kernel.proc j = s.kernel.proc j from hothers j hj]
      · refine hs.of_same hcpu fun j => ?_
        obtain ⟨inQ, hj⟩ := hall j
        rw [show t.kernel.proc j = _ from hj]
        simp
      · refine hs.of_dispatch hfree ?_ hcpu ?_ fun j hj => ?_
        · rw [show (s.kernel.proc p).state = .runnable from hrun]
          decide
        · rw [show t.kernel.proc p = _ from hself]
          rfl
        · rw [show t.kernel.proc j = s.kernel.proc j from hothers j hj]

theorem mlfq_hosted {n : Nat} {past : Past (Mlfq n) (MlfqEvent n)} {s : Mlfq n}
    (run : Run (mlfq n) past s) : Hosted s.toSys := by
  refine run.invariant (P := fun _ s => Hosted s.toSys) ?_ fun past s e t _ hs h =>
    Mlfq.step_hosted hs h
  intro s heq
  subst heq
  refine ⟨fun h p hp => by simp [Mlfq.boot] at hp, ?_, fun h h' p hp => by simp [Mlfq.boot] at hp⟩
  intro p hp
  rw [show (Mlfq.boot n).kernel.proc p = _ from userinit_proc p] at hp
  split at hp <;> simp at hp

end Xv6
