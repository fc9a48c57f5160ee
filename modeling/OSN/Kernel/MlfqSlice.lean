import OSN.Kernel.MlfqSteps

/-!
# Time slices under MLFQ

`RunningTime`, on hart 0, counts `timeinQ` of every RUNNING process down; the
hart that runs the process looks at it only at its own timer check.  The
counter is kept in order exactly as long as no process is counted more often
than its slice has ticks: `ran` counts the ticks from the past of the run, and
`SliceCount` is the invariant that ties it to `timeinQ`.
-/

namespace Xv6

/-- `slice` in numbers. -/
theorem slice_toNat {level : UInt32} (h : level.toNat < 5) :
    (slice level).toNat = 2 ^ level.toNat := by
  have hlt : 2 ^ level.toNat < 2 ^ 32 := Nat.pow_lt_pow_right (by decide) (by omega)
  have hmod : level.toNat % 32 = level.toNat := Nat.mod_eq_of_lt (by omega)
  simpa [slice, hmod, Nat.shiftLeft_eq] using hlt

/-- A demoted process has a whole slice of its new level. -/
theorem demote_slice {p : Proc} (h : p.level.toNat < 5) :
    (demote p).timeinQ = slice (demote p).level := by
  unfold demote
  split
  case isTrue => rfl
  case isFalse hge =>
      have hlevel : p.level = 4 := by
        have : ¬ p.level.toNat < 4 := by simpa [UInt32.lt_iff_toNat_lt] using hge
        have h4 : p.level.toNat = 4 := by omega
        exact UInt32.toNat_inj.mp h4
      rw [if_pos hlevel]

variable {n : Nat} {past : Past (Mlfq n) (MlfqEvent n)} {s t : Mlfq n} {e : MlfqEvent n}
  {p : Slot}

/-- For how many ticks has `p` been RUNNING since its slice was last set: when
it was created, by a timer check that found the slice used up, or by
`ageing`. -/
def ran (p : Slot) : Past (Mlfq n) (MlfqEvent n) → Nat
  | [] => 0
  | (u, .proc e) :: past =>
      if (u.proc p).state = .unused then 0
      else if e.isTick = true ∧ (u.proc p).state = .running then ran p past + 1
      else ran p past
  | (u, .timerTrap h) :: past =>
      if u.cpu h = some p ∧ 2 ^ (u.proc p).level.toNat ≤ ran p past then 0 else ran p past
  | (u, .scheduler h) :: past =>
      if u.phase h = .ageing p ∧ u.Overdue p ∧ 0 < (u.proc p).level then 0 else ran p past

/-- A tick finds no RUNNING process that has already been RUNNING for the whole
of its slice. -/
def InTime (past : Past (Mlfq n) (MlfqEvent n)) (s : Mlfq n) (e : MlfqEvent n) : Prop :=
  e.isTick = true → ∀ p, (s.proc p).state = .running →
    ran p past < 2 ^ (s.proc p).level.toNat

instance (past : Past (Mlfq n) (MlfqEvent n)) (s : Mlfq n) (e : MlfqEvent n) :
    Decidable (InTime past s e) := by
  unfold InTime
  infer_instance

/-- No live process has more than the slice of its level. -/
def SliceBounded (s : Mlfq n) : Prop :=
  ∀ p, (s.proc p).live → (s.proc p).timeinQ ≤ slice (s.proc p).level

instance (s : Mlfq n) : Decidable (SliceBounded s) := by
  unfold SliceBounded Proc.live
  infer_instance

/-- A tick does not count a slice below zero. -/
def NoUnderflow (s : Mlfq n) (e : MlfqEvent n) : Prop :=
  e.isTick = true → ∀ p, (s.proc p).state = .running → (s.proc p).timeinQ ≠ 0

instance (s : Mlfq n) (e : MlfqEvent n) : Decidable (NoUnderflow s e) := by
  unfold NoUnderflow
  infer_instance

/-- **Slices are kept** throughout a run. -/
def SliceKept (past : Past (Mlfq n) (MlfqEvent n)) (s : Mlfq n) : Prop :=
  Machine.StepsMeet (fun _ u e => SliceBounded u ∧ NoUnderflow u e) past ∧ SliceBounded s

/-- What is left of the slice of a process that has been RUNNING for `ran`
ticks of it. -/
structure Counted (p : Proc) (ran : Nat) : Prop where
  level : p.level.toNat < 5
  count : p.timeinQ.toNat + ran = 2 ^ p.level.toNat

namespace Counted

variable {p q : Proc} {r : Nat}

/-- Only level and slice matter. -/
theorem of_same (h : Counted p r) (hlevel : q.level = p.level) (htime : q.timeinQ = p.timeinQ) :
    Counted q r := by
  refine ⟨hlevel ▸ h.level, ?_⟩
  rw [hlevel, htime]
  exact h.count

/-- A whole slice. -/
theorem of_slice (hlevel : q.level.toNat < 5) (htime : q.timeinQ = slice q.level) :
    Counted q 0 := by
  refine ⟨hlevel, ?_⟩
  rw [htime, slice_toNat hlevel, Nat.add_zero]

/-- `RunningTime` takes one tick off. -/
theorem runningTime (h : Counted p r) (hrun : p.state = .running)
    (hlt : r < 2 ^ p.level.toNat) : Counted (runningTimeProc p) (r + 1) := by
  have hlevel : (runningTimeProc p).level = p.level := by simp [runningTimeProc, hrun]
  have htime : (runningTimeProc p).timeinQ = p.timeinQ - 1 := by simp [runningTimeProc, hrun]
  have hcount := h.count
  have hle : (1 : UInt32) ≤ p.timeinQ := by
    rw [UInt32.le_iff_toNat_le, UInt32.toNat_one]
    omega
  refine ⟨hlevel ▸ h.level, ?_⟩
  rw [hlevel, htime, UInt32.toNat_sub_of_le _ _ hle, UInt32.toNat_one]
  rw [UInt32.le_iff_toNat_le, UInt32.toNat_one] at hle
  omega

/-- The slice is used up exactly when all its ticks have been counted. -/
theorem timeinQ_eq_zero_iff (h : Counted p r) : p.timeinQ = 0 ↔ 2 ^ p.level.toNat ≤ r := by
  have hcount := h.count
  rw [← UInt32.toNat_inj, UInt32.toNat_zero]
  omega

theorem bounded (h : Counted p r) : p.timeinQ ≤ slice p.level := by
  have hcount := h.count
  rw [UInt32.le_iff_toNat_le, slice_toNat h.level]
  omega

theorem touched {now : UInt32} (htouched : Touched now p q) (h : Counted p r) :
    Counted q r := by
  cases htouched with
  | marked => exact h.of_same rfl rfl
  | woken => exact h.of_same rfl rfl

/-- A process keeps what is left of its slice when it leaves its hart. -/
theorem left {now : UInt32} (hleft : Left setQEnter now p q) (h : Counted p r) :
    Counted q r := by
  cases hleft with
  | yielded => exact h.of_same rfl rfl
  | slept => exact h.of_same rfl rfl
  | exited htouched => exact (touched htouched h).of_same rfl rfl

end Counted

/-- A process event counts a RUNNING process at a tick and no other. -/
theorem Effect.counted {now : UInt32} {tick : Prop} [Decidable tick] {newpid : Option Int}
    {p q : Proc} {r : Nat} (heff : Effect now tick newpid p q)
    (h : p.live → Counted p r) (hlt : tick → p.state = .running → r < 2 ^ p.level.toNat)
    (hlive : q.live) :
    Counted q (if p.state = .unused then 0
      else if tick ∧ p.state = .running then r + 1 else r) := by
  cases heff with
  | touched hstill htouched =>
      have hcond : ¬ (tick ∧ p.state = .running) := fun h => hstill h.1 h.2
      have hp : p.live := by
        cases htouched with
        | marked => exact hlive
        | woken hasleep => simp [Proc.live, hasleep]
      rw [if_neg hcond, if_neg hp]
      exact Counted.touched htouched (h hp)
  | ticked htick hrun =>
      have hp : p.live := by simp [Proc.live, hrun]
      rw [if_neg hp, if_pos ⟨htick, hrun⟩]
      exact (h hp).runningTime hrun (hlt htick hrun)
  | born hfree =>
      rw [if_pos hfree]
      exact Counted.of_slice (by simp [forkFields, allocprocFields]) rfl
  | unborn => exact absurd rfl hlive
  | reaped => exact absurd rfl hlive

/-- **The slices of a run**: every live process has what its ticks have left of
its slice. -/
structure SliceCount (past : Past (Mlfq n) (MlfqEvent n)) (s : Mlfq n) : Prop where
  hosted : Hosted s.toSys
  counted : ∀ p, (s.proc p).live → Counted (s.proc p) (ran p past)

namespace SliceCount

theorem boot : SliceCount [] (Mlfq.boot n) := by
  refine ⟨mlfq_hosted (Run.init rfl), ?_⟩
  intro p hlive
  have hproc : (Mlfq.boot n).proc p = _ := userinit_proc p
  rw [hproc] at hlive ⊢
  split
  case isTrue => exact Counted.of_slice (by simp [allocprocFields]) rfl
  case isFalse hp => simp [hp, Proc.live] at hlive

theorem bounded (hs : SliceCount past s) : SliceBounded s :=
  fun p hlive => (hs.counted p hlive).bounded

/-- A running process of a hart is counted. -/
theorem of_cpu (hs : SliceCount past s) {h : Fin n} (hp : s.cpu h = some p) :
    Counted (s.proc p) (ran p past) := by
  have hrun : (s.proc p).state = .running := hs.hosted.running h p hp
  exact hs.counted p (by simp [Proc.live, hrun])

/-- The two conditions on a tick say the same. -/
theorem inTime_iff (hs : SliceCount past s) : InTime past s e ↔ NoUnderflow s e := by
  refine forall_congr' fun _ => forall_congr' fun p => forall_congr' fun hrun => ?_
  have hcounted := hs.counted p (by simp [Proc.live, hrun])
  rw [Ne, hcounted.timeinQ_eq_zero_iff, Nat.not_le]

theorem counted_proc {e : ProcEvent n} (hs : SliceCount past s) (hmeet : InTime past s (.proc e))
    (h : s.step (.proc e) = some t) (hlive : (t.proc p).live) :
    Counted (t.proc p) (ran p ((s, .proc e) :: past)) := by
  obtain ⟨u, hu, rfl⟩ := Option.map_eq_some_iff.mp h
  rcases (procStep_cases hu).2 with ⟨-, heff⟩ | ⟨htick, h', p', hp', -, hleft, hothers⟩
  · exact (heff p).counted (hs.counted p) (fun htick hrun => hmeet htick p hrun) hlive
  · have hnot : ¬ (e.isTick = true ∧ (s.proc p).state = .running) := by simp [htick]
    by_cases hpp : p = p'
    · subst hpp
      have hrun : (s.proc p).state = .running := hs.hosted.running h' p hp'
      rw [ran, if_neg (by simp [hrun]), if_neg hnot]
      exact Counted.left hleft (hs.of_cpu hp')
    · have heff : Effect u.kernel.ticks (e.isTick = true) none (s.proc p) (u.kernel.proc p) :=
        .touched (fun h => by simp [htick] at h) (hothers p hpp)
      exact heff.counted (hs.counted p) (fun htick hrun => hmeet htick p hrun) hlive

/-- The timer check gives a new slice to a process whose slice is used up. -/
theorem counted_timerTrap {h0 : Fin n} (hs : SliceCount past s)
    (h : s.step (.timerTrap h0) = some t) (hlive : (t.proc p).live) :
    Counted (t.proc p) (ran p ((s, .timerTrap h0) :: past)) := by
  obtain ⟨p', hp', hcases⟩ := Mlfq.timerTrap_cases h
  have hcounted := hs.of_cpu hp'
  have hused := hcounted.timeinQ_eq_zero_iff
  rcases hcases with ⟨hpos, rfl⟩ | ⟨hzero, -, -, hself, hothers⟩
  · have hcond : ¬ (t.cpu h0 = some p ∧ 2 ^ (t.proc p).level.toNat ≤ ran p past) := by
      intro hover
      obtain ⟨hp, hle⟩ := hover
      obtain rfl : p' = p := Option.some.inj (hp'.symm.trans hp)
      rw [hused.mpr hle] at hpos
      exact absurd hpos (by decide)
    rw [ran, if_neg hcond]
    exact hs.counted p hlive
  · by_cases hpp : p = p'
    · subst hpp
      rw [ran, if_pos ⟨hp', hused.mp hzero⟩, hself]
      exact Counted.of_slice (demote_level hcounted.level) (demote_slice hcounted.level)
    · have hcond : ¬ (s.cpu h0 = some p ∧ 2 ^ (s.proc p).level.toNat ≤ ran p past) :=
        fun hc => hpp (Option.some.inj (hc.1.symm.trans hp'))
      rw [ran, if_neg hcond]
      rw [hothers p hpp] at hlive ⊢
      exact hs.counted p hlive

/-- The scheduler gives a new slice to whom it promotes. -/
theorem counted_scheduler {h0 : Fin n} (hs : SliceCount past s)
    (h : s.step (.scheduler h0) = some t) (hlive : (t.proc p).live) :
    Counted (t.proc p) (ran p ((s, .scheduler h0) :: past)) := by
  obtain ⟨-, -, ⟨i, inQ, hphase, hover, -, hself, hothers⟩ | ⟨hnot, -, hall⟩ |
    ⟨l, p', hphase, hrun, -, hself, hothers⟩⟩ := Mlfq.schedulerStep_cases h
  · by_cases hpi : p = i
    · subst hpi
      have hp : (s.proc p).live := by simp [Proc.live, hover.1]
      rw [hself, ran]
      by_cases hpos : 0 < (s.proc p).level
      · rw [if_pos ⟨hphase, hover, hpos⟩]
        exact Counted.of_slice (promote_level _ (hs.counted p hp).level)
          (by simp [promote, hpos])
      · rw [if_neg (fun hc => hpos hc.2.2)]
        exact (hs.counted p hp).of_same (by simp [promote, hpos]) (by simp [promote, hpos, setInQ])
    · have hcond : ¬ (s.phase h0 = .ageing p ∧ s.Overdue p ∧ 0 < (s.proc p).level) := by
        intro hpromoted
        obtain ⟨hp, -⟩ := hpromoted
        exact hpi (by simpa [hphase] using hp.symm)
      rw [ran, if_neg hcond]
      rw [hothers p hpi] at hlive ⊢
      exact hs.counted p hlive
  · obtain ⟨inQ, hp⟩ := hall p
    have hcond : ¬ (s.phase h0 = .ageing p ∧ s.Overdue p ∧ 0 < (s.proc p).level) :=
      fun hc => hnot p hc.1 hc.2.1
    rw [ran, if_neg hcond]
    rw [hp] at hlive ⊢
    exact (hs.counted p hlive).of_same rfl rfl
  · rw [ran, if_neg (by simp [hphase])]
    by_cases hpp : p = p'
    · subst hpp
      rw [hself]
      exact (hs.counted p (by simp [Proc.live, hrun])).of_same rfl rfl
    · rw [hothers p hpp] at hlive ⊢
      exact hs.counted p hlive

/-- **Step lemma.**  The count is kept by every step that is in time. -/
theorem step (hs : SliceCount past s) (hmeet : InTime past s e) (h : s.step e = some t) :
    SliceCount ((s, e) :: past) t := by
  refine ⟨Mlfq.step_hosted hs.hosted h, ?_⟩
  intro p hlive
  cases e with
  | proc e => exact hs.counted_proc hmeet h hlive
  | timerTrap h0 => exact hs.counted_timerTrap h hlive
  | scheduler h0 => exact hs.counted_scheduler h hlive

end SliceCount

/-- The count is right in every run whose ticks are in time. -/
theorem sliceCount_of_inTime (run : Run (mlfq n) past s)
    (hmeet : Machine.StepsMeet InTime past) : SliceCount past s :=
  run.invariant_of_meet (fun _ hs => hs ▸ SliceCount.boot)
    (fun _ _ _ _ _ hmeet hs h => hs.step hmeet h) hmeet

/-- **When slices are kept.**  In a run on any number of harts no tick counts a
slice below zero, and no live process ever has more than the slice of its
level, if and only if no tick finds a RUNNING process that has already been
RUNNING for the whole of its slice. -/
theorem sliceKept_iff (run : Run (mlfq n) past s) :
    SliceKept past s ↔ Machine.StepsMeet InTime past := by
  constructor
  · intro hslices
    obtain ⟨hkept, -⟩ := hslices
    induction run with
    | init => trivial
    | step run h ih =>
        have hmeet := ih hkept.2
        exact ⟨(sliceCount_of_inTime run hmeet).inTime_iff.mpr hkept.1.2, hmeet⟩
  · intro hmeet
    refine ⟨?_, (sliceCount_of_inTime run hmeet).bounded⟩
    induction run with
    | init => trivial
    | step run h ih =>
        have hs := sliceCount_of_inTime run hmeet.2
        exact ⟨⟨hs.bounded, hs.inTime_iff.mp hmeet.1⟩, ih hmeet.2⟩

/-- The theorem at a run in which hart 1 makes its timer check after the tick
of hart 0. -/
theorem sliceKept_iff_checked : ∃ past s, Run (mlfq 2) past s ∧
    MlfqEvent.proc (.clockintr 0) ∈ past.map Prod.snd ∧ SliceKept past s := by
  obtain ⟨past, s, run, htick, hmeet⟩ := Machine.exists_run_of_trace (M := mlfq 2) rfl
    (scheduling 1 136 ++ [.proc (.clockintr 0), .timerTrap 1])
    (fun past _ => MlfqEvent.proc (.clockintr 0) ∈ past.map Prod.snd ∧
      Machine.StepsMeet InTime past) (by decide +kernel)
  exact ⟨past, s, run, htick, (sliceKept_iff run).mpr hmeet⟩

/-- A run in which init, on hart 1, has the one tick of its slice counted by
hart 0, sleeps before hart 1 makes its timer check, and is back on hart 1 when
the next tick comes. -/
def checkMissed : List (MlfqEvent 2) :=
  scheduling 1 136 ++ .proc (.clockintr 0) :: .proc (.sleep 1 (.other 0)) ::
  .proc (.wakeup 0 (.other 0)) :: scheduling 1 66 ++ [.proc (.clockintr 0)]

set_option maxRecDepth 10000 in
/-- Slices are not kept: at the end of `checkMissed` init has `2^32 - 1` ticks
left at level 0. -/
theorem slices_underflow :
    ¬ ∀ (n : Nat) past s, Run (mlfq n) past s → SliceKept past s := by
  intro h
  obtain ⟨past, s, run, hnot⟩ := Machine.exists_run_of_trace (M := mlfq 2) rfl checkMissed
    (fun _ s => ¬ SliceBounded s) (by decide)
  exact hnot (h 2 past s run).2

end Xv6
