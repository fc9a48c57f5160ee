import OSN.Kernel.MlfqSteps

/-!
# Whom `ageing` promotes

`ageing` takes `ticks - p->qEnter` for the time a process has been waiting.
`qEnter` is written when a process is created, when it gets and when it leaves
a hart, and by `ageing` itself, but not by `wakeup` and `kill`, which make it
RUNNABLE.  So the difference is the time since the process was last on a hart,
`offTicks`, whether it slept or waited; the time it has been RUNNABLE is
`runnableTicks`.  Both are counted along the past of the run.
-/

namespace Xv6

variable {n : Nat} {past : Past (Mlfq n) (MlfqEvent n)} {s t : Mlfq n} {e : MlfqEvent n}
  {p : Slot}

/-- For how many ticks has `p` been RUNNABLE without a break? -/
def runnableTicks (p : Slot) : Past (Mlfq n) (MlfqEvent n) → Mlfq n → Nat
  | [], _ => 0
  | (u, e) :: past, s =>
      if (u.proc p).state = .runnable ∧ (s.proc p).state = .runnable then
        runnableTicks p past u + if e.isTick then 1 else 0
      else 0

/-- Is the step the visit of `ageing` to `p`, and is `p` overdue there? -/
def Aged (s : Mlfq n) (e : MlfqEvent n) (p : Slot) : Prop :=
  ∃ h, e = .scheduler h ∧ s.phase h = .ageing p ∧ s.Overdue p

instance (s : Mlfq n) (e : MlfqEvent n) (p : Slot) : Decidable (Aged s e p) := by
  unfold Aged
  infer_instance

theorem aged_scheduler {h : Fin n} {s : Mlfq n} {p : Slot} :
    Aged s (.scheduler h) p ↔ s.phase h = .ageing p ∧ s.Overdue p := by
  simp [Aged]

/-- How many ticks ago did `p` last start or stop running, was it created, or
did `ageing` find it overdue? -/
def offTicks (p : Slot) : Past (Mlfq n) (MlfqEvent n) → Mlfq n → Nat
  | [], _ => 0
  | (u, e) :: past, s =>
      if (u.proc p).state = .unused ∨ Aged u e p ∨
          ¬ ((u.proc p).state = .running ↔ (s.proc p).state = .running) then 0
      else offTicks p past u + if e.isTick then 1 else 0

/-- **What `ageing` should do**: a process whose level the step lowers has been
RUNNABLE for more than 24 ticks. -/
def PromotesWaiting (past : Past (Mlfq n) (MlfqEvent n)) (s : Mlfq n) (e : MlfqEvent n) : Prop :=
  ∀ h, e = .scheduler h → ∀ t ∈ s.step e, ∀ p,
    (t.proc p).level < (s.proc p).level → 24 < runnableTicks p past s

instance (past : Past (Mlfq n) (MlfqEvent n)) (s : Mlfq n) (e : MlfqEvent n) :
    Decidable (PromotesWaiting past s e) := by
  unfold PromotesWaiting
  infer_instance

/-- `ageing` visits no RUNNABLE process of a level above 0 that has been off
its hart for more than 24 ticks but RUNNABLE for no more than 24 of them. -/
def WaitedAwake (past : Past (Mlfq n) (MlfqEvent n)) (s : Mlfq n) (e : MlfqEvent n) : Prop :=
  ∀ h, e = .scheduler h → ∀ p, s.phase h = .ageing p → (s.proc p).state = .runnable →
    0 < (s.proc p).level → 24 < offTicks p past s % 2 ^ 32 → 24 < runnableTicks p past s

instance (past : Past (Mlfq n) (MlfqEvent n)) (s : Mlfq n) (e : MlfqEvent n) :
    Decidable (WaitedAwake past s e) := by
  unfold WaitedAwake
  infer_instance

/-! ### What `qEnter` counts -/

theorem Touched.qEnter_eq {now : UInt32} {p q : Proc} (h : Touched now p q) :
    q.qEnter = p.qEnter := by
  cases h with
  | marked => rfl
  | woken => rfl

/-- A process that is live after an event was created by it, or its `qEnter` is
as before. -/
theorem Effect.qEnter_eq {now : UInt32} {tick : Prop} {newpid : Option Int} {p q : Proc}
    (h : Effect now tick newpid p q) (hlive : q.live) :
    p.state = .unused ∧ q.qEnter = now ∨ p.live ∧ q.qEnter = p.qEnter := by
  cases h with
  | touched _ h =>
      right
      refine ⟨?_, h.qEnter_eq⟩
      cases h with
      | marked => exact hlive
      | woken hasleep => simp [Proc.live, hasleep]
  | ticked _ hrun => exact Or.inr ⟨by simp [Proc.live, hrun], by simp [runningTimeProc, hrun]⟩
  | born hfree => exact Or.inl ⟨hfree, rfl⟩
  | unborn => exact absurd rfl hlive
  | reaped => exact absurd rfl hlive

/-- Leaving a hart sets `qEnter`. -/
theorem Left.qEnter_eq {now : UInt32} {p q : Proc} (h : Left setQEnter now p q) :
    q.qEnter = now := by
  cases h with
  | yielded => rfl
  | slept => rfl
  | exited => rfl

/-- **`qEnter` counts the ticks off the hart**, for every live process. -/
structure QEnterCount (past : Past (Mlfq n) (MlfqEvent n)) (s : Mlfq n) : Prop where
  hosted : Hosted s.toSys
  counted : ∀ p, (s.proc p).live →
    s.kernel.ticks - (s.proc p).qEnter = UInt32.ofNat (offTicks p past s)

namespace QEnterCount

theorem boot : QEnterCount [] (Mlfq.boot n) := by
  refine ⟨mlfq_hosted (Run.init rfl), ?_⟩
  intro p _
  have hqEnter : ((Mlfq.boot n).proc p).qEnter = 0 := by
    rw [show (Mlfq.boot n).proc p = _ from userinit_proc p]
    split <;> rfl
  rw [hqEnter, show (Mlfq.boot n).kernel.ticks = 0 from userinit_ticks]
  simp [offTicks]

/-- A step that does not write `qEnter` counts its tick. -/
theorem count_kept (hs : QEnterCount past s) (hlive : (s.proc p).live)
    (hqEnter : (t.proc p).qEnter = (s.proc p).qEnter) (hnot : ¬ Aged s e p)
    (hrun : (t.proc p).state = .running ↔ (s.proc p).state = .running)
    (hticks : t.kernel.ticks = if e.isTick then s.kernel.ticks + 1 else s.kernel.ticks) :
    t.kernel.ticks - (t.proc p).qEnter = UInt32.ofNat (offTicks p ((s, e) :: past) t) := by
  have hcond : ¬ ((s.proc p).state = .unused ∨ Aged s e p ∨
      ¬ ((s.proc p).state = .running ↔ (t.proc p).state = .running)) := by
    intro hcases
    rcases hcases with h | h | h
    · exact hlive h
    · exact hnot h
    · exact h hrun.symm
  have hcounted := hs.counted p hlive
  rw [offTicks, if_neg hcond, hticks, hqEnter]
  split
  · rw [UInt32.ofNat_add, ← hcounted]
    grind
  · simpa using hcounted

/-- A step that writes it starts anew. -/
theorem count_reset (hqEnter : (t.proc p).qEnter = t.kernel.ticks)
    (hreset : (s.proc p).state = .unused ∨ Aged s e p ∨
      ¬ ((s.proc p).state = .running ↔ (t.proc p).state = .running)) :
    t.kernel.ticks - (t.proc p).qEnter = UInt32.ofNat (offTicks p ((s, e) :: past) t) := by
  rw [offTicks, if_pos hreset, hqEnter, UInt32.sub_self]
  rfl

/-- A process event keeps the count of a process that stays where it is. -/
theorem count_effect {tick : Prop} {newpid : Option Int} (hs : QEnterCount past s)
    (heff : Effect t.kernel.ticks tick newpid (s.proc p) (t.proc p)) (hnot : ¬ Aged s e p)
    (hticks : t.kernel.ticks = if e.isTick then s.kernel.ticks + 1 else s.kernel.ticks)
    (hlive : (t.proc p).live) :
    t.kernel.ticks - (t.proc p).qEnter = UInt32.ofNat (offTicks p ((s, e) :: past) t) := by
  rcases heff.qEnter_eq hlive with ⟨hfree, hqEnter⟩ | ⟨hold, hqEnter⟩
  · exact count_reset hqEnter (Or.inl hfree)
  · exact hs.count_kept hold hqEnter hnot heff.running_iff hticks

theorem count_proc {e : ProcEvent n} (hs : QEnterCount past s) (h : s.step (.proc e) = some t)
    (hlive : (t.proc p).live) :
    t.kernel.ticks - (t.proc p).qEnter = UInt32.ofNat (offTicks p ((s, .proc e) :: past) t) := by
  obtain ⟨u, hu, rfl⟩ := Option.map_eq_some_iff.mp h
  have hnot : ¬ Aged s (.proc e) p := by simp [Aged]
  obtain ⟨hticks, ⟨-, heff⟩ | ⟨-, h', p', hp', -, hleft, hothers⟩⟩ := procStep_cases hu
  · exact hs.count_effect (heff p) hnot hticks hlive
  · by_cases hpp : p = p'
    · subst hpp
      have hrun : (s.proc p).state = .running := hs.hosted.running h' p hp'
      have hstop := hleft.not_running fun now p => setQEnter_state
      refine count_reset hleft.qEnter_eq (Or.inr (Or.inr fun hiff => ?_))
      exact hstop (hiff.mp hrun)
    · have heff : Effect u.kernel.ticks False none (s.proc p) (u.kernel.proc p) :=
        .touched nofun (hothers p hpp)
      exact hs.count_effect heff hnot hticks hlive

theorem count_timerTrap {h0 : Fin n} (hs : QEnterCount past s) (h : s.step (.timerTrap h0) = some t)
    (hlive : (t.proc p).live) :
    t.kernel.ticks - (t.proc p).qEnter =
      UInt32.ofNat (offTicks p ((s, .timerTrap h0) :: past) t) := by
  have hnot : ¬ Aged s (.timerTrap h0) p := by simp [Aged]
  obtain ⟨p', hp', ⟨-, rfl⟩ | ⟨-, -, hticks, hself, hothers⟩⟩ := Mlfq.timerTrap_cases h
  · exact hs.count_kept hlive rfl hnot Iff.rfl rfl
  · by_cases hpp : p = p'
    · subst hpp
      have hrun : (s.proc p).state = .running := hs.hosted.running h0 p hp'
      refine count_reset ?_ (Or.inr (Or.inr fun hiff => ?_))
      · rw [hself, hticks]
        rfl
      · have := hiff.mp hrun
        simp [hself, yieldProc] at this
    · have hsame := hothers p hpp
      rw [hsame] at hlive
      exact hs.count_kept hlive (by rw [hsame]) hnot (by rw [hsame]) hticks

/-- The scheduler writes `qEnter` of whom it promotes and of whom it dispatches. -/
theorem count_scheduler {h0 : Fin n} (hs : QEnterCount past s) (h : s.step (.scheduler h0) = some t)
    (hlive : (t.proc p).live) :
    t.kernel.ticks - (t.proc p).qEnter =
      UInt32.ofNat (offTicks p ((s, .scheduler h0) :: past) t) := by
  obtain ⟨-, hticks, ⟨i, inQ, hphase, hover, -, hself, hothers⟩ | ⟨hnot, -, hall⟩ |
    ⟨l, p', hphase, hrun, -, hself, hothers⟩⟩ := Mlfq.schedulerStep_cases h
  · by_cases hpi : p = i
    · subst hpi
      refine count_reset ?_ (Or.inr (Or.inl ⟨h0, rfl, hphase, hover⟩))
      rw [hself, hticks, promote_qEnter]
    · have hnot : ¬ Aged s (.scheduler h0) p := by
        intro haged
        have hp := (aged_scheduler.mp haged).1
        exact hpi (by simpa [hphase] using hp.symm)
      have hsame := hothers p hpi
      rw [hsame] at hlive
      exact hs.count_kept hlive (by rw [hsame]) hnot (by rw [hsame]) hticks
  · obtain ⟨inQ, hp⟩ := hall p
    have hnot' : ¬ Aged s (.scheduler h0) p := by
      intro haged
      obtain ⟨hphase, hover⟩ := aged_scheduler.mp haged
      exact hnot p hphase hover
    rw [hp] at hlive
    exact hs.count_kept hlive (by rw [hp]; rfl) hnot' (by rw [hp]; rfl) hticks
  · by_cases hpp : p = p'
    · subst hpp
      refine count_reset ?_ (Or.inr (Or.inr fun hiff => ?_))
      · rw [hself, hticks]
        rfl
      · have hstart : (t.proc p).state = .running := by rw [hself]; rfl
        have := hiff.mpr hstart
        simp [hrun] at this
    · have hnot : ¬ Aged s (.scheduler h0) p := by
        intro haged
        have hp := (aged_scheduler.mp haged).1
        simp [hphase] at hp
      have hsame := hothers p hpp
      rw [hsame] at hlive
      exact hs.count_kept hlive (by rw [hsame]) hnot (by rw [hsame]) hticks

/-- **Step lemma.**  Every step keeps the count. -/
theorem step (hs : QEnterCount past s) (h : s.step e = some t) :
    QEnterCount ((s, e) :: past) t := by
  refine ⟨Mlfq.step_hosted hs.hosted h, ?_⟩
  intro p hlive
  cases e with
  | proc e => exact hs.count_proc h hlive
  | timerTrap h0 => exact hs.count_timerTrap h hlive
  | scheduler h0 => exact hs.count_scheduler h hlive

end QEnterCount

theorem qEnterCount (run : Run (mlfq n) past s) : QEnterCount past s :=
  run.invariant (fun _ hs => hs ▸ QEnterCount.boot) fun _ _ _ _ _ hs h => hs.step h

/-- A live process is overdue when it is RUNNABLE and has been off its hart for
more than 24 ticks, as far as 32 bits tell. -/
theorem QEnterCount.overdue_iff (hs : QEnterCount past s) :
    s.Overdue p ↔ (s.proc p).state = .runnable ∧ 24 < offTicks p past s % 2 ^ 32 := by
  refine and_congr_right fun hrun => ?_
  rw [hs.counted p (by simp [Proc.live, hrun]), UInt32.lt_iff_toNat_lt, UInt32.toNat_ofNat']
  rfl

/-- A step of the scheduler lowers the level of the overdue process that
`ageing` visits, if that is above 0, and no other. -/
theorem Mlfq.lowers_iff {h : Fin n} (ht : s.step (.scheduler h) = some t) :
    (t.proc p).level < (s.proc p).level ↔
      s.phase h = .ageing p ∧ s.Overdue p ∧ 0 < (s.proc p).level := by
  have hsame : (t.proc p).level = (s.proc p).level →
      ¬ (t.proc p).level < (s.proc p).level := by
    intro heq
    rw [heq]
    exact UInt32.lt_irrefl _
  obtain ⟨-, -, ⟨i, inQ, hphase, hover, -, hself, hothers⟩ | ⟨hnot, -, hall⟩ |
    ⟨l, p', hphase, -, -, hself, hothers⟩⟩ := Mlfq.schedulerStep_cases ht
  · by_cases hpi : p = i
    · subst hpi
      rw [and_iff_right hphase, and_iff_right hover, hself]
      by_cases hpos : 0 < (s.proc p).level
      · simp only [promote, setInQ_level, hpos, if_true, iff_true]
        rw [UInt32.lt_iff_toNat_lt] at hpos ⊢
        have hle : (1 : UInt32) ≤ (s.proc p).level := by
          rw [UInt32.le_iff_toNat_le]
          exact hpos
        rw [UInt32.toNat_sub_of_le _ _ hle]
        exact Nat.sub_lt hpos (by decide)
      · simp [promote, hpos, UInt32.lt_irrefl]
    · apply iff_of_false (hsame (by rw [hothers p hpi]))
      intro haged
      obtain ⟨hp, -⟩ := haged
      exact hpi (by simpa [hphase] using hp.symm)
  · obtain ⟨inQ, hp⟩ := hall p
    refine iff_of_false (hsame (by rw [hp]; rfl)) fun hcond => ?_
    exact hnot p hcond.1 hcond.2.1
  · refine iff_of_false (hsame ?_) fun hcond => by simp [hphase] at hcond
    by_cases hpp : p = p'
    · subst hpp
      rw [hself]
      rfl
    · rw [hothers p hpp]

/-- **When `ageing` promotes only waiting processes.**  In a run on any number
of harts every process whose level `ageing` lowers has been RUNNABLE for more
than 24 ticks, if and only if `ageing` never visits a RUNNABLE process of a
level above 0 that has been off its hart for more than 24 ticks but RUNNABLE
for no more than 24 of them. -/
theorem promotesWaiting_iff (run : Run (mlfq n) past s) :
    Machine.StepsMeet PromotesWaiting past ↔ Machine.StepsMeet WaitedAwake past := by
  induction run with
  | init => exact Iff.rfl
  | @step past s t e run h ih =>
      refine and_congr ?_ ih
      have hs := qEnterCount run
      refine forall_congr' fun h0 => forall_congr' fun he => ?_
      subst he
      have hlowers : ∀ p, (t.proc p).level < (s.proc p).level ↔
          s.phase h0 = .ageing p ∧ s.Overdue p ∧ 0 < (s.proc p).level := fun p =>
        Mlfq.lowers_iff h
      constructor
      · intro hpromotes p hphase hrun hpos hoff
        refine hpromotes t h p ((hlowers p).mpr ⟨hphase, ?_, hpos⟩)
        exact hs.overdue_iff.mpr ⟨hrun, hoff⟩
      · intro hwaited u hu p hlow
        obtain rfl : t = u := Option.some.inj (h.symm.trans hu)
        obtain ⟨hphase, hover, hpos⟩ := (hlowers p).mp hlow
        obtain ⟨hrun, hoff⟩ := hs.overdue_iff.mp hover
        exact hwaited p hphase hrun hpos hoff

/-- Init uses its tick, sinks to level 1 and yields. -/
def sunk : List (MlfqEvent 1) := scheduling 0 136 ++ tickAndCheck 0

/-- The theorem at a run in which `ageing` promotes init after 25 ticks of
waiting. -/
theorem promotesWaiting_iff_waited : ∃ past s, Run (mlfq 1) past s ∧
    (s.proc initproc).level = 0 ∧ (s.proc initproc).qEnter = 26 ∧
    Machine.StepsMeet PromotesWaiting past := by
  obtain ⟨past, s, run, hlevel, hqEnter, hmeet⟩ := Machine.exists_run_of_trace
    (M := mlfq 1) rfl
    (sunk ++ List.replicate 25 (.proc (.clockintr 0)) ++ scheduling 0 1)
    (fun past s => (s.proc initproc).level = 0 ∧ (s.proc initproc).qEnter = 26 ∧
      Machine.StepsMeet WaitedAwake past) (by decide +kernel)
  exact ⟨past, s, run, hlevel, hqEnter, (promotesWaiting_iff run).mpr hmeet⟩

/-- A run in which init sleeps through the 25 ticks and wakes right before the
visit of `ageing`. -/
def promotedAsleep : List (MlfqEvent 1) :=
  sunk ++ scheduling 0 67 ++ .proc (.sleep 0 (.other 0)) ::
  List.replicate 25 (.proc (.clockintr 0)) ++ .proc (.wakeup 0 (.other 0)) :: scheduling 0 1

set_option maxRecDepth 10000 in
/-- `ageing` promotes a process that has not waited at all: at the end of
`promotedAsleep` init has been RUNNABLE for no tick. -/
theorem promotes_sleeper :
    ¬ ∀ (n : Nat) past s, Run (mlfq n) past s → Machine.StepsMeet PromotesWaiting past := by
  intro h
  obtain ⟨past, s, run, hnot⟩ := Machine.exists_run_of_trace (M := mlfq 1) rfl promotedAsleep
    (fun past _ => ¬ Machine.StepsMeet PromotesWaiting past) (by decide)
  exact hnot (h 1 past s run)

end Xv6
