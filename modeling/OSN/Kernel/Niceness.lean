import OSN.Kernel.Pbs

/-!
# What a PBS scan makes of the notes of a process

The scan computes `niceness` as the tenths of the time between `sched1` and
`sched2` that the process did not run, and `dynamicPriority` from it, all in
unsigned arithmetic.  Over the integers the priority would be clamped to 0 from
below; unsigned, a negative priority is a large one and is clamped to 100.

`allocproc` and `_setpriority` write 5 to `niceness`, but nothing to the three
fields from which the next scan computes it again.
-/

namespace Xv6

/-! ### The formula -/

/-- The tenths of the time between `sched1` and `sched2` without running. -/
def Proc.tenths (p : Proc) : Nat :=
  10 * (p.sched2.toNat - p.sched1.toNat - p.runtime.toNat) / (p.sched2.toNat - p.sched1.toNat)

/-- The times of a process as they are meant: it was dispatched, ran, and
became RUNNABLE again, and the computation does not overflow. -/
structure Proc.TimesInOrder (p : Proc) : Prop where
  order : p.sched1 < p.sched2
  ran : p.runtime ≤ p.sched2 - p.sched1
  small : 10 * (p.sched2.toNat - p.sched1.toNat) < 2 ^ 32

/-- What a visit of `p` is to make of it, over the integers. -/
structure FollowsFormula (p q : Proc) : Prop where
  niceness : q.niceness.toNat = p.tenths
  dynamicPriority : (q.dynamicPriority.toNat : Int) =
    max 0 (min 100 ((p.staticPriority.toNat : Int) - p.tenths + 5))

variable {p : Proc}

namespace Proc.TimesInOrder

theorem toNat_sub (h : p.TimesInOrder) :
    (p.sched2 - p.sched1).toNat = p.sched2.toNat - p.sched1.toNat :=
  UInt32.toNat_sub_of_le _ _ (UInt32.le_of_lt h.order)

/-- In this domain the division of the scan is the one over the integers. -/
theorem niceness (h : p.TimesInOrder) : (pbsNiceness p).toNat = p.tenths := by
  have hsub := h.toNat_sub
  have hpos : p.sched1.toNat < p.sched2.toNat := UInt32.lt_iff_toNat_lt.mp h.order
  have hwait : (p.sched2 - p.sched1 - p.runtime).toNat =
      p.sched2.toNat - p.sched1.toNat - p.runtime.toNat := by
    rw [UInt32.toNat_sub_of_le _ _ h.ran, hsub]
  have hne : p.sched2 - p.sched1 ≠ 0 := by
    intro hzero
    rw [hzero] at hsub
    simp only [UInt32.toNat_zero] at hsub
    omega
  have hsmall := h.small
  have hmul : (10 * (p.sched2 - p.sched1 - p.runtime)).toNat =
      10 * (p.sched2.toNat - p.sched1.toNat - p.runtime.toNat) := by
    rw [UInt32.toNat_mul, hwait]
    exact Nat.mod_eq_of_lt (by simp; omega)
  rw [pbsNiceness, divuw, if_neg hne, UInt32.toNat_div, hmul, hsub, Proc.tenths]

/-- A process cannot have waited longer than the whole time. -/
theorem tenths_le (h : p.TimesInOrder) : p.tenths ≤ 10 := by
  have hpos : p.sched1.toNat < p.sched2.toNat := UInt32.lt_iff_toNat_lt.mp h.order
  rw [Proc.tenths, Nat.div_le_iff_le_mul_add_pred (by omega)]
  omega

/-- The priority is not negative over the integers. -/
theorem tenths_le_iff (h : p.TimesInOrder) :
    p.tenths ≤ p.staticPriority.toNat + 5 ↔
      10 * (p.sched2.toNat - p.sched1.toNat - p.runtime.toNat) <
        (p.staticPriority.toNat + 6) * (p.sched2.toNat - p.sched1.toNat) := by
  have hpos : p.sched1.toNat < p.sched2.toNat := UInt32.lt_iff_toNat_lt.mp h.order
  rw [Proc.tenths, ← Nat.lt_succ_iff, Nat.div_lt_iff_lt_mul (by omega)]

end Proc.TimesInOrder

/-- The priority in unsigned arithmetic. -/
theorem pbsPriority_toNat (h : p.niceness.toNat ≤ 10) (hstatic : p.staticPriority ≤ 100) :
    (pbsPriority p).toNat =
      if p.niceness.toNat ≤ p.staticPriority.toNat + 5 then
        min 100 (p.staticPriority.toNat + 5 - p.niceness.toNat)
      else 100 := by
  have hle : p.staticPriority.toNat ≤ 100 := UInt32.le_iff_toNat_le.mp hstatic
  have hsum : (p.staticPriority - p.niceness + 5).toNat =
      (2 ^ 32 - p.niceness.toNat + p.staticPriority.toNat + 5) % 2 ^ 32 := by
    rw [UInt32.toNat_add, UInt32.toNat_sub]
    simp
  have hlt : 100 < p.staticPriority - p.niceness + 5 ↔
      100 < (2 ^ 32 - p.niceness.toNat + p.staticPriority.toNat + 5) % 2 ^ 32 := by
    rw [UInt32.lt_iff_toNat_lt, hsum]
    rfl
  simp only [pbsPriority, hlt]
  split
  case isTrue habove =>
      rw [show (100 : UInt32).toNat = 100 from rfl]
      split <;> omega
  case isFalse hbelow =>
      rw [hsum]
      split <;> omega

/-- **The priority formula.**  In the domain of the formula a visit follows it
exactly if the priority is not negative before it is clamped. -/
theorem followsFormula_iff_tenths (h : p.TimesInOrder) (hstatic : p.staticPriority ≤ 100) :
    FollowsFormula p (pbsVisit p) ↔ p.tenths ≤ p.staticPriority.toNat + 5 := by
  have hniceness : (pbsVisit p).niceness.toNat = p.tenths := h.niceness
  have hten := h.tenths_le
  have hpriority : (pbsVisit p).dynamicPriority.toNat =
      if p.tenths ≤ p.staticPriority.toNat + 5 then
        min 100 (p.staticPriority.toNat + 5 - p.tenths) else 100 := by
    have hwrite := pbsPriority_toNat (p := { p with niceness := pbsNiceness p })
      (h.niceness.trans_le hten) hstatic
    rw [(pbsVisit_dynamicPriority p).1, hwrite]
    simp only [h.niceness]
  constructor
  · intro hfollows
    by_contra hnegative
    have hclamped := hfollows.dynamicPriority
    rw [hpriority, if_neg hnegative] at hclamped
    omega
  · intro hle
    refine ⟨hniceness, ?_⟩
    rw [hpriority, if_pos hle]
    omega

section Visit

variable {n : Nat} {s : Scan n} {h : Fin n} {i : Slot}

/-- A visit writes to the RUNNABLE process it finds. -/
theorem Scan.visitSlot_proc_self {rule : ScanRule} (hrun : (s.proc i).state = .runnable) :
    (s.visitSlot rule h i).proc i = rule.visit (s.proc i) := by
  rw [Scan.visitSlot, if_pos hrun]
  by_cases hbetter : (s.modifyProc i rule.visit).Better rule h i <;> simp [hbetter]

/-- **When a PBS scan follows the formula.**  With times in order and a static
priority up to 100, exactly if the waiting time is less than
`staticPriority + 6` tenths of the whole. -/
theorem pbs_followsFormula_iff (hrun : (s.proc i).state = .runnable)
    (htimes : (s.proc i).TimesInOrder) (hstatic : (s.proc i).staticPriority ≤ 100) :
    FollowsFormula (s.proc i) ((s.visitSlot pbs h i).proc i) ↔
      10 * ((s.proc i).sched2.toNat - (s.proc i).sched1.toNat - (s.proc i).runtime.toNat) <
        ((s.proc i).staticPriority.toNat + 6) *
          ((s.proc i).sched2.toNat - (s.proc i).sched1.toNat) := by
  rw [Scan.visitSlot_proc_self hrun, ← htimes.tenths_le_iff]
  exact followsFormula_iff_tenths htimes hstatic

/-- A state in which `initproc` has noted the given times. -/
def noted (staticPriority sched1 sched2 runtime : UInt32) : Scan 1 :=
  (Scan.boot 1).modifyProc initproc fun p => { p with
    staticPriority := staticPriority, sched1 := sched1, sched2 := sched2, runtime := runtime }

theorem noted_proc (a b c d : UInt32) : (noted a b c d).proc initproc =
    { allocprocFields 0 1 {} with
      state := .runnable, staticPriority := a, sched1 := b, sched2 := c, runtime := d } := by
  rw [noted, Scan.modifyProc_proc_self, show (Scan.boot 1).proc initproc = _ from userinit_proc _,
    if_pos rfl]

/-- The theorem at a process that ran for three of ten ticks. -/
theorem pbs_followsFormula_iff_seven :
    FollowsFormula ((noted 60 20 30 3).proc initproc)
      (((noted 60 20 30 3).visitSlot pbs 0 initproc).proc initproc) := by
  have hproc := noted_proc 60 20 30 3
  refine (pbs_followsFormula_iff ?_ ?_ ?_).mpr ?_
  · rw [hproc]
  · rw [hproc]
    exact ⟨by decide, by decide, by decide⟩
  · rw [hproc]
    decide
  · rw [hproc]
    decide

/-- A process of priority 0 that waited all the time gets 100, not 0. -/
theorem pbs_clamps_to_100 :
    ¬ ∀ (n : Nat) (s : Scan n) (h : Fin n) (i : Slot), (s.proc i).state = .runnable →
      (s.proc i).TimesInOrder → (s.proc i).staticPriority ≤ 100 →
      FollowsFormula (s.proc i) ((s.visitSlot pbs h i).proc i) := by
  intro hall
  have hproc := noted_proc 0 20 30 0
  have hrun : ((noted 0 20 30 0).proc initproc).state = .runnable := by rw [hproc]
  have hpriority :=
    (hall 1 (noted 0 20 30 0) 0 initproc hrun (by rw [hproc]; exact ⟨by decide, by decide, by decide⟩)
      (by rw [hproc]; decide)).dynamicPriority
  rw [Scan.visitSlot_proc_self hrun, hproc] at hpriority
  exact absurd hpriority (by decide)

end Visit

/-! ### The niceness of a reset -/

variable {n : Nat} {past : Past (Scan n) (ScanEvent n)} {s t : Scan n} {e : ScanEvent n}
  {i : Slot}

/-- The step dispatches the process of slot `i`. -/
def Dispatches (s : Scan n) (e : ScanEvent n) (i : Slot) : Prop :=
  ∃ h, e = .scheduler h ∧ NPROC ≤ s.cursor h ∧ s.low h = some i

instance (s : Scan n) (e : ScanEvent n) (i : Slot) : Decidable (Dispatches s e i) := by
  unfold Dispatches
  infer_instance

/-- The step resets the niceness of slot `i`: `allocproc` takes it for the
child of a `fork`, or `_setpriority` finds it. -/
def Resets (s : Scan n) : ScanEvent n → Slot → Prop
  | .proc (.fork _ true), i => findSlot (fun j => (s.proc j).state = .unused) = some i
  | .proc (.setPriority _ newPriority _), i =>
      findSlot (fun j => (s.proc j).pid = newPriority) = some i
  | _, _ => False

instance (s : Scan n) (e : ScanEvent n) (i : Slot) : Decidable (Resets s e i) := by
  unfold Resets
  split <;> infer_instance

/-- The process of slot `i` has not been dispatched since `allocproc` made it
or since the last `_setpriority` on it. -/
def Undispatched (i : Slot) : Past (Scan n) (ScanEvent n) → Prop
  | [] => True
  | (s, e) :: past => ¬ Dispatches s e i ∧ (Resets s e i ∨ Undispatched i past)

instance decidableUndispatched (i : Slot) :
    ∀ past : Past (Scan n) (ScanEvent n), Decidable (Undispatched i past)
  | [] => inferInstanceAs (Decidable True)
  | (s, e) :: past =>
      have := decidableUndispatched i past
      inferInstanceAs (Decidable (¬ Dispatches s e i ∧ (Resets s e i ∨ Undispatched i past)))

/-- A scan that makes `q` of `p` takes the niceness of a reset for its
priority. -/
structure TakesFive (p q : Proc) : Prop where
  niceness : q.niceness = 5
  dynamicPriority : q.dynamicPriority = min p.staticPriority 100

/-- The step, if it visits a process that has not been dispatched since its
niceness was reset, takes that niceness. -/
def ResetTakesEffect (past : Past (Scan n) (ScanEvent n)) (s : Scan n) (e : ScanEvent n) : Prop :=
  ∀ i t, Visits s e i → Undispatched i past → s.step pbs e = some t →
    TakesFive (s.proc i) (t.proc i)

/-- The notes of a process say by themselves that it did not run for five to
six tenths of the time. -/
def Proc.HalfIdle (p : Proc) : Prop :=
  p.sched2 ≠ p.sched1 ∧
    5 * (p.sched2 - p.sched1).toNat ≤ (10 * (p.sched2 - p.sched1 - p.runtime)).toNat ∧
    (10 * (p.sched2 - p.sched1 - p.runtime)).toNat < 6 * (p.sched2 - p.sched1).toNat

instance (p : Proc) : Decidable p.HalfIdle := by
  unfold Proc.HalfIdle
  infer_instance

/-- Then the division gives 5, and not otherwise. -/
theorem pbsNiceness_eq_five_iff {p : Proc} : pbsNiceness p = 5 ↔ p.HalfIdle := by
  rw [pbsNiceness, divuw, Proc.HalfIdle]
  by_cases heq : p.sched2 = p.sched1
  · simp [heq]
  · have hne : p.sched2 - p.sched1 ≠ 0 := sub_ne_zero.mpr heq
    have hpos : 0 < (p.sched2 - p.sched1).toNat :=
      Nat.pos_of_ne_zero fun hzero => hne (UInt32.toNat_inj.mp hzero)
    rw [if_neg hne, ← UInt32.toNat_inj, UInt32.toNat_div, show (5 : UInt32).toNat = 5 from rfl,
      Nat.div_eq_iff hpos]
    refine ⟨fun hdiv => ⟨heq, by omega, by omega⟩, fun hhalf => ⟨by omega, by omega⟩⟩

/-- With niceness 5 the static priority is the dynamic one. -/
theorem takesFive_visit_iff {p : Proc} : TakesFive p (pbsVisit p) ↔ p.HalfIdle := by
  rw [← pbsNiceness_eq_five_iff]
  constructor
  · intro htakes
    exact htakes.niceness
  · intro hfive
    refine ⟨hfive, ?_⟩
    have hsame : p.staticPriority - 5 + 5 = p.staticPriority := sub_add_cancel _ _
    have hmin : min p.staticPriority 100 =
        if p.staticPriority ≤ 100 then p.staticPriority else 100 := rfl
    rw [(pbsVisit_dynamicPriority p).1, pbsPriority, hmin]
    simp only [hfive, hsame]
    split
    case isTrue habove => rw [if_neg (UInt32.not_le.mpr habove)]
    case isFalse hbelow => rw [if_pos (UInt32.not_lt.mp hbelow)]

/-- What a visit of slot `i` makes of it. -/
theorem Visits.proc_eq (hvisit : Visits s e i) (h : s.step pbs e = some t) :
    t.proc i = pbsVisit (s.proc i) := by
  obtain ⟨h₀, rfl, hi, hrun⟩ := hvisit
  have hlt : s.cursor h₀ < NPROC := hi ▸ i.isLt
  obtain rfl : i = ⟨s.cursor h₀, hlt⟩ := Fin.ext hi
  obtain ⟨hidle, -⟩ := Scan.schedulerStep_cases h
  simp only [Scan.step, Scan.schedulerStep, hidle, if_true, hlt, dif_pos] at h
  split at h
  case isTrue => simp at h
  case isFalse =>
      obtain rfl := Option.some.inj h
      rw [Scan.setCursor_proc, Scan.visitSlot_proc_self hrun]
      rfl

/-- **One visit.**  A process that has not been dispatched since the reset is
scheduled with niceness 5 exactly if its notes, which the reset leaves alone,
give 5. -/
theorem takesFive_iff (hvisit : Visits s e i) (h : s.step pbs e = some t) :
    TakesFive (s.proc i) (t.proc i) ↔ (s.proc i).HalfIdle := by
  rw [hvisit.proc_eq h]
  exact takesFive_visit_iff

/-- Before the first visit nothing has been dispatched. -/
theorem undispatched_of_noDivision (run : Run (scan pbs n) past s)
    (hnone : Machine.StepsMeet NoDivision past) : Untouched s ∧ Undispatched initproc past := by
  refine run.invariant_of_meet (P := fun past s => Untouched s ∧ Undispatched initproc past)
    ?_ ?_ hnone
  · intro s hs
    exact ⟨hs ▸ Untouched.boot, trivial⟩
  · intro past s e t _ hnone hs h
    refine ⟨hs.1.step hnone h, ?_, Or.inr hs.2⟩
    rintro ⟨h₀, -, -, hlow⟩
    simp [hs.1.noLow] at hlow

/-- The first visit does not take the niceness of the reset: it is of
`initproc`, whose times are both 0. -/
theorem Untouched.not_takesFive (hs : Untouched s) (hvisit : Visits s e i)
    (h : s.step pbs e = some t) : i = initproc ∧ ¬ TakesFive (s.proc i) (t.proc i) := by
  constructor
  · obtain ⟨h₀, -, -, hrun⟩ := hvisit
    by_contra hne
    simp [hs.others i hne] at hrun
  · rw [takesFive_iff hvisit h]
    intro hhalf
    exact hhalf.1 (sub_eq_zero.mp (hs.zero_of_visits hvisit))

/-- All visits of a run from boot take the niceness of the reset only as long
as there is no visit. -/
theorem resetTakesEffect_iff_noDivision (run : Run (scan pbs n) past s) :
    Machine.StepsMeet ResetTakesEffect past ↔ Machine.StepsMeet NoDivision past := by
  induction run with
  | init => exact Iff.rfl
  | step run h ih =>
      constructor
      · intro hmeet
        have hrest := ih.mp hmeet.2
        obtain ⟨huntouched, hundispatched⟩ := undispatched_of_noDivision run hrest
        refine ⟨?_, hrest⟩
        intro i hvisit
        obtain ⟨rfl, hnot⟩ := huntouched.not_takesFive hvisit h
        exact hnot (hmeet.1 initproc _ hvisit hundispatched h)
      · intro hmeet
        exact ⟨fun i t hvisit => absurd hvisit (hmeet.1 i), ih.mpr hmeet.2⟩

/-- **When resetting niceness takes effect.**  In every run of the PBS kernel, a
visit of a process that has not been dispatched since its niceness was reset
takes that niceness exactly if the notes left in the slot say that it did not
run for five to six tenths of the time.  The first visit of a run never does,
so all visits do only if there is none. -/
theorem resetTakesEffect_iff (run : Run (scan pbs n) past s) :
    (∀ e i t, Visits s e i → Undispatched i past → s.step pbs e = some t →
      (TakesFive (s.proc i) (t.proc i) ↔ (s.proc i).HalfIdle)) ∧
    (Machine.StepsMeet ResetTakesEffect past ↔ Machine.StepsMeet NoDivision past) :=
  ⟨fun _ _ _ hvisit _ h => takesFive_iff hvisit h, resetTakesEffect_iff_noDivision run⟩

/-- `initproc` runs for five ticks, sets its priority to 70 and sleeps for five
ticks more. -/
def halfIdle : List (ScanEvent 1) :=
  scanning 0 65 ++ List.replicate 5 (.proc (.clockintr 0)) ++
    [.proc (.setPriority 0 1 70), .proc (.sleep 0 (.other 0))] ++
    List.replicate 5 (.proc (.clockintr 0)) ++ [.proc (.wakeup 0 (.other 0))]

/-- The theorem at a process that ran for half of the time before the reset. -/
theorem resetTakesEffect_iff_half : ∃ past s t, Run (scan pbs 1) past s ∧
    Undispatched initproc past ∧ s.step pbs (.scheduler 0) = some t ∧
    TakesFive (s.proc initproc) (t.proc initproc) := by
  obtain ⟨past, s, run, hundispatched, hvisit, hhalf, hsome⟩ :=
    Machine.exists_run_of_trace (M := scan pbs 1) rfl halfIdle
    (fun past s => Undispatched initproc past ∧ Visits s (.scheduler 0) initproc ∧
      (s.proc initproc).HalfIdle ∧ (s.step pbs (.scheduler 0)).isSome) (by decide)
  obtain ⟨t, ht⟩ := Option.isSome_iff_exists.mp hsome
  refine ⟨past, s, t, run, hundispatched, ht, ?_⟩
  exact ((resetTakesEffect_iff run).1 _ initproc t hvisit hundispatched ht).mpr hhalf

/-- The very first visit takes niceness 0xFFFFFFFF, not the 5 of `allocproc`. -/
theorem reset_overwritten :
    ¬ ∀ (n : Nat) past s, Run (scan pbs n) past s → Machine.StepsMeet ResetTakesEffect past := by
  intro hall
  obtain ⟨past, s, run, hvisited⟩ := Machine.exists_run_of_trace (M := scan pbs 1) rfl
    (scanning 0 1)
    (fun past _ => ¬ Machine.StepsMeet NoDivision past) (by decide)
  exact hvisited ((resetTakesEffect_iff_noDivision run).mp (hall 1 past s run))

end Xv6
