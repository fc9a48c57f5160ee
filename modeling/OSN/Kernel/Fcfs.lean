import OSN.Kernel.Scan

/-!
# First come, first served

The FCFS scheduler takes `birthtime`, the clock at `allocproc`, for the order
of creation.  Its scan finds the RUNNABLE process with the smallest
`birthtime`, and of several the first of the table; so among processes of one
tick it is the slot that counts, and a slot that has been freed and filled
again within the tick may overtake an older process.
-/

namespace Xv6

/-- `low->nrun++; low->state = RUNNING` of the FCFS scheduler.  If the process
comes out of `sleep`, the first thing it does is `p->chan = 0`. -/
def dispatchFcfs (p : Proc) : Proc :=
  { p with nrun := p.nrun + 1, state := .running, chan := none }

/-- The FCFS scheduler. -/
def fcfs : ScanRule where
  visit := id
  beats p low := p.birthtime < low.birthtime
  give _ := dispatchFcfs
  visit_state _ := rfl
  give_state _ _ := rfl

variable {n : Nat} {past : Past (Scan n) (ScanEvent n)} {s t : Scan n} {e : ScanEvent n}
  {h h' : Fin n} {p q : Slot}

/-- `q` has been RUNNABLE in every state since the scan of hart `h` began. -/
def RunnableThroughout (h : Fin n) (q : Slot) : Past (Scan n) (ScanEvent n) → Scan n → Prop
  | [], s => (s.proc q).state = .runnable
  | (u, e) :: past, s =>
      (s.proc q).state = .runnable ∧
        if e = .scheduler h ∧ u.cursor h = 0 then (u.proc q).state = .runnable
        else RunnableThroughout h q past u

instance decidableRunnableThroughout (h : Fin n) (q : Slot) :
    ∀ past s, Decidable (RunnableThroughout h q past s)
  | [], s => inferInstanceAs (Decidable ((s.proc q).state = .runnable))
  | (u, e) :: past, s =>
      have := decidableRunnableThroughout h q past u
      inferInstanceAs (Decidable ((s.proc q).state = .runnable ∧
        if e = .scheduler h ∧ u.cursor h = 0 then (u.proc q).state = .runnable
        else RunnableThroughout h q past u))

/-- `p` is served before `q`: it was created at an earlier tick, or at the same
one and comes first in the table. -/
def Before (s : Scan n) (p q : Slot) : Prop :=
  (s.proc p).birthtime < (s.proc q).birthtime ∨
    (s.proc p).birthtime = (s.proc q).birthtime ∧ p < q

/-- The clock ticks of a past. -/
def ticksIn : Past (Scan n) (ScanEvent n) → Nat
  | [] => 0
  | (_, e) :: past => ticksIn past + if e.isTick then 1 else 0

/-! ### The scan -/

theorem RunnableThroughout.now (hq : RunnableThroughout h q past s) :
    (s.proc q).state = .runnable := by
  cases past with
  | nil => exact hq
  | cons => exact hq.1

/-- Whoever is RUNNABLE throughout was so before the step. -/
theorem RunnableThroughout.before (hq : RunnableThroughout h q ((s, e) :: past) t) :
    (s.proc q).state = .runnable := by
  have hrest := hq.2
  split at hrest
  · exact hrest
  · exact hrest.now

/-- Inside the scan it was so throughout. -/
theorem RunnableThroughout.earlier (hq : RunnableThroughout h q ((s, e) :: past) t)
    (hinside : ¬ (e = .scheduler h ∧ s.cursor h = 0)) : RunnableThroughout h q past s := by
  have hrest := hq.2
  rwa [if_neg hinside] at hrest

/-- Only the birthtimes of the two matter. -/
theorem Before.of_same (hb : Before s p q) (hp : (t.proc p).birthtime = (s.proc p).birthtime)
    (hq : (t.proc q).birthtime = (s.proc q).birthtime) : Before t p q := by
  rwa [Before, hp, hq]

/-- A process that beats one served before `q` is served before `q` too. -/
theorem Before.of_beats {i j : Slot} (hj : j = q ∨ Before s j q)
    (hbeats : (s.proc i).birthtime < (s.proc j).birthtime) : Before s i q := by
  left
  rcases hj with rfl | hlt | ⟨heq, -⟩
  · exact hbeats
  · exact UInt32.lt_trans hbeats hlt
  · exact heq ▸ hbeats

/-- **The best so far.**  Every process that the scan of hart `h` has passed
and that has been RUNNABLE throughout is `low` or comes after it. -/
def FcfsBest (past : Past (Scan n) (ScanEvent n)) (s : Scan n) : Prop :=
  ∀ h q, q.val < s.cursor h → RunnableThroughout h q past s →
    ∃ i, s.low h = some i ∧ (i = q ∨ Before s i q)

namespace FcfsBest

/-- A step that moves neither the scan nor a birthtime it depends on. -/
theorem of_still (hb : FcfsBest past s) (hcursor : t.cursor h = s.cursor h)
    (hlow : t.low h = s.low h) (hinside : ¬ (e = .scheduler h ∧ s.cursor h = 0))
    (hbirth : ∀ i, (s.proc i).state = .runnable → (s.low h = some i ∨ (t.proc i).state = .runnable) →
      (t.proc i).birthtime = (s.proc i).birthtime)
    (hholds : ScanHolds s) (hq : q.val < t.cursor h)
    (hthrough : RunnableThroughout h q ((s, e) :: past) t) :
    ∃ i, t.low h = some i ∧ (i = q ∨ Before t i q) := by
  obtain ⟨i, hi, hbest⟩ := hb h q (hcursor ▸ hq) (hthrough.earlier hinside)
  refine ⟨i, hlow.trans hi, hbest.imp_right fun hbefore => ?_⟩
  exact hbefore.of_same (hbirth i (hholds.runnable h i hi) (Or.inl hi))
    (hbirth q hthrough.before (Or.inr hthrough.now))

/-- The scan of hart `h` visits slot `i`: what it had passed before is still
behind `low`. -/
theorem passed {i : Slot} (hb : FcfsBest past s) (hi : i.val = s.cursor h)
    (hq : q.val < s.cursor h + 1) (hne : q ≠ i)
    (hthrough : RunnableThroughout h q ((s, .scheduler h) :: past) t) :
    ∃ j, s.low h = some j ∧ (j = q ∨ Before s j q) := by
  have hval := Fin.val_ne_of_ne hne
  have hlt : q.val < s.cursor h := by omega
  exact hb h q hlt (hthrough.earlier fun hstart => by omega)

/-- A step of the scan itself. -/
theorem step_own (hb : FcfsBest past s) (hs : ScanHolds s) (hchange : s.Change fcfs h t)
    (hq : q.val < t.cursor h)
    (hthrough : RunnableThroughout h q ((s, .scheduler h) :: past) t) :
    ∃ i, t.low h = some i ∧ (i = q ∨ Before t i q) := by
  have hid : ∀ i, s.modifyProc i fcfs.visit = s := fun i => Scan.modifyProc_id
  cases hchange with
  | @passed i hi hskip ht =>
      subst ht
      rw [Scan.setCursor_cursor, Function.update_self] at hq
      have hne : q ≠ i := by
        intro heq
        subst heq
        exact hskip hthrough.before
      exact hb.passed hi hq hne hthrough
  | @taken i hi hfree hrun hbetter ht =>
      rw [hid] at hbetter ht
      subst ht
      rw [Scan.setCursor_cursor, Function.update_self] at hq
      refine ⟨i, by simp, ?_⟩
      by_cases hqi : q = i
      · exact Or.inl hqi.symm
      · obtain ⟨j, hj, hbest⟩ := hb.passed hi hq hqi hthrough
        exact Or.inr (Before.of_beats hbest (by simpa [fcfs] using hbetter j hj))
  | @beaten i j hi hfree hrun hlow hworse ht =>
      rw [hid] at hworse ht
      subst ht
      rw [Scan.setCursor_cursor, Function.update_self] at hq
      by_cases hqi : q = i
      · subst hqi
        refine ⟨j, hlow, Or.inr ?_⟩
        have hle : (s.proc j).birthtime ≤ (s.proc q).birthtime := by
          simpa [fcfs, UInt32.not_lt] using hworse
        rcases UInt32.lt_or_eq_of_le hle with hlt | heq
        · exact Or.inl hlt
        · refine Or.inr ⟨heq, ?_⟩
          have hbehind := hs.behind h j hlow
          exact Fin.lt_def.mpr (by omega)
      · exact hb.passed hi hq hqi hthrough
  | again hend hlow ht =>
      subst ht
      simp at hq
  | dispatched hend hlow ht =>
      subst ht
      simp at hq

/-- A step of the scan of another hart. -/
theorem step_other {h₀ : Fin n} (hb : FcfsBest past s) (hs : ScanHolds s) (hh : h ≠ h₀)
    (hchange : s.Change fcfs h₀ t) (hq : q.val < t.cursor h)
    (hthrough : RunnableThroughout h q ((s, .scheduler h₀) :: past) t) :
    ∃ i, t.low h = some i ∧ (i = q ∨ Before t i q) := by
  have hid : ∀ i, s.modifyProc i fcfs.visit = s := fun i => Scan.modifyProc_id
  have hinside : ¬ (ScanEvent.scheduler h₀ = .scheduler h ∧ s.cursor h = 0) := by
    intro hstart
    obtain ⟨heq, -⟩ := hstart
    exact hh (by simpa [eq_comm] using heq)
  cases hchange with
  | passed hi hskip ht =>
      subst ht
      exact hb.of_still (by simp [hh]) rfl hinside (fun _ _ _ => rfl) hs hq hthrough
  | taken hi hfree hrun hbetter ht =>
      rw [hid] at ht
      subst ht
      exact hb.of_still (by simp [hh]) (by simp [hh]) hinside (fun _ _ _ => rfl) hs hq hthrough
  | beaten hi hfree hrun hlow hworse ht =>
      rw [hid] at ht
      subst ht
      exact hb.of_still (by simp [hh]) rfl hinside (fun _ _ _ => rfl) hs hq hthrough
  | again hend hlow ht =>
      subst ht
      exact hb.of_still (by simp [hh]) rfl hinside (fun _ _ _ => rfl) hs hq hthrough
  | @dispatched i hend hlow ht =>
      subst ht
      refine hb.of_still (by simp [hh]) (by simp [hh]) hinside (fun j _ hkept => ?_) hs hq hthrough
      have hji : j ≠ i := by
        intro heq
        subst heq
        rcases hkept with hkept | hkept
        · exact hh (hs.unique h h₀ j hkept hlow)
        · simp [fcfs, dispatchFcfs] at hkept
      rw [Scan.dispatch_proc_of_ne hji]

/-- **Step lemma.** -/
theorem step (hb : FcfsBest past s) (hs : ScanHolds s) (hstep : s.step fcfs e = some t) :
    FcfsBest ((s, e) :: past) t := by
  intro h q hq hthrough
  cases e with
  | proc e =>
      obtain ⟨u, hu, rfl⟩ := Option.map_eq_some_iff.mp hstep
      refine hb.of_still rfl rfl (by simp) (fun i hi _ => ?_) hs hq hthrough
      obtain ⟨k, a, b, c, hmark⟩ := hs.hosted.eq_mark hu hi
      rw [show Scan.proc { s with toSys := u } i = _ from hmark]
      rfl
  | scheduler h₀ =>
      obtain ⟨-, hchange⟩ := Scan.schedulerStep_cases hstep
      by_cases hh : h = h₀
      · subst hh
        exact hb.step_own hs hchange hq hthrough
      · exact hb.step_other hs hh hchange hq hthrough

end FcfsBest

theorem fcfsBest (run : Run (scan fcfs n) past s) : FcfsBest past s := by
  induction run with
  | init hinit =>
      subst hinit
      intro h q hq
      simp [Scan.boot] at hq
  | step run hstep ih => exact ih.step (scanHolds run) hstep

/-! ### Pids and birthtimes -/

/-- The FCFS scheduler changes a process only when it dispatches it. -/
theorem fcfs_scheduler_proc (hs : ScanHolds s) (hstep : s.step fcfs (.scheduler h) = some t) :
    t.kernel.ticks = s.kernel.ticks ∧ t.kernel.nextpid = s.kernel.nextpid ∧
      ∀ p, t.proc p = s.proc p ∨
        (s.proc p).state = .runnable ∧ t.proc p = dispatchFcfs (s.proc p) := by
  obtain ⟨-, hchange⟩ := Scan.schedulerStep_cases hstep
  have hid : ∀ i, s.modifyProc i fcfs.visit = s := fun i => Scan.modifyProc_id
  cases hchange with
  | passed hi hskip ht =>
      subst ht
      exact ⟨rfl, rfl, fun p => Or.inl rfl⟩
  | taken hi hfree hrun hbetter ht =>
      rw [hid] at ht
      subst ht
      exact ⟨rfl, rfl, fun p => Or.inl rfl⟩
  | beaten hi hfree hrun hlow hworse ht =>
      rw [hid] at ht
      subst ht
      exact ⟨rfl, rfl, fun p => Or.inl rfl⟩
  | again hend hlow ht =>
      subst ht
      exact ⟨rfl, rfl, fun p => Or.inl rfl⟩
  | @dispatched i hend hlow ht =>
      subst ht
      refine ⟨rfl, rfl, ?_⟩
      intro p
      by_cases hp : p = i
      · subst hp
        exact Or.inr ⟨hs.runnable h p hlow, Scan.dispatch_proc_self⟩
      · exact Or.inl (Scan.dispatch_proc_of_ne hp)

/-- A process that is live after an event was so before, with the same pid and
birthtime, or was created by it. -/
theorem Effect.creation {now : UInt32} {tick : Prop} {newpid : Option Int} {p q : Proc}
    (h : Effect now tick newpid p q) (hlive : q.live) :
    p.live ∧ q.pid = p.pid ∧ q.birthtime = p.birthtime ∨
      p.state = .unused ∧ newpid = some q.pid ∧ q.birthtime = now := by
  cases h with
  | touched _ h =>
      left
      cases h with
      | marked => exact ⟨hlive, rfl, rfl⟩
      | woken hasleep => exact ⟨by simp [Proc.live, hasleep], rfl, rfl⟩
  | ticked _ hrun =>
      left
      exact ⟨by simp [Proc.live, hrun], by simp [runningTimeProc, hrun],
        by simp [runningTimeProc, hrun]⟩
  | born hfree hpid => exact Or.inr ⟨hfree, hpid, rfl⟩
  | unborn => exact absurd rfl hlive
  | reaped => exact absurd rfl hlive

/-- A process that leaves its hart keeps them. -/
theorem Left.creation {now : UInt32} {p q : Proc} (h : Left (fun _ p => p) now p q) :
    q.pid = p.pid ∧ q.birthtime = p.birthtime := by
  cases h with
  | yielded => exact ⟨rfl, rfl⟩
  | slept => exact ⟨rfl, rfl⟩
  | exited h =>
      cases h with
      | marked => exact ⟨rfl, rfl⟩
      | woken => exact ⟨rfl, rfl⟩

/-- **Creation order**, as long as the clock has not wrapped: pids are handed
out in the order of birthtimes. -/
structure CreationOrder (past : Past (Scan n) (ScanEvent n)) (s : Scan n) : Prop where
  clock : s.kernel.ticks.toNat = ticksIn past
  pid_lt : ∀ p, (s.proc p).live → (s.proc p).pid < s.kernel.nextpid
  born : ∀ p, (s.proc p).live → (s.proc p).birthtime ≤ s.kernel.ticks
  ordered : ∀ p q, (s.proc p).live → (s.proc q).live → (s.proc p).pid < (s.proc q).pid →
    (s.proc p).birthtime ≤ (s.proc q).birthtime

namespace CreationOrder

theorem boot : CreationOrder [] (Scan.boot n) := by
  have hproc : ∀ p, (Scan.boot n).proc p = _ := userinit_proc
  have hlive : ∀ p, ((Scan.boot n).proc p).live → p = initproc := by
    intro p hp
    by_contra hne
    simp [hproc, hne, Proc.live] at hp
  refine ⟨by simp [Scan.boot, ticksIn], ?_, ?_, ?_⟩
  · intro p hp
    obtain rfl := hlive p hp
    exact show (userinit.proc initproc).pid < userinit.nextpid by decide
  · intro p hp
    obtain rfl := hlive p hp
    exact show (userinit.proc initproc).birthtime ≤ userinit.ticks by decide
  · intro p q hp hq hlt
    rw [hlive p hp, hlive q hq] at hlt
    omega

/-- What a step may do to pids and birthtimes. -/
theorem of_created (hs : CreationOrder past s)
    (hclock : t.kernel.ticks.toNat = ticksIn ((s, e) :: past))
    (hticks : s.kernel.ticks ≤ t.kernel.ticks) (hnext : s.kernel.nextpid ≤ t.kernel.nextpid)
    (hproc : ∀ p, (t.proc p).live →
      (s.proc p).live ∧ (t.proc p).pid = (s.proc p).pid ∧
        (t.proc p).birthtime = (s.proc p).birthtime ∨
      (t.proc p).pid = s.kernel.nextpid ∧ s.kernel.nextpid < t.kernel.nextpid ∧
        (t.proc p).birthtime = t.kernel.ticks) :
    CreationOrder ((s, e) :: past) t := by
  refine ⟨hclock, ?_, ?_, ?_⟩
  · intro p hp
    rcases hproc p hp with ⟨hp', hpid, -⟩ | ⟨hpid, hlt, -⟩
    · rw [hpid]
      have := hs.pid_lt p hp'
      omega
    · rwa [hpid]
  · intro p hp
    rcases hproc p hp with ⟨hp', -, hbirth⟩ | ⟨-, -, hbirth⟩
    · rw [hbirth]
      exact UInt32.le_trans (hs.born p hp') hticks
    · rw [hbirth]
      exact UInt32.le_refl _
  · intro p q hp hq hlt
    rcases hproc p hp with ⟨hp', hpid, hbirth⟩ | ⟨hpid, -, hbirth⟩ <;>
      rcases hproc q hq with ⟨hq', hqid, hbirth'⟩ | ⟨hqid, -, hbirth'⟩
    · rw [hbirth, hbirth']
      exact hs.ordered p q hp' hq' (by omega)
    · -- `q` is the new process
      rw [hbirth, hbirth']
      exact UInt32.le_trans (hs.born p hp') hticks
    · have := hs.pid_lt q hq'
      omega
    · omega

/-- **Step lemma.** -/
theorem step (hs : CreationOrder past s) (hholds : ScanHolds s)
    (hwrap : ticksIn ((s, e) :: past) < 2 ^ 32) (h : s.step fcfs e = some t) :
    CreationOrder ((s, e) :: past) t := by
  have hclock := hs.clock
  cases e with
  | proc e =>
      obtain ⟨u, hu, rfl⟩ := Option.map_eq_some_iff.mp h
      obtain ⟨hticks, hcases⟩ := procStep_cases hu
      have hnextpid := procStep_nextpid hu
      have hcount : u.kernel.ticks.toNat = ticksIn ((s, .proc e) :: past) := by
        rw [hticks]
        by_cases htick : e.isTick = true
        · simp only [ticksIn, ScanEvent.isTick, htick, if_true] at hwrap ⊢
          rw [UInt32.toNat_add, hclock, UInt32.toNat_one, Nat.mod_eq_of_lt hwrap]
        · simpa [ticksIn, ScanEvent.isTick, htick] using hclock
      refine hs.of_created hcount ?_ ?_ fun p hlive => ?_
      · rw [UInt32.le_iff_toNat_le, hcount, hclock]
        exact Nat.le_add_right _ _
      · rw [show Scan.toSys { s with toSys := u } = u from rfl, hnextpid]
        split <;> omega
      · rcases hcases with ⟨-, heff⟩ | ⟨-, h', p', hp', -, hleft, hothers⟩
        · rcases (heff p).creation hlive with hold | ⟨hfree, hpid, hbirth⟩
          · exact Or.inl hold
          · have hfork : e.newpid s.kernel.nextpid = some s.kernel.nextpid := by
              cases e <;> simp_all [ProcEvent.newpid]
            rw [hfork, Option.some.injEq] at hpid
            refine Or.inr ⟨hpid.symm, ?_, hbirth⟩
            rw [show Scan.toSys { s with toSys := u } = u from rfl, hnextpid,
              if_pos ⟨by simp [hfork], p, hfree⟩]
            omega
        · left
          by_cases hpp : p = p'
          · subst hpp
            have hrun : (s.kernel.proc p).state = .running := hholds.hosted.running h' p hp'
            exact ⟨by simp [Scan.proc, Proc.live, hrun], hleft.creation⟩
          · have heff : Effect u.kernel.ticks False none (s.proc p) (u.kernel.proc p) :=
              .touched (fun hno => hno.elim) (hothers p hpp)
            exact (heff.creation hlive).resolve_right fun hnew => by simp at hnew
  | scheduler h0 =>
      obtain ⟨hticks, hnextpid, hproc⟩ := fcfs_scheduler_proc hholds h
      refine hs.of_created ?_ ?_ ?_ fun p hlive => Or.inl ?_
      · simpa [hticks, ticksIn, ScanEvent.isTick] using hclock
      · rw [hticks]
        exact UInt32.le_refl _
      · rw [hnextpid]
      · rcases hproc p with hsame | ⟨hrun, hgive⟩
        · rw [hsame] at hlive ⊢
          exact ⟨hlive, rfl, rfl⟩
        · rw [hgive]
          exact ⟨by simp [Proc.live, hrun], rfl, rfl⟩

end CreationOrder

theorem creationOrder (run : Run (scan fcfs n) past s) (hwrap : ticksIn past < 2 ^ 32) :
    CreationOrder past s := by
  induction run with
  | init hinit => exact hinit ▸ CreationOrder.boot
  | step run hstep ih =>
      have hless := Nat.lt_of_le_of_lt (Nat.le_add_right _ _) hwrap
      exact (ih hless).step (scanHolds run) hwrap hstep

/-! ### The law of the FCFS scheduler -/

/-- **Who FCFS serves.**  When hart `h` dispatches `p`, every other process
that was RUNNABLE throughout its scan was created at a later tick, or at the
same tick and comes later in the table.  Hence, as long as the clock has not
wrapped, one with a smaller pid was created at the same tick and comes later
in the table. -/
theorem fcfs_serves_first (run : Run (scan fcfs n) past s)
    (hstep : (scan fcfs n).step s (.scheduler h) = some t) (hcpu : t.cpu h = some p)
    (hne : q ≠ p) (hq : RunnableThroughout h q past s) :
    Before s p q ∧
      (ticksIn past < 2 ^ 32 → (s.proc q).pid < (s.proc p).pid →
        (s.proc q).birthtime = (s.proc p).birthtime ∧ p < q) := by
  have hs := scanHolds run
  have hstep' : s.schedulerStep fcfs h = some t := hstep
  obtain ⟨hidle, hchange⟩ := Scan.schedulerStep_cases hstep'
  have hfirst : s.low h = some p ∧ NPROC ≤ s.cursor h := by
    cases hchange with
    | passed hi hskip ht => simp [ht, hidle] at hcpu
    | taken hi hfree hrun hbetter ht => simp [ht, hidle] at hcpu
    | beaten hi hfree hrun hlow hworse ht => simp [ht, hidle] at hcpu
    | again hend hlow ht => simp [ht, hidle] at hcpu
    | @dispatched i hend hlow ht =>
        obtain rfl : i = p := by simpa [ht] using hcpu
        exact ⟨hlow, hend⟩
  obtain ⟨i, hi, hbest⟩ := fcfsBest run h q (Nat.lt_of_lt_of_le q.isLt hfirst.2) hq
  obtain rfl : i = p := Option.some.inj (hi.symm.trans hfirst.1)
  have hbefore := hbest.resolve_left (Ne.symm hne)
  refine ⟨hbefore, ?_⟩
  intro hwrap hpid
  have hlive : ∀ j, (s.proc j).state = .runnable → (s.proc j).live := by
    intro j hj
    simp [Proc.live, hj]
  have hle := (creationOrder run hwrap).ordered q i (hlive q hq.now)
    (hlive i (hs.runnable h i hfirst.1)) hpid
  rcases hbefore with hlt | ⟨heq, hlt⟩
  · exact absurd hlt (UInt32.not_lt.mpr hle)
  · exact ⟨heq.symm, hlt⟩

/-- Init forks two children, in slots 1 and 2, and waits for them. -/
def twoChildren : List (ScanEvent 1) :=
  scanning 0 65 ++ [.proc (.fork 0 true), .proc (.fork 0 true), .proc (.wait 0 true)]

/-- The theorem at the dispatch of the first of two children. -/
theorem fcfs_serves_first_child : ∃ past s t, Run (scan fcfs 1) past s ∧
    (scan fcfs 1).step s (.scheduler 0) = some t ∧ t.cpu 0 = some 1 ∧ Before s 1 2 := by
  obtain ⟨past, s, run, hstep, hq⟩ := Machine.exists_run_of_trace (M := scan fcfs 1) rfl
    (twoChildren ++ scanning 0 64)
    (fun past s => ((scan fcfs 1).step s (.scheduler 0)).any (fun t => t.cpu 0 = some 1) = true ∧
      RunnableThroughout 0 2 past s) (by decide)
  obtain ⟨t, ht, hcpu⟩ := (Option.any_eq_true _ _).mp hstep
  have hcpu' : t.cpu 0 = some 1 := of_decide_eq_true hcpu
  exact ⟨past, s, t, run, ht, hcpu', (fcfs_serves_first run ht hcpu' (by decide) hq).1⟩

/-- All in the first tick: the first child exits and is reaped, and init forks
a third child into its slot, before the second has run. -/
def slotReused : List (ScanEvent 1) :=
  twoChildren ++ scanning 0 65 ++ .proc (.exit 0 0) :: scanning 0 65 ++
  [.proc (.wait 0 true), .proc (.fork 0 true), .proc (.sleep 0 (.other 0))] ++ scanning 0 64

set_option maxRecDepth 10000 in
/-- FCFS does not serve in the order of pids: the third child, in slot 1, is
dispatched although the second has been RUNNABLE throughout the scan. -/
theorem fcfs_serves_later :
    ¬ ∀ (n : Nat) past s t (h : Fin n) p q, Run (scan fcfs n) past s →
      (scan fcfs n).step s (.scheduler h) = some t → t.cpu h = some p →
      RunnableThroughout h q past s → ¬ (s.proc q).pid < (s.proc p).pid := by
  intro hlaw
  obtain ⟨past, s, run, hstep, hq, hpid⟩ := Machine.exists_run_of_trace (M := scan fcfs 1) rfl
    slotReused
    (fun past s => ((scan fcfs 1).step s (.scheduler 0)).any (fun t => t.cpu 0 = some 1) = true ∧
      RunnableThroughout 0 2 past s ∧ (s.proc 2).pid < (s.proc 1).pid) (by decide)
  obtain ⟨t, ht, hcpu⟩ := (Option.any_eq_true _ _).mp hstep
  exact hlaw 1 past s t 0 1 2 run ht (of_decide_eq_true hcpu) hq hpid

end Xv6
