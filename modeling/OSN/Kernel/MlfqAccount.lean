import OSN.Kernel.MlfqSteps
import Mathlib.Tactic.IntervalCases

/-!
# Processor time under MLFQ

`RunningTime`, `allocproc`, `exit` and the demotions and promotions write the
counters that `waitx` and `procdump` report.  `tally` counts the ticks of a
process from the past of the run; `Account` says that each counter is the tally
of its kind modulo `2^32`, and that is all there is to prove about steps.  The
relations between the counters follow by counting: who is RUNNING has not
exited, who has not exited has been made.  They hold as numbers as long as the
process has lived for fewer than `2^32` ticks.
-/

namespace Xv6

variable {n : Nat} {past : Past (Mlfq n) (MlfqEvent n)} {s t : Mlfq n} {e : MlfqEvent n}
  {p : Slot}

/-- How many clock ticks have found `p` as `kind` says since it was created. -/
def tally (kind : Proc → Bool) (p : Slot) : Past (Mlfq n) (MlfqEvent n) → Nat
  | [] => 0
  | (u, e) :: past =>
      if (u.proc p).state = .unused then 0
      else tally kind p past + if e.isTick ∧ kind (u.proc p) then 1 else 0

/-- The ticks since the process was created. -/
def age (p : Slot) (past : Past (Mlfq n) (MlfqEvent n)) : Nat := tally (fun _ => true) p past

/-- The ticks from its creation to its exit, or until now. -/
def lifetime (p : Slot) (past : Past (Mlfq n) (MlfqEvent n)) : Nat :=
  tally (fun q => q.state ≠ .zombie) p past

/-- The ticks that found it RUNNING. -/
def spent (p : Slot) (past : Past (Mlfq n) (MlfqEvent n)) : Nat :=
  tally (fun q => q.state = .running) p past

/-- The ticks that found it RUNNING at a level. -/
def spentAt (level : Nat) (p : Slot) (past : Past (Mlfq n) (MlfqEvent n)) : Nat :=
  tally (fun q => q.state = .running ∧ q.level.toNat = level) p past

/-- What `waitx` reports of a ZOMBIE: `rtime` and `wtime`. -/
def waitxTimes (p : Proc) : UInt32 × UInt32 := (p.rtime, p.etime - p.birthtime - p.rtime)

/-- The sum of `timeineachq[0..4]`. -/
def timeInQueues (p : Proc) : UInt32 := ((List.range 5).map p.timeineachq).sum

/-- The claims on the counters: the level is that of a queue, the queues make
up `rtime`, and no process has run for longer than it has lived. -/
structure Consistent (now : UInt32) (p : Proc) : Prop where
  level : p.level ≤ 4
  queues : timeInQueues p = p.rtime
  rtime : p.rtime ≤ now - p.birthtime
  zombie : p.state = .zombie → p.rtime ≤ p.etime - p.birthtime

/-! ### Counting -/

theorem tally_le {kind kind' : Proc → Bool} (hkind : ∀ q, kind q = true → kind' q = true) :
    tally kind p past ≤ tally kind' p past := by
  induction past with
  | nil => exact le_rfl
  | cons x past ih =>
      obtain ⟨u, e⟩ := x
      unfold tally
      split
      · exact le_rfl
      · have hone : (if e.isTick ∧ kind (u.proc p) then 1 else 0)
            ≤ if e.isTick ∧ kind' (u.proc p) then 1 else 0 := by
          split
          case isTrue h => rw [if_pos ⟨h.1, hkind _ h.2⟩]
          case isFalse => exact Nat.zero_le _
        exact Nat.add_le_add ih hone

theorem spent_le_lifetime : spent p past ≤ lifetime p past :=
  tally_le fun q hq => by simp_all

theorem lifetime_le_age : lifetime p past ≤ age p past := tally_le fun _ _ => rfl

theorem spentAt_le_spent {level : Nat} : spentAt level p past ≤ spent p past :=
  tally_le fun q hq => by simp_all

/-- A counter that is a tally modulo `2^32` is the tally as long as that is
small. -/
theorem toNat_ofNat_of_lt {k : Nat} (hk : k < 2 ^ 32) : (UInt32.ofNat k).toNat = k := by
  simpa using hk

/-- The time between two readings of the clock, if it has not gone round. -/
theorem elapsed_toNat {start now : UInt32} {k : Nat} (hnow : now = start + UInt32.ofNat k)
    (hk : k < 2 ^ 32) : (now - start).toNat = k := by
  rw [hnow, UInt32.add_comm, UInt32.add_sub_cancel, toNat_ofNat_of_lt hk]

/-! ### The counters -/

/-- **The account of a process**: its counters are tallies. -/
structure Account (past : Past (Mlfq n) (MlfqEvent n)) (now : UInt32) (p : Slot) (q : Proc) :
    Prop where
  level : q.level.toNat < 5
  clock : now = q.birthtime + UInt32.ofNat (age p past)
  rtime : q.rtime = UInt32.ofNat (spent p past)
  queues : ∀ l, q.timeineachq l = UInt32.ofNat (spentAt l p past)
  total : ((List.range 5).map fun l => spentAt l p past).sum = spent p past
  ended : q.state = .zombie → q.etime = q.birthtime + UInt32.ofNat (lifetime p past)
  going : q.state ≠ .zombie → lifetime p past = age p past

/-- The counters, but for `etime`, are as they were. -/
structure SameTimes (q r : Proc) : Prop where
  birthtime : r.birthtime = q.birthtime
  rtime : r.rtime = q.rtime
  queues : r.timeineachq = q.timeineachq

theorem demote_times (q : Proc) : SameTimes q (demote q) ∧ (demote q).etime = q.etime := by
  unfold demote
  split_ifs <;> exact ⟨⟨rfl, rfl, rfl⟩, rfl⟩

theorem promote_times (now : UInt32) (q : Proc) :
    SameTimes q (promote now q) ∧ (promote now q).etime = q.etime := by
  unfold promote
  split_ifs <;> exact ⟨⟨rfl, rfl, rfl⟩, rfl⟩

theorem tally_cons_unused {kind : Proc → Bool} (h : (s.proc p).state = .unused) :
    tally kind p ((s, e) :: past) = 0 := if_pos h

theorem tally_cons_still {kind : Proc → Bool} (hlive : (s.proc p).live) (htick : e.isTick = false) :
    tally kind p ((s, e) :: past) = tally kind p past := by
  rw [tally, if_neg hlive]
  simp [htick]

theorem tally_cons_tick {kind : Proc → Bool} (hlive : (s.proc p).live) (htick : e.isTick = true) :
    tally kind p ((s, e) :: past) = tally kind p past + if kind (s.proc p) then 1 else 0 := by
  rw [tally, if_neg hlive]
  simp [htick]

theorem ofNat_add_one (k : Nat) : UInt32.ofNat (k + 1) = UInt32.ofNat k + 1 := UInt32.ofNat_add k 1

namespace Account

variable {now : UInt32} {q r : Proc}

/-- A process that has just been made. -/
theorem born (hnone : ∀ kind, tally kind p past = 0) (hlevel : r.level = 0)
    (hbirth : r.birthtime = now)
    (hrtime : r.rtime = 0) (hqueues : r.timeineachq = fun _ => 0) (hstate : r.state ≠ .zombie) :
    Account past now p r := by
  refine ⟨by simp [hlevel], ?_, ?_, ?_, ?_, fun h => absurd h hstate, ?_⟩
  · simp [age, hnone, hbirth]
  · simp [spent, hnone, hrtime]
  · intro l
    simp [spentAt, hnone, hqueues]
  · simp [spentAt, spent, hnone]
  · intro _
    simp [lifetime, age, hnone]

/-- A change that leaves the counters alone, between two ticks. -/
theorem of_same (h : Account past now p q) (hlive : (s.proc p).live) (htick : e.isTick = false)
    (hlevel : r.level.toNat < 5) (hsame : SameTimes q r)
    (hzombie : r.state = .zombie ↔ q.state = .zombie) (hetime : r.etime = q.etime) :
    Account ((s, e) :: past) now p r := by
  have hstill : ∀ kind, tally kind p ((s, e) :: past) = tally kind p past :=
    fun kind => tally_cons_still hlive htick
  refine ⟨hlevel, ?_, ?_, ?_, ?_, ?_, ?_⟩
  · rw [hsame.birthtime, age, hstill]
    exact h.clock
  · rw [hsame.rtime, spent, hstill]
    exact h.rtime
  · intro l
    rw [hsame.queues, spentAt, hstill]
    exact h.queues l
  · simpa only [spentAt, spent, hstill] using h.total
  · intro hr
    rw [hetime, hsame.birthtime, lifetime, hstill]
    exact h.ended (hzombie.mp hr)
  · intro hr
    rw [lifetime, age, hstill, hstill]
    exact h.going (hzombie.not.mp hr)

/-- `exit` puts down the end of the lifetime. -/
theorem exited (h : Account past now p q) (hlive : (s.proc p).live) (htick : e.isTick = false)
    (hq : q.state ≠ .zombie) (hlevel : r.level = q.level) (hsame : SameTimes q r)
    (hstate : r.state = .zombie) (hetime : r.etime = now) :
    Account ((s, e) :: past) now p r := by
  have hstill : ∀ kind, tally kind p ((s, e) :: past) = tally kind p past :=
    fun kind => tally_cons_still hlive htick
  refine ⟨hlevel ▸ h.level, ?_, ?_, ?_, ?_, ?_, fun hr => absurd hstate hr⟩
  · rw [hsame.birthtime, age, hstill]
    exact h.clock
  · rw [hsame.rtime, spent, hstill]
    exact h.rtime
  · intro l
    rw [hsame.queues, spentAt, hstill]
    exact h.queues l
  · simpa only [spentAt, spent, hstill] using h.total
  · intro _
    rw [hetime, hsame.birthtime, lifetime, hstill, ← lifetime, h.going hq]
    exact h.clock

/-- A tick that finds the process not RUNNING. -/
theorem waited (h : Account past now p (s.proc p)) (hlive : (s.proc p).live) (htick : e.isTick = true)
    (hidle : (s.proc p).state ≠ .running) (hlevel : r.level = (s.proc p).level)
    (hsame : SameTimes (s.proc p) r) (hzombie : r.state = .zombie ↔ (s.proc p).state = .zombie)
    (hetime : r.etime = (s.proc p).etime) :
    Account ((s, e) :: past) (now + 1) p r := by
  have hidle' : ∀ l, tally (fun q => decide (q.state = .running ∧ q.level.toNat = l)) p
      ((s, e) :: past) = spentAt l p past := by
    intro l
    rw [tally_cons_tick hlive htick, if_neg (by simp [hidle])]
    rfl
  refine ⟨hlevel ▸ h.level, ?_, ?_, ?_, ?_, ?_, ?_⟩
  · rw [hsame.birthtime, age, tally_cons_tick hlive htick, if_pos rfl, ofNat_add_one,
      ← UInt32.add_assoc, ← age, ← h.clock]
  · rw [hsame.rtime, spent, tally_cons_tick hlive htick, if_neg (by simpa using hidle)]
    exact h.rtime
  · intro l
    rw [hsame.queues, spentAt, hidle']
    exact h.queues l
  · simp only [spentAt, hidle']
    rw [spent, tally_cons_tick hlive htick, if_neg (by simpa using hidle)]
    exact h.total
  · intro hr
    have hdead := hzombie.mp hr
    rw [hetime, hsame.birthtime, lifetime, tally_cons_tick hlive htick, if_neg (by simp [hdead])]
    exact h.ended hdead
  · intro hr
    have hgoing := hzombie.not.mp hr
    rw [lifetime, age, tally_cons_tick hlive htick, tally_cons_tick hlive htick, if_pos rfl,
      if_pos (by simpa using hgoing)]
    exact congrArg (· + 1) (h.going hgoing)

/-- A tick that finds it RUNNING: `RunningTime` counts it. -/
theorem ticked (h : Account past now p (s.proc p)) (htick : e.isTick = true)
    (hrun : (s.proc p).state = .running) :
    Account ((s, e) :: past) (now + 1) p (runningTimeProc (s.proc p)) := by
  have hlive : (s.proc p).live := by simp [Proc.live, hrun]
  have hone : runningTimeProc (s.proc p) = _ := if_pos hrun
  have hcount : ∀ l, spentAt l p ((s, e) :: past) =
      spentAt l p past + if l = (s.proc p).level.toNat then 1 else 0 := by
    intro l
    rw [spentAt, tally_cons_tick hlive htick]
    simp [hrun, eq_comm, spentAt]
  refine ⟨?_, ?_, ?_, ?_, ?_, ?_, ?_⟩
  · rw [hone]
    exact h.level
  · rw [hone, age, tally_cons_tick hlive htick, if_pos rfl, ofNat_add_one, ← UInt32.add_assoc, ← age,
      ← h.clock]
  · rw [hone, spent, tally_cons_tick hlive htick, if_pos (by simpa using hrun), ofNat_add_one, ← spent,
      ← h.rtime]
  · intro l
    have hqueue := h.queues l
    rw [hone, hcount]
    by_cases hl : l = (s.proc p).level.toNat
    · subst hl
      simp [ofNat_add_one, ← hqueue]
    · simpa [hl] using hqueue
  · -- the tick falls into one of the five queues
    have hlevel := h.level
    have htotal := h.total
    rw [spent, tally_cons_tick hlive htick, if_pos (by simpa using hrun), ← spent, ← htotal]
    simp only [hcount]
    generalize (s.proc p).level.toNat = level at hlevel
    simp only [List.range, List.range.loop, List.map_cons, List.map_nil, List.sum_cons,
      List.sum_nil]
    interval_cases level <;> simp <;> omega
  · intro hr
    simp [runningTimeProc_state, hrun] at hr
  · intro _
    rw [lifetime, age, tally_cons_tick hlive htick, tally_cons_tick hlive htick, if_pos rfl,
      if_pos (by simp [hrun])]
    exact congrArg (· + 1) (h.going (by simp [hrun]))

end Account

/-! ### Every step keeps the accounts -/

/-- A process event keeps the account of a process that stays where it is. -/
theorem Effect.account {now : UInt32} {newpid : Option Int} {q : Proc}
    (heff : Effect now (e.isTick = true) newpid (s.proc p) q)
    (hnow : now = if e.isTick then s.kernel.ticks + 1 else s.kernel.ticks)
    (h : (s.proc p).live → Account past s.kernel.ticks p (s.proc p)) (hlive : q.live) :
    Account ((s, e) :: past) now p q := by
  cases heff with
  | touched hstill htouched =>
      have hp : (s.proc p).live := by
        cases htouched with
        | marked => exact hlive
        | woken hasleep => simp [Proc.live, hasleep]
      cases htick : e.isTick with
      | true =>
          obtain rfl : now = s.kernel.ticks + 1 := by simpa [htick] using hnow
          cases htouched with
          | marked => exact (h hp).waited hp htick (hstill htick) rfl ⟨rfl, rfl, rfl⟩ Iff.rfl rfl
          | woken hasleep =>
              refine (h hp).waited hp htick (hstill htick) rfl ⟨rfl, rfl, rfl⟩ ?_ rfl
              simp [Proc.mark, wakeProc, hasleep]
      | false =>
          obtain rfl : now = s.kernel.ticks := by simpa [htick] using hnow
          cases htouched with
          | marked => exact (h hp).of_same hp htick (h hp).level ⟨rfl, rfl, rfl⟩ Iff.rfl rfl
          | woken hasleep =>
              refine (h hp).of_same hp htick (h hp).level ⟨rfl, rfl, rfl⟩ ?_ rfl
              simp [Proc.mark, wakeProc, hasleep]
  | ticked htick hrun =>
      have hp : (s.proc p).live := by simp [Proc.live, hrun]
      obtain rfl : now = s.kernel.ticks + 1 := by simpa [htick] using hnow
      exact (h hp).ticked htick hrun
  | born hfree =>
      exact .born (fun _ => tally_cons_unused hfree) rfl rfl rfl rfl (by simp [forkFields])
  | unborn | reaped => exact absurd rfl hlive

/-- So does an event that makes the process leave its hart. -/
theorem Left.account {now : UInt32} {q : Proc} (hleft : Left setQEnter now (s.proc p) q)
    (htick : e.isTick = false) (hrun : (s.proc p).state = .running)
    (h : Account past now p (s.proc p)) : Account ((s, e) :: past) now p q := by
  have hp : (s.proc p).live := by simp [Proc.live, hrun]
  cases hleft with
  | yielded =>
      exact h.of_same hp htick h.level ⟨rfl, rfl, rfl⟩ (by simp [setQEnter, yieldProc, hrun]) rfl
  | slept =>
      exact h.of_same hp htick h.level ⟨rfl, rfl, rfl⟩ (by simp [setQEnter, sleepProc, hrun]) rfl
  | exited htouched =>
      obtain ⟨killed, parent, a, b, rfl⟩ := htouched.eq_mark (by simp [hrun])
      exact h.exited hp htick (by simp [hrun]) rfl ⟨rfl, rfl, rfl⟩ rfl rfl

/-- **The accounts of a run.** -/
def Accounts (past : Past (Mlfq n) (MlfqEvent n)) (s : Mlfq n) : Prop :=
  ∀ p, (s.proc p).live → Account past s.kernel.ticks p (s.proc p)

namespace Accounts

theorem boot : Accounts [] (Mlfq.boot n) := by
  intro p hlive
  have hproc : (Mlfq.boot n).proc p = _ := userinit_proc p
  rw [hproc] at hlive ⊢
  split
  case isTrue =>
      refine .born (fun _ => rfl) rfl ?_ rfl rfl (by simp)
      simp [allocprocFields, Mlfq.boot]
  case isFalse hp => simp [hp, Proc.live] at hlive

/-- A step of the scheduler or the timer check, which is no tick. -/
theorem other (hs : Accounts past s) (htick : e.isTick = false)
    (hticks : t.kernel.ticks = s.kernel.ticks) {q : Proc} (hq : t.proc p = q)
    (hzombie : q.state = .zombie ↔ (s.proc p).state = .zombie) (hlive : (s.proc p).live)
    (hlevel : q.level.toNat < 5) (hsame : SameTimes (s.proc p) q)
    (hetime : q.etime = (s.proc p).etime) :
    Account ((s, e) :: past) t.kernel.ticks p (t.proc p) := by
  rw [hq, hticks]
  exact (hs p hlive).of_same hlive htick hlevel hsame hzombie hetime

/-- A process that such a step does not touch. -/
theorem same (hs : Accounts past s) (htick : e.isTick = false)
    (hticks : t.kernel.ticks = s.kernel.ticks) (hq : t.proc p = s.proc p)
    (hlive : (t.proc p).live) :
    Account ((s, e) :: past) t.kernel.ticks p (t.proc p) :=
  hs.other htick hticks hq Iff.rfl (hq ▸ hlive) (hs p (hq ▸ hlive)).level ⟨rfl, rfl, rfl⟩ rfl

/-- **Step lemma.** -/
theorem step (hs : Accounts past s) (hosted : Hosted s.toSys) (h : s.step e = some t) :
    Accounts ((s, e) :: past) t := by
  intro p hlive
  cases e with
  | proc e =>
      obtain ⟨u, hu, rfl⟩ := Option.map_eq_some_iff.mp h
      obtain ⟨hticks, ⟨-, heff⟩ | ⟨htick, h', p', hp', -, hleft, hothers⟩⟩ := procStep_cases hu
      · exact (heff p).account hticks (hs p) hlive
      · have hsame : u.kernel.ticks = s.kernel.ticks := by simpa [htick] using hticks
        by_cases hpp : p = p'
        · subst hpp
          have hrun : (s.proc p).state = .running := hosted.running h' p hp'
          have haccount := hs p (by simp [Proc.live, hrun])
          rw [← hsame] at haccount
          exact hleft.account htick hrun haccount
        · have heff : Effect u.kernel.ticks ((MlfqEvent.proc e).isTick = true) none (s.proc p)
              (u.kernel.proc p) :=
            .touched (fun h => by simp [MlfqEvent.isTick, htick] at h) (hothers p hpp)
          exact heff.account hticks (hs p) hlive
  | timerTrap h0 =>
      obtain ⟨p', hp', ⟨-, rfl⟩ | ⟨-, -, hticks, hself, hothers⟩⟩ := Mlfq.timerTrap_cases h
      · exact hs.same rfl rfl rfl hlive
      · by_cases hpp : p = p'
        · subst hpp
          have hrun : (s.proc p).state = .running := hosted.running h0 p hp'
          have hp : (s.proc p).live := by simp [Proc.live, hrun]
          obtain ⟨hsame, hetime⟩ := demote_times (s.proc p)
          exact hs.other rfl hticks hself (by simp [yieldProc, hrun]) hp
            (demote_level (hs p hp).level) ⟨hsame.birthtime, hsame.rtime, hsame.queues⟩ hetime
        · exact hs.same rfl hticks (hothers p hpp) hlive
  | scheduler h0 =>
      obtain ⟨-, hticks, ⟨i, inQ, -, hover, -, hself, hothers⟩ | ⟨-, -, hall⟩ |
        ⟨l, p', -, hrun, -, hself, hothers⟩⟩ := Mlfq.schedulerStep_cases h
      · by_cases hpi : p = i
        · subst hpi
          have hp : (s.proc p).live := by simp [Proc.live, hover.1]
          obtain ⟨hsame, hetime⟩ := promote_times s.kernel.ticks (setInQ inQ (s.proc p))
          exact hs.other rfl hticks hself (by simp) hp (promote_level _ (hs p hp).level)
            ⟨hsame.birthtime, hsame.rtime, hsame.queues⟩ hetime
        · exact hs.same rfl hticks (hothers p hpi) hlive
      · obtain ⟨inQ, hp⟩ := hall p
        have hp' : (s.proc p).live := by simpa [hp, Proc.live] using hlive
        exact hs.other rfl hticks hp Iff.rfl hp' (hs p hp').level ⟨rfl, rfl, rfl⟩ rfl
      · by_cases hpp : p = p'
        · subst hpp
          have hp : (s.proc p).live := by simp [Proc.live, hrun]
          exact hs.other rfl hticks hself (by simp [dispatchProc, hrun]) hp (hs p hp).level
            ⟨rfl, rfl, rfl⟩
            rfl
        · exact hs.same rfl hticks (hothers p hpp) hlive

end Accounts

theorem mlfq_accounts (run : Run (mlfq n) past s) : Accounts past s :=
  run.invariant (P := Accounts) (fun _ hs => hs ▸ Accounts.boot)
    fun _ _ _ _ run hs h => hs.step (mlfq_hosted run) h

/-! ### What the accounts say -/

namespace Account

variable {now : UInt32} {q : Proc}

theorem level_le (h : Account past now p q) : q.level ≤ 4 := by
  have hlevel := h.level
  rw [UInt32.le_iff_toNat_le]
  exact Nat.le_of_lt_succ hlevel

/-- The queues make up `rtime`, however often either has gone round. -/
theorem timeInQueues_eq (h : Account past now p q) : timeInQueues q = q.rtime := by
  rw [h.rtime, ← h.total]
  simp [timeInQueues, List.range, List.range.loop, h.queues, UInt32.ofNat_add]

/-- They do so as numbers if the process has not lived too long. -/
theorem timeInQueues_toNat (h : Account past now p q) (hlife : lifetime p past < 2 ^ 32) :
    ((List.range 5).map fun l => (q.timeineachq l).toNat).sum = q.rtime.toNat := by
  have hspent : spent p past < 2 ^ 32 := Nat.lt_of_le_of_lt spent_le_lifetime hlife
  have hqueue : ∀ l, (q.timeineachq l).toNat = spentAt l p past := by
    intro l
    rw [h.queues, toNat_ofNat_of_lt (Nat.lt_of_le_of_lt spentAt_le_spent hspent)]
  rw [h.rtime, toNat_ofNat_of_lt hspent, ← h.total]
  simp only [hqueue]

theorem rtime_toNat (h : Account past now p q) (hlife : lifetime p past < 2 ^ 32) :
    q.rtime.toNat = spent p past := by
  rw [h.rtime, toNat_ofNat_of_lt (Nat.lt_of_le_of_lt spent_le_lifetime hlife)]

/-- Nobody has run for longer than since its creation. -/
theorem rtime_le (h : Account past now p q) (hage : age p past < 2 ^ 32) :
    q.rtime ≤ now - q.birthtime := by
  have hlife : lifetime p past < 2 ^ 32 := Nat.lt_of_le_of_lt lifetime_le_age hage
  rw [UInt32.le_iff_toNat_le, h.rtime_toNat hlife, elapsed_toNat h.clock hage]
  exact Nat.le_trans spent_le_lifetime lifetime_le_age

/-- Nobody has run for longer than it has lived. -/
theorem rtime_le_of_zombie (h : Account past now p q) (hzombie : q.state = .zombie)
    (hlife : lifetime p past < 2 ^ 32) : q.rtime ≤ q.etime - q.birthtime := by
  rw [UInt32.le_iff_toNat_le, h.rtime_toNat hlife, elapsed_toNat (h.ended hzombie) hlife]
  exact spent_le_lifetime

/-- What `waitx` reports adds up to the lifetime. -/
theorem waitxTimes_add (h : Account past now p q) (hzombie : q.state = .zombie)
    (hlife : lifetime p past < 2 ^ 32) :
    (waitxTimes q).1.toNat + (waitxTimes q).2.toNat = lifetime p past := by
  have hle := h.rtime_le_of_zombie hzombie hlife
  have hlived := elapsed_toNat (h.ended hzombie) hlife
  rw [UInt32.le_iff_toNat_le] at hle
  simp only [waitxTimes]
  rw [UInt32.toNat_sub_of_le _ _ (UInt32.le_iff_toNat_le.mpr hle)]
  omega

end Account

/-- **The accounts are consistent.**  In every run, of a process in any state:
its level is that of a queue and its time in the five queues makes up `rtime`;
`rtime` is at most the time since its creation, as long as that is less than
`2^32` ticks; and for a ZOMBIE that has lived for fewer ticks than that,
`rtime` is at most its lifetime, and what `waitx` reports adds up to it. -/
theorem accounts_consistent (run : Run (mlfq n) past s) (p : Slot) (hlive : (s.proc p).live) :
    (s.proc p).level ≤ 4 ∧ timeInQueues (s.proc p) = (s.proc p).rtime ∧
      (lifetime p past < 2 ^ 32 →
        ((List.range 5).map fun l => ((s.proc p).timeineachq l).toNat).sum =
          (s.proc p).rtime.toNat) ∧
      (age p past < 2 ^ 32 → (s.proc p).rtime ≤ s.kernel.ticks - (s.proc p).birthtime) ∧
      ((s.proc p).state = .zombie → lifetime p past < 2 ^ 32 →
        (s.proc p).rtime ≤ (s.proc p).etime - (s.proc p).birthtime ∧
          (waitxTimes (s.proc p)).1.toNat + (waitxTimes (s.proc p)).2.toNat = lifetime p past) := by
  have haccount := mlfq_accounts run p hlive
  exact ⟨haccount.level_le, haccount.timeInQueues_eq, haccount.timeInQueues_toNat, haccount.rtime_le,
    fun hzombie hlife =>
      ⟨haccount.rtime_le_of_zombie hzombie hlife, haccount.waitxTimes_add hzombie hlife⟩⟩

/-- A run in which init forks a child and sleeps, and the child runs for one
tick and exits. -/
def childExits : List (MlfqEvent 1) :=
  scheduling 0 136 ++ .proc (.fork 0 true) :: .proc (.sleep 0 (.other 0)) :: scheduling 0 66 ++
    [.proc (.clockintr 0), .proc (.exit 0 0)]

/-- The theorem for the child of `childExits`, a ZOMBIE that has run for one
tick. -/
theorem accounts_consistent_child : ∃ past s, Run (mlfq 1) past s ∧
    ((s.proc 1).state = .zombie ∧ (s.proc 1).rtime = 1) ∧
    ((s.proc 1).level ≤ 4 ∧ timeInQueues (s.proc 1) = (s.proc 1).rtime ∧
      (lifetime 1 past < 2 ^ 32 →
        ((List.range 5).map fun l => ((s.proc 1).timeineachq l).toNat).sum =
          (s.proc 1).rtime.toNat) ∧
      (age 1 past < 2 ^ 32 → (s.proc 1).rtime ≤ s.kernel.ticks - (s.proc 1).birthtime) ∧
      ((s.proc 1).state = .zombie → lifetime 1 past < 2 ^ 32 →
        (s.proc 1).rtime ≤ (s.proc 1).etime - (s.proc 1).birthtime ∧
          (waitxTimes (s.proc 1)).1.toNat + (waitxTimes (s.proc 1)).2.toNat = lifetime 1 past)) := by
  obtain ⟨past, s, run, hchild⟩ := Machine.exists_run_of_trace (M := mlfq 1) rfl childExits
    (fun _ s => (s.proc 1).state = .zombie ∧ (s.proc 1).rtime = 1) (by decide +kernel)
  exact ⟨past, s, run, hchild, accounts_consistent run 1 (by simp [Proc.live, hchild.1])⟩

/-! ### The clock goes round -/

/-- A tick changes nothing but the clock. -/
def Idle (s : Mlfq n) : Prop :=
  ∀ p, (s.proc p).state ≠ .running ∧ ¬ ((s.proc p).state = .sleeping ∧ (s.proc p).chan = some .ticks)

instance (s : Mlfq n) : Decidable (Idle s) := by
  unfold Idle
  infer_instance

theorem Idle.clockintr (hidle : Idle s) {h : Fin n} (hh : h.val = 0) :
    ∃ t, s.step (.proc (.clockintr h)) = some t ∧ (∀ p, t.proc p = s.proc p) ∧
      t.kernel.ticks = s.kernel.ticks + 1 := by
  refine ⟨{ s with toSys := s.toSys.withKernel (Xv6.clockintr (s.cpu h) s.kernel) }, ?_, ?_, rfl⟩
  · simp [Mlfq.step, Sys.procStep, hh]
  · intro p
    obtain ⟨hrun, hsleep⟩ := hidle p
    show (Xv6.clockintr (s.cpu h) s.kernel).proc p = s.kernel.proc p
    rw [clockintr_proc, runningTimeProc_of_ne hrun, wakeupProc, if_neg hsleep, ite_self]

/-- An idle machine may be left alone for any number of ticks. -/
theorem Idle.ticks {h : Fin n} (hh : h.val = 0) (k : Nat) :
    ∀ {past s}, Run (mlfq n) past s → Idle s →
      ∃ past' t, Run (mlfq n) past' t ∧ (∀ p, t.proc p = s.proc p) ∧
        t.kernel.ticks = s.kernel.ticks + UInt32.ofNat k := by
  induction k with
  | zero => exact fun {past s} run _ => ⟨past, s, run, fun _ => rfl, by simp⟩
  | succ k ih =>
      intro past s run hidle
      obtain ⟨past', t, run', hproc, hticks⟩ := ih run hidle
      have hidle' : Idle t := fun p => by rw [hproc]; exact hidle p
      obtain ⟨u, hstep, hproc', hticks'⟩ := hidle'.clockintr hh
      have hnext : (mlfq n).step t (.proc (.clockintr h)) = some u := hstep
      refine ⟨_, u, run'.step hnext, fun p => (hproc' p).trans (hproc p), ?_⟩
      rw [hticks', hticks, ofNat_add_one, UInt32.add_assoc]

/-- A run in which init, on hart 1, runs for one tick and goes to sleep. -/
def fallAsleep : List (MlfqEvent 2) :=
  scheduling 1 136 ++ [.proc (.clockintr 0), .proc (.sleep 1 (.other 0))]

/-- The accounts do not stay consistent for ever: when init sleeps for
`2^32 - 1` more ticks, the clock is back at its `birthtime`, and it has run for
a tick. -/
theorem accounts_inconsistent :
    ¬ ∀ (n : Nat) past s, Run (mlfq n) past s → ∀ p, (s.proc p).live →
      Consistent s.kernel.ticks (s.proc p) := by
  intro h
  obtain ⟨past, s, run, hidle, hstate, hrtime, hbirth, hticks⟩ :=
    Machine.exists_run_of_trace (M := mlfq 2) rfl fallAsleep
      (fun _ s => Idle s ∧ (s.proc initproc).state = .sleeping ∧ (s.proc initproc).rtime = 1 ∧
        (s.proc initproc).birthtime = 0 ∧ s.kernel.ticks = 1) (by decide +kernel)
  obtain ⟨past', t, run', hproc, hticks'⟩ := Idle.ticks (h := 0) rfl (2 ^ 32 - 1) run hidle
  have hconsistent := (h 2 past' t run' initproc (by simp [hproc, Proc.live, hstate])).rtime
  rw [hproc, hrtime, hbirth, hticks', hticks] at hconsistent
  exact absurd hconsistent (by decide)

end Xv6
