import OSN.Kernel.Killed
import OSN.Kernel.Syscall

/-!
# `set_priority`

From the user's `set_priority(priority, pid)` to the process table: the stub
puts the two arguments into `a0` and `a1`, `sys_set_priority` fetches them with
`argint` and hands them to `_setpriority`, whose parameters are in the other
order.  So the process that changes is the one whose pid is the new priority,
and its new priority is the pid.
-/

namespace Xv6

/-- An `int` in a register: sign-extended. -/
def intReg (x : Int32) : UInt64 := x.toInt64.toUInt64

/-- `argint` gets the `int` back. -/
theorem toInt_intReg (x : Int32) : toInt (intReg x) = x := by
  have hbits : BitVec.setWidth 32 (BitVec.signExtend 64 x.toBitVec) = x.toBitVec := by
    ext i hi
    have hi64 : i < 64 := by omega
    rw [BitVec.getElem_setWidth, BitVec.getLsbD_signExtend]
    simp [hi, hi64]
  apply Int32.toBitVec_inj.mp
  simpa [toInt, intReg] using hbits

/-- The registers of `set_priority(priority, pid)` at the `ecall`. -/
def setPriorityStub (priority pid : Int32) : Trapframe :=
  { a0 := intReg priority, a1 := intReg pid, a7 := 23 }

/-- `sys_set_priority`, with its return value. -/
def sys_set_priority (tf : Trapframe) (k : Kernel) : Except Stuck (UInt32 × Kernel) := do
  let newPriority ← argint tf 0
  let procid ← argint tf 1
  return sysSetPriority newPriority.toInt procid.toInt k

/-- **The pids of a table.**  A free slot has pid 0, and live processes have
positive pids of their own. -/
structure PidTable (k : Kernel) : Prop where
  unused : ∀ p, (k.proc p).state = .unused → (k.proc p).pid = 0
  live : ∀ p, (k.proc p).live → 0 < (k.proc p).pid
  distinct : ∀ p q, (k.proc p).live → (k.proc q).live → (k.proc p).pid = (k.proc q).pid → p = q

/-! ### Every table that the kernel reaches is one -/

section Reachable

variable {n : Nat} {s t : Sys n} {e : TableEvent n} {past : Past (Sys n) (TableEvent n)}
  {p q : Slot}

/-- A free slot that is only touched stays free. -/
theorem Touched.unused {now : UInt32} {r r' : Proc} (h : Touched now r r')
    (hr : r.state = .unused) : r'.state = .unused := by
  obtain ⟨killed, parent, staticPriority, niceness, rfl⟩ := h.eq_mark (by simp [hr])
  exact hr

/-- An event that fills a free slot takes a pid for it. -/
theorem Effect.newpid_of_born {now : UInt32} {tick : Prop} {newpid : Option Int} {r r' : Proc}
    (h : Effect now tick newpid r r') (hr : r.state = .unused) (hr' : r'.live) :
    newpid.isSome := by
  cases h with
  | touched _ htouched => exact absurd (htouched.unused hr) hr'
  | ticked _ hrun => exact absurd (hrun.symm.trans hr) (by decide)
  | born _ hpid | unborn _ hpid => simp [hpid]
  | reaped => exact absurd rfl hr'

/-- Only `fork` makes a process. -/
theorem fork_of_born {e : ProcEvent n} (hosted : Hosted s)
    (h : s.procStep (fun _ q => q) e = some t) (hp : (s.proc p).state = .unused)
    (hp' : (t.proc p).live) : ∃ h₀ ok, e = .fork h₀ ok := by
  rcases (procStep_cases h).2 with ⟨-, heffect⟩ | ⟨-, h₀, r, hr, -, -, hothers⟩
  · have hnew := (heffect p).newpid_of_born hp hp'
    cases e with
    | fork h₀ ok => exact ⟨h₀, ok, rfl⟩
    | _ => simp [ProcEvent.newpid] at hnew
  · have hpr : p ≠ r := by
      rintro rfl
      exact absurd ((hosted.running h₀ p hr).symm.trans hp) (by decide)
    exact absurd ((hothers p hpr).unused hp) hp'

/-- And one at a time. -/
theorem born_unique {e : ProcEvent n} (hosted : Hosted s)
    (h : s.procStep (fun _ q => q) e = some t) (hp : (s.proc p).state = .unused)
    (hp' : (t.proc p).live) (hq : (s.proc q).state = .unused) (hq' : (t.proc q).live) : p = q := by
  obtain ⟨h₀, ok, rfl⟩ := fork_of_born hosted h hp hp'
  obtain ⟨me, -, rfl⟩ := Option.map_eq_some_iff.mp h
  cases hfind : findSlot fun j => (s.kernel.proc j).state = .unused with
  | none =>
      have hused := findSlot_none hfind p
      simp [Sys.proc] at hp
      simp [hp] at hused
  | some j =>
      -- no other slot is written
      have hkept : ∀ i, i ≠ j → (Xv6.fork me ok s.kernel).2.proc i = s.kernel.proc i := by
        intro i hij
        cases ok <;> simp [Xv6.fork, allocproc, hfind, hij]
      have hfound : ∀ i, (s.proc i).state = .unused →
          ((s.withKernel (Xv6.fork me ok s.kernel).2).proc i).live → i = j := by
        intro i hi hlive
        by_contra hij
        exact hlive ((congrArg Proc.state (hkept i hij)).trans hi)
      exact (hfound p hp hp').trans (hfound q hq hq').symm

/-- Pids below the next one, and none twice. -/
structure PidsFresh (s : Sys n) : Prop where
  below : ∀ p, (s.proc p).live → (s.proc p).pid < s.kernel.nextpid
  distinct : ∀ p q, (s.proc p).live → (s.proc q).live → (s.proc p).pid = (s.proc q).pid → p = q

/-- A live process had its pid before the step, or has just been made and has
the next one. -/
theorem Fate.pid_cases {e : ProcEvent n} {nextpid : Int} {r r' : Proc}
    (h : Fate e nextpid r r') (hlive : r'.live) :
    r.live ∧ r'.pid = r.pid ∨ r.state = .unused ∧ r'.pid = nextpid := by
  cases h with
  | unaltered h => exact Or.inl ⟨h.unused.not.mp hlive, h.pid⟩
  | killed _ hpid _ hunused => exact Or.inl ⟨hunused.not.mp hlive, hpid⟩
  | born hfree hpid => exact Or.inr ⟨hfree, hpid⟩
  | freed _ _ hunused => exact absurd hunused hlive

theorem PidsFresh.procStep {e : ProcEvent n} (hf : PidsFresh s) (hosted : Hosted s)
    (h : s.procStep (fun _ q => q) e = some t) : PidsFresh t := by
  have hfate := fun i hlive => (procStep_fate hosted h i).pid_cases hlive
  have hnext : s.kernel.nextpid ≤ t.kernel.nextpid := by
    rw [procStep_nextpid h]
    split <;> omega
  have hborn : ∀ i, (s.proc i).state = .unused → (t.proc i).live →
      t.kernel.nextpid = s.kernel.nextpid + 1 := by
    intro i hfree hlive
    obtain ⟨h₀, ok, rfl⟩ := fork_of_born hosted h hfree hlive
    rw [procStep_nextpid h, if_pos ⟨rfl, i, hfree⟩]
  constructor
  · intro i hlive
    rcases hfate i hlive with ⟨hold, hpid⟩ | ⟨hfree, hpid⟩
    · have := hf.below i hold
      omega
    · have := hborn i hfree hlive
      omega
  · intro i j hi hj heq
    rcases hfate i hi with ⟨hiold, hipid⟩ | ⟨hifree, hipid⟩ <;>
      rcases hfate j hj with ⟨hjold, hjpid⟩ | ⟨hjfree, hjpid⟩
    · exact hf.distinct i j hiold hjold (by omega)
    · have := hf.below i hiold
      omega
    · have := hf.below j hjold
      omega
    · exact born_unique hosted h hifree hi hjfree hj

theorem PidsFresh.step (hf : PidsFresh s) (hosted : Hosted s) (h : s.tableStep e = some t) :
    PidsFresh t := by
  cases e with
  | proc e => exact hf.procStep hosted h
  | dispatch h₀ r =>
      obtain ⟨-, -, hnext, -, hsame⟩ := Sys.dispatch_eq_some h
      have hlive : ∀ i, (t.proc i).live → (s.proc i).live ∧ (t.proc i).pid = (s.proc i).pid :=
        fun i hi => ⟨(hsame i).1.unused.not.mp hi, (hsame i).1.pid⟩
      constructor
      · intro i hi
        rw [(hlive i hi).2, hnext]
        exact hf.below i (hlive i hi).1
      · intro i j hi hj heq
        rw [(hlive i hi).2, (hlive j hj).2] at heq
        exact hf.distinct i j (hlive i hi).1 (hlive j hj).1 heq

/-- **The pids of every reachable table.** -/
theorem pidTable (run : Run (table n) past s) : PidTable s.kernel := by
  have hfresh : PidsFresh s := by
    refine run.invariant (P := fun _ s => PidsFresh s) (fun s hinit => ?_)
      fun _ _ _ _ run hf h => hf.step (pidInv run).hosted h
    obtain rfl : s = { kernel := userinit, cpu := fun _ => none } := hinit
    have honly : ∀ i, (userinit.proc i).live → i = initproc := by
      intro i hlive
      by_contra hne
      rw [Proc.live, userinit_proc, if_neg hne] at hlive
      exact hlive rfl
    refine ⟨fun i hi => ?_, fun i j hi hj _ => (honly i hi).trans (honly j hj).symm⟩
    obtain rfl := honly i hi
    show (userinit.proc initproc).pid < userinit.nextpid
    decide
  have hinv := pidInv run
  exact ⟨hinv.unused, hinv.live, hfresh.distinct⟩

end Reachable

/-- What is to be proved of the call: the live process with that pid, and no
other slot, gets the priority and niceness 5, and its old priority is
returned. -/
structure SetsPriority (priority pid : Int32) (k : Kernel) (ret : UInt32) (k' : Kernel) : Prop where
  intended : ∀ p, (k.proc p).live → (k.proc p).pid = pid.toInt →
    k'.proc p = setpriorityProc priority.toUInt32 (k.proc p) ∧ ret = (k.proc p).staticPriority
  others : ∀ p, ¬ ((k.proc p).live ∧ (k.proc p).pid = pid.toInt) → k'.proc p = k.proc p

/-- Slot `p` has a live process with that pid. -/
def Intends (pid : Int32) (k : Kernel) (p : Slot) : Prop :=
  (k.proc p).live ∧ (k.proc p).pid = pid.toInt

/-- The call does by accident what it should.  Either it is for a process whose
pid is also the new priority; or for a process of priority 0 and niceness 5,
which is to have priority 0, in a table without a free slot; or for no process
at all, and the slot that carries the new priority in its `pid`, if any, has
the pid for its priority and niceness 5 already. -/
inductive Accidental (priority pid : Int32) (k : Kernel) : Prop
  | same (p : Slot) (hp : Intends pid k p) (heq : priority = pid)
  | zero (p : Slot) (hp : Intends pid k p) (hzero : priority = 0) (hfull : ∀ q, (k.proc q).live)
      (hstatic : (k.proc p).staticPriority = 0) (hniceness : (k.proc p).niceness = 5)
  | nobody (hnone : ∀ p, ¬ Intends pid k p)
      (hfound : ∀ q, findSlot (fun p => (k.proc p).pid = priority.toInt) = some q →
        (k.proc q).staticPriority = pid.toUInt32 ∧ (k.proc q).niceness = 5)

variable {k : Kernel} {priority pid : Int32} {p q : Slot}

/-- What the call comes to. -/
theorem sys_set_priority_stub :
    sys_set_priority (setPriorityStub priority pid) k =
      .ok (setpriority priority.toInt pid.toUInt32 k) := by
  have hpid : UInt32.ofBitVec (BitVec.ofInt 32 pid.toInt) = pid.toUInt32 :=
    UInt32.toBitVec_inj.mp (BitVec.ofInt_toInt (x := pid.toBitVec))
  have h0 : argint (setPriorityStub priority pid) 0 = .ok priority :=
    congrArg Except.ok (toInt_intReg priority)
  have h1 : argint (setPriorityStub priority pid) 1 = .ok pid :=
    congrArg Except.ok (toInt_intReg pid)
  rw [sys_set_priority, h0, h1]
  simp only [bind, Except.bind, pure, Except.pure, sysSetPriority, hpid]

/-- What `_setpriority` does, by the slot it finds. -/
theorem setpriority_some {a : Int} {b : UInt32}
    (h : findSlot (fun i => (k.proc i).pid = a) = some q) :
    setpriority a b k = ((k.proc q).staticPriority, k.modify q (setpriorityProc b)) := by
  simp [setpriority, h]

theorem setpriority_none {a : Int} {b : UInt32}
    (h : findSlot (fun i => (k.proc i).pid = a) = none) : setpriority a b k = (0, k) := by
  simp [setpriority, h]

/-- A process that a write of these two values leaves as it is has them. -/
theorem setpriorityProc_eq_self_iff {r : Proc} {b : UInt32} :
    setpriorityProc b r = r ↔ r.staticPriority = b ∧ r.niceness = 5 := by
  constructor
  · intro h
    exact ⟨(congrArg Proc.staticPriority h).symm, (congrArg Proc.niceness h).symm⟩
  · rintro ⟨rfl, h5⟩
    rw [setpriorityProc, ← h5]

/-- The slot that carries the pid of a live process is that of the process. -/
theorem PidTable.found (hk : PidTable k) (hp : Intends pid k p)
    (hq : (k.proc q).pid = pid.toInt) : q = p := by
  have hpos : 0 < (k.proc q).pid := by
    rw [hq, ← hp.2]
    exact hk.live p hp.1
  have hlive : (k.proc q).live := by
    intro hfree
    have := hk.unused q hfree
    omega
  exact hk.distinct q p hlive hp.1 (hq.trans hp.2.symm)

/-- Equal as `uint` is equal as `int`. -/
theorem toUInt32_inj {a b : Int32} (h : a.toUInt32 = b.toUInt32) : a = b :=
  Int32.toBitVec_inj.mp (congrArg UInt32.toBitVec h)

/-- The call for the process in slot `p`. -/
theorem PidTable.sets_iff (hk : PidTable k) (hp : Intends pid k p) :
    SetsPriority priority pid k (setpriority priority.toInt pid.toUInt32 k).1
        (setpriority priority.toInt pid.toUInt32 k).2 ↔
      priority = pid ∨ priority = 0 ∧ (∀ q, (k.proc q).live) ∧ (k.proc p).staticPriority = 0 ∧
        (k.proc p).niceness = 5 := by
  constructor
  · intro hsets
    obtain ⟨hwritten, hret⟩ := hsets.intended p hp.1 hp.2
    cases hfind : findSlot fun i => (k.proc i).pid = priority.toInt with
    | none =>
        -- the table stays as it is and 0 is returned
        rw [setpriority_none hfind] at hwritten hret
        obtain ⟨hstatic, hniceness⟩ := setpriorityProc_eq_self_iff.mp hwritten.symm
        have hzero : priority = 0 := toUInt32_inj (hstatic.symm.trans hret.symm)
        refine Or.inr ⟨hzero, fun q hfree => ?_, hret.symm, hniceness⟩
        have hmiss := findSlot_none hfind q
        simp [hk.unused q hfree, hzero] at hmiss
    | some q =>
        have hq : (k.proc q).pid = priority.toInt := by simpa using findSlot_some hfind
        left
        by_cases hqp : q = p
        · subst hqp
          exact Int32.toInt_inj.mp (hq.symm.trans hp.2)
        · -- another slot is written, which should not be
          rw [setpriority_some hfind] at hwritten hret
          simp only [Kernel.modify_proc_of_ne (Ne.symm hqp)] at hwritten
          have hother := hsets.others q fun hq' => hqp (hk.found hp hq'.2)
          rw [setpriority_some hfind] at hother
          simp only [Kernel.modify_proc_self] at hother
          have hp' := (setpriorityProc_eq_self_iff.mp hwritten.symm).1
          have hq' := (setpriorityProc_eq_self_iff.mp hother).1
          exact toUInt32_inj (hp'.symm.trans (hret.symm.trans hq'))
  · rintro (rfl | ⟨rfl, hfull, hstatic, hniceness⟩)
    · -- the pid that is looked for is the right one
      obtain ⟨q, hfind⟩ : ∃ q, findSlot (fun i => (k.proc i).pid = priority.toInt) = some q := by
        cases hfind : findSlot fun i => (k.proc i).pid = priority.toInt with
        | some q => exact ⟨q, rfl⟩
        | none => exact absurd hp.2 (by simpa using findSlot_none hfind p)
      obtain rfl : q = p := hk.found hp (by simpa using findSlot_some hfind)
      rw [setpriority_some hfind]
      refine ⟨fun i hlive hpid => ?_, fun i hnot => ?_⟩
      · obtain rfl : i = q := hk.found hp hpid
        exact ⟨Kernel.modify_proc_self, rfl⟩
      · have hiq : i ≠ q := by
          rintro rfl
          exact hnot hp
        exact Kernel.modify_proc_of_ne hiq
    · -- nobody has pid 0
      have hfind : findSlot (fun i => (k.proc i).pid = (0 : Int32).toInt) = none := by
        rw [findSlot, List.find?_eq_none]
        intro i _
        have := hk.live i (hfull i)
        simp
        omega
      rw [setpriority_none hfind]
      refine ⟨fun i hlive hpid => ?_, fun _ _ => rfl⟩
      obtain rfl : i = p := hk.found hp hpid
      exact ⟨(setpriorityProc_eq_self_iff.mpr ⟨hstatic, hniceness⟩).symm, hstatic.symm⟩

/-- The call for nobody. -/
theorem sets_nobody_iff (hnone : ∀ p, ¬ Intends pid k p) :
    SetsPriority priority pid k (setpriority priority.toInt pid.toUInt32 k).1
        (setpriority priority.toInt pid.toUInt32 k).2 ↔
      ∀ q, findSlot (fun p => (k.proc p).pid = priority.toInt) = some q →
        (k.proc q).staticPriority = pid.toUInt32 ∧ (k.proc q).niceness = 5 := by
  constructor
  · intro hsets q hfind
    have hsame := hsets.others q (hnone q)
    rw [setpriority_some hfind] at hsame
    exact setpriorityProc_eq_self_iff.mp (by simpa using hsame)
  · intro hfound
    refine ⟨fun p hlive hpid => absurd ⟨hlive, hpid⟩ (hnone p), fun p _ => ?_⟩
    cases hfind : findSlot fun p => (k.proc p).pid = priority.toInt with
    | none => rw [setpriority_none hfind]
    | some q =>
        rw [setpriority_some hfind]
        by_cases hpq : p = q
        · subst hpq
          simpa using setpriorityProc_eq_self_iff.mpr (hfound p hfind)
        · exact Kernel.modify_proc_of_ne hpq

/-- **When `set_priority` changes the intended process.**  Exactly by accident:
its two arguments are swapped on the way. -/
theorem set_priority_iff (hk : PidTable k) (priority pid : Int32) :
    (∃ ret k', sys_set_priority (setPriorityStub priority pid) k = .ok (ret, k') ∧
      SetsPriority priority pid k ret k') ↔ Accidental priority pid k := by
  have hcall : (∃ ret k', sys_set_priority (setPriorityStub priority pid) k = .ok (ret, k') ∧
      SetsPriority priority pid k ret k') ↔
        SetsPriority priority pid k (setpriority priority.toInt pid.toUInt32 k).1
          (setpriority priority.toInt pid.toUInt32 k).2 := by
    rw [sys_set_priority_stub]
    constructor
    · rintro ⟨ret, k', heq, hsets⟩
      obtain ⟨rfl, rfl⟩ : _ = ret ∧ _ = k' := Prod.mk.injEq .. ▸ Except.ok.inj heq
      exact hsets
    · intro hsets
      exact ⟨_, _, rfl, hsets⟩
  rw [hcall]
  by_cases hsome : ∃ p, Intends pid k p
  · obtain ⟨p, hp⟩ := hsome
    rw [hk.sets_iff hp]
    constructor
    · rintro (heq | ⟨hzero, hfull, hstatic, hniceness⟩)
      · exact .same p hp heq
      · exact .zero p hp hzero hfull hstatic hniceness
    · intro haccident
      cases haccident with
      | same _ _ heq => exact Or.inl heq
      | zero q hq hzero hfull hstatic hniceness =>
          obtain rfl := hk.found hp hq.2
          exact Or.inr ⟨hzero, hfull, hstatic, hniceness⟩
      | nobody hnone => exact absurd hp (hnone p)
  · have hnone : ∀ p, ¬ Intends pid k p := not_exists.mp hsome
    rw [sets_nobody_iff hnone]
    constructor
    · intro hfound
      exact .nobody hnone hfound
    · intro haccident
      cases haccident with
      | same p hp => exact absurd hp (hnone p)
      | zero p hp => exact absurd hp (hnone p)
      | nobody _ hfound => exact hfound

/-- Init, and its child with pid 2. -/
def twoProcs : Kernel :=
  { ticks := 0, nextpid := 3, proc := fun p =>
      if p = 0 then { state := .running, pid := 1, staticPriority := 60, niceness := 5 }
      else if p = 1 then { state := .runnable, pid := 2, staticPriority := 60, niceness := 3 }
      else {} }

theorem twoProcs_pids : PidTable twoProcs := by
  refine ⟨by decide, ?_, ?_⟩
  · unfold Proc.live
    decide
  · unfold Proc.live
    decide

/-- The theorem at the call that is to give the child priority 2. -/
theorem set_priority_iff_two : ∃ ret k',
    sys_set_priority (setPriorityStub 2 2) twoProcs = .ok (ret, k') ∧
      SetsPriority 2 2 twoProcs ret k' :=
  (set_priority_iff twoProcs_pids 2 2).mpr (.same 1 ⟨by unfold Proc.live; decide, by decide⟩ rfl)

/-- A call that is to give the child priority 70 changes nothing. -/
theorem set_priority_swapped :
    ¬ ∀ (k : Kernel) (priority pid : Int32), PidTable k →
      ∃ ret k', sys_set_priority (setPriorityStub priority pid) k = .ok (ret, k') ∧
        SetsPriority priority pid k ret k' := by
  intro hall
  obtain ⟨ret, k', hcall, hsets⟩ := hall twoProcs 70 2 twoProcs_pids
  have hfind : findSlot (fun i => (twoProcs.proc i).pid = (70 : Int32).toInt) = none := by decide
  rw [sys_set_priority_stub, setpriority_none hfind] at hcall
  obtain ⟨-, rfl⟩ : _ = ret ∧ _ = k' := Prod.mk.injEq .. ▸ Except.ok.inj hcall
  have hwritten := (hsets.intended 1 (by unfold Proc.live; decide) (by decide)).1
  exact absurd (setpriorityProc_eq_self_iff.mp hwritten.symm).1 (by decide)

end Xv6
