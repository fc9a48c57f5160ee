import OSN.Kernel.Pbs

/-!
# What the history of a slot does under PBS

Two states that differ only in what the scheduler has noted in UNUSED slots,
and the same events from both.  `allocproc` overwrites `niceness` but neither
`sched1`, `sched2` nor `runtime`, so a new process inherits them until its
first dispatch.  `Alike` says how far two states may differ for the scheduler
not to notice; a simulation in lockstep shows that every step keeps it, as
long as the slots that `fork` takes give the same first niceness.
-/

namespace Xv6

/-- The two processes differ in nothing but what the PBS scheduler notes. -/
def OnlyNotes (p p' : Proc) : Prop :=
  ∃ sched1 sched2 runtime niceness dynamicPriority, p' = { p with
    sched1 := sched1, sched2 := sched2, runtime := runtime
    niceness := niceness, dynamicPriority := dynamicPriority }

/-- How far two processes may differ: not in what is read of the notes while
the process is in its state. -/
structure Alike (p p' : Proc) : Prop where
  notes : OnlyNotes p p'
  waiting : p.state = .runnable → pbsNiceness p' = pbsNiceness p
  started : p.state = .running ∨ p.state = .sleeping →
    p'.sched1 = p.sched1 ∧ p'.runtime = p.runtime

theorem OnlyNotes.refl (p : Proc) : OnlyNotes p p :=
  ⟨p.sched1, p.sched2, p.runtime, p.niceness, p.dynamicPriority, rfl⟩

theorem Alike.refl (p : Proc) : Alike p p :=
  ⟨.refl p, fun _ => rfl, fun _ => ⟨rfl, rfl⟩⟩

namespace Alike

variable {p p' : Proc} {now : UInt32}

theorem state (h : Alike p p') : p'.state = p.state := by
  obtain ⟨a, b, c, d, e, rfl⟩ := h.notes
  rfl

theorem pid (h : Alike p p') : p'.pid = p.pid := by
  obtain ⟨a, b, c, d, e, rfl⟩ := h.notes
  rfl

theorem parent (h : Alike p p') : p'.parent = p.parent := by
  obtain ⟨a, b, c, d, e, rfl⟩ := h.notes
  rfl

theorem killed (h : Alike p p') : p'.killed = p.killed := by
  obtain ⟨a, b, c, d, e, rfl⟩ := h.notes
  rfl

theorem staticPriority (h : Alike p p') : p'.staticPriority = p.staticPriority := by
  obtain ⟨a, b, c, d, e, rfl⟩ := h.notes
  rfl

/-- Waking up writes `sched2`, the rest has been kept since the dispatch. -/
theorem wakeProc (h : Alike p p') (hasleep : p.state = .sleeping) :
    Alike (wakeProc now p) (wakeProc now p') := by
  obtain ⟨hsched1, hruntime⟩ := h.started (Or.inr hasleep)
  obtain ⟨a, b, c, d, e, rfl⟩ := h.notes
  obtain ⟨rfl, rfl⟩ : a = p.sched1 ∧ c = p.runtime := ⟨hsched1, hruntime⟩
  exact ⟨⟨_, _, _, _, _, rfl⟩, fun _ => rfl, fun hstate => by simp [Xv6.wakeProc] at hstate⟩

theorem wakeupProc (chan : Option Chan) (h : Alike p p') :
    Alike (wakeupProc now chan p) (wakeupProc now chan p') := by
  have hcond : (p'.state = .sleeping ∧ p'.chan = chan) ↔
      (p.state = .sleeping ∧ p.chan = chan) := by
    obtain ⟨a, b, c, d, e, rfl⟩ := h.notes
    rfl
  by_cases hc : p.state = .sleeping ∧ p.chan = chan
  · rw [Xv6.wakeupProc, if_pos hc, Xv6.wakeupProc, if_pos (hcond.mpr hc)]
    exact h.wakeProc hc.1
  · rw [Xv6.wakeupProc, if_neg hc, Xv6.wakeupProc, if_neg (fun hc' => hc (hcond.mp hc'))]
    exact h

theorem killProc (h : Alike p p') : Alike (killProc now p) (killProc now p') := by
  have hmark : Alike { p with killed := 1 } { p' with killed := 1 } := by
    obtain ⟨a, b, c, d, e, rfl⟩ := h.notes
    exact ⟨⟨_, _, _, _, _, rfl⟩, h.waiting, h.started⟩
  by_cases hasleep : p.state = .sleeping
  · rw [show Xv6.killProc now p = _ from if_pos hasleep,
      show Xv6.killProc now p' = _ from if_pos (h.state.trans hasleep)]
    exact hmark.wakeProc hasleep
  · rw [show Xv6.killProc now p = _ from if_neg hasleep,
      show Xv6.killProc now p' = _ from if_neg (h.state ▸ hasleep)]
    exact hmark

theorem adopt (parent : Option Slot) (h : Alike p p') :
    Alike { p with parent := parent } { p' with parent := parent } := by
  obtain ⟨a, b, c, d, e, rfl⟩ := h.notes
  exact ⟨⟨_, _, _, _, _, rfl⟩, h.waiting, h.started⟩

theorem setpriorityProc (priority : UInt32) (h : Alike p p') :
    Alike (setpriorityProc priority p) (setpriorityProc priority p') := by
  obtain ⟨a, b, c, d, e, rfl⟩ := h.notes
  exact ⟨⟨_, _, _, _, _, rfl⟩, h.waiting, h.started⟩

theorem runningTimeProc (h : Alike p p') :
    Alike (runningTimeProc p) (runningTimeProc p') := by
  by_cases hrun : p.state = .running
  · obtain ⟨hsched1, hruntime⟩ := h.started (Or.inl hrun)
    have hrun' := h.state.trans hrun
    rw [Xv6.runningTimeProc, if_pos hrun, Xv6.runningTimeProc, if_pos hrun']
    obtain ⟨a, b, c, d, e, rfl⟩ := h.notes
    obtain ⟨rfl, rfl⟩ : a = p.sched1 ∧ c = p.runtime := ⟨hsched1, hruntime⟩
    exact ⟨⟨_, _, _, _, _, rfl⟩, fun hstate => by simp [hrun] at hstate, fun _ => ⟨rfl, rfl⟩⟩
  · rw [runningTimeProc_of_ne hrun, runningTimeProc_of_ne (h.state ▸ hrun)]
    exact h

/-- A RUNNING process goes to sleep. -/
theorem sleepProc (chan : Option Chan) (h : Alike p p') (hrun : p.state = .running) :
    Alike (sleepProc chan p) (sleepProc chan p') := by
  have hstarted := h.started (Or.inl hrun)
  obtain ⟨a, b, c, d, e, rfl⟩ := h.notes
  exact ⟨⟨_, _, _, _, _, rfl⟩, fun hstate => by simp [Xv6.sleepProc] at hstate,
    fun _ => hstarted⟩

/-- A RUNNING process yields. -/
theorem yieldProc (h : Alike p p') (hrun : p.state = .running) :
    Alike (yieldProc now p) (yieldProc now p') := by
  obtain ⟨hsched1, hruntime⟩ := h.started (Or.inl hrun)
  obtain ⟨a, b, c, d, e, rfl⟩ := h.notes
  obtain ⟨rfl, rfl⟩ : a = p.sched1 ∧ c = p.runtime := ⟨hsched1, hruntime⟩
  exact ⟨⟨_, _, _, _, _, rfl⟩, fun _ => rfl, fun hstate => by simp [Xv6.yieldProc] at hstate⟩

theorem exitProc (status : Int) (h : Alike p p') :
    Alike (exitProc now status p) (exitProc now status p') := by
  obtain ⟨a, b, c, d, e, rfl⟩ := h.notes
  exact ⟨⟨_, _, _, _, _, rfl⟩, fun hstate => by simp [Xv6.exitProc] at hstate,
    fun hstate => by simp [Xv6.exitProc] at hstate⟩

theorem freeproc (h : Alike p p') : Alike (freeproc p) (freeproc p') := by
  obtain ⟨a, b, c, d, e, rfl⟩ := h.notes
  exact ⟨⟨_, _, _, _, _, rfl⟩, fun hstate => by simp [Xv6.freeproc] at hstate,
    fun hstate => by simp [Xv6.freeproc] at hstate⟩

theorem allocprocFields (pid : Int) (h : Alike p p') :
    Alike (allocprocFields now pid p) (allocprocFields now pid p') := by
  obtain ⟨a, b, c, d, e, rfl⟩ := h.notes
  exact ⟨⟨_, _, _, _, _, rfl⟩, fun hstate => by simp [Xv6.allocprocFields] at hstate,
    fun hstate => by simp [Xv6.allocprocFields] at hstate⟩

/-- A slot that `fork` fills, with the same first niceness. -/
theorem born (pid : Int) (parent : Slot) (h : Alike p p')
    (hfirst : pbsNiceness p' = pbsNiceness p) :
    Alike (forkFields parent (Xv6.allocprocFields now pid p))
      (forkFields parent (Xv6.allocprocFields now pid p')) := by
  obtain ⟨a, b, c, d, e, rfl⟩ := h.notes
  exact ⟨⟨_, _, _, _, _, rfl⟩, fun _ => hfirst, fun hstate => by simp [forkFields] at hstate⟩

/-- A visit of a RUNNABLE process computes the same priority. -/
theorem pbsVisit (h : Alike p p') (hrun : p.state = .runnable) :
    Alike (pbsVisit p) (pbsVisit p') ∧
      (Xv6.pbsVisit p').dynamicPriority = (Xv6.pbsVisit p).dynamicPriority := by
  have hwaiting := h.waiting hrun
  constructor
  · obtain ⟨a, b, c, d, e, rfl⟩ := h.notes
    exact ⟨⟨_, _, _, _, _, rfl⟩, fun _ => hwaiting, h.started⟩
  · rw [(pbsVisit_dynamicPriority p).1, (pbsVisit_dynamicPriority p').1]
    simp only [pbsPriority, hwaiting, h.staticPriority]

/-- A dispatch writes what the next waiting time is computed from. -/
theorem dispatchProc (h : Alike p p') : Alike (dispatchProc now p) (dispatchProc now p') := by
  obtain ⟨a, b, c, d, e, rfl⟩ := h.notes
  exact ⟨⟨_, _, _, _, _, rfl⟩, fun hstate => by simp [Xv6.dispatchProc] at hstate,
    fun _ => ⟨rfl, rfl⟩⟩

end Alike

/-! ### The table -/

/-- The same for two process tables. -/
structure KernelAlike (k k' : Kernel) : Prop where
  ticks : k'.ticks = k.ticks
  nextpid : k'.nextpid = k.nextpid
  proc : ∀ i, Alike (k.proc i) (k'.proc i)

namespace KernelAlike

variable {k k' : Kernel} {i : Slot}

theorem map {f g : Slot → Proc → Proc} (h : KernelAlike k k')
    (hf : ∀ i, Alike (f i (k.proc i)) (g i (k'.proc i))) : KernelAlike (k.map f) (k'.map g) :=
  ⟨h.ticks, h.nextpid, hf⟩

theorem modify {f g : Proc → Proc} (h : KernelAlike k k')
    (hf : Alike (f (k.proc i)) (g (k'.proc i))) :
    KernelAlike (k.modify i f) (k'.modify i g) := by
  refine ⟨h.ticks, h.nextpid, ?_⟩
  intro j
  by_cases hj : j = i
  · subst hj
    simpa using hf
  · simpa [hj] using h.proc j

/-- A search that does not look at the notes finds the same slot. -/
theorem findSlot {test test' : Slot → Bool} (htest : ∀ i, test' i = test i) :
    findSlot test' = findSlot test :=
  congrArg Xv6.findSlot (funext htest)

theorem wakeup (who : Option Slot) (chan : Option Chan) (h : KernelAlike k k') :
    KernelAlike (wakeup who chan k) (wakeup who chan k') := by
  refine h.map fun i => ?_
  split
  · exact h.proc i
  · rw [h.ticks]
    exact (h.proc i).wakeupProc chan

theorem clockintr (who : Option Slot) (h : KernelAlike k k') :
    KernelAlike (clockintr who k) (clockintr who k') := by
  have hticks : KernelAlike { k with ticks := k.ticks + 1 } { k' with ticks := k'.ticks + 1 } :=
    ⟨by simp [h.ticks], h.nextpid, h.proc⟩
  exact (hticks.map fun i => (h.proc i).runningTimeProc).wakeup who (some .ticks)

theorem kill (pid : Int) (h : KernelAlike k k') :
    KernelAlike (kill pid k).2 (kill pid k').2 := by
  have hfind : Xv6.findSlot (fun i => (k'.proc i).pid = pid) =
      Xv6.findSlot fun i => (k.proc i).pid = pid :=
    findSlot fun i => by rw [(h.proc i).pid]
  simp only [Xv6.kill, hfind]
  split
  case h_1 i hi =>
      apply h.modify
      rw [h.ticks]
      exact (h.proc i).killProc
  case h_2 => exact h

theorem setpriority (pid : Int) (priority : UInt32) (h : KernelAlike k k') :
    KernelAlike (setpriority pid priority k).2 (setpriority pid priority k').2 := by
  have hfind : Xv6.findSlot (fun i => (k'.proc i).pid = pid) =
      Xv6.findSlot fun i => (k.proc i).pid = pid :=
    findSlot fun i => by rw [(h.proc i).pid]
  simp only [Xv6.setpriority, hfind]
  split
  case h_1 i hi => exact h.modify ((h.proc i).setpriorityProc priority)
  case h_2 => exact h

theorem havekids (me : Slot) (h : KernelAlike k k') : havekids me k' = havekids me k := by
  refine congrArg Option.isSome (findSlot fun i => ?_)
  rw [(h.proc i).parent]

theorem reparent (me : Slot) (h : KernelAlike k k') :
    KernelAlike (reparent me k) (reparent me k') := by
  have hadopt : KernelAlike (adoptChildren me k) (adoptChildren me k') := by
    refine h.map fun i => ?_
    rw [(h.proc i).parent]
    split
    · exact (h.proc i).adopt _
    · exact h.proc i
  simp only [Xv6.reparent, h.havekids me]
  split
  · exact hadopt.wakeup _ _
  · exact hadopt

theorem exit (me : Slot) (status : Int) (h : KernelAlike k k') :
    KernelAlike (exit me status k) (exit me status k') := by
  have hwoken := (h.reparent me).wakeup (some me) (((Xv6.reparent me k).proc me).parent.map .proc)
  have hparent := ((h.reparent me).proc me).parent
  simp only [Xv6.exit, hparent]
  apply hwoken.modify
  rw [hwoken.ticks]
  exact (hwoken.proc me).exitProc status

theorem zombieChild (me : Slot) (h : KernelAlike k k') :
    zombieChild me k' = zombieChild me k :=
  findSlot fun i => by rw [(h.proc i).parent, (h.proc i).state]

/-- `fork` takes the same slot; the child is alike if the notes it inherits
give the same niceness. -/
theorem fork (me : Slot) (ok : Bool) (h : KernelAlike k k')
    (hfirst : ok = true → ∀ i ∈ Xv6.findSlot fun i => (k.proc i).state = .unused,
      pbsNiceness (k'.proc i) = pbsNiceness (k.proc i)) :
    KernelAlike (fork me ok k).2 (fork me ok k').2 := by
  have hfind : (Xv6.findSlot fun i => (k'.proc i).state = .unused) =
      Xv6.findSlot fun i => (k.proc i).state = .unused :=
    findSlot fun i => by rw [(h.proc i).state]
  cases hslot : Xv6.findSlot fun i => (k.proc i).state = .unused with
  | none => simpa [Xv6.fork, allocproc, hfind, hslot] using h
  | some i =>
      cases ok with
      | true =>
          simp only [Xv6.fork, allocproc, hfind, hslot, if_true]
          refine ⟨h.ticks, by simp [h.nextpid], ?_⟩
          intro j
          by_cases hj : j = i
          · subst hj
            simpa [h.ticks, h.nextpid, Kernel.modify] using
              (h.proc j).born k.nextpid me (hfirst rfl j hslot)
          · simpa [Kernel.modify, hj] using h.proc j
      | false =>
          simp only [Xv6.fork, allocproc, hfind, hslot, Bool.false_eq_true, if_false]
          refine ⟨h.ticks, by simp [h.nextpid], ?_⟩
          intro j
          by_cases hj : j = i
          · subst hj
            simpa [h.ticks, h.nextpid, Kernel.modify] using
              ((h.proc j).allocprocFields k.nextpid).freeproc
          · simpa [Kernel.modify, hj] using h.proc j

end KernelAlike

/-! ### Whole states -/

variable {n : Nat} {s s' t t' : Scan n} {e : ScanEvent n} {past : Past (Scan n) (ScanEvent n)}

/-- The same for two states of the PBS kernel.  The candidates of the scans
have the same priority. -/
structure ScanAlike (s s' : Scan n) : Prop where
  kernel : KernelAlike s.kernel s'.kernel
  cpu : s'.cpu = s.cpu
  cursor : s'.cursor = s.cursor
  low : s'.low = s.low
  priority : ∀ h i, s.low h = some i →
    (s'.proc i).dynamicPriority = (s.proc i).dynamicPriority

/-- If the step makes a child, the slot it takes gives in both states the same
first niceness. -/
def BornAlike (s s' : Scan n) (e : ScanEvent n) : Prop :=
  ∀ h, e = .proc (.fork h true) → ∀ i ∈ findSlot fun i => (s.proc i).state = .unused,
    pbsNiceness (s'.proc i) = pbsNiceness (s.proc i)

instance (s s' : Scan n) (e : ScanEvent n) : Decidable (BornAlike s s' e) := by
  unfold BornAlike
  infer_instance

namespace ScanAlike

/-- A step of the process that hart `h` runs. -/
theorem running (hs : ScanAlike s s') {h : Fin n} {R : Sys n → Sys n → Prop}
    {f g : Slot → Sys n} (hf : ∀ p, s.cpu h = some p → R (f p) (g p)) :
    Option.Rel R ((s.cpu h).map f) ((s'.cpu h).map g) := by
  rw [hs.cpu]
  cases hp : s.cpu h with
  | none => exact .none
  | some p => exact .some (hf p hp)

/-- The running process leaves its hart. -/
theorem leave (hs : ScanAlike s s') (h : Fin n) (p : Slot) {f g : Proc → Proc}
    (hf : Alike (f (s.kernel.proc p)) (g (s'.kernel.proc p))) :
    KernelAlike (s.toSys.leave (fun _ p => p) h p f).kernel
        (s'.toSys.leave (fun _ p => p) h p g).kernel ∧
      (s'.toSys.leave (fun _ p => p) h p g).cpu = (s.toSys.leave (fun _ p => p) h p f).cpu := by
  refine ⟨hs.kernel.modify hf, ?_⟩
  simp [Sys.leave, hs.cpu]

/-- **A process event** can happen in both states or in neither, and leaves
tables that are alike. -/
theorem procStep (hs : ScanAlike s s') (hosted : Hosted s.toSys) {e : ProcEvent n}
    (hborn : BornAlike s s' (.proc e)) :
    Option.Rel (fun u u' : Sys n => KernelAlike u.kernel u'.kernel ∧ u'.cpu = u.cpu)
      (s.toSys.procStep (fun _ p => p) e) (s'.toSys.procStep (fun _ p => p) e) := by
  have hk := hs.kernel
  cases e with
  | clockintr h =>
      simp only [Sys.procStep, hs.cpu]
      split
      · exact .some ⟨hk.clockintr _, hs.cpu⟩
      · exact .none
  | wakeup h chan =>
      simp only [Sys.procStep, hs.cpu]
      exact .some ⟨hk.wakeup _ _, hs.cpu⟩
  | kill h pid => exact hs.running fun p _ => ⟨hk.kill pid, hs.cpu⟩
  | fork h ok =>
      refine hs.running fun p _ => ⟨hk.fork p ok fun hok => ?_, hs.cpu⟩
      exact hborn h (by rw [hok])
  | exit h status =>
      simp only [Sys.procStep, hs.cpu]
      cases hp : s.cpu h with
      | none => exact .none
      | some p =>
          simp only [Option.bind_some]
          split
          · exact .none
          · refine .some ⟨(hk.exit p status).modify ((hk.exit p status).proc p), ?_⟩
            simp [Sys.leave, Sys.withKernel, hs.cpu]
  | wait h ok =>
      refine hs.running fun p hp => ?_
      have hrun := hosted.running h p hp
      have hkilled := (hk.proc p).killed
      simp only [hk.zombieChild p, hk.havekids p, hkilled]
      split
      · split
        · exact ⟨hk.modify (hk.proc _).freeproc, hs.cpu⟩
        · exact ⟨hk, hs.cpu⟩
      · split
        · exact hs.leave h p ((hk.proc p).sleepProc _ hrun)
        · exact ⟨hk, hs.cpu⟩
  | sleep h chan =>
      exact hs.running fun p hp =>
        hs.leave h p ((hk.proc p).sleepProc _ (hosted.running h p hp))
  | yield h =>
      refine hs.running fun p hp => hs.leave h p ?_
      rw [hk.ticks]
      exact (hk.proc p).yieldProc (hosted.running h p hp)
  | setPriority h a b => exact hs.running fun p _ => ⟨hk.setpriority a _, hs.cpu⟩

/-- Who runs where is the same in both. -/
theorem hosted (hs : ScanAlike s s') (h : Hosted s.toSys) : Hosted s'.toSys :=
  h.of_same hs.cpu fun i => by rw [(hs.kernel.proc i).state]

/-- A visit of a RUNNABLE slot, up to the comparison. -/
theorem visit (hs : ScanAlike s s') {i : Slot} (hrun : (s.proc i).state = .runnable) :
    ScanAlike (s.modifyProc i pbs.visit) (s'.modifyProc i pbs.visit) ∧
      ((s'.modifyProc i pbs.visit).proc i).dynamicPriority =
        ((s.modifyProc i pbs.visit).proc i).dynamicPriority := by
  obtain ⟨halike, hpriority⟩ := (hs.kernel.proc i).pbsVisit hrun
  have hself : ((s'.modifyProc i pbs.visit).proc i).dynamicPriority =
      ((s.modifyProc i pbs.visit).proc i).dynamicPriority := by
    rw [Scan.modifyProc_proc_self, Scan.modifyProc_proc_self]
    exact hpriority
  refine ⟨⟨hs.kernel.modify halike, hs.cpu, hs.cursor, hs.low, ?_⟩, hself⟩
  intro h' j hj
  by_cases hji : j = i
  · exact hji ▸ hself
  · rw [Scan.modifyProc_proc_of_ne hji, Scan.modifyProc_proc_of_ne hji]
    exact hs.priority h' j hj

/-- A visit compares and chooses alike. -/
theorem visitSlot (hs : ScanAlike s s') (h : Fin n) (i : Slot) :
    ScanAlike (s.visitSlot pbs h i) (s'.visitSlot pbs h i) := by
  have hstate := (hs.kernel.proc i).state
  by_cases hrun : (s.proc i).state = .runnable
  · obtain ⟨hv, hself⟩ := hs.visit hrun
    have hbetter : (s'.modifyProc i pbs.visit).Better pbs h i ↔
        (s.modifyProc i pbs.visit).Better pbs h i := by
      rw [Scan.Better, Scan.Better, hv.low]
      refine forall_congr' fun j => forall_congr' fun hj => ?_
      simp only [pbs, decide_eq_true_eq] at hself hv ⊢
      rw [hself, hv.priority h j hj]
    simp only [Scan.visitSlot, hrun, hstate.trans hrun, if_true, hbetter]
    split
    · refine ⟨hv.kernel, hv.cpu, hv.cursor, by simp [hs.low], ?_⟩
      intro h' j hj
      by_cases hh : h' = h
      · subst hh
        obtain rfl : i = j := by simpa using hj
        exact hself
      · exact hv.priority h' j (by simpa [hh] using hj)
    · exact hv
  · have hrun' : (s'.proc i).state ≠ .runnable := fun h' => hrun (hstate.symm.trans h')
    simpa only [Scan.visitSlot, hrun, hrun', if_false] using hs

/-- `low` is dispatched. -/
theorem dispatch (hs : ScanAlike s s') (hholds : ScanHolds s) {h : Fin n} {i : Slot}
    (hlow : s.low h = some i) :
    ScanAlike (s.dispatch pbs h i) (s'.dispatch pbs h i) := by
  have hticks := hs.kernel.ticks
  refine ⟨⟨hticks, hs.kernel.nextpid, ?_⟩, by simp [hs.cpu], by simp [hs.cursor],
    by simp [hs.low], ?_⟩
  · intro j
    rw [show (s.dispatch pbs h i).kernel.proc j = (s.dispatch pbs h i).proc j from rfl,
      show (s'.dispatch pbs h i).kernel.proc j = (s'.dispatch pbs h i).proc j from rfl]
    by_cases hji : j = i
    · subst hji
      rw [Scan.dispatch_proc_self, Scan.dispatch_proc_self, hticks]
      exact (hs.kernel.proc j).dispatchProc
    · rw [Scan.dispatch_proc_of_ne hji, Scan.dispatch_proc_of_ne hji]
      exact hs.kernel.proc j
  · intro h' j hj
    have hne : h' ≠ h := by
      intro heq
      subst heq
      simp at hj
    rw [Scan.dispatch_low, Function.update_of_ne hne] at hj
    have hji : j ≠ i := by
      intro heq
      subst heq
      exact hne (hholds.unique h' h j hj hlow)
    rw [Scan.dispatch_proc_of_ne hji, Scan.dispatch_proc_of_ne hji]
    exact hs.priority h' j hj

/-- **A step of the scheduler** can happen in both states or in neither, and
leaves them alike: every comparison has the same outcome. -/
theorem schedulerStep (hs : ScanAlike s s') (hholds : ScanHolds s) (h : Fin n) :
    Option.Rel ScanAlike (s.schedulerStep pbs h) (s'.schedulerStep pbs h) := by
  have hk := hs.kernel
  simp only [Scan.schedulerStep, hs.cpu, hs.cursor]
  split
  · split
    case isTrue hi =>
        have hlocked : s'.Locked h ⟨s.cursor h, hi⟩ ↔ s.Locked h ⟨s.cursor h, hi⟩ := by
          simp only [Scan.Locked, hs.low]
        simp only [hlocked]
        split
        · exact .none
        · have hv := hs.visitSlot h ⟨s.cursor h, hi⟩
          exact .some ⟨hv.kernel, hv.cpu, by simp [hv.cursor], hv.low, hv.priority⟩
    case isFalse =>
        rw [hs.low]
        cases hlow : s.low h with
        | none => exact .some ⟨hk, hs.cpu, by simp [hs.cursor], hs.low, hs.priority⟩
        | some i => exact .some (hs.dispatch hholds hlow)
  · exact .none

/-- **Step lemma.**  The two kernels move in lockstep. -/
theorem step (hs : ScanAlike s s') (hholds : ScanHolds s) (hborn : BornAlike s s' e) :
    Option.Rel ScanAlike (s.step pbs e) (s'.step pbs e) := by
  cases e with
  | proc e =>
      have hrel := hs.procStep hholds.hosted hborn
      simp only [Scan.step]
      cases hu : s.toSys.procStep (fun _ p => p) e with
      | none =>
          rw [hu] at hrel
          cases hu' : s'.toSys.procStep (fun _ p => p) e with
          | none => exact .none
          | some u' =>
              rw [hu'] at hrel
              cases hrel
      | some u =>
          rw [hu] at hrel
          cases hu' : s'.toSys.procStep (fun _ p => p) e with
          | none =>
              rw [hu'] at hrel
              cases hrel
          | some u' =>
              rw [hu'] at hrel
              obtain ⟨hkernel, hcpu⟩ : KernelAlike u.kernel u'.kernel ∧ u'.cpu = u.cpu := by
                cases hrel
                assumption
              refine .some ⟨hkernel, hcpu, hs.cursor, hs.low, fun h i hi => ?_⟩
              -- a candidate is RUNNABLE in both, so no event writes its priority
              have hrun := hholds.runnable h i hi
              have hrun' : (s'.proc i).state = .runnable := ((hs.kernel.proc i).state).trans hrun
              obtain ⟨_, _, _, _, hmark⟩ := hholds.hosted.eq_mark hu hrun
              obtain ⟨_, _, _, _, hmark'⟩ := (hs.hosted hholds.hosted).eq_mark hu' hrun'
              rw [show Scan.proc { s with toSys := u } i = _ from hmark,
                show Scan.proc { s' with toSys := u' } i = _ from hmark']
              exact hs.priority h i hi
  | scheduler h => exact hs.schedulerStep hholds h

end ScanAlike

/-! ### The law -/

/-- The process that a step dispatches. -/
def dispatched (t : Scan n) : ScanEvent n → List Slot
  | .proc _ => []
  | .scheduler h => (t.cpu h).toList

/-- **The dispatch choices** along a sequence of steps; `none` if one of them
cannot happen. -/
def choices : Scan n → List (ScanEvent n) → Option (List Slot)
  | _, [] => some []
  | s, e :: es => (s.step pbs e).bind fun t => (choices t es).map (dispatched t e ++ ·)

/-- Every `fork` of the sequence takes a slot that gives in both states the
same first niceness. -/
def BirthsAlike : Scan n → Scan n → List (ScanEvent n) → Prop
  | _, _, [] => True
  | s, s', e :: es => BornAlike s s' e ∧
      ∀ t ∈ s.step pbs e, ∀ t' ∈ s'.step pbs e, BirthsAlike t t' es

instance decidableBirthsAlike : ∀ (s s' : Scan n) (es : List (ScanEvent n)),
    Decidable (BirthsAlike s s' es)
  | _, _, [] => inferInstanceAs (Decidable True)
  | s, s', e :: es =>
      have : ∀ t t', Decidable (BirthsAlike t t' es) := fun t t' => decidableBirthsAlike t t' es
      inferInstanceAs (Decidable (BornAlike s s' e ∧
        ∀ t ∈ s.step pbs e, ∀ t' ∈ s'.step pbs e, BirthsAlike t t' es))

/-- The two states differ only in what UNUSED slots have noted. -/
structure DifferUnused (s s' : Scan n) : Prop where
  ticks : s'.kernel.ticks = s.kernel.ticks
  nextpid : s'.kernel.nextpid = s.kernel.nextpid
  cpu : s'.cpu = s.cpu
  cursor : s'.cursor = s.cursor
  low : s'.low = s.low
  proc : ∀ i, s'.proc i = s.proc i ∨ (s.proc i).state = .unused ∧ OnlyNotes (s.proc i) (s'.proc i)

/-- Two such states are alike: nothing is read of the notes of an UNUSED slot,
and no candidate of a scan is UNUSED. -/
theorem DifferUnused.alike (h : DifferUnused s s') (hholds : ScanHolds s) : ScanAlike s s' := by
  refine ⟨⟨h.ticks, h.nextpid, ?_⟩, h.cpu, h.cursor, h.low, ?_⟩
  · intro i
    rcases h.proc i with hsame | ⟨hfree, hnotes⟩
    · rw [show s'.kernel.proc i = s.kernel.proc i from hsame]
      exact Alike.refl _
    · have hfree' : (s.kernel.proc i).state = .unused := hfree
      exact ⟨hnotes, fun hstate => by simp [hfree'] at hstate,
        fun hstate => by simp [hfree'] at hstate⟩
  · intro h' i hi
    rcases h.proc i with hsame | ⟨hfree, -⟩
    · rw [hsame]
    · simp [hholds.runnable h' i hi] at hfree

/-- Alike states choose alike. -/
theorem ScanAlike.choices_eq {es : List (ScanEvent n)} (hs : ScanAlike s s')
    (hholds : ScanHolds s) (hbirths : BirthsAlike s s' es) : choices s' es = choices s es := by
  induction es generalizing s s' with
  | nil => rfl
  | cons e es ih =>
      obtain ⟨hborn, hrest⟩ := hbirths
      have hrel := hs.step hholds hborn
      rw [choices, choices]
      cases ht : s.step pbs e with
      | none =>
          rw [ht] at hrel
          cases ht' : s'.step pbs e with
          | none => rfl
          | some t' =>
              rw [ht'] at hrel
              cases hrel
      | some t =>
          rw [ht] at hrel
          cases ht' : s'.step pbs e with
          | none =>
              rw [ht'] at hrel
              cases hrel
          | some t' =>
              rw [ht'] at hrel
              obtain hnext : ScanAlike t t' := by
                cases hrel
                assumption
              have hsame : dispatched t' e = dispatched t e := by
                cases e <;> simp [dispatched, hnext.cpu]
              rw [Option.bind_some, Option.bind_some, hsame,
                ih hnext (hholds.step ht) (hrest t ht t' ht')]

/-- **When the history of a slot does not matter.**  From a reachable state of
the PBS kernel and one that differs from it only in the notes of UNUSED slots,
every common sequence of steps leads to the same dispatch choices, if every
`fork` in it takes a slot whose notes give in both states the same first
niceness. -/
theorem choices_of_birthsAlike (hs : (scan pbs n).Reachable s) (hdiffer : DifferUnused s s')
    {es : List (ScanEvent n)} (hbirths : BirthsAlike s s' es) : choices s' es = choices s es := by
  obtain ⟨past, run⟩ := hs
  have hholds := scanHolds run
  exact (hdiffer.alike hholds).choices_eq hholds hbirths

/-- Other times in an UNUSED slot. -/
theorem DifferUnused.modifyProc {i : Slot} (hfree : (s.proc i).state = .unused)
    (sched1 sched2 : UInt32) :
    DifferUnused s (s.modifyProc i fun p => { p with sched1 := sched1, sched2 := sched2 }) := by
  refine ⟨rfl, rfl, rfl, rfl, rfl, ?_⟩
  intro j
  by_cases hj : j = i
  · subst hj
    rw [Scan.modifyProc_proc_self]
    exact Or.inr ⟨hfree, _, _, _, _, _, rfl⟩
  · exact Or.inl (Scan.modifyProc_proc_of_ne hj)

/-- Init has run for five ticks since boot. -/
def fiveTicks : List (ScanEvent 1) :=
  scanning 0 65 ++ List.replicate 5 (.proc (.clockintr 0))

/-- Init makes two children, in slots 1 and 2, and waits for them. -/
def firstBorn : List (ScanEvent 1) :=
  [.proc (.fork 0 true), .proc (.fork 0 true), .proc (.wait 0 true)] ++ scanning 0 65

/-- The theorem at a slot whose last process was dispatched in the tick in
which it had become RUNNABLE. -/
theorem choices_of_birthsAlike_five : ∃ s s' : Scan 1, (scan pbs 1).Reachable s ∧
    (s.proc 2).sched1 = 0 ∧ (s'.proc 2).sched1 = 5 ∧ choices s' firstBorn = choices s firstBorn ∧
    choices s firstBorn = some [1] := by
  obtain ⟨past, s, run, hfree, hold, hbirths, hchoice⟩ :=
    Machine.exists_run_of_trace (M := scan pbs 1) rfl fiveTicks
    (fun _ s => (s.proc 2).state = .unused ∧ (s.proc 2).sched1 = 0 ∧
      BirthsAlike s (s.modifyProc 2 fun p => { p with sched1 := 5, sched2 := 5 }) firstBorn ∧
      choices s firstBorn = some [1]) (by decide +kernel)
  refine ⟨s, _, ⟨past, run⟩, hold, ?_,
    choices_of_birthsAlike ⟨past, run⟩ (.modifyProc hfree 5 5) hbirths, hchoice⟩
  rw [Scan.modifyProc_proc_self]

/-- The second child is dispatched before the first if the last process of its
slot waited for five ticks before its dispatch. -/
theorem choices_differ :
    ¬ ∀ (n : Nat) (s s' : Scan n) es, (scan pbs n).Reachable s → DifferUnused s s' →
      choices s' es = choices s es := by
  intro hlaw
  obtain ⟨past, s, run, hfree, hdiffer⟩ :=
    Machine.exists_run_of_trace (M := scan pbs 1) rfl fiveTicks
    (fun _ s => (s.proc 2).state = .unused ∧
      choices (s.modifyProc 2 fun p => { p with sched1 := 5, sched2 := 0 }) firstBorn ≠
        choices s firstBorn) (by decide +kernel)
  exact hdiffer (hlaw 1 s _ firstBorn ⟨past, run⟩ (.modifyProc hfree 5 0))

end Xv6
