import OSN.Kernel.Threads
import OSN.Lib.Triple

/-!
# What each lock of the kernel protects

`p->lock` protects the state of a process, what it sleeps on and which hart
runs it: while it is free, the process is RUNNING exactly if some hart has it
as `c->proc`.  The lock is handed over through `swtch` in both directions; the
assertions for that are in `entry`.

The lock that a process holds when it calls `sleep` protects what it waits for
(`Due`): the ZOMBIE children of a process belong to `wait_lock`, the conditions
of a kernel object to the lock of that object.  While such a lock is free,
nobody sleeps on what is due (`Settled`).  Between `release(lk)` in `sleep` and
the state SLEEPING a process holds its own lock, so a waker that gets there
finds it asleep; the auxiliary variable `bound` makes it count as asleep
already.

Locks are acquired in the order of `rank`: the lock of a pipe, of the console
or of another kernel object, `tickslock`, `wait_lock`, the locks of the
processes in the order of the table, and `pid_lock`.
-/

namespace Xv6

variable {n : Nat}

/-- The order of the locks. -/
def Lock.rank : Lock → Nat
  | .condition _ | .pipe _ | .cons => 0
  | .ticks => 1
  | .wait => 2
  | .proc p => 3 + p.val
  | .pid => 3 + NPROC

/-- The lock comes before the lock of every process. -/
def Lock.Early (l : Lock) : Prop := l.rank < 3

instance : DecidablePred Lock.Early := fun l => inferInstanceAs (Decidable (l.rank < 3))

/-- The lock that those hold who sleep on the channel or wake it up. -/
def Chan.lock : Chan → Lock
  | .proc _ => .wait
  | .ticks => .ticks
  | .nread pi | .nwrite pi => .pipe pi
  | .consR => .cons
  | .condition a _ | .other a => .condition a

/-- The channels of the loops that test `killed`: those of `wait`, `sys_sleep`,
`pipewrite`, `piperead` and `consoleread`. -/
def Chan.Tested : Chan → Prop
  | .proc _ | .ticks | .nread _ | .nwrite _ | .consR => True
  | .condition _ _ | .other _ => False

/-- A process that has begun to run and has not exited. -/
def ProcState.Alive (state : ProcState) : Prop :=
  state = .sleeping ∨ state = .runnable ∨ state = .running

instance : DecidablePred ProcState.Alive := fun state =>
  inferInstanceAs (Decidable (state = .sleeping ∨ state = .runnable ∨ state = .running))

/-- The process sleeps on the channel, or is about to. -/
def BoundTo (p : Slot) (chan : Chan) (s : Shared n) : Prop :=
  s.bound p = some chan ∨ (s.proc p).state = .sleeping ∧ (s.proc p).chan = some chan

/-- What processes wait for on the channel is there. -/
def Due (s : Shared n) : Chan → Prop
  | .proc p => ∃ q, (s.proc q).parent = some p ∧ (s.proc q).state = .zombie
  | .condition a i => s.condition a i = true
  | .ticks | .nread _ | .nwrite _ | .consR | .other _ => False

/-- **The invariant of the memory.**  A process is `c->proc` of one hart at
most; what a `fork` is making is USED and its own; every process has a parent
that is alive; and who sleeps in a loop that tests `killed` has tested it. -/
structure SharedInv (s : Shared n) : Prop where
  hart : ∀ h h' p, s.cpu h = some p → s.cpu h' = some p → h = h'
  np_used : ∀ p i, s.np p = some i → (s.proc i).state = .used
  np_unique : ∀ p q i, s.np p = some i → s.np q = some i → p = q
  init_alive : (s.proc initproc).state.Alive
  parent_alive : ∀ q r, (s.proc q).parent = some r → (s.proc r).state.Alive
  has_parent : ∀ q, q ≠ initproc → (s.proc q).state ≠ .unused → (s.proc q).state ≠ .used →
    (s.proc q).parent ≠ none
  looped : ∀ p chan, (s.proc p).state = .sleeping → (s.proc p).chan = some chan → chan.Tested →
    s.loop p = .asleep

/-- What `p->lock` protects is as it was. -/
structure SlotKept (p : Slot) (s s' : Shared n) : Prop where
  state : (s'.proc p).state = (s.proc p).state
  chan : (s'.proc p).chan = (s.proc p).chan
  bound : s'.bound p = s.bound p
  cpu : ∀ h, s'.cpu h = some p ↔ s.cpu h = some p

/-- What `wait_lock` protects of the slot is as it was: no process gets a
parent, none becomes a ZOMBIE, and no ZOMBIE is reaped. -/
structure FamilyKept (q : Slot) (s s' : Shared n) : Prop where
  parent : ∀ r, (s'.proc q).parent = some r → (s.proc q).parent = some r
  zombie : (s'.proc q).state = .zombie ↔ (s.proc q).state = .zombie
  orphan : (s.proc q).state = .zombie → (s'.proc q).parent = (s.proc q).parent

/-- What the lock protects is as it was, and nobody has gone to sleep whose
channel belongs to it. -/
structure Protected (l : Lock) (s s' : Shared n) : Prop where
  calm : ∀ chan p, chan.lock = l → BoundTo p chan s' → BoundTo p chan s
  slot : ∀ p, l = .proc p → SlotKept p s s'
  family : l = .wait → ∀ q, FamilyKept q s s'
  condition : ∀ a, l = .condition a → s'.condition a = s.condition a
  pipe : ∀ pi, l = .pipe pi → s'.pipe pi = s.pipe pi

/-- What a thread may do to the list of the reaped: append a ZOMBIE of its own
process, which is UNUSED then. -/
def Reaps (t : Thread n) (s s' : Shared n) : Prop :=
  (s'.reaped = s.reaped ∧ ∀ q, (s.proc q).state = .zombie → (s'.proc q).state = .zombie) ∨
    ∃ q r, t = .proc r ∧ s'.reaped = (q, r) :: s.reaped ∧ (s.proc q).parent = some r ∧
      (s.proc q).state = .zombie ∧ (s'.proc q).state = .unused ∧
      ∀ q', q' ≠ q → (s.proc q').state = .zombie → (s'.proc q').state = .zombie

/-- What any thread may do about a process in a loop that tests `killed`: such
a process goes to sleep after the test only, and `killed` is not set while it
sleeps. -/
structure LoopKept (p : Slot) (s s' : Shared n) : Prop where
  tested : s'.loop p = .tested → s.loop p = .tested ∨ (s'.proc p).killed = 0
  asleep : (s'.proc p).state = .sleeping → s'.loop p = .asleep →
    (s'.proc p).killed = (s.proc p).killed ∧
      (s.loop p = .tested ∨ (s.proc p).state = .sleeping ∧ s.loop p = .asleep)

/-- What a thread may do: to what a lock protects only with the lock; to
`c->proc` only as the scheduler of the hart; to a process that runs, and to
what it is making, only as that process. -/
structure Guar (t : Thread n) (held : List Lock) (s s' : Shared n) : Prop where
  kept : ∀ l, l ∉ held → Protected l s s'
  cpu : ∀ h, t ≠ .scheduler h → s'.cpu h = s.cpu h
  np : ∀ q, t ≠ .proc q → s'.np q = s.np q
  child : ∀ q i, t ≠ .proc q → s.np q = some i → (s.proc i).parent ≠ none →
    (s'.proc i).parent ≠ none
  running : ∀ q, t ≠ .proc q → (s.proc q).state = .running → (s'.proc q).state = .running
  bound : ∀ q, t ≠ .proc q → s'.bound q = s.bound q
  reaps : Reaps t s s'
  loop : ∀ p, LoopKept p s s'
  test : ∀ q, t ≠ .proc q → s'.loop q = s.loop q

/-- What `p->lock` protects. -/
structure ProcInv (p : Slot) (s : Shared n) : Prop where
  running : (s.proc p).state = .running ↔ ∃ h, s.cpu h = some p
  bound : s.bound p = none

/-- What a lock protects that processes hold when they go to sleep: nobody
sleeps on what is due. -/
def Settled (l : Lock) (s : Shared n) : Prop :=
  ∀ chan p, chan.lock = l → Due s chan → ¬ BoundTo p chan s

/-- No hart runs the process. -/
def Unhosted (p : Slot) (s : Shared n) : Prop := ∀ h, s.cpu h ≠ some p

/-- What others leave alone of a process, even while it does not run: the slot
it is making, and where it is in a loop that tests `killed`. -/
structure Own (p : Slot) (s s' : Shared n) : Prop where
  np : s'.np p = s.np p
  child : ∀ i, s.np p = some i → (s.proc i).parent ≠ none → (s'.proc i).parent ≠ none
  loop : s'.loop p = s.loop p

/-- What the locks protect that are held is as it was. -/
def HeldKept (held : List Lock) (s s' : Shared n) : Prop := ∀ l ∈ held, Protected l s s'

/-- **The discipline of the kernel.** -/
def discipline (n : Nat) : Threads.Discipline (Fin n) Lock (Thread n) Label (Shared n) where
  rank := Lock.rank
  inv := SharedInv
  lockInv
    | .proc p, s => ProcInv p s
    | l, s => Settled l s
  on
    | .scheduler h', h, held, s => h' = h ∧ (held = [] → s.cpu h = none)
    | .proc p, h, held, s =>
        s.cpu h = some p ∧ (.proc p ∉ held → (s.proc p).state = .running ∧ s.bound p = none)
  entry
    | .scheduler _, h, held, s =>
        ∃ p, held = [.proc p] ∧ s.cpu h = some p ∧ (s.proc p).state ≠ .running ∧ s.bound p = none
    | .proc p, _, held, s =>
        held = [.proc p] ∧ (s.proc p).state = .running ∧ s.bound p = none
  spec
    | .scheduler, t, _, held, _ | .dequeue _, t, _, held, _ =>
        held = [] ∧ ∃ h, t = .scheduler h
    | .user, t, _, held, _ | .trapret, t, _, held, _ => held = [] ∧ ∃ p, t = .proc p
    | .forkret, t, _, held, s =>
        ∃ p, t = .proc p ∧ held = [.proc p] ∧ (s.proc p).state = .running ∧ s.bound p = none
    | .waitLoop, t, _, held, s => held = [.wait] ∧ (∃ p, t = .proc p) ∧ Settled .wait s
    | .sleepLoop _ _, t, _, held, _ => held = [.ticks] ∧ ∃ p, t = .proc p
    | .pipewriteLoop pi _ _, t, _, held, _ | .pipereadLoop pi _, t, _, held, _
    | .pipereadCopy pi _ _, t, _, held, _ => held = [.pipe pi] ∧ ∃ p, t = .proc p
    | .consolereadLoop _ _, t, _, held, _ => held = [.cons] ∧ ∃ p, t = .proc p
    | .condition a, t, _, held, s =>
        held = [.condition a] ∧ (∃ p, t = .proc p) ∧ Settled (.condition a) s
  rely
    | .scheduler _, held, h, s, h', s' => h' = h ∧ s'.cpu h = s.cpu h ∧ HeldKept held s s'
    | .proc p, held, h, s, h', s' => (held ≠ [] → h' = h) ∧ Own p s s' ∧ HeldKept held s s'
  away
    | .scheduler h, s, s' => s'.cpu h = s.cpu h
    | .proc p, s, s' => Own p s s'
  guar t _ held s s' := Guar t held s s'
  mayHang := True

/-! ### The laws -/

section Laws

variable {l : Lock} {p q : Slot} {held held' : List Lock} {s s' s'' : Shared n} {t : Thread n}

theorem SlotKept.refl : SlotKept p s s := ⟨rfl, rfl, rfl, fun _ => Iff.rfl⟩

theorem SlotKept.trans (h : SlotKept p s s') (h' : SlotKept p s' s'') : SlotKept p s s'' :=
  ⟨h'.state.trans h.state, h'.chan.trans h.chan, h'.bound.trans h.bound,
    fun j => (h'.cpu j).trans (h.cpu j)⟩

theorem FamilyKept.refl : FamilyKept q s s := ⟨fun _ hr => hr, Iff.rfl, fun _ => rfl⟩

theorem FamilyKept.trans (h : FamilyKept q s s') (h' : FamilyKept q s' s'') :
    FamilyKept q s s'' where
  parent r hr := h.parent r (h'.parent r hr)
  zombie := h'.zombie.trans h.zombie
  orphan hz := (h'.orphan (h.zombie.mpr hz)).trans (h.orphan hz)

theorem Protected.refl : Protected l s s :=
  ⟨fun _ _ _ hbound => hbound, fun _ _ => .refl, fun _ _ => .refl, fun _ _ => rfl, fun _ _ => rfl⟩

theorem Protected.trans (h : Protected l s s') (h' : Protected l s' s'') : Protected l s s'' where
  calm chan p hl hbound := h.calm chan p hl (h'.calm chan p hl hbound)
  slot p hl := (h.slot p hl).trans (h'.slot p hl)
  family hl q := (h.family hl q).trans (h'.family hl q)
  condition a hl := (h'.condition a hl).trans (h.condition a hl)
  pipe pi hl := (h'.pipe pi hl).trans (h.pipe pi hl)

theorem HeldKept.refl : HeldKept held s s := fun _ _ => .refl

theorem HeldKept.trans (h : HeldKept held s s') (h' : HeldKept held s' s'') :
    HeldKept held s s'' :=
  fun l hl => (h l hl).trans (h' l hl)

theorem Own.refl : Own p s s := ⟨rfl, fun _ _ hi => hi, rfl⟩

theorem Own.trans (h : Own p s s') (h' : Own p s' s'') : Own p s s'' where
  np := h'.np.trans h.np
  child i hi hparent := h'.child i (h.np ▸ hi) (h.child i hi hparent)
  loop := h'.loop.trans h.loop

theorem LoopKept.refl : LoopKept p s s :=
  ⟨fun h => Or.inl h, fun hstate hloop => ⟨rfl, Or.inr ⟨hstate, hloop⟩⟩⟩

theorem Guar.refl : Guar t held s s where
  kept _ _ := .refl
  cpu _ _ := rfl
  np _ _ := rfl
  child _ _ _ _ h := h
  running _ _ h := h
  bound _ _ := rfl
  reaps := Or.inl ⟨rfl, fun _ h => h⟩
  loop _ := .refl
  test _ _ := rfl

/-- What a thread may do leaves alone what the locks of others protect. -/
theorem Guar.heldKept (hguar : Guar t held s s') (hapart : ∀ l ∈ held', l ∉ held) :
    HeldKept held' s s' :=
  fun l hl => hguar.kept l (hapart l hl)

theorem Guar.own (hguar : Guar t held s s') (hne : t ≠ .proc p) : Own p s s' :=
  ⟨hguar.np p hne, fun i => hguar.child p i hne, hguar.test p hne⟩

/-- What is due now and belongs to a lock was so before, if what the lock
protects is as it was. -/
theorem Protected.due {chan : Chan} (h : Protected l s s') (hl : chan.lock = l)
    (hdue : Due s' chan) : Due s chan := by
  cases chan with
  | proc p =>
      obtain ⟨q, hparent, hzombie⟩ := hdue
      have hfamily := h.family hl.symm q
      exact ⟨q, hfamily.parent p hparent, hfamily.zombie.mp hzombie⟩
  | condition a i =>
      have hdue' : s'.condition a i = true := hdue
      rw [h.condition a hl.symm] at hdue'
      exact hdue'
  | ticks | nread | nwrite | consR | other => exact hdue

theorem Protected.settled (h : Protected l s s') (hsettled : Settled l s) : Settled l s' :=
  fun chan p hl hdue hbound => hsettled chan p hl (h.due hl hdue) (h.calm chan p hl hbound)

theorem SlotKept.procInv (h : SlotKept p s s') (hproc : ProcInv p s) : ProcInv p s' where
  running := by
    rw [h.state, exists_congr h.cpu]
    exact hproc.running
  bound := h.bound.trans hproc.bound

theorem Protected.lockInv (h : Protected l s s') (hinv : (discipline n).lockInv l s) :
    (discipline n).lockInv l s' := by
  cases l with
  | proc p => exact (h.slot p rfl).procInv hinv
  | condition | pipe | cons | ticks | wait | pid => exact h.settled hinv

theorem discipline_laws (n : Nat) : (discipline n).Laws where
  rely_refl t held h s := by
    cases t with
    | scheduler h' => exact ⟨rfl, rfl, .refl⟩
    | proc p => exact ⟨fun _ => rfl, .refl, .refl⟩
  rely_trans {t held h s h' s' h'' s''} h₁ h₂ := by
    cases t with
    | scheduler h₀ =>
        obtain ⟨rfl, hcpu, hkept⟩ := h₁
        obtain ⟨rfl, hcpu', hkept'⟩ := h₂
        exact ⟨rfl, hcpu'.trans hcpu, hkept.trans hkept'⟩
    | proc p =>
        obtain ⟨hhart, hown, hkept⟩ := h₁
        obtain ⟨hhart', hown', hkept'⟩ := h₂
        exact ⟨fun hne => (hhart' hne).trans (hhart hne), hown.trans hown', hkept.trans hkept'⟩
  away_refl t s := by
    cases t with
    | scheduler h => rfl
    | proc p => exact Own.refl
  away_trans {t s s' s''} h₁ h₂ := by
    cases t with
    | scheduler h => exact Eq.trans h₂ h₁
    | proc p => exact Own.trans h₁ h₂
  on_unique {t h held h' held' s} hinv h₁ h₂ := by
    cases t with
    | scheduler h₀ => exact h₁.1.symm.trans h₂.1
    | proc p => exact hinv.hart h h' p h₁.1 h₂.1
  on_acquire {t h held s} l hon := by
    cases t with
    | scheduler h₀ => exact ⟨hon.1, nofun⟩
    | proc p => exact ⟨hon.1, fun hp => hon.2 fun hp' => hp (List.mem_cons_of_mem l hp')⟩
  guar_refl t h held s := Guar.refl
  guar_rely {t h held s s' t' h' held'} hguar hon hne hh hapart hon' := by
    -- `c->proc` of another hart is written by its own scheduler only
    have hcpu : s'.cpu h' = s.cpu h' := by
      apply hguar.cpu h'
      intro heq
      subst heq
      exact hh hon.1
    cases t' with
    | scheduler h₀ =>
        refine ⟨⟨rfl, hcpu, hguar.heldKept hapart⟩, hon'.1, ?_⟩
        intro hnone
        exact hcpu.trans (hon'.2 hnone)
    | proc p =>
        have hne' : t ≠ .proc p := Ne.symm hne
        refine ⟨⟨fun _ => rfl, hguar.own hne', hguar.heldKept hapart⟩, hcpu.trans hon'.1, ?_⟩
        intro hp
        obtain ⟨hrunning, hbound⟩ := hon'.2 hp
        exact ⟨hguar.running p hne' hrunning, (hguar.bound p hne').trans hbound⟩
  guar_away {t h held s s' t'} hguar hne := by
    cases t' with
    | scheduler h₀ => exact hguar.cpu h₀ (Ne.symm hne)
    | proc p => exact hguar.own (Ne.symm hne)
  guar_lockInv {t h held s s' l} hguar hl hinv := (hguar.kept l hl).lockInv hinv

end Laws

end Xv6
