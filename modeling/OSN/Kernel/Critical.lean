import OSN.Kernel.Writes

/-!
# Critical sections

What a thread may count on between its steps, and the triples for a section
under one lock: it keeps what the lock protects (`Inside`), and what is written
in it by `Keeps` or `Unseen` nobody outside notices.
-/

namespace Xv6

open Threads Threads.Discipline
open Threads.Code (acquire release update read modifyGet)

variable {n : Nat} {t : Thread n} {X : List Lock} {A B : Fin n → Shared n → Prop} {p i : Slot}
  {h h' h₀ : Fin n} {s s' : Shared n} {l : Lock} {chan : Chan}

/-! ### Stable assertions -/

/-- What a held lock protects does not change. -/
theorem seen_kept (hseen : (discipline n).Seen t X h s h' s') : HeldKept X s s' := by
  cases t with
  | scheduler h₀ => exact hseen.1.2.2
  | proc q => exact hseen.1.2.2

/-- What a process is making is its own. -/
theorem seen_own (hseen : (discipline n).Seen (.proc p) X h s h' s') : Own p s s' :=
  hseen.1.2.1

/-- A scheduler stays where it is, and its `c->proc` is its own. -/
theorem seen_cpu (hseen : (discipline n).Seen (.scheduler h₀) X h s h' s') :
    h' = h ∧ s'.cpu h = s.cpu h :=
  ⟨hseen.1.1, hseen.1.2.1⟩

/-- What may happen under one lock more may happen without it. -/
theorem seen_tail (hseen : (discipline n).Seen t (l :: X) h s h' s')
    (hon : (discipline n).on t h X s) : (discipline n).Seen t X h s h' s' := by
  have hkept : HeldKept X s s' := fun m hm => seen_kept hseen m (List.mem_cons_of_mem l hm)
  have hown := seen_kept hseen l List.mem_cons_self
  obtain ⟨hrely, hinv, hon'⟩ := hseen
  cases t with
  | scheduler h₀ =>
      obtain ⟨rfl, hcpu, -⟩ := hrely
      exact ⟨⟨rfl, hcpu, hkept⟩, hinv, hon'.1, fun hnone => hcpu.trans (hon.2 hnone)⟩
  | proc q =>
      refine ⟨⟨fun _ => hrely.1 (by simp), hrely.2.1, hkept⟩, hinv, hon'.1, ?_⟩
      intro hq
      by_cases hl : l = .proc q
      · -- it is the lock of the process itself that is held
        have hslot := hown.slot q hl
        obtain ⟨hrunning, hbound⟩ := hon.2 hq
        exact ⟨hslot.state.trans hrunning, hslot.bound.trans hbound⟩
      · exact hon'.2 (by simpa [Ne.symm hl] using hq)

theorem stable_on : (discipline n).Stable t X fun h s => (discipline n).on t h X s :=
  fun _ _ _ _ _ hseen => hseen.2.2

/-- An assertion about what a held lock protects. -/
theorem stable_held {C : Shared n → Prop} (hl : l ∈ X)
    (hC : ∀ s s', Protected l s s' → C s → C s') : (discipline n).Stable t X fun _ s => C s :=
  fun _ _ _ _ hs hseen => hC _ _ (seen_kept hseen l hl) hs

/-- An assertion about a slot whose lock is held. -/
theorem stable_slot {C : Shared n → Prop} (hi : .proc i ∈ X)
    (hC : ∀ s s', SlotKept i s s' → C s → C s') : (discipline n).Stable t X fun _ s => C s :=
  stable_held hi fun s s' hkept => hC s s' (hkept.slot i rfl)

theorem stable_lockInv (hl : l ∈ X) :
    (discipline n).Stable t X fun _ s => (discipline n).lockInv l s :=
  stable_held hl fun _ _ hkept hinv => hkept.lockInv hinv

theorem stable_settled (hl : l ∈ X) : (discipline n).Stable t X fun _ s => Settled l s :=
  stable_held hl fun _ _ hkept hsettled => hkept.settled hsettled

theorem stable_not_due (hl : chan.lock ∈ X) :
    (discipline n).Stable t X fun _ s => ¬ Due s chan :=
  stable_held hl fun _ _ hkept hdue hdue' => hdue (hkept.due rfl hdue')

theorem stable_not_bound (hl : chan.lock ∈ X) (C : Slot → Prop) :
    (discipline n).Stable t X fun _ s => ∀ q, C q → ¬ BoundTo q chan s :=
  stable_held hl fun _ _ hkept hnone q hq hbound => hnone q hq (hkept.calm chan q rfl hbound)

/-- An assertion about what others leave alone of a process. -/
def Mine (p : Slot) (M : Shared n → Prop) : Prop := ∀ s s', Own p s s' → M s → M s'

theorem Mine.stable {M : Shared n → Prop} (hM : Mine p M) :
    (discipline n).Stable (.proc p) X fun _ s => M s :=
  fun _ _ _ _ hs hseen => hM _ _ (seen_own hseen) hs

theorem mine_true : Mine p fun _ : Shared n => True := fun _ _ _ _ => trivial

theorem mine_own (s₀ : Shared n) : Mine p (Own p s₀) := fun _ _ hown h => h.trans hown

/-! ### A section under one lock -/

/-- Inside such a section: what held outside, what the lock protects, and that
the thread may be here without the lock too. -/
def Inside (t : Thread n) (X : List Lock) (l : Lock) (A : Fin n → Shared n → Prop) (h : Fin n)
    (s : Shared n) : Prop :=
  A h s ∧ (discipline n).lockInv l s ∧ (discipline n).on t h X s

/-- What is stable outside the section is so inside. -/
theorem stable_tail (hA : (discipline n).Stable t X A) :
    (discipline n).Stable t (l :: X) fun h s => A h s ∧ (discipline n).on t h X s := by
  intro h s h' s' hs hseen
  have hseen' := seen_tail hseen hs.2
  exact ⟨hA h s h' s' hs.1 hseen', hseen'.2.2⟩

theorem stable_inside (hA : (discipline n).Stable t X A) :
    (discipline n).Stable t (l :: X) (Inside t X l A) := by
  intro h s h' s' hin hseen
  obtain ⟨hA', hon'⟩ := stable_tail hA h s h' s' ⟨hin.1, hin.2.2⟩ hseen
  exact ⟨hA', stable_lockInv List.mem_cons_self h s h' s' hin.2.1 hseen, hon'⟩

theorem lock_triple (hA : (discipline n).Stable t X A) (hX : ∀ m ∈ X, m.rank < l.rank) :
    (discipline n).Triple t X A (acquire l : Code n Unit) (fun _ => l :: X)
      fun _ => Inside t X l A := by
  have hacquire := Triple.acquire (I := Input) (l := l) (discipline_laws n) (hA.and stable_on) hX
  exact (hacquire.pre fun h s hhere hs => ⟨hs, hhere.2⟩).post fun _ h s _ hs =>
    ⟨hs.1.1, hs.2, hs.1.2⟩

/-- The first lock that a thread takes. -/
theorem lock_first_triple (hA : (discipline n).Stable t [] A) :
    (discipline n).Triple t [] A (acquire l : Code n Unit) (fun _ => [l])
      fun _ => Inside t [] l A :=
  lock_triple hA (by simp)

theorem unlock_triple (hA : (discipline n).Stable t X A) :
    (discipline n).Triple t (l :: X) (Inside t X l A) (release l : Code n Unit) (fun _ => X)
      fun _ => A := by
  have hrelease := Triple.release (I := Input) (l := l) (B := A) (stable_inside hA)
    List.mem_cons_self fun h s hhere hin => ⟨hin.2.1, by simpa using hin.2.2, hin.1⟩
  simpa using hrelease

/-- What may be written inside the section without anybody outside noticing. -/
structure Keeps (p q : Proc) : Prop where
  parent : q.parent = p.parent
  chan : q.chan = p.chan
  state : q.state = p.state ∧ (p.state = .sleeping → q.killed = p.killed) ∨
    p.state = .sleeping ∧ q.state = .runnable

namespace Keeps

variable {p q : Proc}

theorem state_iff (h : Keeps p q) {v : ProcState} (hs : v ≠ .sleeping) (hr : v ≠ .runnable) :
    q.state = v ↔ p.state = v := by
  rcases h.state with ⟨h, -⟩ | ⟨h, h'⟩
  · rw [h]
  · simp [h, h', Ne.symm hs, Ne.symm hr]

theorem alive (h : Keeps p q) (hp : p.state.Alive) : q.state.Alive := by
  rcases h.state with ⟨h, -⟩ | ⟨-, h⟩
  · rwa [h]
  · exact Or.inr (Or.inl h)

theorem sleeping (h : Keeps p q) (hq : q.state = .sleeping) :
    p.state = .sleeping ∧ q.killed = p.killed := by
  rcases h.state with ⟨h, hkilled⟩ | ⟨-, h⟩
  · exact ⟨h ▸ hq, hkilled (h ▸ hq)⟩
  · simp [h] at hq

end Keeps

theorem loopKept_modifyProc {f : Proc → Proc} (hkeeps : Keeps (s.proc p) (f (s.proc p))) :
    LoopKept p s (s.modifyProc p f) := by
  refine ⟨fun hloop => Or.inl hloop, ?_⟩
  intro hstate hloop
  rw [Shared.modifyProc_proc_self] at hstate ⊢
  obtain ⟨hsleeping, hkilled⟩ := hkeeps.sleeping hstate
  exact ⟨hkilled, Or.inr ⟨hsleeping, hloop⟩⟩

theorem SharedInv.of_keeps {f : Proc → Proc} (hinv : SharedInv s)
    (hkeeps : Keeps (s.proc p) (f (s.proc p))) : SharedInv (s.modifyProc p f) := by
  have hunused := hkeeps.state_iff (v := .unused) (by decide) (by decide)
  have hused := hkeeps.state_iff (v := .used) (by decide) (by decide)
  have hself : (s.modifyProc p f).proc p = f (s.proc p) := Shared.modifyProc_proc_self
  refine hinv.of_onlySlot (p := p) onlySlot_modifyProc (fun _ _ _ hi => hi)
    ⟨fun q hq => ?_, fun q q' => hinv.np_unique q q' p, fun halive => Or.inl ?_,
      fun r hr => Or.inl ?_, fun hinit hnot hnot' => ?_, fun chan hsleeping hchan => ?_⟩
  · rw [hself]
    exact hused.mpr (hinv.np_used q p hq)
  · rw [hself]
    exact hkeeps.alive halive
  · rw [hself, hkeeps.parent] at hr
    exact hr
  · rw [hself] at hnot hnot' ⊢
    rw [hkeeps.parent]
    exact hinv.has_parent p hinit (mt hunused.mpr hnot) (mt hused.mpr hnot')
  · rw [hself] at hsleeping hchan
    exact hinv.looped p chan (hkeeps.sleeping hsleeping).1 (hkeeps.chan ▸ hchan)

/-- A write inside the section, by whatever thread. -/
theorem Guar.of_keeps {f : Proc → Proc} (hkeeps : Keeps (s.proc p) (f (s.proc p)))
    (hp : .proc p ∈ X) : Guar t X s (s.modifyProc p f) := by
  have hrunning := hkeeps.state_iff (v := .running) (by decide) (by decide)
  have hzombie := hkeeps.state_iff (v := .zombie) (by decide) (by decide)
  refine onlySlot_modifyProc.guar ⟨fun hnot => absurd hp hnot, fun chan _ hbound => ?_, fun _ => ?_,
    fun _ => ⟨?_, rfl, rfl⟩, loopKept_modifyProc hkeeps⟩ (fun _ _ => rfl) (fun q _ _ hparent => ?_)
    (onlySlot_modifyProc.reaps_none rfl ?_)
  · refine hbound.imp id fun hasleep => ?_
    rw [Shared.modifyProc_proc_self] at hasleep
    exact ⟨(hkeeps.sleeping hasleep.1).1, hkeeps.chan ▸ hasleep.2⟩
  · constructor <;> rw [Shared.modifyProc_proc_self]
    · exact fun r hr => hkeeps.parent ▸ hr
    · exact hzombie
    · exact fun _ => hkeeps.parent
  · rw [Shared.modifyProc_proc_self]
    exact hrunning.mpr
  · rw [Shared.modifyProc_proc_self, hkeeps.parent]
    exact hparent
  · rw [Shared.modifyProc_proc_self]
    exact hzombie.mpr

/-- Such a write may happen at any time to those who hold other locks. -/
theorem seen_of_keeps {f : Proc → Proc} (hkeeps : Keeps (s.proc p) (f (s.proc p)))
    (hp : .proc p ∉ X)
    (hinv : SharedInv s) (hon : (discipline n).on t h X s) :
    (discipline n).Seen t X h s h (s.modifyProc p f) := by
  have hguar : Guar t [.proc p] s (s.modifyProc p f) := Guar.of_keeps hkeeps List.mem_cons_self
  have hkept : HeldKept X s (s.modifyProc p f) := fun l hl => hguar.kept l (by
    intro hl'
    obtain rfl := List.mem_singleton.mp hl'
    exact hp hl)
  refine ⟨?_, hinv.of_keeps hkeeps, ?_⟩
  · cases t with
    | scheduler h₀ => exact ⟨rfl, rfl, hkept⟩
    | proc q =>
        refine ⟨fun _ => rfl, ⟨rfl, ?_, rfl⟩, hkept⟩
        intro i _ hi
        by_cases hip : i = p
        · subst hip
          rw [Shared.modifyProc_proc_self, hkeeps.parent]
          exact hi
        · rwa [Shared.modifyProc_proc_of_ne hip]
  · cases t with
    | scheduler h₀ => exact hon
    | proc q =>
        refine ⟨hon.1, ?_⟩
        intro hq
        obtain ⟨hrunning, hbound⟩ := hon.2 hq
        refine ⟨?_, hbound⟩
        by_cases hqp : q = p
        · subst hqp
          rw [Shared.modifyProc_proc_self]
          exact (hkeeps.state_iff (by decide) (by decide)).mpr hrunning
        · rwa [Shared.modifyProc_proc_of_ne hqp]

theorem ProcInv.of_keeps {f : Proc → Proc} (hproc : ProcInv p s)
    (hkeeps : Keeps (s.proc p) (f (s.proc p))) : ProcInv p (s.modifyProc p f) where
  running := by
    rw [Shared.modifyProc_proc_self, hkeeps.state_iff (by decide) (by decide)]
    exact hproc.running
  bound := hproc.bound

/-- A write inside the section; it may establish more than what held outside. -/
theorem setProc_triple {C : Fin n → Shared n → Prop} {f : Proc → Proc}
    (hA : (discipline n).Stable t X A) (hp : .proc p ∉ X)
    (hC : (discipline n).Stable t (.proc p :: X) C)
    (hf : ∀ h s, C h s → Inside t X (.proc p) A h s ∧ Keeps (s.proc p) (f (s.proc p)))
    (hB : ∀ h s, C h s → A h (s.modifyProc p f) → ProcInv p (s.modifyProc p f) →
      B h (s.modifyProc p f)) :
    (discipline n).Triple t (.proc p :: X) C (Code.setProc p f : Code n Unit)
      (fun _ => .proc p :: X) fun _ => Inside t X (.proc p) B := by
  refine Triple.update hC fun h s hhere hs => ?_
  obtain ⟨⟨hAs, hproc, hon⟩, hkeeps⟩ := hf h s hs
  have hseen := seen_of_keeps hkeeps hp hhere.1 hon
  have hproc' : ProcInv p (s.modifyProc p f) := ProcInv.of_keeps hproc hkeeps
  refine ⟨Guar.of_keeps hkeeps (by simp), ⟨hseen.2.1, (discipline_laws n).on_acquire _ hseen.2.2⟩,
    hB h s hs (hA h s h _ hAs hseen) hproc', hproc', hseen.2.2⟩

/-- A write that is fine whatever the process is like. -/
theorem setProc_triple' {f : Proc → Proc} (hA : (discipline n).Stable t X A) (hp : .proc p ∉ X)
    (hf : ∀ q, Keeps q (f q)) :
    (discipline n).Triple t (.proc p :: X) (Inside t X (.proc p) A) (Code.setProc p f : Code n Unit)
      (fun _ => .proc p :: X) fun _ => Inside t X (.proc p) A :=
  setProc_triple hA hp (stable_inside hA) (fun _ s hin => ⟨hin, hf (s.proc p)⟩) fun _ _ _ hs _ => hs

theorem UnseenBut.on {Y : List Lock} (hunseen : UnseenBut Y s s')
    (hon : (discipline n).on t h X s) : (discipline n).on t h X s' := by
  cases t with
  | scheduler h₀ => exact ⟨hon.1, fun hnone => by rw [hunseen.cpu, hon.2 hnone]⟩
  | proc q =>
      refine ⟨(congrFun hunseen.cpu h).trans hon.1, ?_⟩
      intro hq
      rw [hunseen.state, hunseen.bound]
      exact hon.2 hq

/-- Who does not hold the locks may see it happen at any time. -/
theorem UnseenBut.seen {Y : List Lock} (hunseen : UnseenBut Y s s') (hapart : ∀ l ∈ X, l ∉ Y)
    (hinv : SharedInv s) (hon : (discipline n).on t h X s) :
    (discipline n).Seen t X h s h s' := by
  have hkept : HeldKept X s s' := fun l hl => hunseen.protected (hapart l hl)
  refine ⟨?_, hinv.of_unseenBut hunseen, hunseen.on hon⟩
  cases t with
  | scheduler h₀ => exact ⟨rfl, by rw [hunseen.cpu], hkept⟩
  | proc q =>
      refine ⟨fun _ => rfl, ⟨congrFun hunseen.np q, ?_, congrFun hunseen.loop q⟩, hkept⟩
      intro i _ hi
      rwa [hunseen.parent]

/-- What nobody sees may happen at any time. -/
theorem Unseen.seen (hunseen : Unseen s s') (hinv : SharedInv s) (hon : (discipline n).on t h X s) :
    (discipline n).Seen t X h s h s' :=
  hunseen.unseenBut.seen (fun _ _ => List.not_mem_nil) hinv hon

/-- A write that nobody sees is quiet wherever it is done. -/
theorem unseen_quiet {f : Fin n → Shared n → Shared n}
    (hf : ∀ h s, (discipline n).Here t h X s → Unseen s (f h s) ∧
      ∀ p, (s.proc p).state = .sleeping → ((f h s).proc p).killed = (s.proc p).killed) :
    (discipline n).Quiet t X (update f : Code n Unit) := by
  intro A hA
  refine Triple.update hA fun h s hhere hs => ?_
  obtain ⟨hunseen, hkilled⟩ := hf h s hhere
  have hseen := hunseen.seen hhere.1 hhere.2
  exact ⟨hunseen.unseenBut.guar hkilled, hseen.2, hA h s h _ hs hseen⟩

theorem unseen_modifyGet_quiet {α : Type} {f : Fin n → Shared n → Shared n}
    {g : Fin n → Shared n → α}
    (hf : ∀ h s, (discipline n).Here t h X s → Unseen s (f h s) ∧
      ∀ p, (s.proc p).state = .sleeping → ((f h s).proc p).killed = (s.proc p).killed) :
    (discipline n).Quiet t X (modifyGet f g : Code n α) := by
  intro A hA
  refine Triple.modifyGet hA fun h s hhere hs => ?_
  obtain ⟨hunseen, hkilled⟩ := hf h s hhere
  have hseen := hunseen.seen hhere.1 hhere.2
  exact ⟨hunseen.unseenBut.guar hkilled, hseen.2, hA h s h _ hs hseen⟩

/-- A change of a process that nobody sees. -/
structure ProcUnseen (p q : Proc) : Prop where
  state : q.state = p.state
  chan : q.chan = p.chan
  parent : q.parent = p.parent

theorem unseen_modifyProc {f : Proc → Proc} (hf : ProcUnseen (s.proc p) (f (s.proc p))) :
    Unseen s (s.modifyProc p f) := by
  have hproc : ∀ q, ProcUnseen (s.proc q) ((s.modifyProc p f).proc q) := by
    intro q
    by_cases hq : q = p
    · subst hq
      rw [Shared.modifyProc_proc_self]
      exact hf
    · rw [Shared.modifyProc_proc_of_ne hq]
      exact ⟨rfl, rfl, rfl⟩
  exact ⟨fun q => (hproc q).state, fun q => (hproc q).chan, fun q => (hproc q).parent,
    rfl, rfl, rfl, rfl, rfl, rfl, rfl⟩

/-- A write to a process that keeps all that the discipline is about. -/
theorem setProc_quiet {f : Proc → Proc} (hf : ∀ q, ProcUnseen q (f q) ∧ (f q).killed = q.killed) :
    (discipline n).Quiet t X (Code.setProc p f : Code n Unit) := by
  refine unseen_quiet fun h s _ => ⟨unseen_modifyProc (hf _).1, fun q _ => ?_⟩
  by_cases hq : q = p
  · subst hq
    rw [Shared.modifyProc_proc_self]
    exact (hf _).2
  · rw [Shared.modifyProc_proc_of_ne hq]

/-- Reading is quiet. -/
theorem quiet_read {α : Type} (g : Fin n → Shared n → α) :
    (discipline n).Quiet t X (read g : Code n α) :=
  Quiet.read (discipline_laws n) g

theorem keeps_wakeupProc (now : UInt32) (chan : Option Chan) (q : Proc) :
    Keeps q (wakeupProc now chan q) := by
  unfold wakeupProc
  split
  case isTrue h => exact ⟨rfl, rfl, Or.inr ⟨h.1, rfl⟩⟩
  case isFalse => exact ⟨rfl, rfl, Or.inl ⟨rfl, fun _ => rfl⟩⟩

theorem keeps_killProc (now : UInt32) (q : Proc) : Keeps q (killProc now q) := by
  by_cases h : q.state = .sleeping
  · have hkill : killProc now q = wakeProc now { q with killed := 1 } := by simp [killProc, h]
    rw [hkill]
    exact ⟨rfl, rfl, Or.inr ⟨h, rfl⟩⟩
  · have hkill : killProc now q = { q with killed := 1 } := by simp [killProc, h]
    rw [hkill]
    exact ⟨rfl, rfl, Or.inl ⟨rfl, fun hsleeping => absurd hsleeping h⟩⟩

theorem Lock.Early.rank_lt {l : Lock} (h : l.Early) : l.rank < Lock.rank (.proc p) :=
  Nat.lt_of_lt_of_le h (Nat.le_add_right 3 p.val)

theorem proc_notMem (hX : ∀ m ∈ X, m.Early) : .proc p ∉ X := by
  intro hp
  have hlt : 3 + p.val < 3 := hX _ hp
  omega

theorem Lock.Early.lockInv_iff {l : Lock} (hl : l.Early) :
    (discipline n).lockInv l s ↔ Settled l s := by
  cases l with
  | proc q =>
      have hlt : 3 + q.val < 3 := hl
      omega
  | condition | pipe | cons | ticks | wait | pid => exact Iff.rfl

end Xv6
