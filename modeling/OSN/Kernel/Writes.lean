import OSN.Kernel.LockOrder

/-!
# Writing the memory

What the writes of the kernel change, field by field, and when a change is
within what a thread may do and keeps the invariant: a change of one slot
(`OnlySlot.guar`, `SharedInv.of_onlySlot`), and one that leaves alone all that
the discipline is about, but for what the locks in hand protect (`UnseenBut`).
-/

namespace Xv6

variable {n : Nat}

/-! ### Writing the memory -/

namespace Shared

variable {s : Shared n} {p q : Slot} {f : Proc → Proc} {h : Fin n} {o : Option Slot}
  {chan : Option Chan} {loop : Loop} {a i pi : Nat} {b : Bool}

@[simp] theorem modifyProc_proc_self : (s.modifyProc p f).proc p = f (s.proc p) := by
  simp [proc, modifyProc]

@[simp] theorem modifyProc_proc_of_ne (hq : q ≠ p) : (s.modifyProc p f).proc q = s.proc q := by
  simp [proc, modifyProc, hq]

@[simp] theorem modifyProc_cpu : (s.modifyProc p f).cpu = s.cpu := rfl

@[simp] theorem modifyProc_np : (s.modifyProc p f).np = s.np := rfl

@[simp] theorem modifyProc_bound : (s.modifyProc p f).bound = s.bound := rfl

@[simp] theorem modifyProc_loop : (s.modifyProc p f).loop = s.loop := rfl

@[simp] theorem modifyProc_reaped : (s.modifyProc p f).reaped = s.reaped := rfl

@[simp] theorem modifyProc_condition : (s.modifyProc p f).condition = s.condition := rfl

@[simp] theorem setCpu_proc : (s.setCpu h o).proc p = s.proc p := rfl

@[simp] theorem setCpu_cpu : (s.setCpu h o).cpu = Function.update s.cpu h o := rfl

@[simp] theorem setCpu_np : (s.setCpu h o).np = s.np := rfl

@[simp] theorem setCpu_bound : (s.setCpu h o).bound = s.bound := rfl

@[simp] theorem setCpu_loop : (s.setCpu h o).loop = s.loop := rfl

@[simp] theorem setCpu_reaped : (s.setCpu h o).reaped = s.reaped := rfl

@[simp] theorem setCpu_condition : (s.setCpu h o).condition = s.condition := rfl

@[simp] theorem setNp_proc : (s.setNp q o).proc p = s.proc p := rfl

@[simp] theorem setNp_cpu : (s.setNp q o).cpu = s.cpu := rfl

@[simp] theorem setNp_np : (s.setNp p o).np q = if q = p then o else s.np q := rfl

@[simp] theorem setNp_bound : (s.setNp q o).bound = s.bound := rfl

@[simp] theorem setNp_loop : (s.setNp q o).loop = s.loop := rfl

@[simp] theorem setNp_reaped : (s.setNp q o).reaped = s.reaped := rfl

@[simp] theorem setNp_condition : (s.setNp q o).condition = s.condition := rfl

@[simp] theorem setBound_proc : (s.setBound q chan).proc p = s.proc p := rfl

@[simp] theorem setBound_cpu : (s.setBound q chan).cpu = s.cpu := rfl

@[simp] theorem setBound_np : (s.setBound q chan).np = s.np := rfl

@[simp] theorem setBound_bound : (s.setBound q chan).bound = Function.update s.bound q chan := rfl

@[simp] theorem setBound_loop : (s.setBound q chan).loop = s.loop := rfl

@[simp] theorem setBound_reaped : (s.setBound q chan).reaped = s.reaped := rfl

@[simp] theorem setBound_condition : (s.setBound q chan).condition = s.condition := rfl

@[simp] theorem setLoop_proc : (s.setLoop q loop).proc p = s.proc p := rfl

@[simp] theorem setLoop_cpu : (s.setLoop q loop).cpu = s.cpu := rfl

@[simp] theorem setLoop_np : (s.setLoop q loop).np = s.np := rfl

@[simp] theorem setLoop_bound : (s.setLoop q loop).bound = s.bound := rfl

@[simp] theorem setLoop_loop : (s.setLoop q loop).loop = Function.update s.loop q loop := rfl

@[simp] theorem setLoop_reaped : (s.setLoop q loop).reaped = s.reaped := rfl

@[simp] theorem setLoop_condition : (s.setLoop q loop).condition = s.condition := rfl

@[simp] theorem setCondition_proc : (s.setCondition a i b).proc p = s.proc p := rfl

@[simp] theorem setCondition_cpu : (s.setCondition a i b).cpu = s.cpu := rfl

@[simp] theorem setCondition_np : (s.setCondition a i b).np = s.np := rfl

@[simp] theorem setCondition_bound : (s.setCondition a i b).bound = s.bound := rfl

@[simp] theorem setCondition_condition : (s.setCondition a i b).condition =
    Function.update s.condition a (Function.update (s.condition a) i b) := rfl

end Shared

/-! ### Changing one slot -/

/-- Nothing but slot `p` has changed, its `np` apart. -/
structure OnlySlot (p : Slot) (s s' : Shared n) : Prop where
  proc : ∀ q, q ≠ p → s'.proc q = s.proc q
  bound : ∀ q, q ≠ p → s'.bound q = s.bound q
  loop : ∀ q, q ≠ p → s'.loop q = s.loop q
  cpu : s'.cpu = s.cpu
  condition : s'.condition = s.condition
  pipe : s'.pipe = s.pipe

theorem onlySlot_modifyProc {s : Shared n} {p : Slot} {f : Proc → Proc} :
    OnlySlot p s (s.modifyProc p f) :=
  ⟨fun _ hq => Shared.modifyProc_proc_of_ne hq, fun _ _ => rfl, fun _ _ => rfl, rfl, rfl, rfl⟩

/-- What thread `t` may do to slot `p`. -/
structure SlotGuar (t : Thread n) (held : List Lock) (p : Slot) (s s' : Shared n) : Prop where
  kept : .proc p ∉ held → (s'.proc p).state = (s.proc p).state ∧
    (s'.proc p).chan = (s.proc p).chan ∧ s'.bound p = s.bound p
  calm : ∀ chan, chan.lock ∉ held → BoundTo p chan s' → BoundTo p chan s
  family : .wait ∉ held → FamilyKept p s s'
  others : t ≠ .proc p →
    ((s.proc p).state = .running → (s'.proc p).state = .running) ∧ s'.bound p = s.bound p ∧
      s'.loop p = s.loop p
  loop : LoopKept p s s'

variable {s s' : Shared n} {t : Thread n} {X : List Lock} {p : Slot}

theorem OnlySlot.boundTo (honly : OnlySlot p s s') {q : Slot} (hq : q ≠ p) {chan : Chan} :
    BoundTo q chan s' ↔ BoundTo q chan s := by
  simp only [BoundTo, honly.bound q hq, honly.proc q hq]

/-- A change of one slot is within what a thread may do if it is so there. -/
theorem OnlySlot.guar (honly : OnlySlot p s s') (hslot : SlotGuar t X p s s')
    (hnp : ∀ q, t ≠ .proc q → s'.np q = s.np q)
    (hchild : ∀ q, t ≠ .proc q → s.np q = some p → (s.proc p).parent ≠ none →
      (s'.proc p).parent ≠ none)
    (hreaps : Reaps t s s') : Guar t X s s' where
  kept l hl := by
    refine ⟨?_, ?_, ?_, ?_, fun pi _ => by rw [honly.pipe]⟩
    · intro chan q hchan hbound
      by_cases hqp : q = p
      · subst hqp
        exact hslot.calm chan (hchan ▸ hl) hbound
      · exact (honly.boundTo hqp).mp hbound
    · intro q hq
      have hcpu : ∀ h, s'.cpu h = some q ↔ s.cpu h = some q := by
        rw [honly.cpu]
        exact fun _ => Iff.rfl
      by_cases hqp : q = p
      · subst hqp
        obtain ⟨hstate, hchan, hbound⟩ := hslot.kept (hq ▸ hl)
        exact ⟨hstate, hchan, hbound, hcpu⟩
      · exact ⟨by rw [honly.proc q hqp], by rw [honly.proc q hqp], honly.bound q hqp, hcpu⟩
    · intro hwait q
      by_cases hqp : q = p
      · subst hqp
        exact hslot.family (hwait ▸ hl)
      · have hsame := honly.proc q hqp
        exact ⟨fun r hr => hsame ▸ hr, by rw [hsame], fun _ => by rw [hsame]⟩
    · intro a _
      rw [honly.condition]
  cpu _ _ := by rw [honly.cpu]
  np := hnp
  child q i hq hi hparent := by
    by_cases hip : i = p
    · subst hip
      exact hchild q hq hi hparent
    · rw [honly.proc i hip]
      exact hparent
  running q hq hrunning := by
    by_cases hqp : q = p
    · subst hqp
      exact (hslot.others hq).1 hrunning
    · rw [honly.proc q hqp]
      exact hrunning
  bound q hq := by
    by_cases hqp : q = p
    · subst hqp
      exact (hslot.others hq).2.1
    · exact honly.bound q hqp
  reaps := hreaps
  loop q := by
    by_cases hqp : q = p
    · subst hqp
      exact hslot.loop
    · constructor
      · intro h
        exact Or.inl (honly.loop q hqp ▸ h)
      · intro hstate hloop
        rw [honly.proc q hqp] at hstate ⊢
        exact ⟨rfl, Or.inr ⟨hstate, honly.loop q hqp ▸ hloop⟩⟩
  test q hq := by
    by_cases hqp : q = p
    · subst hqp
      exact (hslot.others hq).2.2
    · exact honly.loop q hqp

/-- No child is reaped. -/
theorem OnlySlot.reaps_none (honly : OnlySlot p s s') (hreaped : s'.reaped = s.reaped)
    (hzombie : (s.proc p).state = .zombie → (s'.proc p).state = .zombie) : Reaps t s s' := by
  refine Or.inl ⟨hreaped, fun q hq => ?_⟩
  by_cases hqp : q = p
  · subst hqp
    exact hzombie hq
  · rw [honly.proc q hqp]
    exact hq

/-- What a change of slot `p` has to leave so for the invariant of the memory. -/
structure SlotInv (p : Slot) (s s' : Shared n) : Prop where
  used : ∀ q, s'.np q = some p → (s'.proc p).state = .used
  unique : ∀ q q', s'.np q = some p → s'.np q' = some p → q = q'
  alive : (s.proc p).state.Alive →
    (s'.proc p).state.Alive ∨ p ≠ initproc ∧ ∀ q, (s.proc q).parent ≠ some p
  parent : ∀ r, (s'.proc p).parent = some r →
    (s.proc p).parent = some r ∨ (s'.proc r).state.Alive
  born : p ≠ initproc → (s'.proc p).state ≠ .unused → (s'.proc p).state ≠ .used →
    (s'.proc p).parent ≠ none
  looped : ∀ chan, (s'.proc p).state = .sleeping → (s'.proc p).chan = some chan →
    chan.Tested → s'.loop p = .asleep

theorem SharedInv.of_onlySlot (hinv : SharedInv s) (honly : OnlySlot p s s')
    (hnp : ∀ q i, i ≠ p → s'.np q = some i → s.np q = some i) (hslot : SlotInv p s s') :
    SharedInv s' where
  hart := by
    rw [honly.cpu]
    exact hinv.hart
  np_used q i hi := by
    by_cases hip : i = p
    · subst hip
      exact hslot.used q hi
    · rw [honly.proc i hip]
      exact hinv.np_used q i (hnp q i hip hi)
  np_unique q q' i hi hi' := by
    by_cases hip : i = p
    · subst hip
      exact hslot.unique q q' hi hi'
    · exact hinv.np_unique q q' i (hnp q i hip hi) (hnp q' i hip hi')
  init_alive := by
    by_cases hp : p = initproc
    · have hbefore := hinv.init_alive
      rw [← hp] at hbefore ⊢
      exact (hslot.alive hbefore).resolve_right fun hnot => hnot.1 hp
    · rw [honly.proc _ (Ne.symm hp)]
      exact hinv.init_alive
  parent_alive q r hr := by
    -- the parent of `q` is an old one, or `q` is the slot and its parent is alive
    have hold : (s.proc q).parent = some r ∨ (s'.proc r).state.Alive := by
      by_cases hqp : q = p
      · subst hqp
        exact hslot.parent r hr
      · rw [honly.proc q hqp] at hr
        exact Or.inl hr
    rcases hold with hr' | halive
    · have hbefore := hinv.parent_alive q r hr'
      by_cases hrp : r = p
      · subst hrp
        exact (hslot.alive hbefore).resolve_right fun hnot => hnot.2 q hr'
      · rw [honly.proc r hrp]
        exact hbefore
    · exact halive
  has_parent q hinit hunused hused := by
    by_cases hqp : q = p
    · subst hqp
      exact hslot.born hinit hunused hused
    · rw [honly.proc q hqp] at hunused hused ⊢
      exact hinv.has_parent q hinit hunused hused
  looped q chan hsleeping hchan htested := by
    by_cases hqp : q = p
    · subst hqp
      exact hslot.looped chan hsleeping hchan htested
    · rw [honly.proc q hqp] at hsleeping hchan
      rw [honly.loop q hqp]
      exact hinv.looped q chan hsleeping hchan htested

/-- A process that is alive stays so. -/
theorem SharedInv.of_alive (hinv : SharedInv s) (honly : OnlySlot p s s') (hnp : s'.np = s.np)
    (hparent : (s'.proc p).parent = (s.proc p).parent) (hbefore : (s.proc p).state.Alive)
    (hafter : (s'.proc p).state.Alive)
    (hlooped : ∀ chan, (s'.proc p).state = .sleeping → (s'.proc p).chan = some chan →
      chan.Tested → s'.loop p = .asleep) : SharedInv s' := by
  have hborn : (s.proc p).state ≠ .unused ∧ (s.proc p).state ≠ .used := by
    rcases hbefore with h | h | h <;> simp [h]
  have hnone : ∀ q, s'.np q ≠ some p := fun q hq => hborn.2 (hinv.np_used q p (hnp ▸ hq))
  refine hinv.of_onlySlot honly (fun q i _ hi => hnp ▸ hi)
    ⟨fun q hq => absurd hq (hnone q), fun q _ hq => absurd hq (hnone q), fun _ => Or.inl hafter,
      fun r hr => Or.inl (hparent ▸ hr), fun hinit _ _ => ?_, hlooped⟩
  rw [hparent]
  exact hinv.has_parent p hinit hborn.1 hborn.2

theorem LoopKept.of_same (hstate : (s'.proc p).state = (s.proc p).state)
    (hkilled : (s'.proc p).killed = (s.proc p).killed) (hloop : s'.loop p = s.loop p) :
    LoopKept p s s' := by
  refine ⟨fun h => Or.inl (hloop ▸ h), fun hsleeping hasleep => ⟨hkilled, Or.inr ⟨?_, ?_⟩⟩⟩
  · rwa [hstate] at hsleeping
  · rwa [hloop] at hasleep

/-! ### Changes that nobody sees -/

/-- A change of the memory that leaves alone all that anybody counts on, but for
the pipes and the conditions whose locks are in `X`. -/
structure UnseenBut (X : List Lock) (s s' : Shared n) : Prop where
  state : ∀ p, (s'.proc p).state = (s.proc p).state
  chan : ∀ p, (s'.proc p).chan = (s.proc p).chan
  parent : ∀ p, (s'.proc p).parent = (s.proc p).parent
  cpu : s'.cpu = s.cpu
  np : s'.np = s.np
  bound : s'.bound = s.bound
  loop : s'.loop = s.loop
  reaped : s'.reaped = s.reaped
  condition : ∀ a, .condition a ∉ X → s'.condition a = s.condition a
  pipe : ∀ pi, .pipe pi ∉ X → s'.pipe pi = s.pipe pi

theorem UnseenBut.protected (h : UnseenBut X s s') {l : Lock} (hl : l ∉ X) :
    Protected l s s' where
  calm chan q _ hbound := by
    rwa [BoundTo, h.bound, h.state, h.chan] at hbound
  slot q _ := ⟨h.state q, h.chan q, congrFun h.bound q, fun _ => by rw [h.cpu]⟩
  family _ q := ⟨fun r hr => h.parent q ▸ hr, by rw [h.state], fun _ => h.parent q⟩
  condition a ha := h.condition a (ha ▸ hl)
  pipe pi hpi := h.pipe pi (hpi ▸ hl)

/-- What thread `t` may do with the locks in `X`, if `killed` is set of nobody
who sleeps in a loop. -/
theorem UnseenBut.guar (h : UnseenBut X s s') (hkilled : ∀ p, (s.proc p).state = .sleeping →
    (s'.proc p).killed = (s.proc p).killed) : Guar t X s s' where
  kept l hl := h.protected hl
  cpu _ _ := by rw [h.cpu]
  np _ _ := by rw [h.np]
  child _ i _ _ hi := by rwa [h.parent]
  running q _ hq := by rwa [h.state]
  bound _ _ := by rw [h.bound]
  reaps := Or.inl ⟨h.reaped, fun q hq => by rwa [h.state]⟩
  loop q := by
    refine ⟨fun htested => Or.inl (h.loop ▸ htested), ?_⟩
    intro hsleeping hasleep
    rw [h.state] at hsleeping
    exact ⟨hkilled q hsleeping, Or.inr ⟨hsleeping, h.loop ▸ hasleep⟩⟩
  test _ _ := by rw [h.loop]

theorem SharedInv.of_unseenBut (hinv : SharedInv s) (h : UnseenBut X s s') : SharedInv s' where
  hart := by
    rw [h.cpu]
    exact hinv.hart
  np_used p i hi := by
    rw [h.state]
    exact hinv.np_used p i (h.np ▸ hi)
  np_unique := by
    rw [h.np]
    exact hinv.np_unique
  init_alive := by
    rw [h.state]
    exact hinv.init_alive
  parent_alive q r hr := by
    rw [h.state]
    exact hinv.parent_alive q r (h.parent q ▸ hr)
  has_parent q := by
    rw [h.state, h.parent]
    exact hinv.has_parent q
  looped q chan := by
    rw [h.state, h.chan, h.loop]
    exact hinv.looped q chan

/-- A change of a pipe, seen only by those who hold its lock. -/
theorem unseenBut_modifyPipe {pi : Nat} (hl : .pipe pi ∈ X) (f : Pipe → Pipe) :
    UnseenBut X s (s.modifyPipe pi f) := by
  refine ⟨fun _ => rfl, fun _ => rfl, fun _ => rfl, rfl, rfl, rfl, rfl, rfl, fun _ _ => rfl, ?_⟩
  intro pi' hnot
  have hne : pi' ≠ pi := fun heq => hnot (heq ▸ hl)
  simp [Shared.modifyPipe, hne]

/-- A change of a condition, seen only by those who hold the lock of its object. -/
theorem unseenBut_setCondition {a i : Nat} {b : Bool} (hl : .condition a ∈ X) :
    UnseenBut X s (s.setCondition a i b) := by
  refine ⟨fun _ => rfl, fun _ => rfl, fun _ => rfl, rfl, rfl, rfl, rfl, rfl, ?_, fun _ _ => rfl⟩
  intro a' hnot
  have hne : a' ≠ a := fun heq => hnot (heq ▸ hl)
  simp [hne]

/-- A change of the memory that leaves alone all that anybody counts on. -/
structure Unseen (s s' : Shared n) : Prop where
  state : ∀ p, (s'.proc p).state = (s.proc p).state
  chan : ∀ p, (s'.proc p).chan = (s.proc p).chan
  parent : ∀ p, (s'.proc p).parent = (s.proc p).parent
  cpu : s'.cpu = s.cpu
  condition : s'.condition = s.condition
  np : s'.np = s.np
  bound : s'.bound = s.bound
  loop : s'.loop = s.loop
  pipe : s'.pipe = s.pipe
  reaped : s'.reaped = s.reaped

theorem Unseen.unseenBut (h : Unseen s s') : UnseenBut X s s' :=
  ⟨h.state, h.chan, h.parent, h.cpu, h.np, h.bound, h.loop, h.reaped,
    fun a _ => congrFun h.condition a, fun pi _ => congrFun h.pipe pi⟩

end Xv6
