import OSN.Kernel.Traps

/-!
# All code keeps to the discipline

The four schedulers keep to it too: what one knows is its `c->proc` and the
process whose lock it holds.  So the code at every label and the interrupt
handler are `Ok`, and, for each of the four schedulers, a process runs on one
hart at most and no harts wait for each other in a circle.
-/

namespace Xv6

open Threads Threads.Discipline
open Threads.Code (release jump)

variable {n : Nat} {X : List Lock} {A : Fin n → Shared n → Prop} {p : Slot} {h h₀ : Fin n}
  {s s' : Shared n} {α : Type} {Y : α → List Lock} {P : α → Fin n → Shared n → Prop}

/-! ### The schedulers -/

/-- A process that a scheduler may dispatch, and a hart that is free. -/
def Ready (p : Slot) (h : Fin n) (s : Shared n) : Prop :=
  s.cpu h = none ∧ (s.proc p).state = .runnable ∧ s.bound p = none ∧ Unhosted p s

/-- What a scheduler knows of the process that has come back. -/
def CameBack (p : Slot) (h : Fin n) (s : Shared n) : Prop :=
  s.cpu h = none ∧ Leaving p s ∧ Unhosted p s

/-- What a scheduler knows of its hart and of a slot whose lock it has. -/
theorem stable_slot_cpu {o : Option Slot} {C : Shared n → Prop} (hp : .proc p ∈ X)
    (hC : ∀ s s', SlotKept p s s' → C s → C s') :
    (discipline n).Stable (.scheduler h₀) X fun h s => s.cpu h = o ∧ C s := by
  intro h s h' s' hs hseen
  obtain ⟨rfl, hcpu⟩ := seen_cpu hseen
  exact ⟨hcpu.trans hs.1, stable_slot hp hC h' s h' s' hs.2 hseen⟩

theorem SlotKept.unhosted (hkept : SlotKept p s s') (hs : Unhosted p s) : Unhosted p s' :=
  fun h hh => hs h ((hkept.cpu h).mp hh)

theorem stable_ready (hp : .proc p ∈ X) : (discipline n).Stable (.scheduler h₀) X (Ready p) :=
  stable_slot_cpu hp fun _ _ hkept hs =>
    ⟨hkept.state.trans hs.1, hkept.bound.trans hs.2.1, hkept.unhosted hs.2.2⟩

theorem stable_cameBack (hp : .proc p ∈ X) : (discipline n).Stable (.scheduler h₀) X (CameBack p) :=
  stable_slot_cpu hp fun _ _ hkept hs =>
    ⟨⟨hkept.state ▸ hs.1.1, hkept.bound.trans hs.1.2⟩, hkept.unhosted hs.2⟩

/-- A RUNNABLE process whose lock the scheduler has taken is ready. -/
theorem Inside.ready (hin : Inside (.scheduler h₀) X (.proc p) A h s) (hcpu : s.cpu h = none)
    (hrun : (s.proc p).state = .runnable) : Ready p h s := by
  have hproc : ProcInv p s := hin.2.1
  refine ⟨hcpu, hrun, hproc.bound, ?_⟩
  intro h' hh'
  exact absurd (hrun.symm.trans (hproc.running.mpr ⟨h', hh'⟩)) (by decide)

/-- `low->state = RUNNING`. -/
theorem start_triple {f : Proc → Proc} (hf : ∀ q, (f q).state = .running ∧ (f q).parent = q.parent) :
    (discipline n).Triple (.scheduler h₀) [.proc p] (Ready p) (Code.setProc p f : Code n Unit)
      (fun _ => [.proc p])
      fun _ h s => s.cpu h = none ∧ Awake p s ∧ Unhosted p s := by
  refine Triple.update (stable_ready List.mem_cons_self) fun h s hhere hs => ?_
  obtain ⟨hcpu, hrunnable, hbound, hfree⟩ := hs
  have honly : OnlySlot p s (s.modifyProc p f) := onlySlot_modifyProc
  have hstate : ((s.modifyProc p f).proc p).state = .running := by
    rw [Shared.modifyProc_proc_self, (hf _).1]
  have hparent : ((s.modifyProc p f).proc p).parent = (s.proc p).parent := by
    rw [Shared.modifyProc_proc_self, (hf _).2]
  have hafter : ∀ v, v ≠ .running → ((s.modifyProc p f).proc p).state ≠ v :=
    fun v hv hstate' => hv (hstate'.symm.trans hstate)
  have hbefore : ∀ v, v ≠ .runnable → (s.proc p).state ≠ v :=
    fun v hv hstate' => hv (hstate'.symm.trans hrunnable)
  have hzombie := hbefore .zombie (by decide)
  have hguar : Guar (.scheduler h₀) [.proc p] s (s.modifyProc p f) := by
    refine honly.guar ⟨fun hnot => absurd List.mem_cons_self hnot, fun chan _ hb => ?_,
      fun _ => ⟨fun r hr => hparent ▸ hr, ?_, fun h => absurd h hzombie⟩,
      fun _ => ⟨fun _ => hstate, rfl, rfl⟩, fun hloop => Or.inl hloop, fun hsleeping => ?_⟩
      (fun _ _ => rfl) (fun _ _ _ hp => ?_) (honly.reaps_none rfl fun h => absurd h hzombie)
    · exact hb.imp id fun hasleep => absurd hasleep.1 (hafter .sleeping (by decide))
    · exact iff_of_false (hafter .zombie (by decide)) hzombie
    · exact absurd hsleeping (hafter .sleeping (by decide))
    · rwa [hparent]
  exact ⟨hguar, ⟨hhere.1.of_alive honly rfl hparent (Or.inr (Or.inl hrunnable))
    (Or.inr (Or.inr hstate)) fun _ h => absurd h (hafter .sleeping (by decide)), hhere.2⟩, hcpu,
    ⟨hstate, hbound⟩, hfree⟩

/-- `mycpu()` of a scheduler. -/
theorem mycpu_bind {c : Fin n → Code n α} (hA : (discipline n).Stable (.scheduler h₀) X A)
    (hc : (discipline n).Triple (.scheduler h₀) X A (c h₀) Y P) :
    (discipline n).Triple (.scheduler h₀) X A (Code.mycpu >>= c) Y P := by
  refine (Triple.read (discipline_laws n) hA _).bind fun h' => ?_
  intro next hnext h s hhere hs
  obtain rfl : h' = h₀ := hs.2.trans hhere.2.1.symm
  exact hc next hnext h s hhere hs.1

/-- `c->proc` of a hart is written by its scheduler, which has the locks of the
processes that come and go. -/
theorem Guar.setCpu {o : Option Slot} (hslot : ∀ q, .proc q ∉ X → (s.cpu h = some q ↔ o = some q)) :
    Guar (.scheduler h) X s (s.setCpu h o) where
  kept l hl := by
    refine ⟨fun _ _ _ hbound => hbound, fun q hq => ⟨rfl, rfl, rfl, ?_⟩,
      fun _ _ => ⟨fun _ hr => hr, Iff.rfl, fun _ => rfl⟩, fun _ _ => rfl, fun _ _ => rfl⟩
    intro h'
    by_cases hh : h' = h
    · subst hh
      simpa using (hslot q (hq ▸ hl)).symm
    · simp [hh]
  cpu h' hne := by
    have hh : h' ≠ h := by
      intro heq
      subst heq
      exact hne rfl
    simp [hh]
  np _ _ := rfl
  child _ _ _ _ hparent := hparent
  running _ _ hrunning := hrunning
  bound _ _ := rfl
  reaps := Or.inl ⟨rfl, fun _ hzombie => hzombie⟩
  loop _ := .of_same rfl rfl rfl
  test _ _ := rfl

theorem SharedInv.setCpu {o : Option Slot} (hinv : SharedInv s)
    (hfree : ∀ q, o = some q → ∀ h', h' ≠ h → s.cpu h' ≠ some q) : SharedInv (s.setCpu h o) := by
  refine ⟨?_, hinv.np_used, hinv.np_unique, hinv.init_alive,
    hinv.parent_alive, hinv.has_parent, hinv.looped⟩
  intro h₁ h₂ q h₁q h₂q
  by_cases hh₁ : h₁ = h <;> by_cases hh₂ : h₂ = h
  · exact hh₁.trans hh₂.symm
  · exact absurd (by simpa [hh₂] using h₂q) (hfree q (by simpa [hh₁] using h₁q) h₂ hh₂)
  · exact absurd (by simpa [hh₁] using h₁q) (hfree q (by simpa [hh₂] using h₂q) h₁ hh₁)
  · exact hinv.hart h₁ h₂ q (by simpa [hh₁] using h₁q) (by simpa [hh₂] using h₂q)

/-- **From the scheduler to the process and back.**  The scheduler has taken a
process that no hart ran; when it is back the process is not RUNNING. -/
theorem switchTo_triple :
    (discipline n).Triple (.scheduler h₀) [.proc p]
      (fun h s => s.cpu h = none ∧ Awake p s ∧ Unhosted p s)
      (Code.switchTo p : Code n Unit) (fun _ => [.proc p]) fun _ => CameBack p := by
  have hp : Lock.proc p ∈ [Lock.proc p] := List.mem_cons_self
  have hothers : ∀ q, Lock.proc q ∉ [Lock.proc p] → p ≠ q := by
    intro q hq heq
    subst heq
    exact hq hp
  have hdispatched : (discipline n).Stable (.scheduler h₀) [.proc p]
      fun h s => s.cpu h = none ∧ Awake p s ∧ Unhosted p s :=
    stable_slot_cpu hp fun _ _ hkept hs =>
      ⟨⟨hkept.state.trans hs.1.1, hkept.bound.trans hs.1.2⟩, hkept.unhosted hs.2⟩
  apply mycpu_bind hdispatched
  -- c->proc = p
  refine Triple.bind (Z := fun _ => [.proc p]) (P := fun _ h s => s.cpu h = some p ∧ Awake p s)
    ?_ fun _ => ?_
  · refine Triple.update hdispatched fun h s hhere hs => ?_
    obtain rfl : h₀ = h := hhere.2.1
    obtain ⟨hcpu, hawake, hfree⟩ := hs
    refine ⟨.setCpu fun q hq => ?_, ⟨hhere.1.setCpu fun q hq h' _ => ?_, rfl, nofun⟩, by simp,
      hawake⟩
    · simp [hcpu, hothers q hq]
    · obtain rfl : p = q := Option.some.inj hq
      exact hfree h'
  -- swtch
  refine Triple.bind (Z := fun _ => [.proc p]) (P := fun _ h s => s.cpu h = some p ∧ Leaving p s)
    ?_ fun _ => ?_
  · have hhosting : (discipline n).Stable (.scheduler h₀) [.proc p]
        fun h s => s.cpu h = some p ∧ Awake p s :=
      stable_slot_cpu hp fun _ _ hkept hs => ⟨hkept.state.trans hs.1, hkept.bound.trans hs.2⟩
    refine Triple.swtch hhosting fun h s hhere hs => ?_
    obtain rfl : h₀ = h := hhere.2.1
    refine ⟨nofun, fun h' held hne hon => hne (hhere.1.hart h' h₀ p hon.1 hs.1),
      ⟨hhere.1, hs.1, fun _ => hs.2⟩, ⟨rfl, hs.2⟩, ?_⟩
    intro h' held s' hback
    obtain ⟨haway, hhere', q, rfl, hcpu, hleaving⟩ := hback
    obtain rfl : h₀ = h' := hhere'.2.1
    obtain rfl : p = q := Option.some.inj ((Eq.trans haway hs.1).symm.trans hcpu)
    exact ⟨rfl, hcpu, hleaving⟩
  -- c->proc = 0
  · have hleaving : (discipline n).Stable (.scheduler h₀) [.proc p]
        fun h s => s.cpu h = some p ∧ Leaving p s :=
      stable_slot_cpu hp fun _ _ hkept hs => ⟨hkept.state ▸ hs.1, hkept.bound.trans hs.2⟩
    refine Triple.update hleaving fun h s hhere hs => ?_
    obtain rfl : h₀ = h := hhere.2.1
    refine ⟨.setCpu fun q hq => ?_, ⟨hhere.1.setCpu nofun, rfl, nofun⟩, by simp, hs.2, ?_⟩
    · simp [hs.1, hothers q hq]
    · intro h' hh'
      by_cases hh : h' = h₀
      · simp [hh] at hh'
      · exact hh (hhere.1.hart h' h₀ p (by simpa [hh] using hh') hs.1)

/-- A process that has come back may be left to the other harts. -/
theorem CameBack.inside (hs : CameBack p h s) (hon : h₀ = h) :
    Inside (.scheduler h₀) [] (.proc p) (fun _ _ => True) h s := by
  refine ⟨trivial, ⟨iff_of_false hs.2.1.1 fun hhost => ?_, hs.2.1.2⟩, hon, fun _ => hs.1⟩
  obtain ⟨h', hh'⟩ := hhost
  exact hs.2.2 h' hh'

theorem back_release_triple :
    (discipline n).Triple (.scheduler h₀) [.proc p] (CameBack p) (release (.proc p) : Code n Unit)
      (fun _ => []) fun _ _ _ => True :=
  (unlock_triple Stable.true).pre fun _ _ hhere hs => hs.inside hhere.2.1

/-- Jumps of a scheduler that holds no lock. -/
theorem scheduler_jump {label : Label}
    (hlabel : ∀ h s, (discipline n).spec label (.scheduler h₀) h [] s) :
    (discipline n).Triple (.scheduler h₀) [] (fun _ _ => True) (jump label : Code n α) Y P :=
  Triple.jump Stable.true fun h s _ _ => hlabel h s

theorem defaultScheduler_triple :
    (discipline n).Triple (.scheduler h₀) [] (fun _ _ => True)
      (Code.defaultScheduler : Code n Unit) (fun _ => []) fun _ _ _ => False := by
  refine Triple.bind (Triple.forM (A := fun _ _ => True) fun p _ => ?_) fun _ =>
    scheduler_jump fun _ _ => ⟨rfl, h₀, rfl⟩
  refine (lock_first_triple Stable.true).bind fun _ => ?_
  refine (Triple.read (discipline_laws n) (stable_inside Stable.true) _).bind fun q => ?_
  refine Triple.bind (Triple.when (fun hrun => ?_) fun _ h s _ hs => hs.1) fun _ =>
    unlock_triple Stable.true
  refine Triple.pre (A := Ready p) ?_ fun h s _ hs => hs.1.ready (hs.1.2.2.2 rfl) (hs.2 ▸ hrun)
  refine (start_triple fun _ => ?_).bind fun _ => ?_
  · exact ⟨rfl, rfl⟩
  · exact switchTo_triple.post fun _ _ _ hhere hs => hs.inside hhere.2.1

/-- In the table, what comes later is larger. -/
theorem lt_of_later {p q : Slot} {rest : List Slot}
    (hlater : ∃ done, Code.table = done ++ p :: rest) (hq : q ∈ rest) : p < q := by
  obtain ⟨done, hdone⟩ := hlater
  have hsorted : (done ++ p :: rest).Pairwise (· < ·) := hdone ▸ List.pairwise_lt_finRange NPROC
  exact List.rel_of_pairwise_cons (List.pairwise_append.mp hsorted).2.1 hq

/-- A process that is ready may be left to the other harts. -/
theorem Ready.procInv (hready : Ready p h s) : ProcInv p s := by
  obtain ⟨-, hrunnable, hbound, hfree⟩ := hready
  refine ⟨iff_of_false (by simp [hrunnable]) fun hhost => ?_, hbound⟩
  obtain ⟨h', hh'⟩ := hhost
  exact hfree h' hh'

/-- The locks that the scan holds: that of `low`. -/
def lowLocks (low : Option Slot) : List Lock := low.toList.map .proc

/-- What the scan knows when `rest` is still to be visited: `low` is ready,
and its lock comes before all that the scan will take. -/
def Scanned (rest : List Slot) (low : Option Slot) (h : Fin n) (s : Shared n) : Prop :=
  ∀ l ∈ low, (∀ q ∈ rest, l < q) ∧ Ready l h s

theorem scanned_none (rest : List Slot) (h : Fin n) (s : Shared n) : Scanned rest none h s := nofun

theorem scanned_some {rest : List Slot} {l : Slot} {h : Fin n} {s : Shared n}
    (hrest : ∀ q ∈ rest, l < q) (hready : Ready l h s) : Scanned rest (some l) h s := by
  intro l' hl'
  obtain rfl : l = l' := by simpa using hl'
  exact ⟨hrest, hready⟩

/-- `release(&low->lock)` with the lock of a better process in hand. -/
theorem low_release_triple {l : Slot} (hne : p ≠ l) :
    (discipline n).Triple (.scheduler h₀) [.proc p, .proc l] (fun h s => Ready l h s ∧ Ready p h s)
      (release (.proc l) : Code n Unit) (fun _ => [.proc p]) fun _ => Ready p := by
  have hstable : (discipline n).Stable (.scheduler h₀) [.proc p, .proc l]
      fun h s => Ready l h s ∧ Ready p h s :=
    (stable_ready (by simp)).and (stable_ready (by simp))
  have herase : [Lock.proc p, Lock.proc l].erase (.proc l) = [.proc p] := by
    rw [List.erase_cons_tail (by simpa using hne), List.erase_cons_head]
  rw [← herase]
  refine Triple.release hstable (by simp) fun h s hhere hs => ⟨hs.1.procInv, ⟨hhere.2.1, ?_⟩, hs.2⟩
  rw [herase]
  exact nofun

/-- What all schedulers do with a process that is ready. -/
theorem dispatch_triple {c : Code n Unit} {f : Proc → Proc}
    (hf : ∀ q, (f q).state = .running ∧ (f q).parent = q.parent)
    (hc : (discipline n).Triple (.scheduler h₀) [.proc p] (CameBack p) c (fun _ => [])
      fun _ _ _ => False) :
    (discipline n).Triple (.scheduler h₀) [.proc p] (Ready p)
      (do Code.setProc p f; Code.switchTo p; c : Code n Unit) (fun _ => []) fun _ _ _ => False :=
  (start_triple hf).bind fun _ => switchTo_triple.bind fun _ => hc

section Scan

variable (rule : ScanRule)
  (hvisit : ∀ q, ProcUnseen q (rule.visit q) ∧ (rule.visit q).killed = q.killed)
include hvisit

/-- A visit while there is no `low`. -/
theorem scanSlot_first_triple {rest : List Slot} (hrest : ∀ q ∈ rest, p < q) :
    (discipline n).Triple (.scheduler h₀) [] (fun _ _ => True)
      (Code.scanSlot rule none p : Code n (Option Slot)) lowLocks (Scanned rest) := by
  refine (lock_first_triple Stable.true).bind fun _ => ?_
  refine (Triple.read (discipline_laws n) (stable_inside Stable.true) _).bind fun q => ?_
  split
  case isTrue hrun =>
      refine Triple.pre (A := Ready p) ?_ fun h s _ hs => hs.1.ready (hs.1.2.2.2 rfl) (hs.2 ▸ hrun)
      refine (setProc_quiet hvisit _ (stable_ready List.mem_cons_self)).bind fun _ => ?_
      exact (Triple.pure (some p)).pre fun h s _ hready => scanned_some hrest hready
  case isFalse =>
      refine Triple.pre ?_ fun h s _ hs => hs.1
      refine (unlock_triple Stable.true).bind fun _ => ?_
      exact (Triple.pure none).pre fun h s _ _ => scanned_none rest h s

/-- A visit with the lock of `low` in hand. -/
theorem scanSlot_next_triple {l : Slot} {rest : List Slot}
    (hl : ∀ q ∈ p :: rest, l < q) (hrest : ∀ q ∈ rest, p < q) :
    (discipline n).Triple (.scheduler h₀) [.proc l] (Ready l)
      (Code.scanSlot rule (some l) p : Code n (Option Slot)) lowLocks (Scanned rest) := by
  have hlp : l < p := hl p List.mem_cons_self
  have hlrest : ∀ q ∈ rest, l < q := fun q hq => hl q (List.mem_cons_of_mem p hq)
  have hready : (discipline n).Stable (.scheduler h₀) [.proc l] (Ready l) :=
    stable_ready List.mem_cons_self
  have hkeep : (discipline n).Triple (.scheduler h₀) [.proc l] (Ready l)
      (Pure.pure (some l) : Code n (Option Slot)) lowLocks (Scanned rest) :=
    (Triple.pure (some l)).pre fun h s _ hs => scanned_some hlrest hs
  refine (lock_triple hready (by simpa [Lock.rank] using hlp)).bind fun _ => ?_
  refine (Triple.read (discipline_laws n) (stable_inside hready) _).bind fun q => ?_
  split
  case isTrue hrun =>
      have hboth : (discipline n).Stable (.scheduler h₀) [.proc p, .proc l] fun h s =>
          Inside (.scheduler h₀) [.proc l] (.proc p) (Ready l) h s ∧ Ready p h s :=
        (stable_inside hready).and (stable_ready List.mem_cons_self)
      refine Triple.pre (A := fun h s =>
        Inside (.scheduler h₀) [.proc l] (.proc p) (Ready l) h s ∧ Ready p h s) ?_
        fun h s _ hs => ⟨hs.1, hs.1.ready hs.1.1.1 (hs.2 ▸ hrun)⟩
      refine (setProc_quiet hvisit _ hboth).bind fun _ => ?_
      refine (quiet_read _ _ hboth).bind fun q => ?_
      refine (quiet_read _ _ hboth).bind fun low => ?_
      split
      · refine ((low_release_triple (Fin.ne_of_gt hlp)).pre fun h s _ hs =>
          ⟨hs.1.1, hs.2⟩).bind fun _ => ?_
        exact (Triple.pure (some p)).pre fun h s _ hs => scanned_some hrest hs
      · exact ((unlock_triple hready).pre fun h s _ hs => hs.1).bind fun _ => hkeep
  case isFalse =>
      refine Triple.pre ?_ fun h s _ hs => hs.1
      exact (unlock_triple hready).bind fun _ => hkeep

theorem scanSlot_triple {rest : List Slot} (low : Option Slot)
    (hlater : ∃ done, Code.table = done ++ p :: rest) :
    (discipline n).Triple (.scheduler h₀) (lowLocks low) (Scanned (p :: rest) low)
      (Code.scanSlot rule low p : Code n (Option Slot)) lowLocks (Scanned rest) := by
  have hrest : ∀ q ∈ rest, p < q := fun q => lt_of_later hlater
  cases low with
  | none => exact (scanSlot_first_triple rule hvisit hrest).pre fun _ _ _ _ => trivial
  | some l =>
      refine Triple.pre (A := fun h s => (∀ q ∈ p :: rest, l < q) ∧ Ready l h s) ?_
        fun h s _ hs => hs l rfl
      exact Triple.of_pure fun hl => scanSlot_next_triple rule hvisit hl hrest

theorem scanScheduler_triple {start : UInt32 → Proc → Proc}
    (hstart : ∀ now q, (start now q).state = .running ∧ (start now q).parent = q.parent) :
    (discipline n).Triple (.scheduler h₀) [] (fun _ _ => True)
      (Code.scanScheduler rule start : Code n Unit) (fun _ => []) fun _ _ _ => False := by
  refine Triple.bind (((Triple.foldlM (Y := fun _ => lowLocks) (P := Scanned)
    (fun p rest low hlater => scanSlot_triple rule hvisit low hlater) none)).pre
      fun h s _ _ => scanned_none _ h s) fun low => ?_
  cases low with
  | none =>
      refine Triple.pre (A := fun _ _ => True) ?_ fun _ _ _ _ => trivial
      exact scheduler_jump fun _ _ => ⟨rfl, h₀, rfl⟩
  | some p =>
      refine Triple.pre (A := Ready p) ?_ fun h s _ hs => (hs p rfl).2
      refine (quiet_read _ _ (stable_ready List.mem_cons_self)).bind fun now => ?_
      refine dispatch_triple (hstart now) (back_release_triple.bind fun _ => ?_)
      exact scheduler_jump fun _ _ => ⟨rfl, h₀, rfl⟩

end Scan

theorem mlfqScheduler_triple :
    (discipline n).Triple (.scheduler h₀) [] (fun _ _ => True)
      (Code.mlfqScheduler : Code n Unit) (fun _ => []) fun _ _ _ => False := by
  refine (Quiet.forM (fun p => ageSlot_quiet (by simp)) _ Stable.true).bind fun _ => ?_
  refine (Quiet.forM (fun p => enqueueSlot_quiet (by simp)) _ Stable.true).bind fun _ => ?_
  exact scheduler_jump fun _ _ => ⟨rfl, h₀, rfl⟩

theorem dequeue_triple (i : Nat) :
    (discipline n).Triple (.scheduler h₀) [] (fun _ _ => True)
      (Code.dequeue i : Code n Unit) (fun _ => []) fun _ _ _ => False := by
  have hjump : ∀ j, (discipline n).Triple (.scheduler h₀) [] (fun _ _ => True)
      (jump (.dequeue j) : Code n Unit) (fun _ => []) fun _ _ _ => False :=
    fun j => scheduler_jump fun _ _ => ⟨rfl, h₀, rfl⟩
  have hagain : (discipline n).Triple (.scheduler h₀) [] (fun _ _ => True)
      (jump .scheduler : Code n Unit) (fun _ => []) fun _ _ _ => False :=
    scheduler_jump fun _ _ => ⟨rfl, h₀, rfl⟩
  unfold Code.dequeue
  split
  · refine Triple.ask.bind fun input => ?_
    split
    · exact hjump (i + 1)
    case h_2 p _ =>
        refine (lock_first_triple Stable.true).bind fun _ => ?_
        refine (setProc_quiet (fun _ => ?_) _ (stable_inside Stable.true)).bind fun _ => ?_
        · exact ⟨⟨rfl, rfl, rfl⟩, rfl⟩
        refine (Triple.read (discipline_laws n) (stable_inside Stable.true) _).bind fun q => ?_
        split
        case isTrue hrun =>
            refine Triple.pre (A := Ready p) ?_ fun h s _ hs =>
              hs.1.ready (hs.1.2.2.2 rfl) (hs.2 ▸ hrun)
            refine (quiet_read _ _ (stable_ready List.mem_cons_self)).bind fun now => ?_
            refine dispatch_triple (fun q => ?_) ?_
            · exact ⟨rfl, rfl⟩
            · have hback : (discipline n).Stable (.scheduler h₀) [.proc p] (CameBack p) :=
                stable_cameBack List.mem_cons_self
              refine (quiet_read _ _ hback).bind fun now => ?_
              refine (setProc_quiet (fun _ => ?_) _ hback).bind fun _ => ?_
              · exact ⟨⟨rfl, rfl, rfl⟩, rfl⟩
              · exact back_release_triple.bind fun _ => hagain
        case isFalse =>
            refine Triple.pre ?_ fun h s _ hs => hs.1
            exact (unlock_triple Stable.true).bind fun _ => hjump i
  · exact hagain

theorem scheduler_triple (policy : Policy) :
    (discipline n).Triple (.scheduler h₀) [] (fun _ _ => True)
      (Code.scheduler policy : Code n Unit) (fun _ => []) fun _ _ _ => False := by
  cases policy with
  | defaultScheduler => exact defaultScheduler_triple
  | fcfs => exact scanScheduler_triple _ (fun _ => ⟨⟨rfl, rfl, rfl⟩, rfl⟩) fun _ _ => ⟨rfl, rfl⟩
  | pbs => exact scanScheduler_triple _ (fun _ => ⟨⟨rfl, rfl, rfl⟩, rfl⟩) fun _ _ => ⟨rfl, rfl⟩
  | mlfq => exact mlfqScheduler_triple

/-! ### The whole kernel -/

/-- **All code keeps to the discipline.** -/
theorem obeyed (policy : Policy) :
    (discipline n).Obeyed (code policy) (handler policy) where
  handler_ok i t prog h s hhere hok := (kerneltrap_quiet policy i).ok (discipline_laws n) hhere hok
  code_ok label t h held s hhere hspec := by
    cases label with
    | scheduler =>
        obtain ⟨rfl, h₀, rfl⟩ := hspec
        exact (scheduler_triple policy).body hhere trivial
    | dequeue i =>
        obtain ⟨rfl, h₀, rfl⟩ := hspec
        exact (dequeue_triple i).body hhere trivial
    | forkret =>
        obtain ⟨p, rfl, rfl, hrunning, hbound⟩ := hspec
        exact forkret_ends.body hhere ⟨hrunning, hbound⟩
    | user =>
        obtain ⟨rfl, p, rfl⟩ := hspec
        exact (user_ends policy).body hhere trivial
    | trapret =>
        obtain ⟨rfl, p, rfl⟩ := hspec
        exact trapret_ends.body hhere trivial
    | waitLoop =>
        obtain ⟨rfl, ⟨p, rfl⟩, hsettled⟩ := hspec
        exact waitLoop_ends.body hhere hsettled
    | sleepLoop ticks0 len =>
        obtain ⟨rfl, p, rfl⟩ := hspec
        exact (sleepLoop_ends ticks0 len).body hhere trivial
    | pipewriteLoop pi i len =>
        obtain ⟨rfl, p, rfl⟩ := hspec
        exact (pipewriteLoop_ends pi i len).body hhere trivial
    | pipereadLoop pi len =>
        obtain ⟨rfl, p, rfl⟩ := hspec
        exact (pipereadLoop_ends pi len).body hhere trivial
    | pipereadCopy pi i len =>
        obtain ⟨rfl, p, rfl⟩ := hspec
        exact (pipereadCopy_ends pi i len).body hhere trivial
    | consolereadLoop target len =>
        obtain ⟨rfl, p, rfl⟩ := hspec
        exact (consolereadLoop_ends target len).body hhere trivial
    | condition a =>
        obtain ⟨rfl, ⟨p, rfl⟩, hsettled⟩ := hspec
        exact (condition_ends a).body hhere hsettled

theorem booted_state (p : Slot) : ((booted n).shared.proc p).state =
    if p = initproc then .runnable else .unused := by
  rw [booted, Shared.proc, userinit_proc]
  split <;> rfl

theorem booted_parent (p : Slot) : ((booted n).shared.proc p).parent = none := by
  rw [booted, Shared.proc, userinit_proc]
  split <;> rfl

theorem booted_inv : SharedInv (booted n).shared where
  hart _ _ _ h := by simp [booted] at h
  np_used _ _ h := by simp [booted] at h
  np_unique _ _ _ h := by simp [booted] at h
  init_alive := by
    rw [booted_state]
    decide
  parent_alive q r h := by simp [booted_parent] at h
  has_parent q hinit hunused := by simp [booted_state, hinit] at hunused
  looped p chan hsleeping := by
    rw [booted_state] at hsleeping
    split at hsleeping <;> cases hsleeping

/-- Nobody sleeps yet. -/
theorem booted_settled (l : Lock) : Settled l (booted n).shared := by
  intro chan p _ _ hbound
  rcases hbound with hbound | ⟨hsleeping, -⟩
  · simp [booted] at hbound
  · rw [booted_state] at hsleeping
    split at hsleeping <;> cases hsleeping

/-- After `main` every hart runs its scheduler. -/
theorem booted_kept (n : Nat) : (discipline n).Kept (booted n) .scheduler where
  inv := booted_inv
  on h := ⟨rfl, fun _ => rfl⟩
  free l _ := by
    cases l with
    | proc p =>
        refine ⟨iff_of_false ?_ nofun, rfl⟩
        rw [booted_state]
        split <;> decide
    | condition | pipe | cons | ticks | wait | pid => exact booted_settled _
  apart h h' l hl := by simp [booted] at hl
  nodup h := List.nodup_nil
  ok h := by
    intro h' s' hseen
    exact ⟨rfl, h, rfl⟩
  parked t ht := by
    by_cases hinit : t = .proc initproc
    · subst hinit
      simp only [booted, if_pos]
      exact fun h held s' hback => forkret_parked h held _ s' hback
    · simp only [booted, if_neg hinit]
      exact fun _ _ _ _ => trivial

/-- The discipline is kept in every state of the kernel. -/
theorem kernel_kept {policy : Policy}
    {c : Config (Fin n) Lock (Thread n) Input Label (Shared n)}
    (hc : (kernelThreads policy n).Reachable c) : ∃ who, (discipline n).Kept c who :=
  reachable_kept (discipline_laws n) (obeyed policy) ⟨_, booted_kept n⟩ hc

/-- **A process runs on one hart at most.**  Whatever the scheduler, the number
of harts and the interleaving: no process is `c->proc` of two harts, and while
`p->lock` is free, `p` is RUNNING exactly if one hart has `c->proc == p`. -/
theorem one_hart {policy : Policy}
    {c : Config (Fin n) Lock (Thread n) Input Label (Shared n)}
    (hc : (kernelThreads policy n).Reachable c) :
    (∀ h h' p, c.shared.cpu h = some p → c.shared.cpu h' = some p → h = h') ∧
      ∀ p, c.Free (.proc p) →
        ((c.shared.proc p).state = .running ↔ ∃! h, c.shared.cpu h = some p) := by
  obtain ⟨who, kept⟩ := kernel_kept hc
  refine ⟨kept.inv.hart, ?_⟩
  intro p hfree
  have hproc : ProcInv p c.shared := kept.free (.proc p) hfree
  refine hproc.running.trans ⟨fun hhost => ?_, fun hhost => hhost.exists⟩
  obtain ⟨h, hh⟩ := hhost
  exact ⟨h, hh, fun h' hh' => kept.inv.hart h' h p hh' hh⟩

/-- Two harts: hart 0 dispatches the first process, and hart 1 waits for its
turn in the table. -/
def initDispatched : List (Event (Fin 2) Input Code.Interrupt) :=
  .run 1 {} :: List.replicate 11 (.run 0 {})

theorem one_hart_dispatched : ∃ c : Config (Fin 2) Lock (Thread 2) Input Label (Shared 2),
    (c.shared.cpu 0 = some initproc ∧ c.Free (.proc initproc)) ∧
      ((∀ h h' p, c.shared.cpu h = some p → c.shared.cpu h' = some p → h = h') ∧
        ∀ p, c.Free (.proc p) →
          ((c.shared.proc p).state = .running ↔ ∃! h, c.shared.cpu h = some p)) := by
  obtain ⟨past, c, run, hc⟩ := Machine.exists_run_of_trace
    (M := kernelThreads .defaultScheduler 2) (s := booted 2) rfl initDispatched
    (fun _ c => c.shared.cpu 0 = some initproc ∧ c.Free (.proc initproc)) (by decide)
  exact ⟨c, hc, one_hart ⟨past, run⟩⟩

/-- **No deadlock.**  Whatever the scheduler, the number of harts and the
interleaving, there is no circle of harts each of which waits for a lock that
the next one holds; nor does a hart wait for a lock of its own. -/
theorem no_deadlock {policy : Policy}
    {c : Config (Fin n) Lock (Thread n) Input Label (Shared n)}
    (hc : (kernelThreads policy n).Reachable c) :
    ¬ ∃ h, Relation.TransGen c.WaitsFor h h := by
  obtain ⟨who, kept⟩ := kernel_kept hc
  intro hcircle
  obtain ⟨h, hcircle⟩ := hcircle
  exact kept.no_circle hcircle

/-- Hart 0 visits slot 1 with the lock of the first process in hand, and hart 1
waits for that lock. -/
def scanned : List (Event (Fin 2) Input Code.Interrupt) :=
  .run 1 {} :: List.replicate 5 (.run 0 {})

theorem no_deadlock_scanned : ∃ c : Config (Fin 2) Lock (Thread 2) Input Label (Shared 2),
    c.held 0 = [.proc 1, .proc initproc] ∧
      ¬ ∃ h, Relation.TransGen c.WaitsFor h h := by
  obtain ⟨past, c, run, hc⟩ := Machine.exists_run_of_trace
    (M := kernelThreads .fcfs 2) (s := booted 2) rfl scanned
    (fun _ c => c.held 0 = [.proc 1, .proc initproc]) (by decide)
  exact ⟨c, hc, no_deadlock ⟨past, run⟩⟩

end Xv6
