import OSN.Vm.Refines
import OSN.Vm.Uvmalloc

/-!
# `growproc`

`growproc` adds bytes to the memory of a process, or takes some away.  Its `sz + n` is a
`uint`: where the sum is negative it wraps to a size beyond the old one, and `uvmdealloc`
does nothing.
-/

namespace Vm

open Xv6 (PGSIZE MAXVA)

/-- The physical address that the kernel is loaded at. -/
def KERNBASE : Nat := 0x80000000

/-- `growproc`: its return value, and `p->sz` after it. -/
def growproc (pagetable psz : Nat) (n : Int) : RamM (Int × Nat) := do
  let sz := psz % 2 ^ 32
  let newsz := ((sz + n) % 2 ^ 32).toNat
  if 0 < n then
    let sz ← uvmalloc pagetable sz newsz
    if sz % 2 ^ 32 = 0 then return (-1, psz) else return (0, sz % 2 ^ 32)
  else if n < 0 then
    let sz ← uvmdealloc pagetable sz newsz
    return (0, sz % 2 ^ 32)
  else return (0, sz)

variable {room : Nat → Prop} {root : Nat} {f f' : Owner → Nat} {s t : Ram} {m m' : PageMap}
  {k sz sz' : Nat} {n r : Int}

/-- **A process** of `sz` bytes. -/
structure Process (root : Nat) (s : Ram) (m : PageMap) (sz : Nat) : Prop where
  le_trapframe : sz ≤ TRAPFRAME
  kernel : KERNBASE ≤ s.kernelEnd
  memory : ∃ room f, ProcMem room root f s m (PGROUNDUP sz / PGSIZE)

/-- What a page holds has not changed. -/
def SamePage (s t : Ram) (e : Mapping) : Prop := ∀ i < PGSIZE, t.mem (e.pa + i) = s.mem (e.pa + i)

/-- **The accounts of `growproc`** are right. -/
structure Accounted (s : Ram) (m : PageMap) (sz : Nat) (n r : Int) (sz' : Nat) (t : Ram)
    (m' : PageMap) : Prop where
  size : r = 0 → (sz' : Int) = sz + n
  mapped : r = 0 → ∀ p < topPage, m' p ≠ none ↔ p < PGROUNDUP sz' / PGSIZE
  same : r = 0 → ∀ p e, p < PGROUNDUP sz / PGSIZE → p < PGROUNDUP sz' / PGSIZE → m p = some e →
    m' p = some e ∧ SamePage s t e
  zero : r = 0 → ∀ p e, PGROUNDUP sz / PGSIZE ≤ p → p < PGROUNDUP sz' / PGSIZE → m' p = some e →
    ∀ i < PGSIZE, t.mem (e.pa + i) = 0
  failed : r = -1 → sz' = sz ∧ m' = m ∧ ∀ p e, p < PGROUNDUP sz / PGSIZE → m p = some e →
    SamePage s t e
  negative : (sz : Int) + n < 0 → r = -1

/-- A process is not larger than the memory. -/
theorem Process.le_memory (h : Process root s m sz) : sz ≤ 128 * 1024 * 1024 := by
  obtain ⟨room, f, hmem⟩ := h.memory
  have hle := hmem.le_pages (show PGSIZE ∣ KERNBASE by decide) h.kernel
  have hmax := h.le_trapframe
  have hcount : (PHYSTOP - KERNBASE) / PGSIZE = 32768 := by decide
  rw [hcount] at hle
  unfold PGROUNDUP at hle
  unfold TRAPFRAME TRAMPOLINE MAXVA PGSIZE at *
  omega

/-- A page that is kept holds what it held. -/
theorem Kept.samePage {e : Mapping} {p : Nat} (h : Kept room k f s m f' t m')
    (hp : p < k) (hne : e.pa ≠ 0) (howner : f (.inr p) = e.pa) : SamePage s t e := by
  intro i hi
  have hpage : PGROUNDDOWN (e.pa + i) = e.pa := by
    rw [PGROUNDDOWN_eq e.aligned]
    exact ⟨Nat.le_add_right _ _, Nat.add_lt_add_left hi _⟩
  exact h.mem _ p (Or.inl hp) (howner.symm ▸ hne) (howner.trans hpage.symm)

/-- The pages of a process. -/
theorem ProcMem.mapped_iff (h : ProcMem room root f s m k) {p : Nat} (hp : p < topPage) :
    m p ≠ none ↔ p < k := by
  constructor
  · intro hne
    by_contra hge
    exact hne (h.none_above p (Nat.not_lt.mp hge) hp).1
  · intro hlt
    obtain ⟨e, he, -⟩ := h.pages p hlt
    rw [he]
    exact Option.some_ne_none e

/-- A page of a process and its owner. -/
theorem ProcMem.owner (h : ProcMem room root f s m k) {p : Nat} (hp : p < k) {e : Mapping}
    (he : m p = some e) : e.pa ≠ 0 ∧ f (.inr p) = e.pa := by
  obtain ⟨e', he', -, hne, howner⟩ := h.pages p hp
  obtain rfl := Option.some.inj (he'.symm.trans he)
  exact ⟨hne, howner⟩

/-- Pages have been added. -/
theorem Accounted.grown (h : ProcMem room root f s m (PGROUNDUP sz / PGSIZE))
    (hsize : (sz' : Int) = sz + n)
    (ht : Grown room root f s m (PGROUNDUP sz / PGSIZE) (PGROUNDUP sz' / PGSIZE) t) :
    ∃ f' m', ProcMem room root f' t m' (PGROUNDUP sz' / PGSIZE) ∧ t.kernelEnd = s.kernelEnd ∧
      Accounted s m sz n 0 sz' t m' := by
  obtain ⟨f', m', h', hkept, hfresh⟩ := ht
  refine ⟨f', m', h', hkept.kernelEnd, fun _ => hsize, fun _ p hp => h'.mapped_iff hp,
    fun _ p e hp _ he => ?_, fun _ p e hp hp' he i hi => ?_, fun hbad => (by cases hbad),
    fun hneg => by omega⟩
  · obtain ⟨hne, howner⟩ := h.owner hp he
    exact ⟨(hkept.map p (Or.inl hp)).trans he, hkept.samePage hp hne howner⟩
  · obtain ⟨hne, howner⟩ := h'.owner hp' he
    refine (hfresh p hp hp').zero _ ?_
    rw [howner, PGROUNDDOWN_eq e.aligned]
    exact ⟨Nat.le_add_right _ _, Nat.add_lt_add_left hi _⟩

/-- Pages have been taken away, or none. -/
theorem Accounted.shrunk (h : ProcMem room root f s m (PGROUNDUP sz / PGSIZE))
    (hle : PGROUNDUP sz' / PGSIZE ≤ PGROUNDUP sz / PGSIZE) (hsize : (sz' : Int) = sz + n)
    (h' : ProcMem room root f' t m' (PGROUNDUP sz' / PGSIZE))
    (hkept : Kept room (PGROUNDUP sz' / PGSIZE) f s m f' t m') :
    Accounted s m sz n 0 sz' t m' := by
  refine ⟨fun _ => hsize, fun _ p hp => h'.mapped_iff hp,
    fun _ p e hp hp' he => ?_, fun _ p e hp hp' _ => by omega, fun hbad => (by cases hbad),
    fun hneg => by omega⟩
  obtain ⟨hne, howner⟩ := h.owner hp he
  exact ⟨(hkept.map p (Or.inl hp')).trans he, hkept.samePage hp' hne howner⟩

/-- Nothing has been added after all. -/
theorem Accounted.restored (h : ProcMem room root f s m (PGROUNDUP sz / PGSIZE))
    (ht : Restored room root f s m (PGROUNDUP sz / PGSIZE) t) (hn : 0 ≤ n) :
    ∃ f', ProcMem room root f' t m (PGROUNDUP sz / PGSIZE) ∧ t.kernelEnd = s.kernelEnd ∧
      Accounted s m sz n (-1) sz t m := by
  obtain ⟨f', m', h', hkept⟩ := ht
  have hm : m' = m := by
    funext p
    by_cases hp : p < PGROUNDUP sz / PGSIZE ∨ topPage ≤ p
    · exact hkept.map p hp
    · rw [(h.none_above p (by omega) (by omega)).1, (h'.none_above p (by omega) (by omega)).1]
  subst hm
  refine ⟨f', h', hkept.kernelEnd, fun hbad => (by cases hbad), fun hbad => (by cases hbad),
    fun hbad => (by cases hbad), fun hbad => (by cases hbad), fun _ => ⟨rfl, rfl, ?_⟩,
    fun hneg => by omega⟩
  intro p e hp he
  obtain ⟨hne, howner⟩ := h.owner hp he
  exact hkept.samePage hp hne howner

/-- **`growproc` accounts exactly** unless it is to take away more than there is. -/
theorem growproc_accounts_iff (h : Process root s m sz) (hn : -2 ^ 31 ≤ n ∧ n < 2 ^ 31) :
    ∃ r sz' t m', growproc root sz n s = .ok (r, sz') t ∧ Process root t m' sz' ∧
      (Accounted s m sz n r sz' t m' ↔ 0 ≤ (sz : Int) + n) := by
  have hmem := h.le_memory
  obtain ⟨hmax, hkernel, room, f, hproc⟩ := h
  have hsz : sz % 2 ^ 32 = sz := Nat.mod_eq_of_lt (by omega)
  unfold growproc
  rw [hsz]
  rcases lt_trichotomy 0 n with hpos | rfl | hneg
  · obtain ⟨newsz, hnew⟩ : ∃ newsz : Nat, (newsz : Int) = sz + n :=
      ⟨_, Int.toNat_of_nonneg (by omega)⟩
    have hmod : (((sz : Int) + n) % 2 ^ 32).toNat = newsz := by omega
    obtain ⟨r, t, hrun, hr⟩ := (hproc.uvmalloc (show sz ≤ newsz by omega)).exists_ok
    rw [if_pos hpos, hmod, Ends.bind_of_ok hrun]
    rcases hr with ⟨hle, rfl, ht⟩ | ⟨rfl, ht⟩
    · obtain ⟨f', m', h', hkernel', hacc⟩ := Accounted.grown hproc hnew ht
      rw [Nat.mod_eq_of_lt (by omega), if_neg (by omega)]
      exact ⟨0, r, t, m', rfl, ⟨hle, hkernel'.symm ▸ hkernel, room, f', h'⟩,
        iff_of_true hacc (by omega)⟩
    · obtain ⟨f', h', hkernel', hacc⟩ := Accounted.restored hproc ht (Int.le_of_lt hpos)
      exact ⟨-1, sz, t, m, rfl, ⟨hmax, hkernel'.symm ▸ hkernel, room, f', h'⟩,
        iff_of_true hacc (by omega)⟩
  · refine ⟨0, sz, s, m, rfl, ⟨hmax, hkernel, room, f, hproc⟩, iff_of_true ?_ (by omega)⟩
    exact Accounted.shrunk hproc (Nat.le_refl _) (by omega) hproc .refl
  · rw [if_neg (by omega), if_pos hneg]
    by_cases hover : 0 ≤ (sz : Int) + n
    · obtain ⟨newsz, hnew⟩ : ∃ newsz : Nat, (newsz : Int) = sz + n :=
        ⟨_, Int.toNat_of_nonneg hover⟩
      have hmod : (((sz : Int) + n) % 2 ^ 32).toNat = newsz := by omega
      have hlt : newsz < sz := by omega
      obtain ⟨r, t, hrun, rfl, f', m', h', hkept⟩ := (hproc.uvmdealloc hmax hlt).exists_ok
      rw [hmod, Ends.bind_of_ok hrun, Nat.mod_eq_of_lt (by omega)]
      have hround := PGROUNDUP_mono (Nat.le_of_lt hlt) hmax
      refine ⟨0, r, t, m', rfl, ⟨by omega, hkept.kernelEnd.symm ▸ hkernel, room, f', h'⟩,
        iff_of_true (.shrunk hproc (Nat.div_le_div_right hround.1) hnew h' hkept) hover⟩
    · have hge : sz ≤ (((sz : Int) + n) % 2 ^ 32).toNat := by omega
      rw [Ends.bind_of_ok (uvmdealloc_ge hge), hsz]
      refine ⟨0, sz, s, m, rfl, ⟨hmax, hkernel, room, f, hproc⟩,
        iff_of_false (fun hacc => ?_) hover⟩
      exact absurd (hacc.negative (by omega)) (by decide)

/-- The memory of a process of one page. -/
def smallProcess : Ram := ramAfter (uvmalloc smallMachine.pagetable 0 PGSIZE) smallMachine.ram

theorem smallProcess_process : ∃ m, Process smallMachine.pagetable smallProcess m PGSIZE := by
  obtain ⟨room, f, hmaps, hold⟩ := smallMachine_created.models
  have hnone : ∀ x, f (.inr x) = 0 := by
    intro x
    by_contra hne
    exact List.not_mem_nil (hold.held x hne).2
  have hempty : ProcMem room smallMachine.pagetable f smallMachine.ram (fun _ => none)
      (PGROUNDUP 0 / PGSIZE) :=
    ⟨hmaps, by decide, fun p hp => absurd hp (Nat.not_lt_zero p), fun p _ _ => ⟨rfl, hnone p⟩⟩
  have hrun : uvmalloc smallMachine.pagetable 0 PGSIZE smallMachine.ram = .ok PGSIZE smallProcess :=
    eq_ok (by decide)
  rcases (hempty.uvmalloc (show 0 ≤ PGSIZE from Nat.zero_le _)).ok hrun with
    ⟨-, -, f', m', h', -⟩ | ⟨hbad, -⟩
  · exact ⟨m', by decide, by decide, room, f', h'⟩
  · cases hbad

/-- 8192 bytes are to be taken away from 4096. -/
theorem growproc_overshoots : ∃ m, Process smallMachine.pagetable smallProcess m PGSIZE ∧
    growproc smallMachine.pagetable PGSIZE (-8192) smallProcess = .ok (0, PGSIZE) smallProcess ∧
      ¬ Accounted smallProcess m PGSIZE (-8192) 0 PGSIZE smallProcess m := by
  obtain ⟨m, h⟩ := smallProcess_process
  refine ⟨m, h, rfl, fun hacc => ?_⟩
  exact absurd (hacc.negative (by decide)) (by decide)

theorem growproc_accounts_small : ∃ m r sz' t m',
    growproc smallMachine.pagetable PGSIZE 100 smallProcess = .ok (r, sz') t ∧
      Accounted smallProcess m PGSIZE 100 r sz' t m' := by
  obtain ⟨m, h⟩ := smallProcess_process
  obtain ⟨r, sz', t, m', hrun, -, hacc⟩ := growproc_accounts_iff h (n := 100) (by decide)
  exact ⟨m, r, sz', t, m', hrun, hacc.mpr (by decide)⟩

end Vm
