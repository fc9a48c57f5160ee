import OSN.Vm.Freewalk
import OSN.Vm.Uvmalloc

/-!
# The page table of a process

`proc_pagetable` makes one that maps the trampoline and the trapframe and no memory yet, and
`proc_freepagetable` gives back its tables and the memory that it has got since.  The pages
of both come from a room that nobody else has pages in.
-/

namespace Vm

open Xv6 (PGSIZE MAXVA)

attribute [local irreducible] freewalk

/-- `proc_pagetable`; `trampoline` is the address of the code, `trapframe` that of the page. -/
def procPagetable (trampoline trapframe : Nat) : RamM Nat := do
  let pagetable ← uvmcreate
  if pagetable = 0 then return 0
  else
    let r ← mappages pagetable TRAMPOLINE PGSIZE trampoline (PTE_R ||| PTE_X)
    if r < 0 then
      uvmfree pagetable 0
      return 0
    else
      let r ← mappages pagetable TRAPFRAME PGSIZE trapframe (PTE_R ||| PTE_W)
      if r < 0 then
        uvmunmap pagetable TRAMPOLINE 1 false
        uvmfree pagetable 0
        return 0
      else return pagetable

/-- `proc_freepagetable`. -/
def procFreepagetable (pagetable sz : Nat) : RamM Unit := do
  uvmunmap pagetable TRAMPOLINE 1 false
  uvmunmap pagetable TRAPFRAME 1 false
  uvmfree pagetable sz

variable {room : Nat → Prop} {root : Nat} {f f' : Owner → Nat} {s t u : Ram} {m m' : PageMap}
  {a n k x sz trampoline trapframe : Nat} {e : Mapping} {out : Nat → Prop}

/-! ### What changes in a room -/

/-- Only pages of the room have changed. -/
structure Confined (room : Nat → Prop) (s t : Ram) : Prop where
  kernelEnd : t.kernelEnd = s.kernelEnd
  mem : ∀ b, ¬ room (PGROUNDDOWN b) → t.mem b = s.mem b

theorem Confined.refl : Confined room s s := ⟨rfl, fun _ _ => rfl⟩

theorem Confined.trans (h : Confined room s t) (h' : Confined room t u) : Confined room s u :=
  ⟨h'.kernelEnd.trans h.kernelEnd, fun b hb => (h'.mem b hb).trans (h.mem b hb)⟩

theorem Denied.confined (h : Denied s t) : Confined room s t :=
  ⟨h.kernelEnd, fun _ _ => by rw [h.mem]⟩

theorem Kalloced.confined (h : Kalloced s x t) (hpages : Pages room f s) : Confined room s t := by
  refine ⟨h.kernelEnd, fun b hb => h.mem b fun heq => hb ?_⟩
  rw [heq]
  exact hpages.free x (h.freelist ▸ List.mem_cons_self)

theorem Grows.confined (h : Grows f s f' t) (hpages : Pages room f' t) : Confined room s t :=
  ⟨h.kernelEnd, fun b hb => h.mem b fun hin => hb (hin.inRoom hpages)⟩

theorem Kept.confined (h : Kept room n f s m f' t m') : Confined room s t :=
  ⟨h.kernelEnd, h.outside⟩

theorem Freed.confined (h : Freed f s out f' t) (hpages : Pages room f s) : Confined room s t := by
  refine ⟨h.kernelEnd, fun b hb => h.mem b (fun hin => hb (hin.inRoom hpages)) ?_⟩
  intro j _ hne heq
  exact hb (heq ▸ hpages.tenancy.inRoom hne)

/-- All pages of the room are free again. -/
structure Returned (room : Nat → Prop) (s t : Ram) : Prop extends Confined room s t where
  pages : Pages room (fun _ => 0) t

/-- The free pages are the room. -/
theorem Pages.free_iff (h : Pages room (fun _ => 0) s) : x ∈ s.freelist ↔ room x := by
  refine ⟨h.free x, fun hx => ?_⟩
  by_contra hfree
  obtain ⟨-, hzero⟩ := (h.tenancy.taken_iff hx).mp hfree
  exact h.tenancy.ne_zero hx hzero.symm

/-! ### `uvmfree` -/

/-- Pages are mapped that are not the process's own, or mapped no more. -/
theorem ProcMem.of_maps (h : ProcMem room root f s m n) (hmaps : Maps room root f t m')
    (hsame : ∀ p < topPage, m' p = m p) : ProcMem room root f t m' n := by
  refine ⟨hmaps, h.le_top, fun p hp => ?_, fun p hp hp' => ?_⟩
  · rw [hsame p (Nat.lt_of_lt_of_le hp h.le_top)]
    exact h.pages p hp
  · rw [hsame p hp']
    exact h.none_above p hp hp'

/-- One page is unmapped, and stays. -/
theorem Maps.unmapPage (h : Maps room root f s m) (ha : PGSIZE ∣ a) (hlt : a < MAXVA)
    (hm : m (a / PGSIZE) = some e) (hflags : e.flags ≠ PTE_V) :
    Ends (Vm.uvmunmap root a 1 false) s
      (fun _ t => Maps room root f t (Function.update m (a / PGSIZE) none) ∧ Confined room s t)
      fun _ _ => False := by
  have hstop : (a + 1 * PGSIZE) % 2 ^ 64 = a + PGSIZE := by
    unfold MAXVA PGSIZE at *
    omega
  have hpage : (a + PGSIZE) / PGSIZE = a / PGSIZE + 1 := page_succ
  have hunmap := h.uvmunmap a 1 false (fun p => p) fun hfree => by cases hfree
  rw [hstop] at hunmap
  refine hunmap.mono ?_ fun _ _ hfail => hfail ⟨ha, ?_, fun p hp hp' => ?_⟩
  · rintro - t ⟨-, f', hmaps, hfreed⟩
    have hsame : f' = f := by
      funext i
      cases i with
      | inl k => exact hfreed.table k
      | inr j => exact hfreed.kept j fun hout => by cases hout.1
    subst hsame
    rw [hpage, Nat.add_sub_cancel_left, erase_one] at hmaps
    exact ⟨hmaps, hfreed.confined h.toPages⟩
  · unfold MAXVA PGSIZE at *
    omega
  · rw [hpage] at hp'
    obtain rfl : p = a / PGSIZE := by omega
    exact ⟨e, hm, hflags⟩

/-- The memory of a process is given back. -/
theorem ProcMem.unmapAll (h : ProcMem room root f s m (PGROUNDUP sz / PGSIZE))
    (hsz : sz ≤ TRAPFRAME) (hloose : ∀ j, topPage ≤ j → f (.inr j) = 0) :
    Ends (Vm.uvmunmap root 0 (PGROUNDUP sz / PGSIZE) true) s
      (fun _ t => ∃ f', Maps room root f' t (m.erase 0 (PGROUNDUP sz / PGSIZE)) ∧
        (∀ j, f' (.inr j) = 0) ∧ Confined room s t)
      fun _ _ => False := by
  obtain ⟨-, hmax, -⟩ := PGROUNDUP_mono (Nat.le_refl sz) hsz
  have hstop : (0 + PGROUNDUP sz / PGSIZE * PGSIZE) % 2 ^ 64 = PGROUNDUP sz := by
    have hround := PGSIZE_dvd_PGROUNDUP sz
    unfold TRAPFRAME TRAMPOLINE MAXVA PGSIZE at *
    omega
  have hlent : Lent f m (fun p => p) (0 / PGSIZE) (PGROUNDUP sz / PGSIZE) := by
    refine ⟨fun p _ hp e he => ?_, fun p q _ _ _ _ heq => heq⟩
    obtain ⟨e', he', -, hne, hown⟩ := h.pages p hp
    obtain rfl := Option.some.inj (he'.symm.trans he)
    exact ⟨hne, hown⟩
  have hunmap := h.toMaps.uvmunmap 0 (PGROUNDUP sz / PGSIZE) true (fun p => p)
  rw [hstop] at hunmap
  refine (hunmap fun _ => hlent).mono ?_ fun _ _ hfail => hfail ⟨Nat.dvd_zero _, ?_, ?_⟩
  · rintro - t ⟨-, f', hmaps, hfreed⟩
    rw [Nat.zero_div, Nat.sub_zero] at hmaps
    refine ⟨f', hmaps, fun j => ?_, hfreed.confined h.toPages⟩
    by_cases hj : j < PGROUNDUP sz / PGSIZE
    · exact hfreed.gone j ⟨rfl, j, Nat.zero_le _, hj, rfl⟩
    · have hkept := hfreed.kept j fun ⟨_, p, _, hp, hpj⟩ => hj (hpj ▸ hp)
      rw [hkept]
      by_cases htop : j < topPage
      · exact (h.none_above j (Nat.le_of_not_lt hj) htop).2
      · exact hloose j (Nat.le_of_not_lt htop)
  · exact Nat.le_trans hmax (by decide)
  · intro p _ hp
    obtain ⟨e, he, hflags, -⟩ := h.pages p hp
    exact ⟨e, he, hflags⟩

/-- The tables that are left are given back. -/
theorem Maps.returned (h : Maps room root f s m) (hm : ∀ p, m p = none)
    (hleaf : ∀ j, f (.inr j) = 0) :
    Ends (Vm.freewalk 3 root) s (fun _ t => Returned room s t) fun _ _ => False := by
  refine (h.freewalk hm).post ?_
  rintro - t ⟨f', hpages, htable, hsame, hkernel, hmem⟩
  have hzero : f' = fun _ => 0 := by
    funext i
    cases i with
    | inl k => exact htable k
    | inr j => exact (hsame j).trans (hleaf j)
  rw [hzero] at hpages
  exact ⟨⟨hkernel, fun b hb => hmem b fun hin => hb (hin.inRoom h.toPages)⟩, hpages⟩

/-- **`uvmfree`** gives back the memory of a process and its page table. -/
theorem ProcMem.uvmfree (h : ProcMem room root f s m (PGROUNDUP sz / PGSIZE)) (hsz : sz ≤ TRAPFRAME)
    (hbeyond : ∀ p, topPage ≤ p → m p = none) (hloose : ∀ j, topPage ≤ j → f (.inr j) = 0) :
    Ends (Vm.uvmfree root sz) s (fun _ t => Returned room s t) fun _ _ => False := by
  have hnone : ∀ p, m.erase 0 (PGROUNDUP sz / PGSIZE) p = none := by
    intro p
    unfold PageMap.erase
    split
    · rfl
    next hp =>
      by_cases htop : p < topPage
      · exact (h.none_above p (by omega) htop).1
      · exact hbeyond p (Nat.le_of_not_lt htop)
  unfold Vm.uvmfree
  by_cases hpos : 0 < sz
  · rw [if_pos hpos]
    refine (h.unmapAll hsz hloose).bind ?_
    rintro - t ⟨f', hmaps, hleaf, hconfined⟩
    refine (hmaps.returned hnone hleaf).post fun _ u hu => ?_
    exact ⟨hconfined.trans hu.toConfined, hu.pages⟩
  · obtain rfl := Nat.eq_zero_of_not_pos hpos
    rw [if_neg hpos]
    refine h.toMaps.returned (fun p => ?_) fun j => ?_
    · have hp := hnone p
      unfold PageMap.erase at hp
      rwa [if_neg (by rw [show PGROUNDUP 0 / PGSIZE = 0 from rfl]; omega)] at hp
    · by_cases htop : j < topPage
      · exact (h.none_above j (Nat.zero_le j) htop).2
      · exact hloose j (Nat.le_of_not_lt htop)

/-! ### `proc_pagetable` and `proc_freepagetable` -/

/-- **The page table of a process** with `n` pages of memory. -/
structure UserTable (room : Nat → Prop) (root : Nat) (f : Owner → Nat) (s : Ram) (m : PageMap)
    (n trampoline trapframe : Nat) : Prop extends ProcMem room root f s m n where
  frame : m topPage = some (.make trapframe (PTE_R ||| PTE_W))
  code : m (topPage + 1) = some (.make trampoline (PTE_R ||| PTE_X))
  beyond : ∀ p, topPage + 1 < p → m p = none
  loose : ∀ j, topPage ≤ j → f (.inr j) = 0

theorem trampoline_page : TRAMPOLINE / PGSIZE = topPage + 1 := by decide

theorem trapframe_page : TRAPFRAME / PGSIZE = topPage := rfl

theorem code_flags : (Mapping.make trampoline (PTE_R ||| PTE_X)).flags ≠ PTE_V := by
  change (PTE_R ||| PTE_X) % 1024 ||| PTE_V ≠ PTE_V
  decide

theorem frame_flags : (Mapping.make trapframe (PTE_R ||| PTE_W)).flags ≠ PTE_V := by
  change (PTE_R ||| PTE_W) % 1024 ||| PTE_V ≠ PTE_V
  decide

/-- Pages of the process's own have changed. -/
theorem UserTable.of_kept {j : Nat} (h : UserTable room root f s m n trampoline trapframe)
    (hproc : ProcMem room root f' t m' k) (hkept : Kept room j f s m f' t m') :
    UserTable room root f' t m' k trampoline trapframe where
  toProcMem := hproc
  frame := (hkept.map _ (Or.inr (Nat.le_refl _))).trans h.frame
  code := (hkept.map _ (Or.inr (Nat.le_succ _))).trans h.code
  beyond := fun p hp => (hkept.map p (Or.inr (by omega))).trans (h.beyond p hp)
  loose := fun j hj => (hkept.owner j (Or.inr hj)).trans (h.loose j hj)

/-- The page table is given back that maps the trampoline and nothing else. -/
theorem ProcMem.discard (h : ProcMem room root f s m 0)
    (hbeyond : ∀ p, topPage ≤ p → p ≠ topPage + 1 → m p = none)
    (hcode : m (topPage + 1) = some e) (hflags : e.flags ≠ PTE_V)
    (hloose : ∀ j, topPage ≤ j → f (.inr j) = 0) :
    Ends (do
      Vm.uvmunmap root TRAMPOLINE 1 false
      Vm.uvmfree root 0
      return 0) s (fun r t => r = 0 ∧ Returned room s t) fun _ _ => False := by
  refine (h.toMaps.unmapPage (by decide) (by decide) hcode hflags).bind ?_
  rintro - t ⟨hmaps, hconfined⟩
  rw [trampoline_page] at hmaps
  have hproc := h.of_maps hmaps fun p hp => Function.update_of_ne (by omega) _ _
  refine (hproc.uvmfree (Nat.zero_le _) (fun p hp => ?_) hloose).bind fun _ u hu =>
    ⟨rfl, hconfined.trans hu.toConfined, hu.pages⟩
  by_cases hlast : p = topPage + 1
  · rw [hlast, Function.update_self]
  · rw [Function.update_of_ne hlast]
    exact hbeyond p hp hlast

/-- **`proc_pagetable`** makes a page table, or leaves nothing behind. -/
theorem Pages.procPagetable (h : Pages room (fun _ => 0) s) (hcode : trampoline < 2 ^ 64)
    (hframe : trapframe < 2 ^ 64) :
    Ends (Vm.procPagetable trampoline trapframe) s
      (fun r t => r = 0 ∧ Returned room s t ∨ r ≠ 0 ∧ Confined room s t ∧
        ∃ f m, UserTable room r f t m 0 trampoline trapframe)
      fun _ _ => False := by
  unfold Vm.procPagetable
  refine (h.uvmcreate fun _ => rfl).bind ?_
  rintro x t (⟨rfl, hdenied⟩ | ⟨hx, hk, hmaps⟩)
  · exact Or.inl ⟨rfl, hdenied.confined, h.congr hdenied.freelist hdenied.kernelEnd⟩
  · rw [if_neg hx]
    have hconfined := hk.confined h
    refine (hmaps.mapOne (a := TRAMPOLINE) (by decide) (by decide) hcode (by decide) rfl).bind ?_
    rintro r u ⟨f₁, hgrows, hr⟩
    have hleaf : ∀ j, f₁ (.inr j) = 0 := fun j =>
      (hgrows.leaf j).trans (Function.update_of_ne (by simp) _ _)
    rcases hr with ⟨rfl, hmaps₁⟩ | ⟨rfl, hmaps₁⟩
    · rw [if_neg (by decide)]
      rw [trampoline_page] at hmaps₁
      have hconfined₁ := hconfined.trans (hgrows.confined hmaps₁.toPages)
      refine (hmaps₁.mapOne (a := TRAPFRAME) (by decide) (by decide) hframe (by decide) ?_).bind ?_
      · exact Function.update_of_ne (by decide) _ _
      · rintro r v ⟨f₂, hgrows₂, hr⟩
        have hleaf₂ : ∀ j, f₂ (.inr j) = 0 := fun j => (hgrows₂.leaf j).trans (hleaf j)
        rcases hr with ⟨rfl, hmaps₂⟩ | ⟨rfl, hmaps₂⟩
        · rw [if_neg (by decide)]
          rw [trapframe_page] at hmaps₂
          refine Or.inr ⟨hx, hconfined₁.trans (hgrows₂.confined hmaps₂.toPages), f₂, _,
            ⟨⟨hmaps₂, Nat.zero_le _, nofun, fun p _ hp => ⟨?_, hleaf₂ p⟩⟩, ?_, ?_, fun p hp => ?_,
              fun j _ => hleaf₂ j⟩⟩
          · rw [Function.update_of_ne (by omega), Function.update_of_ne (by omega)]
          · exact Function.update_self _ _ _
          · rw [Function.update_of_ne (by decide), Function.update_self]
          · rw [Function.update_of_ne (by omega), Function.update_of_ne (by omega)]
        · rw [if_pos (by decide)]
          have hconfined₂ := hconfined₁.trans (hgrows₂.confined hmaps₂.toPages)
          have hproc : ProcMem room x f₂ v _ 0 := ⟨hmaps₂, Nat.zero_le _, nofun, fun p _ hp =>
            ⟨Function.update_of_ne (by omega) _ _, hleaf₂ p⟩⟩
          refine (hproc.discard (fun p _ hp => Function.update_of_ne hp _ _)
            (Function.update_self _ _ _) code_flags fun j _ => hleaf₂ j).post ?_
          rintro r w ⟨rfl, hw⟩
          exact Or.inl ⟨rfl, hconfined₂.trans hw.toConfined, hw.pages⟩
    · rw [if_pos (by decide)]
      have hconfined₁ := hconfined.trans (hgrows.confined hmaps₁.toPages)
      have hproc : ProcMem room x f₁ u (fun _ => none) (PGROUNDUP 0 / PGSIZE) :=
        ⟨hmaps₁, Nat.zero_le _, nofun, fun p _ _ => ⟨rfl, hleaf p⟩⟩
      refine (hproc.uvmfree (Nat.zero_le _) (fun _ _ => rfl) fun j _ => hleaf j).bind ?_
      rintro - w hw
      exact Or.inl ⟨rfl, hconfined₁.trans hw.toConfined, hw.pages⟩

/-- **`proc_freepagetable`** gives back a page table and all that belongs to it. -/
theorem UserTable.procFreepagetable
    (h : UserTable room root f s m (PGROUNDUP sz / PGSIZE) trampoline trapframe)
    (hsz : sz ≤ TRAPFRAME) :
    Ends (Vm.procFreepagetable root sz) s (fun _ t => Returned room s t) fun _ _ => False := by
  unfold Vm.procFreepagetable
  refine (h.toMaps.unmapPage (by decide) (by decide) h.code code_flags).bind ?_
  rintro - t ⟨hmaps, hconfined⟩
  rw [trampoline_page] at hmaps
  have hframe : Function.update m (topPage + 1) none (TRAPFRAME / PGSIZE) =
      some (.make trapframe (PTE_R ||| PTE_W)) :=
    (Function.update_of_ne (by decide) _ _).trans h.frame
  refine (hmaps.unmapPage (by decide) (by decide) hframe frame_flags).bind ?_
  rintro - u ⟨hmaps', hconfined'⟩
  rw [trapframe_page] at hmaps'
  have hproc := h.toProcMem.of_maps hmaps' fun p hp => by
    rw [Function.update_of_ne (by omega), Function.update_of_ne (by omega)]
  refine (hproc.uvmfree hsz (fun p hp => ?_) h.loose).post fun _ v hv => ?_
  · by_cases hfirst : p = topPage
    · rw [hfirst, Function.update_self]
    · rw [Function.update_of_ne hfirst]
      by_cases hlast : p = topPage + 1
      · rw [hlast, Function.update_self]
      · rw [Function.update_of_ne hlast]
        exact h.beyond p (by omega)
  · exact ⟨(hconfined.trans hconfined').trans hv.toConfined, hv.pages⟩

end Vm
