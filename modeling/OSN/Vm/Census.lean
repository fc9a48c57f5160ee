import OSN.Vm.ProcRuns

/-!
# No page is lost

The pages of a process are read off its page table, as the hardware does it: its trapframe,
the tables, and what is mapped below the trapframe, for the user or not.  Whatever the
processes do, a page that was free at the start is free or has one process that it belongs to.
-/

namespace Vm

open Xv6 (PGSIZE MAXVA UserMem Slot)

attribute [local irreducible] freewalk

/-- What the translation of `va` comes to in `d` steps: a table, and the page at last. -/
def tableAt (s : Ram) (root va : Nat) : Nat → Nat
  | 0 => root
  | d + 1 =>
      let x := tableAt s root va d
      if x = 0 then 0
      else
        let entry := s.load (x + 8 * PX (2 - d) va)
        if entry &&& PTE_V = 0 then 0 else PTE2PA entry

/-- **The process has the page**: it is its trapframe, a table, or mapped.  The hardware
translates the addresses of 39 bits. -/
def Has (s : Ram) (sp : Space) (x : Nat) : Prop :=
  x ≠ 0 ∧ (x = sp.trapframe ∨
    ∃ va < 2 ^ 39, (∃ d ≤ 2, tableAt s sp.pagetable va d = x) ∨
      va < TRAPFRAME ∧ tableAt s sp.pagetable va 3 = x)

variable {all room : Nat → Prop} {trampoline trapframe root n va vpn d l q x : Nat} {w : Sys}
  {s : Ram} {f : Slot → Owner → Nat} {g : Owner → Nat} {m : Slot → PageMap} {m₁ : PageMap}
  {a : Ideal} {i j : Slot} {o : Owner} {sp : Space} {u : User}

/-! ### The tables of a page table -/

/-- **The translation goes down the tree.** -/
theorem Tree.tableAt (h : Tree room root g s) (hva : va < 2 ^ 39) (hd : d ≤ 2) :
    Vm.tableAt s root va d = g (.inl (2 - d, va / PGSIZE / 512 ^ (2 - d + 1))) := by
  induction d with
  | zero =>
      refine ((h.top _).trans (if_pos ?_)).symm
      unfold PGSIZE
      omega
  | succ d ih =>
      obtain ⟨l, hl⟩ : ∃ l, 2 - d = l + 1 := ⟨1 - d, by omega⟩
      have hl' : 2 - (d + 1) = l := by omega
      have habove := ih (by omega)
      rw [hl] at habove
      rw [Vm.tableAt, habove, hl, hl']
      dsimp only
      by_cases hparent : g (.inl (l + 1, va / PGSIZE / 512 ^ (l + 1 + 1))) = 0
      · rw [if_pos hparent]
        refine (h.absent (by omega) ?_).symm
        rw [Nat.div_div_eq_div_mul, ← Nat.pow_succ]
        exact hparent
      · rw [if_neg hparent, h.load_child (by omega) hparent]
        by_cases hchild : g (.inl (l, va / PGSIZE / 512 ^ (l + 1))) = 0
        · rw [if_pos (pointer_and_V.mpr hchild), hchild]
        · rw [if_neg (mt pointer_and_V.mp hchild), PTE2PA_pointer (h.lt _) (h.dvd _) hchild]

/-- A table has its ancestors. -/
theorem Tree.parent (h : Tree room root g s) (hl : l < 2) (hne : g (.inl (l, q)) ≠ 0) :
    g (.inl (l + 1, q / 512)) ≠ 0 := mt (h.absent hl) hne

/-- There is an address whose translation comes to the table. -/
theorem Tree.table_lt (h : Tree room root g s) (hne : g (.inl (l, q)) ≠ 0) :
    l ≤ 2 ∧ q * 512 ^ (l + 1) * PGSIZE < 2 ^ 39 := by
  have hl : l ≤ 2 := Nat.le_of_not_lt fun hlt => hne (h.high l q hlt)
  refine ⟨hl, ?_⟩
  have hroot : ∀ q', g (.inl (2, q')) ≠ 0 → q' = 0 := fun q' hq' => by
    by_contra hzero
    exact hq' ((h.top q').trans (if_neg hzero))
  unfold PGSIZE
  interval_cases l
  · have hzero := hroot _ (h.parent (by decide) (h.parent (by decide) hne))
    omega
  · have hzero := hroot _ (h.parent (by decide) hne)
    omega
  · rw [hroot q hne]
    decide

theorem page_of_prefix (q l : Nat) :
    q * 512 ^ (l + 1) * PGSIZE / PGSIZE / 512 ^ (l + 1) = q := by
  rw [Nat.mul_div_cancel _ (by decide), Nat.mul_div_cancel _ (Nat.pow_pos (by decide))]

/-- **The translation comes to the page that is mapped.** -/
theorem Maps.tableAt (h : Maps room root g s m₁) (hva : va < 2 ^ 39) :
    Vm.tableAt s root va 3 = ((m₁ (va / PGSIZE)).map Mapping.pa).getD 0 := by
  have hword := h.entries (va / PGSIZE)
  unfold word at hword
  have htable := h.toTree.tableAt hva (Nat.le_refl 2)
  rw [Nat.sub_self, Nat.zero_add, Nat.pow_one] at htable
  rw [Vm.tableAt, htable, PX_eq, Nat.sub_self, Nat.pow_zero, Nat.div_one]
  dsimp only
  by_cases hnone : g (.inl (0, va / PGSIZE / 512)) = 0
  · rw [if_pos hnone] at hword ⊢
    have hm : m₁ (va / PGSIZE) = none := Mapping.encode_and_V.mp (hword ▸ Nat.zero_and _)
    rw [hm]
    rfl
  · rw [if_neg hnone] at hword ⊢
    rw [hword]
    cases hm : m₁ (va / PGSIZE) with
    | none => exact if_pos (Nat.zero_and _)
    | some e =>
        rw [if_neg fun hV => by simpa using Mapping.encode_and_V.mp hV, Mapping.PTE2PA_encode]
        rfl

/-- **What a process has** is what it owns. -/
theorem UserTable.has_iff (h : UserTable room sp.pagetable g s m₁ n trampoline sp.trapframe) :
    Has s sp x ↔ x ≠ 0 ∧ (x = sp.trapframe ∨ ∃ o, g o = x) := by
  refine and_congr_right fun hne => or_congr_right ⟨?_, ?_⟩
  · rintro ⟨va, hva, ⟨d, hd, rfl⟩ | ⟨hlow, rfl⟩⟩
    · exact ⟨_, (h.toTree.tableAt hva hd).symm⟩
    · rw [h.toMaps.tableAt hva] at hne ⊢
      cases hm : m₁ (va / PGSIZE) with
      | none =>
          rw [hm] at hne
          exact absurd rfl hne
      | some e =>
          have hpage : va / PGSIZE < topPage := by
            unfold topPage
            exact (Nat.div_lt_iff_lt_mul (by decide)).mpr hlow
          have hn : va / PGSIZE < n := Nat.lt_of_not_le fun hle => by
            rw [(h.none_above _ hle hpage).1] at hm
            cases hm
          obtain ⟨e', he', -, -, hown⟩ := h.pages _ hn
          obtain rfl := Option.some.inj (hm.symm.trans he')
          exact ⟨_, hown⟩
  · rintro ⟨⟨l, q⟩ | p, rfl⟩
    · obtain ⟨hl, hlt⟩ := h.toTree.table_lt hne
      refine ⟨_, hlt, Or.inl ⟨2 - l, Nat.sub_le 2 l, ?_⟩⟩
      rw [h.toTree.tableAt hlt (Nat.sub_le 2 l), show 2 - (2 - l) = l by omega, page_of_prefix]
    · have htop : p < topPage := Nat.lt_of_not_le fun hle => hne (h.loose p hle)
      have hn : p < n := Nat.lt_of_not_le fun hle => hne (h.none_above p hle htop).2
      obtain ⟨e, hm, -, -, hown⟩ := h.pages p hn
      have hlow : p * PGSIZE < TRAPFRAME := by
        have hle : (p + 1) * PGSIZE ≤ topPage * PGSIZE := Nat.mul_le_mul_right _ htop
        have heq : topPage * PGSIZE = TRAPFRAME := by decide
        rw [heq, Nat.succ_mul] at hle
        exact Nat.lt_of_lt_of_le (Nat.lt_add_of_pos_right (by decide)) hle
      have hva : p * PGSIZE < 2 ^ 39 := Nat.lt_trans hlow (by decide)
      refine ⟨_, hva, Or.inr ⟨hlow, ?_⟩⟩
      rw [h.toMaps.tableAt hva, Nat.mul_div_cancel _ (by decide), hm, hown]
      rfl

/-- A slot without pages has none. -/
theorem NoPages.has (h : NoPages sp g) : ¬ Has s sp x := by
  have hnone : ∀ va d, tableAt s sp.pagetable va d = 0 := by
    intro va d
    induction d with
    | zero => exact h.pagetable
    | succ d ih =>
        rw [tableAt]
        exact if_pos ih
  rintro ⟨hne, rfl | ⟨va, -, ⟨d, -, rfl⟩ | ⟨-, rfl⟩⟩⟩
  · exact hne h.trapframe
  · exact hne (hnone va d)
  · exact hne (hnone va 3)

/-! ### The pages of the machine -/

namespace Hosts

/-- What a slot has. -/
theorem has_iff (h : Hosts all trampoline w f m a) :
    Has w.ram (w.space i) x ↔ x ≠ 0 ∧ ∃ o, tenant w.frame f (i, o) = x := by
  have hsplit : (∃ o, tenant w.frame f (i, o) = x) ↔ x = (w.space i).trapframe ∨ ∃ o, f i o = x := by
    constructor
    · rintro ⟨_ | o, rfl⟩
      · exact Or.inl rfl
      · exact Or.inr ⟨o, rfl⟩
    · rintro (rfl | ⟨o, rfl⟩)
      · exact ⟨none, rfl⟩
      · exact ⟨some o, rfl⟩
  rw [hsplit]
  by_cases hunused : (w.kernel.proc i).state = .unused
  · have hnone := (h.slot i).unused hunused
    refine iff_of_false hnone.has ?_
    rintro ⟨hne, rfl | ⟨o, rfl⟩⟩
    · exact hne hnone.trapframe
    · exact hne (hnone.pages o)
  · exact ((h.slot i).used hunused).view.toUserTable.has_iff

/-- **The pages are those that are free and those of the processes**, each with one process. -/
theorem census (h : Hosts all trampoline w f m a) :
    (∀ x, all x ↔ x ∈ w.ram.freelist ∨ ∃ i, Has w.ram (w.space i) x) ∧
      (∀ i x, Has w.ram (w.space i) x → x ∉ w.ram.freelist) ∧
      ∀ i j x, Has w.ram (w.space i) x → Has w.ram (w.space j) x → i = j := by
  refine ⟨fun x => ⟨fun hall => ?_, ?_⟩, fun i x hhas => ?_, fun i j x hhas hhas' => ?_⟩
  · by_cases hfree : x ∈ w.ram.freelist
    · exact Or.inl hfree
    · obtain ⟨⟨i, o⟩, ho⟩ := (h.estate.tenancy.taken_iff hall).mp hfree
      exact Or.inr ⟨i, h.has_iff.mpr ⟨h.estate.tenancy.ne_zero hall, o, ho⟩⟩
  · rintro (hfree | ⟨i, hhas⟩)
    · exact h.estate.free x hfree
    · obtain ⟨hne, o, rfl⟩ := h.has_iff.mp hhas
      exact h.estate.tenancy.inRoom hne
  · obtain ⟨hne, o, rfl⟩ := h.has_iff.mp hhas
    exact h.estate.tenancy.lives hne
  · obtain ⟨hne, o, ho⟩ := h.has_iff.mp hhas
    obtain ⟨-, o', ho'⟩ := h.has_iff.mp hhas'
    exact congrArg Prod.fst (h.estate.tenancy.alone (ho ▸ hne) (ho.trans ho'.symm))

end Hosts

end Vm

namespace Processes

open Vm (Sys Op Reply Blank Has)

variable {trampoline : Nat} {w start : Sys} {past : Past Sys (Op × Reply)}

/-- **No page is lost, and none has two owners.** -/
theorem pages_conserved (hblank : Blank start) (hcode : trampoline < 2 ^ 64)
    (run : Run (procs trampoline start) past w) :
    w.ram.freelist.Nodup ∧
      (∀ x, x ∈ start.ram.freelist ↔
        x ∈ w.ram.freelist ∨ ∃ i, Has w.ram (w.space i) x) ∧
      (∀ i x, Has w.ram (w.space i) x →
        x ∉ w.ram.freelist ∧ (w.kernel.proc i).state ≠ .unused) ∧
      ∀ i j x, Has w.ram (w.space i) x → Has w.ram (w.space j) x → i = j := by
  obtain ⟨a, -, f, m, hhosts⟩ := (simulates hblank hcode).run run
  obtain ⟨hall, hfree, hone⟩ := hhosts.census
  exact ⟨hhosts.estate.nodup, hall, fun i x hhas =>
    ⟨hfree i x hhas, fun hunused => ((hhosts.slot i).unused hunused).has hhas⟩, hone⟩

theorem pages_conserved_forked : forkedSys.ram.freelist.Nodup ∧
    ∀ x ∈ blankSys.ram.freelist, x ∈ forkedSys.ram.freelist ∨
      ∃ i, Has forkedSys.ram (forkedSys.space i) x := by
  obtain ⟨hnodup, hall, -⟩ := pages_conserved blankSys_blank (by decide) forkedSys_run
  exact ⟨hnodup, fun x hx => (hall x).mp hx⟩

end Processes
