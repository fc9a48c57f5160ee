import OSN.Vm.Tree

/-!
# `walk`

`walk` comes to the table of level 0 for the page number of `va`, and to the entry there
that its last digit names.  With `alloc` it adds the tables that are missing, as far as
there are free pages.
-/

namespace Vm

open Xv6 (PGSIZE MAXVA)

variable {room : Nat → Prop} {root : Nat} {f f' : Owner → Nat} {s t : Ram} {l q va v vpn : Nat}

/-- The address of the entry for `va`. -/
def entryAddr (f : Owner → Nat) (va : Nat) : Nat :=
  f (.inl (0, va / PGSIZE / 512)) + 8 * (va / PGSIZE % 512)

namespace Tree

/-- No table without the one above. -/
theorem absent (h : Tree room root f s) (hl : l < 2) (hparent : f (.inl (l + 1, q / 512)) = 0) :
    f (.inl (l, q)) = 0 := by
  have hchild := h.child l hl q
  rw [word, if_pos hparent] at hchild
  by_contra hne
  have hV := pointer_and_V (a := f (.inl (l, q)))
  rw [← hchild] at hV
  exact hne (hV.mp (Nat.zero_and _))

theorem absent_below (h : Tree room root f s) (hl : l ≤ 2)
    (hnone : f (.inl (l, vpn / 512 ^ (l + 1))) = 0) : f (.inl (0, vpn / 512)) = 0 := by
  induction l with
  | zero => simpa using hnone
  | succ l ih =>
      refine ih (by omega) (h.absent (by omega) ?_)
      rw [Nat.div_div_eq_div_mul, ← Nat.pow_succ]
      exact hnone

/-- What `walk` reads in an inner table. -/
theorem load_child (h : Tree room root f s) (hl : l < 2)
    (hne : f (.inl (l + 1, va / PGSIZE / 512 ^ (l + 1 + 1))) ≠ 0) :
    s.load (f (.inl (l + 1, va / PGSIZE / 512 ^ (l + 1 + 1))) + 8 * PX (l + 1) va) =
      pointer (f (.inl (l, va / PGSIZE / 512 ^ (l + 1)))) := by
  have hchild := h.child l hl (va / PGSIZE / 512 ^ (l + 1))
  rw [word, Nat.div_div_eq_div_mul, ← Nat.pow_succ, if_neg hne] at hchild
  rw [PX_eq, hchild]

/-- **The loop of `walk` without `alloc`.** -/
theorem walkFrom_finds (h : Tree room root f s) (hl : l ≤ 2)
    (hne : f (.inl (l, va / PGSIZE / 512 ^ (l + 1))) ≠ 0) :
    Ends (walkFrom va false l (f (.inl (l, va / PGSIZE / 512 ^ (l + 1))))) s
      (fun pte t => t = s ∧
        pte = if f (.inl (0, va / PGSIZE / 512)) = 0 then 0 else entryAddr f va)
      fun _ _ => False := by
  induction l with
  | zero =>
      rw [Nat.zero_add, Nat.pow_one] at hne ⊢
      rw [if_neg hne, walkFrom, PX_eq, Nat.pow_zero, Nat.div_one]
      exact ⟨rfl, rfl⟩
  | succ l ih =>
      have hload := h.load_child (by omega) hne
      unfold walkFrom load
      rw [Ends.bind_iff, Ends.get_bind_iff, Ends.pure_iff, hload]
      by_cases hnone : f (.inl (l, va / PGSIZE / 512 ^ (l + 1))) = 0
      · rw [if_neg (not_not.mpr (pointer_and_V.mpr hnone)), if_pos rfl]
        exact ⟨rfl, (if_pos (h.absent_below (by omega) hnone)).symm⟩
      · rw [if_pos (fun hV => hnone (pointer_and_V.mp hV)), PTE2PA_pointer (h.lt _) (h.dvd _) hnone]
        exact ih (by omega) hnone

/-- **The loop of `walk` with `alloc`.** -/
theorem walkFrom_extends (h : Tree room root f s) (hl : l ≤ 2)
    (hne : f (.inl (l, va / PGSIZE / 512 ^ (l + 1))) ≠ 0) :
    Ends (walkFrom va true l (f (.inl (l, va / PGSIZE / 512 ^ (l + 1))))) s
      (fun pte t => ∃ f', Extended room root f s f' t ∧
        (pte = 0 ∨ f' (.inl (0, va / PGSIZE / 512)) ≠ 0 ∧ pte = entryAddr f' va))
      fun _ _ => False := by
  induction l generalizing f s with
  | zero =>
      rw [Nat.zero_add, Nat.pow_one] at hne ⊢
      rw [walkFrom, PX_eq, Nat.pow_zero, Nat.div_one]
      exact ⟨f, ⟨.refl, h, fun _ => rfl⟩, Or.inr ⟨hne, rfl⟩⟩
  | succ l ih =>
      have hload := h.load_child (by omega) hne
      unfold walkFrom load
      rw [Ends.bind_iff, Ends.get_bind_iff, Ends.pure_iff, hload]
      by_cases hnone : f (.inl (l, va / PGSIZE / 512 ^ (l + 1))) = 0
      · rw [if_neg (not_not.mpr (pointer_and_V.mpr hnone)), if_neg (by decide)]
        refine (kalloc_ends h.freeList).bind ?_
        rintro x t (⟨rfl, hdenied⟩ | ⟨hx, hk⟩)
        · have hmem : ∀ a, t.mem a = s.mem a := congrFun hdenied.mem
          exact ⟨f, ⟨⟨fun _ _ => rfl, fun _ => rfl, fun y hy => hdenied.freelist ▸ hy,
            hdenied.kernelEnd, fun a _ => hmem a⟩,
            h.congr hdenied.freelist hdenied.kernelEnd fun a _ => hmem a,
            h.word_congr (fun a _ => hmem a) 0⟩, Or.inl rfl⟩
        · have hdigits : va / PGSIZE / 512 ^ (l + 1) / 512 = va / PGSIZE / 512 ^ (l + 1 + 1) := by
            rw [Nat.div_div_eq_div_mul, ← Nat.pow_succ]
          have hparent : f (.inl (l + 1, va / PGSIZE / 512 ^ (l + 1) / 512)) ≠ 0 := by
            rwa [hdigits]
          have hlink := h.link (by omega) hparent hnone hx hk
          have hpointer : PA2PTE x ||| PTE_V = pointer x := by
            rw [pointer, if_neg hx]
            exact PA2PTE_or (by decide)
          have hkey : Function.update f (.inl (l, va / PGSIZE / 512 ^ (l + 1))) x
              (.inl (l, va / PGSIZE / 512 ^ (l + 1))) = x := Function.update_self _ _ _
          rw [if_neg hx]
          unfold memset store
          rw [Ends.modify_bind_iff, Ends.modify_bind_iff, hpointer, PX_eq]
          rw [hdigits] at hlink
          have hrest := ih hlink.tree (by omega) (hkey.symm ▸ hx)
          rw [hkey] at hrest
          refine hrest.post ?_
          rintro pte u ⟨f', hext, hpte⟩
          exact ⟨f', hlink.trans hext, hpte⟩
      · rw [if_pos (fun hV => hnone (pointer_and_V.mp hV)), PTE2PA_pointer (h.lt _) (h.dvd _) hnone]
        exact ih h (by omega) hnone

theorem root_eq (h : Tree room root f s) (hva : va < MAXVA) :
    f (.inl (2, va / PGSIZE / 512 ^ (2 + 1))) = root := by
  rw [h.top, if_pos]
  unfold MAXVA at hva
  unfold PGSIZE
  omega

/-- **`walk` without `alloc`.** -/
theorem walk_finds (h : Tree room root f s) (hva : va < MAXVA) :
    Ends (walk root va false) s
      (fun pte t => t = s ∧
        pte = if f (.inl (0, va / PGSIZE / 512)) = 0 then 0 else entryAddr f va)
      fun _ _ => False := by
  have hroot := h.root_eq hva
  have hwalk := h.walkFrom_finds (Nat.le_refl 2) (hroot ▸ h.root_ne)
  rw [hroot] at hwalk
  rw [walk, if_neg (Nat.not_le.mpr hva)]
  exact hwalk

/-- **`walk` with `alloc`.** -/
theorem walk_extends (h : Tree room root f s) (hva : va < MAXVA) :
    Ends (walk root va true) s
      (fun pte t => ∃ f', Extended room root f s f' t ∧
        (pte = 0 ∨ f' (.inl (0, va / PGSIZE / 512)) ≠ 0 ∧ pte = entryAddr f' va))
      fun _ _ => False := by
  have hroot := h.root_eq hva
  have hwalk := h.walkFrom_extends (Nat.le_refl 2) (hroot ▸ h.root_ne)
  rw [hroot] at hwalk
  rw [walk, if_neg (Nat.not_le.mpr hva)]
  exact hwalk

/-- What is read of the entry for `va`. -/
theorem load_entry (hne : f (.inl (0, va / PGSIZE / 512)) ≠ 0) :
    s.load (entryAddr f va) = word s f 0 (va / PGSIZE) := by
  rw [word, if_neg hne]
  rfl

/-- **The entry for a page is written.** -/
theorem store_entry (h : Tree room root f s) (hne : f (.inl (0, va / PGSIZE / 512)) ≠ 0)
    (hv : v < 2 ^ 64) :
    Tree room root f (s.store (entryAddr f va) v) ∧
      (∀ vpn, word (s.store (entryAddr f va) v) f 0 vpn =
        if vpn = va / PGSIZE then v else word s f 0 vpn) ∧
      ∀ a, ¬ InTable f a → (s.store (entryAddr f va) v).mem a = s.mem a := by
  have hword := h.word_store hne hv
  have hpages : Pages room f (s.store (entryAddr f va) v) := h.toPages.congr rfl rfl
  refine ⟨{ hpages, h with child := fun l hl q => ?_ }, fun vpn => ?_,
    fun a ha => h.inTable_slot hne ha⟩
  · refine (hword (l + 1) q).trans ?_
    rw [if_neg (fun hboth => Nat.succ_ne_zero l hboth.1)]
    exact h.child l hl q
  · refine (hword 0 vpn).trans ?_
    simp only [true_and]

/-- **`walkaddr`** reads the entry for the page, and changes nothing. -/
theorem walkaddr_reads (h : Tree room root f s) (hva : va < MAXVA) :
    Ends (walkaddr root va) s
      (fun pa t => t = s ∧ pa =
        if word s f 0 (va / PGSIZE) &&& PTE_V = 0 then 0
        else if word s f 0 (va / PGSIZE) &&& PTE_U = 0 then 0
        else PTE2PA (word s f 0 (va / PGSIZE)))
      fun _ _ => False := by
  unfold walkaddr load
  rw [if_neg (Nat.not_le.mpr hva)]
  refine (h.walk_finds hva).bind ?_
  rintro pte s ⟨rfl, rfl⟩
  by_cases hne : f (.inl (0, va / PGSIZE / 512)) = 0
  · rw [if_pos hne, if_pos rfl, word, if_pos hne, Nat.zero_and, if_pos rfl]
    exact ⟨rfl, rfl⟩
  · have haddr : entryAddr f va ≠ 0 := by
      unfold entryAddr
      omega
    rw [if_neg hne, if_neg haddr, Ends.bind_iff, Ends.get_bind_iff, Ends.pure_iff, load_entry hne]
    split
    · exact ⟨rfl, rfl⟩
    · split
      · exact ⟨rfl, rfl⟩
      · exact ⟨rfl, rfl⟩

end Tree

end Vm
