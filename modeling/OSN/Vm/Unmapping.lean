import OSN.Vm.Mappages

/-!
# `uvmunmap`, `uvmclear` and `uvmdealloc`

`g` names, page number by page number, the owners of the pages that are freed.  No page is
named twice, so each is freed once.
-/

namespace Vm

open Xv6 (PGSIZE MAXVA)

variable {room : Nat → Prop} {root : Nat} {f f' f₁ f₂ : Owner → Nat} {s t s₁ s₂ : Ram} {m : PageMap}
  {a va vpn j stop fuel lo hi : Nat} {g : Nat → Nat} {out out' : Nat → Prop} {e : Mapping}
  {doFree : Bool}

/-- Owners give their pages back; apart from these pages, only tables change. -/
structure Freed (f : Owner → Nat) (s : Ram) (out : Nat → Prop) (f' : Owner → Nat) (t : Ram) :
    Prop where
  table : ∀ k, f' (.inl k) = f (.inl k)
  gone : ∀ j, out j → f' (.inr j) = 0
  kept : ∀ j, ¬ out j → f' (.inr j) = f (.inr j)
  kernelEnd : t.kernelEnd = s.kernelEnd
  mem : ∀ b, ¬ InTable f b → (∀ j, out j → f (.inr j) ≠ 0 → f (.inr j) ≠ PGROUNDDOWN b) →
    t.mem b = s.mem b

namespace Freed

theorem refl (h : ∀ j, ¬ out j) : Freed f s out f s :=
  ⟨fun _ => rfl, fun j hj => absurd hj (h j), fun _ _ => rfl, rfl, fun _ _ _ => rfl⟩

theorem inTable_iff (h : Freed f s out f' t) {b : Nat} : InTable f' b ↔ InTable f b := by
  unfold InTable
  simp only [h.table]

theorem trans (h : Freed f s out f₁ s₁) (h' : Freed f₁ s₁ out' f₂ s₂) :
    Freed f s (fun j => out j ∨ out' j) f₂ s₂ where
  table := fun k => (h'.table k).trans (h.table k)
  gone := by
    rintro j (hj | hj)
    · by_cases hout : out' j
      · exact h'.gone j hout
      · exact (h'.kept j hout).trans (h.gone j hj)
    · exact h'.gone j hj
  kept := by
    intro j hj
    rw [not_or] at hj
    exact (h'.kept j hj.2).trans (h.kept j hj.1)
  kernelEnd := h'.kernelEnd.trans h.kernelEnd
  mem := by
    intro b hb hout
    rw [h'.mem b (fun hin => hb (h.inTable_iff.mp hin)) fun j hj hne => ?_,
      h.mem b hb fun j hj => hout j (Or.inl hj)]
    have hkept : ¬ out j := fun hj' => hne (h.gone j hj')
    rw [h.kept j hkept] at hne ⊢
    exact hout j (Or.inr hj) hne

theorem of_iff (h : Freed f s out f' t) (hiff : ∀ j, out j ↔ out' j) : Freed f s out' f' t := by
  obtain rfl : out = out' := funext fun j => propext (hiff j)
  exact h

end Freed

/-- The pages from `lo` on, below `hi`, are mapped to pages of owners that `g` names. -/
structure Lent (f : Owner → Nat) (m : PageMap) (g : Nat → Nat) (lo hi : Nat) : Prop where
  owner : ∀ p, lo ≤ p → p < hi → ∀ e, m p = some e → e.pa ≠ 0 ∧ f (.inr (g p)) = e.pa
  inj : ∀ p q, lo ≤ p → p < hi → lo ≤ q → q < hi → g p = g q → p = q

/-- The pages from `a` on, below `stop`, are mapped. -/
def Leaves (m : PageMap) (a stop : Nat) : Prop :=
  stop ≤ MAXVA ∧ ∀ p, a / PGSIZE ≤ p → p < stop / PGSIZE → ∃ e, m p = some e ∧ e.flags ≠ PTE_V

/-- What `uvmunmap` has done when it returns. -/
structure Unmapped (room : Nat → Prop) (root : Nat) (f : Owner → Nat) (s : Ram) (m : PageMap)
    (a stop : Nat) (doFree : Bool) (g : Nat → Nat) (t : Ram) : Prop where
  unmapped : ∃ f', Maps room root f' t (m.erase (a / PGSIZE) (stop / PGSIZE - a / PGSIZE)) ∧
    Freed f s (fun j => doFree = true ∧ ∃ p, a / PGSIZE ≤ p ∧ p < stop / PGSIZE ∧ g p = j) f' t

theorem erase_one : m.erase vpn 1 = Function.update m vpn none := by
  funext p
  unfold PageMap.erase
  by_cases hp : p = vpn
  · rw [hp, Function.update_self, if_pos (by omega)]
  · rw [Function.update_of_ne hp, if_neg (by omega)]

theorem erase_of_ne {p : Nat} (hp : p ≠ vpn) : m.erase vpn 1 p = m p := by
  rw [erase_one, Function.update_of_ne hp]

/-- The first page has been freed. -/
theorem Lent.tail (h : Lent f m g lo hi) (hlt : lo < hi)
    (hfreed : Freed f s (fun j => doFree = true ∧ g lo = j) f' t) :
    Lent f' (m.erase lo 1) g (lo + 1) hi where
  owner := by
    intro p hp hp' e he
    rw [erase_of_ne (by omega)] at he
    rw [hfreed.kept (g p)]
    · exact h.owner p (by omega) hp' e he
    · rintro ⟨-, heq⟩
      have hfirst := h.inj lo p (Nat.le_refl _) hlt (by omega) hp' heq
      omega
  inj := fun p q hp hp' hq hq' => h.inj p q (by omega) hp' (by omega) hq'

theorem Leaves.tail (h : Leaves m a stop) : Leaves (m.erase (a / PGSIZE) 1) (a + PGSIZE) stop := by
  refine ⟨h.1, fun p hp hp' => ?_⟩
  rw [page_succ] at hp
  rw [erase_of_ne (by omega)]
  exact h.2 p (by omega) hp'

/-- **A page is unmapped**, when it has been freed or stays. -/
theorem Maps.unmapOne (h : Maps room root f s m) (hm : m (a / PGSIZE) = some e)
    (hfree : doFree = false ∧ t = s ∨
      doFree = true ∧ f (.inr j) ≠ 0 ∧ Kfreed s (f (.inr j)) t) :
    ∃ f', Maps room root f' (t.store (entryAddr f a) 0) (m.erase (a / PGSIZE) 1) ∧
      Freed f s (fun i => doFree = true ∧ j = i) f' (t.store (entryAddr f a) 0) := by
  have hne : f (.inl (0, a / PGSIZE / 512)) ≠ 0 :=
    h.table_of_some (by rw [hm]; exact Option.some_ne_none e)
  rw [erase_one]
  rcases hfree with ⟨rfl, rfl⟩ | ⟨rfl, hpa, hk⟩
  · refine ⟨f, h.store hne (e := none), fun _ => rfl, fun i hi => absurd hi.1 (by decide),
      fun _ _ => rfl, rfl, fun b hb _ => ?_⟩
    exact (h.toTree.store_entry hne (v := 0) (by decide)).2.2 b hb
  · have ht := h.give hpa hk
    have hsame : ∀ k, Function.update f (.inr j) 0 (.inl k) = f (.inl k) :=
      fun k => Function.update_of_ne (by simp) _ _
    have haddr : entryAddr (Function.update f (.inr j) 0) a = entryAddr f a := by
      unfold entryAddr
      rw [hsame]
    have hne' : Function.update f (.inr j) 0 (.inl (0, a / PGSIZE / 512)) ≠ 0 := by
      rwa [hsame]
    have hstored := ht.store hne' (e := none)
    have houtside := (ht.toTree.store_entry hne' (v := 0) (by decide)).2.2
    rw [haddr] at hstored houtside
    refine ⟨_, hstored, hsame, ?_, fun i hi => ?_, hk.kernelEnd, fun b hb hout => ?_⟩
    · rintro i ⟨-, rfl⟩
      exact Function.update_self _ _ _
    · exact Function.update_of_ne (fun heq => hi ⟨rfl, (Sum.inr.inj heq).symm⟩) _ _
    · refine (houtside b fun hin => hb ?_).trans (hk.mem b fun heq => ?_)
      · obtain ⟨hpage, k, hk'⟩ := hin
        exact ⟨hpage, k, hk' ▸ (hsame k).symm⟩
      · exact hout j ⟨rfl, rfl⟩ hpa heq.symm

/-- There is nothing to unmap. -/
theorem Maps.unmapNone (h : Maps room root f s m) (hnone : stop / PGSIZE ≤ a / PGSIZE) :
    Unmapped room root f s m a stop doFree g s := by
  refine ⟨f, ?_, Freed.refl ?_⟩
  · rw [Nat.sub_eq_zero_of_le hnone, PageMap.erase_zero]
    exact h
  · rintro j ⟨-, p, hp, hp', -⟩
    omega

/-- **The loop of `uvmunmap`.** -/
theorem Maps.unmapLoop (h : Maps room root f s m) (ha : PGSIZE ∣ a) (hstop : PGSIZE ∣ stop)
    (hown : doFree = true → Lent f m g (a / PGSIZE) (stop / PGSIZE))
    (hfuel : stop ≤ MAXVA → (stop - a) / PGSIZE < fuel) :
    Ends (unmapLoop root stop doFree fuel a) s
      (fun _ t => Unmapped room root f s m a stop doFree g t) fun _ _ => ¬ Leaves m a stop := by
  induction fuel generalizing f s m a with
  | zero => exact fun hleaves => absurd (hfuel hleaves.1) (Nat.not_lt_zero _)
  | succ fuel ih =>
      unfold Vm.unmapLoop
      by_cases hlt : a < stop
      · have hpages : a / PGSIZE < stop / PGSIZE := by
          unfold PGSIZE at *
          omega
        rw [if_pos hlt]
        by_cases hva : a < MAXVA
        · refine ((h.walk_finds hva).mono (fun _ _ hw => hw) fun _ _ hf => hf.elim).bind ?_
          rintro pte s ⟨rfl, rfl⟩
          cases hm : m (a / PGSIZE) with
          | none =>
              have hfail : ¬ Leaves m a stop := by
                rintro ⟨-, hall⟩
                obtain ⟨e, he, -⟩ := hall _ (Nat.le_refl _) hpages
                rw [hm] at he
                cases he
              by_cases hne : f (.inl (0, a / PGSIZE / 512)) = 0
              · rw [if_pos hne, if_pos rfl]
                exact hfail
              · have haddr : entryAddr f a ≠ 0 := by
                  unfold entryAddr
                  omega
                unfold load
                rw [if_neg hne, if_neg haddr, Ends.bind_iff, Ends.get_bind_iff, Ends.pure_iff,
                  Tree.load_entry hne, h.entries, hm, if_pos (Mapping.encode_and_V.mpr rfl)]
                exact hfail
          | some e =>
              have hne : f (.inl (0, a / PGSIZE / 512)) ≠ 0 :=
                h.table_of_some (by rw [hm]; exact Option.some_ne_none e)
              have haddr : entryAddr f a ≠ 0 := by
                unfold entryAddr
                omega
              unfold load
              rw [if_neg hne, if_neg haddr, Ends.bind_iff, Ends.get_bind_iff, Ends.pure_iff,
                Tree.load_entry hne, h.entries, hm,
                if_neg fun hV => absurd (Mapping.encode_and_V.mp hV) (Option.some_ne_none e),
                Mapping.PTE2PA_encode, Mapping.encode, PTE_FLAGS_entryOf e.flags_lt]
              split
              next hflags =>
                rintro ⟨-, hall⟩
                obtain ⟨e', he', hflags'⟩ := hall _ (Nat.le_refl _) hpages
                rw [hm] at he'
                exact hflags' (Option.some.inj he' ▸ hflags)
              next hflags =>
                have hgo : ∀ u f₁, Maps room root f₁ u (m.erase (a / PGSIZE) 1) →
                    Freed f s (fun i => doFree = true ∧ g (a / PGSIZE) = i) f₁ u →
                    Ends (Vm.unmapLoop root stop doFree fuel (a + PGSIZE)) u
                      (fun _ t => Unmapped room root f s m a stop doFree g t)
                      fun _ _ => ¬ Leaves m a stop := by
                  intro u f₁ h₁ hfreed₁
                  have hpage : (a + PGSIZE) / PGSIZE = a / PGSIZE + 1 := page_succ
                  refine (ih h₁ (Nat.dvd_add ha (Nat.dvd_refl _)) ?_ ?_).mono ?_ ?_
                  · intro hfree
                    rw [hpage]
                    exact (hown hfree).tail hpages hfreed₁
                  · intro hmax
                    have hold := hfuel hmax
                    unfold PGSIZE at *
                    omega
                  · rintro - t ⟨f₂, h₂, hfreed₂⟩
                    rw [hpage] at h₂ hfreed₂
                    refine ⟨f₂, ?_, (hfreed₁.trans hfreed₂).of_iff fun j => ?_⟩
                    · rw [show stop / PGSIZE - a / PGSIZE = stop / PGSIZE - (a / PGSIZE + 1) + 1 by
                        omega, PageMap.erase_succ]
                      exact h₂
                    · constructor
                      · rintro (⟨hfree, hj⟩ | ⟨hfree, p, hp, hp', hj⟩)
                        · exact ⟨hfree, _, Nat.le_refl _, hpages, hj⟩
                        · exact ⟨hfree, p, by omega, hp', hj⟩
                      · rintro ⟨hfree, p, hp, hp', hj⟩
                        rcases Nat.eq_or_lt_of_le hp with rfl | hlater
                        · exact Or.inl ⟨hfree, hj⟩
                        · exact Or.inr ⟨hfree, p, hlater, hp', hj⟩
                  · exact fun _ _ hfail hleaves => hfail hleaves.tail
                cases doFree with
                | false =>
                    obtain ⟨f₁, h₁, hfreed₁⟩ := h.unmapOne (j := g (a / PGSIZE)) hm
                      (Or.inl ⟨rfl, rfl⟩)
                    exact hgo _ f₁ h₁ hfreed₁
                | true =>
                    obtain ⟨hpa, hj⟩ := (hown rfl).owner _ (Nat.le_refl _) hpages e hm
                    rw [← hj] at hpa ⊢
                    refine ((kfree_ends (h.page hpa)).mono (fun _ _ hk => hk)
                      fun _ _ hf => hf.elim).bind fun _ t hk => ?_
                    obtain ⟨f₁, h₁, hfreed₁⟩ := h.unmapOne hm (Or.inr ⟨rfl, hpa, hk⟩)
                    exact hgo _ f₁ h₁ hfreed₁
        · rw [walk, if_pos (Nat.not_lt.mp hva)]
          rintro ⟨hmax, -⟩
          omega
      · rw [if_neg hlt]
        have hnone : stop / PGSIZE ≤ a / PGSIZE := Nat.div_le_div_right (Nat.not_lt.mp hlt)
        exact h.unmapNone hnone

/-- **`uvmunmap`.** -/
theorem Maps.uvmunmap (h : Maps room root f s m) (va npages : Nat) (doFree : Bool) (g : Nat → Nat)
    (hown : doFree = true →
      Lent f m g (va / PGSIZE) ((va + npages * PGSIZE) % 2 ^ 64 / PGSIZE)) :
    Ends (uvmunmap root va npages doFree) s
      (fun _ t => PGSIZE ∣ va ∧
        Unmapped room root f s m va ((va + npages * PGSIZE) % 2 ^ 64) doFree g t)
      fun _ _ => ¬ (PGSIZE ∣ va ∧ Leaves m va ((va + npages * PGSIZE) % 2 ^ 64)) := by
  unfold Vm.uvmunmap
  split
  next hodd => exact fun hok => hodd (Nat.mod_eq_zero_of_dvd hok.1)
  next heven =>
    have hva : PGSIZE ∣ va := Nat.dvd_of_mod_eq_zero (not_not.mp heven)
    have hstop : PGSIZE ∣ (va + npages * PGSIZE) % 2 ^ 64 :=
      (Nat.dvd_mod_iff (by decide)).mpr (Nat.dvd_add hva (Nat.dvd_mul_left _ _))
    refine (h.unmapLoop hva hstop hown ?_).mono (fun _ _ ht => ⟨hva, ht⟩)
      fun _ _ hfail hok => hfail hok.2
    intro hmax
    unfold passes
    unfold MAXVA PGSIZE at *
    omega

theorem PGSIZE_dvd_PGROUNDUP (sz : Nat) : PGSIZE ∣ PGROUNDUP sz := Nat.dvd_mul_left _ _

/-- **`uvmdealloc`** for a size that the address space has room for. -/
theorem Maps.uvmdealloc (h : Maps room root f s m) {oldsz newsz : Nat}
    (hmax : newsz < oldsz → PGROUNDUP newsz < PGROUNDUP oldsz → PGROUNDUP oldsz ≤ MAXVA)
    (hown : newsz < oldsz → Lent f m g (PGROUNDUP newsz / PGSIZE) (PGROUNDUP oldsz / PGSIZE)) :
    Ends (uvmdealloc root oldsz newsz) s
      (fun r t => oldsz ≤ newsz ∧ r = oldsz ∧ t = s ∨ newsz < oldsz ∧ r = newsz ∧
        Unmapped room root f s m (PGROUNDUP newsz) (PGROUNDUP oldsz) true g t)
      fun _ _ => newsz < oldsz ∧ ¬ Leaves m (PGROUNDUP newsz) (PGROUNDUP oldsz) := by
  unfold Vm.uvmdealloc
  split
  next hle => exact Or.inl ⟨hle, rfl, rfl⟩
  next hlt =>
    have hless := Nat.not_le.mp hlt
    split
    next hpages =>
      have hmax := hmax hless hpages
      have hnew := PGSIZE_dvd_PGROUNDUP newsz
      have hold := PGSIZE_dvd_PGROUNDUP oldsz
      have hstop : (PGROUNDUP newsz + (Int.bmod ((PGROUNDUP oldsz - PGROUNDUP newsz) / PGSIZE)
          (2 ^ 32) % 2 ^ 64).toNat * PGSIZE) % 2 ^ 64 = PGROUNDUP oldsz := by
        rw [Int.bmod_eq_of_le]
        all_goals
          unfold MAXVA PGSIZE at *
          omega
      have hunmap := h.uvmunmap (PGROUNDUP newsz) (Int.bmod
        ((PGROUNDUP oldsz - PGROUNDUP newsz) / PGSIZE) (2 ^ 32) % 2 ^ 64).toNat true g
      rw [hstop] at hunmap
      replace hunmap := hunmap fun _ => hown hless
      refine (hunmap.mono (fun _ _ ht => ht) fun _ _ hfail => ?_).bind ?_
      · exact ⟨hless, fun hleaves => hfail ⟨hnew, hleaves⟩⟩
      · rintro - t ⟨-, ht⟩
        exact Or.inr ⟨hless, rfl, ht⟩
    next hpages =>
      exact Or.inr ⟨hless, rfl, h.unmapNone (Nat.div_le_div_right (Nat.not_lt.mp hpages))⟩

/-- **`uvmclear`.** -/
theorem Maps.uvmclear (h : Maps room root f s m) :
    Ends (uvmclear root va) s
      (fun _ t => Maps room root f t (m.clear (va / PGSIZE)) ∧ t.freelist = s.freelist ∧
        t.kernelEnd = s.kernelEnd ∧ ∀ b, ¬ InTable f b → t.mem b = s.mem b)
      fun _ _ => va < MAXVA → m (va / PGSIZE) = none := by
  unfold Vm.uvmclear
  by_cases hva : va < MAXVA
  · refine ((h.walk_finds hva).mono (fun _ _ hw => hw) fun _ _ hf => hf.elim).bind ?_
    rintro pte s ⟨rfl, rfl⟩
    by_cases hne : f (.inl (0, va / PGSIZE / 512)) = 0
    · rw [if_pos hne, if_pos rfl]
      intro _
      by_contra hm
      exact h.table_of_some hm hne
    · have haddr : entryAddr f va ≠ 0 := by
        unfold entryAddr
        omega
      unfold load Vm.store
      rw [if_neg hne, if_neg haddr, Ends.bind_iff, Ends.get_bind_iff, Ends.pure_iff,
        Ends.modify_iff, Tree.load_entry hne, h.entries, ← Mapping.encode_clear]
      refine ⟨?_, rfl, rfl, (h.toTree.store_entry hne Mapping.encode_lt).2.2⟩
      have hclear : m.clear (va / PGSIZE) =
          Function.update m (va / PGSIZE) ((m (va / PGSIZE)).map Mapping.clear) := by
        funext p
        unfold PageMap.clear
        by_cases hp : p = va / PGSIZE
        · rw [hp, Function.update_self, if_pos rfl]
        · rw [Function.update_of_ne hp, if_neg hp]
      rw [hclear]
      exact h.store hne
  · rw [walk, if_pos (Nat.not_lt.mp hva)]
    exact fun hlt => absurd hlt hva

end Vm
