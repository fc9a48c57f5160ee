import OSN.Vm.Mapping

/-!
# `mappages`, `uvmunmap` and `uvmclear`

What the functions on the entries of a page table do to what it maps, to the pages that
somebody has and to the rest of the memory, and when they panic.
-/

namespace Vm

open Xv6 (PGSIZE MAXVA)

variable {room : Nat → Prop} {root : Nat} {f f' : Owner → Nat} {s t : Ram} {m : PageMap}
  {a va vpn j x l q last pa perm fuel stop : Nat}

/-! ### Pages that are no tables -/

/-- Words are in tables. -/
theorem word_leaf : word s (Function.update f (.inr j) x) l q = word s f l q := by
  unfold word
  rw [Function.update_of_ne (by simp)]

namespace Maps

/-- Only pages that are no tables change hands, and no table changes. -/
theorem leaf (h : Maps room root f s m) (hpages : Pages room (Function.update f (.inr j) x) t)
    (hmem : ∀ a, InTable f a → t.mem a = s.mem a) :
    Maps room root (Function.update f (.inr j) x) t m := by
  have hword : ∀ l q, word t (Function.update f (.inr j) x) l q = word s f l q := by
    intro l q
    rw [word_leaf]
    exact h.word_congr hmem l q
  have htable : ∀ k, Function.update f (.inr j) x (.inl k) = f (.inl k) :=
    fun k => Function.update_of_ne (by simp) _ _
  refine ⟨⟨hpages, h.root_ne, fun q => ?_, fun l q hl => ?_, fun l hl q => ?_⟩, fun vpn => ?_⟩
  · rw [htable]
    exact h.top q
  · rw [htable]
    exact h.high l q hl
  · rw [hword, htable]
    exact h.child l hl q
  · rw [hword]
    exact h.entries vpn

/-- **A page is allocated** for something else than a table. -/
theorem take (h : Maps room root f s m) (hk : Kalloced s x t) (hj : f (.inr j) = 0) :
    Maps room root (Function.update f (.inr j) x) t m := by
  refine h.leaf (h.toPages.take hk.freelist hk.kernelEnd hj) fun a ha => hk.mem a ?_
  obtain ⟨-, k, hk'⟩ := ha
  rw [← hk']
  exact h.ne_free (hk.freelist ▸ List.mem_cons_self) _

/-- **And it is freed.** -/
theorem give (h : Maps room root f s m) (hj : f (.inr j) ≠ 0) (hk : Kfreed s (f (.inr j)) t) :
    Maps room root (Function.update f (.inr j) 0) t m := by
  refine h.leaf (h.toPages.give hj hk.freelist hk.kernelEnd) fun a ha => hk.mem a ?_
  obtain ⟨hne, k, hk'⟩ := ha
  rw [← hk'] at hne ⊢
  exact h.tenancy.apart (by simp) hne

/-- What is not in a table may change. -/
theorem congr (h : Maps room root f s m) (hfree : t.freelist = s.freelist)
    (hkernel : t.kernelEnd = s.kernelEnd) (hmem : ∀ a, InTable f a → t.mem a = s.mem a) :
    Maps room root f t m :=
  ⟨h.toTree.congr hfree hkernel hmem, fun vpn => (h.word_congr hmem 0 vpn).trans (h.entries vpn)⟩

end Maps

/-! ### `mappages` -/

/-- What the loop of `mappages` has done when it returns `r`. -/
structure Mapped (room : Nat → Prop) (root : Nat) (f : Owner → Nat) (s : Ram) (m : PageMap)
    (a last pa perm : Nat) (r : Int) (t : Ram) : Prop where
  mapped : ∃ f' k, Grows f s f' t ∧ Maps room root f' t (m.insert (a / PGSIZE) pa perm k) ∧
    (∀ p, a / PGSIZE ≤ p → p < a / PGSIZE + k → m p = none) ∧
    (r = 0 ∧ 0 < k ∧ last + PGSIZE = a + k * PGSIZE ∨ r = -1 ∧ (a ≤ last → a + k * PGSIZE ≤ last))

/-- The pages from `a` to `last` are not mapped, and `walk` finds them. -/
def Vacant (m : PageMap) (a last : Nat) : Prop :=
  a ≤ last ∧ last < MAXVA ∧ ∀ p, a / PGSIZE ≤ p → p ≤ last / PGSIZE → m p = none

theorem insert_one : m.insert vpn pa perm 1 = Function.update m vpn (some (.make pa perm)) := by
  funext p
  unfold PageMap.insert
  by_cases hp : p = vpn
  · rw [hp, Function.update_self, if_pos (by omega), Nat.sub_self, Nat.zero_mul, Nat.add_zero]
  · rw [Function.update_of_ne hp, if_neg (by omega)]

theorem page_succ : (a + PGSIZE) / PGSIZE = a / PGSIZE + 1 := Nat.add_div_right a (by decide)

/-- **The loop of `mappages`.** -/
theorem Maps.mapLoop (h : Maps room root f s m) (ha : PGSIZE ∣ a) (hlast : PGSIZE ∣ last)
    (hpa : pa < 2 ^ 64) (hperm : perm < 1024)
    (hfuel : a ≤ last → last < MAXVA → (last - a) / PGSIZE < fuel) :
    Ends (mapLoop root last perm fuel a pa) s (fun r t => Mapped room root f s m a last pa perm r t)
      fun _ _ => ¬ Vacant m a last := by
  induction fuel generalizing f s m a pa with
  | zero =>
      rintro ⟨hle, hlt, -⟩
      exact absurd (hfuel hle hlt) (Nat.not_lt_zero _)
  | succ fuel ih =>
      unfold Vm.mapLoop
      by_cases hva : a < MAXVA
      · refine Ends.bind ((h.walk_extends hva).mono (fun _ _ hw => hw) fun _ _ hf => hf.elim) ?_
        rintro pte s₁ ⟨f₁, hext, hpte⟩
        have h₁ := hext.maps h
        rcases hpte with rfl | ⟨hne, rfl⟩
        · rw [if_pos rfl]
          refine ⟨f₁, 0, hext.toGrows, ?_, fun p hp hlt => by omega, Or.inr ⟨rfl, by simp⟩⟩
          rw [PageMap.insert_zero]
          exact h₁
        · have haddr : entryAddr f₁ a ≠ 0 := by
            unfold entryAddr
            omega
          rw [if_neg haddr]
          unfold load
          rw [Ends.bind_iff, Ends.get_bind_iff, Ends.pure_iff, Tree.load_entry hne, h₁.entries]
          by_cases hnone : m (a / PGSIZE) = none
          · rw [if_neg (not_not.mpr (Mapping.encode_and_V.mpr hnone)),
              ← Mapping.encode_make hpa hperm]
            have h₂ := h₁.store hne (e := some (.make pa perm))
            rw [← insert_one] at h₂
            have hgrows : Grows f s f₁
                (s₁.store (entryAddr f₁ a) (Mapping.encode (some (.make pa perm)))) :=
              hext.toGrows.trans ⟨fun _ _ => rfl, fun _ => rfl, fun _ hy => hy, rfl,
                (h₁.toTree.store_entry hne Mapping.encode_lt).2.2⟩
            unfold Vm.store
            rw [Ends.modify_bind_iff]
            split
            next heq =>
              exact ⟨f₁, 1, hgrows, h₂, fun p hp hlt => by rwa [show p = a / PGSIZE by omega],
                Or.inl ⟨rfl, Nat.one_pos, by rw [Nat.one_mul, heq]⟩⟩
            next hmore =>
              have hnext : a ≤ last → a + PGSIZE ≤ last := by
                unfold PGSIZE at *
                omega
              refine (ih h₂ (Nat.dvd_add ha (Nat.dvd_refl _)) (Nat.mod_lt _ (by decide)) ?_).mono ?_ ?_
              · intro hle hlt
                have hold := hfuel (by omega) hlt
                unfold PGSIZE at *
                omega
              · rintro r t ⟨f₂, k, hgrows₂, h₃, hvacant, hr⟩
                rw [page_succ] at h₃ hvacant
                refine ⟨f₂, k + 1, hgrows.trans hgrows₂, ?_, fun p hp hlt => ?_, ?_⟩
                · rw [PageMap.insert_succ]
                  exact h₃
                · by_cases hfirst : p = a / PGSIZE
                  · rwa [hfirst]
                  · have hrest := hvacant p (by omega) (by omega)
                    rwa [insert_one, Function.update_of_ne hfirst] at hrest
                · rw [Nat.succ_mul]
                  rcases hr with ⟨hr, -, hsum⟩ | ⟨hr, hshort⟩
                  · exact Or.inl ⟨hr, Nat.succ_pos k, by omega⟩
                  · exact Or.inr ⟨hr, fun hle => by have := hshort (hnext hle); omega⟩
              · rintro e t hfail ⟨hle, hlt, hvacant⟩
                refine hfail ⟨hnext hle, hlt, fun p hp hle' => ?_⟩
                rw [page_succ] at hp
                rw [insert_one, Function.update_of_ne (by omega)]
                exact hvacant p (by omega) hle'
          · rw [if_pos (fun hV => hnone (Mapping.encode_and_V.mp hV))]
            rintro ⟨hle, -, hvacant⟩
            exact hnone (hvacant _ (Nat.le_refl _) (Nat.div_le_div_right hle))
      · rw [walk, if_pos (Nat.not_lt.mp hva)]
        rintro ⟨hle, hlt, -⟩
        omega

/-- **`mappages`.** -/
theorem Maps.mappages (h : Maps room root f s m) (va size : Nat) (hpa : pa < 2 ^ 64)
    (hperm : perm < 1024) :
    Ends (mappages root va size pa perm) s
      (fun r t => Mapped room root f s m (PGROUNDDOWN va) (PGROUNDDOWN ((va + size - 1) % 2 ^ 64))
        pa perm r t)
      fun _ _ => ¬ (0 < size ∧
        Vacant m (PGROUNDDOWN va) (PGROUNDDOWN ((va + size - 1) % 2 ^ 64))) := by
  unfold Vm.mappages
  split
  next hzero => exact fun hok => by omega
  next =>
    refine (h.mapLoop (Nat.dvd_mul_left _ _) (Nat.dvd_mul_left _ _) hpa hperm ?_).mono
      (fun _ _ hm => hm) fun _ _ hfail hok => hfail hok.2
    intro hle hlt
    unfold passes
    unfold PGROUNDDOWN MAXVA PGSIZE at *
    omega

end Vm
