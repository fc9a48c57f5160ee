import OSN.Vm.Unmapping

/-!
# `freewalk`

`freewalk` gives back a table and all below it, when nothing is mapped by them any more.
The table of a level is freed last: until then its entries lead to the tables that are left.
-/

namespace Vm

open Xv6 (PGSIZE MAXVA)

-- the loop of `freewalk` is opened in one proof only
attribute [local irreducible] freewalk

variable {room : Nat → Prop} {root : Nat} {f f' f₁ : Owner → Nat} {s t s₁ : Ram} {m : PageMap}
  {l q l' q' j : Nat} {out : Nat → Nat → Prop}

/-- The table `(l', q')` is the table `(l, q)` or one below it. -/
inductive Below (l q : Nat) : Nat → Nat → Prop
  | self : Below l q l q
  | step {l' q' : Nat} (h : Below l q (l' + 1) (q' / 512)) : Below l q l' q'

theorem Below.le (h : Below l q l' q') : l' ≤ l := by
  induction h with
  | self => exact Nat.le_refl l
  | step _ ih => exact Nat.le_of_succ_le ih

/-- **What is below a table** is the table, or below one of those that it leads to. -/
theorem below_succ_iff : Below (l + 1) q l' q' ↔
    l' = l + 1 ∧ q' = q ∨ ∃ j < 512, Below l (512 * q + j) l' q' := by
  constructor
  · intro h
    induction h with
    | self => exact Or.inl ⟨rfl, rfl⟩
    | @step l' q' _ ih =>
        rcases ih with ⟨hl, hq⟩ | ⟨j, hj, hbelow⟩
        · obtain rfl : l' = l := Nat.succ.inj hl
          refine Or.inr ⟨q' % 512, Nat.mod_lt _ (by decide), ?_⟩
          rw [← hq, Nat.div_add_mod]
          exact .self
        · exact Or.inr ⟨j, hj, .step hbelow⟩
  · rintro (⟨rfl, rfl⟩ | ⟨j, hj, hbelow⟩)
    · exact .self
    · induction hbelow with
      | self =>
          refine .step ?_
          rw [Nat.mul_add_div (by decide), Nat.div_eq_of_lt hj, Nat.add_zero]
          exact .self
      | step _ ih => exact .step ih

theorem below_zero_iff : Below 0 q l' q' ↔ l' = 0 ∧ q' = q := by
  constructor
  · intro h
    cases h with
    | self => exact ⟨rfl, rfl⟩
    | step h => exact absurd h.le (Nat.not_succ_le_zero _)
  · rintro ⟨rfl, rfl⟩
    exact .self

/-- The tables lead to each other, and map nothing. -/
structure Bare (room : Nat → Prop) (f : Owner → Nat) (s : Ram) : Prop extends Pages room f s where
  child : ∀ l < 2, ∀ q, word s f (l + 1) q = pointer (f (.inl (l, q)))
  empty : ∀ q, word s f 0 q = 0

theorem Maps.bare (h : Maps room root f s m) (hm : ∀ p, m p = none) : Bare room f s := by
  refine ⟨h.toPages, h.child, fun q => ?_⟩
  rw [h.entries, hm]
  rfl

/-- Tables have been given back, and nothing else has changed. -/
structure Pruned (out : Nat → Nat → Prop) (f : Owner → Nat) (s : Ram) (f' : Owner → Nat) (t : Ram) :
    Prop where
  gone : ∀ l q, out l q → f' (.inl (l, q)) = 0
  kept : ∀ l q, ¬ out l q → f' (.inl (l, q)) = f (.inl (l, q))
  leaf : ∀ j, f' (.inr j) = f (.inr j)
  kernelEnd : t.kernelEnd = s.kernelEnd

/-- Memory has changed in these tables only. -/
def OnlyIn (out : Nat → Nat → Prop) (f : Owner → Nat) (s t : Ram) : Prop :=
  ∀ b, (∀ l q, out l q → f (.inl (l, q)) ≠ 0 → f (.inl (l, q)) ≠ PGROUNDDOWN b) → t.mem b = s.mem b

/-- No table is left without the one above. -/
theorem Bare.absent (h : Bare room f s) (hl : l < 2) (hparent : f (.inl (l + 1, q / 512)) = 0) :
    f (.inl (l, q)) = 0 := by
  have hchild := h.child l hl q
  rw [word, if_pos hparent] at hchild
  by_contra hne
  have hV := pointer_and_V (a := f (.inl (l, q)))
  rw [← hchild] at hV
  exact hne (hV.mp (Nat.zero_and _))

theorem Bare.absent_below (h : Bare room f s) (hl : l ≤ 2) (hnone : f (.inl (l, q)) = 0)
    (hbelow : Below l q l' q') : f (.inl (l', q')) = 0 := by
  induction hbelow with
  | self => exact hnone
  | step hbelow ih => exact h.absent (Nat.lt_of_lt_of_le hbelow.le hl) ih

/-! ### One table -/

/-- The tables that the first `i` entries of a table lead to, and what is below them. -/
def Under (l q i l' q' : Nat) : Prop := ∃ j < i, ∃ k, l = k + 1 ∧ Below k (512 * q + j) l' q'

theorem below_iff : Below l q l' q' ↔ l' = l ∧ q' = q ∨ Under l q 512 l' q' := by
  unfold Under
  cases l with
  | zero =>
      rw [below_zero_iff]
      refine ⟨Or.inl, ?_⟩
      rintro (h | ⟨j, -, k, hk, -⟩)
      · exact h
      · cases hk
  | succ l =>
      rw [below_succ_iff]
      refine or_congr_right (exists_congr fun j => and_congr_right fun _ => ?_)
      exact ⟨fun h => ⟨l, rfl, h⟩, fun ⟨k, hk, h⟩ => Nat.succ.inj hk ▸ h⟩

theorem Under.lt {i : Nat} (h : Under l q i l' q') : l' < l := by
  obtain ⟨j, -, k, rfl, hbelow⟩ := h
  exact Nat.lt_succ_of_le hbelow.le

theorem under_succ {i : Nat} : Under (l + 1) q (i + 1) l' q' ↔
    Under (l + 1) q i l' q' ∨ Below l (512 * q + i) l' q' := by
  constructor
  · rintro ⟨j, hj, k, hk, hbelow⟩
    obtain rfl := Nat.succ.inj hk
    rcases Nat.lt_succ_iff_lt_or_eq.mp hj with hlt | rfl
    · exact Or.inl ⟨j, hlt, l, rfl, hbelow⟩
    · exact Or.inr hbelow
  · rintro (⟨j, hj, hbelow⟩ | hbelow)
    · exact ⟨j, Nat.lt_succ_of_lt hj, hbelow⟩
    · exact ⟨i, Nat.lt_succ_self i, l, rfl, hbelow⟩

/-- What the loop of `freewalk` has done after `i` entries. -/
structure Freewalked (room : Nat → Prop) (f : Owner → Nat) (s : Ram) (l q i : Nat) (t : Ram) :
    Prop where
  pruned : ∃ f', Bare room f' t ∧ Pruned (Under l q i) f s f' t
  only : OnlyIn (Below l q) f s t

/-- What `freewalk` has done. -/
structure Gone (room : Nat → Prop) (f : Owner → Nat) (s : Ram) (l q : Nat) (t : Ram) : Prop where
  pruned : ∃ f', Pages room f' t ∧ Pruned (Below l q) f s f' t
  only : OnlyIn (Below l q) f s t

/-- **The table itself** is freed at the end. -/
theorem Freewalked.last (h : Freewalked room f s l q 512 t) (hne : f (.inl (l, q)) ≠ 0) :
    Ends (kfree (f (.inl (l, q)))) t (fun _ u => Gone room f s l q u) fun _ _ => False := by
  obtain ⟨⟨f', hbare, hgone, hkept, hleaf, hkernel⟩, honly⟩ := h
  have hself : f' (.inl (l, q)) = f (.inl (l, q)) := hkept l q fun hu => Nat.lt_irrefl l hu.lt
  have hne' : f' (.inl (l, q)) ≠ 0 := hself ▸ hne
  rw [← hself]
  refine (kfree_ends (hbare.page hne')).post fun _ u hk => ?_
  have hother : ∀ l' q', (l', q') ≠ (l, q) →
      Function.update f' (.inl (l, q)) 0 (.inl (l', q')) = f' (.inl (l', q')) :=
    fun l' q' hk' => Function.update_of_ne (fun heq => hk' (Sum.inl.inj heq)) _ _
  refine ⟨⟨_, hbare.give hne' hk.freelist hk.kernelEnd, fun l' q' hb => ?_, fun l' q' hb => ?_,
    fun j => ?_, hk.kernelEnd.trans hkernel⟩, fun b hb => ?_⟩
  · by_cases hkey : (l', q') = (l, q)
    · rw [hkey]
      exact Function.update_self _ _ _
    · rw [hother l' q' hkey]
      refine hgone l' q' ((below_iff.mp hb).resolve_left fun heq => hkey ?_)
      rw [heq.1, heq.2]
  · rw [below_iff, not_or] at hb
    rw [hother l' q' fun heq => hb.1 (Prod.mk.inj heq)]
    exact hkept l' q' hb.2
  · exact (Function.update_of_ne (by simp) _ _).trans (hleaf j)
  · rw [hk.mem b fun heq => hb l q .self hne (hself.symm.trans heq.symm)]
    exact honly b hb

/-- Writing to a table changes its page only. -/
theorem store_page {x v b : Nat} (hx : PGSIZE ∣ x) (hj : j < 512) (hb : PGROUNDDOWN b ≠ x) :
    (s.store (x + 8 * j) v).mem b = s.mem b := by
  rw [Ne, PGROUNDDOWN_eq hx] at hb
  refine Ram.store_outside ?_
  unfold PGSIZE at hb
  omega

theorem pointer_and_RWX {a : Nat} : pointer a &&& (PTE_R ||| PTE_W ||| PTE_X) = 0 := by
  unfold pointer
  split
  · exact Nat.zero_and _
  · refine Nat.eq_of_testBit_eq fun i => ?_
    rw [Nat.testBit_and, Nat.zero_testBit]
    by_cases hi : i < 10
    · have hbits : ∀ i < 10,
          (PTE_V.testBit i && (PTE_R ||| PTE_W ||| PTE_X).testBit i) = false := by
        decide
      rw [testBit_entryOf (by decide) hi]
      exact hbits i hi
    · have hhigh : (PTE_R ||| PTE_W ||| PTE_X).testBit i = false :=
        Nat.testBit_lt_two_pow (Nat.lt_of_lt_of_le (by decide) (Nat.pow_le_pow_right (by decide)
          (Nat.le_of_not_lt hi)))
      rw [hhigh, Bool.and_false]

/-! ### All tables -/

/-- A word of a table that is left. -/
theorem Gone.word_eq {f'' : Owner → Nat} {k p : Nat} (h : Bare room f' t)
    (hgone : Pruned (Below k p) f' t f'' s₁) (honly : OnlyIn (Below k p) f' t s₁)
    (hleft : ¬ Below k p l' (q' / 512)) : word s₁ f'' l' q' = word t f' l' q' := by
  refine h.word_local (hgone.kept l' _ hleft) fun a ha => honly a fun l₂ q₂ hb hne => ?_
  rw [ha]
  refine h.tenancy.apart (fun heq => ?_) hne
  obtain ⟨rfl, rfl⟩ := Prod.mk.inj (Sum.inl.inj heq)
  exact hleft hb

/-- **An entry is cleared** after the tables that it leads to have been given back. -/
theorem Bare.unlink {f'' : Owner → Nat} (h : Bare room f' t) (hl : l < 2)
    (hparent : f' (.inl (l + 1, q' / 512)) ≠ 0) (hpages : Pages room f'' s₁)
    (hgone : Pruned (Below l q') f' t f'' s₁) (honly : OnlyIn (Below l q') f' t s₁) :
    Bare room f'' (s₁.store (f' (.inl (l + 1, q' / 512)) + 8 * (q' % 512)) 0) := by
  have hself : f'' (.inl (l + 1, q' / 512)) = f' (.inl (l + 1, q' / 512)) :=
    hgone.kept _ _ fun hb => Nat.not_succ_le_self l hb.le
  have hstore := hpages.word_store (hself.symm ▸ hparent) (v := 0) (by decide)
  rw [hself] at hstore
  refine ⟨hpages.congr rfl rfl, fun l₁ hl₁ q₁ => ?_, fun q₁ => ?_⟩
  · rw [hstore]
    split
    next heq =>
      obtain ⟨hlevel, rfl⟩ := heq
      obtain rfl := Nat.succ.inj hlevel
      rw [hgone.gone _ _ .self]
      rfl
    next hother =>
      by_cases hb : Below l q' (l₁ + 1) (q₁ / 512)
      · rw [word, if_pos (hgone.gone _ _ hb), hgone.gone _ _ (.step hb)]
        rfl
      · rw [Gone.word_eq h hgone honly hb, h.child l₁ hl₁ q₁, hgone.kept l₁ q₁ fun hb' => ?_]
        cases hb' with
        | self => exact hother ⟨rfl, rfl⟩
        | step hb' => exact hb hb'
  · rw [hstore, if_neg fun heq => Nat.succ_ne_zero l heq.1.symm]
    by_cases hb : Below l q' 0 (q₁ / 512)
    · rw [word, if_pos (hgone.gone _ _ hb)]
    · rw [Gone.word_eq h hgone honly hb]
      exact h.empty q₁

/-- **One entry of the loop**, if what is called for the table of the entry gives it back. -/
theorem Freewalked.next {i : Nat} {sub : Nat → RamM Unit}
    (h : Freewalked room f s (l + 1) q i t) (hl : l < 2)
    (hi : i < 512) (hne : f (.inl (l + 1, q)) ≠ 0)
    (hsub : ∀ f' t, Bare room f' t → f' (.inl (l, 512 * q + i)) ≠ 0 →
      Ends (sub (f' (.inl (l, 512 * q + i)))) t
        (fun _ u => Gone room f' t l (512 * q + i) u) fun _ _ => False) :
    Ends (do
      let pte ← load (f (.inl (l + 1, q)) + 8 * i)
      if pte &&& PTE_V ≠ 0 ∧ pte &&& (PTE_R ||| PTE_W ||| PTE_X) = 0 then
        sub (PTE2PA pte)
        store (f (.inl (l + 1, q)) + 8 * i) 0
      else if pte &&& PTE_V ≠ 0 then throw "freewalk: leaf") t
      (fun _ u => Freewalked room f s (l + 1) q (i + 1) u) fun _ _ => False := by
  obtain ⟨⟨f', hbare, hpruned⟩, honly⟩ := h
  have hdiv : (512 * q + i) / 512 = q := by omega
  have hmod : (512 * q + i) % 512 = i := by omega
  have hself : f' (.inl (l + 1, q)) = f (.inl (l + 1, q)) :=
    hpruned.kept _ _ fun hu => Nat.lt_irrefl _ hu.lt
  have hload : t.load (f (.inl (l + 1, q)) + 8 * i) = pointer (f' (.inl (l, 512 * q + i))) := by
    have hchild := hbare.child l hl (512 * q + i)
    rw [word, hdiv, hmod, if_neg (hself.symm ▸ hne), hself] at hchild
    exact hchild
  unfold load
  rw [Ends.bind_iff, Ends.get_bind_iff, Ends.pure_iff, hload]
  by_cases hnone : f' (.inl (l, 512 * q + i)) = 0
  · rw [if_neg fun hV => hV.1 (pointer_and_V.mpr hnone),
      if_neg (not_not_intro (pointer_and_V.mpr hnone))]
    refine ⟨⟨f', hbare, fun l' q' hu => ?_, fun l' q' hu => ?_, hpruned.leaf, hpruned.kernelEnd⟩,
      honly⟩
    · rcases under_succ.mp hu with hu | hbelow
      · exact hpruned.gone l' q' hu
      · exact hbare.absent_below (Nat.le_of_lt hl) hnone hbelow
    · rw [under_succ, not_or] at hu
      exact hpruned.kept l' q' hu.1
  · rw [if_pos ⟨fun hV => hnone (pointer_and_V.mp hV), pointer_and_RWX⟩,
      PTE2PA_pointer (hbare.lt _) (hbare.dvd _) hnone]
    refine (hsub f' t hbare hnone).bind ?_
    rintro - u ⟨⟨f'', hpages, hgone⟩, honly'⟩
    have hunlink := hbare.unlink hl (hdiv.symm ▸ hself.symm ▸ hne) hpages hgone honly'
    rw [hdiv, hmod, hself] at hunlink
    refine ⟨⟨f'', hunlink, fun l' q' hu => ?_, fun l' q' hu => ?_,
      fun j => (hgone.leaf j).trans (hpruned.leaf j), hgone.kernelEnd.trans hpruned.kernelEnd⟩,
      fun b hb => ?_⟩
    · by_cases hbelow : Below l (512 * q + i) l' q'
      · exact hgone.gone l' q' hbelow
      · rw [hgone.kept l' q' hbelow]
        exact hpruned.gone l' q' ((under_succ.mp hu).resolve_right hbelow)
    · rw [under_succ, not_or] at hu
      rw [hgone.kept l' q' hu.2, hpruned.kept l' q' hu.1]
    · have hother : PGROUNDDOWN b ≠ f (.inl (l + 1, q)) := fun heq => hb _ _ .self hne heq.symm
      have hdvd : PGSIZE ∣ f (.inl (l + 1, q)) := hself ▸ hbare.dvd _
      rw [store_page hdvd hi hother, honly' b fun l' q' hbelow hne' => ?_]
      · exact honly b hb
      · by_cases hu : Under (l + 1) q i l' q'
        · exact absurd (hpruned.gone l' q' hu) hne'
        · rw [hpruned.kept l' q' hu] at hne' ⊢
          exact hb l' q' (below_succ_iff.mpr (Or.inr ⟨i, hi, hbelow⟩)) hne'

/-- An entry of a table of level 0. -/
theorem Freewalked.nextLeaf {i : Nat} {sub : Nat → RamM Unit} (h : Freewalked room f s 0 q i t)
    (hi : i < 512) (hne : f (.inl (0, q)) ≠ 0) :
    Ends (do
      let pte ← load (f (.inl (0, q)) + 8 * i)
      if pte &&& PTE_V ≠ 0 ∧ pte &&& (PTE_R ||| PTE_W ||| PTE_X) = 0 then
        sub (PTE2PA pte)
        store (f (.inl (0, q)) + 8 * i) 0
      else if pte &&& PTE_V ≠ 0 then throw "freewalk: leaf") t
      (fun _ u => Freewalked room f s 0 q (i + 1) u) fun _ _ => False := by
  obtain ⟨⟨f', hbare, hpruned⟩, honly⟩ := h
  have hdiv : (512 * q + i) / 512 = q := by omega
  have hmod : (512 * q + i) % 512 = i := by omega
  have hself : f' (.inl (0, q)) = f (.inl (0, q)) :=
    hpruned.kept _ _ fun hu => Nat.lt_irrefl _ hu.lt
  have hload : t.load (f (.inl (0, q)) + 8 * i) = 0 := by
    have hempty := hbare.empty (512 * q + i)
    rw [word, hdiv, hmod, if_neg (hself.symm ▸ hne), hself] at hempty
    exact hempty
  have hnever : ∀ i l' q', ¬ Under 0 q i l' q' := fun i l' q' hu => Nat.not_lt_zero _ hu.lt
  unfold load
  rw [Ends.bind_iff, Ends.get_bind_iff, Ends.pure_iff, hload, Nat.zero_and,
    if_neg fun hV => hV.1 rfl, if_neg (not_not_intro rfl)]
  exact ⟨⟨f', hbare, fun l' q' hu => absurd hu (hnever _ l' q'),
    fun l' q' _ => hpruned.kept l' q' (hnever i l' q'), hpruned.leaf, hpruned.kernelEnd⟩, honly⟩

theorem Freewalked.start (h : Bare room f s) : Freewalked room f s l q 0 s := by
  refine ⟨⟨f, h, ?_, fun _ _ _ => rfl, fun _ => rfl, rfl⟩, fun _ _ => rfl⟩
  rintro l' q' ⟨j, hj, -⟩
  exact absurd hj (Nat.not_lt_zero j)

set_option maxRecDepth 2000 in
/-- **`freewalk`** gives back the table and all below it. -/
theorem Bare.freewalk (h : Bare room f s) (hl : l ≤ 2) (hne : f (.inl (l, q)) ≠ 0) :
    Ends (freewalk (l + 1) (f (.inl (l, q)))) s (fun _ t => Gone room f s l q t)
      fun _ _ => False := by
  induction l generalizing f s q with
  | zero =>
      unfold Vm.freewalk
      refine (Ends.forM_range (Freewalked.start h) fun i hi t ht => ht.nextLeaf hi hne).bind ?_
      exact fun _ t ht => ht.last hne
  | succ l ih =>
      unfold Vm.freewalk
      refine (Ends.forM_range (Freewalked.start h) fun i hi t ht => ht.next hl hi hne ?_).bind ?_
      · exact fun f' t ht hne' => ih ht (Nat.le_of_succ_le hl) hne'
      · exact fun _ t ht => ht.last hne

/-- There are no tables but those below the root. -/
theorem Tree.below_root (h : Tree room root f s) {l q : Nat} (hne : f (.inl (l, q)) ≠ 0) :
    Below 2 0 l q := by
  by_cases hl : l < 2
  · exact .step (h.below_root fun hparent => hne (h.absent hl hparent))
  · by_cases htop : 2 < l
    · exact absurd (h.high l q htop) hne
    · obtain rfl : l = 2 := by omega
      rw [h.top] at hne
      obtain rfl : q = 0 := by
        by_contra hq
        exact hne (if_neg hq)
      exact .self
termination_by 2 - l

/-- A page table that maps nothing is freed. -/
theorem Maps.freewalk (h : Maps room root f s m) (hm : ∀ p, m p = none) :
    Ends (freewalk 3 root) s
      (fun _ t => ∃ f', Pages room f' t ∧ (∀ k, f' (.inl k) = 0) ∧
        (∀ j, f' (.inr j) = f (.inr j)) ∧ t.kernelEnd = s.kernelEnd ∧
        ∀ b, ¬ InTable f b → t.mem b = s.mem b)
      fun _ _ => False := by
  have hroot : f (.inl (2, 0)) = root := (h.top 0).trans (if_pos rfl)
  have hwalk := (h.bare hm).freewalk (Nat.le_refl 2) (hroot.symm ▸ h.root_ne)
  rw [hroot] at hwalk
  refine hwalk.post ?_
  rintro - t ⟨⟨f', hpages, hpruned⟩, honly⟩
  refine ⟨f', hpages, ?_, hpruned.leaf, hpruned.kernelEnd, fun b hb => honly b ?_⟩
  · rintro ⟨l, q⟩
    by_cases hbelow : Below 2 0 l q
    · exact hpruned.gone l q hbelow
    · rw [hpruned.kept l q hbelow]
      by_contra hne
      exact hbelow (h.toTree.below_root hne)
  · rintro l q - hne heq
    exact hb ⟨heq ▸ hne, (l, q), heq⟩

end Vm
