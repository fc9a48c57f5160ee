import OSN.Lib.Tenancy
import OSN.Vm.Entries

/-!
# The tree of a page table

The pages of the memory that somebody has are the tables of a page table and others.  A
table is known by its level and by the digits of the page numbers that lead to it; each
of its entries is a word with such a name too.  That no page has two owners keeps the
words apart: what is written to one of them is read from no other.
-/

namespace Vm

open Xv6 (PGSIZE MAXVA)

/-- What has a page: the table of a level for a prefix of page numbers, or another. -/
abbrev Owner := (Nat × Nat) ⊕ Nat

/-- The word that entry `q` of a level is; the last digit of `q` is its index. -/
def word (s : Ram) (f : Owner → Nat) (level q : Nat) : Nat :=
  if f (.inl (level, q / 512)) = 0 then 0
  else s.load (f (.inl (level, q / 512)) + 8 * (q % 512))

/-- The pages `room` are the free ones and those that somebody has. -/
structure Pages (room : Nat → Prop) (f : Owner → Nat) (s : Ram) : Prop where
  nodup : s.freelist.Nodup
  kernel : 0 < s.kernelEnd
  isPage : ∀ {x}, room x → IsPage s x
  free : ∀ x ∈ s.freelist, room x
  tenancy : Tenancy room (· ∉ s.freelist) f

/-- **A page table** with its root. -/
structure Tree (room : Nat → Prop) (root : Nat) (f : Owner → Nat) (s : Ram) : Prop
    extends Pages room f s where
  root_ne : root ≠ 0
  top : ∀ q, f (.inl (2, q)) = if q = 0 then root else 0
  high : ∀ l q, 2 < l → f (.inl (l, q)) = 0
  child : ∀ l < 2, ∀ q, word s f (l + 1) q = pointer (f (.inl (l, q)))

/-- The address lies in a table. -/
def InTable (f : Owner → Nat) (a : Nat) : Prop :=
  PGROUNDDOWN a ≠ 0 ∧ ∃ k, f (.inl k) = PGROUNDDOWN a

variable {room : Nat → Prop} {root : Nat} {f f' : Owner → Nat} {s t : Ram} {l q l' q' x v a : Nat}
  {i : Owner}

namespace Pages

theorem freeList (h : Pages room f s) : FreeList s :=
  ⟨h.nodup, fun x hx => h.isPage (h.free x hx), h.kernel⟩

theorem page (h : Pages room f s) (hi : f i ≠ 0) : IsPage s (f i) := h.isPage (h.tenancy.inRoom hi)

theorem dvd (h : Pages room f s) (i : Owner) : PGSIZE ∣ f i := by
  by_cases hi : f i = 0
  · rw [hi]
    exact Nat.dvd_zero _
  · exact (h.page hi).aligned

theorem lt (h : Pages room f s) (i : Owner) : f i < 2 ^ 64 := by
  by_cases hi : f i = 0
  · rw [hi]
    decide
  · have hstop := (h.page hi).stop
    unfold PHYSTOP at hstop
    omega

/-- A free page is nobody's. -/
theorem ne_free (h : Pages room f s) (hx : x ∈ s.freelist) (i : Owner) : f i ≠ x :=
  h.tenancy.vacant (h.free x hx) (not_not.mpr hx) i

/-- Only what memory holds changes. -/
theorem congr (h : Pages room f s) (hfree : t.freelist = s.freelist)
    (hkernel : t.kernelEnd = s.kernelEnd) : Pages room f t := by
  refine ⟨hfree ▸ h.nodup, hkernel ▸ h.kernel, fun hx => ?_, hfree ▸ h.free, hfree ▸ h.tenancy⟩
  have hpage := h.isPage hx
  exact ⟨hpage.aligned, hkernel ▸ hpage.start, hpage.stop⟩

/-- **An owner takes a page** from the list. -/
theorem take (h : Pages room f s) (hfree : s.freelist = x :: t.freelist)
    (hkernel : t.kernelEnd = s.kernelEnd) (hi : f i = 0) :
    Pages room (Function.update f i x) t := by
  have hx : x ∈ s.freelist := hfree ▸ List.mem_cons_self
  have hnodup := h.nodup
  rw [hfree, List.nodup_cons] at hnodup
  refine ⟨hnodup.2, hkernel ▸ h.kernel, fun hy => ?_, fun y hy => ?_, ?_⟩
  · have hpage := h.isPage hy
    exact ⟨hpage.aligned, hkernel ▸ hpage.start, hpage.stop⟩
  · exact h.free y (hfree ▸ List.mem_cons_of_mem x hy)
  · refine h.tenancy.moveIn (h.free x hx) (not_not.mpr hx) hi fun c _ => ?_
    rw [hfree, List.mem_cons]
    by_cases hc : c = x
    · subst hc
      simp [hnodup.1]
    · simp [hc]

/-- **An owner gives a page back.** -/
theorem give (h : Pages room f s) (hi : f i ≠ 0)
    (hfree : t.freelist = f i :: s.freelist) (hkernel : t.kernelEnd = s.kernelEnd) :
    Pages room (Function.update f i 0) t := by
  refine ⟨?_, hkernel ▸ h.kernel, fun hy => ?_, fun y hy => ?_, ?_⟩
  · rw [hfree, List.nodup_cons]
    exact ⟨h.tenancy.lives hi, h.nodup⟩
  · have hpage := h.isPage hy
    exact ⟨hpage.aligned, hkernel ▸ hpage.start, hpage.stop⟩
  · rw [hfree, List.mem_cons] at hy
    rcases hy with rfl | hy
    · exact h.tenancy.inRoom hi
    · exact h.free y hy
  · refine h.tenancy.moveOut hi fun c _ => ?_
    rw [hfree, List.mem_cons, not_or, and_comm]

/-! ### Words -/

/-- The place of a word. -/
theorem slot (h : Pages room f s) (l q : Nat) :
    8 ∣ f (.inl (l, q / 512)) + 8 * (q % 512) ∧
      ∀ j < 8, PGROUNDDOWN (f (.inl (l, q / 512)) + 8 * (q % 512) + j) = f (.inl (l, q / 512)) := by
  have hdvd := h.dvd (.inl (l, q / 512))
  unfold PGROUNDDOWN PGSIZE at *
  constructor
  · omega
  · intro j hj
    omega

/-- Words have their places to themselves. -/
theorem slot_inj (h : Pages room f s) (hne : f (.inl (l, q / 512)) ≠ 0)
    (heq : f (.inl (l, q / 512)) + 8 * (q % 512) = f (.inl (l', q' / 512)) + 8 * (q' % 512)) :
    l = l' ∧ q = q' := by
  have hdvd := h.dvd (.inl (l, q / 512))
  have hdvd' := h.dvd (.inl (l', q' / 512))
  have hpage : f (.inl (l, q / 512)) = f (.inl (l', q' / 512)) := by
    unfold PGSIZE at *
    omega
  have hkey := Sum.inl.inj (h.tenancy.alone hne hpage)
  have hq : q / 512 = q' / 512 := congrArg Prod.snd hkey
  exact ⟨congrArg Prod.fst hkey, by omega⟩

/-- A table that holds what it held. -/
theorem word_local (h : Pages room f s)
    (hsame : f' (.inl (l, q / 512)) = f (.inl (l, q / 512)))
    (hmem : ∀ a, PGROUNDDOWN a = f (.inl (l, q / 512)) → t.mem a = s.mem a) :
    word t f' l q = word s f l q := by
  unfold word
  rw [hsame]
  split
  · rfl
  next => exact Ram.load_congr fun j hj => hmem _ ((h.slot l q).2 j hj)

/-- The tables hold what they held. -/
theorem word_congr (h : Pages room f s)
    (hmem : ∀ a, InTable f a → t.mem a = s.mem a) (l q : Nat) : word t f l q = word s f l q := by
  by_cases hne : f (.inl (l, q / 512)) = 0
  · rw [word, word, if_pos hne, if_pos hne]
  · exact h.word_local rfl fun a ha => hmem a ⟨ha ▸ hne, _, ha.symm⟩

/-- **A word is written.** -/
theorem word_store (h : Pages room f s) (hne : f (.inl (l, q / 512)) ≠ 0) (hv : v < 2 ^ 64)
    (l' q' : Nat) : word (s.store (f (.inl (l, q / 512)) + 8 * (q % 512)) v) f l' q' =
      if l' = l ∧ q' = q then v else word s f l' q' := by
  split
  next heq =>
    obtain ⟨rfl, rfl⟩ := heq
    rw [word, if_neg hne, Ram.load_store hv]
  next hother =>
    unfold word
    split
    · rfl
    next hne' =>
      refine Ram.load_store_ne (h.slot l q).1 (h.slot l' q').1 fun heq => ?_
      exact hother (h.slot_inj hne' heq)

/-- Where the word is written. -/
theorem inTable_slot (h : Pages room f s) (hne : f (.inl (l, q / 512)) ≠ 0) {a : Nat}
    (ha : ¬ InTable f a) :
    (s.store (f (.inl (l, q / 512)) + 8 * (q % 512)) v).mem a = s.mem a := by
  refine Ram.store_outside ?_
  by_contra hin
  obtain ⟨j, rfl⟩ := Nat.exists_eq_add_of_le
    (show f (.inl (l, q / 512)) + 8 * (q % 512) ≤ a by omega)
  have hslot := (h.slot l q).2 j (by omega)
  refine ha ⟨?_, _, hslot.symm⟩
  rw [hslot]
  exact hne

end Pages

/-! ### New tables -/

/-- There are perhaps more tables; nothing else has changed hands, and what has changed is
in the tables. -/
structure Grows (f : Owner → Nat) (s : Ram) (f' : Owner → Nat) (t : Ram) : Prop where
  keeps : ∀ i, f i ≠ 0 → f' i = f i
  leaf : ∀ j, f' (.inr j) = f (.inr j)
  free : ∀ y ∈ t.freelist, y ∈ s.freelist
  kernelEnd : t.kernelEnd = s.kernelEnd
  mem : ∀ a, ¬ InTable f' a → t.mem a = s.mem a

/-- The tree has perhaps more tables, and maps what it mapped. -/
structure Extended (room : Nat → Prop) (root : Nat) (f : Owner → Nat) (s : Ram) (f' : Owner → Nat)
    (t : Ram) : Prop extends Grows f s f' t where
  tree : Tree room root f' t
  word0 : ∀ vpn, word t f' 0 vpn = word s f 0 vpn

section Growth

variable {f₁ f₂ : Owner → Nat} {s₁ s₂ : Ram}

theorem Grows.refl : Grows f s f s :=
  ⟨fun _ _ => rfl, fun _ => rfl, fun _ hy => hy, rfl, fun _ _ => rfl⟩

theorem Grows.inTable (h : Grows f s f₁ s₁) {a : Nat} (ha : InTable f a) : InTable f₁ a := by
  obtain ⟨hne, k, hk⟩ := ha
  exact ⟨hne, k, (h.keeps (.inl k) (hk ▸ hne)).trans hk⟩

theorem Grows.trans (h : Grows f s f₁ s₁) (h' : Grows f₁ s₁ f₂ s₂) : Grows f s f₂ s₂ where
  keeps := by
    intro i hi
    have hsame := h.keeps i hi
    rw [h'.keeps i (hsame ▸ hi), hsame]
  leaf := fun j => (h'.leaf j).trans (h.leaf j)
  free := fun y hy => h.free y (h'.free y hy)
  kernelEnd := h'.kernelEnd.trans h.kernelEnd
  mem := by
    intro a ha
    rw [h'.mem a ha, h.mem a fun hin => ha (h'.inTable hin)]

theorem Extended.trans (h : Extended room root f s f₁ s₁) (h' : Extended room root f₁ s₁ f₂ s₂) :
    Extended room root f s f₂ s₂ :=
  ⟨h.toGrows.trans h'.toGrows, h'.tree, fun vpn => (h'.word0 vpn).trans (h.word0 vpn)⟩

end Growth

/-- Memory that has not changed. -/
theorem Tree.congr (h : Tree room root f s) (hfree : t.freelist = s.freelist)
    (hkernel : t.kernelEnd = s.kernelEnd) (hmem : ∀ a, InTable f a → t.mem a = s.mem a) :
    Tree room root f t :=
  { h.toPages.congr hfree hkernel, h with
    child := fun l hl q => (h.word_congr hmem (l + 1) q).trans (h.child l hl q) }

/-- A new table, with nothing in it. -/
theorem Pages.newTable (h : Pages room f s) (hk : Kalloced s x t) (hx : x ≠ 0)
    (hzero : f (.inl (l, q)) = 0) :
    Pages room (Function.update f (.inl (l, q)) x) (t.memset x 0 PGSIZE) ∧
      ∀ l' q', word (t.memset x 0 PGSIZE) (Function.update f (.inl (l, q)) x) l' q' =
        word s f l' q' := by
  have hnew := h.take hk.freelist hk.kernelEnd hzero
  have hmemset : Pages room (Function.update f (.inl (l, q)) x) (t.memset x 0 PGSIZE) :=
    hnew.congr rfl rfl
  refine ⟨hmemset, fun l' q' => ?_⟩
  have hslot := (hmemset.slot l' q').2
  have haligned := hmemset.dvd (.inl (l', q' / 512))
  by_cases hkey : (l', q' / 512) = (l, q)
  · rw [word, word, hkey, Function.update_self, if_neg hx, hzero, if_pos rfl]
    refine Ram.load_zero fun j hj => if_pos ?_
    unfold PGSIZE
    omega
  · have hne : (Sum.inl (l', q' / 512) : Owner) ≠ .inl (l, q) := fun heq => hkey (Sum.inl.inj heq)
    unfold word
    rw [Function.update_of_ne hne] at hslot haligned ⊢
    split
    · rfl
    next hthere =>
      refine Ram.load_congr fun j hj => ?_
      have hpage : PGROUNDDOWN (f (.inl (l', q' / 512)) + 8 * (q' % 512) + j) ≠ x := by
        rw [hslot j hj]
        exact h.ne_free (hk.freelist ▸ List.mem_cons_self) _
      refine Eq.trans (if_neg ?_) (hk.mem _ hpage)
      rw [← PGROUNDDOWN_eq (h.isPage (h.free x (hk.freelist ▸ List.mem_cons_self))).aligned]
      exact hpage

/-- **A new table is linked** to the one above. -/
theorem Tree.link (h : Tree room root f s) (hl : l < 2) (hparent : f (.inl (l + 1, q / 512)) ≠ 0)
    (hzero : f (.inl (l, q)) = 0) (hx : x ≠ 0) (hk : Kalloced s x t) :
    Extended room root f s (Function.update f (.inl (l, q)) x)
      ((t.memset x 0 PGSIZE).store (f (.inl (l + 1, q / 512)) + 8 * (q % 512)) (pointer x)) := by
  obtain ⟨hpages, hword⟩ := h.newTable hk hx hzero
  have hpage := h.isPage (h.free x (hk.freelist ▸ List.mem_cons_self))
  have hxlt : x < 2 ^ 64 := by
    have hstop := hpage.stop
    unfold PHYSTOP at hstop
    omega
  have hne : (Sum.inl (l + 1, q / 512) : Owner) ≠ .inl (l, q) := by
    intro heq
    have hlevel := congrArg Prod.fst (Sum.inl.inj heq)
    exact absurd hlevel (Nat.succ_ne_self l)
  have hsame : Function.update f (.inl (l, q)) x (.inl (l + 1, q / 512)) =
      f (.inl (l + 1, q / 512)) := Function.update_of_ne hne _ _
  have hstore := hpages.word_store (hsame ▸ hparent) (pointer_lt hxlt)
  have hoff := fun a => hpages.inTable_slot (v := pointer x) (hsame ▸ hparent) (a := a)
  rw [hsame] at hstore hoff
  refine ⟨⟨fun i hi => ?_, fun j => ?_, fun y hy => ?_, hk.kernelEnd, fun a ha => ?_⟩,
    ⟨hpages.congr rfl rfl, h.root_ne, fun q' => ?_, fun l' q' hl' => ?_, fun l' hl' q' => ?_⟩,
    fun vpn => ?_⟩
  · refine Function.update_of_ne ?_ _ _
    rintro rfl
    exact hi hzero
  · exact Function.update_of_ne (by simp) _ _
  · exact hk.freelist ▸ List.mem_cons_of_mem x hy
  · rw [hoff a ha]
    have hnot : PGROUNDDOWN a ≠ x := by
      intro heq
      exact ha ⟨heq ▸ hx, (l, q), (Function.update_self _ _ _).trans heq.symm⟩
    refine Eq.trans (if_neg ?_) (hk.mem a hnot)
    rwa [← PGROUNDDOWN_eq hpage.aligned]
  · rw [Function.update_of_ne fun heq => ?_]
    · exact h.top q'
    · have hlevel : 2 = l := congrArg Prod.fst (Sum.inl.inj heq)
      omega
  · rw [Function.update_of_ne fun heq => ?_]
    · exact h.high l' q' hl'
    · have hlevel : l' = l := congrArg Prod.fst (Sum.inl.inj heq)
      omega
  · rw [hstore]
    by_cases hkey : l' = l ∧ q' = q
    · obtain ⟨rfl, rfl⟩ := hkey
      rw [if_pos ⟨rfl, rfl⟩, Function.update_self]
    · have hne' : (Sum.inl (l', q') : Owner) ≠ .inl (l, q) := by
        intro heq
        have hpair := Sum.inl.inj heq
        exact hkey ⟨congrArg Prod.fst hpair, congrArg Prod.snd hpair⟩
      rw [if_neg fun hboth => hkey ⟨by omega, hboth.2⟩, Function.update_of_ne hne', hword]
      exact h.child l' hl' q'
  · rw [hstore, if_neg fun hboth => by omega, hword]

end Vm
