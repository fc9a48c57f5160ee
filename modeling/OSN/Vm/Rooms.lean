import OSN.Vm.UserImage

/-!
# Two page tables

A new page table is made of the free pages, while the old one has its own.  When the old one
is given back, its pages are free too, and the new one is alone.
-/

namespace Vm

open Xv6 (PGSIZE MAXVA)

attribute [local irreducible] freewalk

variable {room room' : Nat → Prop} {root : Nat} {f f₁ : Owner → Nat} {s t u : Ram} {m : PageMap}
  {n x trampoline trapframe : Nat} {usable : Nat → Prop} {img : Nat → UInt8}

/-! ### A page table in another room -/

theorem Maps.moved (h : Maps room root f s m) (hpages : Pages room' f t)
    (hmem : ∀ b i, f i ≠ 0 → f i = PGROUNDDOWN b → t.mem b = s.mem b) : Maps room' root f t m := by
  have htable : ∀ b, InTable f b → t.mem b = s.mem b := by
    rintro b ⟨hne, k, hk⟩
    exact hmem b _ (hk ▸ hne) hk
  exact ⟨⟨hpages, h.root_ne, h.top, h.high, fun l hl q =>
      (h.word_congr htable (l + 1) q).trans (h.child l hl q)⟩,
    fun vpn => (h.word_congr htable 0 vpn).trans (h.entries vpn)⟩

/-- **A page table stays what it is** when its pages do. -/
theorem UserTable.moved (h : UserTable room root f s m n trampoline trapframe)
    (hpages : Pages room' f t)
    (hmem : ∀ b i, f i ≠ 0 → f i = PGROUNDDOWN b → t.mem b = s.mem b) :
    UserTable room' root f t m n trampoline trapframe :=
  ⟨⟨h.toMaps.moved hpages hmem, h.le_top, h.pages, h.none_above⟩, h.frame, h.code, h.beyond,
    h.loose⟩

/-- **And so does what the user sees.** -/
theorem UserImage.moved (h : UserImage room root f s m n trampoline trapframe usable img)
    (hpages : Pages room' f t)
    (hmem : ∀ b i, f i ≠ 0 → f i = PGROUNDDOWN b → t.mem b = s.mem b) :
    UserImage room' root f t m n trampoline trapframe usable img := by
  refine ⟨h.toUserTable.moved hpages hmem, h.access, h.entry, ?_⟩
  rw [← h.byte]
  funext a
  refine byte_congr rfl fun hacc => ?_
  obtain ⟨e, hm, hU, hpa⟩ := addr_ne_zero hacc.2
  obtain ⟨hne, j, hj⟩ := h.toUserTable.userSpace.owned _ _ hm hU
  refine hmem _ (.inr j) (hj ▸ hne) ?_
  rw [hj, PGROUNDDOWN_phys hacc.2, hpa]

/-! ### Who has which pages -/

/-- The free pages are a room that nobody has a page of. -/
theorem Pages.unused (h : Pages room f s) : Pages (· ∈ s.freelist) (fun _ => 0) s := by
  refine ⟨h.nodup, h.kernel, fun hx => h.isPage (h.free _ hx), fun _ hx => hx, ?_⟩
  have hzero : 0 ∉ s.freelist := fun hbad => h.tenancy.zero (h.free 0 hbad)
  refine ⟨hzero, fun hne => absurd rfl hne, fun hne => absurd rfl hne, fun {b} hb => ?_⟩
  refine iff_of_false (not_not_intro hb) ?_
  rintro ⟨-, rfl⟩
  exact hzero hb

/-- The pages that a page table has, and those that are free. -/
def Left (f : Owner → Nat) (s : Ram) (x : Nat) : Prop := x ∈ s.freelist ∨ x ≠ 0 ∧ ∃ i, f i = x

/-- A page that the old page table has is none of the new one's, and not free. -/
theorem Pages.not_free (h : Pages room f s) (h₁ : Pages (· ∈ s.freelist) f₁ t) {i : Owner}
    (hi : f i ≠ 0) : f i ∉ t.freelist ∧ ∀ j, f₁ j ≠ f i := by
  have hold : f i ∉ s.freelist := h.tenancy.lives hi
  refine ⟨fun hfree => hold (h₁.free _ hfree), fun j hj => hold ?_⟩
  have hin := h₁.tenancy.inRoom (i := j) (hj ▸ hi)
  rwa [hj] at hin

/-- **The old page table** has its pages and could have the free ones. -/
theorem Pages.left (h : Pages room f s) (h₁ : Pages (· ∈ s.freelist) f₁ t)
    (hkernel : t.kernelEnd = s.kernelEnd) : Pages (Left f t) f t := by
  have hroom : ∀ x, Left f t x → room x := by
    rintro x (hfree | ⟨hne, i, rfl⟩)
    · exact h.free x (h₁.free x hfree)
    · exact h.tenancy.inRoom hne
  refine ⟨h₁.nodup, h₁.kernel, fun {x} hx => ?_, fun _ hx => Or.inl hx, ?_⟩
  · have hpage := h.isPage (hroom x hx)
    exact ⟨hpage.aligned, hkernel ▸ hpage.start, hpage.stop⟩
  · refine ⟨fun hbad => h.tenancy.zero (hroom 0 hbad), h.tenancy.alone,
      fun hi => Or.inr ⟨hi, _, rfl⟩, fun {b} hb => ⟨fun hnot => ?_, ?_⟩⟩
    · exact (hb.resolve_left hnot).2
    · rintro ⟨i, rfl⟩
      exact (h.not_free h₁ fun hzero => h.tenancy.zero (hzero ▸ hroom _ hb)).1

/-- When all is free again that was, the old page table has its room. -/
theorem Pages.restored (h : Pages room f s) (h₁ : Pages (· ∈ s.freelist) (fun _ => 0) t)
    (hkernel : t.kernelEnd = s.kernelEnd) : Pages room f t := by
  have hroom : Left f t = room := by
    funext x
    refine propext ⟨?_, fun hx => ?_⟩
    · rintro (hfree | ⟨hne, i, rfl⟩)
      · exact h.free x (h₁.free x hfree)
      · exact h.tenancy.inRoom hne
    · by_cases hfree : x ∈ s.freelist
      · exact Or.inl (h₁.free_iff.mpr hfree)
      · exact Or.inr ⟨h.tenancy.ne_zero hx, (h.tenancy.taken_iff hx).mp hfree⟩
  exact hroom ▸ h.left h₁ hkernel

/-- **The new page table** is alone when the pages of the old one are free. -/
theorem Pages.replaced (h : Pages room f s) (h₁ : Pages (· ∈ s.freelist) f₁ t)
    (h₂ : Pages (Left f t) (fun _ => 0) u) (hkernel : u.kernelEnd = s.kernelEnd) :
    Pages room f₁ u := by
  have hroom : ∀ x, x ∈ s.freelist → room x := h.free
  refine ⟨h₂.nodup, h₂.kernel, fun {x} hx => ?_, fun x hx => ?_, ?_⟩
  · have hpage := h.isPage hx
    exact ⟨hpage.aligned, hkernel ▸ hpage.start, hpage.stop⟩
  · rcases h₂.free x hx with hfree | ⟨hne, i, rfl⟩
    · exact h.free x (h₁.free x hfree)
    · exact h.tenancy.inRoom hne
  · refine ⟨h.tenancy.zero, h₁.tenancy.alone, fun hi => hroom _ (h₁.tenancy.inRoom hi),
      fun {b} hb => ?_⟩
    rw [h₂.free_iff]
    constructor
    · intro hnot
      have hfree : b ∈ s.freelist := by
        by_contra htaken
        obtain ⟨i, hi⟩ := (h.tenancy.taken_iff hb).mp htaken
        exact hnot (Or.inr ⟨h.tenancy.ne_zero hb, i, hi⟩)
      exact (h₁.tenancy.taken_iff hfree).mp fun hin => hnot (Or.inl hin)
    · rintro ⟨j, rfl⟩ (hfree | ⟨hne, i, hi⟩)
      · exact h₁.tenancy.lives (h.tenancy.ne_zero hb) hfree
      · exact (h.not_free h₁ (hi ▸ hne)).2 j hi.symm

end Vm
