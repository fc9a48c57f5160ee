import Mathlib.Data.Finset.Card
import OSN.Vm.Unmapping

/-!
# `uvmalloc`

The pages of a process are those from page 0 on, up to a size.  `uvmalloc` adds zero pages
to them, all that are asked for or none; `uvmdealloc` takes the last ones away.
-/

namespace Vm

open Xv6 (PGSIZE MAXVA)

variable {room : Nat → Prop} {root : Nat} {f f' f₁ f₂ : Owner → Nat} {s t s₁ s₂ : Ram}
  {m m' m₁ m₂ : PageMap} {a n k x j oldsz newsz fuel : Nat} {out : Nat → Prop}

/-- The number of the page of the trapframe: the first that is none of the process's own. -/
def topPage : Nat := TRAPFRAME / PGSIZE

/-- **The memory of a process** of `n` pages. -/
structure ProcMem (room : Nat → Prop) (root : Nat) (f : Owner → Nat) (s : Ram) (m : PageMap)
    (n : Nat) : Prop extends Maps room root f s m where
  le_top : n ≤ topPage
  pages : ∀ p < n, ∃ e, m p = some e ∧ e.flags ≠ PTE_V ∧ e.pa ≠ 0 ∧ f (.inr p) = e.pa
  none_above : ∀ p, n ≤ p → p < topPage → m p = none ∧ f (.inr p) = 0

/-- `n` pages of the process are kept, and all that is not the process's own. -/
structure Kept (room : Nat → Prop) (n : Nat) (f : Owner → Nat) (s : Ram) (m : PageMap)
    (f' : Owner → Nat) (t : Ram) (m' : PageMap) : Prop where
  owner : ∀ j, j < n ∨ topPage ≤ j → f' (.inr j) = f (.inr j)
  map : ∀ p, p < n ∨ topPage ≤ p → m' p = m p
  mem : ∀ b j, j < n ∨ topPage ≤ j → f (.inr j) ≠ 0 → f (.inr j) = PGROUNDDOWN b →
    t.mem b = s.mem b
  outside : ∀ b, ¬ room (PGROUNDDOWN b) → t.mem b = s.mem b
  kernelEnd : t.kernelEnd = s.kernelEnd

namespace Kept

theorem refl : Kept room n f s m f s m :=
  ⟨fun _ _ => rfl, fun _ _ => rfl, fun _ _ _ _ _ => rfl, fun _ _ => rfl, rfl⟩

theorem trans (h : Kept room n f s m f₁ s₁ m₁) (h' : Kept room n f₁ s₁ m₁ f₂ s₂ m₂) :
    Kept room n f s m f₂ s₂ m₂ where
  owner := fun j hj => (h'.owner j hj).trans (h.owner j hj)
  map := fun p hp => (h'.map p hp).trans (h.map p hp)
  mem := by
    intro b j hj hne heq
    rw [h'.mem b j hj (h.owner j hj ▸ hne) ((h.owner j hj).trans heq), h.mem b j hj hne heq]
  outside := fun b hb => (h'.outside b hb).trans (h.outside b hb)
  kernelEnd := h'.kernelEnd.trans h.kernelEnd

theorem mono (h : Kept room n f s m f' t m') (hk : k ≤ n) : Kept room k f s m f' t m' where
  owner := fun j hj => h.owner j (hj.imp_left fun hlt => Nat.lt_of_lt_of_le hlt hk)
  map := fun p hp => h.map p (hp.imp_left fun hlt => Nat.lt_of_lt_of_le hlt hk)
  mem := fun b j hj => h.mem b j (hj.imp_left fun hlt => Nat.lt_of_lt_of_le hlt hk)
  outside := h.outside
  kernelEnd := h.kernelEnd

end Kept

/-- A table is a page of the room. -/
theorem InTable.inRoom (h : Pages room f s) {b : Nat} (hb : InTable f b) :
    room (PGROUNDDOWN b) := by
  obtain ⟨hne, k, hk⟩ := hb
  rw [← hk] at hne ⊢
  exact h.tenancy.inRoom hne

/-- No page is a table and something else. -/
theorem InTable.ne_leaf (h : Pages room f s) {b : Nat} (hb : InTable f b) :
    f (.inr j) ≠ PGROUNDDOWN b := by
  obtain ⟨hne, k, hk⟩ := hb
  rw [← hk] at hne ⊢
  exact fun heq => h.tenancy.apart Sum.inl_ne_inr hne heq.symm

/-- New tables. -/
theorem Kept.of_grows (h : Grows f s f' t) (hpages : Pages room f' t)
    (hmap : ∀ p, p < n ∨ topPage ≤ p → m' p = m p) : Kept room n f s m f' t m' where
  owner := fun j _ => h.leaf j
  map := hmap
  mem := by
    intro b j _ _ heq
    rw [← h.leaf j] at heq
    exact h.mem b fun hin => hin.ne_leaf hpages heq
  outside := fun b hb => h.mem b fun hin => hb (hin.inRoom hpages)
  kernelEnd := h.kernelEnd

/-- Pages given back. -/
theorem Kept.of_freed (h : Freed f s out f' t) (hpages : Pages room f s)
    (hout : ∀ j, out j → n ≤ j ∧ j < topPage)
    (hmap : ∀ p, p < n ∨ topPage ≤ p → m' p = m p) : Kept room n f s m f' t m' where
  owner := by
    intro j hj
    refine h.kept j fun hout' => ?_
    have hrange := hout j hout'
    omega
  map := hmap
  mem := by
    intro b j hj hne heq
    refine h.mem b (fun hin => hin.ne_leaf hpages heq) fun i hi _ hsame => ?_
    have hij : j = i := Sum.inr.inj (hpages.tenancy.alone hne (heq.trans hsame.symm))
    have hrange := hout i hi
    omega
  outside := by
    intro b hb
    refine h.mem b (fun hin => hb (hin.inRoom hpages)) fun i _ hne heq => hb ?_
    exact heq ▸ hpages.tenancy.inRoom hne
  kernelEnd := h.kernelEnd

/-- A page is allocated. -/
theorem Kalloced.kept (h : Kalloced s x t) (hpages : Pages room f s) (hn : n < topPage) :
    Kept room n f s m (Function.update f (.inr n) x) t m where
  owner := by
    intro j hj
    refine Function.update_of_ne (fun heq => ?_) _ _
    have hjn : j = n := Sum.inr.inj heq
    omega
  map := fun _ _ => rfl
  mem := by
    intro b j _ _ heq
    refine h.mem b fun hb => ?_
    exact hpages.ne_free (h.freelist ▸ List.mem_cons_self) (.inr j) (heq.trans hb)
  outside := by
    intro b hb
    refine h.mem b fun heq => hb ?_
    rw [heq]
    exact hpages.free x (h.freelist ▸ List.mem_cons_self)
  kernelEnd := h.kernelEnd

/-- A page of the process's own is written to, or freed. -/
theorem Kept.of_page (hpages : Pages room f s) (hn : n < topPage) (hx : f (.inr n) ≠ 0)
    (howner : ∀ j ≠ n, f' (.inr j) = f (.inr j)) (hkernel : t.kernelEnd = s.kernelEnd)
    (hmem : ∀ b, PGROUNDDOWN b ≠ f (.inr n) → t.mem b = s.mem b) : Kept room n f s m f' t m where
  owner := fun j hj => howner j (by omega)
  map := fun _ _ => rfl
  mem := by
    intro b j hj hne heq
    refine hmem b fun hb => ?_
    have hjn : j = n := Sum.inr.inj (hpages.tenancy.alone hne (heq.trans hb))
    omega
  outside := by
    intro b hb
    refine hmem b fun heq => hb ?_
    rw [heq]
    exact hpages.tenancy.inRoom hx
  kernelEnd := hkernel

/-! ### `uvmdealloc` -/

theorem PGROUNDUP_mono (hle : newsz ≤ oldsz) (hmax : oldsz ≤ TRAPFRAME) :
    PGROUNDUP newsz ≤ PGROUNDUP oldsz ∧ PGROUNDUP oldsz ≤ TRAPFRAME ∧ oldsz ≤ PGROUNDUP oldsz := by
  unfold PGROUNDUP
  unfold TRAPFRAME TRAMPOLINE MAXVA PGSIZE at *
  omega

theorem uvmdealloc_ge (h : oldsz ≤ newsz) : uvmdealloc root oldsz newsz s = .ok oldsz s := by
  rw [uvmdealloc, if_pos h]
  rfl

/-- **`uvmdealloc`** takes the last pages away. -/
theorem ProcMem.uvmdealloc (h : ProcMem room root f s m (PGROUNDUP oldsz / PGSIZE))
    (hmax : oldsz ≤ TRAPFRAME) (hlt : newsz < oldsz) :
    Ends (uvmdealloc root oldsz newsz) s
      (fun r t => r = newsz ∧ ∃ f' m', ProcMem room root f' t m' (PGROUNDUP newsz / PGSIZE) ∧
        Kept room (PGROUNDUP newsz / PGSIZE) f s m f' t m')
      fun _ _ => False := by
  obtain ⟨hround, hbound, -⟩ := PGROUNDUP_mono (Nat.le_of_lt hlt) hmax
  have hpages : PGROUNDUP newsz / PGSIZE ≤ PGROUNDUP oldsz / PGSIZE := Nat.div_le_div_right hround
  have htop := h.le_top
  have hlent : Lent f m (fun p => p) (PGROUNDUP newsz / PGSIZE) (PGROUNDUP oldsz / PGSIZE) := by
    refine ⟨fun p _ hp e he => ?_, fun p q _ _ _ _ heq => heq⟩
    obtain ⟨e', he', -, hne, hown⟩ := h.pages p hp
    obtain rfl := Option.some.inj (he'.symm.trans he)
    exact ⟨hne, hown⟩
  have hleaves : Leaves m (PGROUNDUP newsz) (PGROUNDUP oldsz) := by
    refine ⟨Nat.le_trans hbound (by decide), fun p _ hp => ?_⟩
    obtain ⟨e, he, hflags, -⟩ := h.pages p hp
    exact ⟨e, he, hflags⟩
  refine (h.toMaps.uvmdealloc (fun _ _ => Nat.le_trans hbound (by decide)) fun _ => hlent).mono ?_
    fun _ _ hfail => hfail.2 hleaves
  rintro r t (⟨hge, -⟩ | ⟨-, hr, f', hmaps, hfreed⟩)
  · omega
  · refine ⟨hr, f', _, ⟨hmaps, by omega, fun p hp => ?_, fun p hp hp' => ?_⟩,
      .of_freed hfreed h.toPages ?_ fun p hp => ?_⟩
    · obtain ⟨e, he, hflags, hne, hown⟩ := h.pages p (by omega)
      refine ⟨e, ?_, hflags, hne, ?_⟩
      · exact (if_neg (by omega)).trans he
      · rw [hfreed.kept p, hown]
        rintro ⟨-, q, hq, -, hqp⟩
        omega
    · by_cases hgone : p < PGROUNDUP oldsz / PGSIZE
      · exact ⟨if_pos ⟨hp, by omega⟩, hfreed.gone p ⟨rfl, p, hp, hgone, rfl⟩⟩
      · obtain ⟨hm, hown⟩ := h.none_above p (by omega) hp'
        refine ⟨(if_neg (by omega)).trans hm, ?_⟩
        rw [hfreed.kept p, hown]
        rintro ⟨-, q, -, hq, hqp⟩
        omega
    · rintro j ⟨-, q, hq, hq', hqj⟩
      omega
    · refine if_neg ?_
      omega

/-! ### `uvmalloc` -/

theorem PGROUNDUP_of_dvd (ha : PGSIZE ∣ a) (hmax : a ≤ TRAPFRAME) : PGROUNDUP a = a := by
  unfold PGROUNDUP
  unfold TRAPFRAME TRAMPOLINE MAXVA PGSIZE at *
  omega

theorem PGROUNDDOWN_of_dvd (ha : PGSIZE ∣ a) : PGROUNDDOWN a = a := Nat.div_mul_cancel ha

/-- Only what the memory holds changes, and no table. -/
theorem ProcMem.congr (h : ProcMem room root f s m n) (hfree : t.freelist = s.freelist)
    (hkernel : t.kernelEnd = s.kernelEnd) (hmem : ∀ b, InTable f b → t.mem b = s.mem b) :
    ProcMem room root f t m n :=
  ⟨h.toMaps.congr hfree hkernel hmem, h.le_top, h.pages, h.none_above⟩

/-- What has been allocated is given back. -/
theorem ProcMem.rollback (h : ProcMem room root f s m (a / PGSIZE)) (ha : PGSIZE ∣ a)
    (hold : PGSIZE ∣ oldsz) (hle : oldsz ≤ a) (hmax : a ≤ TRAPFRAME) :
    Ends (do let _ ← Vm.uvmdealloc root a oldsz; return 0) s
      (fun r t => r = 0 ∧ ∃ f' m', ProcMem room root f' t m' (oldsz / PGSIZE) ∧
        Kept room (oldsz / PGSIZE) f s m f' t m')
      fun _ _ => False := by
  rcases Nat.eq_or_lt_of_le hle with rfl | hlt
  · refine (Ends.of_ok (uvmdealloc_ge (Nat.le_refl oldsz)) (Q := fun _ t => t = s) rfl).bind ?_
    rintro - t rfl
    exact ⟨rfl, f, m, h, .refl⟩
  · have hround := PGROUNDUP_of_dvd ha hmax
    have hround' := PGROUNDUP_of_dvd hold (Nat.le_trans hle hmax)
    have hdealloc := (hround.symm ▸ h).uvmdealloc hmax hlt
    rw [hround'] at hdealloc
    exact hdealloc.bind fun _ _ ht => ⟨rfl, ht.2⟩

/-- A page is mapped. -/
theorem Maps.mapOne (h : Maps room root f s m) (ha : PGSIZE ∣ a) (hva : a < MAXVA)
    (hx : x < 2 ^ 64) {perm : Nat} (hperm : perm < 1024) (hnone : m (a / PGSIZE) = none) :
    Ends (Vm.mappages root a PGSIZE x perm) s
      (fun r t => ∃ f', Grows f s f' t ∧
        (r = 0 ∧ Maps room root f' t (Function.update m (a / PGSIZE) (some (.make x perm))) ∨
          r = -1 ∧ Maps room root f' t m))
      fun _ _ => False := by
  have hfirst := PGROUNDDOWN_of_dvd ha
  have hlast : PGROUNDDOWN ((a + PGSIZE - 1) % 2 ^ 64) = a := by
    unfold PGROUNDDOWN
    unfold MAXVA PGSIZE at *
    omega
  have hvacant : Vacant m a a := by
    refine ⟨Nat.le_refl _, hva, fun p hp hp' => ?_⟩
    rwa [Nat.le_antisymm hp' hp]
  have hmap := h.mappages a PGSIZE hx hperm
  rw [hfirst, hlast] at hmap
  refine hmap.mono ?_ fun _ _ hfail => hfail ⟨by decide, hvacant⟩
  rintro r t ⟨f', k, hgrows, hmaps, -, hr⟩
  refine ⟨f', hgrows, ?_⟩
  rcases hr with ⟨hr, hpos, hsum⟩ | ⟨hr, hless⟩
  · obtain rfl : k = 1 := by
      unfold PGSIZE at *
      omega
    rw [insert_one] at hmaps
    exact Or.inl ⟨hr, hmaps⟩
  · obtain rfl : k = 0 := by
      have hle := hless (Nat.le_refl a)
      unfold PGSIZE at *
      omega
    rw [PageMap.insert_zero] at hmaps
    exact Or.inr ⟨hr, hmaps⟩

/-- A page that `uvmalloc` has added: mapped for all uses, and zero. -/
structure Fresh (f : Owner → Nat) (s : Ram) (m : PageMap) (p : Nat) : Prop where
  mapped : m p = some (.make (f (.inr p)) (PTE_W ||| PTE_X ||| PTE_R ||| PTE_U))
  zero : ∀ b, PGROUNDDOWN b = f (.inr p) → s.mem b = 0

/-- Fresh pages that are kept. -/
theorem Fresh.kept {p : Nat} (h : Fresh f s m p) (hne : f (.inr p) ≠ 0) (hp : p < n)
    (hkept : Kept room n f s m f' t m') : Fresh f' t m' p := by
  have howner := hkept.owner p (Or.inl hp)
  refine ⟨?_, fun b hb => ?_⟩
  · rw [hkept.map p (Or.inl hp), howner]
    exact h.mapped
  · rw [howner] at hb
    rw [hkept.mem b p (Or.inl hp) hne hb.symm]
    exact h.zero b hb

/-- A page that has been allocated is filled with zeros. -/
theorem Kalloced.memset (h : Kalloced s x t) (haligned : PGSIZE ∣ x) :
    Kalloced s x (t.memset x 0 PGSIZE) ∧
      ∀ b, PGROUNDDOWN b = x → (t.memset x 0 PGSIZE).mem b = 0 := by
  refine ⟨⟨h.freelist, h.kernelEnd, fun b hb => ?_⟩, fun b hb => ?_⟩
  · refine Eq.trans (if_neg ?_) (h.mem b hb)
    rwa [← PGROUNDDOWN_eq haligned]
  · rw [PGROUNDDOWN_eq haligned] at hb
    exact if_pos hb

/-- What the loop of `uvmalloc` has done when it returns `newsz`. -/
def Grown (room : Nat → Prop) (root : Nat) (f : Owner → Nat) (s : Ram) (m : PageMap) (n k : Nat)
    (t : Ram) : Prop :=
  ∃ f' m', ProcMem room root f' t m' k ∧ Kept room n f s m f' t m' ∧
    ∀ p, n ≤ p → p < k → Fresh f' t m' p

/-- What it has done when it returns 0. -/
def Restored (room : Nat → Prop) (root : Nat) (f : Owner → Nat) (s : Ram) (m : PageMap) (n : Nat)
    (t : Ram) : Prop :=
  ∃ f' m', ProcMem room root f' t m' n ∧ Kept room n f s m f' t m'

theorem div_lt_topPage (ha : PGSIZE ∣ a) (hlt : a < TRAPFRAME) : a / PGSIZE < topPage := by
  unfold topPage
  unfold TRAPFRAME TRAMPOLINE MAXVA PGSIZE at *
  omega

/-- The pages of a process are different pages of the memory. -/
theorem ProcMem.le_pages (h : ProcMem room root f s m n) {lo : Nat} (hlo : PGSIZE ∣ lo)
    (hkernel : lo ≤ s.kernelEnd) : n ≤ (PHYSTOP - lo) / PGSIZE := by
  have hpage : ∀ p < n, IsPage s (f (.inr p)) ∧ f (.inr p) ≠ 0 := by
    intro p hp
    obtain ⟨e, -, -, hne, howner⟩ := h.pages p hp
    rw [← howner] at hne
    exact ⟨h.page hne, hne⟩
  have hcard : (Finset.range n).card ≤ (Finset.range ((PHYSTOP - lo) / PGSIZE)).card := by
    refine Finset.card_le_card_of_injOn (fun p => (f (.inr p) - lo) / PGSIZE) ?_ ?_
    · intro p hp
      obtain ⟨⟨haligned, hstart, hstop⟩, -⟩ := hpage p (Finset.mem_range.mp hp)
      refine Finset.mem_coe.mpr (Finset.mem_range.mpr ?_)
      dsimp only
      unfold PHYSTOP PGSIZE at *
      omega
    · intro p hp q hq heq
      obtain ⟨⟨haligned, hstart, hstop⟩, hne⟩ := hpage p (Finset.mem_range.mp hp)
      obtain ⟨⟨haligned', hstart', hstop'⟩, -⟩ := hpage q (Finset.mem_range.mp hq)
      refine Sum.inr.inj (h.tenancy.alone hne ?_)
      dsimp only at heq
      unfold PGSIZE at *
      omega
  rwa [Finset.card_range, Finset.card_range] at hcard

/-- There are fewer of them than a process has room for. -/
theorem ProcMem.lt_top (h : ProcMem room root f s m n) : n < topPage :=
  Nat.lt_of_le_of_lt (h.le_pages (Nat.dvd_zero _) (Nat.zero_le _)) (by decide)

/-- **A page that has been allocated is mapped**, if there are pages for the tables too. -/
theorem ProcMem.mapPage (h : ProcMem room root f s m (a / PGSIZE)) (ha : PGSIZE ∣ a)
    (hlt : a < TRAPFRAME) (hx : x ≠ 0) (hk : Kalloced s x t) {perm : Nat} (hperm : perm < 1024)
    (hflags : perm ||| PTE_V ≠ PTE_V) :
    Ends (mappages root a PGSIZE x perm) t
      (fun r u => (∀ b, PGROUNDDOWN b = x → u.mem b = t.mem b) ∧
        (r = 0 ∧ (∃ f', ProcMem room root f' u
            (Function.update m (a / PGSIZE) (some (.make x perm))) (a / PGSIZE + 1) ∧
            f' (.inr (a / PGSIZE)) = x ∧ Kept room (a / PGSIZE) f s m f' u
              (Function.update m (a / PGSIZE) (some (.make x perm)))) ∨
          r = -1 ∧ ∃ f', Maps room root f' u m ∧ f' (.inr (a / PGSIZE)) = x ∧
            (∀ p, a / PGSIZE < p → p < topPage → f' (.inr p) = 0) ∧
            Kept room (a / PGSIZE) f s m f' u m))
      fun _ _ => False := by
  have hpage := h.isPage (h.free x (hk.freelist ▸ List.mem_cons_self))
  have hxlt : x < 2 ^ 64 := by
    have hstop := hpage.stop
    unfold PHYSTOP at hstop
    omega
  have htop : a / PGSIZE < topPage := div_lt_topPage ha hlt
  have hpa : (Mapping.make x perm).pa = x := by
    change PGROUNDDOWN (x % 2 ^ 64) = x
    rw [Nat.mod_eq_of_lt hxlt, PGROUNDDOWN_of_dvd hpage.aligned]
  obtain ⟨hnone, hvacant⟩ := h.none_above _ (Nat.le_refl _) htop
  have htaken := h.toMaps.take hk hvacant
  have hkept := hk.kept (m := m) h.toPages htop
  refine (htaken.mapOne ha (Nat.lt_of_lt_of_le hlt (by decide)) hxlt hperm hnone).mono ?_
    fun _ _ hfail => hfail
  rintro r u ⟨f', hgrows, hr⟩
  have hown : f' (.inr (a / PGSIZE)) = x := by
    rw [hgrows.leaf, Function.update_self]
  have hother : ∀ p, p ≠ a / PGSIZE → f' (.inr p) = f (.inr p) := by
    intro p hp
    rw [hgrows.leaf, Function.update_of_ne fun heq => hp (Sum.inr.inj heq)]
  rcases hr with ⟨hr, hmaps⟩ | ⟨hr, hmaps⟩
  · refine ⟨fun b hb => hgrows.mem b fun hin => hin.ne_leaf hmaps.toPages (hown.trans hb.symm),
      Or.inl ⟨hr, f', ⟨hmaps, htop, fun p hp => ?_, fun p hp hp' => ?_⟩, hown,
        hkept.trans (.of_grows hgrows hmaps.toPages fun p hp => ?_)⟩⟩
    · by_cases hlast : p = a / PGSIZE
      · rw [hlast, Function.update_self]
        refine ⟨_, rfl, ?_, ?_, ?_⟩
        · change perm % 1024 ||| PTE_V ≠ PTE_V
          rwa [Nat.mod_eq_of_lt hperm]
        · rw [hpa]
          exact hx
        · rw [hown, hpa]
      · obtain ⟨e, he, hflags, hne, howner⟩ := h.pages p (by omega)
        exact ⟨e, (Function.update_of_ne hlast _ _).trans he, hflags, hne,
          (hother p hlast).trans howner⟩
    · obtain ⟨hm, howner⟩ := h.none_above p (by omega) hp'
      exact ⟨(Function.update_of_ne (by omega) _ _).trans hm, (hother p (by omega)).trans howner⟩
    · exact Function.update_of_ne (by omega) _ _
  · refine ⟨fun b hb => hgrows.mem b fun hin => hin.ne_leaf hmaps.toPages (hown.trans hb.symm),
      Or.inr ⟨hr, f', hmaps, hown, fun p hp hp' => ?_,
        hkept.trans (.of_grows hgrows hmaps.toPages fun _ _ => rfl)⟩⟩
    rw [hother p (Nat.ne_of_gt hp)]
    exact (h.none_above p (Nat.le_of_lt hp) hp').2

/-- **One page is added**, if there are pages for the tables too. -/
theorem ProcMem.addPage (h : ProcMem room root f s m (a / PGSIZE)) (ha : PGSIZE ∣ a)
    (hlt : a < TRAPFRAME) (hx : x ≠ 0) (hk : Kalloced s x t) :
    Ends (mappages root a PGSIZE x (PTE_W ||| PTE_X ||| PTE_R ||| PTE_U)) (t.memset x 0 PGSIZE)
      (fun r u => r = 0 ∧ Grown room root f s m (a / PGSIZE) (a / PGSIZE + 1) u ∨
        r = -1 ∧ ∃ f', Maps room root f' u m ∧ f' (.inr (a / PGSIZE)) = x ∧
          (∀ p, a / PGSIZE < p → p < topPage → f' (.inr p) = 0) ∧
          Kept room (a / PGSIZE) f s m f' u m)
      fun _ _ => False := by
  have hpage := h.isPage (h.free x (hk.freelist ▸ List.mem_cons_self))
  obtain ⟨hk', hzero⟩ := hk.memset hpage.aligned
  refine (h.mapPage ha hlt hx hk' (by decide) (by decide)).post ?_
  rintro r u ⟨hmem, ⟨hr, f', hproc, hown, hkept⟩ | hfail⟩
  · refine Or.inl ⟨hr, f', _, hproc, hkept, fun p hp hp' => ?_⟩
    obtain rfl : p = a / PGSIZE := by omega
    refine ⟨?_, fun b hb => ?_⟩
    · rw [Function.update_self, hown]
    · rw [hmem b (hb.trans hown)]
      exact hzero b (hb.trans hown)
  · exact Or.inr hfail

/-- **The page is freed again.** -/
theorem ProcMem.unadd (h : ProcMem room root f s m n) (h₁ : Maps room root f₁ s₁ m)
    (htop : n < topPage) (hnone : ∀ p, n < p → p < topPage → f₁ (.inr p) = 0)
    (hkept : Kept room n f s m f₁ s₁ m) (hne : f₁ (.inr n) ≠ 0) (hk : Kfreed s₁ (f₁ (.inr n)) t) :
    Restored room root f s m n t := by
  have hother : ∀ j ≠ n, Function.update f₁ (.inr n) 0 (.inr j) = f₁ (.inr j) := fun j hj =>
    Function.update_of_ne (fun heq => hj (Sum.inr.inj heq)) _ _
  refine ⟨_, m, ⟨h₁.give hne hk, h.le_top, fun p hp => ?_, fun p hp hp' => ?_⟩,
    hkept.trans (.of_page h₁.toPages htop hne hother hk.kernelEnd hk.mem)⟩
  · obtain ⟨e, he, hflags, hpa, howner⟩ := h.pages p hp
    refine ⟨e, he, hflags, hpa, ?_⟩
    rw [hother p (Nat.ne_of_lt hp), hkept.owner p (Or.inl hp), howner]
  · refine ⟨(h.none_above p hp hp').1, ?_⟩
    rcases Nat.eq_or_lt_of_le hp with rfl | hlater
    · exact Function.update_self _ _ _
    · rw [hother p (Nat.ne_of_gt hlater), hnone p hlater hp']

/-- **The loop of `uvmalloc`** adds all its pages or none. -/
theorem ProcMem.allocLoop (h : ProcMem room root f s m (a / PGSIZE)) (ha : PGSIZE ∣ a)
    (hold : PGSIZE ∣ oldsz) (hle : oldsz ≤ a) (hnew : a < newsz + PGSIZE)
    (hfuel : topPage - a / PGSIZE < fuel) :
    Ends (allocLoop root oldsz newsz fuel a) s
      (fun r t => newsz ≤ TRAPFRAME ∧ r = newsz ∧
          Grown room root f s m (a / PGSIZE) (PGROUNDUP newsz / PGSIZE) t ∨
        r = 0 ∧ Restored room root f s m (oldsz / PGSIZE) t)
      fun _ _ => False := by
  induction fuel generalizing f s m a with
  | zero => exact absurd hfuel (Nat.not_lt_zero _)
  | succ fuel ih =>
      have htop := h.lt_top
      have ha' : a < TRAPFRAME := by
        unfold topPage at htop
        unfold TRAPFRAME TRAMPOLINE MAXVA PGSIZE at *
        omega
      have hpages : oldsz / PGSIZE ≤ a / PGSIZE := Nat.div_le_div_right hle
      unfold Vm.allocLoop
      by_cases hlt : a < newsz
      · rw [if_pos hlt]
        refine (kalloc_ends h.freeList).bind ?_
        rintro x t (⟨rfl, hdenied⟩ | ⟨hx, hk⟩)
        · have ht : ProcMem room root f t m (a / PGSIZE) :=
            h.congr hdenied.freelist hdenied.kernelEnd fun _ _ => by rw [hdenied.mem]
          have hkept : Kept room (oldsz / PGSIZE) f s m f t m :=
            ⟨fun _ _ => rfl, fun _ _ => rfl, fun _ _ _ _ _ => by rw [hdenied.mem],
              fun _ _ => by rw [hdenied.mem], hdenied.kernelEnd⟩
          refine (ht.rollback ha hold hle (Nat.le_of_lt ha')).mono ?_ fun _ _ hf => hf
          rintro r u ⟨hr, f', m', hu, hkept'⟩
          exact Or.inr ⟨hr, f', m', hu, hkept.trans hkept'⟩
        · rw [if_neg hx]
          unfold memset
          rw [Ends.modify_bind_iff]
          refine (h.addPage ha ha' hx hk).bind ?_
          rintro r u (⟨rfl, f₁, m₁, h₁, hkept₁, hfresh₁⟩ | ⟨rfl, f₁, h₁, hown, hnone, hkept₁⟩)
          · rw [if_neg (by decide)]
            have hpage : (a + PGSIZE) / PGSIZE = a / PGSIZE + 1 := page_succ
            refine (ih (hpage.symm ▸ h₁) (Nat.dvd_add ha (Nat.dvd_refl _)) (by omega) (by omega)
              ?_).mono ?_ fun _ _ hf => hf
            · rw [hpage]
              omega
            · rw [hpage]
              rintro r v (⟨hmax, hr, f', m', hv, hkept, hfresh⟩ | ⟨hr, f', m', hv, hkept⟩)
              · refine Or.inl ⟨hmax, hr, f', m', hv, hkept₁.trans (hkept.mono (Nat.le_succ _)), ?_⟩
                intro p hp hp'
                rcases Nat.eq_or_lt_of_le hp with rfl | hlater
                · obtain ⟨e, -, -, hne, howner⟩ := h₁.pages _ (Nat.lt_succ_self _)
                  exact (hfresh₁ _ (Nat.le_refl _) (Nat.lt_succ_self _)).kept (howner ▸ hne)
                    (Nat.lt_succ_self _) hkept
                · exact hfresh p hlater hp'
              · exact Or.inr ⟨hr, f', m', hv, (hkept₁.mono hpages).trans hkept⟩
          · rw [if_pos (by decide)]
            have hne : f₁ (.inr (a / PGSIZE)) ≠ 0 := by rwa [hown]
            rw [← hown]
            refine (kfree_ends (h₁.page hne)).bind fun _ v hk₂ => ?_
            obtain ⟨f₂, m₂, h₂, hkept₂⟩ := h.unadd h₁ htop hnone hkept₁ hne hk₂
            refine (h₂.rollback ha hold hle (Nat.le_of_lt ha')).mono ?_ fun _ _ hf => hf
            rintro r w ⟨hr, f', m', hw, hkept'⟩
            exact Or.inr ⟨hr, f', m', hw, (hkept₂.mono hpages).trans hkept'⟩
      · rw [if_neg hlt]
        have hsame : a = PGROUNDUP newsz := by
          unfold PGROUNDUP at *
          unfold TRAPFRAME TRAMPOLINE MAXVA PGSIZE at *
          omega
        refine Or.inl ⟨by omega, rfl, f, m, hsame ▸ h, .refl, fun p hp hp' => ?_⟩
        rw [← hsame] at hp'
        omega

theorem uvmalloc_lt (h : newsz < oldsz) : uvmalloc root oldsz newsz s = .ok oldsz s := by
  rw [uvmalloc, if_pos h]
  rfl

/-- **`uvmalloc`** adds all its pages or none. -/
theorem ProcMem.uvmalloc (h : ProcMem room root f s m (PGROUNDUP oldsz / PGSIZE))
    (hle : oldsz ≤ newsz) :
    Ends (uvmalloc root oldsz newsz) s
      (fun r t => newsz ≤ TRAPFRAME ∧ r = newsz ∧
          Grown room root f s m (PGROUNDUP oldsz / PGSIZE) (PGROUNDUP newsz / PGSIZE) t ∨
        r = 0 ∧ Restored room root f s m (PGROUNDUP oldsz / PGSIZE) t)
      fun _ _ => False := by
  have hdvd := PGSIZE_dvd_PGROUNDUP oldsz
  rw [Vm.uvmalloc, if_neg (Nat.not_lt.mpr hle)]
  refine h.allocLoop hdvd hdvd (Nat.le_refl _) ?_ ?_
  · unfold PGROUNDUP
    unfold PGSIZE at *
    omega
  · unfold passes topPage TRAPFRAME TRAMPOLINE MAXVA PGSIZE
    omega

end Vm
