import OSN.Vm.Exec
import OSN.Vm.UserCopy

/-!
# The image of a process

What the user of a page table sees: the pages that are usable, and the bytes of their
addresses.  Each function that `exec` calls on the new page table changes the image in one
way, and nothing outside the room of the page table.
-/

namespace Vm

open Xv6 (PGSIZE MAXVA UserMem)
open Fs (CStr)

attribute [local irreducible] freewalk

variable {room : Nat → Prop} {root : Nat} {f f' : Owner → Nat} {s t u : Ram} {m m' : PageMap}
  {a n k x sz va g trampoline trapframe : Nat} {e : Mapping} {usable usable' : Nat → Prop}
  {img img' : Nat → UInt8} {l : List UInt8}

/-- What `uvmalloc` maps its pages with. -/
def USERPAGE : Nat := PTE_W ||| PTE_X ||| PTE_R ||| PTE_U

/-- **The image**: the pages that the user may access, and what they hold. -/
structure UserImage (room : Nat → Prop) (root : Nat) (f : Owner → Nat) (s : Ram) (m : PageMap)
    (n trampoline trapframe : Nat) (usable : Nat → Prop) (img : Nat → UInt8) : Prop
    extends UserTable room root f s m n trampoline trapframe where
  access : ∀ a, Access m a ↔ usable (a / PGSIZE)
  entry : ∀ p, usable p → ∃ pa, m p = some (.make pa USERPAGE)
  byte : (view m s).byte = img

/-- Where the bytes of a page lie. -/
theorem PGROUNDDOWN_phys (h : m.addr a ≠ 0) : PGROUNDDOWN (phys m a) = m.addr a := by
  rw [PGROUNDDOWN_eq (UserSpace.aligned h)]
  exact ⟨Nat.le_add_right _ _, Nat.add_lt_add_left (Nat.mod_lt _ (by decide)) _⟩

/-- Only the process's own pages are for the user. -/
theorem UserTable.user_lt (h : UserTable room root f s m n trampoline trapframe) {p : Nat}
    (hm : m p = some e) (hU : e.flags.testBit 4 = true) : p < n := by
  by_contra hge
  rcases Nat.lt_trichotomy p topPage with hlt | rfl | hlt
  · rw [(h.none_above p (Nat.le_of_not_lt hge) hlt).1] at hm
    cases hm
  · rw [h.frame] at hm
    obtain rfl := Option.some.inj hm
    revert hU
    change ¬ ((PTE_R ||| PTE_W) % 1024 ||| PTE_V).testBit 4 = true
    decide
  · by_cases hlast : p = topPage + 1
    · rw [hlast, h.code] at hm
      obtain rfl := Option.some.inj hm
      revert hU
      change ¬ ((PTE_R ||| PTE_X) % 1024 ||| PTE_V).testBit 4 = true
      decide
    · rw [h.beyond p (by omega)] at hm
      cases hm

/-- The page table of a process is an address space. -/
theorem UserTable.userSpace (h : UserTable room root f s m n trampoline trapframe) :
    UserSpace room root f s m := by
  have hown : ∀ p e, m p = some e → e.flags.testBit 4 = true → e.pa ≠ 0 ∧ f (.inr p) = e.pa := by
    intro p e hm hU
    obtain ⟨e', hm', -, hne, hown⟩ := h.pages p (h.user_lt hm hU)
    obtain rfl := Option.some.inj (hm'.symm.trans hm)
    exact ⟨hne, hown⟩
  refine ⟨h.toMaps, fun p e hm hU => ?_, fun p q e e' hm hm' hU hU' hpa => ?_⟩
  · obtain ⟨hne, hpage⟩ := hown p e hm hU
    exact ⟨hne, p, hpage⟩
  · obtain ⟨hne, hpage⟩ := hown p e hm hU
    obtain ⟨-, hpage'⟩ := hown q e' hm' hU'
    refine Sum.inr.inj (h.tenancy.alone (hpage ▸ hne) ?_)
    rw [hpage, hpage', hpa]

/-- What the user may access is the process's own. -/
theorem UserTable.access_lt (h : UserTable room root f s m n trampoline trapframe)
    (ha : Access m a) : a / PGSIZE < n := by
  obtain ⟨e, hm, hU, -⟩ := addr_ne_zero ha.2
  exact h.user_lt hm hU

/-- The user's memory is written to. -/
theorem UserTable.written (h : UserTable room root f s m n trampoline trapframe)
    (hfree : t.freelist = s.freelist) (hkernel : t.kernelEnd = s.kernelEnd)
    (hacc : ∀ i < k, Access m (va + i))
    (hmem : ∀ b, (∀ i < k, b ≠ phys m (va + i)) → t.mem b = s.mem b) :
    UserTable room root f t m n trampoline trapframe ∧ Confined room s t := by
  have hspace := h.userSpace
  have hproc := h.toProcMem.congr hfree hkernel fun b hb => hmem b fun i hi heq =>
    hspace.not_inTable (hacc i hi).2 (heq ▸ hb)
  refine ⟨⟨hproc, h.frame, h.code, h.beyond, h.loose⟩, hkernel, fun b hb => hmem b ?_⟩
  rintro i hi rfl
  obtain ⟨e, hm, hU, hpa⟩ := addr_ne_zero (hacc i hi).2
  obtain ⟨hne, j, hj⟩ := hspace.owned _ _ hm hU
  rw [PGROUNDDOWN_phys (hacc i hi).2, hpa, ← hj] at hb
  exact hb (h.tenancy.inRoom (hj ▸ hne))

namespace UserImage

theorem usable_lt (h : UserImage room root f s m n trampoline trapframe usable img) {p : Nat}
    (hp : usable p) : p < n := by
  have hacc := (h.access (p * PGSIZE)).mpr (by rwa [Nat.mul_div_cancel _ (by decide)])
  have hlt := h.toUserTable.access_lt hacc
  rwa [Nat.mul_div_cancel _ (by decide)] at hlt

/-- There is nothing but zeros on the other pages. -/
theorem img_zero (h : UserImage room root f s m n trampoline trapframe usable img)
    (ha : ¬ usable (a / PGSIZE)) : img a = 0 := by
  rw [← h.byte]
  exact if_neg (mt (h.access a).mp ha)

/-- Bytes of the user are written. -/
theorem written (h : UserImage room root f s m n trampoline trapframe usable img)
    (hfree : t.freelist = s.freelist) (hkernel : t.kernelEnd = s.kernelEnd)
    (hacc : ∀ i < k, Access m (va + i))
    (hmem : ∀ b, (∀ i < k, b ≠ phys m (va + i)) → t.mem b = s.mem b) :
    UserImage room root f t m n trampoline trapframe usable (view m t).byte ∧ Confined room s t :=
  have hwritten := h.toUserTable.written hfree hkernel hacc hmem
  ⟨⟨hwritten.1, h.access, h.entry, rfl⟩, hwritten.2⟩

/-- **Bytes of one page** are written. -/
theorem memmove (h : UserImage room root f s m n trampoline trapframe usable img)
    (hva : usable (va / PGSIZE)) (hl : l.length ≤ PGSIZE - va % PGSIZE) :
    UserImage room root f (s.memmove (phys m va) l) m n trampoline trapframe usable
        (Bytes.splice img va l) ∧
      Confined room s (s.memmove (phys m va) l) := by
  have hacc := (h.access va).mpr hva
  obtain ⟨-, hview, hmem⟩ := h.toUserTable.userSpace.memmove hacc hl
  have hbyte : (view m (s.memmove (phys m va) l)).byte = Bytes.splice img va l := by
    rw [hview, UserMem.write_byte, h.byte]
  refine hbyte ▸ h.written rfl rfl (k := l.length) (fun i hi => (h.access _).mpr ?_) hmem
  rwa [show (va + i) / PGSIZE = va / PGSIZE by unfold PGSIZE at *; omega]

end UserImage

/-! ### Growing -/

/-- What is mapped for a page decides what `walkaddr` finds there. -/
theorem addr_congr (h : m' (a / PGSIZE) = m (a / PGSIZE)) : m'.addr a = m.addr a := by
  unfold PageMap.addr
  rw [h]

theorem access_congr (h : m'.addr a = m.addr a) : Access m' a ↔ Access m a := by
  unfold Access
  rw [h]

theorem byte_congr (h : m'.addr a = m.addr a)
    (hmem : Access m a → t.mem (phys m a) = s.mem (phys m a)) :
    (view m' t).byte a = (view m s).byte a := by
  by_cases hacc : Access m a
  · rw [byte_view ((access_congr h).mpr hacc), byte_view hacc, ← hmem hacc, phys, h]
    rfl
  · exact (if_neg (mt (access_congr h).mp hacc)).trans (if_neg hacc).symm

/-- A page of the user's. -/
theorem addr_userPage {pa : Nat} (h : m (a / PGSIZE) = some (.make pa USERPAGE)) :
    m.addr a = (Mapping.make pa USERPAGE).pa := by
  unfold PageMap.addr
  rw [h]
  exact if_pos (by change (USERPAGE % 1024 ||| PTE_V).testBit 4 = true; decide)

theorem lt_maxva_of_page (hn : n ≤ topPage) (ha : a / PGSIZE < n) : a < MAXVA := by
  unfold topPage TRAPFRAME TRAMPOLINE MAXVA PGSIZE at *
  omega

/-- **Zero pages are added.** -/
theorem UserImage.grown (h : UserImage room root f s m n trampoline trapframe usable img)
    (hg : Grown room root f s m n k t) :
    ∃ f' m', UserImage room root f' t m' k trampoline trapframe
      (fun p => usable p ∨ n ≤ p ∧ p < k) img ∧ Confined room s t := by
  obtain ⟨f', m', hproc, hkept, hfresh⟩ := hg
  have htable := h.toUserTable.of_kept hproc hkept
  have hnew : ∀ a, n ≤ a / PGSIZE → a / PGSIZE < k → Access m' a ∧
      m'.addr a = f' (.inr (a / PGSIZE)) := by
    intro a hn hk
    have hmapped := (hfresh _ hn hk).mapped
    obtain ⟨e, he, -, hne, hown⟩ := hproc.pages _ hk
    obtain rfl := Option.some.inj (hmapped.symm.trans he)
    have haddr := addr_userPage hmapped
    rw [haddr]
    exact ⟨⟨lt_maxva_of_page hproc.le_top hk, haddr ▸ hne⟩, hown.symm⟩
  have hold : ∀ a, a / PGSIZE < n → m'.addr a = m.addr a := fun a ha =>
    addr_congr (hkept.map _ (Or.inl ha))
  refine ⟨f', m', ⟨htable, fun a => ?_, fun p hp => ?_, ?_⟩, hkept.confined⟩
  · by_cases hlt : a / PGSIZE < n
    · rw [access_congr (hold a hlt)]
      refine (h.access a).trans ⟨Or.inl, fun hu => hu.elim id fun hn => ?_⟩
      exact absurd hlt (Nat.not_lt.mpr hn.1)
    · by_cases hk : a / PGSIZE < k
      · exact iff_of_true (hnew a (Nat.le_of_not_lt hlt) hk).1 (Or.inr ⟨by omega, hk⟩)
      · refine iff_of_false (fun hacc => hk (htable.access_lt hacc)) ?_
        rintro (hu | hu)
        · exact hlt (h.usable_lt hu)
        · exact hk hu.2
  · rcases hp with hp | ⟨hn, hk⟩
    · rw [hkept.map p (Or.inl (h.usable_lt hp))]
      exact h.entry p hp
    · exact ⟨_, (hfresh p hn hk).mapped⟩
  · funext a
    by_cases hlt : a / PGSIZE < n
    · rw [← h.byte]
      refine byte_congr (hold a hlt) fun hacc => ?_
      obtain ⟨e, hm, hU, hpa⟩ := addr_ne_zero hacc.2
      obtain ⟨e', hm', -, hne, hown⟩ := h.pages _ hlt
      obtain rfl := Option.some.inj (hm'.symm.trans hm)
      refine hkept.mem _ _ (Or.inl hlt) (hown ▸ hne) ?_
      rw [hown, ← hpa]
      exact (PGROUNDDOWN_phys hacc.2).symm
    · rw [h.img_zero fun hu => hlt (h.usable_lt hu)]
      change (if Access m' a then t.mem (phys m' a) else 0) = 0
      split
      next hacc =>
        obtain ⟨-, haddr⟩ := hnew a (Nat.le_of_not_lt hlt) (htable.access_lt hacc)
        refine (hfresh _ (Nat.le_of_not_lt hlt) (htable.access_lt hacc)).zero _ ?_
        rw [PGROUNDDOWN_phys hacc.2, haddr]
      next => rfl

/-! ### The page that is not for the user -/

/-- **`uvmclear`** takes a page of zeros from the user. -/
theorem UserImage.uvmclear (h : UserImage room root f s m n trampoline trapframe usable img)
    (hva : usable (va / PGSIZE)) (hzero : ∀ a, a / PGSIZE = va / PGSIZE → img a = 0) :
    Ends (Vm.uvmclear root va) s
      (fun _ t => UserImage room root f t (m.clear (va / PGSIZE)) n trampoline trapframe
        (fun p => usable p ∧ p ≠ va / PGSIZE) img ∧ Confined room s t)
      fun _ _ => False := by
  obtain ⟨pa, hentry⟩ := h.entry _ hva
  refine h.toMaps.uvmclear.mono ?_ fun _ _ hfail => ?_
  · rintro - t ⟨hmaps, -, hkernel, hmem⟩
    have hother : ∀ p ≠ va / PGSIZE, m.clear (va / PGSIZE) p = m p := fun p hp => if_neg hp
    have hthis : m.clear (va / PGSIZE) (va / PGSIZE) = some (Mapping.make pa USERPAGE).clear := by
      refine (if_pos rfl).trans ?_
      rw [hentry]
      rfl
    have hgone : ∀ a, a / PGSIZE = va / PGSIZE → ¬ Access (m.clear (va / PGSIZE)) a := by
      rintro a hp ⟨-, hne⟩
      obtain ⟨e, he, hU, -⟩ := addr_ne_zero hne
      rw [hp, hthis] at he
      obtain rfl := Option.some.inj he
      revert hU
      change ¬ ((USERPAGE % 1024 ||| PTE_V) &&& (2 ^ 10 - 1 - PTE_U)).testBit 4 = true
      decide
    have hlt := h.usable_lt hva
    have hle := h.le_top
    have hproc : ProcMem room root f t (m.clear (va / PGSIZE)) n := by
      refine ⟨hmaps, hle, fun p hp => ?_, fun p hp hp' => ?_⟩
      · obtain ⟨e, hm, hflags, hne, hown⟩ := h.pages p hp
        by_cases hthat : p = va / PGSIZE
        · subst hthat
          obtain rfl := Option.some.inj (hentry.symm.trans hm)
          refine ⟨_, hthis, ?_, hne, hown⟩
          change (USERPAGE % 1024 ||| PTE_V) &&& (2 ^ 10 - 1 - PTE_U) ≠ PTE_V
          decide
        · exact ⟨e, (hother p hthat).trans hm, hflags, hne, hown⟩
      · rw [hother p (by omega)]
        exact h.none_above p hp hp'
    have htable : UserTable room root f t (m.clear (va / PGSIZE)) n trampoline trapframe :=
      ⟨hproc, (hother _ (by omega)).trans h.frame, (hother _ (by omega)).trans h.code,
        fun p hp => (hother p (by omega)).trans (h.beyond p hp), h.loose⟩
    refine ⟨⟨htable, fun a => ?_, fun p hp => ?_, ?_⟩, hkernel, fun b hb => hmem b fun hin => ?_⟩
    · by_cases hp : a / PGSIZE = va / PGSIZE
      · exact iff_of_false (hgone a hp) fun hand => hand.2 hp
      · rw [access_congr (addr_congr (hother _ hp)), h.access]
        exact (and_iff_left hp).symm
    · rw [hother p hp.2]
      exact h.entry p hp.1
    · funext a
      by_cases hp : a / PGSIZE = va / PGSIZE
      · rw [hzero a hp]
        exact if_neg (hgone a hp)
      · rw [← h.byte]
        exact byte_congr (addr_congr (hother _ hp)) fun hacc =>
          hmem _ (h.toUserTable.userSpace.not_inTable hacc.2)
    · exact hb (hin.inRoom h.toPages)
  · have hnone := hfail (lt_maxva_of_page h.le_top (h.usable_lt hva))
    rw [hentry] at hnone
    cases hnone

/-! ### `copyout` -/

/-- **`copyout`** writes to the image what it is given, if the user may write it all. -/
theorem UserImage.copyout (h : UserImage room root f s m n trampoline trapframe usable img)
    (va : Nat) (src : List UInt8) :
    Ends (Vm.copyout root va src) s
      (fun r t => Confined room s t ∧ (r = 0 ∧ (∀ i < src.length, usable ((va + i) / PGSIZE)) ∧
          UserImage room root f t m n trampoline trapframe usable (Bytes.splice img va src) ∨
        r = -1 ∧ UserTable room root f t m n trampoline trapframe))
      fun _ _ => False := by
  refine (h.toUserTable.userSpace.copyoutLoop src.length va src).post ?_
  rintro r t ⟨-, hsame, heq, hmem⟩
  rw [UserMem.copyoutLoop_eq (Nat.le_refl _), Prod.mk.injEq] at heq
  obtain ⟨hr, hview⟩ := heq
  obtain ⟨-, hacc, -⟩ := extent_access s m va src.length
  obtain ⟨himage, hconfined⟩ := h.written hsame.freelist hsame.kernelEnd hacc hmem
  refine ⟨hconfined, ?_⟩
  split at hr
  next hall =>
    have hwhole : (view m s).reached va src = src := by
      rw [UserMem.reached_eq, UserMem.extent_eq_iff.mpr hall, List.take_length]
    have hbyte : (view m t).byte = Bytes.splice img va src := by
      rw [hview, hwhole, UserMem.write_byte, h.byte]
    exact Or.inl ⟨hr, fun i hi => (h.access _).mp (writable_view.mp hall i hi), hbyte ▸ himage⟩
  next => exact Or.inr ⟨hr, himage.toUserTable⟩

end Vm
