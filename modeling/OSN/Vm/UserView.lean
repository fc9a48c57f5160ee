import OSN.Vm.AllOrNothing
import OSN.Vm.Uvmcopy

/-!
# The memory of a process as its user sees it

A page table stands for a `UserMem`: the pages that the user may access, and their bytes.
What grows, shrinks, copies or writes the memory of a process does to the `UserMem` what one
expects.
-/

namespace Xv6.UserMem

/-- A memory of `n` pages that gets `k`: new pages hold zeros. -/
def resize (mem : UserMem) (n k : Nat) : UserMem where
  mapped p := decide (p < k) && if p < n then mem.mapped p else decide (p < Vm.topPage)
  byte a := if a / PGSIZE < n ∧ a / PGSIZE < k then mem.byte a else 0
  mapped_lt := by
    intro p hp
    rw [Bool.and_eq_true] at hp
    split at hp
    · exact mem.mapped_lt p hp.2
    · have htop := of_decide_eq_true hp.2
      unfold Vm.topPage Vm.TRAPFRAME Vm.TRAMPOLINE at htop
      unfold MAXVA PGSIZE at *
      omega

variable {mem : UserMem} {n k p a : Nat}

theorem resize_mapped_old (hp : p < n) :
    (mem.resize n k).mapped p = (decide (p < k) && mem.mapped p) := by
  change (decide (p < k) && if p < n then mem.mapped p else decide (p < Vm.topPage)) = _
  rw [if_pos hp]

theorem resize_mapped_new (hp : n ≤ p) :
    (mem.resize n k).mapped p = (decide (p < k) && decide (p < Vm.topPage)) := by
  change (decide (p < k) && if p < n then mem.mapped p else decide (p < Vm.topPage)) = _
  rw [if_neg (Nat.not_lt.mpr hp)]

theorem resize_byte :
    (mem.resize n k).byte a = if a / PGSIZE < n ∧ a / PGSIZE < k then mem.byte a else 0 := rfl

theorem lt_of_resize_mapped (hp : (mem.resize n k).mapped p = true) : p < k :=
  of_decide_eq_true (Bool.and_eq_true_iff.mp hp).1

theorem ext_pages {m m' : UserMem} (hmapped : ∀ a, m.mapped (a / PGSIZE) = m'.mapped (a / PGSIZE))
    (hbyte : ∀ a, m.byte a = m'.byte a) : m = m' := by
  have hall : m.mapped = m'.mapped := by
    funext p
    have hp := hmapped (p * PGSIZE)
    rwa [Nat.mul_div_cancel _ (by decide)] at hp
  have hbytes : m.byte = m'.byte := funext hbyte
  cases m
  cases m'
  cases hall
  cases hbytes
  rfl

end Xv6.UserMem

namespace Vm

open Xv6 (PGSIZE MAXVA UserMem)

attribute [local irreducible] freewalk

variable {room room' : Nat → Prop} {root old new : Nat} {f f' f₁ : Owner → Nat} {s t u : Ram}
  {m m' m₁ : PageMap} {a k n sz va trampoline trapframe frame : Nat} {e : Mapping} {mem : UserMem}
  {usable : Nat → Prop} {img : Nat → UInt8} {src : List UInt8}

/-- **The page table of a process** and the memory that its user sees. -/
structure UserView (room : Nat → Prop) (root : Nat) (f : Owner → Nat) (s : Ram) (m : PageMap)
    (n trampoline trapframe : Nat) (mem : UserMem) : Prop
    extends UserTable room root f s m n trampoline trapframe where
  user : ∀ p, mem.mapped p = true → ∃ pa, m p = some (.make pa USERPAGE)
  sees : view m s = mem

/-- The user sees the image. -/
theorem UserImage.userView (h : UserImage room root f s m n trampoline trapframe usable img) :
    UserView room root f s m n trampoline trapframe (view m s) ∧
      (∀ p, (view m s).mapped p = true ↔ usable p) ∧ (view m s).byte = img := by
  have hmapped : ∀ p, (view m s).mapped p = true ↔ usable p := by
    intro p
    have haccess := h.access (p * PGSIZE)
    rw [Nat.mul_div_cancel _ (by decide)] at haccess
    exact (decide_eq_true_iff).trans haccess
  exact ⟨⟨h.toUserTable, fun p hp => h.entry p ((hmapped p).mp hp), rfl⟩, hmapped, h.byte⟩

namespace UserView

theorem access_iff (h : UserView room root f s m n trampoline trapframe mem) (a : Nat) :
    Access m a ↔ mem.mapped (a / PGSIZE) = true := by
  rw [← h.sees, mapped_view, decide_eq_true_iff]

/-- The image is what the user sees. -/
theorem userImage (h : UserView room root f s m n trampoline trapframe mem) :
    UserImage room root f s m n trampoline trapframe (mem.mapped · = true) mem.byte :=
  ⟨h.toUserTable, h.access_iff, h.user, h.sees ▸ rfl⟩

theorem mapped_lt_size (h : UserView room root f s m n trampoline trapframe mem) {p : Nat}
    (hp : mem.mapped p = true) : p < n := h.userImage.usable_lt hp

/-- **The user sees what he saw** when his pages stay. -/
theorem moved (h : UserView room root f s m n trampoline trapframe mem) (hpages : Pages room' f t)
    (hmem : ∀ b i, f i ≠ 0 → f i = PGROUNDDOWN b → t.mem b = s.mem b) :
    UserView room' root f t m n trampoline trapframe mem := by
  obtain ⟨hview, -, hbyte⟩ := (h.userImage.moved hpages hmem).userView
  refine ⟨hview.toUserTable, h.user, ?_⟩
  refine (UserMem.ext_pages (fun a => ?_) fun a => congrFun hbyte a)
  rw [← h.sees, mapped_view, mapped_view]

/-- **The memory gets `k` pages.** -/
theorem resized (h : UserView room root f s m n trampoline trapframe mem)
    (hproc : ProcMem room root f' t m' k) {j : Nat} (hkept : Kept room j f s m f' t m')
    (hj : ∀ p, p < n → p < k → p < j) (hfresh : ∀ p, n ≤ p → p < k → Fresh f' t m' p) :
    UserView room root f' t m' k trampoline trapframe (mem.resize n k) := by
  have htable := h.toUserTable.of_kept hproc hkept
  have hold : ∀ a, a / PGSIZE < n → a / PGSIZE < k → m'.addr a = m.addr a := fun a ha ha' =>
    addr_congr (hkept.map _ (Or.inl (hj _ ha ha')))
  have hnew : ∀ a, n ≤ a / PGSIZE → a / PGSIZE < k → Access m' a ∧
      m'.addr a = f' (.inr (a / PGSIZE)) := by
    intro a hn hk
    have hpage := (hfresh _ hn hk).mapped
    obtain ⟨e, he, -, hne, hown⟩ := hproc.pages _ hk
    obtain rfl := Option.some.inj (hpage.symm.trans he)
    have haddr := addr_userPage hpage
    rw [haddr]
    exact ⟨⟨lt_maxva_of_page hproc.le_top hk, haddr ▸ hne⟩, hown.symm⟩
  have hthere : ∀ a, Access m' a ↔ (mem.resize n k).mapped (a / PGSIZE) = true := by
    intro a
    by_cases hk : a / PGSIZE < k
    · by_cases hn : a / PGSIZE < n
      · rw [access_congr (hold a hn hk), h.access_iff, UserMem.resize_mapped_old hn,
          decide_eq_true hk, Bool.true_and]
      · refine iff_of_true (hnew a (Nat.le_of_not_lt hn) hk).1 ?_
        rw [UserMem.resize_mapped_new (Nat.le_of_not_lt hn), decide_eq_true hk, Bool.true_and]
        exact decide_eq_true (Nat.lt_of_lt_of_le hk hproc.le_top)
    · exact iff_of_false (fun hacc => hk (htable.access_lt hacc)) fun hbad =>
        hk (UserMem.lt_of_resize_mapped hbad)
  refine ⟨htable, fun p hp => ?_, UserMem.ext_pages (fun a => ?_) fun a => ?_⟩
  · have hk := UserMem.lt_of_resize_mapped hp
    by_cases hn : p < n
    · rw [UserMem.resize_mapped_old hn, decide_eq_true hk, Bool.true_and] at hp
      rw [hkept.map p (Or.inl (hj p hn hk))]
      exact h.user p hp
    · exact ⟨_, (hfresh p (Nat.le_of_not_lt hn) hk).mapped⟩
  · rw [mapped_view, Bool.eq_iff_iff, decide_eq_true_iff, hthere]
  · by_cases hboth : a / PGSIZE < n ∧ a / PGSIZE < k
    · rw [UserMem.resize_byte, if_pos hboth, ← h.sees]
      refine byte_congr (hold a hboth.1 hboth.2) fun hacc => ?_
      obtain ⟨e, hm, hU, hpa⟩ := addr_ne_zero hacc.2
      obtain ⟨e', hm', -, hne, hown⟩ := h.pages _ hboth.1
      obtain rfl := Option.some.inj (hm'.symm.trans hm)
      refine hkept.mem _ _ (Or.inl (hj _ hboth.1 hboth.2)) (hown ▸ hne) ?_
      rw [hown, ← hpa]
      exact (PGROUNDDOWN_phys hacc.2).symm
    · rw [UserMem.resize_byte, if_neg hboth]
      change (if Access m' a then t.mem (phys m' a) else 0) = 0
      split
      next hacc =>
        have hk := htable.access_lt hacc
        have hn : n ≤ a / PGSIZE := Nat.le_of_not_lt fun hn => hboth ⟨hn, hk⟩
        refine (hfresh _ hn hk).zero _ ?_
        rw [PGROUNDDOWN_phys hacc.2, (hnew a hn hk).2]
      next => rfl

/-- There is nothing beyond the last page. -/
theorem resize_self (h : UserView room root f s m n trampoline trapframe mem) :
    mem.resize n n = mem := by
  refine UserMem.ext_pages (fun a => ?_) fun a => ?_
  · by_cases ha : a / PGSIZE < n
    · rw [UserMem.resize_mapped_old ha, decide_eq_true ha, Bool.true_and]
    · rw [UserMem.resize_mapped_new (Nat.le_of_not_lt ha), decide_eq_false ha, Bool.false_and]
      exact (Bool.eq_false_of_not_eq_true fun hbad => ha (h.mapped_lt_size hbad)).symm
  · rw [UserMem.resize_byte]
    split
    · rfl
    next ha =>
      refine (h.userImage.img_zero fun hbad => ha ?_).symm
      exact ⟨h.mapped_lt_size hbad, h.mapped_lt_size hbad⟩

/-- **`growproc`** resizes the memory, or leaves it as it is. -/
theorem growproc (h : UserView room root f s m (PGROUNDUP sz / PGSIZE) trampoline trapframe mem)
    (hsz : sz ≤ TRAPFRAME) (hkernel : KERNBASE ≤ s.kernelEnd) {n : Int}
    (hn : -2 ^ 31 ≤ n ∧ n < 2 ^ 31) :
    Ends (Vm.growproc root sz n) s
      (fun r t => Confined room s t ∧ r.2 ≤ TRAPFRAME ∧
        (r.1 = 0 ∧ (r.2 : Int) = (if 0 ≤ (sz : Int) + n then sz + n else sz) ∨
          r.1 = -1 ∧ r.2 = sz ∧ 0 < n) ∧
        ∃ f' m', UserView room root f' t m' (PGROUNDUP r.2 / PGSIZE) trampoline trapframe
          (mem.resize (PGROUNDUP sz / PGSIZE) (PGROUNDUP r.2 / PGSIZE)))
      fun _ _ => False := by
  have hmem := Process.le_memory ⟨hsz, hkernel, room, f, h.toProcMem⟩
  have hmod : sz % 2 ^ 32 = sz := Nat.mod_eq_of_lt (by omega)
  have hsame : UserView room root f s m (PGROUNDUP sz / PGSIZE) trampoline trapframe
      (mem.resize (PGROUNDUP sz / PGSIZE) (PGROUNDUP sz / PGSIZE)) := by
    rwa [h.resize_self]
  unfold Vm.growproc
  rw [hmod]
  dsimp only
  rcases lt_trichotomy 0 n with hpos | rfl | hneg
  · obtain ⟨newsz, hnew⟩ : ∃ newsz : Nat, (newsz : Int) = sz + n :=
      ⟨_, Int.toNat_of_nonneg (by omega)⟩
    have hwrap : (((sz : Int) + n) % 2 ^ 32).toNat = newsz := by omega
    rw [if_pos hpos, hwrap]
    refine (h.toProcMem.uvmalloc (show sz ≤ newsz by omega)).bind ?_
    rintro r t (⟨hle, rfl, f', m', hproc, hkept, hfresh⟩ | ⟨rfl, f', m', hproc, hkept⟩)
    · rw [if_neg (by omega), Nat.mod_eq_of_lt (by omega)]
      refine ⟨hkept.confined, hle, Or.inl ⟨rfl, ?_⟩, f', m', h.resized hproc hkept
        (fun p hp _ => hp) hfresh⟩
      rw [if_pos (by omega), hnew]
    · refine ⟨hkept.confined, hsz, Or.inr ⟨rfl, rfl, hpos⟩, f', m',
        h.resized hproc hkept (fun p hp _ => hp) fun p hp hp' => ?_⟩
      exact absurd hp' (Nat.not_lt.mpr hp)
  · refine ⟨.refl, hsz, Or.inl ⟨rfl, ?_⟩, f, m, hsame⟩
    rw [if_pos (by omega), Int.add_zero]
  · rw [if_neg (by omega), if_pos hneg]
    by_cases hover : 0 ≤ (sz : Int) + n
    · obtain ⟨newsz, hnew⟩ : ∃ newsz : Nat, (newsz : Int) = sz + n :=
        ⟨_, Int.toNat_of_nonneg hover⟩
      have hwrap : (((sz : Int) + n) % 2 ^ 32).toNat = newsz := by omega
      rw [hwrap]
      refine (h.toProcMem.uvmdealloc hsz (by omega)).bind ?_
      rintro r t ⟨rfl, f', m', hproc, hkept⟩
      have hround := PGROUNDUP_mono (show r ≤ sz by omega) hsz
      rw [Nat.mod_eq_of_lt (by omega)]
      refine ⟨hkept.confined, by dsimp only; omega, Or.inl ⟨rfl, ?_⟩, f', m',
        h.resized hproc hkept (fun p _ hp => hp) fun p hp hp' => ?_⟩
      · rw [if_pos hover, hnew]
      · have hpages := Nat.div_le_div_right (c := PGSIZE) hround.1
        dsimp only at hp'
        omega
    · have hge : sz ≤ (((sz : Int) + n) % 2 ^ 32).toNat := by omega
      refine (Ends.of_ok (uvmdealloc_ge hge) (Q := fun r t => r = sz ∧ t = s) ⟨rfl, rfl⟩).bind ?_
      rintro _ _ ⟨rfl, rfl⟩
      rw [hmod]
      refine ⟨.refl, hsz, Or.inl ⟨rfl, ?_⟩, f, m, hsame⟩
      rw [if_neg hover]

/-- **`copyout`** writes to the memory what it would write to the user's. -/
theorem copyout (h : UserView room root f s m n trampoline trapframe mem) (va : Nat)
    (src : List UInt8) :
    Ends (Vm.copyout root va src) s
      (fun r t => Confined room s t ∧ r = (if mem.Writable va src.length then 0 else -1) ∧
        UserView room root f t m n trampoline trapframe (mem.write va (mem.reached va src)))
      fun _ _ => False := by
  refine (h.toUserTable.userSpace.copyoutLoop src.length va src).post ?_
  rintro r t ⟨-, hsame, heq, hmem⟩
  obtain ⟨-, hacc, -⟩ := extent_access s m va src.length
  obtain ⟨himage, hconfined⟩ :=
    h.userImage.written hsame.freelist hsame.kernelEnd hacc hmem
  rw [h.sees, UserMem.copyoutLoop_eq (Nat.le_refl _), Prod.mk.injEq] at heq
  exact ⟨hconfined, heq.1, himage.toUserTable, h.user, heq.2⟩

/-- **`uvmcopy`** gives the child the memory of the parent, or none. -/
theorem uvmcopy
    (hold : UserView room old f s m (PGROUNDUP sz / PGSIZE) trampoline trapframe mem)
    (hout : ∀ i, f i ≠ 0 → ¬ room' (f i))
    (h : UserTable room' new f₁ s m₁ 0 trampoline frame) (hsz : sz ≤ TRAPFRAME) :
    Ends (Vm.uvmcopy old new sz) s
      (fun r u => Confined room' s u ∧ ∃ f₂ m₂,
        (r = 0 ∧ UserView room' new f₂ u m₂ (PGROUNDUP sz / PGSIZE) trampoline frame mem ∨
          r = -1 ∧ UserTable room' new f₂ u m₂ 0 trampoline frame))
      fun _ _ => False := by
  have hzero : 0 / PGSIZE = 0 := Nat.zero_div _
  refine (hold.toProcMem.copyLoop hout (hzero.symm ▸ h.toProcMem) .refl
    (fun p hp => absurd hp (hzero ▸ Nat.not_lt_zero p)) (Nat.dvd_zero _)
    (Nat.lt_of_lt_of_le (by decide) (Nat.le_add_left PGSIZE sz)) hsz (by decide)).post ?_
  rintro r u ⟨f₂, m₂, hkept, ⟨rfl, hproc, hcopies⟩ | ⟨rfl, hproc⟩⟩
  · have htable := h.of_kept hproc hkept
    refine ⟨hkept.confined, f₂, m₂, Or.inl ⟨rfl, htable, fun p hp => ?_, ?_⟩⟩
    · obtain ⟨e, e₁, hm, hm₁, hflags, -⟩ := hcopies p (hold.mapped_lt_size hp)
      obtain ⟨pa, hpa⟩ := hold.user p hp
      obtain rfl := Option.some.inj (hpa.symm.trans hm)
      refine ⟨e₁.pa, hm₁.trans (congrArg some (Mapping.ext ?_ hflags))⟩
      change e₁.pa = PGROUNDDOWN (e₁.pa % 2 ^ 64)
      rw [Nat.mod_eq_of_lt e₁.lt, PGROUNDDOWN_of_dvd e₁.aligned]
    · have hsame : ∀ a, Access m₂ a ↔ Access m a := by
        intro a
        by_cases ha : a / PGSIZE < PGROUNDUP sz / PGSIZE
        · obtain ⟨e, e₁, hm, hm₁, hflags, -⟩ := hcopies _ ha
          obtain ⟨e', he', -, hne, -⟩ := hold.pages _ ha
          obtain ⟨e₁', he₁', -, hne₁, -⟩ := hproc.pages _ ha
          obtain rfl := Option.some.inj (he'.symm.trans hm)
          obtain rfl := Option.some.inj (he₁'.symm.trans hm₁)
          refine and_congr_right fun _ => ?_
          unfold PageMap.addr
          rw [hm, hm₁]
          dsimp only
          rw [hflags]
          split
          · exact iff_of_true hne₁ hne
          · exact Iff.rfl
        · exact iff_of_false (fun hacc => ha (htable.access_lt hacc)) fun hacc =>
            ha (hold.toUserTable.access_lt hacc)
      rw [← hold.sees]
      refine UserMem.ext_pages (fun a => ?_) fun a => ?_
      · rw [mapped_view, mapped_view]
        exact decide_eq_decide.mpr (hsame a)
      · change (if Access m₂ a then u.mem (phys m₂ a) else 0) =
          if Access m a then s.mem (phys m a) else 0
        by_cases hacc : Access m a
        · rw [if_pos hacc, if_pos ((hsame a).mpr hacc)]
          obtain ⟨e, e₁, hm, hm₁, -, hbytes⟩ := hcopies _ (hold.toUserTable.access_lt hacc)
          obtain ⟨e', hm', -, hpa⟩ := addr_ne_zero hacc.2
          obtain ⟨e₁', hm₁', -, hpa₁⟩ := addr_ne_zero ((hsame a).mpr hacc).2
          obtain rfl := Option.some.inj (hm'.symm.trans hm)
          obtain rfl := Option.some.inj (hm₁'.symm.trans hm₁)
          unfold phys
          rw [hpa, hpa₁]
          exact hbytes _ (Nat.mod_lt _ (by decide))
        · rw [if_neg hacc, if_neg fun hbad => hacc ((hsame a).mp hbad)]
  · exact ⟨hkept.confined, f₂, m₂, Or.inr ⟨rfl, h.of_kept hproc hkept⟩⟩

end UserView

end Vm
