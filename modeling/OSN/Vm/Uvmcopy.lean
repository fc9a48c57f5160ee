import OSN.Vm.Growproc
import OSN.Vm.Rooms

/-!
# `uvmcopy`

`fork` copies the memory of a process page by page: each page goes into a free one, which is
mapped in the page table of the child with the flags that it has in the parent's.  The pages
of the child come from a room that the parent has no pages in, so nothing of the parent changes.
-/

namespace Vm

open Xv6 (PGSIZE MAXVA)

attribute [local irreducible] freewalk

/-- `memmove` of a page. -/
def copyPage (dst src : Nat) : RamM Unit :=
  modify fun s => s.memmove dst (Bytes.slice s.mem src PGSIZE)

/-- The end of `uvmcopy` after an error at `i`. -/
def copyErr (new i : Nat) : RamM Int := do
  uvmunmap new 0 (i / PGSIZE) true
  return -1

/-- The loop of `uvmcopy`. -/
def copyLoop (old new sz : Nat) : Nat → Nat → RamM Int
  | 0, _ => throw "walk"
  | fuel + 1, i =>
      if i < sz then do
        let pte ← walk old i false
        if pte = 0 then throw "uvmcopy: pte should exist"
        else
          let entry ← load pte
          if entry &&& PTE_V = 0 then throw "uvmcopy: page not present"
          else
            let mem ← kalloc
            if mem = 0 then copyErr new i
            else
              copyPage mem (PTE2PA entry)
              let r ← mappages new i PGSIZE mem (PTE_FLAGS entry)
              if r ≠ 0 then
                kfree mem
                copyErr new i
              else copyLoop old new sz fuel (i + PGSIZE)
      else return 0

/-- `uvmcopy`. -/
def uvmcopy (old new sz : Nat) : RamM Int := copyLoop old new sz (passes 0) 0

variable {room room' : Nat → Prop} {root old new : Nat} {f f₁ f₂ : Owner → Nat} {s t u v : Ram}
  {m m₁ m₂ : PageMap} {a i n k p x sz fuel : Nat} {e : Mapping} {r : Int}

/-! ### What is read of a page table -/

/-- **The entry of a page that is mapped** is found, and nothing changes. -/
theorem Maps.walk_some (h : Maps room root f s m) (ha : a < MAXVA) (hm : m (a / PGSIZE) = some e) :
    Ends (walk root a false) s
      (fun pte t => t = s ∧ pte ≠ 0 ∧ s.load pte = Mapping.encode (some e)) fun _ _ => False := by
  have hne : f (.inl (0, a / PGSIZE / 512)) ≠ 0 :=
    h.table_of_some (by rw [hm]; exact Option.some_ne_none e)
  refine (h.walk_finds ha).post ?_
  rintro pte t ⟨ht, hpte⟩
  rw [if_neg hne] at hpte
  refine ⟨ht, ?_, ?_⟩
  · rw [hpte]
    unfold entryAddr
    omega
  · rw [hpte, Tree.load_entry hne, h.entries, hm]

theorem Mapping.flags_or_V (e : Mapping) : e.flags ||| PTE_V = e.flags := by
  refine Nat.eq_of_testBit_eq fun i => ?_
  rw [Nat.testBit_or]
  by_cases hi : i = 0
  · rw [hi, e.valid, Bool.true_or]
  · have hV : PTE_V.testBit i = false := by
      unfold PTE_V
      rw [Nat.testBit_two_pow]
      simpa using Ne.symm hi
    rw [hV, Bool.or_false]

/-! ### Copies of pages -/

/-- Page `p` of `m₁` is a copy of that of `m`. -/
def PageCopy (s : Ram) (m : PageMap) (t : Ram) (m₁ : PageMap) (p : Nat) : Prop :=
  ∃ e e₁, m p = some e ∧ m₁ p = some e₁ ∧ e₁.flags = e.flags ∧
    ∀ i < PGSIZE, t.mem (e₁.pa + i) = s.mem (e.pa + i)

/-- A copy that is kept. -/
theorem PageCopy.kept (h : PageCopy s m t m₁ p) (hproc : ProcMem room root f₁ t m₁ n) (hp : p < n)
    (hkept : Kept room n f₁ t m₁ f₂ u m₂) : PageCopy s m u m₂ p := by
  obtain ⟨e, e₁, hm, hm₁, hflags, hbytes⟩ := h
  obtain ⟨hne, howner⟩ := hproc.owner hp hm₁
  refine ⟨e, e₁, hm, (hkept.map p (Or.inl hp)).trans hm₁, hflags, fun i hi => ?_⟩
  rw [hkept.samePage hp hne howner i hi]
  exact hbytes i hi

/-- A page is filled with what another holds. -/
theorem Kalloced.memmove (h : Kalloced s x t) (hx : PGSIZE ∣ x) {l : List UInt8}
    (hl : l.length ≤ PGSIZE) : Kalloced s x (t.memmove x l) := by
  refine ⟨h.freelist, h.kernelEnd, fun b hb => ?_⟩
  rw [Ne, PGROUNDDOWN_eq hx] at hb
  refine Eq.trans (Bytes.splice_outside ?_) (h.mem b fun heq => hb ((PGROUNDDOWN_eq hx).mp heq))
  omega

/-- **A page table** has its pages while another one changes that has none of them. -/
theorem Pages.beside (h : Pages room f s) (hout : ∀ i, f i ≠ 0 → ¬ room' (f i))
    (h₁ : Pages room' f₁ t) (hkernel : t.kernelEnd = s.kernelEnd) : Pages (Left f t) f t := by
  refine ⟨h₁.nodup, h₁.kernel, ?_, fun _ hx => Or.inl hx, ?_⟩
  · rintro x (hfree | ⟨hne, i, rfl⟩)
    · exact h₁.isPage (h₁.free x hfree)
    · have hpage := h.isPage (h.tenancy.inRoom hne)
      exact ⟨hpage.aligned, hkernel ▸ hpage.start, hpage.stop⟩
  · refine ⟨?_, h.tenancy.alone, fun hi => Or.inr ⟨hi, _, rfl⟩, fun {b} hb => ⟨fun hnot => ?_, ?_⟩⟩
    · rintro (hfree | ⟨hne, -⟩)
      · exact h₁.tenancy.zero (h₁.free 0 hfree)
      · exact hne rfl
    · exact (hb.resolve_left hnot).2
    · rintro ⟨i, rfl⟩ hfree
      refine hout i (fun hzero => ?_) (h₁.free _ hfree)
      rw [hzero] at hfree
      exact h₁.tenancy.zero (h₁.free 0 hfree)

/-- It maps what it mapped. -/
theorem ProcMem.beside (h : ProcMem room root f s m n) (hout : ∀ i, f i ≠ 0 → ¬ room' (f i))
    (h₁ : Pages room' f₁ t) (hconfined : Confined room' s t) : Maps (Left f t) root f t m :=
  h.toMaps.moved (h.toPages.beside hout h₁ hconfined.kernelEnd) fun b i hi hb =>
    hconfined.mem b (hb ▸ hout i hi)

/-- Its pages hold what they held. -/
theorem ProcMem.samePage (h : ProcMem room root f s m n) (hout : ∀ i, f i ≠ 0 → ¬ room' (f i))
    (hconfined : Confined room' s t) (hp : p < n) (hm : m p = some e) : SamePage s t e := by
  obtain ⟨hne, howner⟩ := h.owner hp hm
  intro i hi
  have hpage : PGROUNDDOWN (e.pa + i) = e.pa := by
    rw [PGROUNDDOWN_eq e.aligned]
    exact ⟨Nat.le_add_right _ _, Nat.add_lt_add_left hi _⟩
  refine hconfined.mem _ ?_
  rw [hpage, ← howner]
  exact hout _ (howner ▸ hne)

/-! ### The loop -/

/-- **The copies are given back** after an error. -/
theorem ProcMem.copyErr (h : ProcMem room root f s m (i / PGSIZE)) (hi : PGSIZE ∣ i)
    (hmax : i ≤ TRAPFRAME) :
    Ends (Vm.copyErr root i) s
      (fun r t => r = -1 ∧ ∃ f' m', ProcMem room root f' t m' 0 ∧ Kept room 0 f s m f' t m')
      fun _ _ => False := by
  have hstop : (0 + i / PGSIZE * PGSIZE) % 2 ^ 64 = i := by
    unfold TRAPFRAME TRAMPOLINE MAXVA PGSIZE at *
    omega
  have hlent : Lent f m (fun p => p) (0 / PGSIZE) (i / PGSIZE) := by
    refine ⟨fun p _ hp e he => ?_, fun p q _ _ _ _ heq => heq⟩
    exact h.owner hp he
  have hfreeing := h.toMaps.uvmunmap 0 (i / PGSIZE) true (fun p => p)
  rw [hstop] at hfreeing
  unfold Vm.copyErr
  refine ((hfreeing fun _ => hlent).mono (fun _ _ ht => ht.2) fun _ _ hfail => hfail ⟨Nat.dvd_zero _,
    Nat.le_trans hmax (by decide), fun p _ hp => ?_⟩).bind ?_
  · obtain ⟨e, he, hflags, -⟩ := h.pages p hp
    exact ⟨e, he, hflags⟩
  · rintro - t ⟨f', hmaps, hfreed⟩
    rw [Nat.zero_div, Nat.sub_zero] at hmaps
    have hle := h.le_top
    refine ⟨rfl, f', _, ⟨hmaps, Nat.zero_le _, fun _ hp => absurd hp (Nat.not_lt_zero _),
      fun p _ hp => ?_⟩,
      .of_freed hfreed h.toPages ?_ fun p hp => ?_⟩
    · by_cases hlt : p < i / PGSIZE
      · exact ⟨if_pos ⟨Nat.zero_le _, by omega⟩,
          hfreed.gone p ⟨rfl, p, Nat.zero_le _, hlt, rfl⟩⟩
      · obtain ⟨hm, hown⟩ := h.none_above p (Nat.le_of_not_lt hlt) hp
        refine ⟨(if_neg (by omega)).trans hm, ?_⟩
        rw [hfreed.kept p, hown]
        rintro ⟨-, q, -, hq, rfl⟩
        exact hlt hq
    · rintro j ⟨-, q, -, hq, rfl⟩
      exact ⟨Nat.zero_le _, Nat.lt_of_lt_of_le hq hle⟩
    · refine if_neg ?_
      omega

/-- What `uvmcopy` has done when it returns `r`. -/
def Copies (room : Nat → Prop) (s : Ram) (m : PageMap) (n new : Nat) (f₁ : Owner → Nat) (t : Ram)
    (m₁ : PageMap) (r : Int) (u : Ram) : Prop :=
  ∃ f₂ m₂, Kept room 0 f₁ t m₁ f₂ u m₂ ∧
    (r = 0 ∧ ProcMem room new f₂ u m₂ n ∧ (∀ p < n, PageCopy s m u m₂ p) ∨
      r = -1 ∧ ProcMem room new f₂ u m₂ 0)

theorem Copies.of_kept (h : Copies room s m n new f₂ u m₂ r v)
    (hkept : Kept room 0 f₁ t m₁ f₂ u m₂) : Copies room s m n new f₁ t m₁ r v := by
  obtain ⟨f₃, m₃, hkept', hr⟩ := h
  exact ⟨f₃, m₃, hkept.trans hkept', hr⟩

/-- **The page has not been mapped**: it is freed, and so are the copies. -/
theorem ProcMem.uncopy (h : ProcMem room root f s m (i / PGSIZE)) (hi : PGSIZE ∣ i)
    (hmax : i < TRAPFRAME) (h₁ : Maps room root f₁ t m) (hx : x ≠ 0)
    (hown : f₁ (.inr (i / PGSIZE)) = x)
    (hnone : ∀ p, i / PGSIZE < p → p < topPage → f₁ (.inr p) = 0)
    (hkept : Kept room (i / PGSIZE) f s m f₁ t m) :
    Ends (do kfree x; Vm.copyErr root i) t
      (fun r u => r = -1 ∧ ∃ f' m', ProcMem room root f' u m' 0 ∧ Kept room 0 f s m f' u m')
      fun _ _ => False := by
  subst hown
  refine (kfree_ends (h₁.page hx)).bind fun _ u hk => ?_
  obtain ⟨f₂, m₂, h₂, hkept₂⟩ := h.unadd h₁ (div_lt_topPage hi hmax) hnone hkept hx hk
  refine (h₂.copyErr hi (Nat.le_of_lt hmax)).post ?_
  rintro r v ⟨hr, f₃, m₃, h₃, hkept₃⟩
  exact ⟨hr, f₃, m₃, h₃, (hkept₂.mono (Nat.zero_le _)).trans hkept₃⟩

/-- **A page is copied.** -/
theorem ProcMem.copyPage (hold : ProcMem room old f s m n)
    (hout : ∀ i, f i ≠ 0 → ¬ room' (f i)) (h : ProcMem room' new f₁ t m₁ (i / PGSIZE))
    (hconfined : Confined room' s t) (hi : PGSIZE ∣ i) (hlt : i / PGSIZE < n)
    (hmax : i < TRAPFRAME) (hx : x ≠ 0) (hk : Kalloced t x u) (hm : m (i / PGSIZE) = some e)
    (hflags : e.flags ≠ PTE_V) :
    Ends (do Vm.copyPage x e.pa; mappages new i PGSIZE x e.flags) u
      (fun r v => r = 0 ∧ (∃ f₂ m₂, ProcMem room' new f₂ v m₂ (i / PGSIZE + 1) ∧
          Kept room' (i / PGSIZE) f₁ t m₁ f₂ v m₂ ∧ PageCopy s m v m₂ (i / PGSIZE)) ∨
        r = -1 ∧ ∃ f₂, Maps room' new f₂ v m₁ ∧ f₂ (.inr (i / PGSIZE)) = x ∧
          (∀ p, i / PGSIZE < p → p < topPage → f₂ (.inr p) = 0) ∧
          Kept room' (i / PGSIZE) f₁ t m₁ f₂ v m₁)
      fun _ _ => False := by
  have hpage := h.isPage (h.free x (hk.freelist ▸ List.mem_cons_self))
  have hlength : (Bytes.slice u.mem e.pa PGSIZE).length = PGSIZE := Bytes.slice_length
  have hk' := hk.memmove hpage.aligned (Nat.le_of_eq hlength)
  have hsame : SamePage s u e :=
    hold.samePage hout (hconfined.trans (hk.confined h.toPages)) hlt hm
  unfold Vm.copyPage
  rw [Ends.modify_bind_iff]
  refine (h.mapPage hi hmax hx hk' e.flags_lt (by rwa [e.flags_or_V])).post ?_
  rintro r v ⟨hmem, ⟨hr, f₂, hproc, hown, hkept⟩ | hfail⟩
  · refine Or.inl ⟨hr, f₂, _, hproc, hkept, e, _, hm, Function.update_self _ _ _, ?_, ?_⟩
    · change e.flags % 1024 ||| PTE_V = e.flags
      rw [Nat.mod_eq_of_lt e.flags_lt, e.flags_or_V]
    · obtain ⟨e', he', -, -, hown'⟩ := hproc.pages _ (Nat.lt_succ_self _)
      rw [Function.update_self] at he'
      have hpa : (Mapping.make x e.flags).pa = x :=
        (congrArg Mapping.pa (Option.some.inj he')).trans (hown'.symm.trans hown)
      intro k hk
      have hbyte : (u.memmove x (Bytes.slice u.mem e.pa PGSIZE)).mem (x + k) = u.mem (e.pa + k) := by
        refine (Bytes.splice_inside (by rwa [hlength])).trans ?_
        exact Option.some.inj ((List.getElem?_eq_getElem _).symm.trans (Bytes.slice_getElem hk))
      rw [hpa, hmem _ ((PGROUNDDOWN_eq hpage.aligned).mpr ⟨Nat.le_add_right _ _,
        Nat.add_lt_add_left hk _⟩), hbyte]
      exact hsame k hk
  · exact Or.inr hfail

/-- **The loop of `uvmcopy`** copies all the pages or none. -/
theorem ProcMem.copyLoop (hold : ProcMem room old f s m (PGROUNDUP sz / PGSIZE))
    (hout : ∀ i, f i ≠ 0 → ¬ room' (f i)) (h : ProcMem room' new f₁ t m₁ (i / PGSIZE))
    (hconfined : Confined room' s t) (hcopied : ∀ p < i / PGSIZE, PageCopy s m t m₁ p)
    (hi : PGSIZE ∣ i) (hend : i < sz + PGSIZE) (hsz : sz ≤ TRAPFRAME)
    (hfuel : topPage - i / PGSIZE < fuel) :
    Ends (copyLoop old new sz fuel i) t
      (Copies room' s m (PGROUNDUP sz / PGSIZE) new f₁ t m₁) fun _ _ => False := by
  induction fuel generalizing f₁ t m₁ i with
  | zero => exact absurd hfuel (Nat.not_lt_zero _)
  | succ fuel ih =>
      have htop := hold.lt_top
      have hround : PGROUNDUP sz = (sz + PGSIZE - 1) / PGSIZE * PGSIZE := by
        unfold PGROUNDUP
        unfold TRAPFRAME TRAMPOLINE MAXVA PGSIZE at *
        omega
      unfold Vm.copyLoop
      by_cases hlt : i < sz
      · have hpage : i / PGSIZE < PGROUNDUP sz / PGSIZE := by
          rw [hround]
          unfold PGSIZE at *
          omega
        have hmax : i < TRAPFRAME := by
          unfold topPage at htop
          unfold TRAPFRAME TRAMPOLINE MAXVA PGSIZE at *
          omega
        obtain ⟨e, hm, hflags, -, -⟩ := hold.pages _ hpage
        rw [if_pos hlt]
        refine ((hold.beside hout h.toPages hconfined).walk_some
          (Nat.lt_of_lt_of_le hmax (by decide)) hm).bind ?_
        rintro pte t' ⟨heq, hpte, hload⟩
        rw [heq, if_neg hpte]
        unfold Vm.load
        rw [bind_assoc, Ends.get_bind_iff, Ends.pure_bind_iff, hload, Mapping.PTE2PA_encode,
          if_neg (Mapping.encode_and_V.not.mpr (Option.some_ne_none e))]
        simp only [Mapping.encode, PTE_FLAGS_entryOf e.flags_lt]
        refine (kalloc_ends h.freeList).bind ?_
        rintro x u (⟨rfl, hdenied⟩ | ⟨hx, hk⟩)
        · rw [if_pos rfl]
          have hu : ProcMem room' new f₁ u m₁ (i / PGSIZE) :=
            h.congr hdenied.freelist hdenied.kernelEnd fun _ _ => by rw [hdenied.mem]
          have hkept : Kept room' 0 f₁ t m₁ f₁ u m₁ :=
            ⟨fun _ _ => rfl, fun _ _ => rfl, fun _ _ _ _ _ => by rw [hdenied.mem],
              fun _ _ => by rw [hdenied.mem], hdenied.kernelEnd⟩
          refine (hu.copyErr hi (Nat.le_of_lt hmax)).post ?_
          rintro r v ⟨hr, f₂, m₂, hv, hkept'⟩
          exact ⟨f₂, m₂, hkept.trans hkept', Or.inr ⟨hr, hv⟩⟩
        · rw [if_neg hx]
          have hcopy := hold.copyPage hout h hconfined hi hpage hmax hx hk hm hflags
          rw [Ends.bind_iff] at hcopy ⊢
          refine hcopy.post fun _ u' hu' => hu'.bind ?_
          rintro r v (⟨rfl, f₂, m₂, hv, hkept, hnew⟩ | ⟨rfl, f₂, hv, hown, hnone, hkept⟩)
          · rw [if_neg (by decide)]
            have hsucc : (i + PGSIZE) / PGSIZE = i / PGSIZE + 1 := page_succ
            refine (ih (hsucc.symm ▸ hv) (hconfined.trans hkept.confined) ?_
              (Nat.dvd_add hi (Nat.dvd_refl _)) (by omega) (by omega)).post fun r w hw =>
                hw.of_kept (hkept.mono (Nat.zero_le _))
            rw [hsucc]
            intro p hp
            rcases Nat.lt_succ_iff_lt_or_eq.mp hp with hbefore | rfl
            · exact (hcopied p hbefore).kept h hbefore hkept
            · exact hnew
          · rw [if_pos (by decide)]
            refine (h.uncopy hi hmax hv hx hown hnone hkept).post ?_
            rintro r w ⟨hr, f₃, m₃, hw, hkept'⟩
            exact ⟨f₃, m₃, hkept', Or.inr ⟨hr, hw⟩⟩
      · rw [if_neg hlt]
        have hpages : i / PGSIZE = PGROUNDUP sz / PGSIZE := by
          rw [hround]
          unfold PGSIZE at *
          omega
        exact ⟨f₁, m₁, .refl, Or.inl ⟨rfl, hpages ▸ h, fun p hp => hcopied p (hpages ▸ hp)⟩⟩

end Vm
