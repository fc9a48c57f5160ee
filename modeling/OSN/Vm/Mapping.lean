import OSN.Vm.Walk

/-!
# What a page table maps

A page table is a partial map from page numbers to physical pages with flags: the words of
its tables of level 0 are the entries of the map.
-/

namespace Vm

open Xv6 (PGSIZE MAXVA)

/-- A physical page with flags. -/
@[ext] structure Mapping where
  pa : Nat
  flags : Nat
  aligned : PGSIZE ∣ pa
  lt : pa < 2 ^ 64
  flags_lt : flags < 1024
  valid : flags.testBit 0 = true

/-- What is mapped: page number by page number. -/
abbrev PageMap := Nat → Option Mapping

namespace Mapping

/-- What `mappages` maps a page to. -/
def make (pa perm : Nat) : Mapping where
  pa := PGROUNDDOWN (pa % 2 ^ 64)
  flags := perm % 1024 ||| PTE_V
  aligned := Nat.dvd_mul_left _ _
  lt := Nat.lt_of_le_of_lt (PGROUNDDOWN_le _) (Nat.mod_lt _ (by decide))
  flags_lt := Nat.or_lt_two_pow (n := 10) (Nat.mod_lt _ (by decide)) (by decide)
  valid := by
    rw [Nat.testBit_or]
    simp [PTE_V]

/-- Without `PTE_U`. -/
def clear (e : Mapping) : Mapping :=
  { e with
    flags := e.flags &&& (2 ^ 10 - 1 - PTE_U)
    flags_lt := Nat.lt_of_le_of_lt Nat.and_le_left e.flags_lt
    valid := by
      rw [Nat.testBit_and, e.valid, testBit_all_but (by decide)]
      decide }

/-- The word that an entry is. -/
def encode : Option Mapping → Nat
  | none => 0
  | some e => entryOf e.pa e.flags

theorem encode_lt {x : Option Mapping} : encode x < 2 ^ 64 := by
  cases x with
  | none => decide
  | some e => exact entryOf_lt e.lt e.flags_lt

theorem encode_make {pa perm : Nat} (hpa : pa < 2 ^ 64) (hperm : perm < 1024) :
    encode (some (make pa perm)) = PA2PTE pa ||| perm ||| PTE_V := by
  rw [PA2PTE_or_or hperm]
  simp only [encode, make]
  rw [Nat.mod_eq_of_lt hpa, Nat.mod_eq_of_lt hperm]
  unfold entryOf PGROUNDDOWN
  rw [Nat.mul_div_cancel _ (by decide)]

theorem encode_and_V {x : Option Mapping} : encode x &&& PTE_V = 0 ↔ x = none := by
  cases x with
  | none => exact iff_of_true (Nat.zero_and _) rfl
  | some e =>
      refine iff_of_false (fun hzero => ?_) (by simp)
      have hvalid := (entry_and_V e.flags_lt).mp hzero
      rw [e.valid] at hvalid
      cases hvalid

theorem encode_clear {x : Option Mapping} :
    encode (x.map clear) = encode x &&& (2 ^ 64 - 1 - PTE_U) := by
  cases x with
  | none => exact (Nat.zero_and _).symm
  | some e => exact (entry_clear e.lt e.flags_lt).symm

theorem PTE2PA_encode {e : Mapping} : PTE2PA (encode (some e)) = e.pa := by
  rw [encode, PTE2PA_entryOf e.lt e.flags_lt]
  exact Nat.div_mul_cancel e.aligned

end Mapping

namespace PageMap

/-- What `walkaddr` returns. -/
def addr (m : PageMap) (va : Nat) : Nat :=
  match m (va / PGSIZE) with
  | none => 0
  | some e => if e.flags.testBit 4 then e.pa else 0

/-- `k` pages from `vpn` on are mapped to the physical pages from `pa` on. -/
def insert (m : PageMap) (vpn pa perm k : Nat) : PageMap := fun p =>
  if vpn ≤ p ∧ p < vpn + k then some (.make (pa + (p - vpn) * PGSIZE) perm) else m p

/-- `k` pages from `vpn` on are mapped no more. -/
def erase (m : PageMap) (vpn k : Nat) : PageMap := fun p =>
  if vpn ≤ p ∧ p < vpn + k then none else m p

/-- A page is not for the user any more. -/
def clear (m : PageMap) (vpn : Nat) : PageMap := fun p =>
  if p = vpn then (m p).map Mapping.clear else m p

variable {m : PageMap} {vpn pa perm k : Nat}

theorem insert_zero : m.insert vpn pa perm 0 = m := by
  funext p
  exact if_neg (by omega)

theorem make_add (a : Nat) : Mapping.make (a % 2 ^ 64) perm = Mapping.make a perm := by
  ext
  · simp [Mapping.make]
  · rfl

/-- The first page, and the others. -/
theorem insert_succ :
    m.insert vpn pa perm (k + 1) =
      (m.insert vpn pa perm 1).insert (vpn + 1) ((pa + PGSIZE) % 2 ^ 64) perm k := by
  funext p
  unfold insert
  by_cases hfirst : p = vpn
  · subst hfirst
    rw [if_pos (by omega), if_neg (by omega), if_pos (by omega)]
  · by_cases hrest : vpn + 1 ≤ p ∧ p < vpn + 1 + k
    · obtain ⟨i, rfl⟩ := Nat.exists_eq_add_of_le hrest.1
      have hpa : pa + (vpn + 1 + i - vpn) * PGSIZE = pa + PGSIZE + i * PGSIZE := by
        rw [show vpn + 1 + i - vpn = i + 1 by omega, Nat.succ_mul]
        omega
      rw [if_pos (by omega), if_pos hrest, hpa, Nat.add_sub_cancel_left, ← make_add,
        ← make_add ((pa + PGSIZE) % 2 ^ 64 + i * PGSIZE), Nat.mod_add_mod]
    · rw [if_neg (by omega), if_neg hrest, if_neg (by omega)]

theorem erase_zero : m.erase vpn 0 = m := by
  funext p
  exact if_neg (by omega)

theorem erase_succ : m.erase vpn (k + 1) = (m.erase vpn 1).erase (vpn + 1) k := by
  funext p
  unfold erase
  by_cases hfirst : p = vpn
  · subst hfirst
    rw [if_pos (by omega), if_neg (by omega), if_pos (by omega)]
  · by_cases hrest : vpn + 1 ≤ p ∧ p < vpn + 1 + k
    · rw [if_pos (by omega), if_pos hrest]
    · rw [if_neg (by omega), if_neg hrest, if_neg (by omega)]

end PageMap

/-- **The page table maps `m`.** -/
structure Maps (room : Nat → Prop) (root : Nat) (f : Owner → Nat) (s : Ram) (m : PageMap) : Prop
    extends Tree room root f s where
  entries : ∀ vpn, word s f 0 vpn = Mapping.encode (m vpn)

variable {room : Nat → Prop} {root : Nat} {f f' : Owner → Nat} {s t : Ram} {m : PageMap}
  {va vpn j x : Nat}

theorem Extended.maps (h : Extended room root f s f' t) (hm : Maps room root f s m) :
    Maps room root f' t m :=
  ⟨h.tree, fun vpn => (h.word0 vpn).trans (hm.entries vpn)⟩

/-- **`uvmcreate`** makes a page table that maps nothing. -/
theorem Pages.uvmcreate (h : Pages room f s) (hnone : ∀ k, f (.inl k) = 0) :
    Ends uvmcreate s
      (fun x t => x = 0 ∧ Denied s t ∨ x ≠ 0 ∧ Kalloced s x t ∧
        Maps room x (Function.update f (.inl (2, 0)) x) t fun _ => none)
      fun _ _ => False := by
  unfold Vm.uvmcreate
  refine (kalloc_ends h.freeList).bind ?_
  rintro x t (⟨rfl, hdenied⟩ | ⟨hx, hk⟩)
  · exact Or.inl ⟨rfl, hdenied⟩
  · unfold memset
    rw [if_neg hx, Ends.modify_bind_iff, Ends.pure_iff]
    have hpage := h.isPage (h.free x (hk.freelist ▸ List.mem_cons_self))
    obtain ⟨hpages, hword⟩ := h.newTable hk hx (hnone (2, 0))
    have hwords : ∀ l q, word (t.memset x 0 PGSIZE) (Function.update f (.inl (2, 0)) x) l q = 0 := by
      intro l q
      rw [hword, word, if_pos (hnone _)]
    refine Or.inr ⟨hx, ⟨hk.freelist, hk.kernelEnd, fun a ha => ?_⟩,
      ⟨⟨hpages, hx, fun q => ?_, fun l q hl => ?_, fun l hl q => ?_⟩, hwords 0⟩⟩
    · refine Eq.trans (if_neg ?_) (hk.mem a ha)
      rwa [← PGROUNDDOWN_eq hpage.aligned]
    · by_cases hq : q = 0
      · rw [hq, Function.update_self, if_pos rfl]
      · rw [if_neg hq, Function.update_of_ne, hnone]
        exact fun heq => hq (congrArg Prod.snd (Sum.inl.inj heq))
    · rw [Function.update_of_ne, hnone]
      intro heq
      have hlevel : l = 2 := congrArg Prod.fst (Sum.inl.inj heq)
      omega
    · rw [hwords, Function.update_of_ne, hnone]
      · rfl
      · intro heq
        have hlevel : l = 2 := congrArg Prod.fst (Sum.inl.inj heq)
        omega

namespace Maps

/-- **`walkaddr` looks up the map.** -/
theorem walkaddr (h : Maps room root f s m) (hva : va < MAXVA) :
    walkaddr root va s = .ok (m.addr va) s := by
  have hreads := h.toTree.walkaddr_reads hva
  rw [h.entries] at hreads
  have hvalue : (if Mapping.encode (m (va / PGSIZE)) &&& PTE_V = 0 then 0
      else if Mapping.encode (m (va / PGSIZE)) &&& PTE_U = 0 then 0
      else PTE2PA (Mapping.encode (m (va / PGSIZE)))) = m.addr va := by
    unfold PageMap.addr
    cases hm : m (va / PGSIZE) with
    | none => rfl
    | some e =>
        rw [if_neg (fun hV => by simpa using Mapping.encode_and_V.mp hV), Mapping.PTE2PA_encode]
        have hU : entryOf e.pa e.flags &&& PTE_U = 0 ↔ e.flags.testBit 4 = false :=
          entry_and_U e.flags_lt
        change (if entryOf e.pa e.flags &&& PTE_U = 0 then 0 else e.pa) = _
        simp only [hU]
        cases e.flags.testBit 4 <;> rfl
  obtain ⟨pa, t, hrun, rfl, hpa⟩ := hreads.exists_ok
  rw [hrun, hpa, hvalue]

/-- A page that is mapped has a table. -/
theorem table_of_some (h : Maps room root f s m) (hm : m (va / PGSIZE) ≠ none) :
    f (.inl (0, va / PGSIZE / 512)) ≠ 0 := by
  intro hzero
  have hentry := h.entries (va / PGSIZE)
  rw [word, if_pos hzero] at hentry
  exact hm (Mapping.encode_and_V.mp (hentry ▸ Nat.zero_and _))

/-- **An entry is written.** -/
theorem store (h : Maps room root f s m) (hne : f (.inl (0, va / PGSIZE / 512)) ≠ 0)
    {e : Option Mapping} :
    Maps room root f (s.store (entryAddr f va) (Mapping.encode e))
      (Function.update m (va / PGSIZE) e) := by
  obtain ⟨htree, hword, -⟩ := h.toTree.store_entry hne Mapping.encode_lt
  refine ⟨htree, fun vpn => ?_⟩
  rw [hword]
  by_cases hvpn : vpn = va / PGSIZE
  · rw [if_pos hvpn, hvpn, Function.update_self]
  · rw [if_neg hvpn, Function.update_of_ne hvpn]
    exact h.entries vpn

end Maps

end Vm
