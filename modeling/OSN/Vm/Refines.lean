import OSN.Vm.Unmapping

/-!
# A page table is a partial map

Calls on a page table that `uvmcreate` has made, between which pages are allocated, written
to and freed: after any run of them `walkaddr` looks up the map that the same calls build.
A run ends where the kernel panics.
-/

namespace Vm

open Xv6 (PGSIZE MAXVA)

/-- A page table, and the pages that `kalloc` has given out for other things. -/
structure Machine where
  ram : Ram
  pagetable : Nat
  held : List Nat

inductive VmCall
  /-- `walk` with `alloc`. -/
  | walk (va : Nat)
  | mappages (va size pa perm : Nat)
  | uvmunmap (va npages : Nat) (doFree : Bool)
  | uvmclear (va : Nat)
  | uvmdealloc (oldsz newsz : Nat)
  | kalloc
  | kfree (pa : Nat)
  /-- A byte of a page is written. -/
  | write (a : Nat) (c : UInt8)
  deriving DecidableEq

namespace VmCall

/-- The call, with what it returns. -/
def exec (pagetable : Nat) : VmCall → RamM Int
  | walk va => do
      let pte ← Vm.walk pagetable va true
      return pte
  | mappages va size pa perm => Vm.mappages pagetable va size pa perm
  | uvmunmap va npages doFree => do
      Vm.uvmunmap pagetable va npages doFree
      return 0
  | uvmclear va => do
      Vm.uvmclear pagetable va
      return 0
  | uvmdealloc oldsz newsz => do
      let sz ← Vm.uvmdealloc pagetable oldsz newsz
      return sz
  | kalloc => do
      let pa ← Vm.kalloc
      return pa
  | kfree pa => do
      Vm.kfree pa
      return 0
  | write a c => do
      modify fun s => { s with mem := Function.update s.mem a c }
      return 0

/-- The pages that the call has got for other things. -/
def gained (r : Int) : VmCall → List Nat
  | kalloc => if r = 0 then [] else [r.toNat]
  | _ => []

/-- The number of the last page of `mappages`. -/
def lastPage (va size : Nat) : Nat := (va + size - 1) % 2 ^ 64 / PGSIZE

/-- The number of the page at which `uvmunmap` stops. -/
def stopPage (va npages : Nat) : Nat := (va + npages * PGSIZE) % 2 ^ 64 / PGSIZE

/-- **What a call does to the map.**  A `mappages` that fails has mapped some pages. -/
def Effect (r : Int) (m m' : PageMap) : VmCall → Prop
  | mappages va size pa perm => ∃ k, m' = m.insert (va / PGSIZE) pa perm k ∧
      (∀ p, va / PGSIZE ≤ p → p < va / PGSIZE + k → m p = none) ∧
      (r = 0 ∧ va / PGSIZE + k = lastPage va size + 1 ∨
        r = -1 ∧ (va / PGSIZE ≤ lastPage va size → va / PGSIZE + k ≤ lastPage va size))
  | uvmunmap va npages _ => m' = m.erase (va / PGSIZE) (stopPage va npages - va / PGSIZE)
  | uvmclear va => m' = m.clear (va / PGSIZE)
  | uvmdealloc oldsz newsz => m' = if newsz < oldsz then
      m.erase (PGROUNDUP newsz / PGSIZE) (PGROUNDUP oldsz / PGSIZE - PGROUNDUP newsz / PGSIZE) else m
  | _ => m' = m

/-- The call is about the page. -/
def About (p : Nat) : VmCall → Prop
  | mappages va size _ _ =>
      va / PGSIZE ≤ p ∧ (va / PGSIZE ≤ lastPage va size → p ≤ lastPage va size)
  | uvmunmap va npages _ => va / PGSIZE ≤ p ∧ p < stopPage va npages
  | uvmclear va => p = va / PGSIZE
  | uvmdealloc oldsz newsz => PGROUNDUP newsz / PGSIZE ≤ p ∧ p < PGROUNDUP oldsz / PGSIZE
  | _ => False

end VmCall

namespace Machine

/-- The address in the entry for a page, or 0. -/
def pageAt (v : Machine) (p : Nat) : Nat :=
  match walk v.pagetable (p * PGSIZE) false v.ram with
  | .ok pte s => if pte = 0 then 0 else PTE2PA (s.load pte)
  | .error _ _ => 0

/-- The pages from `lo` on, below `hi`, are mapped to pages that may be freed, each once. -/
structure Owns (v : Machine) (lo hi : Nat) : Prop where
  held : ∀ p, lo ≤ p → p < hi → v.pageAt p ∈ v.held
  once : ∀ p q, lo ≤ p → p < hi → lo ≤ q → q < hi → v.pageAt p = v.pageAt q → p = q

/-- The preconditions of the calls that they do not check themselves. -/
def Allows (v : Machine) : VmCall → Prop
  | .mappages _ _ pa perm => pa < 2 ^ 64 ∧ perm < 1024
  | .uvmunmap va npages doFree =>
      doFree = true → v.Owns (va / PGSIZE) (VmCall.stopPage va npages)
  | .uvmdealloc oldsz newsz =>
      newsz < oldsz → v.Owns (PGROUNDUP newsz / PGSIZE) (PGROUNDUP oldsz / PGSIZE)
  | .kfree pa => pa ∈ v.held
  | .write a _ => PGROUNDDOWN a ∈ v.held
  | _ => True

/-- After a call; what is on the list of free pages is not held any more. -/
def after (v : Machine) (c : VmCall) (r : Int) (t : Ram) : Machine where
  ram := t
  pagetable := v.pagetable
  held := (c.gained r ++ v.held).filter (· ∉ t.freelist)

end Machine

/-- `uvmcreate` has made a page table, while pages are held already. -/
def Created (v : Machine) : Prop :=
  ∃ s, FreeList s ∧ (∀ x ∈ v.held, IsPage s x ∧ x ∉ s.freelist) ∧
    uvmcreate s = .ok v.pagetable v.ram ∧ v.pagetable ≠ 0

/-- The calls of a run, the last one first, with what they have returned. -/
inductive Runs (v₀ : Machine) : List (VmCall × Int) → Machine → Prop
  | nil : Runs v₀ [] v₀
  | cons {past v c r t} : Runs v₀ past v → v.Allows c → c.exec v.pagetable v.ram = .ok r t →
      Runs v₀ ((c, r) :: past) (v.after c r t)

/-- The map that calls build, starting from one that maps nothing. -/
inductive Builds : List (VmCall × Int) → PageMap → Prop
  | nil : Builds [] fun _ => none
  | cons {past m c r m'} : Builds past m → c.Effect r m m' → Builds ((c, r) :: past) m'

/-! ### The invariant of a run -/

variable {room : Nat → Prop} {f f' : Owner → Nat} {s t : Ram} {m m' : PageMap} {v v₀ : Machine}
  {c : VmCall} {r : Int} {past : List (VmCall × Int)} {p lo hi x : Nat} {L : List Nat}

/-- The owners that are no tables are the pages held. -/
structure Holds (f : Owner → Nat) (L : List Nat) : Prop where
  owner : ∀ x ∈ L, x ≠ 0 ∧ f (.inr x) = x
  held : ∀ x, f (.inr x) ≠ 0 → f (.inr x) = x ∧ x ∈ L

/-- **The page table maps `m`**, and no page held is one of its tables. -/
def Models (room : Nat → Prop) (v : Machine) (m : PageMap) : Prop :=
  ∃ f, Maps room v.pagetable f v.ram m ∧ Holds f v.held

theorem Holds.filter (hpages : Pages room f t)
    (hcand : ∀ x ∈ L, room x ∧ ∀ k, f (.inl k) ≠ x)
    (hheld : ∀ x, f (.inr x) ≠ 0 → f (.inr x) = x ∧ x ∈ L) :
    Holds f (L.filter (· ∉ t.freelist)) := by
  constructor
  · intro x hx
    rw [List.mem_filter, decide_eq_true_iff] at hx
    obtain ⟨hroom, htable⟩ := hcand x hx.1
    have hne := hpages.tenancy.ne_zero hroom
    obtain ⟨i, hi⟩ := (hpages.tenancy.taken_iff hroom).mp hx.2
    cases i with
    | inl k => exact absurd hi (htable k)
    | inr j =>
        have hj := (hheld j (hi ▸ hne)).1
        have hjx : j = x := hj.symm.trans hi
        exact ⟨hne, hjx ▸ hj⟩
  · intro x hx
    obtain ⟨heq, hmem⟩ := hheld x hx
    refine ⟨heq, List.mem_filter.mpr ⟨hmem, decide_eq_true ?_⟩⟩
    have hlives := hpages.tenancy.lives hx
    rwa [heq] at hlives

/-- Pages held are no tables. -/
theorem Holds.cand (h : Holds f L) (hpages : Pages room f t) :
    ∀ x ∈ L, room x ∧ ∀ k, f (.inl k) ≠ x := by
  intro x hx
  obtain ⟨hne, heq⟩ := h.owner x hx
  have hlives : f (.inr x) ≠ 0 := by rwa [heq]
  have hroom := hpages.tenancy.inRoom hlives
  rw [heq] at hroom
  refine ⟨hroom, fun k hk => ?_⟩
  exact hpages.tenancy.apart (Sum.inl_ne_inr) (hk ▸ hne) (hk.trans heq.symm)

theorem Models.of (h : Maps room v.pagetable f t m')
    (hcand : ∀ x ∈ c.gained r ++ v.held, room x ∧ ∀ k, f (.inl k) ≠ x)
    (hheld : ∀ x, f (.inr x) ≠ 0 → f (.inr x) = x ∧ x ∈ c.gained r ++ v.held) :
    Models room (v.after c r t) m' :=
  ⟨f, h, .filter h.toPages hcand hheld⟩

/-- There are perhaps more tables. -/
theorem Models.grow (hold : Holds f v.held) (hgain : c.gained r = []) (hgrows : Grows f s f' t)
    (h : Maps room v.pagetable f' t m') : Models room (v.after c r t) m' := by
  have hholds : Holds f' v.held := by
    refine ⟨fun x hx => ?_, fun x hx => ?_⟩
    · rw [hgrows.leaf]
      exact hold.owner x hx
    · rw [hgrows.leaf] at hx ⊢
      exact hold.held x hx
  refine .of h ?_ ?_
  · rw [hgain]
    exact hholds.cand h.toPages
  · rw [hgain]
    exact hholds.held

/-- Pages have been given back. -/
theorem Models.free (hmaps : Maps room v.pagetable f s m) (hold : Holds f v.held)
    (hgain : c.gained r = []) {out : Nat → Prop} (hfreed : Freed f s out f' t)
    (h : Maps room v.pagetable f' t m') : Models room (v.after c r t) m' := by
  refine .of h ?_ ?_
  · rw [hgain]
    intro x hx
    obtain ⟨hroom, htable⟩ := hold.cand hmaps.toPages x hx
    exact ⟨hroom, fun k => hfreed.table k ▸ htable k⟩
  · rw [hgain]
    intro x hx
    have hkept : ¬ out x := fun hout => hx (hfreed.gone x hout)
    rw [hfreed.kept x hkept] at hx ⊢
    exact hold.held x hx

/-! ### Calls -/

/-- The address in the entry of a page that is mapped. -/
theorem Maps.pageAt (h : Maps room v.pagetable f v.ram m) (hp : p * PGSIZE < MAXVA) {e : Mapping}
    (hm : m p = some e) : v.pageAt p = e.pa := by
  obtain ⟨va, hva⟩ : ∃ va, va = p * PGSIZE := ⟨_, rfl⟩
  have hpage : va / PGSIZE = p := by rw [hva, Nat.mul_div_cancel p (by decide)]
  rw [← hpage] at hm
  have hne : f (.inl (0, va / PGSIZE / 512)) ≠ 0 :=
    h.table_of_some (by rw [hm]; exact Option.some_ne_none e)
  have haddr : entryAddr f va ≠ 0 := by
    unfold entryAddr
    omega
  obtain ⟨pte, s, hrun, rfl, hpte⟩ := (h.walk_finds (hva ▸ hp)).exists_ok
  rw [if_neg hne] at hpte
  subst hpte
  rw [Machine.pageAt, ← hva, hrun]
  change (if entryAddr f va = 0 then 0 else _) = _
  rw [if_neg haddr, Tree.load_entry hne, h.entries, hm, Mapping.PTE2PA_encode]

/-- A page with an entry lies below `MAXVA`. -/
theorem pageAt_ne_zero (h : v.pageAt p ≠ 0) : p * PGSIZE < MAXVA := by
  by_contra hge
  refine h ?_
  rw [Machine.pageAt, walk, if_pos (Nat.not_lt.mp hge)]
  rfl

/-- Pages that may be freed have owners. -/
theorem Machine.Owns.lent (h : v.Owns lo hi) (hmaps : Maps room v.pagetable f v.ram m)
    (hold : Holds f v.held) : Lent f m v.pageAt lo hi where
  owner := by
    intro p hlo hhi e he
    obtain ⟨hne, heq⟩ := hold.owner _ (h.held p hlo hhi)
    rw [← hmaps.pageAt (pageAt_ne_zero hne) he]
    exact ⟨hne, heq⟩
  inj := h.once

/-- Pages that may be freed lie below `MAXVA`. -/
theorem Machine.Owns.le_max (h : v.Owns lo hi) (hold : Holds f v.held) (hlt : lo < hi) :
    hi * PGSIZE ≤ MAXVA := by
  have hlast := pageAt_ne_zero (hold.owner _ (h.held (hi - 1) (by omega) (by omega))).1
  unfold MAXVA PGSIZE at *
  omega

/-- **One call.** -/
theorem Models.step (h : Models room v m) (hallows : v.Allows c)
    (hrun : c.exec v.pagetable v.ram = .ok r t) :
    ∃ m', c.Effect r m m' ∧ Models room (v.after c r t) m' := by
  obtain ⟨f, hmaps, hold⟩ := h
  cases c with
  | walk va =>
      by_cases hva : va < MAXVA
      · obtain ⟨-, -, f', hext, -⟩ := (hmaps.walk_extends hva).returned hrun
        exact ⟨m, rfl, .grow hold rfl hext.toGrows (hext.maps hmaps)⟩
      · rw [VmCall.exec, walk, if_pos (Nat.not_lt.mp hva)] at hrun
        cases hrun
  | mappages va size pa perm =>
      obtain ⟨f', k, hgrows, hmaps', hvacant, hr⟩ :=
        (hmaps.mappages va size hallows.1 hallows.2).ok hrun
      have hpage : PGROUNDDOWN va / PGSIZE = va / PGSIZE := Nat.mul_div_cancel _ (by decide)
      have hlast : PGROUNDDOWN ((va + size - 1) % 2 ^ 64) = VmCall.lastPage va size * PGSIZE := rfl
      rw [hpage] at hmaps' hvacant
      rw [hlast] at hr
      refine ⟨_, ⟨k, rfl, hvacant, ?_⟩, .grow hold rfl hgrows hmaps'⟩
      unfold PGROUNDDOWN PGSIZE at hr
      unfold PGSIZE
      omega
  | uvmunmap va npages doFree =>
      obtain ⟨-, -, -, f', hmaps', hfreed⟩ := (hmaps.uvmunmap va npages doFree v.pageAt
        fun hfree => (hallows hfree).lent hmaps hold).returned hrun
      exact ⟨_, rfl, .free hmaps hold rfl hfreed hmaps'⟩
  | uvmclear va =>
      obtain ⟨-, -, hmaps', hfree, hkernel, hmem⟩ := hmaps.uvmclear.returned hrun
      exact ⟨_, rfl, .grow hold rfl ⟨fun _ _ => rfl, fun _ => rfl, hfree ▸ fun _ hy => hy,
        hkernel, hmem⟩ hmaps'⟩
  | uvmdealloc oldsz newsz =>
      have hmax : newsz < oldsz → PGROUNDUP newsz < PGROUNDUP oldsz →
          PGROUNDUP oldsz ≤ MAXVA := by
        intro hlt hpages
        have hnew := PGSIZE_dvd_PGROUNDUP newsz
        have hold' := PGSIZE_dvd_PGROUNDUP oldsz
        have hle := (hallows hlt).le_max hold (by unfold PGSIZE at *; omega)
        unfold PGSIZE at *
        omega
      obtain ⟨-, -, ⟨hge, -, rfl⟩ | ⟨hlt, -, f', hmaps', hfreed⟩⟩ := (hmaps.uvmdealloc hmax
        fun hlt => (hallows hlt).lent hmaps hold).returned hrun
      · exact ⟨m, (if_neg (Nat.not_lt.mpr hge)).symm, .grow hold rfl Grows.refl hmaps⟩
      · exact ⟨_, (if_pos hlt).symm, .free hmaps hold rfl hfreed hmaps'⟩
  | kalloc =>
      obtain ⟨x, rfl, ⟨rfl, hdenied⟩ | ⟨hne, hk⟩⟩ := (kalloc_ends hmaps.freeList).returned hrun
      · have hgrows : Grows f v.ram f t := ⟨fun _ _ => rfl, fun _ => rfl,
          hdenied.freelist ▸ fun _ hy => hy, hdenied.kernelEnd, fun _ _ => by rw [hdenied.mem]⟩
        refine ⟨m, rfl, .grow hold rfl hgrows ?_⟩
        exact hmaps.congr hdenied.freelist hdenied.kernelEnd fun _ _ => by rw [hdenied.mem]
      · have hfree : x ∈ v.ram.freelist := hk.freelist ▸ List.mem_cons_self
        have hnone : ∀ i, f i ≠ x := hmaps.ne_free hfree
        have hzero : f (.inr x) = 0 := by
          by_contra hthere
          exact hnone _ (hold.held x hthere).1
        have hgain : VmCall.gained (x : Int) .kalloc = [x] := if_neg (by omega)
        refine ⟨m, rfl, .of (hmaps.take hk hzero) ?_ ?_⟩
        · rw [hgain]
          intro y hy
          rcases List.mem_cons.mp hy with rfl | hy
          · exact ⟨hmaps.free y hfree, fun k => by
              rw [Function.update_of_ne Sum.inl_ne_inr]
              exact hnone _⟩
          · obtain ⟨hroom, htable⟩ := hold.cand hmaps.toPages y hy
            exact ⟨hroom, fun k => by
              rw [Function.update_of_ne Sum.inl_ne_inr]
              exact htable k⟩
        · rw [hgain]
          intro y hy
          by_cases hyx : y = x
          · rw [hyx, Function.update_self]
            exact ⟨rfl, List.mem_cons_self⟩
          · rw [Function.update_of_ne fun heq => hyx (Sum.inr.inj heq)] at hy ⊢
            obtain ⟨heq, hmem⟩ := hold.held y hy
            exact ⟨heq, List.mem_cons_of_mem x hmem⟩
  | kfree pa =>
      obtain ⟨hne, heq⟩ := hold.owner pa hallows
      rw [← heq] at hne
      have hrun' : VmCall.exec v.pagetable (.kfree (f (.inr pa))) v.ram = .ok r t := by rwa [heq]
      obtain ⟨-, -, hk⟩ := (kfree_ends (hmaps.page hne)).returned hrun'
      have hfreed : Freed f v.ram (fun j => j = pa) (Function.update f (.inr pa) 0) t := by
        refine ⟨fun k => Function.update_of_ne Sum.inl_ne_inr _ _, ?_, fun j hj => ?_,
          hk.kernelEnd, fun b _ hout => hk.mem b fun hb => ?_⟩
        · rintro j rfl
          exact Function.update_self _ _ _
        · exact Function.update_of_ne (fun heq => hj (Sum.inr.inj heq)) _ _
        · exact hout pa rfl hne hb.symm
      exact ⟨m, rfl, .free hmaps hold rfl hfreed (hmaps.give hne hk)⟩
  | write a b =>
      obtain ⟨hne, heq⟩ := hold.owner _ hallows
      cases hrun
      have hmem : ∀ i, InTable f i → Function.update v.ram.mem a b i = v.ram.mem i := by
        rintro i ⟨hi, k, hk⟩
        refine Function.update_of_ne ?_ _ _
        rintro rfl
        exact (hold.cand hmaps.toPages _ hallows).2 k hk
      refine ⟨m, rfl, .of (hmaps.congr rfl rfl hmem) ?_ ?_⟩
      · exact hold.cand hmaps.toPages
      · exact hold.held

/-! ### Runs -/

/-- A page table that has been made. -/
theorem Created.models (h : Created v₀) : ∃ room, Models room v₀ fun _ => none := by
  obtain ⟨s, hfree, hheld, hrun, hne⟩ := h
  let f : Owner → Nat := Sum.elim (fun _ => 0) fun x => if x ∈ v₀.held then x else 0
  have hposition : ∀ x ∈ v₀.held, x ≠ 0 := by
    intro x hx
    have hstart := (hheld x hx).1.start
    have hkernel := hfree.kernel
    omega
  have hf : ∀ i, f i ≠ 0 → i = .inr (f i) ∧ f i ∈ v₀.held := by
    rintro (k | x) hi
    · exact absurd rfl hi
    · by_cases hx : x ∈ v₀.held
      · have hfx : f (.inr x) = x := if_pos hx
        rw [hfx]
        exact ⟨rfl, hx⟩
      · exact absurd (if_neg hx) hi
  have hpages : Pages (fun x => x ∈ s.freelist ∨ x ∈ v₀.held) f s := by
    refine ⟨hfree.nodup, hfree.kernel, ?_, fun x hx => Or.inl hx, ?_, ?_, ?_, ?_⟩
    · rintro x (hx | hx)
      · exact hfree.page x hx
      · exact (hheld x hx).1
    · rintro (hx | hx)
      · have hstart := (hfree.page 0 hx).start
        have hkernel := hfree.kernel
        omega
      · exact hposition 0 hx rfl
    · intro i j hi hij
      rw [(hf i hi).1, (hf j (hij ▸ hi)).1, hij]
    · exact fun hi => Or.inr (hf _ hi).2
    · rintro x (hx | hx)
      · refine iff_of_false (not_not.mpr hx) ?_
        rintro ⟨i, rfl⟩
        have hzero : f i ≠ 0 := by
          have hstart := (hfree.page _ hx).start
          have hkernel := hfree.kernel
          omega
        exact (hheld _ (hf i hzero).2).2 hx
      · exact iff_of_true (hheld x hx).2 ⟨.inr x, if_pos hx⟩
  have hcreate := (hpages.uvmcreate fun _ => rfl).ok hrun
  obtain ⟨hzero, -⟩ | ⟨-, -, hmaps⟩ := hcreate
  · exact absurd hzero hne
  · refine ⟨_, _, hmaps, fun x hx => ⟨hposition x hx, ?_⟩, fun x hx => ?_⟩
    · rw [Function.update_of_ne Sum.inr_ne_inl]
      exact if_pos hx
    · rw [Function.update_of_ne Sum.inr_ne_inl] at hx ⊢
      obtain ⟨heq, hmem⟩ := hf _ hx
      rw [← Sum.inr.inj heq] at hmem ⊢
      exact ⟨rfl, hmem⟩

/-- **The invariant of a run.** -/
theorem Runs.models (h : Runs v₀ past v) (hstart : Models room v₀ fun _ => none) :
    ∃ m, Builds past m ∧ Models room v m := by
  induction h with
  | nil => exact ⟨_, .nil, hstart⟩
  | cons _ hallows hrun ih =>
      obtain ⟨m, hbuilds, hmodels⟩ := ih
      obtain ⟨m', heffect, hmodels'⟩ := hmodels.step hallows hrun
      exact ⟨m', .cons hbuilds heffect, hmodels'⟩

theorem Models.walkaddr (h : Models room v m) {va : Nat} (hva : va < MAXVA) :
    walkaddr v.pagetable va v.ram = .ok (m.addr va) v.ram := by
  obtain ⟨f, hmaps, -⟩ := h
  exact hmaps.walkaddr hva

/-- What a call is not about stays. -/
theorem VmCall.Effect.same (h : c.Effect r m m') (hp : ¬ c.About p) : m' p = m p := by
  cases c with
  | mappages va size pa perm =>
      obtain ⟨k, rfl, -, hr⟩ := h
      refine if_neg fun hin => hp ⟨hin.1, fun hle => ?_⟩
      omega
  | uvmunmap va npages doFree =>
      rw [VmCall.Effect] at h
      rw [h]
      refine if_neg fun hin => hp ⟨hin.1, ?_⟩
      omega
  | uvmclear va =>
      rw [VmCall.Effect] at h
      rw [h]
      exact if_neg hp
  | uvmdealloc oldsz newsz =>
      rw [VmCall.Effect] at h
      rw [h]
      split
      · refine if_neg fun hin => hp ⟨hin.1, ?_⟩
        omega
      · rfl
  | _ => exact congrFun h p

/-- A `mappages` that fails maps only pages that were not mapped. -/
theorem VmCall.Effect.intact {va size pa perm : Nat}
    (h : (VmCall.mappages va size pa perm).Effect r m m') (hm : m p ≠ none) : m' p = m p := by
  obtain ⟨k, rfl, hvacant, -⟩ := h
  exact if_neg fun hin => hm (hvacant p hin.1 hin.2)

/-- **A page table refines a partial map.** -/
theorem walkaddr_refines (hstart : Created v₀) (hrun : Runs v₀ past v) :
    ∃ m, Builds past m ∧
      (∀ va < MAXVA, walkaddr v.pagetable va v.ram = .ok (m.addr va) v.ram) ∧
      ∀ c r t, v.Allows c → c.exec v.pagetable v.ram = .ok r t →
        (∀ va < MAXVA, ¬ c.About (va / PGSIZE) →
          walkaddr v.pagetable va t = .ok (m.addr va) t) ∧
        ((∃ va size pa perm, c = .mappages va size pa perm) → ∀ va < MAXVA, m (va / PGSIZE) ≠ none →
          walkaddr v.pagetable va t = .ok (m.addr va) t) := by
  obtain ⟨room, hmodels₀⟩ := hstart.models
  obtain ⟨m, hbuilds, hmodels⟩ := hrun.models hmodels₀
  refine ⟨m, hbuilds, fun va hva => hmodels.walkaddr hva, fun c r t hallows hexec => ?_⟩
  obtain ⟨m', heffect, hmodels'⟩ := hmodels.step hallows hexec
  have hlookup : ∀ va < MAXVA, m' (va / PGSIZE) = m (va / PGSIZE) →
      walkaddr v.pagetable va t = .ok (m.addr va) t := by
    intro va hva hsame
    have hlook := hmodels'.walkaddr hva
    unfold PageMap.addr at hlook ⊢
    rwa [hsame] at hlook
  constructor
  · exact fun va hva hp => hlookup va hva (heffect.same hp)
  · rintro ⟨va', size, pa, perm, rfl⟩ va hva hm
    exact hlookup va hva (heffect.intact hm)

/-- A memory with four free pages. -/
def smallRam : Ram where
  mem := fun _ => 0
  freelist := [0x87fff000, 0x87ffe000, 0x87ffd000, 0x87ffc000]
  kernelEnd := 0x80021d80
  denied := fun _ => false

/-- The memory after code that does not panic. -/
def ramAfter {α : Type} (x : RamM α) (s : Ram) : Ram :=
  match x s with
  | .ok _ t => t
  | .error _ t => t

theorem eq_ok {α : Type} {x : RamM α} {a : α}
    (h : Ends x s (fun b _ => b = a) fun _ _ => False) : x s = .ok a (ramAfter x s) := by
  obtain ⟨b, t, hx, rfl⟩ := h.exists_ok
  rw [ramAfter, hx]

/-- The machine after a call. -/
def Machine.call (v : Machine) (c : VmCall) (r : Int) : Machine :=
  v.after c r (ramAfter (c.exec v.pagetable) v.ram)

/-- A page table in the first page. -/
def smallMachine : Machine := ⟨ramAfter uvmcreate smallRam, 0x87fff000, []⟩

/-- The second page is mapped at 0. -/
def smallMapped : Machine :=
  (smallMachine.call .kalloc 0x87ffe000).call (.mappages 0 PGSIZE 0x87ffe000 30) 0

/-- There is no page for a third table. -/
def smallEnd : Machine := smallMapped.call (.mappages (2 ^ 30) PGSIZE 0x1000 30) (-1)

theorem smallMachine_created : Created smallMachine := by
  refine ⟨smallRam, ⟨by decide, ?_, by decide⟩, fun x hx => absurd hx (List.not_mem_nil),
    eq_ok (by decide), by decide⟩
  intro x hx
  have hpage : ∀ x ∈ smallRam.freelist, PGSIZE ∣ x ∧ smallRam.kernelEnd ≤ x ∧ x < PHYSTOP := by
    decide
  obtain ⟨haligned, hstart, hstop⟩ := hpage x hx
  exact ⟨haligned, hstart, hstop⟩

theorem smallMapped_runs : Runs smallMachine
    [(.mappages 0 PGSIZE 0x87ffe000 30, 0), (.kalloc, 0x87ffe000)] smallMapped := by
  have hkalloc : Runs smallMachine [(.kalloc, 0x87ffe000)] (smallMachine.call .kalloc 0x87ffe000) :=
    Runs.nil.cons trivial (eq_ok (by decide))
  exact hkalloc.cons ⟨by decide, by decide⟩ (eq_ok (by decide))

theorem walkaddr_refines_small : ∃ m, Builds [(.mappages (2 ^ 30) PGSIZE 0x1000 30, -1),
    (.mappages 0 PGSIZE 0x87ffe000 30, 0), (.kalloc, 0x87ffe000)] m ∧ m.addr 0 = 0x87ffe000 := by
  have hruns := smallMapped_runs.cons (c := .mappages (2 ^ 30) PGSIZE 0x1000 30) (r := -1)
    ⟨by decide, by decide⟩ (eq_ok (by decide))
  obtain ⟨m, hbuilds, hlookup, -⟩ := walkaddr_refines smallMachine_created hruns
  refine ⟨m, hbuilds, ?_⟩
  have hzero : walkaddr smallEnd.pagetable 0 smallEnd.ram =
      .ok 0x87ffe000 (ramAfter (walkaddr smallEnd.pagetable 0) smallEnd.ram) :=
    eq_ok (by decide)
  have hsame := (hlookup 0 (by decide)).symm.trans hzero
  exact (EStateM.Result.ok.inj hsame).1

end Vm
