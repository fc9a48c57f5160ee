import OSN.Lib.Run
import OSN.User.Malloc

/-!
# Programs that allocate memory

A program calls `malloc` and `free`, gets memory of its own with `sbrk`, and writes to what it
has got.  It gives back what it was given, once.
-/

namespace Umalloc

open Vm (PGROUNDUP)
open Heap

variable {s t : Heap} {p q v n nx nunits nbytes fuel : Nat} {l l' l₁ l₂ : List Extent}
  {b x y z : Extent}

/-- **The blocks `l` are free**; before the first call there are none. -/
def Arena (s : Heap) (l : List Extent) : Prop :=
  s.freep = 0 ∧ l = [] ∧ s.brk ≤ MEMORY ∧ 0 < s.base ∧ s.base + 16 ≤ s.brk ∨ Ring s l

/-- **What `malloc` gives**: the block `b`, from what was free and what the kernel has given. -/
structure Serves (s t : Heap) (l : List Extent) (nunits r : Nat) (l' : List Extent) (b : Extent) :
    Prop where
  ring : Ring t l'
  result : r = b.addr + HEADERSIZE
  len : b.len = 16 * nunits
  size : b.len = 16 * t.size b.addr
  low : s.base + 16 ≤ b.addr
  high : b.stop ≤ t.brk
  apart : ∀ x ∈ l', x.Apart b
  others : ∀ z : Extent, 0 < z.len → z.stop ≤ s.brk → (∀ x ∈ l, x.Apart z) →
    ∀ y ∈ b :: l', y.Apart z
  total : Extent.total l' + b.len + s.brk = Extent.total l + t.brk
  base : t.base = s.base
  brk : s.brk ≤ t.brk
  mem : ∀ a < s.brk, a < s.base ∨ s.base + 16 ≤ a → (∀ x ∈ l, ¬ x.Holds a) → t.mem a = s.mem a

/-- The kernel has refused, and nothing is left that is large enough. -/
structure Fails (s t : Heap) (l : List Extent) (nunits : Nat) : Prop where
  ring : Ring t l
  small : ∀ x ∈ l, x.len < 16 * nunits
  refused : Refused s (16 * morecoreUnits nunits)
  base : t.base = s.base
  brk : t.brk = s.brk
  mem : ∀ a, a < s.base ∨ s.base + 16 ≤ a → t.mem a = s.mem a

theorem Given.serves {r : Nat} (hring : Ring s l) (h : Given s t l nunits r l' b) :
    Serves s t l nunits r l' b := by
  obtain ⟨x, hx, hstart, hstop⟩ := h.parts b List.mem_cons_self
  refine ⟨h.ring, h.result, h.len, h.size, (hring.low x hx).trans hstart, ?_, h.apart,
    fun z _ _ hl y hy => (h.parts y hy).apart hl, ?_, h.writes.base, Nat.le_of_eq h.writes.brk.symm,
    fun a _ ha hl => h.writes.mem a ha hl⟩
  · rw [h.writes.brk]
    exact hstop.trans (hring.high x hx)
  · rw [h.writes.brk, h.total]

/-- **`malloc`** when the ring is there. -/
theorem Ring.malloc (h : Ring s l) (hpos : 1 ≤ nunits) (hsmall : nunits < 2 ^ 27)
    (hfuel : 2 * (nodes s.base l).length + 1 ≤ fuel) :
    Ends (mallocLoop nunits fuel s.freep (s.ptr s.freep)) s
      (fun r t => r = 0 ∧ Fails s t l nunits ∨ ∃ l' b, Serves s t l nunits r l' b)
      fun _ _ => False := by
  rcases h.scan (Q := fun r t => r = 0 ∧ Fails s t l nunits ∨ ∃ l' b, Serves s t l nunits r l' b)
    (E := fun _ _ => False) hpos (by omega : (nodes s.base l).length ≤ fuel) with
    hgiven | ⟨hnone, rest, hrest, hiff⟩
  · refine hgiven.post ?_
    rintro r t ⟨l', b, hgiven⟩
    exact Or.inr ⟨l', b, hgiven.serves h⟩
  · rw [hiff]
    refine (h.morecore hsmall).bind ?_
    rintro p t (⟨rfl, hrefused, rfl⟩ | ⟨hp, rfl, hmax, l', hfrees⟩)
    · rw [if_pos rfl]
      refine Or.inl ⟨rfl, h.congr rfl rfl (Nat.le_refl _) h.memory (fun _ _ => rfl) fun _ _ => rfl,
        hnone, hrefused, rfl, rfl, fun _ _ => rfl⟩
    · rw [if_neg hp, loadPtr_bind (hfrees.ring.mapped hfrees.ring.freep)]
      have hlength := hfrees.joins.length
      have hbrk : t.brk = s.brk + 16 * morecoreUnits nunits := hfrees.writes.brk
      have hbase : t.base = s.base := hfrees.writes.base
      have hnodes : (nodes t.base l').length ≤ rest := by
        unfold nodes at *
        rw [List.length_cons, List.length_map] at *
        omega
      obtain ⟨y, hy, hlarge⟩ := hfrees.joins.fits _ List.mem_cons_self
      rcases hfrees.ring.scan (Q := fun _ _ => False) (E := fun _ _ => False) hpos hnodes with
        hgiven | ⟨hbad, -⟩
      · refine hgiven.post ?_
        rintro r u ⟨l'', b, hgiven⟩
        have hserves := hgiven.serves hfrees.ring
        have htotal := hfrees.joins.total
        have hnew : ∀ z : Extent, z.stop ≤ s.brk →
            Extent.Apart ⟨s.brk, 16 * morecoreUnits nunits⟩ z := fun z hz => Or.inr hz
        refine Or.inr ⟨l'', b, hserves.ring, hserves.result, hserves.len, hserves.size,
          hbase ▸ hserves.low, hserves.high, hserves.apart, fun z hz hstop hl => ?_, ?_,
          hserves.base.trans hbase, ?_, fun a ha hout hl => ?_⟩
        · refine hserves.others z hz (by omega) fun x hx => hfrees.joins.apart z hz ?_ x hx
          exact List.forall_mem_cons.mpr ⟨hnew z hstop, hl⟩
        · have hsum := hserves.total
          rw [htotal, Extent.total_cons, hbrk] at hsum
          dsimp only at hsum
          omega
        · have hle := hserves.brk
          omega
        · have hold : ∀ x ∈ ⟨s.brk, 16 * morecoreUnits nunits⟩ :: l, ¬ Extent.Holds x a :=
            List.forall_mem_cons.mpr ⟨fun hin => absurd ha (Nat.not_lt.mpr hin.1), hl⟩
          refine (hserves.mem a (by omega) (hbase ▸ hout) fun x hx hin => ?_).trans
            (hfrees.writes.mem a hout hold)
          obtain ⟨w, hw, hin'⟩ := hfrees.joins.holds a ⟨x, hx, hin⟩
          exact hold w hw hin'
      · have hless := hbad y hy
        have hle := le_morecoreUnits nunits
        dsimp only at hlarge
        omega

/-- A request for less than 2 GB. -/
theorem unitsOf_bounds (h : nbytes < 2 ^ 31 - 31) :
    1 ≤ unitsOf nbytes ∧ unitsOf nbytes < 2 ^ 27 ∧ nbytes + 16 ≤ 16 * unitsOf nbytes := by
  unfold unitsOf HEADERSIZE
  omega

/-- The first call makes a ring of `base` alone. -/
theorem Arena.enter (h : Arena s l) (nbytes : Nat) : ∃ u, Ring u l ∧ u.base = s.base ∧ u.brk = s.brk ∧
    u.granted = s.granted ∧ (∀ a, a < s.base ∨ s.base + 16 ≤ a → u.mem a = s.mem a) ∧
    ∀ {Q : Nat → Heap → Prop} {E : String → Heap → Prop}, Ends (Umalloc.malloc nbytes) s Q E ↔
      Ends (mallocLoop (unitsOf nbytes) (2 * u.brk) u.freep (u.ptr u.freep)) u Q E := by
  unfold Umalloc.malloc passes
  rcases h with ⟨hfreep, rfl, hmem, hbase, hstop⟩ | h
  · have hm : s.Mapped s.base := hstop.trans (le_PGROUNDUP hmem)
    have hlt : s.base < 2 ^ 64 := Nat.lt_of_le_of_lt (by omega) (Nat.lt_of_le_of_lt hmem (by decide))
    have hring : Ring ({ s.setPtr s.base s.base with freep := s.base }.setSize s.base 0) [] := by
      refine ⟨?_, size_setSize (by decide), by simp, List.Pairwise.nil, by simp, by simp, by simp,
        List.mem_cons_self, hmem, hbase, hstop⟩
      refine List.isChain_cons_cons.mpr ⟨?_, .singleton _⟩
      refine (ptr_setSize (Or.inl rfl)).trans ?_
      exact ptr_setPtr hlt
    refine ⟨_, hring, rfl, rfl, rfl, fun a ha => ?_, fun {Q E} => ?_⟩
    · exact (setSize_outside ha).trans (setPtr_outside (s := s) ha)
    · rw [Ends.get_bind_iff]
      dsimp only
      rw [if_pos hfreep, storePtr_bind hm]
      unfold setFreep
      rw [Ends.modify_bind_iff,
        storeSize_bind (s := { s.setPtr s.base s.base with freep := s.base }) hm,
        Ends.get_bind_iff, bind_assoc, Ends.get_bind_iff, Ends.pure_bind_iff,
        loadPtr_bind (hring.mapped hring.freep)]
  · refine ⟨s, h, rfl, rfl, rfl, fun _ _ => rfl, fun {Q E} => ?_⟩
    rw [Ends.get_bind_iff]
    dsimp only
    rw [if_neg (h.node_pos h.freep), Ends.get_bind_iff, bind_assoc, Ends.get_bind_iff,
      Ends.pure_bind_iff, loadPtr_bind (h.mapped h.freep)]

/-- **`malloc`** of less than 2 GB. -/
theorem Arena.malloc (h : Arena s l) (hsmall : nbytes < 2 ^ 31 - 31) :
    Ends (Umalloc.malloc nbytes) s
      (fun r t => r = 0 ∧ Fails s t l (unitsOf nbytes) ∨
        ∃ l' b, Serves s t l (unitsOf nbytes) r l' b) fun _ _ => False := by
  obtain ⟨hpos, hunits, -⟩ := unitsOf_bounds hsmall
  obtain ⟨u, hring, hbase, hbrk, hgranted, hmem, hiff⟩ := h.enter nbytes
  have hlength := hring.length_le
  have hstop := hring.base_stop
  rw [hiff]
  refine (hring.malloc hpos hunits (by omega)).post ?_
  rintro r t (⟨rfl, hfails⟩ | ⟨l', b, hserves⟩)
  · refine Or.inl ⟨rfl, hfails.ring, hfails.small, ?_, hfails.base.trans hbase,
      hfails.brk.trans hbrk, fun a ha => (hfails.mem a (hbase ▸ ha)).trans (hmem a ha)⟩
    have hrefused := hfails.refused
    unfold Refused at *
    rwa [hbrk, hgranted] at hrefused
  · exact Or.inr ⟨l', b, hserves.ring, hserves.result, hserves.len, hserves.size,
      hbase ▸ hserves.low, hserves.high, hserves.apart, hbrk ▸ hserves.others,
      hbrk ▸ hserves.total, hserves.base.trans hbase, hbrk ▸ hserves.brk,
      fun a ha hout hl => (hserves.mem a (hbrk ▸ ha) (hbase ▸ hout) hl).trans (hmem a hout)⟩

/-! ### Requests of 2 GB -/

/-- The argument of `sbrk` is an `int`: what is asked for is less than nothing. -/
theorem toInt_huge (h : 2 ^ 31 ≤ n) (h' : n ≤ 2 ^ 32) : toInt n ≤ 0 := by
  unfold toInt
  rw [BitVec.toInt_eq_toNat_cond, BitVec.toNat_ofNat]
  split <;> omega

/-- Behind a heap that ends with a page there is nothing. -/
theorem page_end {m : Nat} (hm : m ≤ n) (hpages : Xv6.PGSIZE ∣ n) (hmax : n ≤ MEMORY) :
    PGROUNDUP m < n + 8 + 4 := by
  have hsmall : n < 2 ^ 64 - 2 ^ 12 := Nat.lt_of_le_of_lt hmax (by decide)
  unfold PGROUNDUP Xv6.PGSIZE at *
  omega

/-- **`malloc` of 2 GB or more**, with nothing behind the heap on its last page, is a page
fault: the kernel takes memory away, or gives none, and calls that a success. -/
theorem malloc_huge (h : Arena s l) (hpages : Xv6.PGSIZE ∣ s.brk) (hlow : 2 ^ 31 - 31 ≤ nbytes)
    (hhigh : nbytes ≤ 2 ^ 32 - 16) :
    Ends (Umalloc.malloc nbytes) s (fun _ _ => False) fun e _ => e = "page fault" := by
  have hunits : 2 ^ 27 ≤ unitsOf nbytes ∧ unitsOf nbytes ≤ 2 ^ 28 := by
    unfold unitsOf HEADERSIZE
    omega
  obtain ⟨u, hring, hbase, hbrk, -, -, hiff⟩ := h.enter nbytes
  have hlength := hring.length_le
  have hstop := hring.base_stop
  have hmax := hring.memory
  rw [hiff]
  rcases hring.scan (Q := fun _ _ => False) (E := fun e _ => e = "page fault")
    (by omega : 1 ≤ unitsOf nbytes) (by omega : (nodes u.base l).length ≤ 2 * u.brk) with
    hgiven | ⟨-, rest, -, hmore⟩
  · refine hgiven.mono ?_ fun _ _ hbad => hbad.elim
    rintro r t ⟨l', b, hgiven⟩
    obtain ⟨x, hx, hstart, hend⟩ := hgiven.parts b List.mem_cons_self
    have hxhigh := hring.high x hx
    have hlen := hgiven.len
    unfold MEMORY at hmax
    unfold Extent.stop at *
    omega
  · have hnu : (if unitsOf nbytes < 4096 then 4096 else unitsOf nbytes) = unitsOf nbytes :=
      if_neg (by omega)
    have hint : toInt (unitsOf nbytes * HEADERSIZE) ≤ 0 :=
      toInt_huge (by unfold HEADERSIZE; omega) (by unfold HEADERSIZE; omega)
    have hnomem : u.brk ≠ NOMEM := by
      intro hbad
      have hlt : MEMORY < NOMEM := by decide
      omega
    rw [hmore]
    unfold Umalloc.morecore Umalloc.sbrk
    dsimp only
    rw [hnu, bind_assoc, bind_assoc, Ends.get_bind_iff, if_neg (Int.not_lt.mpr hint), bind_assoc,
      Ends.set_bind_iff, Ends.pure_bind_iff, if_neg hnomem]
    unfold storeSize
    rw [bind_assoc, bind_assoc, access_fails (page_end ?_ (hbrk ▸ hpages) hmax)]
    dsimp only
    split <;> omega

theorem malloc_huge_empty : Ends (Umalloc.malloc (2 ^ 31)) ⟨fun _ => 0, 4096, 0, 8192, fun _ => true⟩
    (fun _ _ => False) fun e _ => e = "page fault" :=
  malloc_huge (l := []) (Or.inl ⟨rfl, rfl, by decide, by decide, by decide⟩) ⟨2, rfl⟩ (by decide)
    (by decide)

/-! ### The program -/

/-- A program: what `malloc` has given it, with the sizes, and what it has got with `sbrk`. -/
structure Prog where
  heap : Heap
  live : List (Nat × Nat)
  own : List Extent

/-- What a program does. -/
inductive Call
  | malloc (nbytes : Nat)
  | free (p : Nat)
  | sbrk (n : Nat)
  | write (a : Nat) (v : UInt8)
  deriving DecidableEq

/-- The memory that a program has got. -/
def Prog.Owns (w : Prog) (a : Nat) : Prop :=
  (∃ c ∈ w.live, c.1 ≤ a ∧ a < c.1 + c.2) ∨ ∃ x ∈ w.own, x.addr ≤ a ∧ a < x.stop

instance (w : Prog) (a : Nat) : Decidable (w.Owns a) := by
  unfold Prog.Owns
  infer_instance

/-- May it do so?  It asks for less than 2 GB, frees what it was given, and writes to what it
has got. -/
def Call.Ready (w : Prog) : Call → Prop
  | .malloc nbytes => nbytes < 2 ^ 31 - 31
  | .free p => p ∈ w.live.map Prod.fst
  | .sbrk n => n < 2 ^ 31
  | .write a _ => w.Owns a

instance (w : Prog) : (c : Call) → Decidable (c.Ready w)
  | .malloc nbytes => inferInstanceAs (Decidable (nbytes < 2 ^ 31 - 31))
  | .free p => inferInstanceAs (Decidable (p ∈ w.live.map Prod.fst))
  | .sbrk n => inferInstanceAs (Decidable (n < 2 ^ 31))
  | .write a _ => inferInstanceAs (Decidable (w.Owns a))

/-- The heap of the program. -/
def Prog.heapPart : Component Prog Heap where
  get := Prog.heap
  set s w := { w with heap := s }

/-- **What the call does**, with what it returns. -/
def perform : Call → EStateM String Prog Nat
  | .malloc nbytes => do
      let r ← Prog.heapPart.run (malloc nbytes)
      if r ≠ 0 then modify fun w => { w with live := (r, nbytes) :: w.live }
      return r
  | .free p => do
      Prog.heapPart.run (free p)
      modify fun w => { w with live := w.live.eraseP (·.1 = p) }
      return 0
  | .sbrk n => do
      let r ← Prog.heapPart.run (sbrk n)
      if r ≠ NOMEM ∧ 0 < n then modify fun w => { w with own := ⟨r, n⟩ :: w.own }
      return r
  | .write a v => do
      modify fun w => { w with heap := { w.heap with mem := Function.update w.heap.mem a v } }
      return 0

/-- The block that a pointer was given for. -/
def blockOf (c : Nat × Nat) : Extent := ⟨c.1 - HEADERSIZE, 16 * unitsOf c.2⟩

/-- What is not free. -/
def Prog.taken (w : Prog) : List Extent := w.live.map blockOf ++ w.own

variable {start : Heap} {w : Prog} {c : Nat × Nat}

/-- **All is in order**: the blocks `l` are free, no block reaches into another one, and all of
them are what the heap has grown by. -/
structure Sound (start : Heap) (w : Prog) (l : List Extent) : Prop where
  arena : Arena w.heap l
  unused : w.heap.freep = 0 → w.live = []
  base : w.heap.base = start.base
  apart : (l ++ w.taken).Pairwise Extent.Apart
  within : ∀ x ∈ l ++ w.taken, start.brk ≤ x.addr ∧ x.stop ≤ w.heap.brk
  own : ∀ x ∈ w.own, 0 < x.len
  live : ∀ c ∈ w.live, HEADERSIZE ≤ c.1 ∧ c.2 < 2 ^ 31 - 31 ∧
    (blockOf c).len = 16 * w.heap.size (c.1 - HEADERSIZE)
  total : Extent.total (l ++ w.taken) + start.brk = w.heap.brk

namespace Arena

theorem base_stop (h : Arena s l) : s.base + 16 ≤ s.brk := by
  rcases h with ⟨-, -, -, -, h⟩ | h
  · exact h
  · exact h.base_stop

theorem memory (h : Arena s l) : s.brk ≤ MEMORY := by
  rcases h with ⟨-, -, h, -⟩ | h
  · exact h
  · exact h.memory

theorem big (h : Arena s l) (hx : x ∈ l) : 16 ≤ x.len := by
  rcases h with ⟨-, rfl, -⟩ | h
  · cases hx
  · exact h.big x hx

/-- What is in no header changes, and the heap may grow. -/
theorem congr (h : Arena s l) (hbase : t.base = s.base) (hfreep : t.freep = s.freep)
    (hle : s.brk ≤ t.brk) (hmax : t.brk ≤ MEMORY)
    (hmem : ∀ p ∈ nodes s.base l, ∀ a, p ≤ a → a < p + 16 → t.mem a = s.mem a) : Arena t l := by
  rcases h with ⟨hzero, rfl, -, hpos, hstop⟩ | h
  · exact Or.inl ⟨hfreep.trans hzero, rfl, hmax, hbase ▸ hpos, hbase ▸ hstop.trans hle⟩
  · refine Or.inr (h.congr hbase hfreep hle hmax (fun a ha => ?_) fun a ha => ?_)
    · exact congrArg Bytes.ofLe (Bytes.slice_congr fun i hi => hmem a ha _ (by omega) (by omega))
    · exact congrArg Bytes.ofLe (Bytes.slice_congr fun i hi => hmem a ha _ (by omega) (by omega))

end Arena

namespace Sound

theorem taken_len (h : Sound start w l) (hx : x ∈ w.taken) : 0 < x.len := by
  rcases List.mem_append.mp hx with hx | hx
  · obtain ⟨c, hc, rfl⟩ := List.mem_map.mp hx
    have hunits := (unitsOf_bounds (h.live c hc).2.1).1
    change 0 < 16 * unitsOf c.2
    omega
  · exact h.own x hx

theorem free_apart (h : Sound start w l) (hx : x ∈ l) (hy : y ∈ w.taken) : x.Apart y :=
  (List.pairwise_append.mp h.apart).2.2 x hx y hy

/-- The memory of a pointer is in its block, behind the header. -/
theorem live_holds (h : Sound start w l) (hc : c ∈ w.live) {a : Nat} (ha : c.1 ≤ a)
    (ha' : a < c.1 + c.2) : (blockOf c).addr + 16 ≤ a ∧ (blockOf c).Holds a := by
  obtain ⟨hheader, hsmall, -⟩ := h.live c hc
  have hunits := (unitsOf_bounds hsmall).2.2
  unfold blockOf Extent.Holds Extent.stop HEADERSIZE at *
  dsimp only
  omega

/-- What a program has got is taken. -/
theorem owns_taken (h : Sound start w l) {a : Nat} (ha : w.Owns a) :
    ∃ x ∈ w.taken, x.Holds a := by
  rcases ha with ⟨c, hc, ha, ha'⟩ | ⟨x, hx, ha⟩
  · exact ⟨_, List.mem_append_left _ (List.mem_map_of_mem hc), (h.live_holds hc ha ha').2⟩
  · exact ⟨x, List.mem_append_right _ hx, ha⟩

theorem owns_bounds (h : Sound start w l) {a : Nat} (ha : w.Owns a) :
    start.brk ≤ a ∧ a < w.heap.brk ∧ ∀ x ∈ l, ¬ x.Holds a := by
  obtain ⟨y, hy, hin⟩ := h.owns_taken ha
  obtain ⟨hstart, hstop⟩ := h.within y (List.mem_append_right _ hy)
  exact ⟨hstart.trans hin.1, Nat.lt_of_lt_of_le hin.2 hstop, fun x hx hbad =>
    (h.free_apart hx hy).not_holds hbad hin⟩

/-- The header of a block that is taken stays. -/
theorem header_kept {v : Prog}
    (hmem : ∀ a, (blockOf c).addr ≤ a → a < (blockOf c).addr + 16 →
      v.heap.mem a = w.heap.mem a) :
    v.heap.size (c.1 - HEADERSIZE) = w.heap.size (c.1 - HEADERSIZE) :=
  congrArg Bytes.ofLe (Bytes.slice_congr fun i hi => hmem _
    (by change c.1 - HEADERSIZE ≤ _; omega) (by change _ < c.1 - HEADERSIZE + 16; omega))

/-- What comes from the free blocks begins where the heap begins, or behind. -/
theorem start_le (h : Sound start w l) (hstart : start.base + 16 ≤ start.brk)
    (hlow : w.heap.base + 16 ≤ y.addr) (hbig : 0 < y.len)
    (hothers : ∀ z : Extent, 0 < z.len → z.stop ≤ w.heap.brk → (∀ x ∈ l, x.Apart z) → y.Apart z) :
    start.brk ≤ y.addr := by
  rw [h.base] at hlow
  by_contra hlt
  have htotal := h.total
  have hapart := hothers ⟨start.base + 16, start.brk - (start.base + 16)⟩
    (by dsimp only; omega) (by unfold Extent.stop; dsimp only; omega) fun x hx => Or.inr (by
      have hx' := (h.within x (List.mem_append_left _ hx)).1
      unfold Extent.stop
      dsimp only
      omega)
  unfold Extent.Apart Extent.stop at hapart
  dsimp only at hapart
  omega

end Sound

/-- **What a call has done**: all is in order, what the program has got holds what it held, and
`malloc` fails only if nothing is left. -/
structure Done (start : Heap) (w : Prog) (l : List Extent) (call : Call) (r : Nat) (v : Prog) :
    Prop where
  sound : ∃ l', Sound start v l'
  kept : ∀ a, w.Owns a → v.Owns a → (∀ u, call ≠ .write a u) → v.heap.mem a = w.heap.mem a
  given : ∀ n, call = .malloc n → r ≠ 0 → v.live = (r, n) :: w.live
  failed : ∀ n, call = .malloc n → r = 0 →
    (∀ x ∈ l, x.len < 16 * unitsOf n) ∧ Refused w.heap (16 * morecoreUnits (unitsOf n))

namespace Sound

/-- **`malloc`** -/
theorem malloc (h : Sound start w l) (hstart : start.base + 16 ≤ start.brk)
    (hsmall : nbytes < 2 ^ 31 - 31) :
    Ends (perform (.malloc nbytes)) w (Done start w l (.malloc nbytes)) fun _ _ => False := by
  obtain ⟨hpos, -, hunits⟩ := unitsOf_bounds hsmall
  unfold perform
  rw [Ends.bind_iff, Ends.component_iff]
  refine (h.arena.malloc hsmall).post ?_
  rintro r t (⟨rfl, hfails⟩ | ⟨l', b, hserves⟩)
  · change Ends (do let _ ← pure (); pure 0) { w with heap := t } _ _
    have hmem : ∀ x ∈ w.taken, ∀ a, x.Holds a → t.mem a = w.heap.mem a := by
      intro x hx a ha
      have hlow := (h.within x (List.mem_append_right _ hx)).1
      have hbase := h.base
      refine hfails.mem a (Or.inr ?_)
      have hstart' := ha.1
      change w.heap.base + 16 ≤ a
      omega
    refine ⟨⟨l, Or.inr hfails.ring, fun hzero => absurd hzero
        (hfails.ring.node_pos hfails.ring.freep), hfails.base.trans h.base, h.apart, fun x hx => ?_,
        h.own, fun c hc => ?_, ?_⟩, fun a ha _ _ => ?_, fun n _ hne => absurd rfl hne,
        fun n hn _ => ?_⟩
    · exact ⟨(h.within x hx).1, hfails.brk.symm ▸ (h.within x hx).2⟩
    · obtain ⟨hheader, hlen, hsize⟩ := h.live c hc
      refine ⟨hheader, hlen, hsize.trans (congrArg (16 * ·) (header_kept (w := w)
        (v := { w with heap := t }) fun a ha ha' => ?_).symm)⟩
      refine hmem _ (List.mem_append_left _ (List.mem_map_of_mem hc)) a ⟨ha, ?_⟩
      have hbounds := (unitsOf_bounds hlen).1
      unfold blockOf Extent.stop at *
      dsimp only at *
      omega
    · exact hfails.brk.symm ▸ h.total
    · obtain ⟨x, hx, hin⟩ := h.owns_taken ha
      exact hmem x hx a hin
    · obtain rfl := Call.malloc.inj hn
      exact ⟨hfails.small, hfails.refused⟩
  · have hr : r ≠ 0 := by
      rw [hserves.result]
      exact Nat.succ_ne_zero _
    have hblock : blockOf (r, nbytes) = b := by
      unfold blockOf
      rw [hserves.result, Nat.add_sub_cancel, ← hserves.len]
    have htaken : ∀ x ∈ w.taken, 0 < x.len ∧ x.stop ≤ w.heap.brk ∧ ∀ y ∈ l, y.Apart x := fun x hx =>
      ⟨h.taken_len hx, (h.within x (List.mem_append_right _ hx)).2, fun y hy =>
        h.free_apart hy hx⟩
    have hmem : ∀ x ∈ w.taken, ∀ a, x.Holds a → t.mem a = w.heap.mem a := by
      intro x hx a ha
      obtain ⟨-, hstop, hfree⟩ := htaken x hx
      have hlow := (h.within x (List.mem_append_right _ hx)).1
      have hbase := h.base
      have hbegin := ha.1
      refine hserves.mem a (Nat.lt_of_lt_of_le ha.2 hstop) (Or.inr ?_) fun y hy hbad =>
        (hfree y hy).not_holds hbad ha
      omega
    have hperm : (l' ++ b :: w.taken).Perm (b :: l' ++ w.taken) := List.perm_middle
    have hbig : ∀ y ∈ b :: l', w.heap.base + 16 ≤ y.addr ∧ 16 ≤ y.len ∧ y.stop ≤ t.brk := by
      intro y hy
      rcases List.mem_cons.mp hy with rfl | hy
      · refine ⟨hserves.low, ?_, hserves.high⟩
        rw [hserves.len]
        omega
      · have hlow := hserves.ring.low y hy
        rw [hserves.base] at hlow
        exact ⟨hlow, hserves.ring.big y hy, hserves.ring.high y hy⟩
    dsimp only
    rw [if_pos hr, Ends.modify_bind_iff]
    refine ⟨⟨l', Or.inr hserves.ring, fun hzero => absurd hzero
        (hserves.ring.node_pos hserves.ring.freep), hserves.base.trans h.base, ?_, fun x hx => ?_,
        h.own, ?_, ?_⟩, fun a ha _ _ => ?_, fun n hn _ => ?_, fun n _ hbad => absurd hbad hr⟩
    · change (l' ++ blockOf (r, nbytes) :: w.taken).Pairwise Extent.Apart
      rw [hblock, Extent.pairwise_perm hperm]
      refine List.pairwise_append.mpr ⟨List.pairwise_cons.mpr ⟨fun x hx =>
        (hserves.apart x hx).symm, hserves.ring.sorted.imp fun hxy => hxy.apart⟩,
        (List.pairwise_append.mp h.apart).2.1, fun y hy x hx => ?_⟩
      obtain ⟨hlen, hstop, hfree⟩ := htaken x hx
      exact hserves.others x hlen hstop hfree y hy
    · change x ∈ l' ++ blockOf (r, nbytes) :: w.taken at hx
      rw [hblock] at hx
      change start.brk ≤ x.addr ∧ x.stop ≤ t.brk
      rcases List.mem_append.mp (hperm.mem_iff.mp hx) with hx | hx
      · obtain ⟨hlow, hlen, hstop⟩ := hbig x hx
        exact ⟨h.start_le hstart hlow (by omega) fun z hz hz' hl => hserves.others z hz hz' hl x hx,
          hstop⟩
      · obtain ⟨hlow, hstop⟩ := h.within x (List.mem_append_right _ hx)
        exact ⟨hlow, hstop.trans hserves.brk⟩
    · refine List.forall_mem_cons.mpr ⟨⟨?_, hsmall, ?_⟩, fun c hc => ?_⟩
      · rw [hserves.result]
        exact Nat.le_add_left _ _
      · change (blockOf (r, nbytes)).len = 16 * t.size (r - HEADERSIZE)
        rw [hblock, hserves.result, Nat.add_sub_cancel]
        exact hserves.size
      · obtain ⟨hheader, hlen, hsize⟩ := h.live c hc
        refine ⟨hheader, hlen, hsize.trans (congrArg (16 * ·) (header_kept (w := w)
          (v := { w with heap := t }) fun a ha ha' => ?_).symm)⟩
        refine hmem _ (List.mem_append_left _ (List.mem_map_of_mem hc)) a ⟨ha, ?_⟩
        have hbounds := (unitsOf_bounds hlen).1
        unfold blockOf Extent.stop at *
        dsimp only at *
        omega
    · change Extent.total (l' ++ blockOf (r, nbytes) :: w.taken) + start.brk = t.brk
      have htotal := h.total
      have hsum := hserves.total
      rw [hblock, Extent.total_append, Extent.total_cons]
      rw [Extent.total_append] at htotal
      omega
    · obtain ⟨x, hx, hin⟩ := h.owns_taken ha
      exact hmem x hx a hin
    · obtain rfl := Call.malloc.inj hn
      rfl

/-- **`free`** -/
theorem free (h : Sound start w l) (hstart : start.base + 16 ≤ start.brk)
    (hp : p ∈ w.live.map Prod.fst) :
    Ends (perform (.free p)) w (Done start w l (.free p)) fun _ _ => False := by
  obtain ⟨c₀, hc₀, hfst⟩ := List.mem_map.mp hp
  obtain ⟨c, before, after, -, hc, hlive, herase⟩ :=
    List.exists_of_eraseP (p := (·.1 = p)) hc₀ (decide_eq_true hfst)
  have hcp : c.1 = p := of_decide_eq_true hc
  have hcin : c ∈ w.live := hlive ▸ by simp
  obtain ⟨hheader, hlen, hsize⟩ := h.live c hcin
  have hring : Ring w.heap l := h.arena.resolve_left fun hnone => by
    rw [h.unused hnone.1] at hcin
    cases hcin
  have hbtaken : blockOf c ∈ w.taken := List.mem_append_left _ (List.mem_map_of_mem hcin)
  have hbin := h.within _ (List.mem_append_right _ hbtaken)
  have hunits := (unitsOf_bounds hlen).1
  have hbase := h.base
  have hfree : Freeable w.heap l (blockOf c) := by
    refine ⟨hsize, fun x hx => h.free_apart hx hbtaken, ?_, ?_, hbin.2⟩
    · have hlow := hbin.1
      omega
    · change 16 ≤ 16 * unitsOf c.2
      omega
  have hptr : (blockOf c).addr + HEADERSIZE = p := by
    change c.1 - HEADERSIZE + HEADERSIZE = p
    omega
  -- what is taken, with the block in front
  have hrest : w.taken.Perm (blockOf c :: (before.map blockOf ++ after.map blockOf ++ w.own)) := by
    unfold Prog.taken
    rw [hlive, List.map_append, List.map_cons, List.append_assoc, List.append_assoc,
      List.cons_append]
    exact List.perm_middle
  have hall : (l ++ w.taken).Perm
      ((blockOf c :: l) ++ (before.map blockOf ++ after.map blockOf ++ w.own)) :=
    ((List.Perm.refl l).append hrest).trans List.perm_middle
  have hpair := (Extent.pairwise_perm hall).mp h.apart
  obtain ⟨-, hpair', hcross⟩ := List.pairwise_append.mp hpair
  have hrestin : ∀ x ∈ before.map blockOf ++ after.map blockOf ++ w.own, x ∈ w.taken := fun x hx =>
    hrest.mem_iff.mpr (List.mem_cons_of_mem _ hx)
  have hlive' : ∀ d ∈ before ++ after, d ∈ w.live ∧
      blockOf d ∈ before.map blockOf ++ after.map blockOf ++ w.own := by
    intro d hd
    refine ⟨?_, List.mem_append_left _ (List.map_append ▸ List.mem_map_of_mem hd)⟩
    rw [hlive]
    rcases List.mem_append.mp hd with hd | hd <;> simp [hd]
  unfold perform
  rw [Ends.bind_iff, Ends.component_iff]
  change Ends (Umalloc.free p) w.heap _ _
  rw [← hptr]
  refine (hring.free hfree).post ?_
  rintro - t ⟨l', hfrees⟩
  have hbrk : t.brk = w.heap.brk := hfrees.writes.brk
  have hmem : ∀ x ∈ before.map blockOf ++ after.map blockOf ++ w.own, ∀ a, x.Holds a →
      t.mem a = w.heap.mem a := by
    intro x hx a ha
    have hlow := (h.within x (List.mem_append_right _ (hrestin x hx))).1
    have hbegin := ha.1
    exact hfrees.writes.mem a (Or.inr (by omega)) fun y hy hbad =>
      (hcross y hy x hx).not_holds hbad ha
  have htaken' : (Prog.mk t (w.live.eraseP (·.1 = p)) w.own).taken =
      before.map blockOf ++ after.map blockOf ++ w.own := by
    unfold Prog.taken
    dsimp only
    rw [herase, List.map_append]
  rw [hptr, Ends.modify_bind_iff]
  refine ⟨⟨l', Or.inr hfrees.ring, fun hzero => absurd hzero
      (hfrees.ring.node_pos hfrees.ring.freep), hfrees.writes.base.trans h.base, ?_, fun x hx => ?_,
      h.own, fun d hd => ?_, ?_⟩, fun a ha ha' _ => ?_, fun _ hbad => (by cases hbad),
      fun _ hbad => (by cases hbad)⟩
  · change (l' ++ (Prog.mk t (w.live.eraseP (·.1 = p)) w.own).taken).Pairwise Extent.Apart
    rw [htaken']
    refine List.pairwise_append.mpr ⟨hfrees.ring.sorted.imp fun hxy => hxy.apart, hpair',
      fun x hx y hy => ?_⟩
    exact hfrees.joins.apart y (h.taken_len (hrestin y hy)) (fun z hz => hcross z hz y hy) x hx
  · change x ∈ l' ++ (Prog.mk t (w.live.eraseP (·.1 = p)) w.own).taken at hx
    change start.brk ≤ x.addr ∧ x.stop ≤ t.brk
    rw [htaken'] at hx
    rw [hbrk]
    rcases List.mem_append.mp hx with hx | hx
    · obtain ⟨y, hy, hin⟩ := hfrees.joins.holds x.addr ⟨x, hx, Nat.le_refl _, by
        have hbig := hfrees.ring.big x hx
        unfold Extent.stop
        omega⟩
      refine ⟨Nat.le_trans ?_ hin.1, hbrk ▸ hfrees.ring.high x hx⟩
      rcases List.mem_cons.mp hy with rfl | hy
      · exact hbin.1
      · exact (h.within y (List.mem_append_left _ hy)).1
    · exact h.within x (List.mem_append_right _ (hrestin x hx))
  · change d ∈ w.live.eraseP (·.1 = p) at hd
    rw [herase] at hd
    obtain ⟨hdlive, hdin⟩ := hlive' d hd
    obtain ⟨hdheader, hdlen, hdsize⟩ := h.live d hdlive
    refine ⟨hdheader, hdlen, hdsize.trans (congrArg (16 * ·) (header_kept (w := w)
      (v := { w with heap := t }) fun a ha ha' => hmem _ hdin a ⟨ha, ?_⟩).symm)⟩
    have hbounds := (unitsOf_bounds hdlen).1
    unfold blockOf Extent.stop at *
    dsimp only at *
    omega
  · change Extent.total (l' ++ (Prog.mk t (w.live.eraseP (·.1 = p)) w.own).taken) + start.brk = t.brk
    have htotal := h.total
    rw [Extent.total_perm hall, Extent.total_append, ← hfrees.joins.total] at htotal
    rw [htaken', Extent.total_append, hbrk]
    exact htotal
  · change t.mem a = w.heap.mem a
    rcases ha' with ⟨d, hd, ha', ha''⟩ | ⟨x, hx, ha'⟩
    · change d ∈ w.live.eraseP (·.1 = p) at hd
      rw [herase] at hd
      obtain ⟨hdlive, hdin⟩ := hlive' d hd
      exact hmem _ hdin a (h.live_holds hdlive ha' ha'').2
    · exact hmem x (List.mem_append_right _ hx) a ha'

/-- The memory of the program grows, and what was there stays. -/
theorem grow (h : Sound start w l) {t : Heap} (hbase : t.base = w.heap.base)
    (hfreep : t.freep = w.heap.freep) (hmem : t.mem = w.heap.mem)
    (hmax : t.brk ≤ MEMORY) (hbrk : t.brk = w.heap.brk + n) :
    Sound start { w with heap := t, own := if n = 0 then w.own else ⟨w.heap.brk, n⟩ :: w.own } l := by
  have hle : w.heap.brk ≤ t.brk := hbrk ▸ Nat.le_add_right _ _
  have harena : Arena t l := h.arena.congr hbase hfreep hle hmax fun _ _ _ _ _ => by rw [hmem]
  have hlive : ∀ c ∈ w.live, HEADERSIZE ≤ c.1 ∧ c.2 < 2 ^ 31 - 31 ∧
      (blockOf c).len = 16 * t.size (c.1 - HEADERSIZE) := by
    intro c hc
    obtain ⟨hheader, hlen, hsize⟩ := h.live c hc
    refine ⟨hheader, hlen, hsize.trans (congrArg (16 * ·) ?_)⟩
    unfold Heap.size
    rw [hmem]
  by_cases hn : n = 0
  · subst hn
    rw [if_pos rfl]
    rw [Nat.add_zero] at hbrk
    exact ⟨harena, fun hzero => h.unused (hfreep ▸ hzero), hbase.trans h.base, h.apart,
      fun x hx => hbrk.symm ▸ h.within x hx, h.own, hlive, hbrk.symm ▸ h.total⟩
  · rw [if_neg hn]
    have hperm : (l ++ (w.live.map blockOf ++ ⟨w.heap.brk, n⟩ :: w.own)).Perm
        (⟨w.heap.brk, n⟩ :: (l ++ w.taken)) :=
      ((List.Perm.refl l).append List.perm_middle).trans List.perm_middle
    refine ⟨harena, fun hzero => h.unused (hfreep ▸ hzero), hbase.trans h.base,
      (Extent.pairwise_perm hperm).mpr (List.pairwise_cons.mpr ⟨fun x hx =>
        Or.inr (h.within x hx).2, h.apart⟩), fun x hx => ?_, ?_, hlive, ?_⟩
    · change start.brk ≤ x.addr ∧ x.stop ≤ t.brk
      rcases List.mem_cons.mp (hperm.mem_iff.mp hx) with rfl | hx
      · refine ⟨?_, Nat.le_of_eq hbrk.symm⟩
        have htotal := h.total
        dsimp only
        omega
      · exact ⟨(h.within x hx).1, (h.within x hx).2.trans hle⟩
    · exact List.forall_mem_cons.mpr ⟨Nat.pos_of_ne_zero hn, h.own⟩
    · change Extent.total (l ++ (w.live.map blockOf ++ ⟨w.heap.brk, n⟩ :: w.own)) + start.brk = t.brk
      have htotal := h.total
      rw [Extent.total_perm hperm, Extent.total_cons]
      dsimp only
      omega

/-- **`sbrk`** -/
theorem sbrk (h : Sound start w l) :
    Ends (perform (.sbrk n)) w (Done start w l (.sbrk n)) fun _ _ => False := by
  have hdone : ∀ {r : Nat} {v : Prog}, Sound start v l → v.heap.mem = w.heap.mem →
      Done start w l (.sbrk n) r v := fun hv hmem =>
    ⟨⟨l, hv⟩, fun _ _ _ _ => by rw [hmem], fun _ hbad => (by cases hbad),
      fun _ hbad => (by cases hbad)⟩
  unfold perform
  rw [Ends.bind_iff, Ends.component_iff]
  change Ends (Umalloc.sbrk n) w.heap _ _
  by_cases hn : n = 0
  · subst hn
    have hbrk : (if 0 ≤ (w.heap.brk : Int) + (0 : Nat) then ((w.heap.brk : Int) + (0 : Nat)).toNat
        else w.heap.brk) = w.heap.brk := by
      rw [Int.natCast_zero, Int.add_zero, if_pos (Int.natCast_nonneg _), Int.toNat_natCast]
    unfold Umalloc.sbrk
    rw [Ends.get_bind_iff, if_neg (show ¬ (0 : Int) < ((0 : Nat) : Int) by omega), Ends.set_bind_iff,
      Ends.pure_iff, hbrk]
    dsimp only
    rw [if_neg fun hbad => absurd hbad.2 (Nat.lt_irrefl 0)]
    exact hdone (h.grow (n := 0) (t := w.heap) rfl rfl rfl h.arena.memory rfl) rfl
  · refine (sbrk_ends (Nat.pos_of_ne_zero hn)).post ?_
    rintro r t (⟨rfl, -, rfl⟩ | ⟨rfl, hmax, rfl⟩)
    · dsimp only
      rw [if_neg fun hbad => absurd rfl hbad.1]
      exact hdone (h.grow (n := 0) (t := asked w.heap) rfl rfl rfl h.arena.memory rfl) rfl
    · have hnomem : w.heap.brk ≠ NOMEM := by
        intro hbad
        have hlt : MEMORY < NOMEM := by decide
        omega
      have hgrown := h.grow (n := n) (t := { asked w.heap with brk := w.heap.brk + n }) rfl rfl
        rfl hmax rfl
      rw [if_neg hn] at hgrown
      dsimp only
      rw [if_pos ⟨hnomem, Nat.pos_of_ne_zero hn⟩, Ends.modify_bind_iff]
      exact hdone hgrown rfl

/-- **A write** to what the program has got. -/
theorem write (h : Sound start w l) (hstart : start.base + 16 ≤ start.brk) {a : Nat} {v : UInt8}
    (ha : w.Owns a) : Ends (perform (.write a v)) w (Done start w l (.write a v)) fun _ _ => False := by
  obtain ⟨hlow, -, hfree⟩ := h.owns_bounds ha
  have hbase := h.base
  have hmem : ∀ a' ≠ a, Function.update w.heap.mem a v a' = w.heap.mem a' := fun a' hne =>
    Function.update_of_ne hne _ _
  refine ⟨⟨l, h.arena.congr rfl rfl (Nat.le_refl _) h.arena.memory fun q hq a' ha' ha'' =>
      hmem a' fun heq => ?_, h.unused, h.base, h.apart, h.within, h.own, fun c hc => ?_, h.total⟩,
    fun a' _ _ hne => hmem a' fun heq => hne v (heq ▸ rfl), fun _ hbad => (by cases hbad),
      fun _ hbad => (by cases hbad)⟩
  · subst heq
    rcases List.mem_cons.mp hq with rfl | hq
    · omega
    · obtain ⟨x, hx, rfl⟩ := List.mem_map.mp hq
      refine hfree x hx ⟨ha', Nat.lt_of_lt_of_le ha'' ?_⟩
      have hbig := h.arena.big hx
      unfold Extent.stop
      omega
  · obtain ⟨hheader, hlen, hsize⟩ := h.live c hc
    refine ⟨hheader, hlen, hsize.trans (congrArg (16 * ·) (header_kept (w := w)
      (v := { w with heap := { w.heap with mem := Function.update w.heap.mem a v } })
      fun a' ha' ha'' => hmem a' fun heq => ?_).symm)⟩
    subst heq
    have hunits := (unitsOf_bounds hlen).1
    have hin : (blockOf c).Holds a' := by
      unfold blockOf Extent.Holds Extent.stop at *
      dsimp only at *
      omega
    have hctaken : blockOf c ∈ w.live.map blockOf := List.mem_map_of_mem hc
    have hpair := (List.pairwise_append.mp h.apart).2.1
    -- the address is behind the header, or in another block
    rcases ha with ⟨d, hd, had, had'⟩ | ⟨x, hx, hax⟩
    · have hdin := h.live_holds hd had had'
      by_cases hdc : blockOf d = blockOf c
      · rw [hdc] at hdin
        omega
      · have hsymm : Std.Symm Extent.Apart := ⟨fun _ _ hxy => hxy.symm⟩
        exact (List.Pairwise.forall hpair (List.mem_append_left _ (List.mem_map_of_mem hd))
          (List.mem_append_left _ hctaken) hdc).not_holds hdin.2 hin
    · exact ((List.pairwise_append.mp hpair).2.2 _ hctaken x hx).not_holds hin hax

end Sound

/-! ### Runs -/

/-- A program that has called neither; its data goes beyond `base`. -/
structure Starts (s : Heap) : Prop where
  freep : s.freep = 0
  brk : s.brk ≤ MEMORY
  base : 0 < s.base
  stop : s.base + 16 ≤ s.brk

theorem Starts.sound (h : Starts s) : Sound s ⟨s, [], []⟩ [] := by
  refine ⟨Or.inl ⟨h.freep, rfl, h.brk, h.base, h.stop⟩, fun _ => rfl, rfl, List.Pairwise.nil,
    fun _ hx => (List.not_mem_nil hx).elim, fun _ hx => (List.not_mem_nil hx).elim,
    fun _ hx => (List.not_mem_nil hx).elim, Nat.zero_add _⟩

/-- **Every call that is ready** returns, and leaves all in order. -/
theorem Sound.perform (h : Sound start w l) (hstart : start.base + 16 ≤ start.brk) {call : Call}
    (hready : call.Ready w) :
    Ends (Umalloc.perform call) w (Done start w l call) fun _ _ => False := by
  cases call with
  | malloc nbytes => exact h.malloc hstart hready
  | free p => exact h.free hstart hready
  | sbrk n => exact h.sbrk
  | write a v => exact h.write hstart hready

/-- The memory that pointers were given for. -/
theorem Sound.live_apart (h : Sound start w l) :
    w.live.Pairwise fun c d => c.1 + c.2 ≤ d.1 ∨ d.1 + d.2 ≤ c.1 := by
  have hblocks := (List.pairwise_append.mp (List.pairwise_append.mp h.apart).2.1).1
  refine (List.pairwise_map.mp hblocks).imp_of_mem fun {c d} hc hd hcd => ?_
  obtain ⟨hheader, hlen, -⟩ := h.live c hc
  obtain ⟨hheader', hlen', -⟩ := h.live d hd
  have hunits := (unitsOf_bounds hlen).2.2
  have hunits' := (unitsOf_bounds hlen').2.2
  unfold blockOf Extent.Apart Extent.stop HEADERSIZE at *
  dsimp only at hcd
  omega

theorem Sound.live_within (h : Sound start w l) (hc : c ∈ w.live) :
    start.brk ≤ c.1 ∧ c.1 + c.2 ≤ w.heap.brk := by
  obtain ⟨hheader, hlen, -⟩ := h.live c hc
  have hunits := (unitsOf_bounds hlen).2.2
  obtain ⟨hlow, hhigh⟩ := h.within (blockOf c)
    (List.mem_append_right _ (List.mem_append_left _ (List.mem_map_of_mem hc)))
  unfold blockOf Extent.stop HEADERSIZE at *
  dsimp only at hlow hhigh
  omega

/-- **What is all given back** is one block. -/
theorem Sound.one_block (h : Sound start w l) (hlive : w.live = []) (hown : w.own = [])
    (hgrown : start.brk < w.heap.brk) : l = [⟨start.brk, w.heap.brk - start.brk⟩] := by
  have htaken : w.taken = [] := by
    unfold Prog.taken
    rw [hlive, hown]
    rfl
  have htotal := h.total
  have hin := h.within
  rw [htaken, List.append_nil] at htotal hin
  rcases h.arena with ⟨-, rfl, -⟩ | hring
  · rw [Extent.total_nil] at htotal
    omega
  · exact Extent.fills hring.sorted hin (by omega) hgrown

/-- The program: an event is a call, with what it returns. -/
def program (start : Heap) : Machine Prog (Call × Nat) where
  init w := w = ⟨start, [], []⟩
  step w e :=
    if e.1.Ready w then
      match perform e.1 w with
      | .ok r v => if r = e.2 then some v else none
      | .error _ _ => none
    else none

theorem program_step {call : Call} {r : Nat} {v : Prog}
    (h : (program start).step w (call, r) = some v) :
    call.Ready w ∧ perform call w = .ok r v := by
  change (if call.Ready w then _ else none) = some v at h
  split at h
  next hready =>
    refine ⟨hready, ?_⟩
    dsimp only at h
    split at h
    next r' v' hrun =>
      split at h
      next heq =>
        obtain rfl := Option.some.inj h
        rw [hrun, heq]
      next => cases h
    next => cases h
  next => cases h

/-- **`malloc` and `free` keep all in order**, in every run of a program. -/
theorem allocations {past : Past Prog (Call × Nat)} (hstart : Starts start)
    (run : Run (program start) past w) :
    ∃ l, Sound start w l ∧
      (∀ c ∈ w.live, start.brk ≤ c.1 ∧ c.1 + c.2 ≤ w.heap.brk) ∧
      (w.live.Pairwise fun c d => c.1 + c.2 ≤ d.1 ∨ d.1 + d.2 ≤ c.1) ∧
      (w.live = [] → w.own = [] → start.brk < w.heap.brk →
        l = [⟨start.brk, w.heap.brk - start.brk⟩]) ∧
      ∀ call, call.Ready w → ∃ r v, perform call w = .ok r v ∧ Done start w l call r v := by
  have hsound : ∃ l, Sound start w l := by
    refine run.invariant (P := fun _ w => ∃ l, Sound start w l) ?_ ?_
    · rintro w rfl
      exact ⟨[], hstart.sound⟩
    · rintro - w ⟨call, r⟩ v - ⟨l, hl⟩ hstep
      obtain ⟨hready, hrun⟩ := program_step hstep
      exact ((hl.perform hstart.stop hready).ok hrun).sound
  obtain ⟨l, hl⟩ := hsound
  exact ⟨l, hl, fun c hc => hl.live_within hc, hl.live_apart, hl.one_block, fun call hready =>
    (hl.perform hstart.stop hready).exists_ok⟩

/-- A program of two pages, with `base` at 4096. -/
def startHeap : Heap where
  mem _ := 0
  base := 4096
  freep := 0
  brk := 8192
  granted _ := true

theorem startHeap_starts : Starts startHeap := ⟨rfl, by decide, by decide, by decide⟩

theorem allocations_freed : ∃ w l, Sound startHeap w l ∧ w.live = [(73312, 200), (73536, 50)] := by
  obtain ⟨past, w, run, hlive⟩ := Machine.exists_run_of_trace (M := program startHeap) rfl
    [(.malloc 100, 73616), (.malloc 50, 73536), (.free 73616, 0), (.malloc 200, 73312)]
    (fun _ w => w.live = [(73312, 200), (73536, 50)]) (by decide +kernel)
  obtain ⟨l, hl, -⟩ := allocations startHeap_starts run
  exact ⟨w, l, hl, hlive⟩

end Umalloc
