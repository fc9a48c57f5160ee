import OSN.Vm.Refines

/-!
# Copies between kernel and user

The memory of a user as `walkaddr` shows it, and the three copies page by page: what each
has moved are the bytes before the first page that the user may not access.
-/

namespace Xv6.UserMem

variable {m m' : UserMem} {a n k : Nat} {src : List UInt8}

/-- How many of `n` bytes from address `a` on come before the first page that is not there. -/
def extent (m : UserMem) : Nat → Nat → Nat
  | _, 0 => 0
  | a, n + 1 => if m.mapped (a / PGSIZE) then extent m (a + 1) n + 1 else 0

theorem extent_le : m.extent a n ≤ n := by
  induction n generalizing a with
  | zero => exact Nat.le_refl 0
  | succ n ih =>
      rw [extent]
      split
      · exact Nat.succ_le_succ ih
      · exact Nat.zero_le _

/-- What comes before that page is there. -/
theorem extent_writable : m.Writable a (m.extent a n) := by
  induction n generalizing a with
  | zero => exact fun i hi => absurd hi (Nat.not_lt_zero i)
  | succ n ih =>
      rw [extent]
      split
      next hmapped => exact writable_succ.mpr ⟨hmapped, ih⟩
      next => exact fun i hi => absurd hi (Nat.not_lt_zero i)

theorem extent_stops (h : m.extent a n < n) : m.mapped ((a + m.extent a n) / PGSIZE) = false := by
  induction n generalizing a with
  | zero => exact absurd h (Nat.not_lt_zero _)
  | succ n ih =>
      rw [extent] at h ⊢
      split at h
      next hmapped =>
        rw [if_pos hmapped, Nat.add_comm _ 1, ← Nat.add_assoc]
        exact ih (Nat.lt_of_succ_lt_succ h)
      next hnot =>
        rw [if_neg hnot]
        exact Bool.eq_false_of_not_eq_true hnot

theorem extent_eq_iff : m.extent a n = n ↔ m.Writable a n := by
  constructor
  · intro heq
    rw [← heq]
    exact extent_writable
  · intro hall
    by_contra hne
    have hstops := extent_stops (Nat.lt_of_le_of_ne extent_le hne)
    rw [hall _ (Nat.lt_of_le_of_ne extent_le hne)] at hstops
    cases hstops

/-- Two parts of a run. -/
theorem extent_add (h : m.Writable a k) : m.extent a (k + n) = k + m.extent (a + k) n := by
  induction k generalizing a with
  | zero => rw [Nat.zero_add, Nat.zero_add, Nat.add_zero]
  | succ k ih =>
      obtain ⟨hfirst, hrest⟩ := writable_succ.mp h
      rw [Nat.succ_add, extent, if_pos hfirst, ih hrest, Nat.add_assoc a 1 k, Nat.add_comm 1 k]
      omega

theorem extent_of_mapped (h : m'.mapped = m.mapped) : m'.extent a n = m.extent a n := by
  induction n generalizing a with
  | zero => rfl
  | succ n ih => rw [extent, extent, h, ih]

theorem reached_eq : m.reached a src = src.take (m.extent a src.length) := by
  induction src generalizing a with
  | nil => rfl
  | cons x src ih =>
      rw [reached, List.length_cons, extent]
      split
      · rw [List.take_succ_cons, ih]
      · rfl

end Xv6.UserMem

namespace Vm

open Xv6 (PGSIZE MAXVA UserMem)

variable {room : Nat → Prop} {root : Nat} {f : Owner → Nat} {s t : Ram} {m : PageMap}
  {va a b n len fuel : Nat} {src l : List UInt8}

/-! ### The memory of a user -/

/-- Where the byte at an address lies. -/
def phys (m : PageMap) (a : Nat) : Nat := m.addr a + a % PGSIZE

/-- The address is one that the user may access. -/
def Access (m : PageMap) (a : Nat) : Prop := a < MAXVA ∧ m.addr a ≠ 0

instance : Decidable (Access m a) := by
  unfold Access
  infer_instance

/-- **The memory of a user.** -/
def view (m : PageMap) (s : Ram) : UserMem where
  mapped i := decide (Access m (i * PGSIZE))
  byte a := if Access m a then s.mem (phys m a) else 0
  mapped_lt := fun _ h => (of_decide_eq_true h).1

/-- The pages of the user are allocated, no two of them are one, and they are no tables. -/
structure UserSpace (room : Nat → Prop) (root : Nat) (f : Owner → Nat) (s : Ram) (m : PageMap) :
    Prop extends Maps room root f s m where
  owned : ∀ p e, m p = some e → e.flags.testBit 4 = true → e.pa ≠ 0 ∧ ∃ j, f (.inr j) = e.pa
  distinct : ∀ p q e e', m p = some e → m q = some e' → e.flags.testBit 4 = true →
    e'.flags.testBit 4 = true → e.pa = e'.pa → p = q

theorem addr_page : m.addr (a / PGSIZE * PGSIZE) = m.addr a := by
  unfold PageMap.addr
  rw [Nat.mul_div_cancel _ (by decide)]

theorem mapped_view : (view m s).mapped (a / PGSIZE) = decide (Access m a) := by
  refine decide_eq_decide.mpr (and_congr ?_ ?_)
  · unfold MAXVA PGSIZE
    omega
  · rw [addr_page]

/-- Addresses on one page. -/
theorem addr_add (hn : n < PGSIZE - a % PGSIZE) : m.addr (a + n) = m.addr a := by
  unfold PageMap.addr
  rw [show (a + n) / PGSIZE = a / PGSIZE by unfold PGSIZE at *; omega]

theorem phys_add (hn : n < PGSIZE - a % PGSIZE) : phys m (a + n) = phys m a + n := by
  rw [phys, phys, addr_add hn, show (a + n) % PGSIZE = a % PGSIZE + n by unfold PGSIZE at *; omega,
    Nat.add_assoc]

theorem addr_ne_zero (h : m.addr a ≠ 0) :
    ∃ e, m (a / PGSIZE) = some e ∧ e.flags.testBit 4 = true ∧ m.addr a = e.pa := by
  unfold PageMap.addr at h ⊢
  cases hm : m (a / PGSIZE) with
  | none =>
      rw [hm] at h
      exact absurd rfl h
  | some e =>
      rw [hm] at h
      by_cases hU : e.flags.testBit 4 = true
      · exact ⟨e, rfl, hU, if_pos hU⟩
      · exact absurd (if_neg hU) h

namespace UserSpace

theorem aligned (h : m.addr a ≠ 0) : PGSIZE ∣ m.addr a := by
  obtain ⟨e, -, -, heq⟩ := addr_ne_zero h
  exact heq ▸ e.aligned

/-- Different addresses, different bytes. -/
theorem phys_inj (h : UserSpace room root f s m) (ha : m.addr a ≠ 0) (hb : m.addr b ≠ 0)
    (heq : phys m a = phys m b) : a = b := by
  have halign := aligned ha
  have halign' := aligned hb
  unfold phys at heq
  have hpage : m.addr a = m.addr b := by
    unfold PGSIZE at *
    omega
  obtain ⟨e, hm, hU, hpa⟩ := addr_ne_zero ha
  obtain ⟨e', hm', hU', hpa'⟩ := addr_ne_zero hb
  have hsame := h.distinct _ _ _ _ hm hm' hU hU' (by rw [← hpa, ← hpa', hpage])
  unfold PGSIZE at *
  omega

/-- A byte of the user is in no table. -/
theorem not_inTable (h : UserSpace room root f s m) (ha : m.addr a ≠ 0) :
    ¬ InTable f (phys m a) := by
  rintro ⟨-, k, hk⟩
  obtain ⟨e, hm, hU, hpa⟩ := addr_ne_zero ha
  obtain ⟨hne, j, hj⟩ := h.owned _ _ hm hU
  have hpage : PGROUNDDOWN (phys m a) = e.pa := by
    rw [PGROUNDDOWN_eq e.aligned, phys, hpa]
    exact ⟨Nat.le_add_right _ _, Nat.add_lt_add_left (Nat.mod_lt _ (by decide)) _⟩
  exact h.tenancy.apart Sum.inr_ne_inl (hj ▸ hne) (hj.trans (hk.trans hpage).symm)

/-- What `walkaddr` finds for the page of an address. -/
theorem walkaddr_page (h : UserSpace room root f s m) :
    walkaddr root (PGROUNDDOWN a) s = .ok (if Access m a then m.addr a else 0) s := by
  have hpage : m.addr (PGROUNDDOWN a) = m.addr a := addr_page
  by_cases ha : a < MAXVA
  · rw [h.toMaps.walkaddr (Nat.lt_of_le_of_lt (PGROUNDDOWN_le a) ha), hpage]
    by_cases hzero : m.addr a = 0
    · rw [hzero, ite_self]
    · rw [if_pos ⟨ha, hzero⟩]
  · rw [walkaddr, if_pos (by unfold PGROUNDDOWN MAXVA PGSIZE at *; omega),
      if_neg fun hacc => ha hacc.1]
    rfl

/-- **Bytes of one page are written.** -/
theorem memmove (h : UserSpace room root f s m) (hva : Access m va)
    (hl : l.length ≤ PGSIZE - va % PGSIZE) :
    UserSpace room root f (s.memmove (phys m va) l) m ∧
      view m (s.memmove (phys m va) l) = (view m s).write va l ∧
      ∀ b, (∀ i < l.length, b ≠ phys m (va + i)) →
        (s.memmove (phys m va) l).mem b = s.mem b := by
  have hmem : ∀ b, (∀ i < l.length, b ≠ phys m (va + i)) →
      (s.memmove (phys m va) l).mem b = s.mem b := by
    intro b hb
    refine Bytes.splice_outside ?_
    by_contra hin
    have hoff := hb (b - phys m va) (by omega)
    rw [phys_add (by omega)] at hoff
    omega
  have haccess : ∀ i < l.length, Access m (va + i) := by
    intro i hi
    refine ⟨?_, by rw [addr_add (by omega)]; exact hva.2⟩
    have hlt := hva.1
    unfold MAXVA PGSIZE at *
    omega
  have hmaps : Maps room root f (s.memmove (phys m va) l) m := by
    refine h.toMaps.congr (t := s.memmove (phys m va) l) rfl rfl fun b hb => hmem b ?_
    rintro i hi rfl
    exact h.not_inTable (haccess i hi).2 hb
  refine ⟨⟨hmaps, h.owned, h.distinct⟩, ?_, hmem⟩
  · have hbyte : (view m (s.memmove (phys m va) l)).byte = Bytes.splice (view m s).byte va l := by
      funext b
      by_cases hin : va ≤ b ∧ b < va + l.length
      · obtain ⟨i, rfl⟩ := Nat.exists_eq_add_of_le hin.1
        have hi : i < l.length := by omega
        rw [Bytes.splice_inside hi]
        change (if Access m (va + i) then _ else _) = _
        rw [if_pos (haccess i hi), phys_add (by omega)]
        exact Bytes.splice_inside hi
      · rw [Bytes.splice_outside (by omega)]
        change (if Access m b then _ else _) = if Access m b then _ else _
        split
        next hb =>
          refine hmem _ fun i hi heq => hin ?_
          have hsame := h.phys_inj hb.2 (haccess i hi).2 heq
          omega
        next => rfl
    unfold UserMem.write
    rw [← hbyte]
    rfl

end UserSpace

/-! ### One pass of a copy -/

/-- What the next pass deals with is there. -/
theorem piece_writable (hva : Access m va) : (view m s).Writable va (piece va len) := by
  intro i hi
  have hsame : (va + i) / PGSIZE = va / PGSIZE := by
    unfold piece PGROUNDDOWN PGSIZE at *
    omega
  rw [hsame, mapped_view]
  exact decide_eq_true hva

theorem piece_le : piece va len ≤ PGSIZE - va % PGSIZE := by
  unfold piece PGROUNDDOWN PGSIZE
  omega

theorem piece_le_len : piece va len ≤ len := Nat.min_le_right _ _

theorem piece_pos (h : len ≠ 0) : 0 < piece va len := by
  unfold piece PGROUNDDOWN PGSIZE
  omega

/-- Where the pass after it starts, if there is one. -/
theorem next_pass (hva : Access m va) (hmore : piece va len < len) :
    (PGROUNDDOWN va + PGSIZE) % 2 ^ 64 = va + piece va len := by
  have hlt := hva.1
  unfold piece PGROUNDDOWN MAXVA PGSIZE at *
  omega

/-- What this pass and those after it deal with. -/
theorem extent_pass (hva : Access m va) (len : Nat) : (view m s).extent va len = piece va len +
    (view m s).extent ((PGROUNDDOWN va + PGSIZE) % 2 ^ 64) (len - piece va len) := by
  have hadd : (view m s).extent va (piece va len + (len - piece va len)) = _ :=
    UserMem.extent_add (piece_writable hva)
  rw [Nat.add_sub_cancel' piece_le_len] at hadd
  rw [hadd]
  have hle : piece va len ≤ len := piece_le_len
  rcases Nat.eq_or_lt_of_le hle with hlast | hmore
  · rw [hlast, Nat.sub_self, UserMem.extent, UserMem.extent]
  · rw [next_pass hva hmore]

/-- What a copy gets to depends on the page table only. -/
theorem extent_view (s : Ram) : (view m t).extent a n = (view m s).extent a n :=
  UserMem.extent_of_mapped rfl

/-- There is nothing more to copy. -/
theorem extent_none (hva : ¬ Access m va) : (view m s).extent va len = 0 := by
  cases len with
  | zero => rfl
  | succ len =>
      have hnot : (view m s).mapped (va / PGSIZE) = false := by
        rw [mapped_view]
        exact decide_eq_false hva
      rw [UserMem.extent, hnot, if_neg Bool.false_ne_true]

namespace UserSpace

/-! ### `copyout` -/

/-- The machine but for its memory. -/
structure SameButMem (s t : Ram) : Prop where
  freelist : t.freelist = s.freelist
  kernelEnd : t.kernelEnd = s.kernelEnd
  denied : t.denied = s.denied

/-- **The loop of `copyout`** does what it does to the memory of a user. -/
theorem copyoutLoop (h : UserSpace room root f s m) (fuel va : Nat) (src : List UInt8) :
    Ends (copyoutLoop root fuel va src) s
      (fun r t => UserSpace room root f t m ∧ SameButMem s t ∧
        (r, view m t) = UserMem.copyoutLoop fuel (view m s) va src ∧
        ∀ b, (∀ i < (view m s).extent va src.length, b ≠ phys m (va + i)) → t.mem b = s.mem b)
      fun _ _ => False := by
  induction fuel generalizing s va src with
  | zero => exact ⟨h, ⟨rfl, rfl, rfl⟩, rfl, fun _ _ => rfl⟩
  | succ fuel ih =>
      unfold Vm.copyoutLoop
      rw [UserMem.copyoutLoop]
      by_cases hsrc : src.length = 0
      · rw [if_pos hsrc, if_pos hsrc]
        exact ⟨h, ⟨rfl, rfl, rfl⟩, rfl, fun _ _ => rfl⟩
      · rw [if_neg hsrc, if_neg hsrc]
        have hround : va - va % PGSIZE = PGROUNDDOWN va := by
          unfold PGROUNDDOWN PGSIZE
          omega
        have hpage : (va - va % PGSIZE) / PGSIZE = va / PGSIZE := by
          rw [hround]
          exact Nat.mul_div_cancel _ (by decide)
        simp only [hpage, mapped_view]
        rw [hround]
        refine (Ends.of_ok h.walkaddr_page (Q := fun pa t => t = s ∧
          pa = if Access m va then m.addr va else 0) ⟨rfl, rfl⟩).bind ?_
        rintro pa s ⟨rfl, rfl⟩
        by_cases hva : Access m va
        · have hoff : va - PGROUNDDOWN va = va % PGSIZE := by
            unfold PGROUNDDOWN PGSIZE
            omega
          have hlength : (src.take (piece va src.length)).length = piece va src.length := by
            rw [List.length_take]
            exact Nat.min_eq_left piece_le_len
          obtain ⟨h', hview, hmem⟩ := h.memmove hva (l := src.take (piece va src.length))
            (by rw [hlength]; exact piece_le)
          have hextent := extent_pass (s := s) hva src.length
          rw [if_pos hva, if_neg hva.2, if_pos (decide_eq_true hva), Ends.modify_bind_iff, hoff]
          refine (ih h' _ _).post ?_
          rintro r t ⟨h'', hsame, heq, hmem'⟩
          refine ⟨h'', ⟨hsame.freelist, hsame.kernelEnd, hsame.denied⟩, ?_, fun b hb => ?_⟩
          · have hpiece : piece va src.length = min (PGSIZE - va % PGSIZE) src.length := by
              rw [piece, hoff]
            rw [heq, hview, hpiece]
          · rw [hextent] at hb
            rw [hmem' b fun i hi => ?_, hmem b fun i hi => hb i ?_]
            · omega
            · rw [List.length_drop, extent_view s] at hi
              have hle : (view m s).extent ((PGROUNDDOWN va + PGSIZE) % 2 ^ 64)
                  (src.length - piece va src.length) ≤ _ := UserMem.extent_le
              rw [next_pass hva (show piece va src.length < src.length by omega), Nat.add_assoc]
              exact hb _ (by omega)
        · rw [if_neg hva, if_pos rfl, if_neg (by simpa using hva)]
          exact ⟨h, ⟨rfl, rfl, rfl⟩, rfl, fun _ _ => rfl⟩

/-! ### `copyin` -/

/-- What a copy of `len` bytes reads. -/
def readable (m : PageMap) (s : Ram) (va len : Nat) : List UInt8 :=
  Bytes.slice (view m s).byte va ((view m s).extent va len)

/-- What this pass reads. -/
theorem slice_piece (hva : Access m va) : Bytes.slice s.mem (phys m va) (piece va len) =
    Bytes.slice (view m s).byte va (piece va len) := by
  refine Bytes.slice_congr fun i hi => ?_
  have hi' : i < PGSIZE - va % PGSIZE := Nat.lt_of_lt_of_le hi piece_le
  have hacc : Access m (va + i) := by
    have hthere := piece_writable (s := s) hva i hi
    rw [mapped_view] at hthere
    exact of_decide_eq_true hthere
  rw [← phys_add hi']
  exact (if_pos hacc).symm

/-- And those after it. -/
theorem readable_pass (hva : Access m va) (len : Nat) :
    readable m s va len = Bytes.slice s.mem (phys m va) (piece va len) ++
      readable m s ((PGROUNDDOWN va + PGSIZE) % 2 ^ 64) (len - piece va len) := by
  rw [readable, extent_pass hva, Bytes.slice_append, ← slice_piece hva, readable]
  rw [List.append_cancel_left_eq]
  by_cases hmore : piece va len < len
  · rw [next_pass hva hmore]
  · rw [Nat.sub_eq_zero_of_le (Nat.not_lt.mp hmore), UserMem.extent]
    exact Bytes.slice_congr fun i hi => absurd hi (Nat.not_lt_zero i)

theorem readable_none (hva : ¬ Access m va) : readable m s va len = [] := by
  rw [readable, extent_none hva]
  rfl

theorem readable_length : (readable m s va len).length = (view m s).extent va len :=
  Bytes.slice_length

theorem readable_length_pass (hva : Access m va) (len : Nat) :
    (readable m s va len).length = piece va len +
      (readable m s ((PGROUNDDOWN va + PGSIZE) % 2 ^ 64) (len - piece va len)).length := by
  rw [readable_length, readable_length, extent_pass hva]

/-- **The loop of `copyin`** moves what is readable, and fails if that is not all. -/
theorem copyinLoop (h : UserSpace room root f s m) (va : Nat) (hfuel : len ≤ fuel) :
    Ends (copyinLoop root fuel va len) s
      (fun r t => t = s ∧ r.2 = readable m s va len ∧
        r.1 = if (readable m s va len).length = len then 0 else -1)
      fun _ _ => False := by
  induction fuel generalizing va len with
  | zero =>
      obtain rfl := Nat.le_zero.mp hfuel
      exact ⟨rfl, rfl, rfl⟩
  | succ fuel ih =>
      unfold Vm.copyinLoop
      split
      next hzero =>
        subst hzero
        exact ⟨rfl, rfl, rfl⟩
      next hlen =>
        refine (Ends.of_ok h.walkaddr_page (Q := fun pa t => t = s ∧
          pa = if Access m va then m.addr va else 0) ⟨rfl, rfl⟩).bind ?_
        rintro pa s ⟨rfl, rfl⟩
        by_cases hva : Access m va
        · have hoff : va - PGROUNDDOWN va = va % PGSIZE := by
            unfold PGROUNDDOWN PGSIZE
            omega
          have hpos : 0 < piece va len := piece_pos hlen
          have hle : piece va len ≤ len := piece_le_len
          rw [if_pos hva, if_neg hva.2, Ends.get_bind_iff, hoff]
          refine (ih _ (by omega)).bind ?_
          rintro ⟨r, rest⟩ s ⟨rfl, hrest, hr⟩
          subst hrest
          refine ⟨rfl, (readable_pass hva len).symm, hr.trans (if_congr ?_ rfl rfl)⟩
          rw [readable_length_pass hva len]
          omega
        · rw [if_neg hva, if_pos rfl]
          refine ⟨rfl, (readable_none hva).symm, (if_neg ?_).symm⟩
          rw [readable_none hva]
          exact fun heq => hlen heq.symm

/-! ### `copyinstr` -/

/-- There is a 0 in what is read. -/
theorem untilNull_length : (untilNull l).length < l.length ↔ 0 ∈ l := by
  induction l with
  | nil => simp
  | cons x l ih =>
      by_cases hx : x = 0
      · simp [untilNull, hx]
      · simp [untilNull, hx, Ne.symm hx, ← ih]

theorem untilNull_append {l' : List UInt8} (h : 0 ∈ l) : untilNull (l ++ l') = untilNull l := by
  unfold untilNull
  rw [List.takeWhile_append, if_neg]
  exact Nat.ne_of_lt (untilNull_length.mpr h)

theorem untilNull_append_of_not {l' : List UInt8} (h : 0 ∉ l) :
    untilNull (l ++ l') = l ++ untilNull l' := by
  refine List.takeWhile_append_of_pos fun x hx => decide_eq_true ?_
  rintro rfl
  exact h hx

theorem untilNull_self (h : 0 ∉ l) : untilNull l = l := by
  have happend : untilNull (l ++ []) = l ++ untilNull [] := untilNull_append_of_not h
  have hnil : untilNull [] = [] := rfl
  rwa [List.append_nil, hnil, List.append_nil] at happend

/-- **The loop of `copyinstr`** moves a string, and fails if none ends where it reads. -/
theorem copyinstrLoop (h : UserSpace room root f s m) (va : Nat) (hfuel : len ≤ fuel) :
    Ends (copyinstrLoop root fuel va len) s
      (fun r t => t = s ∧ r = if 0 ∈ readable m s va len
        then (0, untilNull (readable m s va len) ++ [0]) else (-1, readable m s va len))
      fun _ _ => False := by
  induction fuel generalizing va len with
  | zero =>
      obtain rfl := Nat.le_zero.mp hfuel
      exact ⟨rfl, rfl⟩
  | succ fuel ih =>
      unfold Vm.copyinstrLoop
      split
      next hzero =>
        subst hzero
        exact ⟨rfl, rfl⟩
      next hlen =>
        refine (Ends.of_ok h.walkaddr_page (Q := fun pa t => t = s ∧
          pa = if Access m va then m.addr va else 0) ⟨rfl, rfl⟩).bind ?_
        rintro pa s ⟨rfl, rfl⟩
        by_cases hva : Access m va
        · have hoff : va - PGROUNDDOWN va = va % PGSIZE := by
            unfold PGROUNDDOWN PGSIZE
            omega
          have hpos : 0 < piece va len := piece_pos hlen
          have hle : piece va len ≤ len := piece_le_len
          rw [if_pos hva, if_neg hva.2, Ends.get_bind_iff, hoff]
          change Ends (if (untilNull (Bytes.slice s.mem (phys m va) (piece va len))).length <
            piece va len then _ else _) s _ _
          have hlength : (Bytes.slice s.mem (phys m va) (piece va len)).length = piece va len :=
            Bytes.slice_length
          rw [readable_pass hva len]
          split
          next hshort =>
            have hnull : 0 ∈ Bytes.slice s.mem (phys m va) (piece va len) :=
              untilNull_length.mp (by rwa [hlength])
            rw [if_pos (List.mem_append_left _ hnull), untilNull_append hnull]
            exact ⟨rfl, rfl⟩
          next hfull =>
            have hnone : 0 ∉ Bytes.slice s.mem (phys m va) (piece va len) := by
              rw [← untilNull_length, hlength]
              exact hfull
            refine (ih _ (by omega)).bind ?_
            rintro ⟨r, rest⟩ s ⟨rfl, hrest⟩
            refine ⟨rfl, ?_⟩
            split at hrest
            next hthere =>
              cases hrest
              rw [if_pos (List.mem_append_right _ hthere), untilNull_append_of_not hnone,
                List.append_assoc]
              exact congrArg (fun l => ((0 : Int), l ++ _)) (untilNull_self hnone)
            next hnot =>
              cases hrest
              rw [if_neg fun hin => (List.mem_append.mp hin).elim hnone hnot]
              exact congrArg (fun l => ((-1 : Int), l ++ _)) (untilNull_self hnone)
        · rw [if_neg hva, if_pos rfl, readable_none hva]
          exact ⟨rfl, (if_neg (List.not_mem_nil)).symm⟩

end UserSpace

/-! ### All three -/

/-- A string ends at its first 0. -/
theorem untilNull_eq_take (h : 0 ∈ l) : ∃ n < l.length, l[n]? = some 0 ∧
    (∀ i < n, l[i]? ≠ some 0) ∧ untilNull l ++ [0] = l.take (n + 1) := by
  induction l with
  | nil => exact absurd h (List.not_mem_nil)
  | cons x l ih =>
      by_cases hx : x = 0
      · subst hx
        exact ⟨0, Nat.succ_pos _, rfl, fun i hi => absurd hi (Nat.not_lt_zero i), rfl⟩
      · obtain ⟨n, hn, hnull, hfirst, htake⟩ := ih ((List.mem_cons.mp h).resolve_left (Ne.symm hx))
        have hcons : untilNull (x :: l) = x :: untilNull l :=
          List.takeWhile_cons_of_pos (decide_eq_true hx)
        refine ⟨n + 1, Nat.succ_lt_succ hn, hnull, fun i hi => ?_, ?_⟩
        · cases i with
          | zero => exact fun heq => hx (Option.some.inj heq)
          | succ i => exact hfirst i (by omega)
        · rw [hcons, List.cons_append, htake, List.take_succ_cons]

/-- **An address space**: a page table with distinct pages for the user. -/
def AddressSpace (root : Nat) (s : Ram) (m : PageMap) : Prop :=
  ∃ room f, UserSpace room root f s m

theorem writable_view : (view m s).Writable va n ↔ ∀ i < n, Access m (va + i) := by
  refine forall₂_congr fun i _ => ?_
  rw [mapped_view, decide_eq_true_iff]

/-- The bytes before the first page that the user may not access. -/
theorem extent_access (s : Ram) (m : PageMap) (va n : Nat) :
    (view m s).extent va n ≤ n ∧ (∀ i < (view m s).extent va n, Access m (va + i)) ∧
      ((view m s).extent va n < n → ¬ Access m (va + (view m s).extent va n)) := by
  refine ⟨UserMem.extent_le, writable_view.mp UserMem.extent_writable, fun hlt => ?_⟩
  have hstops := UserMem.extent_stops hlt
  rw [mapped_view] at hstops
  exact of_decide_eq_false hstops

theorem byte_view (ha : Access m a) : (view m s).byte a = s.mem (phys m a) := if_pos ha

/-- What is read, byte by byte. -/
theorem readable_getElem (h : n < (view m s).extent va len) :
    (UserSpace.readable m s va len)[n]? = some (s.mem (phys m (va + n))) := by
  rw [UserSpace.readable, Bytes.slice_getElem h, byte_view ((extent_access s m va len).2.1 n h)]

/-- A 0 is read just when there is one before the first page that is not there. -/
theorem null_readable : 0 ∈ UserSpace.readable m s va len ↔
    ∃ n < len, (∀ i ≤ n, Access m (va + i)) ∧ s.mem (phys m (va + n)) = 0 := by
  obtain ⟨hle, hacc, hstops⟩ := extent_access s m va len
  rw [List.mem_iff_getElem?]
  constructor
  · rintro ⟨n, hn⟩
    have hlt : n < (view m s).extent va len := by
      obtain ⟨hlt, -⟩ := List.getElem?_eq_some_iff.mp hn
      rwa [UserSpace.readable_length] at hlt
    rw [readable_getElem hlt] at hn
    exact ⟨n, by omega, fun i hi => hacc i (by omega), Option.some.inj hn⟩
  · rintro ⟨n, hlt, hall, hzero⟩
    have hn : n < (view m s).extent va len := by
      by_contra hge
      exact hstops (by omega) (hall _ (by omega))
    exact ⟨n, by rw [readable_getElem hn, hzero]⟩

/-- What `copyout` has done. -/
theorem UserSpace.copyout (h : UserSpace room root f s m) (va : Nat) (src : List UInt8) :
    ∃ r t k, copyout root va src s = .ok r t ∧ UserSpace room root f t m ∧
      (r = 0 ∧ k = src.length ∨
        r = -1 ∧ k < src.length ∧ ¬ Access m (va + k)) ∧
      (∀ i < k, Access m (va + i)) ∧
      (∀ i < k, src[i]? = some (t.mem (phys m (va + i)))) ∧
      ∀ b, (∀ i < k, b ≠ phys m (va + i)) → t.mem b = s.mem b := by
  obtain ⟨r, t, hrun, h', -, heq, hmem⟩ :=
    (h.copyoutLoop src.length va src).exists_ok
  rw [UserMem.copyoutLoop_eq (Nat.le_refl _), Prod.mk.injEq] at heq
  obtain ⟨hr, hview⟩ := heq
  obtain ⟨hle, hacc, hstops⟩ := extent_access s m va src.length
  refine ⟨r, t, _, hrun, h', ?_, hacc, fun i hi => ?_, hmem⟩
  · by_cases hall : (view m s).extent va src.length = src.length
    · rw [if_pos (UserMem.extent_eq_iff.mp hall)] at hr
      exact Or.inl ⟨hr, hall⟩
    · rw [if_neg (fun hw => hall (UserMem.extent_eq_iff.mpr hw))] at hr
      exact Or.inr ⟨hr, by omega, hstops (by omega)⟩
  · have hreached : (view m s).reached va src = src.take ((view m s).extent va src.length) :=
      UserMem.reached_eq
    have hlength : i < ((view m s).reached va src).length := by
      rw [hreached, List.length_take]
      omega
    rw [← byte_view (hacc i hi), hview, UserMem.write_byte, Bytes.splice_inside hlength,
      ← List.getElem?_eq_getElem hlength, hreached, List.getElem?_take, if_pos hi]

/-- What `copyin` moves when all of it is there. -/
theorem UserSpace.copyin (h : UserSpace room root f s m)
    (hall : ∀ i < src.length, Access m (va + i))
    (hsrc : ∀ i < src.length, src[i]? = some (s.mem (phys m (va + i)))) :
    Vm.copyin root va src.length s = .ok (0, src) s := by
  obtain ⟨⟨r, bytes⟩, t, hrun, rfl, hbytes, hr⟩ :=
    (h.copyinLoop va (Nat.le_refl src.length)).exists_ok
  have hextent : (view m t).extent va src.length = src.length :=
    UserMem.extent_eq_iff.mpr (writable_view.mpr hall)
  rw [UserSpace.readable_length, hextent, if_pos rfl] at hr
  have hsame : UserSpace.readable m t va src.length = src := by
    refine List.ext_getElem? fun i => ?_
    by_cases hi : i < src.length
    · rw [readable_getElem (hextent.symm ▸ hi), hsrc i hi]
    · have hend : (UserSpace.readable m t va src.length).length ≤ i := by
        rw [UserSpace.readable_length, hextent]
        omega
      rw [List.getElem?_eq_none hend, List.getElem?_eq_none (Nat.not_lt.mp hi)]
  rw [hsame] at hbytes
  rw [Vm.copyin, hrun, ← hbytes, ← hr]

/-- **Copies respect the address space.** -/
theorem copies_respect (h : AddressSpace root s m) (va : Nat) :
    (∀ src, ∃ r t k, copyout root va src s = .ok r t ∧ AddressSpace root t m ∧
      (r = 0 ∨ r = -1) ∧ (r = 0 ↔ ∀ i < src.length, Access m (va + i)) ∧
      (r = 0 → k = src.length) ∧
      (r = -1 → k < src.length ∧ (∀ i < k, Access m (va + i)) ∧ ¬ Access m (va + k)) ∧
      (∀ i < k, src[i]? = some (t.mem (phys m (va + i)))) ∧
      (∀ b, (∀ i < k, b ≠ phys m (va + i)) → t.mem b = s.mem b) ∧
      (r = 0 → copyin root va src.length t = .ok (0, src) t)) ∧
    ∀ max, ∃ r bytes, copyinstr root va max s = .ok (r, bytes) s ∧ bytes.length ≤ max ∧
      (r = 0 ∨ r = -1) ∧
      (r = 0 ↔ ∃ n < max, (∀ i ≤ n, Access m (va + i)) ∧ s.mem (phys m (va + n)) = 0) ∧
      (r = 0 → ∃ n, (∀ i < n, s.mem (phys m (va + i)) ≠ 0) ∧ s.mem (phys m (va + n)) = 0 ∧
        bytes = (List.range (n + 1)).map fun i => s.mem (phys m (va + i))) := by
  obtain ⟨room, f, h⟩ := h
  constructor
  · intro src
    obtain ⟨r, t, k, hrun, h', hr, hacc, hbytes, hmem⟩ := h.copyout va src
    refine ⟨r, t, k, hrun, ⟨room, f, h'⟩, ?_, ?_, ?_, ?_, hbytes, hmem, ?_⟩
    · exact hr.imp And.left And.left
    · constructor
      · rintro rfl
        obtain ⟨-, rfl⟩ | ⟨hbad, -⟩ := hr
        · exact hacc
        · cases hbad
      · intro hall
        obtain ⟨hr, -⟩ | ⟨-, hlt, hbad⟩ := hr
        · exact hr
        · exact absurd (hall k hlt) hbad
    · rintro rfl
      obtain ⟨-, hk⟩ | ⟨hbad, -⟩ := hr
      · exact hk
      · cases hbad
    · rintro rfl
      obtain ⟨hbad, -⟩ | ⟨-, hlt, hbad⟩ := hr
      · cases hbad
      · exact ⟨hlt, hacc, hbad⟩
    · rintro rfl
      obtain ⟨-, rfl⟩ | ⟨hbad, -⟩ := hr
      · exact h'.copyin hacc hbytes
      · cases hbad
  · intro max
    obtain ⟨⟨r, bytes⟩, t, hrun, rfl, heq⟩ :=
      (h.copyinstrLoop va (Nat.le_refl max)).exists_ok
    obtain ⟨hle, hacc, -⟩ := extent_access t m va max
    have hlength : (UserSpace.readable m t va max).length ≤ max := by
      rw [UserSpace.readable_length]
      exact hle
    refine ⟨r, bytes, hrun, ?_⟩
    rw [← null_readable]
    by_cases hnull : 0 ∈ UserSpace.readable m t va max
    · rw [if_pos hnull, Prod.mk.injEq] at heq
      obtain ⟨rfl, rfl⟩ := heq
      obtain ⟨n, hn, hzero, hfirst, htake⟩ := untilNull_eq_take hnull
      rw [UserSpace.readable_length] at hn
      rw [htake]
      refine ⟨?_, Or.inl rfl, iff_of_true rfl hnull, fun _ => ⟨n, fun i hi => ?_, ?_, ?_⟩⟩
      · rw [List.length_take]
        omega
      · have hne := hfirst i hi
        rw [readable_getElem (by omega)] at hne
        exact fun heq => hne (congrArg some heq)
      · rw [readable_getElem hn] at hzero
        exact Option.some.inj hzero
      · rw [UserSpace.readable, Bytes.slice_take hn]
        refine List.map_congr_left fun i hi => byte_view (hacc i ?_)
        have hlt := List.mem_range.mp hi
        omega
    · rw [if_neg hnull, Prod.mk.injEq] at heq
      obtain ⟨rfl, rfl⟩ := heq
      exact ⟨hlength, Or.inr rfl, iff_of_false (by decide) hnull, fun hbad => by cases hbad⟩

/-- Pages held and mapped once make an address space. -/
theorem Models.addressSpace {v : Machine} (h : Models room v m)
    (hheld : ∀ p e, m p = some e → e.flags.testBit 4 = true → e.pa ∈ v.held)
    (hdistinct : ∀ p q e e', m p = some e → m q = some e' → e.flags.testBit 4 = true →
      e'.flags.testBit 4 = true → e.pa = e'.pa → p = q) : AddressSpace v.pagetable v.ram m := by
  obtain ⟨f, hmaps, hold⟩ := h
  refine ⟨room, f, hmaps, fun p e hm hU => ?_, hdistinct⟩
  obtain ⟨hne, heq⟩ := hold.owner _ (hheld p e hm hU)
  exact ⟨hne, _, heq⟩

/-- A string is copied to a page and read from it. -/
theorem copies_respect_small : ∃ m t, AddressSpace smallMapped.pagetable smallMapped.ram m ∧
    copyout smallMapped.pagetable 4000 [79, 83, 78, 0] smallMapped.ram = .ok 0 t ∧
      copyin smallMapped.pagetable 4000 4 t = .ok (0, [79, 83, 78, 0]) t := by
  obtain ⟨room, hmodels₀⟩ := smallMachine_created.models
  obtain ⟨m, hbuilds, hmodels⟩ := smallMapped_runs.models hmodels₀
  have hm : m = PageMap.insert (fun _ => none) 0 0x87ffe000 30 1 := by
    cases hbuilds with
    | cons hbuilds heffect =>
        cases hbuilds with
        | cons hbuilds heffect₀ =>
            cases hbuilds
            obtain ⟨k, rfl, -, ⟨-, hk⟩ | ⟨hbad, -⟩⟩ := heffect
            · obtain rfl := heffect₀
              obtain rfl : k = 1 := by
                change 0 + k = 0 + 1 at hk
                omega
              rfl
            · cases hbad
  have hpage : ∀ p e, m p = some e → p = 0 ∧ e = .make 0x87ffe000 30 := by
    intro p e he
    rw [hm, insert_one] at he
    by_cases hp : p = 0
    · rw [hp, Function.update_self] at he
      exact ⟨hp, (Option.some.inj he).symm⟩
    · rw [Function.update_of_ne hp] at he
      cases he
  have hspace : AddressSpace smallMapped.pagetable smallMapped.ram m := by
    refine hmodels.addressSpace (fun p e he _ => ?_) fun p q e e' he he' _ _ _ => ?_
    · rw [(hpage p e he).2]
      decide
    · rw [(hpage p e he).1, (hpage q e' he').1]
  obtain ⟨r, t, k, hrun, -, -, -, -, -, -, -, hback⟩ :=
    (copies_respect hspace 4000).1 [79, 83, 78, 0]
  have hzero : copyout smallMapped.pagetable 4000 [79, 83, 78, 0] smallMapped.ram = .ok 0 _ :=
    eq_ok (by decide)
  obtain ⟨rfl, rfl⟩ := EStateM.Result.ok.inj (hrun.symm.trans hzero)
  exact ⟨m, _, hspace, hzero, hback rfl⟩

end Vm
