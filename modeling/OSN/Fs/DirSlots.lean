import OSN.Fs.Files
import OSN.Lib.Slots

/-!
# Directories as slots

The entries of a directory are slots, which a name fills with the number of its inode.  Two
names are the same if they agree up to the first NUL within `DIRSIZ` bytes.
-/

namespace Fs

/-! ### Names -/

/-- What counts of a name. -/
def nameKey (name : CStr) : CStr := (name.take DIRSIZ).takeWhile (· ≠ 0)

theorem strncmpEq_iff {n : Nat} {p q : CStr} :
    strncmpEq n p q = true ↔ (p.take n).takeWhile (· ≠ 0) = (q.take n).takeWhile (· ≠ 0) := by
  induction n generalizing p q with
  | zero => simp [strncmpEq]
  | succ n ih =>
      cases p with
      | nil =>
          cases q with
          | nil => simp [strncmpEq]
          | cons y q =>
              by_cases hy : y = 0
              · simp [strncmpEq, hy]
              · simp [strncmpEq, hy, Ne.symm hy]
      | cons x p =>
          cases q with
          | nil => by_cases hx : x = 0 <;> simp [strncmpEq, hx]
          | cons y q =>
              by_cases hx : x = 0
              · by_cases hy : y = 0
                · simp [strncmpEq, hx, hy]
                · simp [strncmpEq, hx, hy, Ne.symm hy]
              · by_cases hxy : x = y
                · subst hxy
                  simpa [strncmpEq, hx] using ih
                · by_cases hy : y = 0 <;> simp [strncmpEq, hx, hxy, hy]

/-- **`namecmp`** compares what counts. -/
theorem namecmp_iff {s t : CStr} : namecmp s t = true ↔ nameKey s = nameKey t := strncmpEq_iff

theorem takeWhile_strncpy {n : Nat} {t : CStr} :
    (strncpy n t).takeWhile (· ≠ 0) = (t.take n).takeWhile (· ≠ 0) := by
  induction n generalizing t with
  | zero => simp [strncpy]
  | succ n ih =>
      cases t with
      | nil => simp [strncpy, List.replicate_succ]
      | cons y t =>
          by_cases hy : y = 0
          · simp [strncpy, hy, List.replicate_succ]
          · simpa [strncpy, hy] using ih

/-- What `strncpy` stores of a name is what counts of it. -/
theorem nameKey_strncpy {name : CStr} : nameKey (strncpy DIRSIZ name) = nameKey name := by
  have hall : (strncpy DIRSIZ name).take DIRSIZ = strncpy DIRSIZ name :=
    List.take_of_length_le (Nat.le_of_eq strncpy_length)
  unfold nameKey
  rw [hall, takeWhile_strncpy]

/-! ### Entries -/

/-- What an entry says, unless it is free. -/
def Dirent.slot (de : Dirent) : Option (CStr × Nat) :=
  if de.inum = 0 then none else some (nameKey de.name, de.inum)

/-- How many entries fit into a file. -/
def Node.entries (n : Node) : Nat := n.ip.size.toNat / DIRENTSIZE

/-- A directory of whole entries. -/
def Node.Whole (n : Node) : Prop := DIRENTSIZE ∣ n.ip.size.toNat

/-- The entries of a directory. -/
def Node.slots (n : Node) : Slots CStr Nat :=
  (List.range n.entries).map fun j => (n.dirent (DIRENTSIZE * j)).slot

variable {n n' n'' : Node} {name : CStr} {inum off m left tot fuel j : Nat} {text : String}
  {p : Dirent → Bool} {de : Dirent}

instance : Decidable n.Whole := by
  unfold Node.Whole
  infer_instance

theorem Node.slots_length : n.slots.length = n.entries := by
  unfold Node.slots
  rw [List.length_map, List.length_range]

theorem Node.slot_eq (hj : j < n.entries) :
    Slots.slot n.slots j = (n.dirent (DIRENTSIZE * j)).slot := by
  unfold Slots.slot Node.slots
  rw [List.getElem?_map, List.getElem?_range hj]
  rfl

theorem Dirent.slot_eq_none_iff : de.slot = none ↔ de.inum = 0 := by
  unfold Dirent.slot
  split
  next h => simp [h]
  next h => simp [h]

theorem Dirent.key_slot_iff :
    de.slot.map Prod.fst = some (nameKey name) ↔ de.inum ≠ 0 ∧ namecmp name de.name = true := by
  rw [namecmp_iff]
  unfold Dirent.slot
  split
  next h => simp [h]
  next h => simp [h, eq_comm]

/-- The file keeps its entries where its bytes and its size stay. -/
theorem Node.slots_congr (hsize : n'.ip.size = n.ip.size) (hbyte : n'.byte = n.byte) :
    n'.slots = n.slots := by
  unfold Node.slots Node.entries Node.dirent
  rw [hsize, hbyte]

/-! ### Looking at the entries -/

section Looking

variable {ι : Type} {own : Place → ι} {f : ι → UInt32}

/-- What code has done that looks at a file: if there are holes, it may have filled them. -/
structure Looked (own : Place → ι) (f : ι → UInt32) (n n' : Node) : Prop where
  held : ∃ f', Held own f' n' ∧ Quiet own f f' n n'
  grown : Grown n n'

theorem Looked.refl (h : Held own f n) : Looked own f n n := ⟨⟨f, h, Quiet.refl⟩, Grown.refl⟩

theorem Looked.size (h : Looked own f n n') : n'.ip.size = n.ip.size := by
  rw [h.grown.header]

theorem Looked.whole (h : Looked own f n n') (hwhole : n.Whole) : n'.Whole := by
  unfold Node.Whole
  rw [h.size]
  exact hwhole

theorem Looked.byte (h : Looked own f n n') : n'.byte = n.byte := funext h.grown.byte

theorem Looked.dirent (h : Looked own f n n') : n'.dirent = n.dirent := by
  funext off
  unfold Node.dirent
  rw [h.byte]

/-- A second look. -/
theorem Looked.then (h : Looked own f n n') {f' : ι → UInt32} (hquiet : Quiet own f f' n n')
    (h' : Looked own f' n' n'') : Looked own f n n'' := by
  obtain ⟨f'', hheld, hquiet'⟩ := h'.held
  exact ⟨⟨f'', hheld, hquiet.trans hquiet'⟩, h.grown.trans h'.grown⟩

/-- The first of the entries with a property. -/
def Node.firstEntry (n : Node) (p : Dirent → Bool) (offs : List Nat) : Option (Nat × Dirent) :=
  (offs.find? fun off => p (n.dirent off)).map fun off => (off, n.dirent off)

theorem Node.firstEntry_cons {offs : List Nat} : n.firstEntry p (off :: offs) =
    if p (n.dirent off) then some (off, n.dirent off) else n.firstEntry p offs := by
  unfold Node.firstEntry
  split
  next hp => rw [List.find?_cons_of_pos (p := fun off => p (n.dirent off)) hp, Option.map_some]
  next hp => rw [List.find?_cons_of_neg (p := fun off => p (n.dirent off)) hp]

/-- In a directory without holes, of whole entries. -/
theorem findEntry_full (h : Full n.block n.ip) {offs : List Nat}
    (hoffs : ∀ off ∈ offs, off + DIRENTSIZE ≤ n.ip.size.toNat) :
    findEntry text p offs n = .ok (n.firstEntry p offs) n := by
  induction offs with
  | nil => rfl
  | cons off offs ih =>
      have hsize := hoffs off List.mem_cons_self
      unfold findEntry
      rw [Ends.bind_of_ok (readDirent_mapped hsize (h.mapped hsize)), Node.firstEntry_cons]
      split
      · rfl
      · exact ih fun off' hoff' => hoffs off' (List.mem_cons_of_mem _ hoff')

variable [DecidableEq ι]

/-- **The loop of `readi`** reads what the file holds, also where it has a hole. -/
theorem Held.readLoop (h : Held own f n) (hfuel : left ≤ fuel) :
    IfOk (readLoop kernelDst fuel tot off left) n fun r n' =>
      Looked own f n n' ∧ r = (((tot + left : Nat) : Int), Bytes.slice n.byte off left) := by
  induction fuel generalizing n f tot off left with
  | zero =>
      obtain rfl : left = 0 := Nat.le_zero.mp hfuel
      exact ⟨.refl h, rfl⟩
  | succ fuel ih =>
      unfold IfOk Fs.readLoop
      split
      next hzero =>
        subst hzero
        exact ⟨.refl h, rfl⟩
      next hmore =>
        have hpos : 0 < chunk off left := chunk_pos hmore
        have hle : chunk off left ≤ left := chunk_le
        refine Ends.bind ((h.bmap (off / BSIZE)).mono (fun _ _ hb => hb) fun _ _ _ => trivial) ?_
        rintro b n₁ ⟨hlt, ⟨f₁, h₁, hquiet₁⟩, hgrown₁, haddr, hne⟩
        have hblk : n₁.blk (off / BSIZE) = b := (Node.blk_eq hlt).trans haddr
        have hlook : Looked own f n n₁ := ⟨⟨f₁, h₁, hquiet₁⟩, hgrown₁⟩
        subst hblk
        rw [Ends.bind_iff, NodeM.disk_bread]
        dsimp only
        have hall : ((List.range (chunk off left)).takeWhile fun i => kernelDst (tot + i)).length =
            chunk off left := takeWhile_all fun _ => rfl
        rw [hall, if_neg (Nat.lt_irrefl _)]
        refine (ih h₁ (by omega)).bind ?_
        rintro _ n₂ ⟨hlook₂, rfl⟩
        refine ⟨hlook.then hquiet₁ hlook₂, ?_⟩
        have hsplit : Bytes.slice n.byte off (chunk off left + (left - chunk off left)) =
            Bytes.slice n.byte off (chunk off left) ++
              Bytes.slice n.byte (off + chunk off left) (left - chunk off left) :=
          Bytes.slice_append
        rw [Nat.add_sub_cancel' hle] at hsplit
        rw [slice_pass hne, hlook.byte, hsplit, Nat.add_assoc, Nat.add_sub_cancel' hle]

/-- An entry is read that is there as a whole. -/
theorem Held.readDirent (h : Held own f n) :
    IfOk (readDirent text off) n fun de n' =>
      Looked own f n n' ∧ off + DIRENTSIZE ≤ n.ip.size.toNat ∧ de = n.dirent off := by
  have hlt := n.ip.size.toNat_lt
  have hread : IfOk (readi kernelDst off DIRENTSIZE) n fun r n' => r.1 = (DIRENTSIZE : Int) →
      Looked own f n n' ∧ off + DIRENTSIZE ≤ n.ip.size.toNat ∧
        r.2 = Bytes.slice n.byte off DIRENTSIZE := by
    unfold IfOk Fs.readi
    rw [Ends.get_bind_iff]
    dsimp only
    split
    next => exact fun heq => absurd heq (by decide)
    next hguard =>
      split
      next hpast =>
        refine (h.readLoop (Nat.le_refl _)).post ?_
        rintro _ n' ⟨-, rfl⟩ heq
        dsimp only at heq
        omega
      next hroom =>
        refine (h.readLoop (Nat.le_refl _)).post ?_
        rintro _ n' ⟨hlook, rfl⟩ -
        exact ⟨hlook, Nat.le_of_not_lt hroom, rfl⟩
  unfold IfOk Fs.readDirent
  refine hread.bind ?_
  rintro ⟨r, l⟩ n' hr
  dsimp only
  split
  next => trivial
  next heq =>
    obtain ⟨hlook, hsize, hl⟩ := hr (not_not.mp heq)
    exact ⟨hlook, hsize, by rw [show l = _ from hl]; rfl⟩

theorem Held.findEntry (h : Held own f n) (offs : List Nat) :
    IfOk (findEntry text p offs) n fun r n' =>
      Looked own f n n' ∧ r = n.firstEntry p offs ∧
        (r = none → ∀ off ∈ offs, off + DIRENTSIZE ≤ n.ip.size.toNat) ∧
        ∀ x, r = some x → x.1 + DIRENTSIZE ≤ n.ip.size.toNat := by
  induction offs generalizing n f with
  | nil =>
      refine ⟨.refl h, rfl, fun _ _ hoff => ?_, fun _ hx => ?_⟩
      · cases hoff
      · cases hx
  | cons off offs ih =>
      unfold IfOk Fs.findEntry
      refine h.readDirent.bind ?_
      rintro de n₁ ⟨hlook, hsize, rfl⟩
      rw [Node.firstEntry_cons]
      split
      next hp =>
        refine ⟨hlook, rfl, fun hnone => ?_, fun x hx => ?_⟩
        · cases hnone
        · cases hx
          exact hsize
      next hp =>
        obtain ⟨f₁, h₁, hquiet₁⟩ := hlook.held
        refine (ih h₁).post ?_
        rintro r n₂ ⟨hlook₂, hr, hall, hsome⟩
        refine ⟨hlook.then hquiet₁ hlook₂, ?_, fun hnone off' hoff' => ?_, fun x hx => ?_⟩
        · rw [hr]
          unfold Node.firstEntry
          rw [hlook.dirent]
        · rcases List.mem_cons.mp hoff' with rfl | htail
          · exact hsize
          · rw [← hlook.size]
            exact hall hnone off' htail
        · rw [← hlook.size]
          exact hsome x hx

/-- **The loops over a directory** find the first entry, and change nothing unless they fill
holes. -/
theorem Held.finds (h : Held own f n) (offs : List Nat) :
    Ends (Fs.findEntry text p offs) n
      (fun r n' => Looked own f n n' ∧ (Full n.block n.ip → n' = n) ∧ r = n.firstEntry p offs ∧
        (r = none → ∀ off ∈ offs, off + DIRENTSIZE ≤ n.ip.size.toNat) ∧
        ∀ x, r = some x → x.1 + DIRENTSIZE ≤ n.ip.size.toNat)
      fun e _ => ¬ Full n.block n.ip ∨
        e = text ∧ ¬ ∀ off ∈ offs, off + DIRENTSIZE ≤ n.ip.size.toNat := by
  by_cases hfull : Full n.block n.ip
  · by_cases hoffs : ∀ off ∈ offs, off + DIRENTSIZE ≤ n.ip.size.toNat
    · have hrun : Fs.findEntry text p offs n = .ok (n.firstEntry p offs) n :=
        findEntry_full hfull hoffs
      exact Ends.of_ok hrun ⟨.refl h, fun _ => rfl, ((h.findEntry offs).ok hrun).2⟩
    · refine ((findEntry_pure hfull offs).and (h.findEntry offs)).mono ?_ ?_
      · rintro r n' ⟨⟨hsame, -⟩, hlook, hr⟩
        exact ⟨hlook, fun _ => hsame, hr⟩
      · rintro e n' ⟨⟨-, he⟩, -⟩
        exact Or.inr ⟨he, hoffs⟩
  · refine (h.findEntry offs).mono ?_ fun _ _ _ => Or.inl hfull
    rintro r n' ⟨hlook, hr⟩
    exact ⟨hlook, fun hf => absurd hf hfull, hr⟩

end Looking

/-! ### The slots of a directory -/

theorem find?_range {q : Nat → Bool} {m : Nat} :
    (List.range m).find? q = (List.range m).findIdx? q := by
  refine Option.ext fun i => ?_
  rw [List.find?_range_eq_some, List.findIdx?_eq_some_iff_getElem]
  simp only [List.mem_range, List.length_range, List.getElem_range, Bool.not_eq_true]
  constructor
  · rintro ⟨hq, hi, hbefore⟩
    exact ⟨hi, hq, fun j hj => by simpa using hbefore j hj⟩
  · rintro ⟨hi, hq, hbefore⟩
    exact ⟨hq, hi, fun j hj => by simpa using hbefore j hj⟩

/-- The offsets of its entries. -/
def Node.entryOffsets (n : Node) : List Nat := (List.range n.entries).map fun j => DIRENTSIZE * j

theorem Node.offsets_whole (hwhole : n.Whole) : offsets 0 n.ip.size.toNat = n.entryOffsets := by
  obtain ⟨m, hm⟩ := hwhole
  have hcount : (n.ip.size.toNat - 0 + (DIRENTSIZE - 1)) / DIRENTSIZE = n.entries := by
    unfold Node.entries
    unfold DIRENTSIZE DIRSIZ at *
    omega
  unfold offsets Node.entryOffsets
  rw [hcount]
  simp only [Nat.zero_add]

/-- Otherwise there is one more, of which the end is missing. -/
theorem Node.offsets_torn (htorn : ¬ n.Whole) :
    offsets 0 n.ip.size.toNat = n.entryOffsets ++ [DIRENTSIZE * n.entries] := by
  have hcount : (n.ip.size.toNat - 0 + (DIRENTSIZE - 1)) / DIRENTSIZE = n.entries + 1 := by
    unfold Node.Whole at htorn
    unfold Node.entries
    unfold DIRENTSIZE DIRSIZ at *
    omega
  unfold offsets Node.entryOffsets
  rw [hcount, List.range_succ, List.map_append]
  simp only [Nat.zero_add, List.map_cons, List.map_nil]

/-- All of them are there. -/
theorem Node.offsets_fit (hwhole : n.Whole) :
    ∀ off ∈ offsets 0 n.ip.size.toNat, off + DIRENTSIZE ≤ n.ip.size.toNat := by
  intro off hoff
  rw [Node.offsets_whole hwhole] at hoff
  obtain ⟨k, hk, rfl⟩ := List.mem_map.mp hoff
  have hle : DIRENTSIZE * (k + 1) ≤ DIRENTSIZE * n.entries :=
    Nat.mul_le_mul_left _ (List.mem_range.mp hk)
  exact le_trans hle (Nat.mul_div_le _ _)

theorem Node.firstEntry_append {l l' : List Nat} :
    n.firstEntry p (l ++ l') = (n.firstEntry p l).or (n.firstEntry p l') := by
  unfold Node.firstEntry
  rw [List.find?_append, Option.map_or]

theorem Node.firstEntry_entries :
    n.firstEntry p n.entryOffsets =
      ((List.range n.entries).findIdx? fun j => p (n.dirent (DIRENTSIZE * j))).map fun j =>
        (DIRENTSIZE * j, n.dirent (DIRENTSIZE * j)) := by
  unfold Node.firstEntry Node.entryOffsets
  rw [List.find?_map, Option.map_map, ← find?_range]
  rfl

/-- The first entry of a name. -/
def Node.named (n : Node) (name : CStr) : Option (Nat × Dirent) :=
  (Slots.index n.slots (nameKey name)).map fun j => (DIRENTSIZE * j, n.dirent (DIRENTSIZE * j))

/-- It has the number that the name maps to. -/
theorem Node.named_inum :
    (n.named name).map (fun x => x.2.inum) = Slots.value n.slots (nameKey name) := by
  unfold Node.named Slots.value
  cases hindex : Slots.index n.slots (nameKey name) with
  | none => rfl
  | some j =>
      obtain ⟨v, hslot⟩ := Slots.index_spec hindex
      have hlt : j < n.entries := by
        rw [← Node.slots_length]
        exact Slots.lt_of_slot hslot
      rw [Option.bind_some, hslot]
      rw [Node.slot_eq hlt] at hslot
      unfold Dirent.slot at hslot
      split at hslot
      · cases hslot
      · exact congrArg some (Prod.mk.inj (Option.some.inj hslot)).2

/-- **The entry of a name** is the slot of what counts of it. -/
theorem Node.firstEntry_name :
    n.firstEntry (fun de => de.inum ≠ 0 ∧ namecmp name de.name) n.entryOffsets =
      n.named name := by
  rw [Node.firstEntry_entries]
  unfold Node.named Slots.index Node.slots
  rw [List.findIdx?_map]
  congr 2
  funext j
  exact decide_eq_decide.mpr Dirent.key_slot_iff.symm

/-- **`dirlookup`** finds the entry of the name, if it can read what is before it. -/
theorem Held.findsName {ι : Type} [DecidableEq ι] {own : Place → ι} {f : ι → UInt32}
    (h : Held own f n) :
    Ends (Fs.findEntry text (fun de => de.inum ≠ 0 ∧ namecmp name de.name)
        (offsets 0 n.ip.size.toNat)) n
      (fun r n' => Looked own f n n' ∧ (Full n.block n.ip → n' = n) ∧ r = n.named name)
      fun e _ => ¬ Full n.block n.ip ∨ e = text ∧ ¬ n.Whole := by
  refine (h.finds _).mono ?_ ?_
  · rintro r n' ⟨hlook, hsame, hr, hall, hsome⟩
    refine ⟨hlook, hsame, ?_⟩
    by_cases hwhole : n.Whole
    · rw [hr, Node.offsets_whole hwhole]
      exact Node.firstEntry_name
    · have hpast : ¬ DIRENTSIZE * n.entries + DIRENTSIZE ≤ n.ip.size.toNat := by
        unfold Node.Whole at hwhole
        unfold Node.entries DIRENTSIZE DIRSIZ at *
        omega
      rw [Node.offsets_torn hwhole, Node.firstEntry_append, Node.firstEntry_name] at hr
      cases hnamed : n.named name with
      | some x => rw [hr, hnamed, Option.some_or]
      | none =>
          rw [hnamed, Option.none_or] at hr
          cases r with
          | none => rfl
          | some x =>
              -- the entry at the end has not been read
              unfold Node.firstEntry at hr
              obtain ⟨off, hoff, hx⟩ := Option.map_eq_some_iff.mp hr.symm
              obtain rfl := List.mem_singleton.mp (List.mem_of_find?_eq_some hoff)
              have hfit := hsome x rfl
              rw [← hx] at hfit
              exact absurd hfit hpast
  · rintro e n' (hhole | ⟨he, htorn⟩)
    · exact Or.inl hhole
    · exact Or.inr ⟨he, fun hwhole => htorn (Node.offsets_fit hwhole)⟩

/-- **The entry that `dirlink` takes** is the first free slot. -/
theorem Node.firstEntry_free (hwhole : n.Whole) :
    (n.firstEntry (fun de => de.inum = 0) (offsets 0 n.ip.size.toNat)).elim
      (DIRENTSIZE * (offsets 0 n.ip.size.toNat).length) Prod.fst =
      DIRENTSIZE * Slots.firstFree n.slots := by
  have hfree : Slots.firstFree n.slots =
      ((List.range n.entries).findIdx? fun j => decide ((n.dirent (DIRENTSIZE * j)).inum = 0)).getD
        n.entries := by
    unfold Slots.firstFree Node.slots
    rw [List.findIdx_map, List.findIdx_eq_getD_findIdx?, List.length_range]
    congr 2
    funext j
    exact Bool.eq_iff_iff.mpr (by simp [Dirent.slot_eq_none_iff])
  have hcount : n.entryOffsets.length = n.entries := by
    unfold Node.entryOffsets
    rw [List.length_map, List.length_range]
  rw [Node.offsets_whole hwhole, Node.firstEntry_entries, hfree, hcount]
  cases (List.range n.entries).findIdx? fun j =>
      decide ((n.dirent (DIRENTSIZE * j)).inum = 0) with
  | none => rfl
  | some j => rfl

/-! ### Writing an entry -/

section Writing

variable {ι : Type} {own : Place → ι} {f : ι → UInt32}

/-- What is stored of an entry. -/
def Dirent.stored (de : Dirent) : Dirent := ⟨de.inum % 2 ^ 16, de.name⟩

/-- What has been done when entry `j` has been written. -/
structure EntryWritten (own : Place → ι) (f : ι → UInt32) (inum j : Nat) (de : Dirent)
    (n n' : Node) :
    Prop where
  wrote : Wrote own f inum (kernelSrc de.bytes) (DIRENTSIZE * j) DIRENTSIZE n DIRENTSIZE n'
  whole : n'.Whole
  slots : n'.slots = Slots.put n.slots j de.stored.slot

/-- **A slot is put**, and the others stay. -/
theorem Wrote.entryWritten (hname : de.name.length = DIRSIZ) (hwhole : n.Whole)
    (hw : Wrote own f inum (kernelSrc de.bytes) (DIRENTSIZE * j) DIRENTSIZE n DIRENTSIZE n') :
    EntryWritten own f inum j de n n' := by
  have hlength := Dirent.bytes_length hname
  have hstart := hw.start
  have hsize := hw.size
  obtain ⟨m, hm⟩ := hwhole
  have hentries : n.entries = m := by
    unfold Node.entries
    rw [hm, Nat.mul_div_cancel_left _ (by decide)]
  rw [hm] at hstart hsize
  have hjm : j ≤ m := Nat.le_of_mul_le_mul_left hstart (by decide)
  have hsize' : n'.ip.size.toNat = DIRENTSIZE * max m (j + 1) := by
    rw [hsize, ← Nat.mul_succ, Nat.mul_max_mul_left]
  have hentries' : n'.entries = max m (j + 1) := by
    unfold Node.entries
    rw [hsize', Nat.mul_div_cancel_left _ (by decide)]
  have hput : j ≤ n.slots.length := by rwa [Node.slots_length, hentries]
  refine ⟨hw, ⟨_, hsize'⟩, Slots.ext ?_ fun k hk => ?_⟩
  · rw [Node.slots_length, Slots.length_put hput, Node.slots_length, hentries, hentries']
  · rw [Node.slots_length] at hk
    rw [Slots.slot_put hput, Node.slot_eq hk]
    split
    next heq =>
      subst heq
      have hslice : Bytes.slice n'.byte (DIRENTSIZE * k) DIRENTSIZE = de.bytes := by
        have hall : Bytes.slice n'.byte (DIRENTSIZE * k) de.bytes.length = de.bytes :=
          Bytes.slice_eq_iff.mpr fun p hp => hw.wrote p (by omega)
        rwa [hlength] at hall
      unfold Node.dirent
      rw [hslice, Dirent.ofBytes_bytes]
      rfl
    next hne =>
      have hkm : k < n.entries := by omega
      have hslice : Bytes.slice n'.byte (DIRENTSIZE * k) DIRENTSIZE =
          Bytes.slice n.byte (DIRENTSIZE * k) DIRENTSIZE := by
        refine Bytes.slice_congr fun p hp => hw.kept _ ?_
        unfold DIRENTSIZE DIRSIZ at *
        omega
      rw [Node.slot_eq hkm]
      unfold Node.dirent
      rw [hslice]

/-- Why writing entry `j` fails: the file cannot get so long, or there is nothing left of
what a write takes. -/
def Node.NoPlace (n : Node) (text : String) (j : Nat) (e : String) : Prop :=
  e = text ∧ MAXFILE * BSIZE < DIRENTSIZE * (j + 1) ∨
    (0 < n.outstanding → n.missingOf [DIRENTSIZE * j / BSIZE] ≤ n.toDisk.freeCount →
      e = tooBig ∧ ¬ n.Room 5)

theorem span_entry : span (DIRENTSIZE * j) DIRENTSIZE = 1 := by
  unfold span
  rw [if_neg (by decide)]
  unfold DIRENTSIZE DIRSIZ BSIZE
  omega

/-- **`writei` of an entry.** -/
theorem Held.writeDirent [DecidableEq ι] (h : Held own f n) (hinum : inum < n.sb.ninodes)
    (hname : de.name.length = DIRSIZ) (hwhole : n.Whole) (hj : j ≤ n.entries) :
    Ends (writeDirent text inum de (DIRENTSIZE * j)) n
      (fun _ n' => EntryWritten own f inum j de n n') fun e _ => n.NoPlace text j e := by
  have hlength := Dirent.bytes_length hname
  have hstart : DIRENTSIZE * j ≤ n.ip.size.toNat :=
    le_trans (Nat.mul_le_mul_left _ hj) (Nat.mul_div_le _ _)
  have hlt := n.ip.size.toNat_lt
  unfold Fs.writeDirent
  refine Ends.bind ((h.writei_takes hinum).mono (fun _ _ hr => hr) fun e n' hfail => ?_) ?_
  · refine Or.inr fun hop hfree => ?_
    have hcost : n.indirectCost ≤ 2 := by
      unfold Node.indirectCost
      split
      · exact Nat.le_refl _
      · split <;> omega
    have htouched : touched (DIRENTSIZE * j) DIRENTSIZE = [DIRENTSIZE * j / BSIZE] := by
      unfold touched
      rw [span_entry]
      rfl
    obtain ⟨he, hfull⟩ := hfail hop (by rw [htouched]; exact hfree)
    refine ⟨he, fun hroom => hfull (hroom.mono rfl ?_)⟩
    rw [span_entry]
    omega
  · rintro r n' (⟨rfl, rfl, href⟩ | ⟨tot, rfl, -, hw⟩)
    · rw [if_pos (by decide)]
      refine Or.inl ⟨rfl, ?_⟩
      unfold Node.Refuses at href
      unfold MAXFILE NDIRECT NINDIRECT BSIZE DIRENTSIZE DIRSIZ at *
      omega
    · have hall : tot = DIRENTSIZE := hw.wrote.full fun i hi => by
        unfold kernelSrc
        rw [List.getElem?_eq_getElem (by omega)]
        rfl
      subst hall
      rw [if_neg (by simp)]
      exact hw.wrote.entryWritten hname hwhole

/-- **The part of `dirlink` that writes the entry** takes the first free slot. -/
theorem Held.addEntry [DecidableEq ι] (h : Held own f n) {dinum : Nat}
    (hdinum : dinum < n.sb.ninodes) (hwhole : n.Whole) :
    Ends (addEntry dinum name inum) n
      (fun _ n' => ∃ f₁ n₁, Looked own f n n₁ ∧ Quiet own f f₁ n n₁ ∧
        EntryWritten own f₁ dinum (Slots.firstFree n.slots) ⟨inum, strncpy DIRSIZ name⟩ n₁ n')
      fun e _ => ¬ Full n.block n.ip ∨ n.NoPlace "dirlink" (Slots.firstFree n.slots) e := by
  unfold Fs.addEntry
  rw [Ends.get_bind_iff]
  refine Ends.bind ((h.finds _).mono (fun _ _ hr => hr) fun e n' hfail => ?_) ?_
  · exact hfail.imp_right fun htorn => absurd (Node.offsets_fit hwhole) htorn.2
  · rintro r n₁ ⟨hlook, hsame, rfl, -⟩
    obtain ⟨f₁, h₁, hquiet⟩ := hlook.held
    have hj : Slots.firstFree n.slots ≤ n₁.entries := by
      unfold Node.entries
      rw [hlook.size]
      exact le_of_le_of_eq Slots.firstFree_le Node.slots_length
    have hfree := Node.firstEntry_free hwhole
    have hwrite : Ends (Fs.writeDirent "dirlink" dinum ⟨inum, strncpy DIRSIZ name⟩
        (DIRENTSIZE * Slots.firstFree n.slots)) n₁
        (fun _ n' => ∃ f₁ n₁, Looked own f n n₁ ∧ Quiet own f f₁ n n₁ ∧
          EntryWritten own f₁ dinum (Slots.firstFree n.slots) ⟨inum, strncpy DIRSIZ name⟩ n₁ n')
        fun e _ => ¬ Full n.block n.ip ∨ n.NoPlace "dirlink" (Slots.firstFree n.slots) e := by
      refine (h₁.writeDirent (hquiet.sb ▸ hdinum) strncpy_length
        (hlook.whole hwhole) hj).mono ?_ ?_
      · exact fun _ n' hn' => ⟨f₁, n₁, hlook, hquiet, hn'⟩
      · intro e n' hfail
        by_cases hfull : Full n.block n.ip
        · rw [hsame hfull] at hfail
          exact Or.inr hfail
        · exact Or.inl hfull
    cases hfound : n.firstEntry (fun de => de.inum = 0) (offsets 0 n.ip.size.toNat) with
    | none =>
        rw [hfound, Option.elim_none] at hfree
        dsimp only
        rw [hfree]
        exact hwrite
    | some x =>
        rw [hfound, Option.elim_some] at hfree
        dsimp only
        rw [hfree]
        exact hwrite

end Writing

end Fs
