import Mathlib.Data.List.GetD
import Mathlib.Data.List.Basic
import Mathlib.Data.Nat.Bitwise
import Mathlib.Data.UInt
import Mathlib.Tactic.Common

/-!
# Numbers and records in an array of bytes

An array of bytes is a function; `slice` reads a run of it and `splice` writes one.
`leBytes` and `ofLe` are the little-endian form of a number.  `bit`, `setBit` and
`clearBit` see the array as a bitmap.
-/

namespace Bytes

variable {b : Nat → UInt8} {off off' n v w i : Nat} {l : List UInt8}

/-- `n` bytes from `off` on. -/
def slice (b : Nat → UInt8) (off n : Nat) : List UInt8 := (List.range n).map fun i => b (off + i)

/-- The bytes `l` written from `off` on. -/
def splice (b : Nat → UInt8) (off : Nat) (l : List UInt8) : Nat → UInt8 :=
  fun i => if off ≤ i then l.getD (i - off) (b i) else b i

/-- The `w` low bytes of a number, the lowest one first. -/
def leBytes : Nat → Nat → List UInt8
  | 0, _ => []
  | w + 1, v => UInt8.ofNat v :: leBytes w (v / 256)

/-- The number that is written so. -/
def ofLe : List UInt8 → Nat
  | [] => 0
  | x :: l => x.toNat + 256 * ofLe l

@[simp] theorem slice_length : (slice b off n).length = n := by simp [slice]

@[simp] theorem leBytes_length : (leBytes w v).length = w := by
  induction w generalizing v with
  | zero => rfl
  | succ w ih => rw [leBytes, List.length_cons, ih]

theorem slice_getElem (h : i < n) : (slice b off n)[i]? = some (b (off + i)) := by
  simp [slice, h]

theorem slice_congr {c : Nat → UInt8} (h : ∀ i, i < n → b (off + i) = c (off' + i)) :
    slice b off n = slice c off' n := by
  apply List.map_congr_left
  intro i hi
  exact h i (List.mem_range.mp hi)

theorem slice_zeros : slice (fun _ => 0) off n = List.replicate n 0 := by
  simp [slice]

/-- A run in two parts. -/
theorem slice_append {m : Nat} : slice b off (m + n) = slice b off m ++ slice b (off + m) n := by
  simp [slice, List.range_add, Nat.add_assoc]

theorem slice_take {m : Nat} (h : m ≤ n) : (slice b off n).take m = slice b off m := by
  obtain ⟨k, rfl⟩ := Nat.exists_eq_add_of_le h
  rw [slice_append, List.take_left' slice_length]

/-- A run of an array that starts with the bytes `l`. -/
theorem slice_part (h : ∀ i (hi : i < l.length), b i = l[i]) (hn : off + n ≤ l.length) :
    slice b off n = (l.drop off).take n := by
  apply List.ext_getElem
  · rw [slice_length, List.length_take, List.length_drop]
    omega
  · intro i hi _
    rw [slice_length] at hi
    simp [slice, h (off + i) (by omega)]

/-! ### What a write changes -/

theorem splice_outside (h : i < off ∨ off + l.length ≤ i) : splice b off l i = b i := by
  unfold splice
  split
  · rw [List.getD_eq_default]
    omega
  · rfl

theorem splice_inside (h : i < l.length) : splice b off l (off + i) = l[i] := by
  unfold splice
  rw [if_pos (Nat.le_add_right off i), Nat.add_sub_cancel_left, List.getD_eq_getElem _ _ h]

@[simp] theorem splice_nil : splice b off [] = b := by
  funext i
  exact splice_outside (by simp; omega)

/-- **What is written is read back.** -/
theorem slice_splice : slice (splice b off l) off l.length = l := by
  apply List.ext_getElem slice_length
  intro i hi _
  rw [slice_length] at hi
  simp [slice, splice_inside hi]

/-- Nothing changes if the bytes are there. -/
theorem splice_self (h : ∀ i (hi : i < l.length), b (off + i) = l[i]) : splice b off l = b := by
  funext p
  by_cases hin : off ≤ p ∧ p < off + l.length
  · obtain ⟨i, rfl⟩ := Nat.exists_eq_add_of_le hin.1
    rw [splice_inside (by omega), h i (by omega)]
  · exact splice_outside (by omega)

/-- A run of what is written. -/
theorem slice_splice_part {k : Nat} (h : k + n ≤ l.length) :
    slice (splice b off l) (off + k) n = (l.drop k).take n := by
  apply List.ext_getElem
  · rw [slice_length, List.length_take, List.length_drop]
    omega
  · intro i hi _
    rw [slice_length] at hi
    have hinside : splice b off l (off + (k + i)) = l[k + i] := splice_inside (by omega)
    rw [← Nat.add_assoc] at hinside
    simp [slice, hinside]

/-- **A write elsewhere changes nothing.** -/
theorem slice_splice_apart (h : off + n ≤ off' ∨ off' + l.length ≤ off) :
    slice (splice b off' l) off n = slice b off n := by
  apply slice_congr
  intro i hi
  exact splice_outside (by omega)

/-- A write of two runs, one behind the other. -/
theorem splice_append {l' : List UInt8} :
    splice b off (l ++ l') = splice (splice b off l) (off + l.length) l' := by
  funext i
  by_cases hbelow : i < off
  · rw [splice_outside (Or.inl hbelow), splice_outside (by omega), splice_outside (by omega)]
  · obtain ⟨j, rfl⟩ := Nat.exists_eq_add_of_le (Nat.le_of_not_lt hbelow)
    by_cases hfirst : j < l.length
    · rw [splice_inside (by rw [List.length_append]; omega),
        splice_outside (i := off + j) (by omega), splice_inside hfirst,
        List.getElem_append_left hfirst]
    · obtain ⟨k, rfl⟩ := Nat.exists_eq_add_of_le (Nat.le_of_not_lt hfirst)
      by_cases hsecond : k < l'.length
      · rw [splice_inside (by rw [List.length_append]; omega), ← Nat.add_assoc,
          splice_inside hsecond, List.getElem_append_right (by omega)]
        congr 1
        omega
      · rw [splice_outside (by rw [List.length_append]; omega),
          splice_outside (by omega), splice_outside (by omega)]

/-! ### Lists of bytes -/

/-- The list with the bytes `l'` in the place of its own from `off` on. -/
def overwrite (l : List UInt8) (off : Nat) (l' : List UInt8) : List UInt8 :=
  l.take off ++ l' ++ l.drop (off + l'.length)

theorem overwrite_nil : overwrite l off [] = l := by
  simp [overwrite]

theorem overwrite_length {l' : List UInt8} (h : off ≤ l.length) :
    (overwrite l off l').length = max l.length (off + l'.length) := by
  simp only [overwrite, List.length_append, List.length_take, List.length_drop]
  omega

theorem overwrite_inside {l' : List UInt8} (h : off ≤ l.length) (hi : i < l'.length) :
    (overwrite l off l')[off + i]? = some l'[i] := by
  have hlength : (l.take off).length = off := List.length_take_of_le h
  unfold overwrite
  rw [List.append_assoc, List.getElem?_append_right (by omega), hlength, Nat.add_sub_cancel_left,
    List.getElem?_append_left hi, List.getElem?_eq_getElem hi]

theorem overwrite_outside {l' : List UInt8} (h : off ≤ l.length)
    (hi : i < off ∨ off + l'.length ≤ i) : (overwrite l off l')[i]? = l[i]? := by
  have hlength : (l.take off).length = off := List.length_take_of_le h
  unfold overwrite
  rcases hi with hbefore | hbehind
  · rw [List.append_assoc, List.getElem?_append_left (by omega), List.getElem?_take_of_lt hbefore]
  · rw [List.getElem?_append_right (by rw [List.length_append]; omega), List.getElem?_drop]
    congr 1
    rw [List.length_append]
    omega

/-- A part of a run. -/
theorem slice_drop_take {o k : Nat} (h : o + k ≤ n) :
    ((slice b off n).drop o).take k = slice b (off + o) k := by
  obtain ⟨r, rfl⟩ := Nat.exists_eq_add_of_le h
  rw [Nat.add_assoc, slice_append, List.drop_left' slice_length, slice_append,
    List.take_left' slice_length]

/-- A run that is written to in the middle. -/
theorem slice_splice_within {o : Nat} (h : o + l.length ≤ n) :
    slice (splice b (off + o) l) off n = overwrite (slice b off n) o l := by
  obtain ⟨r, rfl⟩ := Nat.exists_eq_add_of_le h
  have hbefore : slice (splice b (off + o) l) off o = slice b off o :=
    slice_splice_apart (Or.inl (Nat.le_refl _))
  have hbehind : slice (splice b (off + o) l) (off + o + l.length) r =
      slice b (off + o + l.length) r := slice_splice_apart (Or.inr (Nat.le_refl _))
  unfold overwrite
  rw [Nat.add_assoc, slice_append, slice_append, slice_append, slice_append, hbefore, slice_splice,
    hbehind, List.take_left' slice_length, ← List.append_assoc, ← List.append_assoc,
    List.drop_left' (by rw [List.length_append, slice_length, slice_length])]

/-- **A run that has been written to.** -/
theorem slice_eq_overwrite {c : Nat → UInt8} {m : Nat} (h : off ≤ n) :
    slice c 0 m = overwrite (slice b 0 n) off l ↔ m = max n (off + l.length) ∧
      (∀ i (hi : i < l.length), c (off + i) = l[i]) ∧
      ∀ p < n, p < off ∨ off + l.length ≤ p → c p = b p := by
  have hoff : off ≤ (slice b 0 n).length := by rwa [slice_length]
  have hlength : (overwrite (slice b 0 n) off l).length = max n (off + l.length) := by
    rw [overwrite_length hoff, slice_length]
  constructor
  · intro heq
    have hm : m = max n (off + l.length) := by rw [← hlength, ← heq, slice_length]
    refine ⟨hm, fun i hi => ?_, fun p hp hout => ?_⟩
    · have hget : (slice c 0 m)[off + i]? = _ := slice_getElem (by omega)
      rw [heq, overwrite_inside hoff hi, Nat.zero_add] at hget
      exact (Option.some.inj hget).symm
    · have hget : (slice c 0 m)[p]? = _ := slice_getElem (by omega)
      rw [heq, overwrite_outside hoff hout, slice_getElem hp, Nat.zero_add] at hget
      exact (Option.some.inj hget).symm
  · rintro ⟨rfl, hinside, houtside⟩
    refine List.ext_getElem? fun p => ?_
    by_cases hp : p < max n (off + l.length)
    · rw [slice_getElem hp, Nat.zero_add]
      by_cases hin : off ≤ p ∧ p < off + l.length
      · obtain ⟨i, rfl⟩ := Nat.exists_eq_add_of_le hin.1
        rw [overwrite_inside hoff (by omega), hinside i (by omega)]
      · rw [overwrite_outside hoff (by omega), slice_getElem (by omega), Nat.zero_add,
          houtside p (by omega) (by omega)]
    · rw [List.getElem?_eq_none (by rw [slice_length]; omega),
        List.getElem?_eq_none (by rw [hlength]; omega)]

/-! ### Several writes -/

/-- Runs of bytes, each with the place it is written to, in the order of the writes. -/
def splices (b : Nat → UInt8) (runs : List (Nat × List UInt8)) : Nat → UInt8 :=
  runs.foldl (fun b run => splice b run.1 run.2) b

/-- A run has a byte for place `i`. -/
def Covers (run : Nat × List UInt8) (i : Nat) : Prop := run.1 ≤ i ∧ i < run.1 + run.2.length

/-- Where two runs meet they have the same bytes. -/
def Agree (run run' : Nat × List UInt8) : Prop :=
  ∀ i < run.2.length, ∀ j < run'.2.length, run.1 + i = run'.1 + j → run.2[i]? = run'.2[j]?

/-- What is written and not overwritten was there before. -/
def Unseen (b : Nat → UInt8) : List (Nat × List UInt8) → Prop
  | [] => True
  | run :: rest =>
      (∀ i < run.2.length, (∀ later ∈ rest, ¬ Covers later (run.1 + i)) →
        run.2[i]? = some (b (run.1 + i))) ∧ Unseen b rest

variable {run : Nat × List UInt8} {runs : List (Nat × List UInt8)}

instance (run : Nat × List UInt8) (i : Nat) : Decidable (Covers run i) := by
  unfold Covers
  infer_instance

instance (run run' : Nat × List UInt8) : Decidable (Agree run run') := by
  unfold Agree
  infer_instance

instance decidableUnseen (b : Nat → UInt8) : ∀ runs, Decidable (Unseen b runs)
  | [] => inferInstanceAs (Decidable True)
  | run :: rest =>
      haveI := decidableUnseen b rest
      inferInstanceAs (Decidable ((∀ i < run.2.length, (∀ later ∈ rest,
        ¬ Covers later (run.1 + i)) → run.2[i]? = some (b (run.1 + i))) ∧ Unseen b rest))

@[simp] theorem splices_nil : splices b [] = b := rfl

@[simp] theorem splices_cons :
    splices b (run :: runs) = splices (splice b run.1 run.2) runs := rfl

theorem splices_append {runs' : List (Nat × List UInt8)} :
    splices b (runs ++ runs') = splices (splices b runs) runs' :=
  List.foldl_append

/-- A run is there if each of its bytes is. -/
theorem slice_eq_iff : slice b off l.length = l ↔ ∀ i < l.length, l[i]? = some (b (off + i)) := by
  constructor
  · intro h i hi
    rw [← slice_getElem hi, h]
  · intro h
    apply List.ext_getElem?
    intro i
    by_cases hi : i < l.length
    · rw [slice_getElem hi, h i hi]
    · rw [List.getElem?_eq_none (by simpa using hi), List.getElem?_eq_none (by simpa using hi)]

theorem splice_covered (h : Covers run i) : run.2[i - run.1]? = some (splice b run.1 run.2 i) := by
  have hlt : i - run.1 < run.2.length := by
    unfold Covers at h
    omega
  have hi : run.1 + (i - run.1) = i := Nat.add_sub_cancel' h.1
  have hinside : splice b run.1 run.2 (run.1 + (i - run.1)) = run.2[i - run.1] :=
    splice_inside hlt
  rw [List.getElem?_eq_getElem hlt, ← hinside, hi]

theorem splice_uncovered (h : ¬ Covers run i) : splice b run.1 run.2 i = b i := by
  apply splice_outside
  unfold Covers at h
  omega

/-- Nothing changes where nothing is written. -/
theorem splices_uncovered (h : ∀ run ∈ runs, ¬ Covers run i) : splices b runs i = b i := by
  induction runs generalizing b with
  | nil => rfl
  | cons run rest ih =>
      rw [splices_cons, ih fun later hlater => h later (List.mem_cons_of_mem run hlater),
        splice_uncovered (h run List.mem_cons_self)]

/-- Where something is written, what was there does not matter. -/
theorem splices_covered {c : Nat → UInt8} (h : ∃ run ∈ runs, Covers run i) :
    splices b runs i = splices c runs i := by
  induction runs generalizing b c with
  | nil => simp at h
  | cons run rest ih =>
      rw [splices_cons, splices_cons]
      by_cases hrest : ∃ later ∈ rest, Covers later i
      · exact ih hrest
      · have hrest' : ∀ later ∈ rest, ¬ Covers later i := by simpa using hrest
        have hrun : Covers run i := by
          obtain ⟨first, hfirst, hcovers⟩ := h
          rcases List.mem_cons.mp hfirst with rfl | hlater
          · exact hcovers
          · exact absurd hcovers (hrest' first hlater)
        rw [splices_uncovered hrest', splices_uncovered hrest', ← Option.some_inj,
          ← splice_covered hrun, ← splice_covered hrun]

/-- **Several writes all stay to be read** exactly if any two of them agree. -/
theorem slices_splices_iff :
    (∀ run ∈ runs, slice (splices b runs) run.1 run.2.length = run.2) ↔ runs.Pairwise Agree := by
  induction runs generalizing b with
  | nil => simp
  | cons run rest ih =>
      rw [List.forall_mem_cons, splices_cons, ih, List.pairwise_cons]
      refine and_congr_left fun hrest => ?_
      have hlast := ih (b := splice b run.1 run.2) |>.mpr hrest
      rw [slice_eq_iff]
      constructor
      · intro hfirst later hlater i hi j hj hmeet
        rw [hfirst i hi, slice_eq_iff.mp (hlast later hlater) j hj, hmeet]
      · intro hagree i hi
        by_cases hcovered : ∃ later ∈ rest, Covers later (run.1 + i)
        · obtain ⟨later, hlater, hcovers⟩ := hcovered
          obtain ⟨j, hj⟩ := Nat.exists_eq_add_of_le hcovers.1
          have hlt : j < later.2.length := by
            have := hcovers.2
            omega
          rw [hagree later hlater i hi j hlt hj, hj,
            slice_eq_iff.mp (hlast later hlater) j hlt]
        · rw [splices_uncovered (by simpa using hcovered),
            ← splice_covered ⟨Nat.le_add_right _ _, Nat.add_lt_add_left hi _⟩,
            Nat.add_sub_cancel_left]

/-- **Several writes change nothing** exactly if what remains of each was there before. -/
theorem splices_eq_self_iff : splices b runs = b ↔ Unseen b runs := by
  induction runs with
  | nil => simp [Unseen]
  | cons run rest ih =>
      rw [Unseen, ← ih]
      constructor
      · intro h
        have hat : ∀ i, splices (splice b run.1 run.2) rest i = b i := congrFun h
        refine ⟨fun i hi hlast => ?_, funext fun i => ?_⟩
        · rw [← hat, splices_uncovered hlast,
            ← splice_covered ⟨Nat.le_add_right _ _, Nat.add_lt_add_left hi _⟩,
            Nat.add_sub_cancel_left]
        · by_cases hcovered : ∃ later ∈ rest, Covers later i
          · rw [splices_covered hcovered, hat]
          · exact splices_uncovered (by simpa using hcovered)
      · rintro ⟨hrun, hrest⟩
        funext i
        rw [splices_cons]
        by_cases hcovered : ∃ later ∈ rest, Covers later i
        · rw [splices_covered hcovered, hrest]
        · rw [splices_uncovered (by simpa using hcovered)]
          by_cases hfirst : Covers run i
          · have hi : run.1 + (i - run.1) = i := Nat.add_sub_cancel' hfirst.1
            have hlt : i - run.1 < run.2.length := by
              unfold Covers at hfirst
              omega
            have hthere := hrun (i - run.1) hlt (by rw [hi]; simpa using hcovered)
            rwa [splice_covered hfirst, hi, Option.some_inj] at hthere
          · exact splice_uncovered hfirst

/-! ### Numbers -/

theorem ofLe_lt : ofLe l < 256 ^ l.length := by
  induction l with
  | nil => decide
  | cons x l ih =>
      have hx := x.toNat_lt
      rw [ofLe, List.length_cons, Nat.pow_succ]
      omega

/-- **A number that fits is read back.** -/
theorem ofLe_leBytes : ofLe (leBytes w v) = v % 256 ^ w := by
  induction w generalizing v with
  | zero => simp [leBytes, ofLe, Nat.mod_one]
  | succ w ih =>
      rw [leBytes, ofLe, ih, Nat.pow_succ, Nat.mul_comm (256 ^ w), Nat.mod_mul]
      simp

theorem ofLe_zeros : ofLe (List.replicate n 0) = 0 := by
  induction n with
  | zero => rfl
  | succ n ih =>
      rw [List.replicate_succ, ofLe, ih]
      rfl

/-- One of a list of runs of one length. -/
theorem take_flatMap {α : Type} {f : α → List UInt8} :
    ∀ (xs : List α) (_ : ∀ a ∈ xs, (f a).length = w) (k : Nat) (hk : k < xs.length),
      ((xs.flatMap f).drop (w * k)).take w = f xs[k]
  | x :: xs, hf, 0, _ => by
      rw [List.flatMap_cons, Nat.mul_zero, List.drop_zero,
        List.take_left' (hf x List.mem_cons_self)]
      rfl
  | x :: xs, hf, k + 1, hk => by
      rw [List.flatMap_cons, Nat.mul_succ, Nat.add_comm, ← List.drop_drop,
        List.drop_left' (hf x List.mem_cons_self),
        take_flatMap xs (fun a ha => hf a (List.mem_cons_of_mem x ha)) k
          (Nat.lt_of_succ_lt_succ hk)]
      rfl

/-! ### Bitmaps -/

/-- The byte with bit `i % 8` alone. -/
def mask (i : Nat) : UInt8 := UInt8.ofNat (1 <<< (i % 8))

/-- Bit `i` of an array. -/
def bit (b : Nat → UInt8) (i : Nat) : Bool := b (i / 8) &&& mask i ≠ 0

/-- Bit `i` is set. -/
def setBit (b : Nat → UInt8) (i : Nat) : Nat → UInt8 :=
  Function.update b (i / 8) (b (i / 8) ||| mask i)

/-- Bit `i` is cleared. -/
def clearBit (b : Nat → UInt8) (i : Nat) : Nat → UInt8 :=
  Function.update b (i / 8) (b (i / 8) &&& ~~~mask i)

theorem mask_toNat : (mask i).toNat = 2 ^ (i % 8) := by
  have hlt : 2 ^ (i % 8) < 2 ^ 8 := Nat.pow_lt_pow_right (by decide) (Nat.mod_lt i (by decide))
  rw [mask, Nat.one_shiftLeft, UInt8.toNat_ofNat']
  exact Nat.mod_eq_of_lt hlt

theorem bit_eq : bit b i = (b (i / 8)).toNat.testBit (i % 8) := by
  have hand : (b (i / 8) &&& mask i).toNat =
      ((b (i / 8)).toNat.testBit (i % 8)).toNat * 2 ^ (i % 8) := by
    rw [UInt8.toNat_and, mask_toNat, Nat.and_two_pow]
  have hset : (b (i / 8) &&& mask i ≠ 0) ↔ (b (i / 8)).toNat.testBit (i % 8) = true := by
    rw [ne_eq, ← UInt8.toNat_inj, hand]
    cases (b (i / 8)).toNat.testBit (i % 8) <;> simp
  rw [bit, Bool.eq_iff_iff, decide_eq_true_iff]
  exact hset

/-- The bits of one byte are told apart by their place in it. -/
theorem place_ne {j : Nat} (h : i ≠ j) (hbyte : j / 8 = i / 8) : i % 8 ≠ j % 8 := by
  omega

theorem bit_setBit {j : Nat} : bit (setBit b i) j = if i = j then true else bit b j := by
  rw [bit_eq, bit_eq, setBit]
  by_cases hbyte : j / 8 = i / 8
  · rw [hbyte, Function.update_self, UInt8.toNat_or, mask_toNat, Nat.testBit_or,
      Nat.testBit_two_pow]
    by_cases hij : i = j
    · simp [hij]
    · simp [hij, place_ne hij hbyte]
  · have hij : i ≠ j := by
      rintro rfl
      exact hbyte rfl
    rw [Function.update_of_ne hbyte, if_neg hij]

theorem bit_clearBit {j : Nat} : bit (clearBit b i) j = if i = j then false else bit b j := by
  rw [bit_eq, bit_eq, clearBit]
  by_cases hbyte : j / 8 = i / 8
  · have hplace : 2 ^ (i % 8) < 2 ^ 8 :=
      Nat.pow_lt_pow_right (by decide) (Nat.mod_lt i (by decide))
    have hnot : (~~~mask i).toNat = 2 ^ 8 - (2 ^ (i % 8) + 1) := by
      rw [UInt8.toNat_not, mask_toNat, UInt8.size]
      omega
    have hlow : j % 8 < 8 := Nat.mod_lt j (by decide)
    rw [hbyte, Function.update_self, UInt8.toNat_and, hnot, Nat.testBit_and,
      Nat.testBit_two_pow_sub_succ hplace, Nat.testBit_two_pow]
    by_cases hij : i = j
    · simp [hij]
    · simp [hij, place_ne hij hbyte, hlow]
  · have hij : i ≠ j := by
      rintro rfl
      exact hbyte rfl
    rw [Function.update_of_ne hbyte, if_neg hij]

theorem bit_zeros : bit (fun _ => 0) i = false := by
  rw [bit_eq]
  exact Nat.zero_testBit _

end Bytes
