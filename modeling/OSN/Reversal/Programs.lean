import OSN.Reversal.CopyLoop

/-!
# `1.c` and `2.c`

`1.c` copies a file backwards.  `2.c` takes the number of parts and the number
of a part from its arguments and copies that part backwards.  Both open the
output without `O_TRUNC`, so what it contained behind the copy stays.
-/

namespace Reversal

open OpenFile

variable {input old : List UInt8}

/-- Before the loop: the source goes back by the part or by `size`, whichever is
less, and the output to its beginning. -/
def beforeLoop (srcFile : OpenFile) (length : Int) (whence : Whence) (old : List UInt8) : Copying :=
  { srcFile :=
      if toSizeT length < size then (srcFile.lseek (-length) whence).1
      else (srcFile.lseek (toOffT (toSizeT (-size))) whence).1
    dstFile := (OpenFile.lseek ⟨old, 0⟩ 0 .seekSet).1
    toRead := if toSizeT length < size then length else toInt size
    charRead := 0 }

namespace One

/-- `main` up to the loop, with the `length` it has found. -/
def start (input old : List UInt8) : Copying × Int :=
  let (srcFile, position) := OpenFile.lseek ⟨input, 0⟩ 0 .seekEnd
  let length := toInt position
  (beforeLoop srcFile length .seekEnd old, length)

/-- What `main` makes of the output file, if the loop ends in time. -/
def main (fuel : Nat) (input old : List UInt8) : Option (List UInt8) :=
  let begun := start input old
  (begun.1.loop begun.2 fuel).map fun c => c.dstFile.content

/-- **The program reverses the file.** -/
def Reverses (input old : List UInt8) : Prop :=
  ∃ fuel, main fuel input old = some input.reverse

end One

namespace Two

/-- `main` up to the loop.  The arguments are single digits. -/
def start (a b : UInt8) (input old : List UInt8) : Copying × Int :=
  let a : Int := a.toNat - 48
  let b : Int := b.toNat - 48
  let (srcFile, position) := OpenFile.lseek ⟨input, 0⟩ 0 .seekEnd
  let length := (toInt position).tdiv a
  let srcFile := (srcFile.lseek (toInt (b * length)) .seekSet).1
  (beforeLoop srcFile length .seekCur old, length)

def main (fuel : Nat) (a b : UInt8) (input old : List UInt8) : Option (List UInt8) :=
  let begun := start a b input old
  (begun.1.loop begun.2 fuel).map fun c => c.dstFile.content

/-- Part `b` of a file that is cut into `a` parts of equal length. -/
def part (a b : Nat) (input : List UInt8) : List UInt8 :=
  let L := input.length / a
  (input.drop ((b - 1) * L)).take L

/-- The digit of a number. -/
def digit (n : Nat) : UInt8 := UInt8.ofNat (48 + n)

/-- **The program reverses its part of the file.** -/
def Reverses (a b : Nat) (input old : List UInt8) : Prop :=
  ∃ fuel, main fuel (digit a) (digit b) input old = some (part a b input).reverse

end Two

/-! ### The start of the loop -/

/-- The seek to the last chunk of a part. -/
theorem begins {srcFile : OpenFile} {whence : Whence} {n finish : Nat}
    (hcontent : srcFile.content = input) (hbase : srcFile.base whence = finish) (hn : n ≤ finish)
    (hint : n < 2 ^ 31) : Copying.Begins input old finish n (beforeLoop srcFile n whence old) := by
  have hsize : size = 1024 := rfl
  have hlength : toSizeT n = n := toSizeT_of_fits (Int.natCast_nonneg n) (by omega)
  have hback : toOffT (toSizeT (-size)) = -size := toOffT_toSizeT (by omega) (by omega)
  have hfull : toInt size = size := toInt_of_fits (by omega) (by omega)
  have hseek : ∀ k : Nat, k ≤ finish →
      (srcFile.lseek (-k) whence).1 = ⟨input, finish - k⟩ := by
    intro k hk
    rw [lseek_of_nonneg (by rw [hbase]; omega), hbase, hcontent]
    simp only [mk.injEq, true_and]
    omega
  unfold beforeLoop
  by_cases hshort : n < size
  · have hmin : min n size = n := Nat.min_eq_left (Nat.le_of_lt hshort)
    simp only [hlength, if_pos hshort]
    exact ⟨by rw [hseek n hn, hmin], rfl, by rw [hmin], rfl⟩
  · have hmin : min n size = size := Nat.min_eq_right (Nat.not_lt.mp hshort)
    simp only [hlength, if_neg hshort, hback, hfull]
    exact ⟨by rw [hseek size (by omega), hmin], rfl, by rw [hmin], rfl⟩

/-- `lseek` to the end gives the length. -/
theorem lseek_end :
    OpenFile.lseek ⟨input, 0⟩ 0 .seekEnd =
      ((⟨input, input.length⟩ : OpenFile), (input.length : Int)) := by
  rw [lseek_of_nonneg] <;> simp [OpenFile.base]

theorem One.start_eq (input old : List UInt8) (hint : input.length < 2 ^ 31) :
    Copying.Begins input old input.length input.length (One.start input old).1 ∧
      (One.start input old).2 = input.length := by
  have hlength : toInt input.length = input.length := toInt_of_fits (by omega) (by omega)
  simp only [One.start, lseek_end, hlength, and_true]
  exact begins rfl rfl (Nat.le_refl _) hint

/-- The number of a digit. -/
theorem Two.digit_eq {n : Nat} (h : n ≤ 9) : ((Two.digit n).toNat : Int) - 48 = n := by
  have hbyte : (Two.digit n).toNat = 48 + n := by
    unfold Two.digit
    rw [UInt8.toNat_ofNat']
    omega
  omega

/-- Where a part lies, and that there is a chunk on one side of its last chunk,
if it is that long and not the whole file. -/
theorem Two.part_bounds {a b : Nat} (ha : 1 ≤ a) (hb : 1 ≤ b ∧ b ≤ a) (n : Nat) :
    n / a ≤ b * (n / a) ∧ b * (n / a) ≤ n ∧
      (size ≤ n / a → 2 * size ≤ b * (n / a) ∨ b * (n / a) + size ≤ n ∨ b * (n / a) = n) := by
  have hall : a * (n / a) ≤ n := Nat.mul_div_le n a
  have hpart : b * (n / a) ≤ a * (n / a) := Nat.mul_le_mul_right _ hb.2
  have hone : 1 * (n / a) ≤ b * (n / a) := Nat.mul_le_mul_right _ hb.1
  refine ⟨by omega, by omega, ?_⟩
  intro hlong
  by_cases hfirst : b = 1
  · subst hfirst
    by_cases hwhole : a = 1
    · subst hwhole
      rw [Nat.div_one]
      omega
    · have htwo : 2 * (n / a) ≤ a * (n / a) := Nat.mul_le_mul_right _ (by omega)
      omega
  · have htwo : 2 * (n / a) ≤ b * (n / a) := Nat.mul_le_mul_right _ (by omega)
    omega

theorem Two.start_eq (old : List UInt8) {a b : Nat} (ha : 1 ≤ a ∧ a ≤ 9) (hb : 1 ≤ b ∧ b ≤ a)
    (hint : input.length < 2 ^ 31) :
    let L := input.length / a
    Copying.Begins input old (b * L) L (Two.start (Two.digit a) (Two.digit b) input old).1 ∧
      (Two.start (Two.digit a) (Two.digit b) input old).2 = L := by
  obtain ⟨hlow, hhigh, _⟩ := Two.part_bounds ha.1 hb input.length
  have hlength : toInt input.length = input.length := toInt_of_fits (by omega) (by omega)
  have hdiv : (input.length : Int).tdiv a = (input.length / a : Nat) := rfl
  have hproduct : toInt ((b : Int) * (input.length / a : Nat)) = (b * (input.length / a) : Nat) := by
    rw [← Nat.cast_mul]
    exact toInt_of_fits (by omega) (by omega)
  have hseek : (OpenFile.lseek ⟨input, input.length⟩ (b * (input.length / a) : Nat) .seekSet).1 =
      ⟨input, b * (input.length / a)⟩ := by
    rw [lseek_of_nonneg (by simp only [OpenFile.base]; omega)]
    simp only [OpenFile.base, mk.injEq, true_and]
    omega
  simp only [Two.start, lseek_end, hlength, Two.digit_eq ha.2, Two.digit_eq (hb.2.trans ha.2), hdiv,
    hproduct, hseek, and_true]
  exact begins rfl rfl (by omega) (by omega)

/-! ### The results -/

/-- The loop's result is what the program leaves. -/
theorem exists_main {c : Copying} {length : Int} {result : List UInt8} :
    (∃ fuel, (c.loop length fuel).map (fun c => c.dstFile.content) = some result) ↔
      ∃ fuel d, c.loop length fuel = some d ∧ d.dstFile.content = result := by
  simp only [Option.map_eq_some_iff]

/-- **When `1.c` reverses a file.**  Just when the file is smaller than a chunk
or consists of whole chunks, and the output file was no longer than it. -/
theorem One.main_reverses_iff (input old : List UInt8) (hint : input.length < 2 ^ 31) :
    One.Reverses input old ↔
      (input.length < size ∨ size ∣ input.length) ∧ old.length ≤ input.length := by
  obtain ⟨hbegins, hlength⟩ := One.start_eq input old hint
  have hloop := hbegins.reverses_iff (Nat.le_refl _) (Nat.le_refl _) hint
    (fun _ => Or.inr (Or.inr rfl))
  rw [Nat.sub_self, List.drop_zero, List.take_length] at hloop
  simp only [One.Reverses, One.main, hlength]
  rw [exists_main]
  exact hloop

/-- The theorem at a file of three bytes and an empty output. -/
theorem One.reverses_three : One.Reverses [1, 2, 3] [] :=
  (One.main_reverses_iff [1, 2, 3] [] (by decide)).mpr ⟨Or.inl (by decide), by decide⟩

/-- A file of one byte more than a chunk comes out too long. -/
theorem One.copies_twice : ¬ ∀ input old : List UInt8, input.length < 2 ^ 31 →
    One.Reverses input old := by
  intro hall
  let input : List UInt8 := List.replicate 1025 0
  have hlen : input.length = 1025 := List.length_replicate
  obtain ⟨hbegins, hlength⟩ := One.start_eq input [] (by rw [hlen]; decide)
  obtain ⟨fuel, hfuel⟩ := hall input [] (by rw [hlen]; decide)
  simp only [One.main, hlength, Option.map_eq_some_iff] at hfuel
  obtain ⟨d, hloop, hcontent⟩ := hfuel
  have hover := (hbegins.copied (by rw [hlen]; decide) (Nat.le_refl _)).overshoots
    (Nat.le_refl _) (by rw [hlen]; decide) Nat.one_pos (by rw [hlen]; decide)
    (by rw [hlen]; decide) (Nat.le_refl _) (Or.inr (Or.inr rfl)) hloop
  rw [hcontent, List.length_reverse] at hover
  exact Nat.lt_irrefl _ hover

/-- **When `2.c` reverses its part.**  Just when the part is smaller than a
chunk or consists of whole chunks, and the output file was no longer than it. -/
theorem Two.main_reverses_part_iff (input old : List UInt8) (a b : Nat) (ha : 1 ≤ a ∧ a ≤ 9)
    (hb : 1 ≤ b ∧ b ≤ a) (hint : input.length < 2 ^ 31) :
    Two.Reverses a b input old ↔
      (input.length / a < size ∨ size ∣ input.length / a) ∧ old.length ≤ input.length / a := by
  obtain ⟨hbegins, hlength⟩ := Two.start_eq old ha hb hint
  obtain ⟨hlow, hhigh, hroom⟩ := Two.part_bounds ha.1 hb input.length
  have hloop := hbegins.reverses_iff hlow hhigh (by omega) hroom
  have hback : b * (input.length / a) - input.length / a = (b - 1) * (input.length / a) := by
    rw [Nat.sub_mul, Nat.one_mul]
  rw [hback] at hloop
  simp only [Two.Reverses, Two.main, hlength]
  rw [exists_main]
  exact hloop

/-- The theorem at the first half of a file of four bytes. -/
theorem Two.reverses_half : Two.Reverses 2 1 [1, 2, 3, 4] [] :=
  (Two.main_reverses_part_iff [1, 2, 3, 4] [] 2 1 (by decide) (by decide) (by decide)).mpr
    ⟨Or.inl (by decide), by decide⟩

/-- The first half of a file of 2050 bytes comes out too long as well. -/
theorem Two.runs_over : ¬ ∀ (input old : List UInt8) (a b : Nat), 1 ≤ a ∧ a ≤ 9 →
    1 ≤ b ∧ b ≤ a → input.length < 2 ^ 31 → Two.Reverses a b input old := by
  intro hall
  let input : List UInt8 := List.replicate 2050 0
  have hlen : input.length = 2050 := List.length_replicate
  have hint : input.length < 2 ^ 31 := by rw [hlen]; decide
  obtain ⟨hbegins, hlength⟩ := Two.start_eq [] (a := 2) (b := 1) (by decide) (by decide) hint
  obtain ⟨fuel, hfuel⟩ := hall input [] 2 1 (by decide) (by decide) hint
  simp only [Two.main, hlength, Option.map_eq_some_iff] at hfuel
  obtain ⟨d, hloop, hcontent⟩ := hfuel
  have hover := (hbegins.copied (by rw [hlen]; decide) (by rw [hlen])).overshoots
    (by rw [hlen]; decide) (by rw [hlen]; decide) Nat.one_pos (by rw [hlen]; decide)
    (by rw [hlen]; decide) (by rw [hlen]) (Or.inr (Or.inl (by rw [hlen]; decide))) hloop
  have hpart : (Two.part 2 1 input).reverse.length = input.length / 2 := by
    simp [Two.part, hlen]
  rw [hcontent, hpart] at hover
  exact Nat.lt_irrefl _ hover

end Reversal
