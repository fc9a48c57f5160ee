import Mathlib.Data.List.Basic
import Mathlib.Data.Int.ModEq
import Mathlib.Tactic.Common

/-!
# An open file, and the integers of its calls

A file that is read and written through one descriptor is its content and an
offset.  `read` gives what is there, up to what is asked for; `lseek` fails on a
position below zero and then leaves the offset alone.  `toInt`, `toSizeT` and
`toOffT` are the conversions between the integer types of 32 and 64 bits in
which such calls are written.
-/

/-- An open file. -/
structure OpenFile where
  content : List UInt8
  offset : Nat
  deriving DecidableEq

namespace OpenFile

/-- Where `lseek` counts from. -/
inductive Whence where
  | seekSet
  | seekCur
  | seekEnd
  deriving DecidableEq

variable {f : OpenFile} {n : Nat} {bytes : List UInt8} {delta x : Int} {w : Whence}

def base (f : OpenFile) : Whence → Nat
  | .seekSet => 0
  | .seekCur => f.offset
  | .seekEnd => f.content.length

/-- `lseek`, with the value it returns. -/
def lseek (f : OpenFile) (delta : Int) (w : Whence) : OpenFile × Int :=
  let position := f.base w + delta
  if 0 ≤ position then ({ f with offset := position.toNat }, position) else (f, -1)

/-- `read`, with the bytes it delivers. -/
def read (f : OpenFile) (n : Nat) : OpenFile × List UInt8 :=
  let bytes := (f.content.drop f.offset).take n
  ({ f with offset := f.offset + bytes.length }, bytes)

/-- `write`; a gap behind the end is filled with zeros. -/
def write (f : OpenFile) (bytes : List UInt8) : OpenFile :=
  if bytes = [] then f
  else
    let before := f.content ++ List.replicate (f.offset - f.content.length) 0
    { content := before.take f.offset ++ bytes ++ before.drop (f.offset + bytes.length)
      offset := f.offset + bytes.length }

theorem lseek_of_nonneg (h : 0 ≤ f.base w + delta) :
    f.lseek delta w = ({ f with offset := (f.base w + delta).toNat }, f.base w + delta) :=
  if_pos h

theorem lseek_of_neg (h : f.base w + delta < 0) : f.lseek delta w = (f, -1) :=
  if_neg (Int.not_le.mpr h)

@[simp] theorem write_offset : (f.write bytes).offset = f.offset + bytes.length := by
  unfold write
  split <;> simp_all

/-- A file never gets shorter. -/
theorem length_le_write : f.content.length ≤ (f.write bytes).content.length := by
  unfold write
  split
  · exact Nat.le_refl _
  · simp only [List.length_append, List.length_take, List.length_drop, List.length_replicate]
    omega

/-- What has been written is there. -/
theorem written_le (bytes : List UInt8) (h : f.offset ≤ f.content.length) :
    f.offset + bytes.length ≤ (f.write bytes).content.length := by
  unfold write
  split
  · simp_all
  · simp only [List.length_append, List.length_take, List.length_drop, List.length_replicate]
    omega

/-- A write behind what has been written. -/
theorem write_append (front old bytes : List UInt8) (hoffset : f.offset = front.length)
    (hcontent : f.content = front ++ old.drop front.length) :
    (f.write bytes).content = front ++ bytes ++ old.drop (front ++ bytes).length := by
  unfold write
  split
  · rename_i hnone
    simp [hnone, hcontent]
  · simp [hoffset, hcontent, List.drop_append, Nat.add_sub_cancel_left]

/-! ### Conversions -/

/-- The conversion to `int`. -/
def toInt (x : Int) : Int := x.bmod (2 ^ 32)

/-- The conversion to `size_t`. -/
def toSizeT (x : Int) : Nat := (x % 2 ^ 64).toNat

/-- The conversion of a `size_t` to `off_t`. -/
def toOffT (n : Nat) : Int := (n : Int).bmod (2 ^ 64)

theorem toInt_of_fits (hlow : -2 ^ 31 ≤ x) (hhigh : x < 2 ^ 31) : toInt x = x := by
  apply Int.bmod_eq_of_le <;> omega

theorem toSizeT_of_fits (hlow : 0 ≤ x) (hhigh : x < 2 ^ 64) : toSizeT x = x.toNat := by
  unfold toSizeT
  rw [Int.emod_eq_of_lt hlow hhigh]

/-- A number of 64 bits survives the way through `size_t`. -/
theorem toOffT_toSizeT (hlow : -2 ^ 63 ≤ x) (hhigh : x < 2 ^ 63) : toOffT (toSizeT x) = x := by
  unfold toOffT toSizeT
  rw [Int.toNat_of_nonneg (Int.emod_nonneg x (by decide))]
  have hmod : (x % 2 ^ 64).bmod (2 ^ 64) = x.bmod (2 ^ 64) := Int.emod_bmod x (2 ^ 64)
  rw [hmod]
  apply Int.bmod_eq_of_le <;> omega

end OpenFile
