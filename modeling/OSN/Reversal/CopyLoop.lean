import OSN.Lib.OpenFile

/-!
# The loop that copies a file backwards

`1.c` and `2.c` end in the same loop.  It reads a chunk, writes it reversed, and
goes back to the chunk before it.  Where fewer than `size` bytes are left, the
loop is meant to read just those; but the test for this subtracts a `size_t`, so
it never finds a difference below zero, and the loop asks for a whole chunk.
-/

namespace Reversal

open OpenFile

/-- `size`. -/
def size : Nat := 1024

/-- What the loop works on. -/
structure Copying where
  srcFile : OpenFile
  dstFile : OpenFile
  toRead : Int
  charRead : Int
  deriving DecidableEq

namespace Copying

/-- The body of the loop. -/
def body (c : Copying) : Copying :=
  let (srcFile, og) := c.srcFile.read (toSizeT c.toRead)
  let bytesRead := toInt og.length
  let rvs := og.reverse
  let dstFile := c.dstFile.write rvs
  let charRead := toInt (c.charRead + bytesRead)
  let here := (srcFile.lseek 0 .seekCur).2
  -- the difference is a `size_t`
  if toSizeT (here - bytesRead - size) < 0 then
    { srcFile := (srcFile.lseek 0 .seekCur).1
      dstFile := dstFile
      toRead := toInt (here - bytesRead)
      charRead := charRead }
  else
    { srcFile := (srcFile.lseek (toOffT (toSizeT (-bytesRead - size))) .seekCur).1
      dstFile := dstFile
      toRead := toInt size
      charRead := charRead }

/-- The loop; `none` where the fuel does not last. -/
def loop (length : Int) : Nat → Copying → Option Copying
  | 0, _ => none
  | fuel + 1, c => if c.charRead < length then loop length fuel c.body else some c

variable {c d : Copying} {length : Int} {fuel k : Nat} {old : List UInt8}

/-- The bytes that the body reads. -/
def chunk (c : Copying) : List UInt8 :=
  (c.srcFile.content.drop c.srcFile.offset).take c.toRead.toNat

/-- The seek to the chunk before the one that was read. -/
theorem seek_back (f : OpenFile) (n : Nat) :
    ({ f with offset := f.offset + n }.lseek (-(n : Int) - size) .seekCur).1 =
      { f with offset := if size ≤ f.offset then f.offset - size else f.offset + n } := by
  by_cases h : size ≤ f.offset
  · rw [lseek_of_nonneg (by simp only [OpenFile.base]; omega), if_pos h]
    have hoffset : ((f.offset + n : Nat) + (-(n : Int) - size)).toNat = f.offset - size := by omega
    simp only [OpenFile.base, hoffset]
  · rw [lseek_of_neg (by simp only [OpenFile.base]; omega), if_neg h]

/-- **What the body does**, for a chunk of at most `size` bytes: the test for
the rest of the file fails whatever is left. -/
theorem body_eq (hlow : 0 ≤ c.toRead) (hhigh : c.toRead ≤ size) :
    c.body =
      { srcFile := { c.srcFile with
          offset :=
            if size ≤ c.srcFile.offset then c.srcFile.offset - size
            else c.srcFile.offset + c.chunk.length }
        dstFile := c.dstFile.write c.chunk.reverse
        toRead := size
        charRead := toInt (c.charRead + c.chunk.length) } := by
  have hsize : (size : Int) = 1024 := rfl
  have hread : toSizeT c.toRead = c.toRead.toNat := toSizeT_of_fits hlow (by omega)
  have hlen : c.chunk.length ≤ 1024 := by
    unfold chunk
    rw [List.length_take]
    omega
  have hbytes : toInt c.chunk.length = c.chunk.length := toInt_of_fits (by omega) (by omega)
  have hback : toOffT (toSizeT (-(c.chunk.length : Int) - size)) =
      -(c.chunk.length : Int) - size := toOffT_toSizeT (by omega) (by omega)
  have hfull : toInt size = size := toInt_of_fits (by omega) (by omega)
  unfold body
  simp only [OpenFile.read, hread, Nat.not_lt_zero, if_false]
  rw [← chunk, hbytes, hback, hfull, seek_back]

/-- More fuel does no harm. -/
theorem loop_more (hloop : c.loop length fuel = some d) (k : Nat) :
    c.loop length (fuel + k) = some d := by
  induction fuel generalizing c with
  | zero => cases hloop
  | succ fuel ih =>
      rw [Nat.succ_add]
      rw [loop] at hloop ⊢
      split at hloop
      · rename_i h
        rw [if_pos h]
        exact ih hloop
      · rename_i h
        rw [if_neg h]
        exact hloop

/-- While there is more to read, the loop runs the body. -/
theorem loop_iterate (k : Nat) (h : ∀ i, i < k → (body^[i] c).charRead < length) :
    c.loop length (fuel + k) = (body^[k] c).loop length fuel := by
  induction k generalizing c with
  | zero => rfl
  | succ k ih =>
      have hfirst : c.charRead < length := h 0 (Nat.succ_pos k)
      rw [← Nat.add_assoc, loop, if_pos hfirst, ih, Function.iterate_succ_apply]
      intro i hi
      rw [← Function.iterate_succ_apply]
      exact h (i + 1) (Nat.succ_lt_succ hi)

/-- So it ends just as it does from what the body leaves. -/
theorem loop_after (k : Nat) (h : ∀ i, i < k → (body^[i] c).charRead < length)
    (hloop : c.loop length fuel = some d) : (body^[k] c).loop length fuel = some d := by
  rw [← loop_iterate k h]
  exact loop_more hloop k

/-- The output never gets shorter. -/
theorem body_grows : c.dstFile.content.length ≤ c.body.dstFile.content.length := by
  have hwrite : c.body.dstFile = c.dstFile.write (c.srcFile.read (toSizeT c.toRead)).2.reverse := by
    simp only [body, Nat.not_lt_zero, if_false]
  rw [hwrite]
  exact length_le_write

theorem loop_grows (hloop : c.loop length fuel = some d) :
    c.dstFile.content.length ≤ d.dstFile.content.length := by
  induction fuel generalizing c with
  | zero => cases hloop
  | succ fuel ih =>
      rw [loop] at hloop
      split at hloop
      · exact Nat.le_trans body_grows (ih hloop)
      · rw [Option.some.inj hloop]

/-! ### Whole chunks -/

/-- **`k` whole chunks have been copied**, from the end of a part back.  The
next one begins `size` bytes further to the front; where there are not so many
left, the last seek has failed. -/
structure Copied (input old : List UInt8) (finish k : Nat) (c : Copying) : Prop where
  content : c.srcFile.content = input
  toRead : c.toRead = size
  charRead : c.charRead = (size * k : Nat)
  written : c.dstFile.offset = size * k
  output : c.dstFile.content =
    ((input.drop (finish - size * k)).take (size * k)).reverse ++ old.drop (size * k)
  near : size * (k + 1) ≤ finish → c.srcFile.offset = finish - size * (k + 1)
  far : finish < size * (k + 1) → c.srcFile.offset + size * k = finish + size

variable {input : List UInt8} {finish : Nat}

/-- One more chunk. -/
theorem Copied.body (hc : Copied input old finish k c) (hmore : size * (k + 1) ≤ finish)
    (hfinish : finish ≤ input.length) (hint : finish < 2 ^ 31) :
    Copied input old finish (k + 1) c.body := by
  have hpos : 0 < size := by decide
  have hnext : size * (k + 1) = size * k + size := Nat.mul_succ size k
  have hlast : size * (k + 1 + 1) = size * k + size + size := by rw [Nat.mul_succ, hnext]
  have hoffset := hc.near hmore
  have hchunk : c.chunk = (input.drop (finish - size * (k + 1))).take size := by
    rw [chunk, hc.content, hc.toRead, hoffset, Int.toNat_natCast]
  have hlen : c.chunk.length = size := by
    rw [hchunk, List.length_take, List.length_drop]
    omega
  have hfront : ((input.drop (finish - size * k)).take (size * k)).reverse.length = size * k := by
    rw [List.length_reverse, List.length_take, List.length_drop]
    omega
  have hall : (input.drop (finish - size * (k + 1))).take (size * (k + 1)) =
      c.chunk ++ (input.drop (finish - size * k)).take (size * k) := by
    have hback : finish - size * (k + 1) + size = finish - size * k := by omega
    rw [hchunk, ← hback, ← List.drop_drop, hnext, Nat.add_comm (size * k), List.take_add]
  rw [body_eq (by rw [hc.toRead]; exact Int.natCast_nonneg size) (by rw [hc.toRead])]
  constructor
  · exact hc.content
  · rfl
  · simp only [hc.charRead, hlen]
    rw [← Nat.cast_add, ← hnext]
    exact toInt_of_fits (by omega) (by omega)
  · rw [write_offset, hc.written, List.length_reverse, hlen, hnext]
  · have hwrite := write_append _ old c.chunk.reverse (hc.written.trans hfront.symm)
      (by rw [hfront]; exact hc.output)
    rw [hwrite, hall, List.reverse_append, List.length_append, hfront, List.length_reverse, hlen,
      hnext]
  · intro hnear
    simp only [hoffset]
    rw [if_pos (by omega)]
    omega
  · intro hfar
    simp only [hoffset]
    rw [if_neg (by omega)]
    simp only [hlen]
    omega

theorem Copied.iterate (hc : Copied input old finish 0 c) (hfinish : finish ≤ input.length)
    (hint : finish < 2 ^ 31) (k : Nat) (hk : size * k ≤ finish) :
    Copied input old finish k (Copying.body^[k] c) := by
  induction k with
  | zero => exact hc
  | succ k ih =>
      rw [Function.iterate_succ_apply']
      exact (ih (Nat.le_trans (Nat.mul_le_mul_left size (Nat.le_succ k)) hk)).body hk hfinish hint

/-- While less than `length` bytes are read, the loop goes on. -/
theorem Copied.reads (hc : Copied input old finish 0 c) (hfinish : finish ≤ input.length)
    (hint : finish < 2 ^ 31) {q n : Nat} (hq : size * q ≤ finish) (hn : size * q ≤ n) (i : Nat)
    (hi : i < q) : (Copying.body^[i] c).charRead < (n : Int) := by
  have hnext : size * i + size ≤ size * q := Nat.mul_le_mul_left size hi
  have hpos : 0 < size := by decide
  rw [(hc.iterate hfinish hint i (by omega)).charRead]
  omega

/-- **A part of whole chunks is reversed.** -/
theorem Copied.loop_whole (hc : Copied input old finish 0 c) (hfinish : finish ≤ input.length)
    (hint : finish < 2 ^ 31) (q : Nat) (hq : size * q ≤ finish) :
    ∃ fuel d, c.loop (size * q : Nat) fuel = some d ∧ d.dstFile.content =
      ((input.drop (finish - size * q)).take (size * q)).reverse ++ old.drop (size * q) := by
  have hlast := hc.iterate hfinish hint q hq
  refine ⟨1 + q, _, ?_, hlast.output⟩
  rw [loop_iterate q (hc.reads hfinish hint hq (Nat.le_refl _)), loop, if_neg]
  rw [hlast.charRead]
  exact Int.lt_irrefl _

/-! ### A rest that is no whole chunk -/

/-- The bytes of a chunk are in the output. -/
theorem chunk_written (hlow : 0 ≤ c.toRead) (hhigh : c.toRead ≤ size)
    (hdst : c.dstFile.offset ≤ c.dstFile.content.length) :
    c.dstFile.offset + c.chunk.length ≤ c.body.dstFile.content.length := by
  have hwritten := written_le c.chunk.reverse hdst
  rw [body_eq hlow hhigh]
  rw [List.length_reverse] at hwritten
  exact hwritten

/-- What has been written so far is in the output. -/
theorem Copied.written_le (hc : Copied input old finish k c) (hk : size * k ≤ finish)
    (hfinish : finish ≤ input.length) : c.dstFile.offset ≤ c.dstFile.content.length := by
  rw [hc.written, hc.output, List.length_append, List.length_reverse, List.length_take,
    List.length_drop]
  omega

/-- The bytes of the next chunk. -/
theorem Copied.chunk_length (hc : Copied input old finish k c) :
    c.chunk.length = min size (input.length - c.srcFile.offset) := by
  rw [chunk, hc.content, hc.toRead, Int.toNat_natCast, List.length_take, List.length_drop]

/-- At the end of the file the body reads nothing and goes back by one chunk. -/
theorem body_at_end (htoRead : c.toRead = size)
    (hend : c.srcFile.offset = c.srcFile.content.length) (hsize : size ≤ c.srcFile.offset)
    (hlow : -2 ^ 31 ≤ c.charRead) (hhigh : c.charRead < 2 ^ 31) :
    c.body.srcFile = { c.srcFile with offset := c.srcFile.offset - size } ∧
      c.body.dstFile = c.dstFile ∧ c.body.toRead = size ∧ c.body.charRead = c.charRead := by
  have hchunk : c.chunk = [] := by
    unfold chunk
    rw [hend, List.drop_length, List.take_nil]
  rw [body_eq (by rw [htoRead]; exact Int.natCast_nonneg size) (by rw [htoRead])]
  simp only [hchunk, if_pos hsize, List.reverse_nil, List.length_nil, Nat.cast_zero, Int.add_zero,
    toInt_of_fits hlow hhigh, true_and, and_true]
  rfl

/-- After the whole chunks of a part the loop reads one chunk too many, unless
it is at the end of the file; then it reads nothing, and one chunk too many the
next time. -/
theorem Copied.overshoots (hc : Copied input old finish 0 c) (hfinish : finish ≤ input.length)
    (hint : finish < 2 ^ 31) {q n : Nat} (hq : 0 < q) (hlow : size * q < n)
    (hhigh : n < size * (q + 1)) (hn : n ≤ finish)
    (hroom : 2 * size ≤ finish ∨ finish + size ≤ input.length ∨ finish = input.length)
    (hloop : c.loop n fuel = some d) : n < d.dstFile.content.length := by
  have hpos : 0 < size := by decide
  have hnext : size * (q + 1) = size * q + size := Nat.mul_succ size q
  have hfits : size * q ≤ finish := by omega
  have hlast := hc.iterate hfinish hint q hfits
  have hrest := loop_after q (hc.reads hfinish hint hfits (by omega)) hloop
  generalize Copying.body^[q] c = e at hlast hrest
  have hread : e.charRead < (n : Int) := by
    rw [hlast.charRead]
    omega
  have hdst := hlast.written_le hfits hfinish
  have hlen := hlast.chunk_length
  have hwritten := hlast.written
  have hbody := loop_after 1 (fun i hi => by rw [Nat.lt_one_iff.mp hi]; exact hread) hrest
  rw [Function.iterate_one] at hbody
  by_cases hfull : size ≤ input.length - e.srcFile.offset
  · have hgrow := chunk_written (by rw [hlast.toRead]; omega) (by rw [hlast.toRead]) hdst
    have hend := loop_grows hbody
    omega
  · have hfar : finish < size * (q + 1) := by
      by_contra hnear
      have hoffset := hlast.near (by omega)
      omega
    have hoffset := hlast.far hfar
    have hone : q = 1 := by
      by_contra hmany
      have htwo : size * 2 ≤ size * q := Nat.mul_le_mul_left size (by omega)
      omega
    subst hone
    have hend : finish = input.length := by omega
    -- the second chunk of the file is asked for behind its end
    obtain ⟨hsrc, hdst', htoRead, hcharRead⟩ := body_at_end hlast.toRead
      (by rw [hlast.content]; omega) (by omega) (by rw [hlast.charRead]; omega)
      (by rw [hlast.charRead]; omega)
    obtain ⟨e', he'⟩ : ∃ e', e.body = e' := ⟨_, rfl⟩
    rw [he'] at hbody hsrc hdst' htoRead hcharRead
    have hagain := loop_after 1
      (fun i hi => by
        rw [Nat.lt_one_iff.mp hi, Function.iterate_zero_apply, hcharRead]
        exact hread) hbody
    have hchunk : e'.chunk.length = size := by
      simp only [chunk, hsrc, hlast.content, htoRead, Int.toNat_natCast, List.length_take,
        List.length_drop]
      omega
    have hgrow := chunk_written (by rw [htoRead]; omega) (by rw [htoRead])
      (by rw [hdst']; exact hdst)
    have hfinal := loop_grows hagain
    rw [Function.iterate_one] at hfinal
    rw [hchunk, hdst'] at hgrow
    omega

/-! ### The whole loop -/

/-- The loop is about to begin with the last chunk of the part that has `n`
bytes and ends at `finish`. -/
structure Begins (input old : List UInt8) (finish n : Nat) (c : Copying) : Prop where
  srcFile : c.srcFile = ⟨input, finish - min n size⟩
  dstFile : c.dstFile = ⟨old, 0⟩
  toRead : c.toRead = (min n size : Nat)
  charRead : c.charRead = 0

theorem Begins.copied {n : Nat} (hc : Begins input old finish n c) (hn : size ≤ n)
    (hfinish : n ≤ finish) : Copied input old finish 0 c := by
  have hmin : min n size = size := Nat.min_eq_right hn
  constructor
  · rw [hc.srcFile]
  · rw [hc.toRead, hmin]
  · rw [hc.charRead, Nat.mul_zero, Nat.cast_zero]
  · rw [hc.dstFile, Nat.mul_zero]
  · simp [hc.dstFile]
  · intro _
    rw [hc.srcFile, hmin, Nat.zero_add, Nat.mul_one]
  · intro hfar
    have hoffset : c.srcFile.offset = finish - size := by rw [hc.srcFile, hmin]
    omega

/-- A part that is smaller than a chunk is read at once. -/
theorem Begins.loop_short {n : Nat} (hc : Begins input old finish n c) (hshort : n < size)
    (hn : n ≤ finish) (hfinish : finish ≤ input.length) :
    ∃ fuel d, c.loop n fuel = some d ∧
      d.dstFile.content = ((input.drop (finish - n)).take n).reverse ++ old.drop n := by
  have hmin : min n size = n := Nat.min_eq_left (Nat.le_of_lt hshort)
  have hsize : size = 1024 := rfl
  rcases Nat.eq_zero_or_pos n with hzero | hpos
  · subst hzero
    refine ⟨1, c, ?_, ?_⟩
    · rw [loop, if_neg]
      rw [hc.charRead]
      exact Int.lt_irrefl _
    · simp [hc.dstFile]
  · have hchunk : c.chunk = (input.drop (finish - n)).take n := by
      rw [chunk, hc.srcFile, hc.toRead, hmin, Int.toNat_natCast]
    have hlen : c.chunk.length = n := by
      rw [hchunk, List.length_take, List.length_drop]
      omega
    have hbody := body_eq (c := c) (by rw [hc.toRead]; omega) (by rw [hc.toRead]; omega)
    have hread : c.body.charRead = n := by
      rw [hbody]
      simp only [hc.charRead, hlen, Int.zero_add]
      exact toInt_of_fits (by omega) (by omega)
    refine ⟨1 + 1, c.body, ?_, ?_⟩
    · rw [loop, if_pos, loop, if_neg]
      · rw [hread]
        exact Int.lt_irrefl _
      · rw [hc.charRead]
        exact Int.natCast_pos.mpr hpos
    · have hwrite := write_append (f := c.dstFile) [] old c.chunk.reverse
        (by rw [hc.dstFile]; rfl) (by rw [hc.dstFile]; rfl)
      rw [hbody]
      simp only [hwrite, List.nil_append, List.length_reverse, hlen]
      rw [hchunk]

/-- **When the loop reverses a part.**  Just when the part is smaller than a
chunk or consists of whole chunks, and the output was no longer than it. -/
theorem Begins.reverses_iff {n : Nat} (hc : Begins input old finish n c) (hn : n ≤ finish)
    (hfinish : finish ≤ input.length) (hint : finish < 2 ^ 31)
    (hroom : size ≤ n → 2 * size ≤ finish ∨ finish + size ≤ input.length ∨ finish = input.length) :
    (∃ fuel d, c.loop n fuel = some d ∧
        d.dstFile.content = ((input.drop (finish - n)).take n).reverse) ↔
      (n < size ∨ size ∣ n) ∧ old.length ≤ n := by
  have hlen : ((input.drop (finish - n)).take n).reverse.length = n := by
    rw [List.length_reverse, List.length_take, List.length_drop]
    omega
  constructor
  · intro hreverses
    obtain ⟨fuel, d, hloop, hcontent⟩ := hreverses
    have hend : d.dstFile.content.length = n := by rw [hcontent, hlen]
    constructor
    · by_contra hrest
      rw [not_or, Nat.not_lt] at hrest
      obtain ⟨hlong, hrest⟩ := hrest
      have hdiv := Nat.div_add_mod n size
      have hmod : 0 < n % size := Nat.pos_of_ne_zero fun hzero =>
        hrest (Nat.dvd_of_mod_eq_zero hzero)
      have hlt : n % size < size := Nat.mod_lt n (by decide)
      have hover := (hc.copied hlong hn).overshoots hfinish hint
        (Nat.div_pos hlong (by decide)) (by omega) (by rw [Nat.mul_succ]; omega) hn (hroom hlong)
        hloop
      omega
    · have hgrows := loop_grows hloop
      rw [hc.dstFile, hend] at hgrows
      exact hgrows
  · intro hwhole
    obtain ⟨hwhole, hold⟩ := hwhole
    have hcopied : ∃ fuel d, c.loop n fuel = some d ∧
        d.dstFile.content = ((input.drop (finish - n)).take n).reverse ++ old.drop n := by
      by_cases hshort : n < size
      · exact hc.loop_short hshort hn hfinish
      · obtain ⟨q, hq⟩ := hwhole.resolve_left hshort
        have hcopied := (hc.copied (Nat.not_lt.mp hshort) hn).loop_whole hfinish hint q (hq ▸ hn)
        rw [hq]
        exact hcopied
    rw [List.drop_eq_nil_of_le hold, List.append_nil] at hcopied
    exact hcopied

end Copying

end Reversal
