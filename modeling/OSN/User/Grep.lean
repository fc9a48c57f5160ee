import Mathlib.Computability.Language
import Mathlib.Tactic.Common

/-!
# grep

`match` takes a pattern of the operators `^ . * $` to a line and answers whether the line is in
the language of the pattern (`match_iff`).  `grep` reads a file through a buffer of 1024 bytes,
in pieces as `read` returns them, and prints the lines that match.  A line that does not fit the
buffer, or holds a NUL, ends the output.  Up to the first of these `grep` prints what it should,
however the pieces fall (`grep_lines`).
-/

namespace Grep

open scoped Computability

/-! ### The pattern matcher -/

/-- `matchstar`: search for `c*re` at the beginning of the text, where `here` is
`matchhere(re, _)`. -/
def matchstar (c : UInt8) (here : List UInt8 → Bool) : List UInt8 → Bool
  | [] => here []
  | t :: text => here (t :: text) || ((t == c || c == '.'.toUInt8) && matchstar c here text)

/-- `matchhere`: search for `re` at the beginning of the text. -/
def matchhere : List UInt8 → List UInt8 → Bool
  | [], _ => true
  | [c], text =>
      if c = '$'.toUInt8 then text.isEmpty
      else
        match text with
        | [] => false
        | t :: text => (c == '.'.toUInt8 || c == t) && matchhere [] text
  | c :: d :: re, text =>
      if d = '*'.toUInt8 then matchstar c (matchhere re) text
      else
        match text with
        | [] => false
        | t :: text => (c == '.'.toUInt8 || c == t) && matchhere (d :: re) text

/-- The loop of `match`: look at every end of the text, also at the empty one. -/
def matchAny (re : List UInt8) : List UInt8 → Bool
  | [] => matchhere re []
  | t :: text => matchhere re (t :: text) || matchAny re text

/-- `match`. -/
def «match» (re text : List UInt8) : Bool :=
  match re with
  | [] => matchAny [] text
  | c :: re => if c = '^'.toUInt8 then matchhere re text else matchAny (c :: re) text

/-! ### What a pattern means -/

/-- A piece of a pattern: a character, or any number of them.  A dot is any character. -/
inductive Piece where
  | one (c : UInt8)
  | many (c : UInt8)
  deriving DecidableEq

/-- The pieces after `^`, and whether `$` comes after them.  Elsewhere `$` and `^` are characters,
and `*` is one if nothing comes before it that it could repeat. -/
def pieces : List UInt8 → List Piece × Bool
  | [] => ([], false)
  | [c] => if c = '$'.toUInt8 then ([], true) else ([.one c], false)
  | c :: d :: re =>
      if d = '*'.toUInt8 then (.many c :: (pieces re).1, (pieces re).2)
      else (.one c :: (pieces (d :: re)).1, (pieces (d :: re)).2)

/-- The characters that one of a pattern stands for. -/
def chars (c : UInt8) : Language UInt8 :=
  {x | ∃ t, x = [t] ∧ (c = '.'.toUInt8 ∨ c = t)}

/-- The texts that a piece stands for. -/
def Piece.texts : Piece → Language UInt8
  | .one c => chars c
  | .many c => (chars c)∗

/-- The texts that begin as a pattern says. -/
def beginning (re : List UInt8) : Language UInt8 :=
  ((pieces re).1.map Piece.texts).prod * if (pieces re).2 then 1 else ⊤

/-- **The language of a pattern.** -/
def language (re : List UInt8) : Language UInt8 :=
  match re with
  | [] => ⊤ * beginning []
  | c :: re => if c = '^'.toUInt8 then beginning re else ⊤ * beginning (c :: re)

/-! ### The matcher answers for the language -/

variable {c : UInt8} {re text : List UInt8} {m : Language UInt8}

/-- The texts that a test accepts. -/
def accepted (here : List UInt8 → Bool) : Language UInt8 :=
  {x | here x = true}

theorem mem_accepted {here : List UInt8 → Bool} : text ∈ accepted here ↔ here text = true :=
  Iff.rfl

theorem mem_chars_mul :
    text ∈ chars c * m ↔ ∃ t rest, text = t :: rest ∧ (c = '.'.toUInt8 ∨ c = t) ∧ rest ∈ m := by
  rw [Language.mem_mul]
  constructor
  · rintro ⟨x, ⟨t, rfl, hc⟩, rest, hrest, rfl⟩
    exact ⟨t, rest, rfl, hc, hrest⟩
  · rintro ⟨t, rest, rfl, hc, hrest⟩
    exact ⟨[t], ⟨t, rfl, hc⟩, rest, hrest, rfl⟩

/-- Any number of characters: none, or one more. -/
theorem mem_many_mul : text ∈ (chars c)∗ * m ↔ text ∈ m ∨ text ∈ chars c * ((chars c)∗ * m) := by
  have hunfold : (chars c)∗ * m = m + chars c * ((chars c)∗ * m) := by
    conv_lhs => rw [← Language.one_add_self_mul_kstar_eq_kstar, add_mul, one_mul, mul_assoc]
  conv_lhs => rw [hunfold, Language.mem_add]

theorem matchstar_iff {here : List UInt8 → Bool} :
    matchstar c here text = true ↔ text ∈ (chars c)∗ * accepted here := by
  induction text with
  | nil =>
      rw [mem_many_mul, mem_chars_mul]
      simp [matchstar, mem_accepted]
  | cons t text ih =>
      rw [mem_many_mul, mem_chars_mul]
      simp only [matchstar, Bool.or_eq_true, Bool.and_eq_true, beq_iff_eq, ih]
      refine or_congr Iff.rfl ⟨fun h => ?_, fun h => ?_⟩
      · exact ⟨t, text, rfl, h.1.symm.imp id Eq.symm, h.2⟩
      · obtain ⟨t', text', heq, hc, hm⟩ := h
        obtain ⟨rfl, rfl⟩ := List.cons_eq_cons.mp heq
        exact ⟨hc.symm.imp Eq.symm id, hm⟩

/-- One character and what comes after it. -/
theorem one_iff {here : List UInt8 → Bool} :
    (match text with
      | [] => false
      | t :: text => (c == '.'.toUInt8 || c == t) && here text) = true ↔
      text ∈ chars c * accepted here := by
  rw [mem_chars_mul]
  cases text with
  | nil => simp
  | cons t text =>
      simp only [Bool.and_eq_true, Bool.or_eq_true, beq_iff_eq]
      constructor
      · intro h
        exact ⟨t, text, rfl, h.1, h.2⟩
      · rintro ⟨t', text', heq, hc, hm⟩
        obtain ⟨rfl, rfl⟩ := List.cons_eq_cons.mp heq
        exact ⟨hc, hm⟩

theorem beginning_nil : beginning [] = ⊤ := by
  simp [beginning, pieces]

theorem beginning_many (c : UInt8) (re : List UInt8) :
    beginning (c :: '*'.toUInt8 :: re) = (chars c)∗ * beginning re := by
  simp [beginning, pieces, Piece.texts, mul_assoc]

theorem beginning_one {d : UInt8} (hd : d ≠ '*'.toUInt8) :
    beginning (c :: d :: re) = chars c * beginning (d :: re) := by
  simp [beginning, pieces, hd, Piece.texts, mul_assoc]

theorem beginning_last (hc : c ≠ '$'.toUInt8) : beginning [c] = chars c * beginning [] := by
  simp [beginning, pieces, hc, Piece.texts]

/-- **`matchhere`** answers whether the text begins as the pattern says. -/
theorem matchhere_iff : matchhere re text = true ↔ text ∈ beginning re := by
  induction re using pieces.induct generalizing text with
  | case1 =>
      rw [beginning_nil]
      exact iff_of_true (by simp [matchhere]) trivial
  | case2 => simp [matchhere, beginning, pieces, Language.mem_one]
  | case3 c hc =>
      rw [matchhere.eq_def]
      dsimp only
      rw [if_neg hc, one_iff, beginning_last hc]
      have haccepted : accepted (matchhere []) = beginning [] := by
        rw [beginning_nil]
        ext x
        exact iff_of_true (by simp [mem_accepted, matchhere]) trivial
      rw [haccepted]
  | case4 c re ih =>
      have haccepted : accepted (matchhere re) = beginning re := by
        ext x
        exact ih
      rw [matchhere.eq_def]
      dsimp only
      rw [if_pos rfl, matchstar_iff, haccepted, beginning_many]
  | case5 c d re hd ih =>
      have haccepted : accepted (matchhere (d :: re)) = beginning (d :: re) := by
        ext x
        exact ih
      rw [matchhere.eq_def]
      dsimp only
      rw [if_neg hd, one_iff, haccepted, beginning_one hd]

theorem mem_top_mul_cons {t : UInt8} :
    t :: text ∈ ⊤ * m ↔ t :: text ∈ m ∨ text ∈ ⊤ * m := by
  simp only [Language.mem_mul]
  constructor
  · rintro ⟨before, -, rest, hrest, heq⟩
    cases before with
    | nil => exact Or.inl (heq ▸ hrest)
    | cons b before =>
        obtain ⟨-, rfl⟩ := List.cons_eq_cons.mp heq
        exact Or.inr ⟨before, trivial, rest, hrest, rfl⟩
  · rintro (h | ⟨before, -, rest, hrest, rfl⟩)
    · exact ⟨[], trivial, _, h, rfl⟩
    · exact ⟨t :: before, trivial, rest, hrest, rfl⟩

theorem matchAny_iff : matchAny re text = true ↔ text ∈ ⊤ * beginning re := by
  induction text with
  | nil =>
      rw [matchAny, matchhere_iff, Language.mem_mul]
      constructor
      · intro h
        exact ⟨[], trivial, [], h, rfl⟩
      · rintro ⟨before, -, rest, hrest, heq⟩
        rwa [(List.append_eq_nil_iff.mp heq).2] at hrest
  | cons t text ih => rw [matchAny, Bool.or_eq_true, matchhere_iff, ih, mem_top_mul_cons]

/-- **`match` decides the language of its pattern.** -/
theorem match_iff (re text : List UInt8) : «match» re text = true ↔ text ∈ language re := by
  cases re with
  | nil => exact matchAny_iff
  | cons c re =>
      rw [«match», language]
      split
      · exact matchhere_iff
      · exact matchAny_iff

/-! ### Reading a file line by line -/

/-- `sizeof(buf)`. -/
def bufSize : Nat := 1024

/-- `strchr`: where the character is first, before the NUL that ends the string. -/
def strchr (c : UInt8) : List UInt8 → Option Nat
  | [] => none
  | b :: s => if b = 0 then none else if b = c then some 0 else (strchr c s).map (· + 1)

/-- `read` of at most `n` bytes from a file that comes in these pieces.  An empty piece, like the
end, is read as no bytes. -/
def read (n : Nat) : List (List UInt8) → List UInt8 × List (List UInt8)
  | [] => ([], [])
  | piece :: pieces =>
      if n < piece.length then (piece.take n, piece.drop n :: pieces) else (piece, pieces)

theorem strchr_lt {c : UInt8} {s : List UInt8} {q : Nat} (h : strchr c s = some q) :
    q < s.length := by
  induction s generalizing q with
  | nil => cases h
  | cons b s ih =>
      simp only [strchr, Option.ite_none_left_eq_some] at h
      obtain ⟨_, h⟩ := h
      split at h
      · obtain rfl := Option.some.inj h
        exact Nat.zero_lt_succ _
      · obtain ⟨i, hi, rfl⟩ := Option.map_eq_some_iff.mp h
        exact Nat.succ_lt_succ (ih hi)

/-- The inner loop of `grep` over the bytes from `p` on: what it writes, and the bytes from the
last `p` on. -/
def scan (pattern p : List UInt8) : List UInt8 × List UInt8 :=
  match _hq : strchr '\n'.toUInt8 p with
  | none => ([], p)
  | some q =>
      let printed := if «match» pattern (p.take q) then p.take (q + 1) else []
      let later := scan pattern (p.drop (q + 1))
      (printed ++ later.1, later.2)
termination_by p.length
decreasing_by
  have hlt := strchr_lt _hq
  rw [List.length_drop]
  omega

/-- What `read` returns and what it leaves. -/
theorem read_length (n : Nat) (pieces : List (List UInt8)) :
    (read n pieces).1.length + (read n pieces).2.flatten.length = pieces.flatten.length := by
  cases pieces with
  | nil => rfl
  | cons piece pieces =>
      simp only [read]
      split
      · simp only [List.flatten_cons, List.length_append, List.length_take, List.length_drop]
        omega
      · simp

/-- The outer loop of `grep`, with these bytes in `buf` before the next `read`: all that it
writes. -/
def grepLoop (pattern buf : List UInt8) (pieces : List (List UInt8)) : List UInt8 :=
  -- `buf+m, sizeof(buf)-m-1`
  let got := read (bufSize - buf.length - 1) pieces
  if got.1.length > 0 then
    let found := scan pattern (buf ++ got.1)
    -- `memmove(buf, p, m)`
    found.1 ++ grepLoop pattern found.2 got.2
  else []
termination_by pieces.flatten.length
decreasing_by
  rename_i hgot
  have hlength := read_length (bufSize - buf.length - 1) pieces
  change 0 < (read (bufSize - buf.length - 1) pieces).1.length at hgot
  change (read (bufSize - buf.length - 1) pieces).2.flatten.length < _
  omega

/-- `grep` of a file that comes in these pieces. -/
def grep (pattern : List UInt8) (pieces : List (List UInt8)) : List UInt8 :=
  grepLoop pattern [] pieces

/-! ### What `grep` prints -/

/-- The bytes up to the end of the file. -/
def content (pieces : List (List UInt8)) : List UInt8 :=
  (pieces.takeWhile (· ≠ [])).flatten

/-- A line that fits the buffer and has no NUL. -/
def Fits (line : List UInt8) : Prop :=
  line.length + 1 < bufSize ∧ 0 ∉ line

instance (line : List UInt8) : Decidable (Fits line) := by
  unfold Fits
  infer_instance

/-- The lines up to the first that does not fit.  What comes after the last newline is none. -/
def lines (bytes : List UInt8) : List (List UInt8) :=
  ((bytes.splitOn '\n'.toUInt8).dropLast).takeWhile Fits

/-- The lines that match, each with its newline. -/
def print (pattern : List UInt8) (lines : List (List UInt8)) : List UInt8 :=
  (lines.filter («match» pattern)).flatMap (· ++ ['\n'.toUInt8])

variable {pattern buf p rest bytes line : List UInt8} {pieces : List (List UInt8)} {q : Nat}

/-- `strchr` finds the first newline of a string. -/
theorem strchr_some {c : UInt8} (hc : c ≠ 0) : strchr c p = some q ↔
    ∃ line rest, p = line ++ c :: rest ∧ c ∉ line ∧ 0 ∉ line ∧ line.length = q := by
  induction p generalizing q with
  | nil => simp [strchr]
  | cons b p ih =>
      simp only [strchr, Option.ite_none_left_eq_some]
      constructor
      · rintro ⟨hb, h⟩
        split at h
        next heq =>
          obtain rfl := Option.some.inj h
          exact ⟨[], p, by rw [heq]; rfl, by simp, by simp, rfl⟩
        next hne =>
          obtain ⟨i, hi, rfl⟩ := Option.map_eq_some_iff.mp h
          obtain ⟨line, rest, rfl, hline, hzero, rfl⟩ := ih.mp hi
          exact ⟨b :: line, rest, rfl, by simp [hline, Ne.symm hne], by simp [hzero, Ne.symm hb], rfl⟩
      · rintro ⟨line, rest, heq, hline, hzero, rfl⟩
        cases line with
        | nil =>
            obtain ⟨rfl, rfl⟩ := List.cons_eq_cons.mp heq
            exact ⟨hc, by simp⟩
        | cons b' line =>
            obtain ⟨rfl, rfl⟩ := List.cons_eq_cons.mp heq
            simp only [List.mem_cons, not_or] at hline hzero
            refine ⟨Ne.symm hzero.1, ?_⟩
            rw [if_neg (Ne.symm hline.1), ih.mpr ⟨line, rest, rfl, hline.2, hzero.2, rfl⟩]
            rfl

/-- A newline that is not in the first part. -/
theorem strchr_append {c : UInt8} (hp : strchr c p = none) (h : strchr c (p ++ rest) = some q) :
    p.length ≤ q := by
  induction p generalizing q with
  | nil => exact Nat.zero_le q
  | cons b p ih =>
      simp only [List.cons_append, strchr] at h hp
      split at h
      · cases h
      next hb =>
        rw [if_neg hb] at hp
        split at h
        next hc => simp [hc] at hp
        next hc =>
          rw [if_neg hc, Option.map_eq_none_iff] at hp
          obtain ⟨i, hi, rfl⟩ := Option.map_eq_some_iff.mp h
          exact Nat.succ_le_succ (ih hp hi)

/-- A line and what comes after it. -/
theorem lines_cons (hline : '\n'.toUInt8 ∉ line) (hfits : Fits line) :
    lines (line ++ '\n'.toUInt8 :: rest) = line :: lines rest := by
  unfold lines
  rw [List.splitOn_append_cons_self_of_not_mem hline,
    List.dropLast_cons_of_ne_nil (List.splitOn_ne_nil _ _), List.takeWhile_cons_of_pos (by simpa)]

/-- The first line does not fit, or does not end. -/
theorem lines_nil (h : ∀ q, strchr '\n'.toUInt8 bytes = some q → bufSize ≤ q + 1) :
    lines bytes = [] := by
  unfold lines
  by_cases hmem : '\n'.toUInt8 ∈ bytes
  · obtain ⟨line, rest, rfl, hline⟩ := List.eq_append_cons_of_mem hmem
    rw [List.splitOn_append_cons_self_of_not_mem hline,
      List.dropLast_cons_of_ne_nil (List.splitOn_ne_nil _ _), List.takeWhile_cons_of_neg]
    rw [decide_eq_true_eq]
    intro hfits
    have hfull := h line.length ((strchr_some (by decide)).mpr
      ⟨line, rest, rfl, hline, hfits.2, rfl⟩)
    have hroom := hfits.1
    omega
  · rw [List.splitOn_eq_singleton hmem]
    rfl

theorem scan_none (h : strchr '\n'.toUInt8 p = none) : scan pattern p = ([], p) := by
  rw [scan.eq_def]
  split
  · rfl
  · rename_i q hq
    rw [h] at hq
    cases hq

theorem scan_some (h : strchr '\n'.toUInt8 p = some q) :
    scan pattern p =
      ((if «match» pattern (p.take q) then p.take (q + 1) else []) ++
        (scan pattern (p.drop (q + 1))).1, (scan pattern (p.drop (q + 1))).2) := by
  conv_lhs => rw [scan.eq_def]
  split
  · rename_i hq
    rw [h] at hq
    cases hq
  · rename_i q' hq
    obtain rfl : q = q' := Option.some.inj (h.symm.trans hq)
    rfl

theorem print_cons (pattern line : List UInt8) (lines : List (List UInt8)) :
    print pattern (line :: lines) =
      (if «match» pattern line then line ++ ['\n'.toUInt8] else []) ++ print pattern lines := by
  unfold print
  rw [List.filter_cons]
  split <;> simp

/-- **The inner loop** prints the lines that match, and leaves what is not a line yet. -/
theorem scan_spec (pattern p rest : List UInt8) (hp : p.length < bufSize) :
    strchr '\n'.toUInt8 (scan pattern p).2 = none ∧ (scan pattern p).2.length ≤ p.length ∧
      print pattern (lines (p ++ rest)) =
        (scan pattern p).1 ++ print pattern (lines ((scan pattern p).2 ++ rest)) := by
  induction hlen : p.length using Nat.strong_induction_on generalizing p with
  | _ len ih =>
      cases hq : strchr '\n'.toUInt8 p with
      | none =>
          rw [scan_none hq]
          exact ⟨hq, Nat.le_of_eq hlen, rfl⟩
      | some q =>
          obtain ⟨line, after, rfl, hline, hzero, rfl⟩ := (strchr_some (by decide)).mp hq
          have hdrop : (line ++ '\n'.toUInt8 :: after).drop (line.length + 1) = after := by
            simp
          have htake : (line ++ '\n'.toUInt8 :: after).take (line.length + 1) =
              line ++ ['\n'.toUInt8] := by
            rw [List.take_length_add_append]
            rfl
          have hlength : line.length + (after.length + 1) = len := by
            simpa using hlen
          obtain ⟨hnone, hle, hprint⟩ := ih after.length (by omega) after (by omega) rfl
          have hfits : Fits line := ⟨by omega, hzero⟩
          rw [scan_some hq, hdrop, htake, List.take_left' rfl]
          refine ⟨hnone, by dsimp only; omega, ?_⟩
          rw [List.append_assoc, List.cons_append, lines_cons hline hfits, print_cons, hprint,
            List.append_assoc]

/-- What `read` returns is what comes next in the file, and it is nothing only at the end or
where there is no room. -/
theorem read_spec (n : Nat) (pieces : List (List UInt8)) :
    (read n pieces).1.length ≤ n ∧
      ((read n pieces).1 ≠ [] →
        content pieces = (read n pieces).1 ++ content (read n pieces).2) ∧
      ((read n pieces).1 = [] → 0 < n → content pieces = []) := by
  cases pieces with
  | nil => simp [read, content]
  | cons piece pieces =>
      simp only [read]
      split
      next hlong =>
        have hne : piece ≠ [] := List.ne_nil_of_length_pos (by omega)
        have hrest : piece.drop n ≠ [] := List.ne_nil_of_length_pos (by
          rw [List.length_drop]
          omega)
        refine ⟨List.length_take_le n piece, fun _ => ?_, fun hnone hn => ?_⟩
        · simp [content, hne, hrest, ← List.append_assoc]
        · have hlength := congrArg List.length hnone
          rw [List.length_take] at hlength
          simp only [List.length_nil] at hlength
          omega
      next hshort =>
        refine ⟨Nat.not_lt.mp hshort, fun hne => ?_, fun hnone _ => ?_⟩
        · dsimp only at hne
          simp [content, hne]
        · obtain rfl : piece = [] := hnone
          rfl

theorem grepLoop_spec (pattern buf : List UInt8) (pieces : List (List UInt8))
    (hbuf : buf.length < bufSize) (hnone : strchr '\n'.toUInt8 buf = none) :
    grepLoop pattern buf pieces = print pattern (lines (buf ++ content pieces)) := by
  induction hlen : pieces.flatten.length using Nat.strong_induction_on generalizing buf pieces with
  | _ len ih =>
      have hlength := read_length (bufSize - buf.length - 1) pieces
      obtain ⟨hle, hsome, hend⟩ := read_spec (bufSize - buf.length - 1) pieces
      rw [grepLoop.eq_def]
      dsimp only
      generalize read (bufSize - buf.length - 1) pieces = got at *
      split
      next hgot =>
        have hne : got.1 ≠ [] := List.ne_nil_of_length_pos hgot
        obtain ⟨hnone', hle', hprint⟩ := scan_spec pattern (buf ++ got.1) (content got.2) (by
          rw [List.length_append]
          omega)
        rw [List.length_append] at hle'
        rw [ih got.2.flatten.length (by omega) _ _ (by omega) hnone' rfl, hsome hne,
          ← List.append_assoc, hprint]
      next hgot =>
        have hnil : got.1 = [] := List.eq_nil_of_length_eq_zero (by omega)
        rw [lines_nil]
        · rfl
        · intro q hq
          by_cases hfull : bufSize - buf.length - 1 = 0
          · have hbeyond := strchr_append hnone hq
            omega
          · rw [hend hnil (by omega), List.append_nil, hnone] at hq
            cases hq

/-- **`grep` prints the lines that match**, however the file comes in pieces: all of them, up to
the first line that holds a NUL or has more than 1022 bytes. -/
theorem grep_lines (pattern : List UInt8) (pieces : List (List UInt8)) :
    grep pattern pieces = print pattern (lines (content pieces)) :=
  grepLoop_spec pattern [] pieces (by decide) rfl

end Grep
