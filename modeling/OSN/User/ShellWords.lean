import OSN.User.Shell

/-!
# The words of a line

`lex` takes a line to its words and operators.  `gettoken` returns them one after the other,
and points to the words in the line (`gettoken_cons`); `peek` looks at the next one.  A word
ends where a character comes that is in no word, so a NUL written there cuts no other word
(`cString_nulterminate`).
-/

namespace Sh

/-- A word or an operator, with what `gettoken` returns for the operator. -/
inductive Lexeme where
  | word (text : List UInt8)
  | op (ret : UInt8)
  deriving DecidableEq

/-- A character of a word. -/
def InWord (b : UInt8) : Prop := b ∉ whitespace ∧ b ∉ symbols

instance (b : UInt8) : Decidable (InWord b) := by
  unfold InWord
  infer_instance

/-- The words and operators of a text. -/
def lex : List UInt8 → List Lexeme
  | [] => []
  | c :: s =>
      if c ∈ whitespace then lex s
      else if c = '>'.toUInt8 then
        match s with
        | [] => [.op '>'.toUInt8]
        | d :: s => if d = '>'.toUInt8 then .op '+'.toUInt8 :: lex s else .op '>'.toUInt8 :: lex (d :: s)
      else if c ∈ symbols then .op c :: lex s
      else .word (c :: s.takeWhile InWord) :: lex (s.dropWhile InWord)
termination_by s => s.length
decreasing_by
  all_goals simp only [List.length_cons]
  all_goals first
    | omega
    | (have hle := (List.dropWhile_sublist InWord (l := s)).length_le; omega)

/-- What `gettoken` returns. -/
def Lexeme.ret : Lexeme → UInt8
  | .word _ => 'a'.toUInt8
  | .op ret => ret

/-- The operators. -/
def operators : List UInt8 := bytes "|();&<>+"

/-- Whether `peek` finds an operator that begins with one of `toks`. -/
def Lexeme.among (toks : String) : Lexeme → Bool
  | .word _ => false
  | .op ret => (if ret = '+'.toUInt8 then '>'.toUInt8 else ret) ∈ bytes toks

/-- The text from `q` up to `eq`. -/
def Str.spell (s : Str) : List UInt8 := s.q.take (s.q.length - s.eq.length)

/-- **A word in a line**: it ends where the next character is in no word. -/
structure Spelled (text : List UInt8) (s : Str) : Prop where
  suffix : s.q <:+ text
  eq : s.q = s.spell ++ s.eq
  word : ∀ b ∈ s.spell, InWord b
  ends : ∀ b, s.eq.head? = some b → ¬ InWord b

/-- Of the bytes of a list. -/
theorem of_all {l : List UInt8} {p : UInt8 → Prop} [DecidablePred p]
    (h : l.all (fun b => decide (p b)) = true) : ∀ b ∈ l, p b := fun b hb =>
  of_decide_eq_true (List.all_eq_true.mp h b hb)

variable {ps text : Ptr} {t : Lexeme} {ts : List Lexeme} {toks : String}

/-! ### One word after the other -/

theorem lex_space {c : UInt8} {s : Ptr} (hc : c ∈ whitespace) : lex (c :: s) = lex s := by
  rw [lex.eq_def]
  dsimp only
  rw [if_pos hc]

theorem lex_op {c : UInt8} {s : Ptr} (hc : c ∈ bytes "|();&<") :
    lex (c :: s) = .op c :: lex s := by
  obtain ⟨hspace, hsymbol, hgt⟩ := (of_all (by decide) : ∀ c ∈ bytes "|();&<",
    c ∉ whitespace ∧ c ∈ symbols ∧ c ≠ '>'.toUInt8) c hc
  rw [lex.eq_def]
  dsimp only
  rw [if_neg hspace, if_neg hgt, if_pos hsymbol]

theorem lex_word {c : UInt8} {s : Ptr} (hc : InWord c) :
    lex (c :: s) = .word (c :: s.takeWhile InWord) :: lex (s.dropWhile InWord) := by
  have hgt : c ≠ '>'.toUInt8 := by
    rintro rfl
    exact hc.2 (by decide)
  conv_lhs => rw [lex.eq_def]
  dsimp only
  rw [if_neg hc.1, if_neg hgt, if_neg hc.2]

theorem lex_append (s : Ptr) :
    lex ('>'.toUInt8 :: '>'.toUInt8 :: s) = .op '+'.toUInt8 :: lex s := by
  conv_lhs => rw [lex.eq_def]
  rfl

theorem lex_gt {s : Ptr} (hs : s.head? ≠ some '>'.toUInt8) :
    lex ('>'.toUInt8 :: s) = .op '>'.toUInt8 :: lex s := by
  have hspace : '>'.toUInt8 ∉ whitespace := by decide
  conv_lhs => rw [lex.eq_def]
  dsimp only
  rw [if_neg hspace, if_pos rfl]
  cases s with
  | nil =>
      rw [lex.eq_def]
  | cons d s =>
      have hd : d ≠ '>'.toUInt8 := by simpa using hs
      dsimp only
      rw [if_neg hd]

theorem lex_skip (s : Ptr) : lex (skip s) = lex s := by
  induction s with
  | nil => rfl
  | cons c s ih =>
      unfold skip at ih ⊢
      by_cases hc : c ∈ whitespace
      · rw [List.dropWhile_cons_of_pos (by simpa using hc), ih, lex_space hc]
      · rw [List.dropWhile_cons_of_neg (by simpa using hc)]

theorem skip_suffix (s : Ptr) : skip s <:+ s := List.dropWhile_suffix _

/-- After whitespace comes no whitespace. -/
theorem skip_head {c : UInt8} {s : Ptr} (h : skip ps = c :: s) : c ∉ whitespace := by
  have hhead := List.head?_dropWhile_not (fun b : UInt8 => decide (b ∈ whitespace)) ps
  unfold skip at h
  rw [h] at hhead
  simpa using hhead

/-- A character that is no whitespace begins one of three. -/
theorem lexeme_cases {c : UInt8} (hc : c ∉ whitespace) :
    c ∈ bytes "|();&<" ∨ c = '>'.toUInt8 ∨ InWord c := by
  by_cases h : c ∈ symbols
  · rcases (of_all (by decide) : ∀ c ∈ symbols, c ∈ bytes "|();&<" ∨ c = '>'.toUInt8) c h with
      h | h
    · exact Or.inl h
    · exact Or.inr (Or.inl h)
  · exact Or.inr (Or.inr ⟨hc, h⟩)

/-- What `gettoken` does at the word or operator `t` before `ts`. -/
structure Got (ps : Ptr) (t : Lexeme) (ts : List Lexeme) : Prop where
  ret : (gettoken ps).ret = t.ret
  rest : lex (gettoken ps).ps = ts
  suffix : (gettoken ps).ps <:+ ps
  less : (gettoken ps).ps.length < ps.length
  operator : ∀ r, t = .op r → r ∈ operators
  word : ∀ w, t = .word w → (gettoken ps).str.spell = w ∧ Spelled ps (gettoken ps).str

/-- An operator of some characters. -/
theorem Got.of_op {s after : Ptr} {r : UInt8} (hskip : skip ps = s)
    (hat : gettokenAt s = (r, after)) (hr : r ∈ operators) (hafter : after <:+ s)
    (hless : after.length < s.length) : Got ps (.op r) (lex after) := by
  have hget : gettoken ps = ⟨r, ⟨s, after⟩, skip after⟩ := by
    simp only [gettoken, hskip, hat]
  have hle := (skip_suffix ps).length_le
  have hle' := (skip_suffix after).length_le
  rw [hskip] at hle
  constructor
  · rw [hget]
    rfl
  · rw [hget]
    exact lex_skip after
  · rw [hget]
    exact (skip_suffix after).trans (hafter.trans (hskip ▸ skip_suffix ps))
  · rw [hget]
    dsimp only
    omega
  · intro r' heq
    obtain rfl := Lexeme.op.inj heq
    exact hr
  · intro w heq
    cases heq

/-- A word. -/
theorem Got.of_word {c : UInt8} {s : Ptr} (hskip : skip ps = c :: s) (hc : InWord c) :
    Got ps (.word (c :: s.takeWhile InWord)) (lex (s.dropWhile InWord)) := by
  obtain ⟨hop, hgt⟩ : c ∉ bytes "|();&<" ∧ c ≠ '>'.toUInt8 := by
    constructor
    · intro hmem
      exact hc.2 ((of_all (by decide) : ∀ c ∈ bytes "|();&<", c ∈ symbols) c hmem)
    · rintro rfl
      exact hc.2 (by decide)
  have hdrop : (c :: s).dropWhile (fun b => b ∉ whitespace ∧ b ∉ symbols) =
      s.dropWhile InWord := List.dropWhile_cons_of_pos (by simpa [InWord] using hc)
  have hget : gettoken ps =
      ⟨'a'.toUInt8, ⟨c :: s, s.dropWhile InWord⟩, skip (s.dropWhile InWord)⟩ := by
    simp only [gettoken, hskip, gettokenAt, if_neg hop, if_neg hgt, hdrop]
  have hle := (skip_suffix ps).length_le
  have hle' := (skip_suffix (s.dropWhile InWord)).length_le
  have hle'' := (List.dropWhile_suffix (p := InWord) (l := s)).length_le
  have hcut : c :: s = (c :: s.takeWhile InWord) ++ s.dropWhile InWord := by
    rw [List.cons_append, List.takeWhile_append_dropWhile]
  have hspell : (gettoken ps).str.spell = c :: s.takeWhile InWord := by
    rw [hget, Str.spell]
    dsimp only
    conv_lhs => rw [hcut]
    exact List.take_left' (by rw [List.length_append, Nat.add_sub_cancel])
  rw [hskip, List.length_cons] at hle
  constructor
  · rw [hget]
    rfl
  · rw [hget]
    exact lex_skip _
  · rw [hget]
    exact (skip_suffix _).trans (((List.dropWhile_suffix _).trans (List.suffix_cons c s)).trans
      (hskip ▸ skip_suffix ps))
  · rw [hget]
    dsimp only
    omega
  · intro r heq
    cases heq
  · intro w heq
    obtain rfl := Lexeme.word.inj heq
    refine ⟨hspell, ?_, ?_, ?_, ?_⟩
    · rw [hget]
      exact hskip ▸ skip_suffix ps
    · rw [hspell, hget]
      exact hcut
    · rw [hspell]
      intro b hb
      rcases List.mem_cons.mp hb with rfl | hb
      · exact hc
      · simpa using List.all_eq_true.mp List.all_takeWhile b hb
    · rw [hget]
      intro b hb
      have hhead := List.head?_dropWhile_not (fun b : UInt8 => decide (InWord b)) s
      dsimp only at hb
      rw [hb] at hhead
      simpa using hhead

/-- Nothing is left of the line. -/
theorem skip_eq_nil (h : lex ps = []) : skip ps = [] := by
  rw [← lex_skip] at h
  cases hskip : skip ps with
  | nil => rfl
  | cons c s =>
      rw [hskip] at h
      rcases lexeme_cases (skip_head hskip) with hc | rfl | hc
      · rw [lex_op hc] at h
        cases h
      · by_cases hs : s.head? = some '>'.toUInt8
        · obtain ⟨s', rfl⟩ := List.head?_eq_some_iff.mp hs
          rw [lex_append] at h
          cases h
        · rw [lex_gt hs] at h
          cases h
      · rw [lex_word hc] at h
        cases h

theorem gettoken_nil (h : lex ps = []) : gettoken ps = ⟨0, ⟨[], []⟩, []⟩ := by
  simp only [gettoken, skip_eq_nil h, gettokenAt]
  rfl

/-- **`gettoken`** returns the next word or operator. -/
theorem gettoken_cons (h : lex ps = t :: ts) : Got ps t ts := by
  rw [← lex_skip] at h
  cases hskip : skip ps with
  | nil =>
      rw [hskip, lex.eq_def] at h
      cases h
  | cons c s =>
      rw [hskip] at h
      rcases lexeme_cases (skip_head hskip) with hc | rfl | hc
      · rw [lex_op hc] at h
        obtain ⟨rfl, rfl⟩ := List.cons_eq_cons.mp h
        refine Got.of_op hskip ?_ ?_ (List.suffix_cons c s) (by simp)
        · rw [gettokenAt.eq_def]
          dsimp only
          rw [if_pos hc]
        · exact (of_all (by decide) : ∀ c ∈ bytes "|();&<", c ∈ operators) c hc
      · have hno : '>'.toUInt8 ∉ bytes "|();&<" := by decide
        by_cases hs : s.head? = some '>'.toUInt8
        · obtain ⟨s', rfl⟩ := List.head?_eq_some_iff.mp hs
          rw [lex_append] at h
          obtain ⟨rfl, rfl⟩ := List.cons_eq_cons.mp h
          refine Got.of_op hskip ?_ (by decide)
            ((List.suffix_cons _ s').trans (List.suffix_cons _ _))
            (by simp only [List.length_cons]; omega)
          rw [gettokenAt.eq_def]
          dsimp only
          rw [if_neg hno, if_pos rfl]
          rfl
        · rw [lex_gt hs] at h
          obtain ⟨rfl, rfl⟩ := List.cons_eq_cons.mp h
          refine Got.of_op hskip ?_ (by decide) (List.suffix_cons _ s) (by simp)
          rw [gettokenAt.eq_def]
          dsimp only
          rw [if_neg hno, if_pos rfl]
          cases s with
          | nil => rfl
          | cons d s =>
              have hd : d ≠ '>'.toUInt8 := by simpa using hs
              dsimp only
              rw [if_neg hd]
      · rw [lex_word hc] at h
        obtain ⟨rfl, rfl⟩ := List.cons_eq_cons.mp h
        exact Got.of_word hskip hc

/-- **`peek`** sees whether an operator is next. -/
theorem peek_lex (htoks : ∀ b ∈ bytes toks, b ∈ symbols) :
    (peek ps toks).2 = (lex ps).head?.any (Lexeme.among toks) := by
  rw [← lex_skip]
  change startsWith toks (skip ps) = _
  cases hskip : skip ps with
  | nil =>
      rw [lex.eq_def]
      rfl
  | cons c s =>
      have hplus : '+'.toUInt8 ∉ symbols := by decide
      rcases lexeme_cases (skip_head hskip) with hc | rfl | hc
      · have hne : c ≠ '+'.toUInt8 :=
          (of_all (by decide) : ∀ c ∈ bytes "|();&<", c ≠ '+'.toUInt8) c hc
        rw [lex_op hc]
        simp [startsWith, Lexeme.among, hne]
      · by_cases hs : s.head? = some '>'.toUInt8
        · obtain ⟨s', rfl⟩ := List.head?_eq_some_iff.mp hs
          rw [lex_append]
          simp [startsWith, Lexeme.among]
        · have hne : '>'.toUInt8 ≠ '+'.toUInt8 := by decide
          rw [lex_gt hs]
          simp [startsWith, Lexeme.among, hne]
      · have hno : c ∉ bytes toks := fun hmem => hc.2 (htoks c hmem)
        rw [lex_word hc]
        simp [startsWith, Lexeme.among, hno]

theorem peek_fst (toks : String) : lex (peek ps toks).1 = lex ps ∧ (peek ps toks).1 <:+ ps :=
  ⟨lex_skip ps, skip_suffix ps⟩

theorem peek_le (ps : Ptr) (toks : String) : (peek ps toks).1.length ≤ ps.length :=
  (peek_fst toks).2.length_le

theorem Spelled.mono {s : Str} (h : Spelled ps s) (hps : ps <:+ text) : Spelled text s :=
  ⟨h.suffix.trans hps, h.eq, h.word, h.ends⟩

/-! ### NUL-terminated strings -/

/-- The strings of a tree. -/
def Cmd.strs {α : Type} : Cmd α → List α
  | .exec argv => argv
  | .redir cmd file _ _ => cmd.strs ++ [file]
  | .pipe left right => left.strs ++ right.strs
  | .list left right => left.strs ++ right.strs
  | .back cmd => cmd.strs

/-- The buffer after these strings have been ended in it: it differs from the line only in
characters that are in no word. -/
structure Ended (text : List UInt8) (strs : List Str) (buf : List UInt8) : Prop where
  length : buf.length = text.length
  kept : ∀ (i : Nat) (b : UInt8), text[i]? = some b → InWord b → buf[i]? = some b
  ended : ∀ s ∈ strs, s.eq.index text < text.length → buf[s.eq.index text]? = some 0

variable {strs : List Str} {buf : List UInt8} {s : Str} {cmd : Cmd Str}

/-- What a pointer into a line points to. -/
theorem Spelled.eq_suffix (h : Spelled text s) : s.eq <:+ text :=
  List.IsSuffix.trans ⟨s.spell, h.eq.symm⟩ h.suffix

theorem index_getElem {p : Ptr} (h : p <:+ text) (i : Nat) : text[p.index text + i]? = p[i]? := by
  obtain ⟨before, rfl⟩ := h
  have hindex : Ptr.index (before ++ p) p = before.length := by
    rw [Ptr.index, List.length_append, Nat.add_sub_cancel]
  rw [hindex, List.getElem?_append_right (by omega), Nat.add_sub_cancel_left]

/-- One more string is ended. -/
theorem Ended.next (h : Ended text strs buf) (hs : Spelled text s) :
    Ended text (strs ++ [s]) (nul text buf s.eq) := by
  constructor
  · rw [nul, List.length_set]
    exact h.length
  · intro i b hb hword
    have hne : s.eq.index text ≠ i := by
      rintro rfl
      have hhead := index_getElem hs.eq_suffix 0
      rw [Nat.add_zero, hb, ← List.head?_eq_getElem?] at hhead
      exact hs.ends b hhead.symm hword
    rw [nul, List.getElem?_set_ne hne]
    exact h.kept i b hb hword
  · intro s' hs' hlt
    rw [nul, List.getElem?_set]
    split
    · rw [if_pos (by rw [h.length]; omega)]
    · rcases List.mem_append.mp hs' with hs' | hs'
      · exact h.ended s' hs' hlt
      · obtain rfl := List.mem_singleton.mp hs'
        contradiction

theorem Ended.argv {argv : List Str} (h : Ended text strs buf) (hargv : ∀ s ∈ argv, Spelled text s) :
    Ended text (strs ++ argv) (argv.foldl (fun buf arg => nul text buf arg.eq) buf) := by
  induction argv generalizing strs buf with
  | nil => simpa using h
  | cons arg argv ih =>
      have hrest := ih (h.next (hargv arg List.mem_cons_self)) fun s hs =>
        hargv s (List.mem_cons_of_mem _ hs)
      rwa [List.append_assoc] at hrest

/-- **`nulterminate` ends the strings of a tree.** -/
theorem Ended.tree (h : Ended text strs buf) (hcmd : ∀ s ∈ cmd.strs, Spelled text s) :
    Ended text (strs ++ cmd.strs) (nulterminate text cmd buf) := by
  induction cmd generalizing strs buf with
  | exec argv => exact h.argv hcmd
  | redir cmd file mode fd ih =>
      have hinner := ih h fun s hs => hcmd s (List.mem_append_left _ hs)
      have hfile := hinner.next (hcmd file (List.mem_append_right _ List.mem_cons_self))
      rwa [List.append_assoc] at hfile
  | pipe left right ihl ihr | list left right ihl ihr =>
      have hleft := ihl h fun s hs => hcmd s (List.mem_append_left _ hs)
      have hright := ihr hleft fun s hs => hcmd s (List.mem_append_right _ hs)
      rwa [List.append_assoc] at hright
  | back cmd ih => exact ih h hcmd

/-- A string up to the NUL. -/
theorem takeWhile_nul {l w : List UInt8} (hw : 0 ∉ w)
    (hl : ∀ (i : Nat) (b : UInt8), w[i]? = some b → l[i]? = some b)
    (hend : ∀ b, l[w.length]? = some b → b = 0) : l.takeWhile (· ≠ 0) = w := by
  induction w generalizing l with
  | nil =>
      cases l with
      | nil => rfl
      | cons b l =>
          obtain rfl := hend b rfl
          rfl
  | cons c w ih =>
      cases l with
      | nil => simpa using hl 0 c rfl
      | cons b l =>
          obtain rfl : b = c := by simpa using hl 0 c rfl
          have hb : b ≠ 0 := by
            rintro rfl
            exact hw List.mem_cons_self
          rw [List.takeWhile_cons_of_pos (by simpa using hb),
            ih (fun h => hw (List.mem_cons_of_mem _ h)) (fun i b hi => hl (i + 1) b hi) hend]

/-- **Each string reads as its word** once all are ended. -/
theorem cString_nulterminate (hline : 0 ∉ text) (hcmd : ∀ s ∈ cmd.strs, Spelled text s)
    (hs : s ∈ cmd.strs) : cString text (nulterminate text cmd text) s.q = s.spell := by
  have hstart : Ended text [] text := ⟨rfl, fun i b hb _ => hb, fun s hs => by cases hs⟩
  have hended := hstart.tree hcmd
  rw [List.nil_append] at hended
  have hspelled := hcmd s hs
  have hq : ∀ i, text[s.q.index text + i]? = (s.spell ++ s.eq)[i]? := fun i => by
    rw [index_getElem hspelled.suffix i, ← hspelled.eq]
  have heq : s.eq.index text = s.q.index text + s.spell.length := by
    have hlen := congrArg List.length hspelled.eq
    have hle := hspelled.suffix.length_le
    rw [List.length_append] at hlen
    unfold Ptr.index
    omega
  apply takeWhile_nul
  · intro hzero
    have hmem : (0 : UInt8) ∈ s.q := by
      rw [hspelled.eq]
      exact List.mem_append_left _ hzero
    exact hline (hspelled.suffix.mem hmem)
  · intro i b hi
    have hlt := (List.getElem?_eq_some_iff.mp hi).1
    rw [List.getElem?_drop]
    refine hended.kept _ b ?_ (hspelled.word b (List.mem_of_getElem? hi))
    rw [hq, List.getElem?_append_left hlt, hi]
  · intro b hb
    rw [List.getElem?_drop, ← heq] at hb
    have hlt := (List.getElem?_eq_some_iff.mp hb).1
    rw [hended.length] at hlt
    rw [hended.ended s hs hlt] at hb
    exact (Option.some.inj hb).symm

end Sh
