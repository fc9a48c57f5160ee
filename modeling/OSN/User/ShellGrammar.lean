import OSN.User.ShellWords

/-!
# The grammar of the shell

The lines that `parsecmd` accepts are those of a grammar, and the tree that it returns is the
one that the grammar derives: `parsecmd_iff`.  The parsing functions take the longest text
that their part of the grammar derives, and what may come after each part decides that there
is no other way to take it (`Follows`).
-/

namespace Sh

/-- A word. -/
abbrev Word := List UInt8

/-- Redirections: an operator and a file each. -/
inductive Redirs : List Lexeme → List (Redir Word) → Prop
  | nil : Redirs [] []
  | cons {r : UInt8} {file : Word} {ts : List Lexeme} {rs : List (Redir Word)}
      (hr : r ∈ bytes "<>+") (h : Redirs ts rs) :
      Redirs (.op r :: .word file :: ts) (redirOf r file :: rs)

/-- Words, and redirections after each of them. -/
inductive Args : List Lexeme → List Word → List (Redir Word) → Prop
  | nil : Args [] [] []
  | cons {arg : Word} {ts ts' : List Lexeme} {args : List Word} {rs rs' : List (Redir Word)}
      (hr : Redirs ts rs) (h : Args ts' args rs') :
      Args (.word arg :: (ts ++ ts')) (arg :: args) (rs ++ rs')

/-- A command in the background, `k` times. -/
def Cmd.backs {α : Type} : Nat → Cmd α → Cmd α
  | 0, cmd => cmd
  | k + 1, cmd => Cmd.backs k (.back cmd)

/-- The parts of the grammar that call each other. -/
inductive Part where
  | exec
  | pipe
  | line
  deriving DecidableEq

/-- **The grammar.** -/
inductive Derives : Part → List Lexeme → Cmd Word → Prop
  /-- A command with fewer than `MAXARGS` words. -/
  | simple {ts ts' : List Lexeme} {args : List Word} {rs rs' : List (Redir Word)}
      (hr : Redirs ts rs) (ha : Args ts' args rs') (hmax : args.length < MAXARGS) :
      Derives .exec (ts ++ ts') ((Cmd.exec args).redirect (rs ++ rs'))
  /-- A line in parentheses. -/
  | block {ts ts' : List Lexeme} {cmd : Cmd Word} {rs : List (Redir Word)}
      (h : Derives .line ts cmd) (hr : Redirs ts' rs) :
      Derives .exec (.op '('.toUInt8 :: (ts ++ .op ')'.toUInt8 :: ts')) (cmd.redirect rs)
  | last {ts : List Lexeme} {cmd : Cmd Word} (h : Derives .exec ts cmd) : Derives .pipe ts cmd
  | pipe {ts ts' : List Lexeme} {left right : Cmd Word} (h : Derives .exec ts left)
      (h' : Derives .pipe ts' right) :
      Derives .pipe (ts ++ .op '|'.toUInt8 :: ts') (.pipe left right)
  /-- In the background as often as there are `&`. -/
  | backs {ts : List Lexeme} {cmd : Cmd Word} (h : Derives .pipe ts cmd) (k : Nat) :
      Derives .line (ts ++ List.replicate k (.op '&'.toUInt8)) (cmd.backs k)
  | list {ts ts' : List Lexeme} {left right : Cmd Word} (h : Derives .pipe ts left) (k : Nat)
      (h' : Derives .line ts' right) :
      Derives .line (ts ++ List.replicate k (.op '&'.toUInt8) ++ .op ';'.toUInt8 :: ts')
        (.list (left.backs k) right)

variable {ps ps' : Ptr} {fuel : Nat} {ts rest : List Lexeme} {toks : String}

/-! ### What comes next -/

/-- An operator that begins with one of `toks` comes next. -/
def Next (toks : String) (ts : List Lexeme) : Prop := ts.head?.any (Lexeme.among toks) = true

instance (toks : String) (ts : List Lexeme) : Decidable (Next toks ts) := by
  unfold Next
  infer_instance

theorem peek_next (htoks : ∀ b ∈ bytes toks, b ∈ symbols) :
    (peek ps toks).2 = true ↔ Next toks (lex ps) := by
  rw [peek_lex htoks]
  rfl

theorem next_iff : Next toks ts ↔ ∃ r ts', ts = .op r :: ts' ∧
    (if r = '+'.toUInt8 then '>'.toUInt8 else r) ∈ bytes toks := by
  cases ts with
  | nil => simp [Next]
  | cons t ts =>
      cases t with
      | word text => simp [Next, Lexeme.among]
      | op r => simp [Next, Lexeme.among]

/-- One operator. -/
theorem next_one {c : UInt8} (htoks : bytes toks = [c]) (hc : c ∉ bytes ">+") :
    Next toks ts ↔ ∃ ts', ts = .op c :: ts' := by
  have hgt : '>'.toUInt8 ≠ c := by
    rintro rfl
    exact hc (by decide)
  have hplus : '+'.toUInt8 ≠ c := by
    rintro rfl
    exact hc (by decide)
  rw [next_iff, htoks]
  constructor
  · rintro ⟨r, ts', rfl, hr⟩
    rw [List.mem_singleton] at hr
    split at hr
    · exact absurd hr hgt
    · exact ⟨ts', by rw [hr]⟩
  · rintro ⟨ts', rfl⟩
    exact ⟨c, ts', rfl, by simp [Ne.symm hplus]⟩

/-- The operators of redirections. -/
theorem next_redir : Next "<>" ts ↔ ∃ r ts', ts = .op r :: ts' ∧ r ∈ bytes "<>+" := by
  have hbytes : bytes "<>" = ['<'.toUInt8, '>'.toUInt8] := by decide
  have hbytes' : bytes "<>+" = ['<'.toUInt8, '>'.toUInt8, '+'.toUInt8] := by decide
  rw [next_iff, hbytes, hbytes']
  constructor
  · rintro ⟨r, ts', rfl, hr⟩
    refine ⟨r, ts', rfl, ?_⟩
    split at hr
    next hplus => simp [hplus]
    next hplus => simpa [hplus] using hr
  · rintro ⟨r, ts', rfl, hr⟩
    refine ⟨r, ts', rfl, ?_⟩
    split
    next hplus => simp
    next hplus => simpa [hplus] using hr

/-! ### Trees -/

variable {α β : Type}

def Redir.map (f : α → β) (r : Redir α) : Redir β := ⟨f r.file, r.mode, r.fd⟩

theorem redirOf_map (f : α → β) (tok : UInt8) (file : α) :
    (redirOf tok file).map f = redirOf tok (f file) := by
  unfold redirOf
  split
  · rfl
  · split <;> rfl

theorem redirOf_file (tok : UInt8) (file : α) : (redirOf tok file).file = file := by
  unfold redirOf
  split
  · rfl
  · split <;> rfl

theorem map_redirect (f : α → β) (cmd : Cmd α) (rs : List (Redir α)) :
    (cmd.redirect rs).map f = (cmd.map f).redirect (rs.map (Redir.map f)) := by
  induction rs generalizing cmd with
  | nil => rfl
  | cons r rs ih => exact ih _

theorem mem_strs_redirect {cmd : Cmd α} {rs : List (Redir α)} {s : α} :
    s ∈ (cmd.redirect rs).strs ↔ s ∈ cmd.strs ∨ ∃ r ∈ rs, s = r.file := by
  induction rs generalizing cmd with
  | nil => simp [Cmd.redirect]
  | cons r rs ih =>
      have hstep : cmd.redirect (r :: rs) = (Cmd.redir cmd r.file r.mode r.fd).redirect rs := rfl
      rw [hstep, ih]
      simp [Cmd.strs, or_assoc]

theorem map_backs (f : α → β) (cmd : Cmd α) (k : Nat) :
    (cmd.backs k).map f = (cmd.map f).backs k := by
  induction k generalizing cmd with
  | zero => rfl
  | succ k ih => exact ih (.back cmd)

theorem strs_backs (cmd : Cmd α) (k : Nat) : (cmd.backs k).strs = cmd.strs := by
  induction k generalizing cmd with
  | zero => rfl
  | succ k ih => exact ih (.back cmd)

/-! ### Redirections and words -/

/-- Strings that spell words of a text, with what is left of it. -/
structure Took (ps ps' : Ptr) (strs : List Str) (ts : List Lexeme) : Prop where
  suffix : ps' <:+ ps
  strs : ∀ s ∈ strs, Spelled ps s
  read : lex ps = ts ++ lex ps'

theorem Took.trans {ps'' : Ptr} {strs strs' : List Str} {ts' : List Lexeme}
    (h : Took ps ps' strs ts) (h' : Took ps' ps'' strs' ts') :
    Took ps ps'' (strs ++ strs') (ts ++ ts') := by
  refine ⟨h'.suffix.trans h.suffix, fun s hs => ?_, by rw [h.read, h'.read, List.append_assoc]⟩
  rcases List.mem_append.mp hs with hs | hs
  · exact h.strs s hs
  · exact (h'.strs s hs).mono h.suffix

theorem Took.peeked (toks : String) : Took ps (peek ps toks).1 [] [] :=
  ⟨(peek_fst toks).2, by simp, (peek_fst toks).1.symm⟩

theorem Took.op {r : UInt8} (h : lex ps = .op r :: rest) : Took ps (gettoken ps).ps [] [.op r] :=
  ⟨(gettoken_cons h).suffix, by simp, by rw [(gettoken_cons h).rest, h]; rfl⟩

theorem Took.word {w : Word} (h : lex ps = .word w :: rest) :
    Took ps (gettoken ps).ps [(gettoken ps).str] [.word w] := by
  refine ⟨(gettoken_cons h).suffix, fun s hs => ?_, by rw [(gettoken_cons h).rest, h]; rfl⟩
  obtain rfl := List.mem_singleton.mp hs
  exact ((gettoken_cons h).word w rfl).2

/-- `gettoken` returns `'a'` only at a word. -/
theorem word_of_ret (h : (gettoken ps).ret = 'a'.toUInt8) :
    ∃ w ts, lex ps = .word w :: ts ∧ (gettoken ps).str.spell = w := by
  cases hlex : lex ps with
  | nil =>
      rw [gettoken_nil hlex] at h
      exact absurd h (by decide)
  | cons t ts =>
      have hgot := gettoken_cons hlex
      cases t with
      | word w => exact ⟨w, ts, rfl, (hgot.word w rfl).1⟩
      | op r =>
          have hr := hgot.operator r rfl
          rw [hgot.ret] at h
          exact absurd h ((of_all (by decide) : ∀ r ∈ operators, r ≠ 'a'.toUInt8) r hr)

/-- `gettoken` returns `0` only at the end. -/
theorem end_of_ret (h : (gettoken ps).ret = 0) : lex ps = [] := by
  cases hlex : lex ps with
  | nil => rfl
  | cons t ts =>
      have hgot := gettoken_cons hlex
      rw [hgot.ret] at h
      cases t with
      | word w =>
          rw [Lexeme.ret] at h
          exact absurd h (by decide)
      | op r =>
          exact absurd h ((of_all (by decide) : ∀ r ∈ operators, r ≠ 0) r (hgot.operator r rfl))

theorem Took.end (h : lex ps = []) : Took ps (gettoken ps).ps [] [] := by
  rw [gettoken_nil h]
  exact ⟨List.nil_suffix, by simp, by rw [h, lex.eq_def]; rfl⟩

/-- What `parseredirs` has taken. -/
theorem parseredirs_sound {redirs redirs' : List (Redir Str)}
    (h : parseredirs fuel redirs ps = .ok (redirs', ps')) :
    ∃ new ts, redirs' = redirs ++ new ∧ Took ps ps' (new.map Redir.file) ts ∧
      Redirs ts (new.map (Redir.map Str.spell)) := by
  induction fuel generalizing redirs ps with
  | zero => cases h
  | succ fuel ih =>
      rw [parseredirs] at h
      dsimp only at h
      split at h
      next hseen =>
        split at h
        · cases h
        next hret =>
          rw [not_not] at hret
          obtain ⟨r, ts, hlex, hr⟩ := next_redir.mp ((peek_next (of_all (by decide))).mp hseen)
          rw [← (peek_fst "<>").1] at hlex
          have hop := gettoken_cons hlex
          obtain ⟨w, ts', hlex', hw⟩ := word_of_ret hret
          obtain ⟨new, ts'', rfl, htook, hderived⟩ := ih h
          have hall := (Took.peeked "<>").trans
            ((Took.op hlex).trans ((Took.word hlex').trans htook))
          refine ⟨redirOf r (gettoken (gettoken (peek ps "<>").1).ps).str :: new,
            .op r :: .word w :: ts'', ?_, ?_, ?_⟩
          · rw [hop.ret, Lexeme.ret, List.append_assoc]
            rfl
          · rw [List.map_cons, redirOf_file]
            exact hall
          · rw [List.map_cons, redirOf_map, hw]
            exact .cons hr hderived
      next hseen =>
        obtain ⟨rfl, rfl⟩ := Prod.mk.inj (Except.ok.inj h)
        exact ⟨[], [], by simp, Took.peeked "<>", .nil⟩

/-- What the loop of `parseexec` has taken. -/
theorem parseargs_sound {argv argv' : List Str} {redirs redirs' : List (Redir Str)}
    (h : parseargs fuel argv redirs ps = .ok (argv', redirs', ps'))
    (hmax : argv.length < MAXARGS) :
    ∃ args new strs ts, argv' = argv ++ args ∧ redirs' = redirs ++ new ∧
      (∀ s ∈ args ++ new.map Redir.file, s ∈ strs) ∧ Took ps ps' strs ts ∧
      Args ts (args.map Str.spell) (new.map (Redir.map Str.spell)) ∧ argv'.length < MAXARGS := by
  induction fuel generalizing argv redirs ps with
  | zero => cases h
  | succ fuel ih =>
      rw [parseargs] at h
      dsimp only at h
      have hnone : ∀ {ps'}, Took ps ps' [] [] → argv' = argv → redirs' = redirs →
          ∃ args new strs ts, argv' = argv ++ args ∧ redirs' = redirs ++ new ∧
            (∀ s ∈ args ++ new.map Redir.file, s ∈ strs) ∧ Took ps ps' strs ts ∧
            Args ts (args.map Str.spell) (new.map (Redir.map Str.spell)) ∧
            argv'.length < MAXARGS := by
        rintro ps' htook rfl rfl
        exact ⟨[], [], [], [], by simp, by simp, by simp, htook, .nil, hmax⟩
      split at h
      next hseen =>
        obtain ⟨rfl, hrest⟩ := Prod.mk.inj (Except.ok.inj h)
        obtain ⟨rfl, rfl⟩ := Prod.mk.inj hrest
        exact hnone (Took.peeked "|)&;") rfl rfl
      next hseen =>
        split at h
        next hret =>
          obtain ⟨rfl, hrest⟩ := Prod.mk.inj (Except.ok.inj h)
          obtain ⟨rfl, rfl⟩ := Prod.mk.inj hrest
          exact hnone ((Took.peeked "|)&;").trans (Took.end (end_of_ret hret))) rfl rfl
        next hret =>
          split at h
          · cases h
          next hword =>
            rw [not_not] at hword
            split at h
            · cases h
            next hroom =>
              split at h
              · cases h
              next redirs₁ ps₁ hredirs =>
                obtain ⟨w, ts₀, hlex, hw⟩ := word_of_ret hword
                obtain ⟨new, ts, rfl, htook, hderived⟩ := parseredirs_sound hredirs
                obtain ⟨args, new', strs, ts', rfl, rfl, hstrs, htook', hargs, hmax'⟩ :=
                  ih h (by omega)
                have hall := (Took.peeked "|)&;" : Took ps _ [] []).trans
                  ((Took.word hlex).trans (htook.trans htook'))
                refine ⟨(gettoken (peek ps "|)&;").1).str :: args, new ++ new', _,
                  .word w :: (ts ++ ts'), by simp, by simp, ?_, hall, ?_, hmax'⟩
                · intro s hs
                  have hs' := hstrs s
                  simp only [List.cons_append, List.map_append, List.mem_cons,
                    List.mem_append, List.nil_append] at hs hs' ⊢
                  tauto
                · rw [List.map_cons, List.map_append, hw]
                  exact .cons hderived hargs

/-- What a parsing function has taken. -/
def Parsed (part : Part) (ps : Ptr) (cmd : Cmd Str) (ps' : Ptr) : Prop :=
  ∃ strs ts, (∀ s ∈ cmd.strs, s ∈ strs) ∧ Took ps ps' strs ts ∧
    Derives part ts (cmd.map Str.spell)

theorem parsebacks_sound {cmd cmd' : Cmd Str} (h : parsebacks fuel cmd ps = .ok (cmd', ps')) :
    ∃ k, cmd' = cmd.backs k ∧ Took ps ps' [] (List.replicate k (.op '&'.toUInt8)) := by
  induction fuel generalizing cmd ps with
  | zero => cases h
  | succ fuel ih =>
      rw [parsebacks] at h
      split at h
      next hseen =>
        obtain ⟨ts, hlex⟩ := (next_one (c := '&'.toUInt8) (by decide) (by decide)).mp
          ((peek_next (of_all (by decide))).mp hseen)
        rw [← (peek_fst "&").1] at hlex
        obtain ⟨k, rfl, htook⟩ := ih h
        exact ⟨k + 1, rfl, (Took.peeked "&").trans ((Took.op hlex).trans htook)⟩
      next hseen =>
        obtain ⟨rfl, rfl⟩ := Prod.mk.inj (Except.ok.inj h)
        exact ⟨0, rfl, Took.peeked "&"⟩

/-- A `peek` that sees its operator, and the `gettoken` after it. -/
theorem Took.seen {c : UInt8} (htoks : bytes toks = [c]) (hc : c ∈ bytes "|();&<")
    (hseen : (peek ps toks).2 = true) :
    Took ps (gettoken (peek ps toks).1).ps [] [.op c] := by
  obtain ⟨hsymbol, hplain⟩ := (of_all (by decide) : ∀ c ∈ bytes "|();&<", c ∈ symbols ∧ c ∉ bytes ">+") c hc
  have hall : ∀ b ∈ bytes toks, b ∈ symbols := by
    rw [htoks]
    simpa using hsymbol
  obtain ⟨ts, hlex⟩ := (next_one htoks hplain).mp ((peek_next hall).mp hseen)
  rw [← (peek_fst toks).1] at hlex
  exact (Took.peeked toks).trans (Took.op hlex)

theorem bind_ok {α β : Type} {x : Except Stop α} {f : α → Except Stop β} {b : β}
    (h : (x >>= f) = .ok b) : ∃ a, x = .ok a ∧ f a = .ok b := by
  cases x with
  | error e => cases h
  | ok a => exact ⟨a, rfl, h⟩

/-- **What the parsing functions return is derived** from the text they have taken. -/
theorem parse_sound (fuel : Nat) :
    (∀ {ps cmd ps'}, parseline fuel ps = .ok (cmd, ps') → Parsed .line ps cmd ps') ∧
    (∀ {ps cmd ps'}, parsepipe fuel ps = .ok (cmd, ps') → Parsed .pipe ps cmd ps') ∧
    (∀ {ps cmd ps'}, parseblock fuel ps = .ok (cmd, ps') → Parsed .exec ps cmd ps') ∧
    ∀ {ps cmd ps'}, parseexec fuel ps = .ok (cmd, ps') → Parsed .exec ps cmd ps' := by
  induction fuel with
  | zero =>
      refine ⟨fun h => ?_, fun h => ?_, fun h => ?_, fun h => ?_⟩
      · rw [parseline] at h
        cases h
      · rw [parsepipe] at h
        cases h
      · rw [parseblock] at h
        cases h
      · rw [parseexec] at h
        cases h
  | succ fuel ih =>
      obtain ⟨ihline, ihpipe, ihblock, ihexec⟩ := ih
      refine ⟨fun {ps cmd ps'} h => ?_, fun {ps cmd ps'} h => ?_, fun {ps cmd ps'} h => ?_,
        fun {ps cmd ps'} h => ?_⟩
      · rw [parseline] at h
        obtain ⟨⟨cmd₀, ps₀⟩, hpipe, h⟩ := bind_ok h
        obtain ⟨⟨cmd₁, ps₁⟩, hbacks, h⟩ := bind_ok h
        obtain ⟨strs, ts, hstrs, htook, hderived⟩ := ihpipe hpipe
        obtain ⟨k, rfl, hamps⟩ := parsebacks_sound hbacks
        dsimp only at h
        split at h
        next hseen =>
          obtain ⟨⟨right, ps₂⟩, hline, h⟩ := bind_ok h
          obtain ⟨rfl, rfl⟩ := Prod.mk.inj (Except.ok.inj h)
          obtain ⟨strs', ts', hstrs', htook', hderived'⟩ := ihline hline
          have hall := htook.trans (hamps.trans
            ((Took.seen (c := ';'.toUInt8) (by decide) (by decide) hseen).trans htook'))
          refine ⟨_, ts ++ List.replicate k (.op '&'.toUInt8) ++ .op ';'.toUInt8 :: ts', ?_,
            by simpa using hall, ?_⟩
          · intro s hs
            simp only [Cmd.strs, strs_backs, List.mem_append] at hs ⊢
            exact hs.imp (hstrs s) (hstrs' s)
          · simp only [Cmd.map, map_backs]
            exact .list hderived k hderived'
        next hseen =>
          obtain ⟨rfl, rfl⟩ := Prod.mk.inj (Except.ok.inj h)
          refine ⟨_, _, ?_, htook.trans (hamps.trans (Took.peeked ";")), ?_⟩
          · intro s hs
            rw [strs_backs] at hs
            exact List.mem_append_left _ (hstrs s hs)
          · rw [map_backs, List.append_nil]
            exact .backs hderived k
      · rw [parsepipe] at h
        obtain ⟨⟨cmd₀, ps₀⟩, hexec, h⟩ := bind_ok h
        obtain ⟨strs, ts, hstrs, htook, hderived⟩ := ihexec hexec
        dsimp only at h
        split at h
        next hseen =>
          obtain ⟨⟨right, ps₁⟩, hpipe, h⟩ := bind_ok h
          obtain ⟨rfl, rfl⟩ := Prod.mk.inj (Except.ok.inj h)
          obtain ⟨strs', ts', hstrs', htook', hderived'⟩ := ihpipe hpipe
          refine ⟨_, _, ?_, htook.trans
            ((Took.seen (c := '|'.toUInt8) (by decide) (by decide) hseen).trans htook'),
            .pipe hderived hderived'⟩
          intro s hs
          simp only [Cmd.strs, List.mem_append, List.nil_append] at hs ⊢
          exact hs.imp (hstrs s) (hstrs' s)
        next hseen =>
          obtain ⟨rfl, rfl⟩ := Prod.mk.inj (Except.ok.inj h)
          refine ⟨_, _, ?_, htook.trans (Took.peeked "|"), ?_⟩
          · intro s hs
            exact List.mem_append_left _ (hstrs s hs)
          · rw [List.append_nil]
            exact .last hderived
      · rw [parseblock] at h
        dsimp only at h
        split at h
        · cases h
        next hopen =>
          obtain ⟨⟨cmd₀, ps₀⟩, hline, h⟩ := bind_ok h
          obtain ⟨strs, ts, hstrs, htook, hderived⟩ := ihline hline
          dsimp only at h
          split at h
          · cases h
          next hclose =>
            obtain ⟨⟨redirs, ps₁⟩, hredirs, h⟩ := bind_ok h
            obtain ⟨rfl, rfl⟩ := Prod.mk.inj (Except.ok.inj h)
            obtain ⟨_, ts', rfl, htook', hredirs⟩ := parseredirs_sound hredirs
            rw [Bool.not_eq_true', Bool.not_eq_false] at hopen hclose
            have hall := (Took.seen (c := '('.toUInt8) (by decide) (by decide) hopen).trans
              (htook.trans ((Took.seen (c := ')'.toUInt8) (by decide) (by decide) hclose).trans
                htook'))
            refine ⟨_, .op '('.toUInt8 :: (ts ++ .op ')'.toUInt8 :: ts'), ?_, hall, ?_⟩
            · intro s hs
              rcases mem_strs_redirect.mp hs with hs | ⟨r, hr, rfl⟩
              · simp [hstrs s hs]
              · have hmem : r.file ∈ redirs.map Redir.file := List.mem_map_of_mem hr
                simp [hmem]
            · rw [map_redirect]
              exact .block hderived hredirs
      · rw [parseexec] at h
        dsimp only at h
        split at h
        next hseen =>
          obtain ⟨strs, ts, hstrs, htook, hderived⟩ := ihblock h
          exact ⟨_, _, fun s hs => List.mem_append_right _ (hstrs s hs),
            (Took.peeked "(").trans htook, hderived⟩
        next hseen =>
          obtain ⟨⟨redirs, ps₀⟩, hredirs, h⟩ := bind_ok h
          obtain ⟨⟨argv, redirs', ps₁⟩, hargs, h⟩ := bind_ok h
          obtain ⟨rfl, rfl⟩ := Prod.mk.inj (Except.ok.inj h)
          obtain ⟨_, ts, rfl, htook, hredirs⟩ := parseredirs_sound hredirs
          obtain ⟨args, new', strs, ts', rfl, rfl, hstrs, htook', hargs, hmax⟩ :=
            parseargs_sound hargs (by decide)
          refine ⟨_, ts ++ ts', ?_, (Took.peeked "(").trans (htook.trans htook'), ?_⟩
          · intro s hs
            rcases mem_strs_redirect.mp hs with hs | ⟨r, hr, rfl⟩
            · simp [hstrs s (List.mem_append_left _ hs)]
            · rcases List.mem_append.mp hr with hr | hr
              · have hmem : r.file ∈ redirs.map Redir.file := List.mem_map_of_mem hr
                simp [hmem]
              · have hmem : r.file ∈ new'.map Redir.file := List.mem_map_of_mem hr
                simp [hstrs r.file (List.mem_append_right _ hmem)]
          · rw [map_redirect, List.map_append]
            exact .simple hredirs hargs (by simpa using hmax)

/-! ### What the grammar derives is parsed -/

theorem Next.disjoint {toks' : String} (h : Next toks ts)
    (hdisjoint : ∀ c ∈ bytes toks, c ∉ bytes toks') : ¬ Next toks' ts := by
  obtain ⟨r, ts', rfl, hr⟩ := next_iff.mp h
  intro h'
  obtain ⟨r', ts'', heq, hr'⟩ := next_iff.mp h'
  obtain ⟨hop, rfl⟩ := List.cons_eq_cons.mp heq
  obtain rfl := Lexeme.op.inj hop
  exact hdisjoint _ hr hr'

theorem Next.mono {toks' : String} (h : Next toks ts) (hsub : bytes toks ⊆ bytes toks') :
    Next toks' ts := by
  obtain ⟨r, ts', rfl, hr⟩ := next_iff.mp h
  exact next_iff.mpr ⟨r, ts', rfl, hsub hr⟩

theorem not_next_nil : ¬ Next toks [] := by simp [Next]

theorem not_next_word {w : Word} : ¬ Next toks (.word w :: ts) := by simp [Next, Lexeme.among]

/-- The operators that may come after a part. -/
def Part.closers : Part → String
  | .exec => "|)&;"
  | .pipe => ")&;"
  | .line => ")"

/-- **What may come after a part**: nothing, or one of these. -/
def Follows (part : Part) (rest : List Lexeme) : Prop := rest = [] ∨ Next part.closers rest

theorem Follows.not_next {part : Part} (h : Follows part rest)
    (hdisjoint : ∀ c ∈ bytes part.closers, c ∉ bytes toks) : ¬ Next toks rest := by
  rcases h with rfl | h
  · exact not_next_nil
  · exact h.disjoint hdisjoint

theorem Follows.mono {part part' : Part} (h : Follows part rest)
    (hsub : bytes part.closers ⊆ bytes part'.closers) : Follows part' rest :=
  h.imp id fun hnext => hnext.mono hsub

theorem Redirs.not_next {rs : List (Redir Word)} (h : Redirs ts rs) (hrest : ¬ Next toks rest)
    (hdisjoint : ∀ c ∈ bytes "<>", c ∉ bytes toks) : ¬ Next toks (ts ++ rest) := by
  cases h with
  | nil => exact hrest
  | cons hr h => exact (next_redir.mpr ⟨_, _, rfl, hr⟩).disjoint hdisjoint

theorem Args.not_next {args : List Word} {rs : List (Redir Word)} (h : Args ts args rs)
    (hrest : Follows .exec rest) (hdisjoint : ∀ c ∈ bytes "|)&;", c ∉ bytes toks) :
    ¬ Next toks (ts ++ rest) := by
  cases h with
  | nil => exact hrest.not_next hdisjoint
  | cons => exact not_next_word

theorem parseredirs_complete (fuel : Nat) {rs : List (Redir Word)} (h : Redirs ts rs)
    (redirs : List (Redir Str)) (hlex : lex ps = ts ++ rest) (hrest : ¬ Next "<>" rest)
    (hfuel : ps.length < fuel) :
    ∃ new ps', parseredirs fuel redirs ps = .ok (redirs ++ new, ps') ∧ lex ps' = rest ∧
      new.map (Redir.map Str.spell) = rs := by
  induction h generalizing ps redirs fuel with
  | nil =>
      obtain ⟨fuel, rfl⟩ := Nat.exists_eq_add_of_lt hfuel
      rw [List.nil_append] at hlex
      refine ⟨[], (peek ps "<>").1, ?_, (peek_fst "<>").1.trans hlex, rfl⟩
      have hseen : ¬ (peek ps "<>").2 = true := fun hseen =>
        hrest (hlex ▸ (peek_next (of_all (by decide))).mp hseen)
      rw [parseredirs]
      dsimp only
      rw [if_neg hseen, List.append_nil]
  | @cons r file ts rs hr h ih =>
      cases fuel with
      | zero => omega
      | succ fuel =>
        have hseen : (peek ps "<>").2 = true :=
          (peek_next (of_all (by decide))).mpr (hlex ▸ next_redir.mpr ⟨r, _, rfl, hr⟩)
        have hop := gettoken_cons ((peek_fst "<>").1.trans hlex)
        have hword := gettoken_cons hop.rest
        have hle := peek_le ps "<>"
        have hless := hop.less
        have hless' := hword.less
        obtain ⟨new, ps', hparse, hlex', hnew⟩ :=
          ih fuel (redirs ++ [redirOf r (gettoken (gettoken (peek ps "<>").1).ps).str])
            hword.rest (by omega)
        refine ⟨redirOf r (gettoken (gettoken (peek ps "<>").1).ps).str :: new, ps', ?_, hlex', ?_⟩
        · rw [parseredirs]
          dsimp only
          rw [if_pos hseen, if_neg (by rw [hword.ret]; exact fun h => h rfl), hop.ret]
          rw [List.append_assoc] at hparse
          exact hparse
        · rw [List.map_cons, redirOf_map, (hword.word file rfl).1, hnew]

theorem parsebacks_complete (fuel : Nat) (k : Nat) (cmd : Cmd Str)
    (hlex : lex ps = List.replicate k (.op '&'.toUInt8) ++ rest) (hrest : ¬ Next "&" rest)
    (hfuel : ps.length < fuel) :
    ∃ ps', parsebacks fuel cmd ps = .ok (cmd.backs k, ps') ∧ lex ps' = rest := by
  induction k generalizing ps cmd fuel with
  | zero =>
      obtain ⟨fuel, rfl⟩ := Nat.exists_eq_add_of_lt hfuel
      rw [List.replicate_zero, List.nil_append] at hlex
      have hseen : ¬ (peek ps "&").2 = true := fun hseen =>
        hrest (hlex ▸ (peek_next (of_all (by decide))).mp hseen)
      refine ⟨(peek ps "&").1, ?_, (peek_fst "&").1.trans hlex⟩
      rw [parsebacks]
      rw [if_neg hseen]
      rfl
  | succ k ih =>
      cases fuel with
      | zero => omega
      | succ fuel =>
        rw [List.replicate_succ, List.cons_append] at hlex
        have hseen : (peek ps "&").2 = true := (peek_next (of_all (by decide))).mpr
          (hlex ▸ (next_one (c := '&'.toUInt8) (by decide) (by decide)).mpr ⟨_, rfl⟩)
        have hop := gettoken_cons ((peek_fst "&").1.trans hlex)
        have hle := peek_le ps "&"
        have hless := hop.less
        obtain ⟨ps', hparse, hlex'⟩ := ih fuel (.back cmd) hop.rest (by omega)
        refine ⟨ps', ?_, hlex'⟩
        rw [parsebacks, if_pos hseen]
        exact hparse

theorem parseargs_complete (fuel : Nat) {args : List Word} {rs : List (Redir Word)} (h : Args ts args rs)
    (argv : List Str) (redirs : List (Redir Str)) (hlex : lex ps = ts ++ rest)
    (hrest : Follows .exec rest) (hfuel : ps.length < fuel)
    (hmax : argv.length + args.length < MAXARGS) :
    ∃ strs new ps', parseargs fuel argv redirs ps = .ok (argv ++ strs, redirs ++ new, ps') ∧
      lex ps' = rest ∧ strs.map Str.spell = args ∧ new.map (Redir.map Str.spell) = rs := by
  induction h generalizing ps argv redirs fuel with
  | nil =>
      obtain ⟨fuel, rfl⟩ := Nat.exists_eq_add_of_lt hfuel
      rw [List.nil_append] at hlex
      rcases hrest with rfl | hrest
      · have hseen : ¬ (peek ps "|)&;").2 = true := fun hseen =>
          not_next_nil (hlex ▸ (peek_next (of_all (by decide))).mp hseen)
        have hget := gettoken_nil ((peek_fst "|)&;").1.trans hlex)
        refine ⟨[], [], [], ?_, by rw [lex.eq_def], rfl, rfl⟩
        rw [parseargs]
        dsimp only
        rw [if_neg hseen, hget, if_pos rfl, List.append_nil, List.append_nil]
      · have hseen : (peek ps "|)&;").2 = true := (peek_next (of_all (by decide))).mpr (hlex ▸ hrest)
        refine ⟨[], [], (peek ps "|)&;").1, ?_, (peek_fst "|)&;").1.trans hlex, rfl, rfl⟩
        rw [parseargs]
        dsimp only
        rw [if_pos hseen, List.append_nil, List.append_nil]
  | @cons arg ts ts' args rs rs' hr h ih =>
      cases fuel with
      | zero => omega
      | succ fuel =>
        rw [List.length_cons] at hmax
        have hseen : ¬ (peek ps "|)&;").2 = true := fun hseen =>
          not_next_word (hlex ▸ (peek_next (of_all (by decide))).mp hseen)
        have hword := gettoken_cons ((peek_fst "|)&;").1.trans hlex)
        have hle := peek_le ps "|)&;"
        have hless := hword.less
        have hrest' : lex (gettoken (peek ps "|)&;").1).ps = ts ++ (ts' ++ rest) :=
          hword.rest.trans (List.append_assoc ts ts' rest)
        obtain ⟨new, ps₁, hredirs, hlex₁, hnew⟩ := parseredirs_complete fuel hr redirs
          hrest' (h.not_next hrest (of_all (by decide))) (by omega)
        obtain ⟨_, _, _, htook, _⟩ := parseredirs_sound hredirs
        have hle₁ := htook.suffix.length_le
        obtain ⟨strs, new', ps', hparse, hlex', hstrs, hnew'⟩ :=
          ih fuel (argv ++ [(gettoken (peek ps "|)&;").1).str]) (redirs ++ new) hlex₁
            (by omega) (by rw [List.length_append]; simp only [List.length_singleton]; omega)
        refine ⟨(gettoken (peek ps "|)&;").1).str :: strs, new ++ new', ps', ?_, hlex', ?_, ?_⟩
        · have hret : (gettoken (peek ps "|)&;").1).ret = 'a'.toUInt8 := hword.ret
          rw [parseargs]
          dsimp only
          rw [if_neg hseen, hret, if_neg (by decide), if_neg (fun h => h rfl), if_neg (by
            rw [List.length_append, List.length_singleton]; omega), hredirs]
          dsimp only
          rw [hparse]
          simp
        · rw [List.map_cons, (hword.word arg rfl).1, hstrs]
        · rw [List.map_append, hnew, hnew']

/-- The parsing function of a part. -/
def Part.parse : Part → Nat → Ptr → Except Stop (Cmd Str × Ptr)
  | .exec => parseexec
  | .pipe => parsepipe
  | .line => parseline

/-- The fuel it takes for a text of this length. -/
def Part.need : Part → Nat → Nat
  | .exec, length => 4 * length + 2
  | .pipe, length => 4 * length + 3
  | .line, length => 4 * length + 4

theorem Part.sound (part : Part) {cmd : Cmd Str} (h : part.parse fuel ps = .ok (cmd, ps')) :
    Parsed part ps cmd ps' := by
  obtain ⟨hline, hpipe, -, hexec⟩ := parse_sound fuel
  cases part with
  | exec => exact hexec h
  | pipe => exact hpipe h
  | line => exact hline h

theorem Part.parse_le (part : Part) {cmd : Cmd Str} (h : part.parse fuel ps = .ok (cmd, ps')) :
    ps'.length ≤ ps.length := by
  obtain ⟨_, _, _, htook, _⟩ := part.sound h
  exact htook.suffix.length_le

/-- One operator is next, and `gettoken` passes it. -/
theorem peek_one (toks : String) {c : UInt8} (htoks : bytes toks = [c]) (hc : c ∈ bytes "|();&<")
    (hlex : lex ps = .op c :: rest) :
    (peek ps toks).2 = true ∧ lex (gettoken (peek ps toks).1).ps = rest ∧
      (gettoken (peek ps toks).1).ps.length < ps.length := by
  obtain ⟨hsymbol, hplain⟩ := (of_all (by decide) : ∀ c ∈ bytes "|();&<", c ∈ symbols ∧ c ∉ bytes ">+") c hc
  have hall : ∀ b ∈ bytes toks, b ∈ symbols := by
    rw [htoks]
    simpa using hsymbol
  have hop := gettoken_cons ((peek_fst toks).1.trans hlex)
  have hle := peek_le ps toks
  have hless := hop.less
  exact ⟨(peek_next hall).mpr (hlex ▸ (next_one htoks hplain).mpr ⟨rest, rfl⟩), hop.rest, by omega⟩

theorem peek_less (toks : String) {c : UInt8} (htoks : bytes toks = [c]) (hc : c ∈ bytes "|();&<")
    (hseen : (peek ps toks).2 = true) : (gettoken (peek ps toks).1).ps.length < ps.length := by
  obtain ⟨hsymbol, hplain⟩ := (of_all (by decide) : ∀ c ∈ bytes "|();&<", c ∈ symbols ∧ c ∉ bytes ">+") c hc
  have hall : ∀ b ∈ bytes toks, b ∈ symbols := by
    rw [htoks]
    simpa using hsymbol
  obtain ⟨ts, hlex⟩ := (next_one htoks hplain).mp ((peek_next hall).mp hseen)
  exact (peek_one toks htoks hc hlex).2.2

theorem peek_not (ps : Ptr) (toks : String) (htoks : ∀ b ∈ bytes toks, b ∈ symbols) (h : ¬ Next toks (lex ps)) :
    (peek ps toks).2 = false :=
  Bool.eq_false_iff.mpr fun hseen => h ((peek_next htoks).mp hseen)

/-- What may come after a pipe that ends `k` times with `&`. -/
theorem follows_backs {k : Nat} (h : Follows .pipe rest) :
    Follows .pipe (List.replicate k (.op '&'.toUInt8) ++ rest) := by
  cases k with
  | zero => exact h
  | succ k => exact Or.inr (next_iff.mpr ⟨_, _, rfl, by decide⟩)

/-- **What the grammar derives is parsed**, if what comes after it may. -/
theorem Derives.parse (fuel : Nat) {part : Part} {cmd : Cmd Word} (h : Derives part ts cmd)
    (hlex : lex ps = ts ++ rest) (hrest : Follows part rest) (hfuel : part.need ps.length ≤ fuel) :
    ∃ c ps', part.parse fuel ps = .ok (c, ps') ∧ lex ps' = rest ∧ c.map Str.spell = cmd := by
  induction h generalizing ps rest fuel with
  | @simple ts ts' args rs rs' hr ha hmax =>
      cases fuel with
      | zero => simp only [Part.need] at hfuel; omega
      | succ fuel =>
        simp only [Part.need] at hfuel
        rw [List.append_assoc] at hlex
        have hparen := peek_not ps "(" (of_all (by decide))
          (hlex ▸ hr.not_next (ha.not_next hrest (of_all (by decide)))
            (of_all (by decide)))
        have hle := peek_le ps "("
        obtain ⟨new, ps₁, hredirs, hlex₁, hnew⟩ := parseredirs_complete fuel hr []
          ((peek_fst "(").1.trans hlex) (ha.not_next hrest (of_all (by decide))) (by omega)
        obtain ⟨_, _, _, htook, _⟩ := parseredirs_sound hredirs
        have hle₁ := htook.suffix.length_le
        obtain ⟨strs, new', ps', hargs, hlex', hstrs, hnew'⟩ := parseargs_complete fuel ha
          [] new hlex₁ hrest (by omega) (by simpa using hmax)
        refine ⟨(Cmd.exec strs).redirect (new ++ new'), ps', ?_, hlex', ?_⟩
        · rw [Part.parse, parseexec]
          rw [List.nil_append] at hredirs hargs
          simp only [hparen, hredirs, hargs, bind, Except.bind]
          rfl
        · rw [map_redirect, List.map_append, hnew, hnew', Cmd.map, hstrs]
  | @block ts ts' cmd rs h hr ih =>
      obtain ⟨fuel, rfl⟩ : ∃ k, fuel = k + 2 := by
        simp only [Part.need] at hfuel
        exact ⟨fuel - 2, by omega⟩
      simp only [Part.need] at hfuel
      rw [List.cons_append, List.append_assoc] at hlex
      have hseen : (peek ps "(").2 = true :=
        (peek_one "(" (c := '('.toUInt8) (by decide) (by decide) hlex).1
      have hle := peek_le ps "("
      obtain ⟨hopen, hlex₁, hless⟩ := peek_one "(" (c := '('.toUInt8) (by decide)
        (by decide) ((peek_fst "(").1.trans hlex)
      obtain ⟨c, ps₁, hline, hlex₂, hc⟩ := ih fuel hlex₁
        (Or.inr (next_iff.mpr ⟨_, _, rfl, by decide⟩)) (by simp only [Part.need]; omega)
      have hle₁ := Part.line.parse_le hline
      obtain ⟨hclose, hlex₃, hless₁⟩ := peek_one ")" (c := ')'.toUInt8) (by decide)
        (by decide) hlex₂
      obtain ⟨new, ps', hredirs, hlex', hnew⟩ := parseredirs_complete fuel hr [] hlex₃
        (hrest.not_next (of_all (by decide))) (by omega)
      refine ⟨c.redirect new, ps', ?_, hlex', by rw [map_redirect, hc, hnew]⟩
      rw [Part.parse] at hline
      rw [List.nil_append] at hredirs
      rw [Part.parse, parseexec]
      simp only [hseen, ↓reduceIte]
      rw [parseblock]
      simp only [hopen, hline, hclose, hredirs, bind, Except.bind]
      rfl
  | @last ts cmd h ih =>
      obtain ⟨fuel, rfl⟩ : ∃ k, fuel = k + 1 := by
        simp only [Part.need] at hfuel
        exact ⟨fuel - 1, by omega⟩
      simp only [Part.need] at hfuel
      obtain ⟨c, ps', hexec, hlex', hc⟩ := ih fuel hlex (hrest.mono (by decide))
        (by simp only [Part.need]; omega)
      have hbar := peek_not ps' "|" (of_all (by decide))
        (hlex' ▸ hrest.not_next (of_all (by decide)))
      refine ⟨c, (peek ps' "|").1, ?_, (peek_fst "|").1.trans hlex', hc⟩
      rw [Part.parse] at hexec
      rw [Part.parse, parsepipe]
      simp only [hexec, hbar, bind, Except.bind]
      rfl
  | @pipe ts ts' left right h h' ih ih' =>
      obtain ⟨fuel, rfl⟩ : ∃ k, fuel = k + 1 := by
        simp only [Part.need] at hfuel
        exact ⟨fuel - 1, by omega⟩
      simp only [Part.need] at hfuel
      rw [List.append_assoc] at hlex
      obtain ⟨c, ps₁, hexec, hlex₁, hc⟩ := ih fuel hlex
        (Or.inr (next_iff.mpr ⟨_, _, rfl, by decide⟩)) (by simp only [Part.need]; omega)
      have hle := Part.exec.parse_le hexec
      obtain ⟨hbar, hlex₂, hless⟩ := peek_one "|" (c := '|'.toUInt8) (by decide)
        (by decide) hlex₁
      obtain ⟨c', ps', hpipe, hlex', hc'⟩ := ih' fuel hlex₂ hrest
        (by simp only [Part.need]; omega)
      refine ⟨.pipe c c', ps', ?_, hlex', by rw [Cmd.map, hc, hc']⟩
      simp only [Part.parse] at hexec hpipe
      rw [Part.parse, parsepipe]
      simp only [hexec, hbar, hpipe, bind, Except.bind]
      rfl
  | @backs ts cmd h k ih =>
      obtain ⟨fuel, rfl⟩ : ∃ k, fuel = k + 1 := by
        simp only [Part.need] at hfuel
        exact ⟨fuel - 1, by omega⟩
      simp only [Part.need] at hfuel
      rw [List.append_assoc] at hlex
      obtain ⟨c, ps₁, hpipe, hlex₁, hc⟩ := ih fuel hlex
        (follows_backs (hrest.mono (by decide))) (by simp only [Part.need]; omega)
      have hle := Part.pipe.parse_le hpipe
      obtain ⟨ps₂, hbacks, hlex₂⟩ := parsebacks_complete fuel k c hlex₁
        (hrest.not_next (of_all (by decide))) (by omega)
      have hsemi := peek_not ps₂ ";" (of_all (by decide))
        (hlex₂ ▸ hrest.not_next (of_all (by decide)))
      refine ⟨c.backs k, (peek ps₂ ";").1, ?_, (peek_fst ";").1.trans hlex₂, by
        rw [map_backs, hc]⟩
      rw [Part.parse] at hpipe
      rw [Part.parse, parseline]
      simp only [hpipe, hbacks, hsemi, bind, Except.bind]
      rfl
  | @list ts ts' left right h k h' ih ih' =>
      obtain ⟨fuel, rfl⟩ : ∃ k, fuel = k + 1 := by
        simp only [Part.need] at hfuel
        exact ⟨fuel - 1, by omega⟩
      simp only [Part.need] at hfuel
      rw [List.append_assoc, List.append_assoc] at hlex
      obtain ⟨c, ps₁, hpipe, hlex₁, hc⟩ := ih fuel hlex
        (follows_backs (Or.inr (next_iff.mpr ⟨_, _, rfl, by decide⟩)))
        (by simp only [Part.need]; omega)
      have hle := Part.pipe.parse_le hpipe
      obtain ⟨ps₂, hbacks, hlex₂⟩ := parsebacks_complete fuel k c hlex₁
        (Next.disjoint (show Next ";" _ from next_iff.mpr ⟨_, _, rfl, by decide⟩)
          (of_all (by decide))) (by omega)
      obtain ⟨_, _, htook⟩ := parsebacks_sound hbacks
      have hle₂ := htook.suffix.length_le
      obtain ⟨hsemi, hlex₃, hless⟩ := peek_one ";" (c := ';'.toUInt8) (by decide)
        (by decide) hlex₂
      obtain ⟨c', ps', hline, hlex', hc'⟩ := ih' fuel hlex₃ hrest
        (by simp only [Part.need]; omega)
      refine ⟨.list (c.backs k) c', ps', ?_, hlex', by rw [Cmd.map, map_backs, hc, hc']⟩
      simp only [Part.parse] at hpipe hline
      rw [Part.parse, parseline]
      simp only [hpipe, hbacks, hsemi, hline, bind, Except.bind]
      rfl

/-! ### The fuel is enough -/

theorem parseredirs_fuel (redirs : List (Redir Str)) (hfuel : ps.length < fuel) :
    parseredirs fuel redirs ps ≠ .error .fuel := by
  induction fuel generalizing ps redirs with
  | zero => omega
  | succ fuel ih =>
      rw [parseredirs]
      dsimp only
      split
      next hseen =>
        split
        · simp
        next hret =>
          rw [not_not] at hret
          obtain ⟨r, ts, hlex, hr⟩ := next_redir.mp ((peek_next (of_all (by decide))).mp hseen)
          obtain ⟨w, ts', hlex', -⟩ := word_of_ret hret
          have hle := peek_le ps "<>"
          have hless := (gettoken_cons ((peek_fst "<>").1.trans hlex)).less
          have hless' := (gettoken_cons hlex').less
          exact ih _ (by omega)
      next => simp

theorem parsebacks_fuel (cmd : Cmd Str) (hfuel : ps.length < fuel) :
    parsebacks fuel cmd ps ≠ .error .fuel := by
  induction fuel generalizing ps cmd with
  | zero => omega
  | succ fuel ih =>
      rw [parsebacks]
      split
      next hseen =>
        have hless := peek_less _ (c := '&'.toUInt8) (by decide) (by decide) hseen
        exact ih _ (by omega)
      next => simp

theorem parseargs_fuel (argv : List Str) (redirs : List (Redir Str)) (hfuel : ps.length < fuel) :
    parseargs fuel argv redirs ps ≠ .error .fuel := by
  induction fuel generalizing ps argv redirs with
  | zero => omega
  | succ fuel ih =>
      rw [parseargs]
      dsimp only
      split
      · simp
      · split
        · simp
        · split
          · simp
          next hword =>
            split
            · simp
            next =>
              rw [not_not] at hword
              obtain ⟨w, ts, hlex, -⟩ := word_of_ret hword
              have hle := peek_le ps "|)&;"
              have hless := (gettoken_cons hlex).less
              split
              next e hredirs =>
                rintro heq
                obtain rfl := Except.error.inj heq
                exact parseredirs_fuel redirs (by omega) hredirs
              next redirs' ps' hredirs =>
                obtain ⟨_, _, _, htook, _⟩ := parseredirs_sound hredirs
                have hle' := htook.suffix.length_le
                exact ih _ _ (by omega)

theorem bind_fuel {α β : Type} {x : Except Stop α} {f : α → Except Stop β}
    (hx : x ≠ .error .fuel) (hf : ∀ a, x = .ok a → f a ≠ .error .fuel) :
    (x >>= f) ≠ .error .fuel := by
  cases x with
  | error e =>
      intro heq
      change Except.error e = _ at heq
      obtain rfl := Except.error.inj heq
      exact hx rfl
  | ok a => exact hf a rfl

/-- **The parser ends** on every text: it takes no more fuel than four times the length and some
more. -/
theorem parse_fuel (fuel : Nat) :
    (∀ {ps : Ptr}, 4 * ps.length + 4 ≤ fuel → parseline fuel ps ≠ .error .fuel) ∧
    (∀ {ps : Ptr}, 4 * ps.length + 3 ≤ fuel → parsepipe fuel ps ≠ .error .fuel) ∧
    (∀ {ps : Ptr}, 4 * ps.length + 1 ≤ fuel → parseblock fuel ps ≠ .error .fuel) ∧
    ∀ {ps : Ptr}, 4 * ps.length + 2 ≤ fuel → parseexec fuel ps ≠ .error .fuel := by
  induction fuel with
  | zero =>
      refine ⟨fun h => ?_, fun h => ?_, fun h => ?_, fun h => ?_⟩ <;> omega
  | succ fuel ih =>
      obtain ⟨ihline, ihpipe, ihblock, ihexec⟩ := ih
      refine ⟨fun {ps} h => ?_, fun {ps} h => ?_, fun {ps} h => ?_, fun {ps} h => ?_⟩
      · rw [parseline]
        refine bind_fuel (ihpipe (by omega)) fun r hpipe => ?_
        have hle := Part.pipe.parse_le hpipe
        refine bind_fuel (parsebacks_fuel _ (by omega)) fun r' hbacks => ?_
        obtain ⟨_, _, htook⟩ := parsebacks_sound hbacks
        have hle' := htook.suffix.length_le
        dsimp only
        split
        next hseen =>
          have hless := peek_less _ (c := ';'.toUInt8) (by decide) (by decide) hseen
          exact bind_fuel (ihline (by omega)) fun r'' _ => by simp
        next => simp
      · rw [parsepipe]
        refine bind_fuel (ihexec (by omega)) fun r hexec => ?_
        have hle := Part.exec.parse_le hexec
        dsimp only
        split
        next hseen =>
          have hless := peek_less _ (c := '|'.toUInt8) (by decide) (by decide) hseen
          exact bind_fuel (ihpipe (by omega)) fun r' _ => by simp
        next => simp
      · rw [parseblock]
        split
        · simp
        next hopen =>
          rw [Bool.not_eq_true', Bool.not_eq_false] at hopen
          have hless := peek_less _ (c := '('.toUInt8) (by decide) (by decide) hopen
          refine bind_fuel (ihline (by omega)) fun r hline => ?_
          have hle := Part.line.parse_le hline
          dsimp only
          split
          · simp
          next hclose =>
            rw [Bool.not_eq_true', Bool.not_eq_false] at hclose
            have hless' := peek_less _ (c := ')'.toUInt8) (by decide) (by decide) hclose
            exact bind_fuel (parseredirs_fuel _ (by omega)) fun r' _ => by simp
      · rw [parseexec]
        have hle := peek_le ps "("
        dsimp only
        split
        · exact ihblock (by omega)
        · refine bind_fuel (parseredirs_fuel _ (by omega)) fun r hredirs => ?_
          obtain ⟨_, _, _, htook, _⟩ := parseredirs_sound hredirs
          have hle' := htook.suffix.length_le
          exact bind_fuel (parseargs_fuel _ _ (by omega)) fun r' _ => by simp

/-! ### The result -/

variable {text : List UInt8}

theorem map_congr {f g : Str → Word} {cmd : Cmd Str} (h : ∀ s ∈ cmd.strs, f s = g s) :
    cmd.map f = cmd.map g := by
  induction cmd with
  | exec argv => exact congrArg Cmd.exec (List.map_congr_left h)
  | redir cmd file mode fd ih =>
      rw [Cmd.map, Cmd.map, ih fun s hs => h s (List.mem_append_left _ hs),
        h file (List.mem_append_right _ List.mem_cons_self)]
  | pipe left right ihl ihr | list left right ihl ihr =>
      rw [Cmd.map, Cmd.map, ihl fun s hs => h s (List.mem_append_left _ hs),
        ihr fun s hs => h s (List.mem_append_right _ hs)]
  | back cmd ih => rw [Cmd.map, Cmd.map, ih h]

/-- What `runcmd` finds are the words. -/
theorem Parsed.strings {part : Part} {c : Cmd Str} (hline : 0 ∉ text)
    (h : Parsed part text c ps') :
    strings text (nulterminate text c text) c = c.map Str.spell := by
  obtain ⟨strs, ts, hstrs, htook, -⟩ := h
  exact map_congr fun s hs =>
    cString_nulterminate hline (fun s hs => htook.strs s (hstrs s hs)) hs

/-- **`parsecmd` accepts the lines of the grammar** and no others, and in the tree that it
returns each string reads as its word.  At every other line it panics. -/
theorem parsecmd_iff (hline : 0 ∉ text) :
    parsecmd text ≠ .error .fuel ∧ ∀ cmd : Cmd Word, Derives .line (lex text) cmd ↔
      ∃ c buf, parsecmd text = .ok (c, buf) ∧ strings text buf c = cmd := by
  constructor
  · unfold parsecmd
    split
    next e hparse =>
      intro heq
      obtain rfl := Except.error.inj heq
      exact (parse_fuel _).1 (Nat.le_refl _) hparse
    next =>
      split <;> simp
  · intro cmd
    unfold parsecmd
    constructor
    · intro h
      obtain ⟨c, ps', hparse, hlex, hc⟩ := h.parse (4 * text.length + 4)
        (List.append_nil (lex text)).symm (Or.inl rfl) (Nat.le_refl _)
      have hend : (peek ps' "").1 = [] := skip_eq_nil hlex
      refine ⟨c, nulterminate text c text, ?_, ?_⟩
      · simp only [Part.parse] at hparse
        simp only [hparse, hend, ne_eq, not_true_eq_false, ↓reduceIte]
      · rw [(Part.line.sound hparse).strings hline, hc]
    · rintro ⟨c, buf, hparse, rfl⟩
      split at hparse
      · cases hparse
      next c' ps' hline' =>
        split at hparse
        · cases hparse
        next hend =>
          obtain ⟨rfl, rfl⟩ := Prod.mk.inj (Except.ok.inj hparse)
          have hsound := Part.line.sound 
            (show Part.line.parse (4 * text.length + 4) text = _ from hline')
          rw [hsound.strings hline]
          obtain ⟨strs, ts, -, htook, hderived⟩ := hsound
          rw [not_not] at hend
          have hnil : lex ps' = [] := by
            rw [← lex_skip]
            change lex (peek ps' "").1 = []
            rw [hend, lex.eq_def]
          rw [htook.read, hnil, List.append_nil]
          exact hderived

/-- The theorem at a pipe in the background. -/
theorem parsecmd_iff_pipe : Derives .line (lex (bytes "ls -l | wc >f &"))
    (.back (.pipe (.exec [bytes "ls", bytes "-l"])
      (.redir (.exec [bytes "wc"]) (bytes "f") 0x601 1))) :=
  ((parsecmd_iff (by decide)).2 _).mpr ⟨_, _, rfl, rfl⟩

end Sh
