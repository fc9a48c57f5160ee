import OSN.Server.Parsing

/-!
# The client

`main` of `client.cpp` reads a line for each request, `get_pair` cuts it into
the delay and the text of the request, and a thread waits for the delay and
sends the text.  The cut is at fixed places: the delay is the first character
of the line and the text begins at the third.
-/

namespace Server

/-- The bytes of a C string: there is no NUL among them. -/
abbrev CText := { s : List UInt8 // 0 ∉ s }

/-- A C string in memory. -/
def CText.stored (s : CText) : List UInt8 := s.val ++ [0]

/-- `isdigit`. -/
def isdigit (c : UInt8) : Bool := 48 ≤ c && c ≤ 57

/-- The number that the digits at the beginning of a text make. -/
def readDigits (s : List UInt8) : Int :=
  (s.takeWhile isdigit).foldl (fun n c => 10 * n + (c.toNat - 48 : Nat)) 0

/-- `atoi`, where the number fits. -/
def atoi (s : List UInt8) : Int :=
  match (cString s).dropWhile isspace with
  | [] => 0
  | c :: rest =>
      -- '-' and '+'
      if c = 45 then -readDigits rest
      else if c = 43 then readDigits rest
      else readDigits (c :: rest)

/-- The loop of `get_pair`: `push_back` up to the NUL, if there is one. -/
def pushBack : List UInt8 → Option (List UInt8)
  | [] => none
  | c :: rest => if c = 0 then some [] else (pushBack rest).map (c :: ·)

/-- `get_pair`, given the memory from `s` on; `none` where it reads past its end. -/
def getPair (s : List UInt8) : Option (List UInt8 × Int) :=
  match s with
  | [] => none
  | c :: _ =>
      let time := [c, 0]
      let i := atoi time
      (pushBack (s.drop 2)).map fun s1 => (s1, i)

/-- What a thread of the client does. -/
inductive Act where
  | sleep (seconds : Nat)
  | connect
  | write (s : List UInt8)
  | read
  deriving DecidableEq

/-- `thread_handler`.  `sleep` takes an `unsigned`. -/
def threadHandler (p : List UInt8 × Int) : List Act :=
  let delay := p.2
  let s := p.1
  [.sleep (delay % 2 ^ 32).toNat, .connect, .write s, .read]

/-- The decimal digits of a number. -/
def decimal (d : Nat) : List UInt8 := d.repr.toList.map fun c => UInt8.ofNat c.toNat

/-- The line of a request: the delay, a space and the text. -/
def requestLine (d : Nat) (r : CText) : List UInt8 := decimal d ++ 32 :: r.stored

/-- **A request line is parsed**: `get_pair` finds the delay and the text, and the
thread waits for so many seconds and sends just the text. -/
def ParsesLine (d : Nat) (r : CText) : Prop :=
  getPair (requestLine d r) = some (r.val, (d : Int)) ∧
    (getPair (requestLine d r)).map threadHandler =
      some [.sleep d, .connect, .write r.val, .read]

instance (d : Nat) (r : CText) : Decidable (ParsesLine d r) := by
  unfold ParsesLine
  infer_instance

/-- The loop stops at the NUL of a C string. -/
theorem pushBack_stored (r : CText) : pushBack r.stored = some r.val := by
  obtain ⟨s, hs⟩ := r
  unfold CText.stored
  induction s with
  | nil => rfl
  | cons c s ih =>
      have hc : c ≠ 0 := fun hzero => hs (hzero ▸ List.mem_cons_self)
      have hrest : 0 ∉ s := fun hmem => hs (List.mem_cons_of_mem c hmem)
      simp only [List.cons_append, pushBack, hc, if_false]
      rw [ih hrest]
      rfl

/-- One character makes no number above nine. -/
theorem atoi_single_le (c : UInt8) : atoi [c, 0] ≤ 9 := by
  have hall : ∀ n : Fin 256, atoi [UInt8.ofNat n.val, 0] ≤ 9 := by decide +kernel
  have hc := hall ⟨c.toNat, c.toNat_lt⟩
  rwa [UInt8.ofNat_toNat] at hc

/-- The digits of a number below ten are one character. -/
theorem decimal_of_lt {d : Nat} (h : d < 10) : decimal d = [UInt8.ofNat (48 + d)] := by
  have hall : ∀ d : Fin 10, decimal d.val = [UInt8.ofNat (48 + d.val)] := by decide
  exact hall ⟨d, h⟩

theorem getPair_of_lt {d : Nat} (h : d < 10) (r : CText) :
    getPair (requestLine d r) = some (r.val, (d : Int)) := by
  have hnumber : ∀ d : Fin 10, atoi [UInt8.ofNat (48 + d.val), 0] = (d.val : Int) := by decide
  simp only [requestLine, decimal_of_lt h, List.singleton_append, getPair, List.drop_succ_cons,
    List.drop_zero, pushBack_stored]
  rw [hnumber ⟨d, h⟩]
  rfl

/-- Whatever the line, the delay is at most nine. -/
theorem getPair_delay_le {s s1 : List UInt8} {i : Int} (h : getPair s = some (s1, i)) : i ≤ 9 := by
  cases s with
  | nil => cases h
  | cons c rest =>
      simp only [getPair, Option.map_eq_some_iff] at h
      obtain ⟨_, _, heq⟩ := h
      rw [← (Prod.mk.inj heq).2]
      exact atoi_single_le c

/-- **When the client parses a request line.**  Just when the delay has one digit. -/
theorem parsesLine_iff (d : Nat) (r : CText) : ParsesLine d r ↔ d < 10 := by
  constructor
  · intro hparses
    have hle := getPair_delay_le hparses.1
    omega
  · intro hlt
    have hpair := getPair_of_lt hlt r
    refine ⟨hpair, ?_⟩
    have hdelay : ((d : Int) % 2 ^ 32).toNat = d := by omega
    rw [hpair]
    simp only [Option.map_some, threadHandler, hdelay]

/-- "12 a": the thread waits for one second and sends " a". -/
theorem parses_twelve : ¬ ∀ d r, ParsesLine d r := by
  intro hall
  have hline := hall 12 ⟨[97], by decide⟩
  revert hline
  decide

end Server
