import OSN.Lib.Bytes
import OSN.Lib.Words
import OSN.Server.Dictionary

/-!
# From the bytes on the socket to the dictionary

What `WorkerThread` does with whatever `read` returns.  A request is any string
of bytes: its words are extracted one by one, and a word that is not there
leaves the one before it in its place.

An error stands for an exception that nobody catches, or for an access outside
of the buffer or of `dict`; which of them there is does not depend on what the
dictionary holds, so the other workers do not matter.
-/

namespace Server

/-- What brings the server down. -/
inductive Fault where
  /-- `output[index]` -/
  | buffer (index : Int)
  /-- `std::length_error` of `resize`. -/
  | lengthError
  /-- `std::invalid_argument` or `std::out_of_range` of `stoi`. -/
  | stoi (word : String)
  /-- `dict[key]` -/
  | dict (key : Int)
  deriving DecidableEq

/-- `buff_sz`. -/
def buffSz : Nat := 1048576

/-- What `read(fd, &output[0], bytes - 1)` returns, with what it has put into the
buffer. -/
structure Received where
  bytesReceived : Int
  data : List UInt8
  valid : bytesReceived < 0 ∧ data = [] ∨
    bytesReceived = data.length ∧ data.length ≤ buffSz - 1

/-- `output.resize(n)`, to something that is not longer. -/
def resize (output : Nat → UInt8) (n : Int) : Except Fault (List UInt8) :=
  if n < 0 then .error .lengthError else .ok (Bytes.slice output 0 n.toNat)

/-- `read_string_from_socket`, for a buffer of `bytes` bytes. -/
def readStringFromSocket (bytes : Nat) (r : Received) : Except Fault (List UInt8 × Int) := do
  let output := Bytes.splice (fun _ => 0) 0 r.data
  let output ←
    if 0 ≤ r.bytesReceived ∧ r.bytesReceived < bytes then
      pure (Function.update output r.bytesReceived.toNat 0)
    else throw (.buffer r.bytesReceived)
  let output ← resize output r.bytesReceived
  return (output, r.bytesReceived)

/-! ### A request -/

/-- `isspace`. -/
def isspace (c : UInt8) : Bool := c = 32 || (9 ≤ c && c ≤ 13)

/-- Bytes as a string of characters. -/
def text (s : List UInt8) : String := String.ofList (s.map fun c => Char.ofNat c.toNat)

/-- What `strcmp` sees of a string. -/
def cString (s : List UInt8) : List UInt8 := s.takeWhile (· ≠ 0)

/-- "clear" -/
def clearText : List UInt8 := [99, 108, 101, 97, 114]

/-- `stoi`. -/
def toInt (w : String) : Except Fault Int :=
  match stoi w with
  | some n => .ok n
  | none => .error (.stoi w)

/-- `dict[key]`: is it there? -/
def dictAt (key : Int) : Except Fault Key :=
  match index key with
  | some k => .ok k
  | none => .error (.dict key)

/-- What `WorkerThread` does once `type`, `key` and `value` are there. -/
def dispatch (type : String) (key : Int) (value : String) (d : Dict) :
    Except Fault (Dict × List Message) :=
  if type = "insert" then do
    let k ← dictAt key
    return d.handleCommand (.insert k value)
  else if type = "update" then do
    let k ← dictAt key
    return d.handleCommand (.update k value)
  else if type = "fetch" then do
    let k ← dictAt key
    return d.handleCommand (.fetch k)
  else if type = "concat" then do
    let key2 ← toInt value
    let k ← dictAt key
    let k₂ ← dictAt key2
    return d.handleCommand (.concat k k₂)
  else if type = "delete" then do
    let k ← dictAt key
    return d.handleCommand (.delete k)
  else .ok (d, [.tagged "Invalid request"])

/-- What `WorkerThread` does for a request. -/
def handleRequest (request : List UInt8) (d : Dict) : Except Fault (Dict × List Message) :=
  if cString request = clearText then .ok (d.handle .clear)
  else do
    let (word, ss) := Words.extract isspace [] request
    let type := text word
    let (word, ss) := Words.extract isspace word ss
    let key ← toInt (text word)
    let value :=
      if type ≠ "delete" ∧ type ≠ "fetch" then text (Words.extract isspace word ss).1 else ""
    dispatch type key value d

/-- `WorkerThread` for one client. -/
def serve (r : Received) (d : Dict) : Except Fault (Dict × List Message) := do
  let (request, _) ← readStringFromSocket buffSz r
  handleRequest request d

/-! ### What is read -/

variable {r : Received} {d : Dict} {request : List UInt8} {w : String} {key : Int}

/-- **All that was received is the request.** -/
theorem readStringFromSocket_eq (h : 0 ≤ r.bytesReceived) :
    readStringFromSocket buffSz r = .ok (r.data, r.bytesReceived) := by
  obtain ⟨hneg, -⟩ | ⟨hlen, hfits⟩ := r.valid
  · omega
  · have hroom : 0 ≤ r.bytesReceived ∧ r.bytesReceived < (buffSz : Int) := by
      unfold buffSz at *
      omega
    have hnat : r.bytesReceived.toNat = r.data.length := by omega
    have hread : Bytes.slice (Bytes.splice (fun _ => 0) 0 r.data) 0 r.data.length = r.data :=
      Bytes.slice_splice
    have hkept : Bytes.slice (Function.update (Bytes.splice (fun _ => 0) 0 r.data)
        r.data.length 0) 0 r.data.length = r.data := by
      refine Eq.trans (Bytes.slice_congr fun i hi => ?_) hread
      rw [Nat.zero_add, Function.update_of_ne (Nat.ne_of_lt hi)]
    simp [readStringFromSocket, resize, hroom, hnat, hkept, Int.not_lt.mpr h]

/-- A failed `read` writes the byte before the buffer. -/
theorem readStringFromSocket_failed (h : r.bytesReceived < 0) :
    readStringFromSocket buffSz r = .error (.buffer r.bytesReceived) := by
  rw [readStringFromSocket, if_neg fun hrange => Int.not_le.mpr h hrange.1]
  rfl

/-! ### The words of a request -/

/-- `handleRequest` for the words of a request. -/
def handleOthers (words : List String) (d : Dict) : Except Fault (Dict × List Message) := do
  let (type, words) := readWord "" words
  let (word, words) := readWord type words
  let key ← toInt word
  let value := if type ≠ "delete" ∧ type ≠ "fetch" then (readWord word words).1 else ""
  dispatch type key value d

/-- The words of a request, as strings. -/
def requestWords (request : List UInt8) : List String := (Words.words isspace request).map text

theorem readWord_requestWords {w s : List UInt8} : readWord (text w) (requestWords s) =
    (text (Words.extract isspace w s).1, requestWords (Words.extract isspace w s).2) := by
  have hword : (Words.extract isspace w s).1 = (Words.words isspace s).head?.getD w :=
    Words.extract_eq.1
  have hrest : Words.words isspace (Words.extract isspace w s).2 = (Words.words isspace s).tail :=
    Words.extract_eq.2
  rw [requestWords, requestWords, hword, hrest]
  cases Words.words isspace s with
  | nil => rfl
  | cons w' ws => rfl

/-- **Extracting them one by one is the same as having them in a list.** -/
theorem handleRequest_eq (h : cString request ≠ clearText) :
    handleRequest request d = handleOthers (requestWords request) d := by
  have hfirst : readWord "" (requestWords request) = _ := readWord_requestWords (w := [])
  rw [handleRequest, if_neg h, handleOthers, hfirst]
  simp only [readWord_requestWords]

/-! ### Which requests are safe -/

/-- A word that `dict` may be indexed with. -/
def IsKey (w : String) : Prop := ∃ n, stoi w = some n ∧ 0 ≤ n ∧ n < 100

/-- The commands with one key. -/
def keyed : List String := ["insert", "update", "fetch", "delete"]

/-- **The requests that do no harm**, by their words.  After a command there is
its key, and if there is a second word after `concat`, that is a key too.  After
anything else there is an `int`; the only word there is may be one itself. -/
def Safe : List String → Prop
  | [] => False
  | [w] => (stoi w).isSome
  | type :: w :: rest =>
      if type = "concat" then IsKey w ∧ ∀ w₂ ∈ rest.head?, IsKey w₂
      else if type ∈ keyed then IsKey w
      else (stoi w).isSome

theorem index_isSome : (index key).isSome ↔ 0 ≤ key ∧ key < 100 := by
  have hnat : 0 ≤ key ∧ key.toNat < 100 ↔ 0 ≤ key ∧ key < 100 := by omega
  rw [← hnat, index]
  split <;> simp_all

theorem bind_ok_iff {α β : Type} {x : Except Fault α} {f : α → Except Fault β} :
    (∃ b, (x >>= f) = .ok b) ↔ ∃ a, x = .ok a ∧ ∃ b, f a = .ok b := by
  cases x <;> simp [bind, Except.bind]

theorem toInt_ok_iff {n : Int} : toInt w = .ok n ↔ stoi w = some n := by
  rw [toInt]
  cases stoi w <;> simp

/-- An access to `dict` and what follows, if that depends on no key. -/
theorem dictAt_ok_iff {α : Type} {f : Key → Except Fault α} {P : Prop}
    (hf : ∀ k, (∃ a, f k = .ok a) ↔ P) :
    (∃ a, (dictAt key >>= f) = .ok a) ↔ (0 ≤ key ∧ key < 100) ∧ P := by
  simp only [bind_ok_iff, hf]
  rw [← index_isSome, dictAt]
  cases index key <;> simp

theorem dictAt_last_iff {α : Type} {f : Key → α} :
    (∃ a, (dictAt key >>= fun k => pure (f k)) = Except.ok a) ↔ 0 ≤ key ∧ key < 100 := by
  rw [bind_ok_iff, ← index_isSome, dictAt]
  cases index key <;> simp [pure, Except.pure]

theorem dispatch_ok_iff {type value : String} :
    (∃ result, dispatch type key value d = .ok result) ↔
      if type = "concat" then (0 ≤ key ∧ key < 100) ∧ IsKey value
      else if type ∈ keyed then 0 ≤ key ∧ key < 100 else True := by
  by_cases hconcat : type = "concat"
  · subst hconcat
    rw [if_pos rfl]
    have hdispatch : dispatch "concat" key value d = (toInt value >>= fun key2 =>
        dictAt key >>= fun k => dictAt key2 >>= fun k₂ =>
          pure (d.handleCommand (.concat k k₂))) := rfl
    have hkeys : ∀ key2, (∃ result, (dictAt key >>= fun k => dictAt key2 >>= fun k₂ =>
        pure (d.handleCommand (.concat k k₂))) = Except.ok result) ↔
          (0 ≤ key ∧ key < 100) ∧ 0 ≤ key2 ∧ key2 < 100 := by
      intro key2
      exact dictAt_ok_iff fun k => dictAt_last_iff
    rw [hdispatch, bind_ok_iff]
    simp only [hkeys, toInt_ok_iff, IsKey]
    constructor
    · rintro ⟨key2, hvalue, hkey, hkey2⟩
      exact ⟨hkey, key2, hvalue, hkey2⟩
    · rintro ⟨hkey, key2, hvalue, hkey2⟩
      exact ⟨key2, hvalue, hkey, hkey2⟩
  · rw [if_neg hconcat]
    by_cases hkeyed : type ∈ keyed
    · rw [if_pos hkeyed]
      simp only [keyed, List.mem_cons, List.not_mem_nil, or_false] at hkeyed
      rcases hkeyed with rfl | rfl | rfl | rfl
      all_goals exact dictAt_last_iff
    · simp only [keyed, List.mem_cons, List.not_mem_nil, or_false, not_or] at hkeyed
      obtain ⟨hinsert, hupdate, hfetch, hdelete⟩ := hkeyed
      simp [dispatch, hinsert, hupdate, hfetch, hconcat, hdelete, keyed]

/-- A command is no number. -/
theorem stoi_command {type : String} (h : type = "concat" ∨ type ∈ keyed) : stoi type = none := by
  simp only [keyed, List.mem_cons, List.not_mem_nil, or_false] at h
  rcases h with rfl | rfl | rfl | rfl | rfl <;> decide

/-- **Which words are handled without a fault.** -/
theorem handleOthers_ok_iff {words : List String} :
    (∃ result, handleOthers words d = .ok result) ↔ Safe words := by
  cases words with
  | nil =>
      have hempty : stoi "" = none := by decide
      simp [handleOthers, readWord, Safe, toInt, hempty, bind, Except.bind]
  | cons type rest =>
      have hread : handleOthers (type :: rest) d = (toInt (readWord type rest).1 >>= fun key =>
          dispatch type key (if type ≠ "delete" ∧ type ≠ "fetch" then
            (readWord (readWord type rest).1 (readWord type rest).2).1 else "") d) := rfl
      rw [hread, bind_ok_iff]
      simp only [toInt_ok_iff, dispatch_ok_iff]
      cases rest with
      | nil =>
          -- the word is the type and the key
          simp only [readWord, Safe]
          cases hint : stoi type with
          | none => simp
          | some n =>
              have hconcat : type ≠ "concat" := by
                rintro rfl
                simp [stoi_command (Or.inl rfl)] at hint
              have hkeyed : type ∉ keyed := by
                intro hkeyed
                simp [stoi_command (Or.inr hkeyed)] at hint
              simp [hconcat, hkeyed]
      | cons w rest =>
          simp only [readWord, Safe]
          by_cases hconcat : type = "concat"
          · subst hconcat
            have hkey : ∀ P : Prop, (∃ n, stoi w = some n ∧ (0 ≤ n ∧ n < 100) ∧ P) ↔
                IsKey w ∧ P := by
              intro P
              simp only [IsKey, ← and_assoc, exists_and_right]
            simp only [if_pos, hkey]
            cases rest with
            | nil => simp
            | cons w₂ rest => simp
          · simp only [if_neg hconcat]
            by_cases hkeyed : type ∈ keyed
            · simp [hkeyed, IsKey]
            · simp [hkeyed, Option.isSome_iff_exists]

/-- **When a request brings the server down and when it does not.** -/
theorem serve_ok_iff : (∃ result, serve r d = .ok result) ↔
    0 ≤ r.bytesReceived ∧ (cString r.data = clearText ∨ Safe (requestWords r.data)) := by
  by_cases hread : 0 ≤ r.bytesReceived
  · have hserve : serve r d = handleRequest r.data d := by
      rw [serve, readStringFromSocket_eq hread]
      rfl
    rw [hserve]
    by_cases hclear : cString r.data = clearText
    · simp [handleRequest, hread, hclear]
    · rw [handleRequest_eq hclear, handleOthers_ok_iff]
      simp [hread, hclear]
  · have hserve : serve r d = .error (.buffer r.bytesReceived) := by
      rw [serve, readStringFromSocket_failed (Int.not_le.mp hread)]
      rfl
    simp [hserve, hread]

/-- A `read` that fails. -/
def failedRead : Received := ⟨-1, [], Or.inl ⟨by decide, rfl⟩⟩

/-- A `read` that gets these bytes. -/
def received (data : List UInt8) (h : data.length ≤ buffSz - 1) : Received :=
  ⟨data.length, data, Or.inr ⟨rfl, h⟩⟩

/-- "fetch 100" -/
def fetch100 : List UInt8 := [102, 101, 116, 99, 104, 32, 49, 48, 48]

/-- A `read` that fails, a client that has closed its end, a command without a
key, and a key that is too large. -/
theorem serve_faults :
    serve failedRead initial = .error (.buffer (-1)) ∧
    serve (received [] (by decide)) initial = .error (.stoi "") ∧
    serve (received (fetch100.take 5) (by decide)) initial = .error (.stoi "fetch") ∧
    serve (received fetch100 (by decide)) initial = .error (.dict 100) := by
  exact ⟨rfl, rfl, rfl, rfl⟩

/-! ### A request of words -/

theorem toOption_bind {α β : Type} {x : Except Fault α} {f : α → Except Fault β} :
    (x >>= f).toOption = x.toOption.bind fun a => (f a).toOption := by
  cases x <;> rfl

@[simp] theorem toInt_toOption : (toInt w).toOption = stoi w := by
  rw [toInt]
  cases stoi w <;> rfl

theorem dictAt_toOption {α : Type} {f : Key → Except Fault α} :
    (dictAt key >>= f).toOption = (index key).bind fun k => (f k).toOption := by
  rw [toOption_bind, dictAt]
  cases index key <;> rfl

/-- Every byte is a character of its own. -/
theorem text_injective : Function.Injective text := by
  have hbyte : ∀ n : Fin 256, (Char.ofNat n).toNat = n := by decide +kernel
  intro s t h
  refine List.map_injective_iff.mpr (fun c c' hc => ?_) (String.ofList_injective h)
  have hnat := congrArg Char.toNat hc
  rw [hbyte ⟨c.toNat, c.toNat_lt⟩, hbyte ⟨c'.toNat, c'.toNat_lt⟩] at hnat
  exact UInt8.toNat_inj.mp hnat

theorem cString_eq (h : 0 ∉ request) : cString request = request :=
  List.takeWhile_eq_self_iff.mpr fun _ hc => decide_eq_true (ne_of_mem_of_not_mem hc h)

theorem dispatch_toOption {type value : String} : (dispatch type key value d).toOption =
    if type = "insert" then (index key).map fun key => d.handleCommand (.insert key value)
    else if type = "update" then (index key).map fun key => d.handleCommand (.update key value)
    else if type = "fetch" then (index key).map fun key => d.handleCommand (.fetch key)
    else if type = "concat" then
      (readKey value).bind fun key2 =>
        (index key).map fun key => d.handleCommand (.concat key key2)
    else if type = "delete" then (index key).map fun key => d.handleCommand (.delete key)
    else some (d, [.tagged "Invalid request"]) := by
  have hmap : ∀ (n : Int) (f : Key → Dict × List Message),
      (dictAt n >>= fun k => pure (f k)).toOption = (index n).map f := by
    intro n f
    rw [dictAt_toOption]
    cases index n <;> rfl
  unfold dispatch
  split_ifs
  · exact hmap key _
  · exact hmap key _
  · exact hmap key _
  · rw [toOption_bind, toInt_toOption, readKey]
    cases stoi value with
    | none => rfl
    | some n =>
        rw [Option.bind_some, Option.bind_some, dictAt_toOption]
        simp only [hmap]
        cases index key <;> cases index n <;> rfl
  · exact hmap key _
  · rfl

/-- Words with one blank between any two. -/
def line (ws : List (List UInt8)) : List UInt8 := [32].intercalate ws

theorem line_eq_clear {ws : List (List UInt8)} (hws : ∀ w ∈ ws, Words.IsWord isspace w) :
    line ws = clearText ↔ ws.map text = ["clear"] := by
  constructor
  · intro h
    have hwords : Words.words isspace (line ws) = ws := Words.words_intercalate rfl hws
    rw [← hwords, h]
    rfl
  · intro h
    have hone : ws = [clearText] := List.map_injective_iff.mpr text_injective h
    rw [hone]
    rfl

/-- **A request of words is handled as its words are**: as `handleWords` has it,
with a fault where that has nothing. -/
theorem handleRequest_words {ws : List (List UInt8)}
    (hws : ∀ w ∈ ws, Words.IsWord isspace w) (hnul : 0 ∉ line ws) :
    (handleRequest (line ws) d).toOption = handleWords (ws.map text) d := by
  by_cases hclear : ws.map text = ["clear"]
  · have hline := (line_eq_clear hws).mpr hclear
    rw [handleRequest, cString_eq hnul, if_pos hline, handleWords, if_pos hclear]
    rfl
  · have hline := mt (line_eq_clear hws).mp hclear
    have hwords : requestWords (line ws) = ws.map text :=
      congrArg (List.map text) (Words.words_intercalate rfl hws)
    rw [handleRequest_eq (by rwa [cString_eq hnul]), hwords, handleOthers, handleWords,
      if_neg hclear, toOption_bind, toInt_toOption]
    simp only [dispatch_toOption]

end Server
