import OSN.Lib.Run
import Mathlib.Data.Fintype.Basic
import Mathlib.Algebra.Group.Int.Defs

/-!
# The dictionary of the server

`LockedString` with its methods, and what `WorkerThread` does with one request,
when nobody else is at the dictionary: here the mutexes do not matter, and a
method is a function of the slot.  What each method does inside its mutex is a
definition of its own, for the models with many workers.

The dictionary is to be a map from keys to optional strings.  `lookup` reads it
as one, and `Command.apply` says what the commands are to do to that map and
what they are to answer.  The methods agree with it on every slot that is
`Tidy`, which all slots are at first and stay.
-/

namespace Server

/-- An index of `dict`. -/
abbrev Key := Fin 100

/-- `LockedString` without its mutex.  Its `index` is the key itself. -/
structure LockedString where
  str : String := ""
  empty : Bool := true
  deriving DecidableEq

/-- `dict`. -/
abbrev Dict := Key → LockedString

/-! ### The methods of `LockedString` -/

namespace LockedString

/-- Inside the mutex in `UpdateString`. -/
def write (newStr : String) (s : LockedString) : LockedString := { s with str := newStr }

/-- Inside the mutex in `InsertString`. -/
def fill (newStr : String) (s : LockedString) : LockedString :=
  { s with str := newStr, empty := false }

/-- Inside the mutex in `Remove`. -/
def clear (s : LockedString) : LockedString := { s with str := "", empty := true }

/-- `UpdateString`, with its return value. -/
def updateString (newStr : String) (s : LockedString) : Int × LockedString :=
  if s.empty then (-1, s) else (0, s.write newStr)

/-- `InsertString`, with its return value. -/
def insertString (newStr : String) (s : LockedString) : Int × LockedString :=
  if !s.empty then (-1, s) else (0, s.fill newStr)

/-- `GetString`. -/
def getString (s : LockedString) : String := s.str

/-- `isEmpty`. -/
def isEmpty (s : LockedString) : Bool := s.empty

/-- `Remove`, with its return value. -/
def remove (s : LockedString) : Int × LockedString :=
  if s.empty then (-1, s) else (0, s.clear)

end LockedString

namespace Dict

/-- Change one slot. -/
def modify (d : Dict) (k : Key) (f : LockedString → LockedString) : Dict :=
  Function.update d k (f (d k))

/-- `s = this->str; this->str += other.str; other.str += s;` -/
def join (d : Dict) (k k₂ : Key) : Dict :=
  let s := (d k).str
  let d := d.modify k fun this => this.write (this.str ++ (d k₂).str)
  d.modify k₂ fun other => other.write (other.str ++ s)

/-- Inside the mutexes in `concat`, on its three branches. -/
def splice (d : Dict) (k k₂ : Key) : Dict :=
  if k < k₂ then d.join k k₂
  else if k₂ < k then d.join k k₂
  else d.modify k fun this => this.write (this.str ++ this.str)

/-- `dict[k].concat(dict[k₂])`, with its return value. -/
def concat (d : Dict) (k k₂ : Key) : Int × Dict :=
  if (d k₂).isEmpty then (-1, d)
  else if (d k).empty then (-1, d)
  else (0, d.splice k k₂)

/-- The loop of the request `clear`. -/
def clearAll (d : Dict) : Dict :=
  (List.finRange 100).foldl (fun d i => d.modify i fun s => s.remove.2) d

end Dict

/-- The dictionary at first. -/
def initial : Dict := fun _ => {}

/-! ### Requests -/

/-- A request about single keys. -/
inductive Command where
  | insert (k : Key) (v : String)
  | update (k : Key) (v : String)
  | fetch (k : Key)
  | concat (k k₂ : Key)
  | delete (k : Key)
  deriving DecidableEq

/-- A well-formed request. -/
inductive Request where
  | command (c : Command)
  | clear
  deriving DecidableEq

/-- What is written to the socket: by `SenderWrapper` after the thread id, or
as it stands. -/
inductive Message where
  | tagged (s2 : String)
  | plain (s : String)
  deriving DecidableEq

/-- `SenderWrapper`: the text it sends. -/
def senderWrapper (s1 s2 : String) : String := s1 ++ " : " ++ s2

/-- The text on the socket. -/
def Message.text (threadId : String) : Message → String
  | .tagged s2 => senderWrapper threadId s2
  | .plain s => s

namespace Dict

/-- What `WorkerThread` does for a command, and the messages it sends. -/
def handleCommand (d : Dict) : Command → Dict × List Message
  | .insert k v =>
      let r := (d k).insertString v
      (Function.update d k r.2,
        if r.1 = -1 then [.tagged "Key already exists"] else [.tagged "Insertion successful"])
  | .update k v =>
      let r := (d k).updateString v
      let d := Function.update d k r.2
      (d, if r.1 = -1 then [.tagged "Key does not exist"] else [.tagged (d k).getString])
  | .fetch k =>
      (d, if (d k).isEmpty then [.tagged "Key does not exist"] else [.tagged (d k).getString])
  | .concat k k₂ =>
      let r := d.concat k k₂
      (r.2,
        if r.1 = -1 then [.tagged "Concat failed as at least one of the keys does not exist"]
        else [.tagged (r.2 k₂).getString])
  | .delete k =>
      (Function.update d k (d k).remove.2,
        if (d k).isEmpty then [.tagged "No such key exists"] else [])

/-- The same for any request. -/
def handle (d : Dict) : Request → Dict × List Message
  | .command c => d.handleCommand c
  | .clear => (d.clearAll, [.plain "cleared"])

end Dict

/-! ### From the words of a request -/

/-- `stoi`: an optional sign and as many digits as there are; it throws where
there is no digit or the number is no `int`. -/
def stoi (w : String) : Option Int :=
  let (negative, digits) := match w.toList with
    | '-' :: cs => (true, cs.takeWhile Char.isDigit)
    | '+' :: cs => (false, cs.takeWhile Char.isDigit)
    | cs => (false, cs.takeWhile Char.isDigit)
  if digits = [] then none
  else
    let n : Int := digits.foldl (fun n c => 10 * n + (c.toNat - '0'.toNat : Nat)) (0 : Nat)
    let n := if negative then -n else n
    if -2 ^ 31 ≤ n ∧ n < 2 ^ 31 then some n else none

/-- `ss >> word`, where `words` is what is left: at the end `word` stays as it
was. -/
def readWord (word : String) : List String → String × List String
  | [] => (word, [])
  | w :: words => (w, words)

/-- An `int` as an index of `dict`. -/
def index (n : Int) : Option Key :=
  if h : 0 ≤ n ∧ n.toNat < 100 then some ⟨n.toNat, h.2⟩ else none

/-- `stoi`, as an index of `dict`. -/
def readKey (w : String) : Option Key := (stoi w).bind index

/-- What `WorkerThread` does for a request that consists of the given words with
one blank between any two.  None where it throws or leaves the bounds of `dict`. -/
def handleWords (words : List String) (d : Dict) : Option (Dict × List Message) :=
  if words = ["clear"] then some (d.handle .clear)
  else
    let (type, words) := readWord "" words
    let (word, words) := readWord type words
    (stoi word).bind fun key =>
      let value := if type ≠ "delete" ∧ type ≠ "fetch" then (readWord word words).1 else ""
      if type = "insert" then (index key).map fun key => d.handleCommand (.insert key value)
      else if type = "update" then (index key).map fun key => d.handleCommand (.update key value)
      else if type = "fetch" then (index key).map fun key => d.handleCommand (.fetch key)
      else if type = "concat" then
        (readKey value).bind fun key2 =>
          (index key).map fun key => d.handleCommand (.concat key key2)
      else if type = "delete" then (index key).map fun key => d.handleCommand (.delete key)
      else some (d, [.tagged "Invalid request"])

/-- `WorkerThread` on one request: the dictionary after it and what it has
written to the socket. -/
def workerThread (threadId : String) (words : List String) (d : Dict) :
    Option (Dict × List String) :=
  (handleWords words d).map fun r => (r.1, r.2.map (Message.text threadId))

/-- The words of a well-formed request. -/
def Request.words : Request → List String
  | .command (.insert k v) => ["insert", toString k.val, v]
  | .command (.update k v) => ["update", toString k.val, v]
  | .command (.fetch k) => ["fetch", toString k.val]
  | .command (.concat k k₂) => ["concat", toString k.val, toString k₂.val]
  | .command (.delete k) => ["delete", toString k.val]
  | .clear => ["clear"]

/-- A key is read as it was written. -/
theorem stoi_repr (k : Key) : stoi k.val.repr = some (k.val : Int) := by
  have hall : ∀ k : Fin 100, stoi k.val.repr = some (k.val : Int) := by decide
  exact hall k

@[simp] theorem index_natCast (k : Key) : index (k.val : Int) = some k := by
  have hlt : k.val < 100 := k.isLt
  simp [index, hlt]

theorem readKey_repr (k : Key) : readKey k.val.repr = some k := by
  rw [readKey, stoi_repr, Option.bind_some, index_natCast]

/-- **A well-formed request is read as what it is.** -/
theorem handleWords_words (r : Request) (d : Dict) : handleWords r.words d = some (d.handle r) := by
  cases r with
  | clear => rfl
  | command c =>
      cases c with
      | insert k v | update k v | fetch k | concat k k₂ | delete k =>
          simp [handleWords, Request.words, readWord, stoi_repr, readKey_repr, Dict.handle]

/-! ### The map that the dictionary is to be -/

/-- The reference: at most one string for each key. -/
abbrev Contents := Key → Option String

/-- What a command comes to. -/
inductive Outcome where
  | failed
  | done
  /-- Done, and this is to be answered. -/
  | value (s : String)
  deriving DecidableEq

/-- What a command is to do. -/
def Command.apply (m : Contents) : Command → Contents × Outcome
  | .insert k v =>
      match m k with
      | some _ => (m, .failed)
      | none => (Function.update m k (some v), .done)
  | .update k v =>
      match m k with
      | some _ => (Function.update m k (some v), .value v)
      | none => (m, .failed)
  | .fetch k =>
      match m k with
      | some s => (m, .value s)
      | none => (m, .failed)
  | .concat k k₂ =>
      match m k, m k₂ with
      | some s, some s₂ =>
          if k = k₂ then (Function.update m k (some (s ++ s)), .value (s ++ s))
          else
            (Function.update (Function.update m k (some (s ++ s₂))) k₂ (some (s₂ ++ s)),
              .value (s₂ ++ s))
      | _, _ => (m, .failed)
  | .delete k =>
      match m k with
      | some _ => (Function.update m k none, .done)
      | none => (m, .failed)

/-- What a request is to do. -/
def Request.apply (m : Contents) : Request → Contents × Outcome
  | .command c => c.apply m
  | .clear => (fun _ => none, .done)

/-- How the server words a failure. -/
def Command.failure : Command → String
  | .insert _ _ => "Key already exists"
  | .update _ _ | .fetch _ => "Key does not exist"
  | .concat _ _ => "Concat failed as at least one of the keys does not exist"
  | .delete _ => "No such key exists"

/-- The messages by which the server answers a command; a `delete` that is done
is not answered. -/
def Command.answer (c : Command) : Outcome → List Message
  | .failed => [.tagged c.failure]
  | .value s => [.tagged s]
  | .done =>
      match c with
      | .insert _ _ => [.tagged "Insertion successful"]
      | _ => []

/-! ### The dictionary is that map -/

/-- What an empty slot looks like. -/
def LockedString.Tidy (s : LockedString) : Prop := s.empty = true → s.str = ""

/-- All slots are. -/
def Dict.Tidy (d : Dict) : Prop := ∀ k, (d k).Tidy

/-- The string of a slot, if it has one. -/
def LockedString.lookup (s : LockedString) : Option String :=
  if s.empty then none else some s.str

/-- The dictionary as a map. -/
def Dict.lookup (d : Dict) : Contents := fun k => (d k).lookup

namespace Dict

variable {d : Dict} {k k₂ : Key} {s : LockedString} {f : LockedString → LockedString}

theorem lookup_update (d : Dict) (k : Key) (s : LockedString) :
    lookup (Function.update d k s) = Function.update d.lookup k s.lookup := by
  funext j
  by_cases hj : j = k
  · subst hj
    simp [lookup]
  · simp [lookup, hj]

theorem lookup_of_empty (h : (d k).empty = true) : d.lookup k = none := by
  simp [lookup, LockedString.lookup, h]

theorem lookup_of_not_empty (h : (d k).empty = false) : d.lookup k = some (d k).str := by
  simp [lookup, LockedString.lookup, h]

theorem tidy_initial : initial.Tidy := fun _ _ => rfl

theorem Tidy.update (hd : d.Tidy) (hs : s.Tidy) : Dict.Tidy (Function.update d k s) := by
  intro j
  by_cases hj : j = k
  · subst hj
    simpa using hs
  · simpa [hj] using hd j

/-- What is not empty is tidy. -/
theorem tidy_of_not_empty (h : s.empty = false) : s.Tidy := fun h' => by simp [h] at h'

theorem tidy_clear (s : LockedString) : s.clear.Tidy := fun _ => rfl

theorem lookup_clear (s : LockedString) : s.clear.lookup = none := rfl

/-- A slot cannot be removed twice. -/
theorem lookup_remove (s : LockedString) : s.remove.2.lookup = none := by
  cases h : s.empty <;> simp [LockedString.remove, LockedString.lookup, LockedString.clear, h]

/-- A loop that changes each slot of a list once. -/
theorem foldl_modify {f : LockedString → LockedString} {ks : List Key} (hnodup : ks.Nodup)
    (d : Dict) :
    ks.foldl (fun d k => d.modify k f) d = fun k => if k ∈ ks then f (d k) else d k := by
  induction ks generalizing d with
  | nil => simp
  | cons i ks ih =>
      obtain ⟨hi, hks⟩ := List.nodup_cons.mp hnodup
      rw [List.foldl_cons, ih hks]
      funext k
      by_cases hk : k = i
      · subst hk
        simp [hi, modify]
      · simp [hk, modify]

/-- The request `clear` removes every slot. -/
theorem clearAll_eq (d : Dict) : d.clearAll = fun k => (d k).remove.2 := by
  rw [clearAll, foldl_modify (List.nodup_finRange 100)]
  simp

/-- Inside the mutexes of `concat`: both strings are appended to each other. -/
theorem splice_of_ne (hne : k ≠ k₂) (d : Dict) :
    d.splice k k₂ = Function.update
      (Function.update d k ((d k).write ((d k).str ++ (d k₂).str)))
      k₂ ((d k₂).write ((d k₂).str ++ (d k).str)) := by
  have hjoin : d.splice k k₂ = d.join k k₂ := by
    rcases lt_or_gt_of_ne hne with hlt | hgt
    · exact if_pos hlt
    · rw [splice, if_neg (lt_asymm hgt), if_pos hgt]
  rw [hjoin]
  simp [join, modify, Function.update_of_ne hne.symm]

/-- With one slot twice, its string is doubled. -/
theorem splice_self (d : Dict) :
    d.splice k k = Function.update d k ((d k).write ((d k).str ++ (d k).str)) := by
  simp [splice, modify]

@[simp] theorem write_str {v : String} : (s.write v).str = v := rfl

theorem lookup_write {v : String} (h : s.empty = false) : (s.write v).lookup = some v := by
  simp [LockedString.write, LockedString.lookup, h]

theorem lookup_fill (s : LockedString) (v : String) : (s.fill v).lookup = some v := rfl

/-- What `concat` does to the map. -/
theorem lookup_splice (hk : (d k).empty = false) (hk₂ : (d k₂).empty = false) :
    (d.splice k k₂).lookup = (Command.apply d.lookup (.concat k k₂)).1 ∧
      (Command.apply d.lookup (.concat k k₂)).2 = .value (d.splice k k₂ k₂).str := by
  by_cases hne : k = k₂
  · subst hne
    rw [splice_self, lookup_update, lookup_write hk]
    simp [Command.apply, lookup_of_not_empty hk]
  · rw [splice_of_ne hne, lookup_update, lookup_update, lookup_write hk, lookup_write hk₂]
    simp [Command.apply, lookup_of_not_empty hk, lookup_of_not_empty hk₂, hne]

theorem tidy_splice (hd : d.Tidy) (hk : (d k).empty = false) (hk₂ : (d k₂).empty = false) :
    (d.splice k k₂).Tidy := by
  have hwrite : ∀ {j} v, (d j).empty = false → ((d j).write v).Tidy :=
    fun v hj => tidy_of_not_empty hj
  by_cases hne : k = k₂
  · subst hne
    rw [splice_self]
    exact hd.update (hwrite _ hk)
  · rw [splice_of_ne hne]
    exact (hd.update (hwrite _ hk)).update (hwrite _ hk₂)

end Dict

/-- **A command does what it is to do**, and says so. -/
theorem handleCommand_eq (d : Dict) (c : Command) :
    (d.handleCommand c).1.lookup = (c.apply d.lookup).1 ∧
      (d.handleCommand c).2 = c.answer (c.apply d.lookup).2 := by
  cases c with
  | insert k v =>
      cases hk : (d k).empty with
      | true =>
          have hlookup := Dict.lookup_of_empty hk
          simp [Dict.handleCommand, LockedString.insertString, hk, Command.apply, hlookup,
            Command.answer, Dict.lookup_update, Dict.lookup_fill]
      | false =>
          have hlookup := Dict.lookup_of_not_empty hk
          simp [Dict.handleCommand, LockedString.insertString, hk, Command.apply, hlookup,
            Command.answer, Command.failure]
  | update k v =>
      cases hk : (d k).empty with
      | true =>
          have hlookup := Dict.lookup_of_empty hk
          simp [Dict.handleCommand, LockedString.updateString, hk, Command.apply, hlookup,
            Command.answer, Command.failure]
      | false =>
          have hlookup := Dict.lookup_of_not_empty hk
          simp [Dict.handleCommand, LockedString.updateString, hk, Command.apply, hlookup,
            Command.answer, Dict.lookup_update, Dict.lookup_write hk, LockedString.getString]
  | fetch k =>
      cases hk : (d k).empty with
      | true =>
          have hlookup := Dict.lookup_of_empty hk
          simp [Dict.handleCommand, LockedString.isEmpty, hk, Command.apply, hlookup,
            Command.answer, Command.failure]
      | false =>
          have hlookup := Dict.lookup_of_not_empty hk
          simp [Dict.handleCommand, LockedString.isEmpty, hk, Command.apply, hlookup,
            Command.answer, LockedString.getString]
  | concat k k₂ =>
      cases hk₂ : (d k₂).empty with
      | true =>
          have hlookup := Dict.lookup_of_empty hk₂
          cases hk : d.lookup k <;>
            simp [Dict.handleCommand, Dict.concat, LockedString.isEmpty, hk₂, Command.apply,
              hlookup, hk, Command.answer, Command.failure]
      | false =>
          cases hk : (d k).empty with
          | true =>
              have hlookup := Dict.lookup_of_empty hk
              simp [Dict.handleCommand, Dict.concat, LockedString.isEmpty, hk₂, hk, Command.apply,
                hlookup, Command.answer, Command.failure]
          | false =>
              obtain ⟨hsplice, hvalue⟩ := Dict.lookup_splice hk hk₂
              have hhandle : d.handleCommand (.concat k k₂) =
                  (d.splice k k₂, [.tagged (d.splice k k₂ k₂).str]) := by
                simp [Dict.handleCommand, Dict.concat, LockedString.isEmpty, hk₂, hk,
                  LockedString.getString]
              rw [hhandle, hvalue]
              exact ⟨hsplice, rfl⟩
  | delete k =>
      cases hk : (d k).empty with
      | true =>
          have hlookup := Dict.lookup_of_empty hk
          simp [Dict.handleCommand, LockedString.remove, LockedString.isEmpty, hk, Command.apply,
            hlookup, Command.answer, Command.failure]
      | false =>
          have hlookup := Dict.lookup_of_not_empty hk
          simp [Dict.handleCommand, LockedString.remove, LockedString.isEmpty, hk, Command.apply,
            hlookup, Command.answer, Dict.lookup_update, Dict.lookup_clear]

/-- **Every request does to the map what it is to do.** -/
theorem handle_lookup (d : Dict) (r : Request) : (d.handle r).1.lookup = (r.apply d.lookup).1 := by
  cases r with
  | command c => exact (handleCommand_eq d c).1
  | clear =>
      funext k
      show (d.clearAll k).lookup = none
      rw [Dict.clearAll_eq]
      exact Dict.lookup_remove (d k)

/-! ### One request after another -/

/-- The server when requests are handled one after another, each by some worker
thread. -/
def serving : Machine Dict (String × Request) where
  init d := d = initial
  step d e := (workerThread e.1 e.2.words d).map Prod.fst

/-- The reference after the requests of a past. -/
def reference : Past Dict (String × Request) → Contents
  | [] => fun _ => none
  | (_, e) :: past => (e.2.apply (reference past)).1

/-- A message tells what a request came to. -/
def Message.Carries (r : Request) (o : Outcome) (m : Message) : Prop :=
  match o with
  | .failed => ∃ c, r = .command c ∧ m = .tagged c.failure
  | .value s => m = .tagged s
  | .done => ∀ c, r = .command c → m ≠ .tagged c.failure

/-- The request is answered with exactly one message, and the right one. -/
def AnsweredOnce (d : Dict) (e : String × Request) : Prop :=
  ∃ d' m, workerThread e.1 e.2.words d = some (d', [Message.text e.1 m]) ∧
    m.Carries e.2 (e.2.apply d.lookup).2

/-- The request deletes no key that exists. -/
def DeletesNone (d : Dict) (e : String × Request) : Prop :=
  ∀ k, e.2 = .command (.delete k) → (d k).empty = true

instance (d : Dict) (e : String × Request) : Decidable (DeletesNone d e) := by
  unfold DeletesNone
  infer_instance

variable {past : Past Dict (String × Request)} {d : Dict} {e : String × Request}

theorem workerThread_eq (d : Dict) (e : String × Request) :
    workerThread e.1 e.2.words d =
      some ((d.handle e.2).1, (d.handle e.2).2.map (Message.text e.1)) := by
  rw [workerThread, handleWords_words]
  rfl

/-- The dictionary is the reference map after every sequence of requests. -/
theorem serving_lookup (run : Run serving past d) : d.lookup = reference past := by
  refine run.invariant (P := fun past d => d.lookup = reference past) (fun d hd => ?_)
    fun past d e t _ hlookup hstep => ?_
  · obtain rfl : d = initial := hd
    rfl
  · obtain rfl : (d.handle e.2).1 = t := by
      simpa [serving, workerThread_eq] using hstep
    rw [handle_lookup, hlookup]
    rfl

/-- What a command answers, other than a `delete` that is done, is one message
that tells what it came to. -/
theorem answer_carries (m : Contents) (c : Command)
    (h : ∀ k, c = .delete k → m k = none) :
    ∃ a, c.answer (c.apply m).2 = [a] ∧ a.Carries (.command c) (c.apply m).2 := by
  cases c with
  | insert k v =>
      cases hk : m k <;> simp [Command.apply, hk, Command.answer, Message.Carries, Command.failure]
  | update k v =>
      cases hk : m k <;> simp [Command.apply, hk, Command.answer, Message.Carries, Command.failure]
  | fetch k =>
      cases hk : m k <;> simp [Command.apply, hk, Command.answer, Message.Carries, Command.failure]
  | concat k k₂ =>
      cases hk : m k <;> cases hk₂ : m k₂ <;> by_cases hne : k = k₂ <;>
        simp [Command.apply, hk, hk₂, hne, Command.answer, Message.Carries, Command.failure]
  | delete k => simp [Command.apply, h k rfl, Command.answer, Message.Carries, Command.failure]

/-- **When a request is answered once**: unless it deletes a key that exists. -/
theorem answeredOnce_iff (d : Dict) (e : String × Request) :
    AnsweredOnce d e ↔ DeletesNone d e := by
  obtain ⟨threadId, r⟩ := e
  constructor
  · intro hall k hr
    obtain ⟨d', m, hreply, -⟩ := hall
    obtain rfl : r = .command (.delete k) := hr
    rw [workerThread_eq] at hreply
    cases hk : (d k).empty with
    | true => rfl
    | false => simp [Dict.handle, Dict.handleCommand, LockedString.isEmpty, hk] at hreply
  · intro hnone
    cases r with
    | clear =>
        refine ⟨d.clearAll, .plain "cleared", ?_, nofun⟩
        rw [workerThread_eq]
        rfl
    | command c =>
        obtain ⟨a, hanswer, hcarries⟩ := answer_carries d.lookup c fun k hc =>
          Dict.lookup_of_empty (hnone k (congrArg Request.command hc))
        refine ⟨(d.handleCommand c).1, a, ?_, hcarries⟩
        rw [workerThread_eq, Dict.handle, (handleCommand_eq d c).2, hanswer]
        rfl

/-- After each request the dictionary is the reference map, and the request is
answered with exactly one message, the right one. -/
def ServesDictionary (past : Past Dict (String × Request)) (d : Dict) : Prop :=
  Machine.StepsMeet (fun past d e => d.lookup = reference past ∧ AnsweredOnce d e) past ∧
    d.lookup = reference past

/-- **When the server implements a dictionary with one reply per request.**  For
every sequence of well-formed requests, handled one after another by any
workers: the dictionary equals the reference map after each of them, and each
is answered exactly once and rightly, if and only if none of them deletes a
key that exists. -/
theorem servesDictionary_iff (run : Run serving past d) :
    ServesDictionary past d ↔ Machine.StepsMeet (fun _ => DeletesNone) past := by
  constructor
  · intro hserves
    obtain ⟨hsteps, -⟩ := hserves
    exact hsteps.mono fun _ d e hstep => (answeredOnce_iff d e).mp hstep.2
  · intro hnone
    refine ⟨?_, serving_lookup run⟩
    induction run with
    | init => trivial
    | step run h ih =>
        exact ⟨⟨serving_lookup run, (answeredOnce_iff _ _).mpr hnone.1⟩, ih hnone.2⟩

/-- The theorem at two inserts and a `concat` of both. -/
theorem servesDictionary_iff_concat : ∃ past d, Run serving past d ∧
    (d.lookup 1 = some "ab" ∧ d.lookup 2 = some "ba") ∧ ServesDictionary past d := by
  obtain ⟨past, d, run, hconcat, hnone⟩ := Machine.exists_run_of_trace (M := serving) rfl
    [("7", .command (.insert 1 "a")), ("8", .command (.insert 2 "b")),
      ("7", .command (.concat 1 2))]
    (fun past d => (d.lookup 1 = some "ab" ∧ d.lookup 2 = some "ba") ∧
      Machine.StepsMeet (fun _ => DeletesNone) past) (by decide)
  exact ⟨past, d, run, hconcat, (servesDictionary_iff run).mpr hnone⟩

/-- A `delete` of a key that exists is not answered at all. -/
theorem delete_unanswered : ¬ ∀ past d, Run serving past d → ServesDictionary past d := by
  intro h
  obtain ⟨past, d, run, hsent⟩ := Machine.exists_run_of_trace (M := serving) rfl
    [("7", .command (.insert 5 "a")), ("7", .command (.delete 5))]
    (fun past _ => past.head?.any fun x =>
      (workerThread x.2.1 x.2.2.words x.1).any fun r => r.2 = []) (by decide)
  cases past with
  | nil => simp at hsent
  | cons x past =>
      obtain ⟨u, e⟩ := x
      obtain ⟨⟨-, d', m, hreply, -⟩, -⟩ := (h _ d run).1
      simp [hreply] at hsent

end Server
