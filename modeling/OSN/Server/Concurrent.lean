import OSN.Server.Dictionary
import OSN.Lib.Linearizable

/-!
# Many workers at the dictionary

`WorkerThread` on one command, step by step: each read of `empty` outside the
mutexes is a step, and so is each section inside one.  Any number of workers
step in any order.  What is read only to be printed is left out.

Alone, a command does what the methods do (`alone_start`).  What the clients see
of a run is its `history`.
-/

namespace Server

open Linearizable

/-! ### The steps of a command -/

/-- What a worker does next for its command. -/
inductive Point where
  /-- Read `empty` for the first time. -/
  | start (c : Command)
  /-- The section of `InsertString`. -/
  | fill (k : Key) (newStr : String)
  /-- The section of `UpdateString`. -/
  | write (k : Key) (newStr : String)
  /-- `GetString` after `UpdateString`. -/
  | getUpdated (k : Key) (value : String)
  /-- `GetString` of `fetch`. -/
  | getFetched (k : Key)
  /-- The second test of `concat`. -/
  | testThis (k k₂ : Key)
  /-- The section of `concat`, on any branch. -/
  | splice (k k₂ : Key)
  /-- `GetString` after `concat`.  `wrote` is what the section left in the slot;
  no code reads it. -/
  | getOther (k₂ : Key) (wrote : String)
  /-- Send an answer. -/
  | reply (m : Message)
  /-- Answer a `delete` that has found nothing. -/
  | deny (k : Key)
  /-- The test of `Remove`; `told` if the request has been answered. -/
  | remove (k : Key) (told : Bool)
  /-- The section of `Remove`. -/
  | clear (k : Key) (told : Bool)
  /-- `close(req.client_socket_fd)`. -/
  | close (told : Bool)
  deriving DecidableEq

/-- What a step does: to the dictionary, what comes next if anything does, and
the messages of a request that is answered now. -/
structure Stepped where
  dict : Dict
  next : Option Point
  answer : Option (List Message) := none

/-- One step. -/
def Point.run (d : Dict) : Point → Stepped
  | .start (.insert k v) =>
      if !(d k).empty then { dict := d, next := some (.reply (.tagged "Key already exists")) }
      else { dict := d, next := some (.fill k v) }
  | .fill k v =>
      { dict := d.modify k (LockedString.fill v),
        next := some (.reply (.tagged "Insertion successful")) }
  | .start (.update k v) =>
      if (d k).empty then { dict := d, next := some (.reply (.tagged "Key does not exist")) }
      else { dict := d, next := some (.write k v) }
  | .write k v =>
      { dict := d.modify k (LockedString.write v), next := some (.getUpdated k v) }
  | .getUpdated k _ => { dict := d, next := some (.reply (.tagged (d k).getString)) }
  | .start (.fetch k) =>
      if (d k).isEmpty then { dict := d, next := some (.reply (.tagged "Key does not exist")) }
      else { dict := d, next := some (.getFetched k) }
  | .getFetched k => { dict := d, next := some (.reply (.tagged (d k).getString)) }
  | .start (.concat k k₂) =>
      if (d k₂).isEmpty then
        { dict := d
          next := some (.reply (.tagged "Concat failed as at least one of the keys does not exist")) }
      else { dict := d, next := some (.testThis k k₂) }
  | .testThis k k₂ =>
      if (d k).empty then
        { dict := d
          next := some (.reply (.tagged "Concat failed as at least one of the keys does not exist")) }
      else { dict := d, next := some (.splice k k₂) }
  | .splice k k₂ =>
      { dict := d.splice k k₂, next := some (.getOther k₂ (d.splice k k₂ k₂).str) }
  | .getOther k₂ _ => { dict := d, next := some (.reply (.tagged (d k₂).getString)) }
  | .start (.delete k) =>
      if (d k).isEmpty then { dict := d, next := some (.deny k) }
      else { dict := d, next := some (.remove k false) }
  | .deny k =>
      { dict := d, next := some (.remove k true), answer := some [.tagged "No such key exists"] }
  | .remove k told =>
      if (d k).empty then { dict := d, next := some (.close told) }
      else { dict := d, next := some (.clear k told) }
  | .clear k told => { dict := d.modify k LockedString.clear, next := some (.close told) }
  | .reply m => { dict := d, next := some (.close true), answer := some [m] }
  | .close told => { dict := d, next := none, answer := if told then none else some [] }

/-- A step and whatever comes after it. -/
def Stepped.andThen (t : Stepped) (rest : Dict → Point → Dict × List Message) :
    Dict × List Message :=
  match t.next with
  | none => (t.dict, t.answer.getD [])
  | some p => ((rest t.dict p).1, t.answer.getD [] ++ (rest t.dict p).2)

/-- The steps of one request, at most `fuel` of them, when nobody else is at the
dictionary. -/
def Point.alone : Nat → Dict → Point → Dict × List Message
  | 0, d, _ => (d, [])
  | fuel + 1, d, p => (p.run d).andThen (Point.alone fuel)

/-- **Alone, a command does what the methods do.** -/
theorem alone_start (d : Dict) (c : Command) : Point.alone 6 d (.start c) = d.handleCommand c := by
  cases c with
  | insert k v | update k v | fetch k =>
      cases h : (d k).empty <;>
        simp [Point.alone, Point.run, Stepped.andThen, Dict.handleCommand,
          LockedString.insertString, LockedString.updateString, LockedString.isEmpty,
          LockedString.getString, Dict.modify, h]
  | concat k k₂ =>
      cases h : (d k).empty <;> cases h₂ : (d k₂).empty <;>
        simp [Point.alone, Point.run, Stepped.andThen, Dict.handleCommand, Dict.concat,
          LockedString.isEmpty, LockedString.getString, h, h₂]
  | delete k =>
      cases h : (d k).empty <;>
        simp [Point.alone, Point.run, Stepped.andThen, Dict.handleCommand, LockedString.isEmpty,
          LockedString.remove, Dict.modify, h]

/-! ### The workers -/

/-- A request that a worker is at.  Requests are numbered. -/
structure InFlight where
  id : Nat
  command : Command
  point : Point
  deriving DecidableEq

/-- The dictionary and `n` workers. -/
structure Workers (n : Nat) where
  dict : Dict
  worker : Fin n → Option InFlight
  /-- The number of requests accepted so far. -/
  accepted : Nat

/-- A worker gets a request, or makes a step. -/
inductive WorkEvent (n : Nat) where
  | accept (w : Fin n) (c : Command)
  | step (w : Fin n)
  deriving DecidableEq

namespace Workers

variable {n : Nat}

/-- A step. -/
def step (s : Workers n) : WorkEvent n → Option (Workers n)
  | .accept w c =>
      if s.worker w = none then
        some
          { s with
            worker := Function.update s.worker w (some ⟨s.accepted, c, .start c⟩)
            accepted := s.accepted + 1 }
      else none
  | .step w =>
      (s.worker w).map fun r =>
        let t := r.point.run s.dict
        { s with
          dict := t.dict
          worker := Function.update s.worker w (t.next.map fun p => { r with point := p }) }

/-- What the clients see of a step. -/
def observe (s : Workers n) : WorkEvent n → List (Action Command (List Message))
  | .accept _ c => [.call s.accepted c]
  | .step w =>
      ((s.worker w).bind fun r => (r.point.run s.dict).answer.map (.ret r.id)).toList

/-- No request has come yet. -/
def start (n : Nat) : Workers n where
  dict := initial
  worker := fun _ => none
  accepted := 0

end Workers

/-- The machine of `n` workers at one dictionary. -/
def concurrent (n : Nat) : Machine (Workers n) (WorkEvent n) where
  init s := s = Workers.start n
  step := Workers.step

variable {n : Nat} {newer older : Past (Workers n) (WorkEvent n)}

/-- What the clients have seen, oldest first. -/
def history : Past (Workers n) (WorkEvent n) → List (Action Command (List Message))
  | [] => []
  | (s, e) :: past => history past ++ s.observe e

theorem history_append : history (newer ++ older) = history older ++ history newer := by
  induction newer with
  | nil => simp [history]
  | cons x newer ih => simp [history, ih]

end Server
