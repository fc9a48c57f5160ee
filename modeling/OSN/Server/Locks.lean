import OSN.Server.Dictionary
import OSN.Lib.Triple

/-!
# The mutexes of the dictionary

`WorkerThread` on one request, mutex by mutex: every `pthread_mutex_lock`, every
`pthread_mutex_unlock` and every read of `empty` outside the mutexes is a step
of its own, for any number of workers.  A worker takes at most two mutexes at a
time, in `concat`, and then that of the smaller index first, on all branches.
So the index is an order for the mutexes, and no workers wait for each other in
a circle.
-/

namespace Server

open Threads Threads.Discipline
open Threads.Code (acquire release update read ask jump)

/-- What the workers share: the dictionary and what has been sent, newest
first. -/
structure Store (n : Nat) where
  dict : Dict
  sent : List (Fin n × Message)

/-- Where a worker jumps to: for its next request, or with it. -/
inductive Label where
  | worker
  | request (r : Request)

/-- Code of a worker. -/
abbrev Code (n : Nat) : Type → Type :=
  Threads.Code (Fin n) Key (Fin n) Request Label (Store n)

namespace Code

variable {n : Nat}

/-- Read a slot. -/
def getSlot (k : Key) : Code n LockedString := read fun _ s => s.dict k

/-- Write the dictionary. -/
def setDict (f : Dict → Dict) : Code n Unit := update fun _ s => { s with dict := f s.dict }

/-- `pthread_mutex_lock` and `pthread_mutex_unlock` on one slot, and what is
done between them. -/
def locked {α : Type} (k : Key) (c : Code n α) : Code n α := do
  acquire k
  let a ← c
  release k
  return a

/-- `UpdateString`, with its return value. -/
def updateString (k : Key) (newStr : String) : Code n Int := do
  if (← getSlot k).empty then return -1
  else
    locked k (setDict fun d => d.modify k (LockedString.write newStr))
    return 0

/-- `InsertString`, with its return value. -/
def insertString (k : Key) (newStr : String) : Code n Int := do
  if !(← getSlot k).empty then return -1
  else
    locked k (setDict fun d => d.modify k (LockedString.fill newStr))
    return 0

/-- `GetString`. -/
def getString (k : Key) : Code n String := do
  let s ← locked k (getSlot k)
  return s.str

/-- `isEmpty`. -/
def isEmpty (k : Key) : Code n Bool := do
  return (← getSlot k).empty

/-- `dict[k].concat(dict[k₂])`, with its return value. -/
def concat (k k₂ : Key) : Code n Int := do
  if ← isEmpty k₂ then return -1
  else if (← getSlot k).empty then return -1
  else if k < k₂ then
    locked k (locked k₂ (setDict fun d => d.join k k₂))
    return 0
  else if k₂ < k then
    locked k₂ (locked k (setDict fun d => d.join k k₂))
    return 0
  else
    locked k (setDict fun d => d.modify k fun this => this.write (this.str ++ this.str))
    return 0

/-- `Remove`. -/
def remove (k : Key) : Code n Unit := do
  if (← getSlot k).empty then return ()
  else locked k (setDict fun d => d.modify k LockedString.clear)

/-- Write a message to the socket. -/
def send (m : Message) : Code n Unit := update fun w s => { s with sent := (w, m) :: s.sent }

/-- `WorkerThread` on a command. -/
def handleCommand : Command → Code n Unit
  | .insert k v => do
      if (← insertString k v) = -1 then send (.tagged "Key already exists")
      else send (.tagged "Insertion successful")
  | .update k v => do
      if (← updateString k v) = -1 then send (.tagged "Key does not exist")
      else send (.tagged (← getString k))
  | .fetch k => do
      if ← isEmpty k then send (.tagged "Key does not exist")
      else send (.tagged (← getString k))
  | .concat k k₂ => do
      if (← concat k k₂) = -1 then
        send (.tagged "Concat failed as at least one of the keys does not exist")
      else
        let ret ← getString k₂
        -- both strings are printed too
        let _ ← getString k
        let _ ← getString k₂
        send (.tagged ret)
  | .delete k => do
      if ← isEmpty k then
        send (.tagged "No such key exists")
        remove k
      else remove k

/-- `WorkerThread` on any request. -/
def handle : Request → Code n Unit
  | .command c => handleCommand c
  | .clear => do
      (List.finRange 100).forM remove
      send (.plain "cleared")

end Code

variable {n : Nat}

/-- The code at each label. -/
def code : Label → Prog (Fin n) Key (Fin n) Request Label (Store n)
  | .worker => Code.body do
      let r ← ask
      jump (.request r)
  | .request r => Code.body do
      Code.handle r
      jump .worker

/-- All workers have been started. -/
def started (n : Nat) : Config (Fin n) Key (Fin n) Request Label (Store n) where
  shared := { dict := initial, sent := [] }
  held := fun _ => []
  context := fun _ => .goto .worker
  running := fun _ => .goto .worker

/-- The machine of `n` workers.  Nothing interrupts them. -/
def workers (n : Nat) :=
  Threads.machine (D := Empty) code (fun d _ => d.elim) (started n)

/-- The worker has no request. -/
def Idle (c : Config (Fin n) Key (Fin n) Request Label (Store n)) (w : Fin n) : Prop :=
  c.running w = .goto .worker ∨ c.running w = code .worker

/-! ### The discipline -/

/-- **The discipline of the workers**: each its own thread, which takes mutexes
in the order of the slots and never stops for ever. -/
def mutexes (n : Nat) : Threads.Discipline (Fin n) Key (Fin n) Label (Store n) where
  rank := Fin.val
  inv _ := True
  lockInv _ _ := True
  on t h _ _ := h = t
  entry _ _ _ _ := False
  spec _ _ _ held _ := held = []
  rely _ _ h _ h' _ := h' = h
  away _ _ _ := True
  guar _ _ _ _ _ := True
  mayHang := False

theorem mutexes_laws (n : Nat) : (mutexes n).Laws where
  rely_refl _ _ _ _ := rfl
  rely_trans h₁ h₂ := Eq.trans h₂ h₁
  away_refl _ _ := trivial
  away_trans _ _ := trivial
  on_unique _ h₁ h₂ := Eq.trans h₁ (Eq.symm h₂)
  on_acquire _ hon := hon
  guar_refl _ _ _ _ := trivial
  guar_rely _ _ _ _ _ hon := ⟨rfl, hon⟩
  guar_away _ _ := trivial
  guar_lockInv _ _ _ := trivial

section Triples

variable {t : Fin n} {X : List Key} {α : Type} {k k₂ : Key}

/-- The code may run with these mutexes held, and has them again in the end. -/
def Fits (t : Fin n) (X : List Key) (c : Code n α) : Prop := (mutexes n).Quiet t X c

theorem fits_read (g : Fin n → Store n → α) : Fits t X (read g : Code n α) :=
  Quiet.read (mutexes_laws n) g

theorem fits_update (f : Fin n → Store n → Store n) : Fits t X (update f : Code n Unit) := by
  intro A hA
  apply Triple.update hA
  intro h s hhere hs
  exact ⟨trivial, ⟨trivial, hhere.2⟩, hA h s h (f h s) hs ⟨rfl, trivial, hhere.2⟩⟩

/-- A section under the mutex of a slot behind those that are held. -/
theorem fits_locked {c : Code n α} (hX : ∀ m ∈ X, m < k) (hc : Fits t (k :: X) c) :
    Fits t X (Code.locked k c) := by
  intro A hA
  have hstable : (mutexes n).Stable t (k :: X) A :=
    fun h s h' s' hs hseen => hA h s h' s' hs hseen
  have hacquire : (mutexes n).Triple t X A (acquire k : Code n Unit) (fun _ => k :: X)
      fun _ => A :=
    (Triple.acquire (mutexes_laws n) hA hX).post fun _ _ _ _ hs => hs.1
  have hrelease : (mutexes n).Triple t (k :: X) A (release k : Code n Unit) (fun _ => X)
      fun _ => A := by
    have hgive := Triple.release (I := Request) (l := k) (B := A) hstable List.mem_cons_self
      fun h s hhere hs => ⟨trivial, hhere.2, hs⟩
    simpa using hgive
  exact hacquire.bind fun _ => (hc A hstable).bind fun a => hrelease.bind fun _ =>
    Triple.pure (P := fun _ => A) a

theorem fits_getSlot : Fits t X (Code.getSlot k : Code n LockedString) := fits_read _

theorem fits_setDict (f : Dict → Dict) : Fits t X (Code.setDict f : Code n Unit) := fits_update _

theorem fits_send (m : Message) : Fits t X (Code.send m : Code n Unit) := fits_update _

theorem fits_section (f : Dict → Dict) :
    Fits t [] (Code.locked k (Code.setDict f) : Code n Unit) :=
  fits_locked (by simp) (fits_setDict f)

theorem fits_updateString (v : String) : Fits t [] (Code.updateString k v : Code n Int) := by
  apply Quiet.bind fits_getSlot
  intro s
  split
  · exact Quiet.pure _
  · exact Quiet.bind (fits_section _) fun _ => Quiet.pure _

theorem fits_insertString (v : String) : Fits t [] (Code.insertString k v : Code n Int) := by
  apply Quiet.bind fits_getSlot
  intro s
  split
  · exact Quiet.pure _
  · exact Quiet.bind (fits_section _) fun _ => Quiet.pure _

theorem fits_getString : Fits t [] (Code.getString k : Code n String) :=
  Quiet.bind (fits_locked (by simp) fits_getSlot) fun _ => Quiet.pure _

theorem fits_isEmpty : Fits t X (Code.isEmpty k : Code n Bool) :=
  Quiet.bind fits_getSlot fun _ => Quiet.pure _

/-- On every branch of `concat` the mutex of the smaller index comes first. -/
theorem fits_concat : Fits t [] (Code.concat k k₂ : Code n Int) := by
  have hnested : ∀ {i j : Key} (f : Dict → Dict), i < j →
      Fits t [] (Code.locked i (Code.locked j (Code.setDict f)) : Code n Unit) := by
    intro i j f hij
    apply fits_locked (by simp)
    exact fits_locked (by simpa using hij) (fits_setDict f)
  apply Quiet.bind fits_isEmpty
  intro empty₂
  split
  · exact Quiet.pure _
  · apply Quiet.bind fits_getSlot
    intro s
    split
    · exact Quiet.pure _
    · split
      case isTrue hlt => exact Quiet.bind (hnested _ hlt) fun _ => Quiet.pure _
      case isFalse =>
          split
          case isTrue hgt => exact Quiet.bind (hnested _ hgt) fun _ => Quiet.pure _
          case isFalse => exact Quiet.bind (fits_section _) fun _ => Quiet.pure _

theorem fits_remove : Fits t [] (Code.remove k : Code n Unit) := by
  apply Quiet.bind fits_getSlot
  intro s
  split
  · exact Quiet.pure _
  · exact fits_section _

theorem fits_handleCommand (c : Command) : Fits t [] (Code.handleCommand c : Code n Unit) := by
  cases c with
  | insert k v =>
      apply Quiet.bind (fits_insertString v)
      intro status
      split <;> exact fits_send _
  | update k v =>
      apply Quiet.bind (fits_updateString v)
      intro status
      split
      · exact fits_send _
      · exact Quiet.bind fits_getString fun ret => fits_send _
  | fetch k =>
      apply Quiet.bind fits_isEmpty
      intro empty
      split
      · exact fits_send _
      · exact Quiet.bind fits_getString fun ret => fits_send _
  | concat k k₂ =>
      apply Quiet.bind fits_concat
      intro status
      split
      · exact fits_send _
      · apply Quiet.bind fits_getString
        intro ret
        apply Quiet.bind fits_getString
        intro _
        exact Quiet.bind fits_getString fun _ => fits_send _
  | delete k =>
      apply Quiet.bind fits_isEmpty
      intro empty
      split
      · exact Quiet.bind (fits_send _) fun _ => fits_remove
      · exact fits_remove

theorem fits_handle (r : Request) : Fits t [] (Code.handle r : Code n Unit) := by
  cases r with
  | command c => exact fits_handleCommand c
  | clear => exact Quiet.bind (Quiet.forM fun k => fits_remove) fun _ => fits_send _

/-- A worker jumps with no mutex in hand. -/
theorem jump_triple (label : Label) :
    (mutexes n).Triple t [] (fun _ _ => True) (jump label : Code n Unit) (fun _ => [])
      fun _ _ _ => False :=
  Triple.jump Stable.true fun _ _ _ _ => rfl

end Triples

/-- All code of the workers keeps to the discipline. -/
theorem workers_obeyed (n : Nat) :
    (mutexes n).Obeyed code (fun (d : Empty) _ => d.elim) where
  handler_ok d := d.elim
  code_ok label t h held s hhere hspec := by
    obtain rfl : held = [] := hspec
    cases label with
    | worker =>
        have hbody := (Triple.ask (A := fun _ _ => True)).bind fun r =>
          jump_triple (t := t) (.request r)
        exact hbody.body hhere trivial
    | request r =>
        have hbody := (fits_handle (t := t) r _ Stable.true).bind fun _ => jump_triple .worker
        exact hbody.body hhere trivial

theorem started_kept (n : Nat) : (mutexes n).Kept (started n) id where
  inv := trivial
  on _ := rfl
  free _ _ := trivial
  apart h h' l hl := by simp [started] at hl
  nodup _ := List.nodup_nil
  ok _ _ _ _ := rfl
  parked t ht := absurd rfl (ht t)

/-- A worker without a request holds no mutex. -/
theorem Idle.held {c : Config (Fin n) Key (Fin n) Request Label (Store n)} {who : Fin n → Fin n}
    {w : Fin n} (kept : (mutexes n).Kept c who) (hidle : Idle c w) : c.held w = [] := by
  have hok := kept.ok w
  have hseen := kept.seen (mutexes_laws n) w
  rcases hidle with hrun | hrun
  · rw [hrun] at hok
    exact hok w c.shared hseen
  · rw [hrun] at hok
    exact hok .clear w c.shared hseen

/-- **`concat` cannot deadlock.**  For any number of workers and whatever their
requests: in every state that is reached, if some request is unfinished then a
worker with an unfinished request can make a step; no workers wait in a circle
for each other's mutexes, and none for one it holds. -/
theorem workers_go_on {c : Config (Fin n) Key (Fin n) Request Label (Store n)}
    (hc : (workers n).Reachable c) :
    ((∃ w, ¬ Idle c w) → ∀ next, ∃ w, ¬ Idle c w ∧
        ∃ c', (workers n).step c (.run w next) = some c') ∧
      (¬ ∃ w, Relation.TransGen c.WaitsFor w w) ∧ ∀ w, ¬ c.WaitsFor w w := by
  obtain ⟨who, kept⟩ := reachable_kept (mutexes_laws n) (workers_obeyed n) ⟨_, started_kept n⟩ hc
  refine ⟨?_, ?_, ?_⟩
  · intro hsome next
    refine kept.exists_step (mutexes_laws n) id hsome (fun w hheld hidle => ?_) next
    exact hheld (hidle.held kept)
  · intro hwaits
    obtain ⟨w, hcircle⟩ := hwaits
    exact kept.no_circle hcircle
  · intro w hself
    exact kept.no_circle (.single hself)

/-- Worker 0 is at `concat 1 2` with both mutexes, and worker 1 at `concat 2 1`
waits for the first. -/
def crossed : List (Event (Fin 2) Request Empty) :=
  List.replicate 8 (.run 0 (.command (.insert 1 "a"))) ++
    List.replicate 8 (.run 1 (.command (.insert 2 "b"))) ++
    List.replicate 7 (.run 0 (.command (.concat 1 2))) ++
    List.replicate 5 (.run 1 (.command (.concat 2 1)))

theorem workers_go_on_crossed : ∃ c : Config (Fin 2) Key (Fin 2) Request Label (Store 2),
    (c.held 0 = [2, 1] ∧ c.awaited 1 = some 1) ∧
      (((∃ w, ¬ Idle c w) → ∀ next, ∃ w, ¬ Idle c w ∧
          ∃ c', (workers 2).step c (.run w next) = some c') ∧
        (¬ ∃ w, Relation.TransGen c.WaitsFor w w) ∧ ∀ w, ¬ c.WaitsFor w w) := by
  obtain ⟨past, c, run, hc⟩ := Machine.exists_run_of_trace
    (M := workers 2) (s := started 2) rfl crossed
    (fun _ c => c.held 0 = [2, 1] ∧ c.awaited 1 = some 1) (by decide)
  exact ⟨c, hc, workers_go_on ⟨past, run⟩⟩

end Server
