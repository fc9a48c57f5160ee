import OSN.Lib.Run
import Mathlib.Data.Fintype.Basic
import Mathlib.Logic.Relation

/-!
# Kernel threads, spinlocks and interrupts

Harts share a memory and a set of spinlocks.  Each runs the code of one kernel
thread, which `swtch` exchanges for that of another: it saves what is left to
do in one context and loads another context.  A hart that holds no lock may be
interrupted at any point; the handler runs on top of whatever is running
there.  A run interleaves the steps of all harts in any order.

The locks are not the locks of threads but of harts, as in xv6: what a thread
holds when it switches is held by the next one.
-/

namespace Threads

/-- The rest of the code of a thread.  `H`, `L`, `T` name the harts, locks and
threads; `I` is what the code may ask of its surroundings, `K` the labels it
may jump to, and `S` the shared memory. -/
inductive Prog (H L T I K S : Type) where
  | acquire (l : L) (next : Prog H L T I K S)
  | release (l : L) (next : Prog H L T I K S)
  /-- Change the memory; go on by what it was before. -/
  | act (f : H → S → S) (next : H → S → Prog H L T I K S)
  | ask (next : I → Prog H L T I K S)
  /-- `swtch(&save->context, &load->context)`. -/
  | swtch (save load : T) (next : Prog H L T I K S)
  /-- Let the context of a thread begin at a label. -/
  | prepare (t : T) (label : K) (next : Prog H L T I K S)
  | goto (label : K)
  /-- Do nothing, for ever. -/
  | hang

/-- The harts, with the locks each holds and the code it is about to run, and
the saved contexts. -/
structure Config (H L T I K S : Type) where
  shared : S
  held : H → List L
  context : T → Prog H L T I K S
  running : H → Prog H L T I K S

/-- A hart makes a step (the input counts if it asks), or is interrupted. -/
inductive Event (H I D : Type) where
  | run (h : H) (input : I)
  | interrupt (h : H) (d : D)
  deriving DecidableEq

/-- The hart that makes the step. -/
def Event.hart {H I D : Type} : Event H I D → H
  | .run h _ => h
  | .interrupt h _ => h

variable {H L T I K S D : Type}

namespace Config

/-- No hart holds the lock. -/
def Free (c : Config H L T I K S) (l : L) : Prop :=
  ∀ h, l ∉ c.held h

instance [Fintype H] [DecidableEq L] (c : Config H L T I K S) (l : L) : Decidable (c.Free l) :=
  inferInstanceAs (Decidable (∀ h, l ∉ c.held h))

/-- Hart `h` waits for a lock that hart `h'` holds. -/
def WaitsFor (c : Config H L T I K S) (h h' : H) : Prop :=
  ∃ l next, c.running h = .acquire l next ∧ l ∈ c.held h'

/-- The lock that a hart asks for next. -/
def awaited (c : Config H L T I K S) (h : H) : Option L :=
  match c.running h with
  | .acquire l _ => some l
  | _ => none

/-- Let hart `h` run `prog`. -/
def setRunning [DecidableEq H] (c : Config H L T I K S) (h : H) (prog : Prog H L T I K S) :
    Config H L T I K S :=
  { c with running := Function.update c.running h prog }

/-- Let hart `h` hold `locks`. -/
def setHeld [DecidableEq H] (c : Config H L T I K S) (h : H) (locks : List L) :
    Config H L T I K S :=
  { c with held := Function.update c.held h locks }

/-- Write the memory. -/
def setShared (c : Config H L T I K S) (s : S) : Config H L T I K S :=
  { c with shared := s }

/-- Write the context of thread `t`. -/
def setContext [DecidableEq T] (c : Config H L T I K S) (t : T) (prog : Prog H L T I K S) :
    Config H L T I K S :=
  { c with context := fun t' => if t' = t then prog else c.context t' }

variable [Fintype H] [DecidableEq H] [DecidableEq L] [DecidableEq T]

/-- The next step of hart `h`; none while it waits for a lock or hangs, and
none where `release` panics. -/
def runHart (code : K → Prog H L T I K S) (c : Config H L T I K S) (h : H) (input : I) :
    Option (Config H L T I K S) :=
  match c.running h with
  | .acquire l next =>
      if c.Free l then some ((c.setHeld h (l :: c.held h)).setRunning h next) else none
  | .release l next =>
      if l ∈ c.held h then some ((c.setHeld h ((c.held h).erase l)).setRunning h next) else none
  | .act f next => some ((c.setShared (f h c.shared)).setRunning h (next h c.shared))
  | .ask next => some (c.setRunning h (next input))
  | .swtch save load next =>
      let c' := c.setContext save next
      some (c'.setRunning h (c'.context load))
  | .prepare t label next => some ((c.setContext t (.goto label)).setRunning h next)
  | .goto label => some (c.setRunning h (code label))
  | .hang => none

/-- A step of some hart. -/
def step (code : K → Prog H L T I K S) (handler : D → Prog H L T I K S → Prog H L T I K S)
    (c : Config H L T I K S) : Event H I D → Option (Config H L T I K S)
  | .run h input => c.runHart code h input
  | .interrupt h d =>
      if c.held h = [] then some (c.setRunning h (handler d (c.running h))) else none

section Fields

variable {c : Config H L T I K S} {h : H} {prog : Prog H L T I K S} {locks : List L} {s : S}
  {t : T}

omit [Fintype H] [DecidableEq L] [DecidableEq T]

@[simp] theorem setRunning_shared : (c.setRunning h prog).shared = c.shared := rfl

@[simp] theorem setRunning_held : (c.setRunning h prog).held = c.held := rfl

@[simp] theorem setRunning_context : (c.setRunning h prog).context = c.context := rfl

@[simp] theorem setRunning_running :
    (c.setRunning h prog).running = Function.update c.running h prog := rfl

@[simp] theorem setHeld_shared : (c.setHeld h locks).shared = c.shared := rfl

@[simp] theorem setHeld_held :
    (c.setHeld h locks).held = Function.update c.held h locks := rfl

@[simp] theorem setHeld_context : (c.setHeld h locks).context = c.context := rfl

@[simp] theorem setHeld_running : (c.setHeld h locks).running = c.running := rfl

omit [DecidableEq H]

@[simp] theorem setShared_shared : (c.setShared s).shared = s := rfl

@[simp] theorem setShared_held : (c.setShared s).held = c.held := rfl

@[simp] theorem setShared_context : (c.setShared s).context = c.context := rfl

@[simp] theorem setShared_running : (c.setShared s).running = c.running := rfl

variable [DecidableEq T]

@[simp] theorem setContext_shared : (c.setContext t prog).shared = c.shared := rfl

@[simp] theorem setContext_held : (c.setContext t prog).held = c.held := rfl

@[simp] theorem setContext_context {t' : T} :
    (c.setContext t prog).context t' = if t' = t then prog else c.context t' := rfl

@[simp] theorem setContext_running : (c.setContext t prog).running = c.running := rfl

end Fields

end Config

namespace Config

variable [Fintype H] [DecidableEq H] [DecidableEq L] [DecidableEq T]

/-- A step leaves the memory alone, unless the hart was about to change it. -/
theorem step_shared {code : K → Prog H L T I K S} {handler : D → Prog H L T I K S → Prog H L T I K S}
    {c c' : Config H L T I K S} {e : Event H I D} (hstep : c.step code handler e = some c') :
    c'.shared = c.shared ∨
      ∃ f next, c.running e.hart = .act f next ∧ c'.shared = f e.hart c.shared := by
  cases e with
  | run h input =>
      simp only [step, runHart] at hstep
      cases hprog : c.running h with
      | acquire l next =>
          obtain ⟨-, rfl⟩ : c.Free l ∧ _ = c' := by simpa [hprog] using hstep
          exact Or.inl rfl
      | release l next =>
          obtain ⟨-, rfl⟩ : l ∈ c.held h ∧ _ = c' := by simpa [hprog] using hstep
          exact Or.inl rfl
      | act f next =>
          obtain rfl : _ = c' := by simpa [hprog] using hstep
          exact Or.inr ⟨f, next, hprog, rfl⟩
      | ask | swtch | prepare | goto =>
          obtain rfl : _ = c' := by simpa [hprog] using hstep
          exact Or.inl rfl
      | hang => simp [hprog] at hstep
  | interrupt h i =>
      obtain ⟨-, rfl⟩ : c.held h = [] ∧ _ = c' := by simpa [step] using hstep
      exact Or.inl rfl

end Config

/-- The machine of the harts from a given start. -/
def machine [Fintype H] [DecidableEq H] [DecidableEq L] [DecidableEq T]
    (code : K → Prog H L T I K S) (handler : D → Prog H L T I K S → Prog H L T I K S)
    (start : Config H L T I K S) : Machine (Config H L T I K S) (Event H I D) where
  init c := c = start
  step := Config.step code handler

/-! ### Writing code -/

/-- Code that ends with a value, as what it makes of the code after it. -/
def Code (H L T I K S α : Type) : Type := (α → Prog H L T I K S) → Prog H L T I K S

namespace Code

instance : Monad (Code H L T I K S) where
  pure a := fun next => next a
  bind c f := fun next => c fun a => f a next

/-- `acquire(l)`. -/
def acquire (l : L) : Code H L T I K S Unit := fun next => .acquire l (next ())

/-- `release(l)`. -/
def release (l : L) : Code H L T I K S Unit := fun next => .release l (next ())

/-- Change the memory. -/
def update (f : H → S → S) : Code H L T I K S Unit := fun next => .act f fun _ _ => next ()

/-- Read the memory. -/
def read {α : Type} (g : H → S → α) : Code H L T I K S α :=
  fun next => .act (fun _ s => s) fun h s => next (g h s)

/-- Read the memory and change it, in one step. -/
def modifyGet {α : Type} (f : H → S → S) (g : H → S → α) : Code H L T I K S α :=
  fun next => .act f fun h s => next (g h s)

/-- Ask the surroundings. -/
def ask : Code H L T I K S I := fun next => .ask next

/-- Save this thread's context and load another. -/
def swtch (save load : T) : Code H L T I K S Unit := fun next => .swtch save load (next ())

/-- Let the context of a thread begin at a label. -/
def prepare (t : T) (label : K) : Code H L T I K S Unit := fun next => .prepare t label (next ())

/-- Jump to a label and never return. -/
def jump {α : Type} (label : K) : Code H L T I K S α := fun _ => .goto label

/-- Never return. -/
def hang {α : Type} : Code H L T I K S α := fun _ => .hang

/-- An `if` without `else`. -/
def when (b : Prop) [Decidable b] (c : Code H L T I K S Unit) : Code H L T I K S Unit :=
  if b then c else pure ()

/-- Code that does not return, as the code at a label. -/
def body (c : Code H L T I K S Unit) : Prog H L T I K S := c fun _ => .hang

end Code

end Threads
