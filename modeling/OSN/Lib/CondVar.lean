import Mathlib.Data.Fintype.Basic
import Mathlib.Data.List.Basic
import Mathlib.Tactic.Common

/-!
# Waiting on a condition variable

A thread that waits locks the mutex, gives it up as it falls asleep, is woken
up, takes the mutex back and unlocks it.  `Waiter` says where in this a thread
is, and `MayWake` what a signal does to those that are asleep.
-/

/-- Where a thread is in lock, wait and unlock; `r` is what the wait returns. -/
inductive Waiter (R : Type) where
  | lock
  /-- Holds the mutex and is about to wait. -/
  | wait
  /-- Asleep on the condition variable. -/
  | blocked
  /-- Woken up, but without the mutex. -/
  | woken (r : R)
  /-- Has the mutex back and is about to unlock it. -/
  | unlock (r : R)
  deriving DecidableEq

/-- What to expect of the wakeups of a condition variable. -/
inductive Wakeups where
  /-- A signal wakes one thread if one is asleep, and nothing else does. -/
  | exact
  /-- As POSIX has it: a signal wakes at least one thread if one is asleep, and
  a thread may wake up without a signal. -/
  | posix
  deriving DecidableEq

namespace CondVar

variable {P : Type}

/-- A signal may wake these threads of those that are blocked. -/
def MayWake (wakeups : Wakeups) (blocked : P → Prop) (woken : List P) : Prop :=
  (∀ p ∈ woken, blocked p) ∧ ((∃ p, blocked p) → woken ≠ []) ∧
    (wakeups = .exact → woken.length ≤ 1)

instance [Fintype P] (wakeups : Wakeups) (blocked : P → Prop) [DecidablePred blocked]
    (woken : List P) : Decidable (MayWake wakeups blocked woken) := by
  unfold MayWake
  infer_instance

end CondVar
