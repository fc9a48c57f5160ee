import Mathlib.Algebra.GroupWithZero.Nat
import Mathlib.Logic.Function.Basic
import Mathlib.Logic.Relation
import Mathlib.Data.List.Basic
import Mathlib.Tactic.Common

/-!
# Runs of an event machine, with their past

A machine takes one event at a time; an event that cannot happen in a state
has no successor there.  A run carries its whole past, newest step first, so
that a property of history (how long something has been so, what happened
since) is a recursion over the past, and an invariant about history is an
induction over the run.
-/

/-- `0` is one party's name in `Fin 1`, as `0` and `1` are in `Fin 2`. -/
instance neZeroOne : NeZero 1 := ⟨Nat.one_ne_zero⟩

instance neZeroTwo : NeZero 2 := ⟨Nat.succ_ne_zero 1⟩

instance neZeroThree : NeZero 3 := ⟨Nat.succ_ne_zero 2⟩

/-- A machine: its initial states, and what one event does to a state. -/
structure Machine (S E : Type) where
  init : S → Prop
  step : S → E → Option S

/-- What lies behind a state, newest first: each state met by an event, with
that event. -/
abbrev Past (S E : Type) := List (S × E)

/-- `Run M past s`: the machine has come to `s` from an initial state through
the steps of `past`. -/
inductive Run {S E : Type} (M : Machine S E) : Past S E → S → Prop
  | init {s : S} (h : M.init s) : Run M [] s
  | step {past : Past S E} {s t : S} {e : E}
      (run : Run M past s) (h : M.step s e = some t) : Run M ((s, e) :: past) t

namespace Machine

variable {S E : Type} {M : Machine S E}

/-- A state some run reaches. -/
def Reachable (M : Machine S E) (s : S) : Prop :=
  ∃ past, Run M past s

/-- Every step of the past was taken under the condition `C`, which sees the
past, the state and the event of that step. -/
def StepsMeet (C : Past S E → S → E → Prop) : Past S E → Prop
  | [] => True
  | (s, e) :: past => C past s e ∧ StepsMeet C past

instance decidableStepsMeet (C : Past S E → S → E → Prop)
    [∀ past s e, Decidable (C past s e)] :
    ∀ past, Decidable (StepsMeet C past)
  | [] => inferInstanceAs (Decidable True)
  | (s, e) :: past =>
      have := decidableStepsMeet C past
      inferInstanceAs (Decidable (C past s e ∧ StepsMeet C past))

theorem StepsMeet.mono {C D : Past S E → S → E → Prop} (hCD : ∀ past s e, C past s e → D past s e) :
    ∀ {past}, StepsMeet C past → StepsMeet D past
  | [], _ => trivial
  | (s, e) :: past, h => ⟨hCD past s e h.1, mono hCD h.2⟩

theorem StepsMeet.older {C : Past S E → S → E → Prop} {newer older : Past S E}
    (h : StepsMeet C (newer ++ older)) : StepsMeet C older := by
  induction newer with
  | nil => exact h
  | cons x newer ih => exact ih h.2

/-- `P` holds in every state of a run. -/
def Throughout (P : S → Prop) (past : Past S E) (s : S) : Prop :=
  P s ∧ StepsMeet (fun _ u _ => P u) past

/-- One state leads to another through some events. -/
def Leads (M : Machine S E) : S → S → Prop :=
  Relation.ReflTransGen fun s t => ∃ e, M.step s e = some t

theorem Leads.refl (s : S) : M.Leads s s := Relation.ReflTransGen.refl

theorem Leads.trans {s t u : S} (hst : M.Leads s t) (htu : M.Leads t u) : M.Leads s u :=
  Relation.ReflTransGen.trans hst htu

theorem Leads.step {s t : S} {e : E} (h : M.step s e = some t) : M.Leads s t :=
  Relation.ReflTransGen.single ⟨e, h⟩

/-- What a reachable state leads to is reachable. -/
theorem Leads.reachable {s t : S} (h : M.Leads s t) (hs : M.Reachable s) : M.Reachable t := by
  induction h with
  | refl => exact hs
  | tail _ hstep ih =>
      obtain ⟨past, run⟩ := ih
      obtain ⟨e, hstep⟩ := hstep
      exact ⟨_, run.step hstep⟩

/-- Run the events of a list, oldest first, and record the past. -/
def trace (M : Machine S E) : Past S E → S → List E → Option (Past S E × S)
  | past, s, [] => some (past, s)
  | past, s, e :: rest =>
      match M.step s e with
      | none => none
      | some t => trace M ((s, e) :: past) t rest

/-- Run the events of a list, oldest first. -/
def exec (M : Machine S E) : S → List E → Option S
  | s, [] => some s
  | s, e :: rest => (M.step s e).bind fun t => exec M t rest

/-- What `exec` runs through leads to what it ends in. -/
theorem leads_of_exec {s t : S} (es : List E) (h : M.exec s es = some t) : M.Leads s t := by
  induction es generalizing s with
  | nil =>
      have hst : s = t := by simpa [exec] using h
      subst hst
      exact .refl s
  | cons e rest ih =>
      obtain ⟨u, hstep, hrest⟩ : ∃ u, M.step s e = some u ∧ M.exec u rest = some t := by
        simpa [exec, Option.bind_eq_some_iff] using h
      exact (Leads.step hstep).trans (ih hrest)

/-- What `trace` records is a run. -/
theorem run_of_trace {past past' : Past S E} {s t : S} {es : List E}
    (run : Run M past s) (h : M.trace past s es = some (past', t)) :
    Run M past' t := by
  induction es generalizing past s with
  | nil =>
      obtain ⟨rfl, rfl⟩ : past = past' ∧ s = t := by simpa [trace] using h
      exact run
  | cons e rest ih =>
      cases hstep : M.step s e with
      | none => simp [trace, hstep] at h
      | some u => exact ih (run.step hstep) (by simpa [trace, hstep] using h)

/-- A decidable test that passes at the end of a traced event list passes at
the end of some run. -/
theorem exists_run_of_trace {s : S} (hinit : M.init s) (es : List E)
    (p : Past S E → S → Prop) [∀ past t, Decidable (p past t)]
    (h : (M.trace [] s es).any (fun r => decide (p r.1 r.2)) = true) :
    ∃ past t, Run M past t ∧ p past t := by
  cases htrace : M.trace [] s es with
  | none => simp [htrace] at h
  | some r =>
      refine ⟨r.1, r.2, run_of_trace (Run.init hinit) htrace, ?_⟩
      simpa [htrace] using h

end Machine

namespace Run

variable {S E : Type} {M : Machine S E}

/-- **Invariants over history.**  What holds of every initial state, and is
kept by every step that meets `C`, holds at the end of every run whose steps
all meet `C`. -/
theorem invariant_of_meet {C : Past S E → S → E → Prop} {P : Past S E → S → Prop}
    (hinit : ∀ s, M.init s → P [] s)
    (hstep : ∀ past s e t, Run M past s → C past s e → P past s →
      M.step s e = some t → P ((s, e) :: past) t)
    {past : Past S E} {s : S} (run : Run M past s)
    (hmeet : Machine.StepsMeet C past) : P past s := by
  induction run with
  | init h => exact hinit _ h
  | step run h ih => exact hstep _ _ _ _ run hmeet.1 (ih hmeet.2) h

/-- Invariants over history without a condition on the steps. -/
theorem invariant {P : Past S E → S → Prop}
    (hinit : ∀ s, M.init s → P [] s)
    (hstep : ∀ past s e t, Run M past s → P past s →
      M.step s e = some t → P ((s, e) :: past) t)
    {past : Past S E} {s : S} (run : Run M past s) : P past s := by
  induction run with
  | init h => exact hinit _ h
  | step run h ih => exact hstep _ _ _ _ run ih h

/-- **When a property holds throughout.**  If it holds of every initial state,
and a step after steps that meet `C` leads from a state that has it to one that
has it just when it meets `C` too, then it holds throughout a run just when all
steps meet `C`. -/
theorem throughout_iff {C : Past S E → S → E → Prop} {P : S → Prop}
    (hinit : ∀ s, M.init s → P s)
    (hstep : ∀ past s e t, Run M past s → Machine.StepsMeet C past → P s →
      M.step s e = some t → (P t ↔ C past s e))
    {past : Past S E} {s : S} (run : Run M past s) :
    Machine.Throughout P past s ↔ Machine.StepsMeet C past := by
  induction run with
  | init h => exact ⟨fun _ => trivial, fun _ => ⟨hinit _ h, trivial⟩⟩
  | @step past s t e run h ih =>
      constructor
      · intro hall
        obtain ⟨ht, hs, hpast⟩ := hall
        have hmeet := ih.mp ⟨hs, hpast⟩
        exact ⟨(hstep past s e t run hmeet hs h).mp ht, hmeet⟩
      · intro hmeet
        obtain ⟨hs, hpast⟩ := ih.mpr hmeet.2
        exact ⟨(hstep past s e t run hmeet.2 hs h).mpr hmeet.1, hs, hpast⟩

/-- Every state in the past of a run was itself reached by a run. -/
theorem earlier {past : Past S E} {s : S} (run : Run M past s)
    {newer older : Past S E} {u : S} {e : E}
    (hpast : past = newer ++ (u, e) :: older) : Run M older u := by
  induction run generalizing newer with
  | init h => simp at hpast
  | @step past s t e' run h ih =>
      cases newer with
      | nil =>
          obtain ⟨⟨rfl, rfl⟩, rfl⟩ : (s = u ∧ e' = e) ∧ past = older := by simpa using hpast
          exact run
      | cons x newer =>
          have hrest : past = newer ++ (u, e) :: older := by
            simpa using (List.cons_eq_cons.mp hpast).2
          exact ih hrest

end Run
