import OSN.Lib.Refinement

/-!
# A journal of whole operations

Clients write to a store between the beginning and the end of their operations.  From time to
time, when no operation is under way, all that has been written is made to last.  A crash takes
the store back to what lasts, and ends all operations.

So what lasts is what whole operations have made of the store: `survivors` picks their deeds
from all deeds, and done alone, without a crash, they lead to it (`survivors_make`).
-/

/-- What lasts, what is read, and which clients are in an operation. -/
structure Journal (C A V : Type) where
  durable : A → V
  view : A → V
  inside : C → Prop

namespace Journal

open Refinement (Traces)

/-- What may happen to a store. -/
inductive Deed (C A V : Type) where
  | begin (c : C)
  | write (c : C) (a : A) (v : V)
  | done (c : C)
  /-- What is read is made to last. -/
  | commit
  /-- A client is told that everything lasts. -/
  | synced
  | crash

variable {C A V : Type}

/-- What a client does. -/
def Deed.Plain : Deed C A V → Prop
  | .begin _ | .write _ _ _ | .done _ => True
  | .commit | .synced | .crash => False

/-- The deeds that can be seen, and those that a crash would leave. -/
def survivors : List (Deed C A V) → List (Deed C A V) × List (Deed C A V)
  | [] => ([], [])
  | .commit :: ds => ((survivors ds).1, (survivors ds).1)
  | .synced :: ds => survivors ds
  | .crash :: ds => ((survivors ds).2, (survivors ds).2)
  | d :: ds => (d :: (survivors ds).1, (survivors ds).2)

/-- Nothing is made up. -/
theorem survivors_sublist (ds : List (Deed C A V)) :
    (survivors ds).1.Sublist ds ∧ (survivors ds).2.Sublist ds := by
  induction ds with
  | nil => exact ⟨.slnil, .slnil⟩
  | cons d ds ih =>
      cases d with
      | begin | write | done => exact ⟨ih.1.cons_cons _, ih.2.cons _⟩
      | commit => exact ⟨ih.1.cons _, ih.1.cons _⟩
      | synced => exact ⟨ih.1.cons _, ih.2.cons _⟩
      | crash => exact ⟨ih.2.cons _, ih.2.cons _⟩

/-- Crashes leave no trace. -/
theorem survivors_plain (ds : List (Deed C A V)) :
    (∀ d ∈ (survivors ds).1, d.Plain) ∧ ∀ d ∈ (survivors ds).2, d.Plain := by
  induction ds with
  | nil => simp [survivors]
  | cons d ds ih =>
      cases d with
      | begin | write | done =>
          refine ⟨fun d hd => ?_, ih.2⟩
          rcases List.mem_cons.mp hd with rfl | hd
          · trivial
          · exact ih.1 d hd
      | commit => exact ⟨ih.1, ih.1⟩
      | synced => exact ih
      | crash => exact ⟨ih.2, ih.2⟩

/-- A store before its first operation. -/
def opens (base : A → V) : Journal C A V where
  durable := base
  view := base
  inside := fun _ => False

variable [DecidableEq C] [DecidableEq A] {base : A → V} {ds : List (Deed C A V)}
  {j : Journal C A V}

/-- **What each deed does**, and when it may be done. -/
inductive Step (j : Journal C A V) : Deed C A V → Journal C A V → Prop
  | begin {c : C} (h : ¬ j.inside c) :
      Step j (.begin c) { j with inside := Function.update j.inside c True }
  | write {c : C} {a : A} {v : V} (h : j.inside c) :
      Step j (.write c a v) { j with view := Function.update j.view a v }
  | done {c : C} (h : j.inside c) :
      Step j (.done c) { j with inside := Function.update j.inside c False }
  | commit (h : ∀ c, ¬ j.inside c) : Step j .commit { j with durable := j.view }
  | synced (h : j.durable = j.view) : Step j .synced j
  | crash : Step j .crash { j with view := j.durable, inside := fun _ => False }

/-- `j` is what these deeds make of the store. -/
abbrev Makes (base : A → V) (ds : List (Deed C A V)) (j : Journal C A V) : Prop :=
  Traces (· = opens base) Step ds j

/-- What plain deeds do leaves aside what lasts. -/
theorem Step.plain {d : Deed C A V} {j' u : Journal C A V} (h : Step j d j') (hd : d.Plain)
    (hview : u.view = j.view) (hinside : u.inside = j.inside) :
    ∃ u', Step u d u' ∧ u'.view = j'.view ∧ u'.inside = j'.inside := by
  cases h with
  | @begin c h =>
      exact ⟨_, .begin (hinside ▸ h), hview, congrArg (Function.update · c True) hinside⟩
  | @write c a v h =>
      exact ⟨_, .write (hinside ▸ h), congrArg (Function.update · a v) hview, hinside⟩
  | @done c h =>
      exact ⟨_, .done (hinside ▸ h), hview, congrArg (Function.update · c False) hinside⟩
  | commit | synced | crash => exact hd.elim

/-- **Only survivors count**: done alone, those that can be seen lead to what is read and to
the same operations under way, and those that a crash would leave lead to what lasts and to no
operation under way. -/
theorem survivors_make (h : Makes base ds j) :
    (∃ u, Makes base (survivors ds).1 u ∧ u.view = j.view ∧ u.inside = j.inside) ∧
      ∃ u, Makes base (survivors ds).2 u ∧ u.view = j.durable ∧ ∀ c, ¬ u.inside c := by
  induction h with
  | init h =>
      subst h
      exact ⟨⟨_, .init rfl, rfl, rfl⟩, _, .init rfl, rfl, fun c => id⟩
  | @step ds j j' d trace hstep ih =>
      obtain ⟨hseen, hkept⟩ := ih
      obtain ⟨u, hu, hview, hinside⟩ := hseen
      have hplain : d.Plain → (survivors (d :: ds)).1 = d :: (survivors ds).1 →
          ∃ u, Makes base (survivors (d :: ds)).1 u ∧ u.view = j'.view ∧ u.inside = j'.inside := by
        intro hd heq
        obtain ⟨u', hu', hview', hinside'⟩ := hstep.plain hd hview hinside
        rw [heq]
        exact ⟨u', hu.step hu', hview', hinside'⟩
      cases hstep with
      | begin | write | done => exact ⟨hplain trivial rfl, hkept⟩
      | commit hnobody =>
          refine ⟨⟨u, hu, hview, hinside⟩, u, hu, hview, fun c => ?_⟩
          rw [hinside]
          exact hnobody c
      | synced => exact ⟨⟨u, hu, hview, hinside⟩, hkept⟩
      | crash =>
          obtain ⟨w, hw, hlasts, hnobody⟩ := hkept
          refine ⟨⟨w, hw, hlasts, ?_⟩, w, hw, hlasts, hnobody⟩
          funext c
          exact propext (iff_of_false (hnobody c) id)

end Journal
