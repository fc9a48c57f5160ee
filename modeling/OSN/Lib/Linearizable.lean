import Mathlib.Data.List.Basic
import Mathlib.Data.List.Nodup
import Mathlib.Tactic.Common

/-!
# Linearizability

An object answers the calls of concurrent clients.  Its history is
linearizable if the calls could have been made one after another: there is an
order of calls, each answered as the sequential object answers it then, with
all calls that returned among them, and a call that returned before another
began comes before it.

To show a history linearizable one names for each call the step in which it
takes effect: the order is extended in that step (`Linearizes.effect`), and the
beginnings and ends of calls keep it (`Linearizes.call`, `Linearizes.ret`).
-/

namespace Linearizable

/-- A sequential object. -/
structure Spec (S Op Ans : Type) where
  init : S
  step : S → Op → S × Ans

/-- What a client sees: call `i` begins, or returns. -/
inductive Action (Op Ans : Type) where
  | call (i : Nat) (op : Op)
  | ret (i : Nat) (ans : Ans)
  deriving DecidableEq

/-- A call that has taken effect, with its answer. -/
structure Done (Op Ans : Type) where
  id : Nat
  op : Op
  ans : Ans

variable {S Op Ans : Type} (spec : Spec S Op Ans)

/-- The sequential object after calls, from state `s`. -/
def Spec.after (s : S) : List (Done Op Ans) → S
  | [] => s
  | d :: order => Spec.after (spec.step s d.op).1 order

/-- The answers are those of the sequential object, from state `s`. -/
def Spec.Legal (s : S) : List (Done Op Ans) → Prop
  | [] => True
  | d :: order => (spec.step s d.op).2 = d.ans ∧ Spec.Legal (spec.step s d.op).1 order

/-- The calls of an order. -/
def ids (order : List (Done Op Ans)) : List Nat := order.map Done.id

/-- **The order explains the history**, which is oldest first. -/
structure Linearizes (history : List (Action Op Ans)) (order : List (Done Op Ans)) : Prop where
  legal : spec.Legal spec.init order
  once : (ids order).Nodup
  called : ∀ d ∈ order, .call d.id d.op ∈ history
  answered : ∀ i ans, .ret i ans ∈ history → ∃ op, ⟨i, op, ans⟩ ∈ order
  realTime : ∀ i j ans op, [.ret i ans, .call j op].Sublist history → j ∈ ids order →
    [i, j].Sublist (ids order)

variable {spec} {s : S} {history : List (Action Op Ans)} {order rest : List (Done Op Ans)}
  {d : Done Op Ans} {i : Nat} {op : Op} {ans : Ans}

theorem Spec.after_append : spec.after s (order ++ rest) =
    spec.after (spec.after s order) rest := by
  induction order generalizing s with
  | nil => rfl
  | cons d order ih => exact ih

theorem Spec.legal_append :
    spec.Legal s (order ++ rest) ↔ spec.Legal s order ∧ spec.Legal (spec.after s order) rest := by
  induction order generalizing s with
  | nil => simp [Spec.Legal, Spec.after]
  | cons d order ih => simp [Spec.Legal, Spec.after, ih, and_assoc]

@[simp] theorem ids_append : ids (order ++ rest) = ids order ++ ids rest := List.map_append

@[simp] theorem ids_singleton : ids [d] = [d.id] := rfl

theorem mem_ids_of_mem (hd : d ∈ order) : d.id ∈ ids order := List.mem_map_of_mem hd

/-- Two actions in a row, of which the second is not the last. -/
theorem sublist_of_concat {α : Type} {x y z : α} {xs : List α} (h : [x, y].Sublist (xs ++ [z]))
    (hne : y ≠ z) : [x, y].Sublist xs := by
  obtain ⟨front, back, hsplit, hfront, hback⟩ := List.sublist_append_iff.mp h
  cases back with
  | nil => simpa [hsplit] using hfront
  | cons b back =>
      obtain ⟨rfl, rfl⟩ : b = z ∧ back = [] := by
        have hlen : (b :: back).length ≤ 1 := hback.length_le
        have hnil : back = [] := List.eq_nil_of_length_eq_zero (by simpa using hlen)
        subst hnil
        exact ⟨by simpa using hback, rfl⟩
      have hlast := congrArg List.getLast? hsplit
      simp only [List.getLast?_append, List.getLast?_cons_cons, List.getLast?_singleton,
        Option.some_or] at hlast
      exact absurd (Option.some.inj hlast) hne

namespace Linearizes

theorem nil : Linearizes spec [] [] where
  legal := trivial
  once := List.nodup_nil
  called _ hd := nomatch hd
  answered _ _ hret := nomatch hret
  realTime _ _ _ _ _ hj := nomatch hj

/-- A call that is new begins. -/
theorem call (h : Linearizes spec history order) (hnew : i ∉ ids order) :
    Linearizes spec (history ++ [.call i op]) order where
  legal := h.legal
  once := h.once
  called d hd := List.mem_append_left _ (h.called d hd)
  answered j ans hret := h.answered j ans (by simpa using hret)
  realTime i' j ans op' hsub hj := by
    have hne : (Action.call j op' : Action Op Ans) ≠ .call i op := by
      intro heq
      cases heq
      exact hnew hj
    exact h.realTime i' j ans op' (sublist_of_concat hsub hne) hj

/-- A call takes effect. -/
theorem effect (h : Linearizes spec history order) (hnew : i ∉ ids order)
    (hcalled : .call i op ∈ history) :
    Linearizes spec history (order ++ [⟨i, op, (spec.step (spec.after spec.init order) op).2⟩]) where
  legal := Spec.legal_append.mpr ⟨h.legal, rfl, trivial⟩
  once := by
    rw [ids_append, ids_singleton]
    exact List.nodup_append.mpr ⟨h.once, List.nodup_singleton i, by grind⟩
  called d hd := by
    rcases List.mem_append.mp hd with hd | hd
    · exact h.called d hd
    · obtain rfl := List.mem_singleton.mp hd
      exact hcalled
  answered j ans hret := by
    obtain ⟨op', hdone⟩ := h.answered j ans hret
    exact ⟨op', List.mem_append_left _ hdone⟩
  realTime i' j ans op' hsub hj := by
    rw [ids_append, ids_singleton] at hj ⊢
    rcases List.mem_append.mp hj with hj | hj
    · exact (h.realTime i' j ans op' hsub hj).trans (List.sublist_append_left _ _)
    · -- what returned before has taken effect before
      obtain rfl := List.mem_singleton.mp hj
      obtain ⟨op'', hdone⟩ := h.answered i' ans (hsub.subset (by simp))
      have hi' : [i'].Sublist (ids order) := List.singleton_sublist.mpr (mem_ids_of_mem hdone)
      exact hi'.append (List.Sublist.refl [j])

/-- A call that has taken effect returns. -/
theorem ret (h : Linearizes spec history order) (hdone : ⟨i, op, ans⟩ ∈ order) :
    Linearizes spec (history ++ [.ret i ans]) order where
  legal := h.legal
  once := h.once
  called d hd := List.mem_append_left _ (h.called d hd)
  answered j ans' hret := by
    rcases List.mem_append.mp hret with hret | hret
    · exact h.answered j ans' hret
    · obtain ⟨rfl, rfl⟩ : j = i ∧ ans' = ans := by simpa using hret
      exact ⟨op, hdone⟩
  realTime i' j ans' op' hsub hj := h.realTime i' j ans' op' (sublist_of_concat hsub nofun) hj

end Linearizes

variable (spec)

/-- **Some order explains the history.** -/
def Explained (history : List (Action Op Ans)) : Prop :=
  ∃ order, Linearizes spec history order

end Linearizable
