import Mathlib.Tactic.Common

/-!
# How stateful code that may fail ends

`Ends x s Q E`: started in `s`, the code `x` returns in a state of which `Q` holds, or
fails in one of which `E` holds.  A failure keeps the state it happened in.  There is
one rule for each way to put code together.

`Component` is a component of a state; code for the component runs in the whole and leaves
the rest alone.
-/

variable {ε σ τ α β : Type}

/-- See the top of this file. -/
def Ends (x : EStateM ε σ α) (s : σ) (Q : α → σ → Prop) (E : ε → σ → Prop) : Prop :=
  match x s with
  | .ok a t => Q a t
  | .error e t => E e t

instance {x : EStateM ε σ α} {s : σ} {Q : α → σ → Prop} {E : ε → σ → Prop}
    [∀ a t, Decidable (Q a t)] [∀ e t, Decidable (E e t)] : Decidable (Ends x s Q E) := by
  unfold Ends
  split <;> infer_instance

namespace Ends

variable {x : EStateM ε σ α} {f : α → EStateM ε σ β} {s : σ} {Q Q' : α → σ → Prop}
  {R : β → σ → Prop} {E E' : ε → σ → Prop} {a : α} {e : ε}

theorem mono (h : Ends x s Q E) (hQ : ∀ a t, Q a t → Q' a t) (hE : ∀ e t, E e t → E' e t) :
    Ends x s Q' E' := by
  unfold Ends at h ⊢
  split at h
  · exact hQ _ _ h
  · exact hE _ _ h

/-- Only what is known of a return changes. -/
theorem post (h : Ends x s Q E) (hQ : ∀ a t, Q a t → Q' a t) : Ends x s Q' E :=
  h.mono hQ fun _ _ he => he

theorem and (h : Ends x s Q E) (h' : Ends x s Q' E') :
    Ends x s (fun a t => Q a t ∧ Q' a t) fun e t => E e t ∧ E' e t := by
  unfold Ends at h h' ⊢
  split <;> simp_all

/-- Code that returns. -/
theorem ok {t : σ} (h : Ends x s Q E) (hx : x s = .ok a t) : Q a t := by
  unfold Ends at h
  rwa [hx] at h

/-- Code that fails. -/
theorem failed {t : σ} (h : Ends x s Q E) (hx : x s = .error e t) : E e t := by
  unfold Ends at h
  rwa [hx] at h

/-- Code that cannot fail. -/
theorem exists_ok (h : Ends x s Q fun _ _ => False) : ∃ a t, x s = .ok a t ∧ Q a t := by
  unfold Ends at h
  split at h
  next a t hx => exact ⟨a, t, hx, h⟩
  next => exact h.elim

/-- The first part of the code returns. -/
theorem bind_of_ok {t : σ} (hx : x s = .ok a t) : (x >>= f) s = f a t := by
  simp only [Bind.bind, EStateM.bind, hx]

theorem of_ok {t : σ} (hx : x s = .ok a t) (h : Q a t) : Ends x s Q E := by
  unfold Ends
  rwa [hx]

@[simp] theorem pure_iff : Ends (pure a) s Q E ↔ Q a s := Iff.rfl

@[simp] theorem throw_iff : Ends (throw e : EStateM ε σ α) s Q E ↔ E e s := Iff.rfl

@[simp] theorem get_iff {Q : σ → σ → Prop} : Ends (get : EStateM ε σ σ) s Q E ↔ Q s s := Iff.rfl

@[simp] theorem modify_iff {g : σ → σ} {Q : PUnit → σ → Prop} :
    Ends (modify g : EStateM ε σ PUnit) s Q E ↔ Q ⟨⟩ (g s) := Iff.rfl

@[simp] theorem set_iff {t : σ} {Q : PUnit → σ → Prop} :
    Ends (set t : EStateM ε σ PUnit) s Q E ↔ Q ⟨⟩ t := Iff.rfl

/-- **The rule of sequence.** -/
theorem bind_iff : Ends (x >>= f) s R E ↔ Ends x s (fun a t => Ends (f a) t R E) E := by
  unfold Ends
  simp only [bind, EStateM.bind]
  cases x s <;> rfl

theorem bind (h : Ends x s Q E) (hf : ∀ a t, Q a t → Ends (f a) t R E) :
    Ends (x >>= f) s R E :=
  bind_iff.mpr (h.post hf)

/-- What is returned is made of what the code has got. -/
theorem map_iff {g : α → β} :
    Ends (g <$> x) s R E ↔ Ends x s (fun a t => R (g a) t) E := by
  unfold Ends
  simp only [Functor.map, EStateM.map]
  cases x s <;> rfl

/-- Code that returns something made of what it has got. -/
theorem returned {t : σ} {g : α → β} {b : β} (h : Ends x s Q E)
    (hx : (x >>= fun a => Pure.pure (g a)) s = .ok b t) : ∃ a, b = g a ∧ Q a t := by
  have hbind : Ends (x >>= fun a => Pure.pure (g a)) s (fun b t => ∃ a, b = g a ∧ Q a t) E :=
    bind_iff.mpr (h.post fun a _ ha => ⟨a, rfl, ha⟩)
  exact hbind.ok hx

/-- The state is read and the code goes on. -/
@[simp] theorem get_bind_iff {f : σ → EStateM ε σ β} : Ends (get >>= f) s R E ↔ Ends (f s) s R E :=
  Iff.rfl

/-- The state is changed and the code goes on. -/
@[simp] theorem set_bind_iff {t : σ} {f : PUnit → EStateM ε σ β} :
    Ends (set t >>= f) s R E ↔ Ends (f ⟨⟩) t R E := Iff.rfl

@[simp] theorem modify_bind_iff {g : σ → σ} {f : PUnit → EStateM ε σ β} :
    Ends (modify g >>= f) s R E ↔ Ends (f ⟨⟩) (g s) R E := Iff.rfl

@[simp] theorem pure_bind_iff {f : α → EStateM ε σ β} :
    Ends (Pure.pure a >>= f) s R E ↔ Ends (f a) s R E := Iff.rfl

/-- **The rule of a loop over a list.**  The invariant sees what is left of the list. -/
theorem forM {xs : List β} {g : β → EStateM ε σ PUnit} {I : List β → σ → Prop}
    (hs : I xs s) (hstep : ∀ y ys t, I (y :: ys) t → Ends (g y) t (fun _ => I ys) E) :
    Ends (xs.forM g) s (fun _ => I []) E := by
  induction xs generalizing s with
  | nil => exact hs
  | cons y ys ih =>
      exact (hstep y ys s hs).bind (f := fun _ => ys.forM g) fun _ t ht => ih ht

/-- **The rule of a loop that counts.** -/
theorem forM_range {n : Nat} {g : Nat → EStateM ε σ PUnit} {I : Nat → σ → Prop} (hs : I 0 s)
    (hstep : ∀ i < n, ∀ t, I i t → Ends (g i) t (fun _ => I (i + 1)) E) :
    Ends ((List.range n).forM g) s (fun _ => I n) E := by
  refine (Ends.forM (I := fun ys t => ∃ i, ys = (List.range n).drop i ∧ i ≤ n ∧ I i t)
    ⟨0, rfl, Nat.zero_le n, hs⟩ ?_).post ?_
  · rintro y ys t ⟨i, hcons, -, ht⟩
    have hlt : i < n := by
      by_contra hge
      rw [List.drop_of_length_le (by rw [List.length_range]; omega)] at hcons
      cases hcons
    rw [List.drop_eq_getElem_cons (by rwa [List.length_range]), List.getElem_range] at hcons
    obtain ⟨rfl, rfl⟩ := List.cons.inj hcons
    exact (hstep y hlt t ht).post fun _ u hu => ⟨y + 1, rfl, hlt, hu⟩
  · rintro - t ⟨i, hnil, hi, ht⟩
    have hlength := congrArg List.length hnil
    rw [List.length_drop, List.length_range, List.length_nil] at hlength
    obtain rfl : i = n := by omega
    exact ht

end Ends

/-- A state that is read twice. -/
theorem get_get {g : σ → σ → EStateM ε σ α} :
    (do let s ← get; let s' ← get; g s s') = (do let s ← get; g s s) := rfl

/-- What holds if the code returns. -/
abbrev IfOk (x : EStateM ε σ α) (s : σ) (Q : α → σ → Prop) : Prop := Ends x s Q fun _ _ => True

theorem IfOk.both {x : EStateM ε σ α} {s : σ} {Q Q' : α → σ → Prop} (h : IfOk x s Q)
    (h' : IfOk x s Q') : IfOk x s fun a t => Q a t ∧ Q' a t :=
  (Ends.and h h').mono (fun _ _ hq => hq) fun _ _ _ => trivial

/-- More is known of a return. -/
theorem Ends.andOk {x : EStateM ε σ α} {s : σ} {Q Q' : α → σ → Prop} {E : ε → σ → Prop}
    (h : Ends x s Q E) (h' : IfOk x s Q') : Ends x s (fun a t => Q a t ∧ Q' a t) E :=
  (Ends.and h h').mono (fun _ _ hq => hq) fun _ _ he => he.1

/-- Code that keeps a property of the state. -/
def Keeps (P : σ → Prop) (x : EStateM ε σ α) : Prop := ∀ s, P s → IfOk x s fun _ => P

namespace Keeps

variable {P : σ → Prop} {x : EStateM ε σ α} {f : α → EStateM ε σ β}

theorem bind (hx : Keeps P x) (hf : ∀ a, Keeps P (f a)) : Keeps P (x >>= f) :=
  fun s hs => Ends.bind (hx s hs) fun a t ht => hf a t ht

theorem pure (a : α) : Keeps P (Pure.pure a : EStateM ε σ α) := fun _ hs => hs

theorem throw (e : ε) : Keeps P (throw e : EStateM ε σ α) := fun _ _ => trivial

theorem modify {g : σ → σ} (h : ∀ s, P s → P (g s)) :
    Keeps P (modify g : EStateM ε σ PUnit) := h

theorem get_bind {f : σ → EStateM ε σ β} (h : ∀ s, P s → IfOk (f s) s fun _ => P) :
    Keeps P (get >>= f) := h

theorem forM {xs : List β} {g : β → EStateM ε σ PUnit} (h : ∀ y, Keeps P (g y)) :
    Keeps P (xs.forM g) :=
  fun _ hs => Ends.forM (I := fun _ => P) hs fun y _ t ht => h y t ht

theorem ite {c : Prop} [Decidable c] {y : EStateM ε σ α} (hx : Keeps P x) (hy : Keeps P y) :
    Keeps P (if c then x else y) := by
  split
  · exact hx
  · exact hy

/-- What is known of the state before holds after it too. -/
theorem ifOk {s : σ} (hx : Keeps P x) (hs : P s) : IfOk x s fun _ => P := hx s hs

end Keeps

/-- What code fails with, wherever it starts. -/
def Throws (E : ε → Prop) (x : EStateM ε σ α) : Prop :=
  ∀ s, Ends x s (fun _ _ => True) fun e _ => E e

namespace Throws

variable {E : ε → Prop} {x : EStateM ε σ α} {f : α → EStateM ε σ β}

theorem bind (hx : Throws E x) (hf : ∀ a, Throws E (f a)) : Throws E (x >>= f) :=
  fun s => Ends.bind (hx s) fun a t _ => hf a t

theorem pure (a : α) : Throws E (Pure.pure a : EStateM ε σ α) := fun _ => trivial

theorem throw {e : ε} (h : E e) : Throws E (throw e : EStateM ε σ α) := fun _ => h

theorem modify (g : σ → σ) : Throws E (modify g : EStateM ε σ PUnit) := fun _ => trivial

theorem get_bind {f : σ → EStateM ε σ β} (h : ∀ s, Throws E (f s)) : Throws E (get >>= f) :=
  fun s => h s s

theorem forM {xs : List β} {g : β → EStateM ε σ PUnit} (h : ∀ y, Throws E (g y)) :
    Throws E (xs.forM g) :=
  fun _ => Ends.forM (I := fun _ _ => True) trivial fun y _ t _ => h y t

end Throws

/-- A component of a state. -/
structure Component (σ τ : Type) where
  get : σ → τ
  set : τ → σ → σ

/-- Code for a component. -/
def Component.run (comp : Component σ τ) (x : EStateM ε τ α) : EStateM ε σ α := fun s =>
  match x (comp.get s) with
  | .ok a t => .ok a (comp.set t s)
  | .error e t => .error e (comp.set t s)

/-- **The rule of a component.** -/
theorem Ends.component_iff {comp : Component σ τ} {x : EStateM ε τ α} {s : σ} {Q : α → σ → Prop}
    {E : ε → σ → Prop} :
    Ends (comp.run x) s Q E ↔
      Ends x (comp.get s) (fun a t => Q a (comp.set t s)) fun e t => E e (comp.set t s) := by
  unfold Ends Component.run
  cases x (comp.get s) <;> rfl

/-- Failures under another name. -/
theorem Ends.adaptExcept_iff {ε' : Type} {x : EStateM ε σ α} {g : ε → ε'} {s : σ}
    {Q : α → σ → Prop} {E : ε' → σ → Prop} :
    Ends (x.adaptExcept g) s Q E ↔ Ends x s Q fun e t => E (g e) t := by
  unfold Ends EStateM.adaptExcept
  cases x s <;> rfl
