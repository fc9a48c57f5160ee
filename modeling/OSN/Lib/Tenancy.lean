import Mathlib.Algebra.Notation.Defs
import Mathlib.Logic.Function.Basic
import Mathlib.Tactic.Common

/-!
# Rooms that are given out one at a time

Tenants live in rooms; the room `0` is none.  `Tenancy room taken f` says that no room
has two tenants and that the rooms taken are just those somebody lives in.  It is kept
when a tenant moves into a free room or out of its own.
-/

variable {ι β : Type} [Zero β] {room taken taken' : β → Prop} {f g : ι → β} {i j : ι} {b : β}

/-- Tenant `i` lives in `f i`. -/
structure Tenancy (room taken : β → Prop) (f : ι → β) : Prop where
  zero : ¬ room 0
  alone : ∀ {i j}, f i ≠ 0 → f i = f j → i = j
  inRoom : ∀ {i}, f i ≠ 0 → room (f i)
  taken_iff : ∀ {b}, room b → (taken b ↔ ∃ i, f i = b)

namespace Tenancy

/-- The same tenants in the same rooms. -/
theorem congr (h : Tenancy room taken f) (hf : ∀ i, g i = f i)
    (ht : ∀ b, room b → (taken' b ↔ taken b)) : Tenancy room taken' g := by
  obtain rfl : g = f := funext hf
  exact ⟨h.zero, h.alone, h.inRoom, fun hb => (ht _ hb).trans (h.taken_iff hb)⟩

theorem ne_zero (h : Tenancy room taken f) (hb : room b) : b ≠ 0 := by
  rintro rfl
  exact h.zero hb

/-- A room that is not taken has no tenant. -/
theorem vacant (h : Tenancy room taken f) (hb : room b) (hfree : ¬ taken b) (i : ι) : f i ≠ b :=
  fun hi => hfree ((h.taken_iff hb).mpr ⟨i, hi⟩)

/-- A tenant's room is taken. -/
theorem lives (h : Tenancy room taken f) (hi : f i ≠ 0) : taken (f i) :=
  (h.taken_iff (h.inRoom hi)).mpr ⟨i, rfl⟩

/-- Different tenants, different rooms. -/
theorem apart (h : Tenancy room taken f) (hij : i ≠ j) (hi : f i ≠ 0) : f i ≠ f j :=
  fun heq => hij (h.alone hi heq)

/-- **Some tenants make way for others** in their rooms and the free ones. -/
theorem exchange {P : ι → Prop} (part : β → Prop) (h : Tenancy room taken f)
    (hpart : ∀ {b}, part b ↔ room b ∧ (¬ taken b ∨ ∃ i, P i ∧ f i = b))
    (hother : ∀ i, ¬ P i → g i = f i)
    (halone : ∀ {i j}, P i → P j → g i ≠ 0 → g i = g j → i = j)
    (hin : ∀ {i}, P i → g i ≠ 0 → part (g i))
    (hinner : ∀ {b}, part b → (taken' b ↔ ∃ i, P i ∧ g i = b))
    (houter : ∀ {b}, room b → ¬ part b → taken' b) : Tenancy room taken' g := by
  -- those that stay are in none of these rooms
  have hstays : ∀ {i}, ¬ P i → f i ≠ 0 → ¬ part (f i) := by
    intro i hi hne hbad
    rcases (hpart.mp hbad).2 with hfree | ⟨j, hj, heq⟩
    · exact hfree (h.lives hne)
    · exact hi (h.alone hne heq.symm ▸ hj)
  refine ⟨h.zero, ?_, ?_, ?_⟩
  · intro i j hi hij
    by_cases hPi : P i
    · by_cases hPj : P j
      · exact halone hPi hPj hi hij
      · have hroom := hin hPi hi
        rw [hij, hother j hPj] at hroom
        exact absurd hroom (hstays hPj (hother j hPj ▸ hij ▸ hi))
    · by_cases hPj : P j
      · have hroom := hin hPj (hij ▸ hi)
        rw [← hij, hother i hPi] at hroom
        exact absurd hroom (hstays hPi (hother i hPi ▸ hi))
      · rw [hother i hPi] at hi hij
        exact h.alone hi (hij.trans (hother j hPj))
  · intro i hi
    by_cases hPi : P i
    · exact (hpart.mp (hin hPi hi)).1
    · rw [hother i hPi] at hi ⊢
      exact h.inRoom hi
  · intro b hb
    by_cases hpartb : part b
    · rw [hinner hpartb]
      constructor
      · rintro ⟨i, -, hi⟩
        exact ⟨i, hi⟩
      · rintro ⟨i, rfl⟩
        by_cases hPi : P i
        · exact ⟨i, hPi, rfl⟩
        · rw [hother i hPi] at hb hpartb
          exact absurd hpartb (hstays hPi (h.ne_zero hb))
    · refine iff_of_true (houter hb hpartb) ?_
      have htaken : taken b := by
        by_contra hfree
        exact hpartb (hpart.mpr ⟨hb, Or.inl hfree⟩)
      obtain ⟨i, rfl⟩ := (h.taken_iff hb).mp htaken
      exact ⟨i, hother i fun hPi => hpartb (hpart.mpr ⟨hb, Or.inr ⟨i, hPi, rfl⟩⟩)⟩

variable [DecidableEq ι]

/-- **A tenant moves in.** -/
theorem moveIn (h : Tenancy room taken f) (hb : room b) (hfree : ¬ taken b) (hi : f i = 0)
    (ht : ∀ c, room c → (taken' c ↔ taken c ∨ c = b)) :
    Tenancy room taken' (Function.update f i b) := by
  have hother : ∀ j, j ≠ i → Function.update f i b j = f j := fun j hj =>
    Function.update_of_ne hj b f
  refine ⟨h.zero, ?_, ?_, ?_⟩
  · intro j k hj hjk
    by_cases hji : j = i
    · by_cases hki : k = i
      · rw [hji, hki]
      · rw [hji, Function.update_self, hother k hki] at hjk
        exact absurd hjk.symm (h.vacant hb hfree k)
    · rw [hother j hji] at hj hjk
      by_cases hki : k = i
      · rw [hki, Function.update_self] at hjk
        exact absurd hjk (h.vacant hb hfree j)
      · rw [hother k hki] at hjk
        exact h.alone hj hjk
  · intro j hj
    by_cases hji : j = i
    · rw [hji, Function.update_self]
      exact hb
    · rw [hother j hji] at hj ⊢
      exact h.inRoom hj
  · intro c hc
    rw [ht c hc, h.taken_iff hc]
    constructor
    · rintro (⟨j, rfl⟩ | rfl)
      · have hji : j ≠ i := by
          rintro rfl
          exact h.ne_zero hc hi
        exact ⟨j, hother j hji⟩
      · exact ⟨i, Function.update_self i c f⟩
    · rintro ⟨j, hj⟩
      by_cases hji : j = i
      · rw [hji, Function.update_self] at hj
        exact Or.inr hj.symm
      · rw [hother j hji] at hj
        exact Or.inl ⟨j, hj⟩

/-- **A tenant moves out.** -/
theorem moveOut (h : Tenancy room taken f) (hi : f i ≠ 0)
    (ht : ∀ c, room c → (taken' c ↔ taken c ∧ c ≠ f i)) :
    Tenancy room taken' (Function.update f i 0) := by
  have hother : ∀ j, j ≠ i → Function.update f i 0 j = f j := fun j hj =>
    Function.update_of_ne hj 0 f
  have hne : ∀ {j}, Function.update f i 0 j ≠ 0 → j ≠ i := by
    rintro j hj rfl
    exact hj (Function.update_self j 0 f)
  refine ⟨h.zero, ?_, ?_, ?_⟩
  · intro j k hj hjk
    have hji := hne hj
    have hki := hne (hjk ▸ hj)
    rw [hother j hji] at hj hjk
    rw [hother k hki] at hjk
    exact h.alone hj hjk
  · intro j hj
    have hji := hne hj
    rw [hother j hji] at hj ⊢
    exact h.inRoom hj
  · intro c hc
    rw [ht c hc, h.taken_iff hc]
    constructor
    · rintro ⟨⟨j, rfl⟩, hne'⟩
      have hji : j ≠ i := by
        rintro rfl
        exact hne' rfl
      exact ⟨j, hother j hji⟩
    · rintro ⟨j, hj⟩
      have hji : j ≠ i := hne (hj ▸ h.ne_zero hc)
      rw [hother j hji] at hj
      refine ⟨⟨j, hj⟩, ?_⟩
      rintro rfl
      exact hji (h.alone (hj ▸ h.ne_zero hc) hj)

end Tenancy
