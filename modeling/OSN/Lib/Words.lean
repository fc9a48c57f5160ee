import Mathlib.Data.List.Basic
import Mathlib.Data.List.TakeWhile
import Mathlib.Tactic.Common

/-!
# The words of a text

A text is a list over any alphabet, of which some elements are separators.
`words` are the longest runs without one; `extract` gets one word after the
other, as an input stream does it: where no word is left it gives back the one
it was given.
-/

namespace Words

variable {α : Type} {sep : α → Bool} {c : α} {s w rest : List α} {ws : List (List α)}

/-- The words of a text. -/
def words (sep : α → Bool) (s : List α) : List (List α) :=
  (s.splitOnP sep).filter fun w => !w.isEmpty

/-- The next word, if there is one, with what is left of the text. -/
def extract (sep : α → Bool) (w s : List α) : List α × List α :=
  let s := s.dropWhile sep
  if s.isEmpty then (w, []) else (s.takeWhile (!sep ·), s.dropWhile (!sep ·))

/-- Something that can stand as a word. -/
def IsWord (sep : α → Bool) (w : List α) : Prop := w ≠ [] ∧ ∀ c ∈ w, sep c = false

@[simp] theorem words_nil : words sep [] = [] := rfl

theorem words_cons_sep (h : sep c = true) : words sep (c :: s) = words sep s := by
  simp [words, List.splitOnP_cons_eq_if_modifyHead, h]

theorem words_dropWhile : words sep (s.dropWhile sep) = words sep s := by
  induction s with
  | nil => rfl
  | cons c s ih =>
      by_cases hc : sep c = true
      · rw [List.dropWhile_cons_of_pos hc, ih, words_cons_sep hc]
      · rw [List.dropWhile_cons_of_neg hc]

theorem words_singleton (h : IsWord sep w) : words sep w = [w] := by
  simp [words, List.splitOnP_eq_singleton h.2, h.1]

/-- A word ends at the first separator. -/
theorem words_append (h : IsWord sep w) (hc : sep c = true) :
    words sep (w ++ c :: rest) = w :: words sep rest := by
  simp [words, List.splitOnP_append_cons_of_forall_mem h.2 c hc, h.1]

/-- A text that does not start with a separator starts with a word. -/
theorem words_of_head (h : sep c = false) : words sep (c :: s) =
    (c :: s).takeWhile (!sep ·) :: words sep ((c :: s).dropWhile (!sep ·)) := by
  have hsplit := List.takeWhile_append_dropWhile (p := (!sep ·)) (l := c :: s)
  have hword : IsWord sep ((c :: s).takeWhile (!sep ·)) := by
    refine ⟨by simp [h], fun a ha => ?_⟩
    simpa using List.mem_takeWhile_imp ha
  cases hrest : (c :: s).dropWhile (!sep ·) with
  | nil =>
      rw [hrest, List.append_nil] at hsplit
      rw [hsplit] at hword ⊢
      exact words_singleton hword
  | cons a rest =>
      have hsep : sep a = true := by
        have hhead := List.head_dropWhile_not (p := (!sep ·)) (l := c :: s) (by simp [hrest])
        simpa [hrest] using hhead
      rw [hrest] at hsplit
      conv_lhs => rw [← hsplit]
      rw [words_append hword hsep, words_cons_sep hsep]

/-- **What `extract` does**: it takes the first of the words. -/
theorem extract_eq : (extract sep w s).1 = (words sep s).head?.getD w ∧
    words sep (extract sep w s).2 = (words sep s).tail := by
  rw [← words_dropWhile]
  unfold extract
  cases hrest : s.dropWhile sep with
  | nil => exact ⟨rfl, rfl⟩
  | cons c rest =>
      have hc : sep c = false := by
        have hhead := List.head_dropWhile_not (p := sep) (l := s) (by simp [hrest])
        simpa [hrest] using hhead
      rw [words_of_head hc]
      exact ⟨rfl, rfl⟩

/-- **Words that are put together with one separator between any two are read
back.** -/
theorem words_intercalate (hc : sep c = true) (h : ∀ w ∈ ws, IsWord sep w) :
    words sep ([c].intercalate ws) = ws := by
  induction ws with
  | nil => rfl
  | cons w ws ih =>
      have hw := h w List.mem_cons_self
      have hws := ih fun w hw => h w (List.mem_cons_of_mem _ hw)
      cases ws with
      | nil => simpa using words_singleton hw
      | cons w' ws =>
          rw [List.intercalate_cons_cons, List.append_assoc, List.singleton_append,
            words_append hw hc, hws]

end Words
