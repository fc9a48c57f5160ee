import Mathlib.Data.List.Basic
import Mathlib.Logic.Function.Basic
import Mathlib.Tactic.Common

/-!
# A line editor

Characters that are typed can be erased until they are committed: at the end of a line,
at an end of input, or when there is no more room.  Readers take what is committed, the
oldest first.  A read ends behind the end of a line, and before an end of input; a read that
starts at an end of input takes it away and gets nothing.
-/

namespace LineEditor

/-- What somebody types. -/
inductive Key (α : Type) where
  | char (c : α)
  /-- The last character is erased. -/
  | erase
  /-- All characters that are not committed are erased. -/
  | kill
  | other

/-- What readers get. -/
inductive Output (ι α : Type) where
  | char (p : ι) (c : α)
  /-- An end of input, which is taken away. -/
  | endOfInput (p : ι)
  | returns (p : ι) (n : Int)
  deriving DecidableEq

structure Terminal (α : Type) where
  /-- How many characters there can be that are not read. -/
  room : Nat
  newline : α
  eof : α

/-- The last two fields are kept for the record. -/
structure State (ι α : Type) where
  /-- The characters that are committed and not read. -/
  ready : List α := []
  /-- Those that are not committed. -/
  edit : List α := []
  /-- The size of a read, and how much of it is missing. -/
  call : ι → Option (Int × Int) := fun _ => none
  output : List (Output ι α) := []
  /-- All characters that have been committed. -/
  committed : List α := []

inductive Event (ι α : Type) where
  | key (k : Key α)
  /-- A read of `n` characters starts. -/
  | read (p : ι) (n : Int)
  /-- A reader takes a character, or returns, or waits. -/
  | take (p : ι) (killed : Bool)

variable {ι α : Type}

section Steps

variable [DecidableEq ι] [DecidableEq α]

namespace State

def type (T : Terminal α) (s : State ι α) : Key α → State ι α
  | .char c =>
      if s.ready.length + s.edit.length < T.room then
        let edit := s.edit ++ [c]
        if c = T.newline ∨ c = T.eof ∨ s.ready.length + edit.length = T.room then
          { s with ready := s.ready ++ edit, edit := [], committed := s.committed ++ edit }
        else { s with edit }
      else s
  | .erase => { s with edit := s.edit.dropLast }
  | .kill => { s with edit := [] }
  | .other => s

def setCall (s : State ι α) (p : ι) (c : Option (Int × Int)) : State ι α :=
  { s with call := Function.update s.call p c }

def put (s : State ι α) (o : Output ι α) : State ι α := { s with output := s.output ++ [o] }

/-- A read returns. -/
def returns (s : State ι α) (p : ι) (n : Int) : State ι α := (s.setCall p none).put (.returns p n)

def take (T : Terminal α) (s : State ι α) (p : ι) (killed : Bool) : State ι α :=
  match s.call p with
  | none => s
  | some (size, n) =>
      if 0 < n then
        match s.ready with
        | [] => if killed then s.returns p (-1) else s
        | c :: rest =>
            if c = T.eof then
              -- an end of input stays there for the next read
              if n < size then s.returns p (size - n)
              else ({ s with ready := rest }.put (.endOfInput p)).returns p (size - n)
            else
              let t := { s with ready := rest }.put (.char p c)
              if c = T.newline then t.returns p (size - (n - 1))
              else t.setCall p (some (size, n - 1))
      else s.returns p (size - n)

def step (T : Terminal α) (s : State ι α) : Event ι α → State ι α
  | .key k => s.type T k
  | .read p n => s.setCall p (some (n, n))
  | .take p killed => s.take T p killed

end State

end Steps

/-- Keys do not concern the readers. -/
theorem State.type_call [DecidableEq α] (T : Terminal α) (s : State ι α) (k : Key α) :
    (s.type T k).call = s.call ∧ (s.type T k).output = s.output := by
  cases k with
  | char c =>
      rw [State.type]
      split
      · dsimp only
        split
        · exact ⟨rfl, rfl⟩
        · exact ⟨rfl, rfl⟩
      · exact ⟨rfl, rfl⟩
  | erase => exact ⟨rfl, rfl⟩
  | kill => exact ⟨rfl, rfl⟩
  | other => exact ⟨rfl, rfl⟩

/-! ### What is committed is taken once -/

/-- The characters that readers have taken. -/
def taken (T : Terminal α) (out : List (Output ι α)) : List α :=
  out.filterMap fun
    | .char _ c => some c
    | .endOfInput _ => some T.eof
    | .returns _ _ => none

theorem taken_append {T : Terminal α} (out out' : List (Output ι α)) :
    taken T (out ++ out') = taken T out ++ taken T out' := List.filterMap_append

/-- What a reader gets in one go: nothing comes behind the end of a line, and only a read
of no characters takes an end of input away. -/
inductive Block (T : Terminal α) : List (Output ι α) → Prop
  | char (p : ι) (c : α) (hline : c ≠ T.newline) (heof : c ≠ T.eof) : Block T [.char p c]
  | line (p : ι) (n : Int) : Block T [.char p T.newline, .returns p n]
  | eof (p : ι) : Block T [.endOfInput p, .returns p 0]
  | returns (p : ι) (n : Int) : Block T [.returns p n]

/-- What holds of an editor at any time. -/
structure State.Ordered (T : Terminal α) (s : State ι α) : Prop where
  committed : s.committed = taken T s.output ++ s.ready
  blocks : ∃ bs : List (List (Output ι α)), (∀ b ∈ bs, Block T b) ∧ s.output = bs.flatten
  /-- What is missing of a read is not more than its size. -/
  missing : ∀ p size n, s.call p = some (size, n) → n ≤ size

variable {T : Terminal α} {s : State ι α} {p : ι}

namespace State.Ordered

theorem init : ({} : State ι α).Ordered T :=
  ⟨rfl, ⟨[], fun _ hb => absurd hb List.not_mem_nil, rfl⟩, fun _ _ _ hnone => nomatch hnone⟩

/-- Readers get something. -/
theorem grow (h : s.Ordered T) {t : State ι α} {b : List (Output ι α)} (hb : Block T b)
    (hout : t.output = s.output ++ b) (hcommitted : t.committed = s.committed)
    (hready : s.ready = taken T b ++ t.ready)
    (hcall : ∀ q size n, t.call q = some (size, n) → n ≤ size) : t.Ordered T := by
  obtain ⟨bs, hbs, hflat⟩ := h.blocks
  refine ⟨?_, ⟨bs ++ [b], fun c hc => ?_, ?_⟩, hcall⟩
  · rw [hcommitted, h.committed, hout, taken_append, hready, List.append_assoc]
  · rcases List.mem_append.mp hc with hold | hnew
    · exact hbs c hold
    · rwa [List.mem_singleton.mp hnew]
  · rw [hout, hflat, List.flatten_append, List.flatten_singleton]

theorem type [DecidableEq α] (h : s.Ordered T) (k : Key α) : (s.type T k).Ordered T := by
  cases k with
  | char c =>
      rw [State.type]
      split
      · dsimp only
        split
        · refine ⟨?_, h.blocks, h.missing⟩
          rw [h.committed, List.append_assoc]
        · exact ⟨h.committed, h.blocks, h.missing⟩
      · exact h
  | erase => exact ⟨h.committed, h.blocks, h.missing⟩
  | kill => exact ⟨h.committed, h.blocks, h.missing⟩
  | other => exact h

variable [DecidableEq ι]

theorem setCall (h : s.Ordered T) {c : Option (Int × Int)}
    (hc : ∀ size n, c = some (size, n) → n ≤ size) :
    ∀ q size n, (s.setCall p c).call q = some (size, n) → n ≤ size := by
  intro q size n hq
  change Function.update s.call p c q = _ at hq
  by_cases hqp : q = p
  · rw [hqp, Function.update_self] at hq
    exact hc size n hq
  · rw [Function.update_of_ne hqp] at hq
    exact h.missing q size n hq

theorem returns (h : s.Ordered T) (n : Int) : (s.returns p n).Ordered T :=
  h.grow (.returns p n) rfl rfl rfl (h.setCall fun _ _ hnone => nomatch hnone)

variable [DecidableEq α]

theorem take (h : s.Ordered T) (killed : Bool) : (s.take T p killed).Ordered T := by
  unfold State.take
  split
  · exact h
  next size n hcall =>
    have hle := h.missing p size n hcall
    split
    · split
      · split
        · exact h.returns _
        · exact h
      next c rest hready =>
        split
        next heof =>
          subst heof
          split
          · exact h.returns _
          · obtain rfl : n = size := by omega
            refine h.grow (.eof p) ?_ rfl hready (h.setCall fun _ _ hnone => nomatch hnone)
            rw [Int.sub_self]
            exact List.append_assoc _ _ _
        next heof =>
          dsimp only
          split
          next hline =>
            subst hline
            exact h.grow (.line p _) (List.append_assoc _ _ _) rfl hready
              (h.setCall fun _ _ hnone => nomatch hnone)
          next hline =>
            refine h.grow (.char p c hline heof) rfl rfl hready (h.setCall fun size' n' hsome => ?_)
            cases hsome
            omega
    · exact h.returns _

/-- **A step.** -/
theorem step (h : s.Ordered T) (e : Event ι α) : (s.step T e).Ordered T := by
  cases e with
  | key k => exact h.type k
  | read p n =>
      refine ⟨h.committed, h.blocks, h.setCall fun size' n' hsome => ?_⟩
      cases hsome
      exact Int.le_refl n
  | take p killed => exact h.take killed

end State.Ordered

end LineEditor
