import OSN.Lib.Run

/-!
# Refinement of a machine

An abstract system may choose what a deed does to it.  A machine refines it if each event is
a deed of the system or nothing to it, and a relation between the states of the two is kept:
whatever event the machine takes, the system has a choice for its deed.  Then each run of the
machine is one of the system, with the deeds of its events.
-/

namespace Refinement

variable {S E A D : Type}

/-- The deeds of a run of the abstract system, newest first, and where it has come to. -/
inductive Traces (init : A → Prop) (step : A → D → A → Prop) : List D → A → Prop
  | init {a : A} (h : init a) : Traces init step [] a
  | step {ds : List D} {a a' : A} {d : D} (trace : Traces init step ds a) (h : step a d a') :
      Traces init step (d :: ds) a'

/-- A deed, or nothing. -/
def Stutters (step : A → D → A → Prop) : Option D → A → A → Prop
  | none, a, a' => a' = a
  | some d, a, a' => step a d a'

/-- The deeds in the past of a machine, newest first. -/
def deeds (deed : S → E → Option D) (past : Past S E) : List D :=
  past.filterMap fun x => deed x.1 x.2

/-- **`R` relates the machine to the abstract system** at the start, and after each step. -/
structure Simulates (M : Machine S E) (init : A → Prop) (step : A → D → A → Prop)
    (deed : S → E → Option D) (R : S → A → Prop) : Prop where
  init : ∀ {s}, M.init s → ∃ a, init a ∧ R s a
  step : ∀ {s t a e}, R s a → M.step s e = some t → ∃ a', Stutters step (deed s e) a a' ∧ R t a'

variable {M : Machine S E} {init : A → Prop} {step : A → D → A → Prop}
  {deed : S → E → Option D} {R : S → A → Prop} {past : Past S E} {s : S} {ds : List D} {a a' : A}

theorem Traces.stutters (trace : Traces init step (deeds deed past) a) {e : E}
    (h : Stutters step (deed s e) a a') : Traces init step (deeds deed ((s, e) :: past)) a' := by
  cases hdeed : deed s e with
  | none =>
      rw [hdeed] at h
      obtain rfl : a' = a := h
      simpa [deeds, hdeed] using trace
  | some d =>
      rw [hdeed] at h
      simpa [deeds, hdeed] using trace.step h

/-- **A run of the machine is one of the abstract system.** -/
theorem Simulates.run (h : Simulates M init step deed R) (run : Run M past s) :
    ∃ a, Traces init step (deeds deed past) a ∧ R s a := by
  induction run with
  | init hs =>
      obtain ⟨a, hinit, hR⟩ := h.init hs
      exact ⟨a, .init hinit, hR⟩
  | step run hstep ih =>
      obtain ⟨a, htrace, hR⟩ := ih
      obtain ⟨a', hdeed, hR'⟩ := h.step hR hstep
      exact ⟨a', htrace.stutters hdeed, hR'⟩

/-- Each event is a deed. -/
theorem deeds_some (past : Past S E) : deeds (fun _ e => some e) past = past.map Prod.snd := by
  simp [deeds]

end Refinement
