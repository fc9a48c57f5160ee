import OSN.Lib.Threads
import Mathlib.Data.Finset.Max
import Mathlib.Data.Fintype.Sets

/-!
# A discipline for locks, and what follows from it

A discipline says what each lock protects and what each thread may count on:
an invariant of the memory that always holds, an assertion for each free lock,
what the other harts may do meanwhile (`rely`) and what a thread may do itself
(`guar`), what holds where a context is loaded, and an order of the locks.
`Ok` is the weakest condition under which a piece of code keeps to all that.

If the code at every label and every interrupt handler is `Ok` then, in every
state that any interleaving reaches, the invariant holds, so does the
assertion of each free lock (`reachable_kept`), and no harts wait for each
other in a circle (`Kept.no_circle`).  The rules for `Triple` prove
code `Ok` piece by piece.
-/

namespace Threads

/-- The assertions of a discipline.  A *place* is a thread on a hart, with the
locks the hart holds and the memory. -/
structure Discipline (H L T K S : Type) where
  /-- A lock may be acquired over locks of smaller rank. -/
  rank : L → Nat
  /-- Holds all the time. -/
  inv : S → Prop
  /-- What a lock protects: holds while it is free. -/
  lockInv : L → S → Prop
  /-- The thread may be at this place. -/
  on : T → H → List L → S → Prop
  /-- Holds where the context of the thread is loaded. -/
  entry : T → H → List L → S → Prop
  /-- Holds where the thread jumps to the label. -/
  spec : K → T → H → List L → S → Prop
  /-- What the others may do to a thread that runs, and where it may find
  itself: interrupted without a lock it may go on at another hart. -/
  rely : T → List L → H → S → H → S → Prop
  /-- What the others may do to a thread that does not run. -/
  away : T → S → S → Prop
  /-- What a thread may do. -/
  guar : T → H → List L → S → S → Prop
  /-- May code stop for ever? -/
  mayHang : Prop

namespace Discipline

variable {H L T I K S D : Type} (d : Discipline H L T K S)

/-- What is known at every place. -/
def Here (t : T) (h : H) (held : List L) (s : S) : Prop :=
  d.inv s ∧ d.on t h held s

/-- What a thread may find when it makes its next step. -/
def Seen (t : T) (held : List L) (h : H) (s : S) (h' : H) (s' : S) : Prop :=
  d.rely t held h s h' s' ∧ d.Here t h' held s'

/-- Where a thread that was switched out in `s` may come back. -/
def Back (t : T) (s : S) (h : H) (held : List L) (s' : S) : Prop :=
  d.away t s s' ∧ d.Here t h held s' ∧ d.entry t h held s'

/-- The thread may jump to the label. -/
def Jumps (label : K) (t : T) (h : H) (held : List L) (s : S) : Prop :=
  ∀ h' s', d.Seen t held h s h' s' → d.spec label t h' held s'

/-- No hart but `h` can be running the thread. -/
def Elsewhere (t : T) (h : H) (s : S) : Prop :=
  ∀ h' held, h' ≠ h → ¬ d.on t h' held s

/-- The laws of a discipline: what one thread may do is what the others have
to expect, and a thread is on one hart at a time. -/
structure Laws : Prop where
  rely_refl : ∀ t held h s, d.rely t held h s h s
  rely_trans : ∀ {t held h s h' s' h'' s''}, d.rely t held h s h' s' →
    d.rely t held h' s' h'' s'' → d.rely t held h s h'' s''
  away_refl : ∀ t s, d.away t s s
  away_trans : ∀ {t s s' s''}, d.away t s s' → d.away t s' s'' → d.away t s s''
  on_unique : ∀ {t h held h' held' s}, d.inv s → d.on t h held s → d.on t h' held' s → h = h'
  on_acquire : ∀ {t h held s} l, d.on t h held s → d.on t h (l :: held) s
  guar_refl : ∀ t h held s, d.guar t h held s s
  guar_rely : ∀ {t h held s s' t' h' held'}, d.guar t h held s s' → d.on t h held s →
    t' ≠ t → h' ≠ h → (∀ l ∈ held', l ∉ held) → d.on t' h' held' s →
    d.rely t' held' h' s h' s' ∧ d.on t' h' held' s'
  guar_away : ∀ {t h held s s' t'}, d.guar t h held s s' → t' ≠ t → d.away t' s s'
  guar_lockInv : ∀ {t h held s s' l}, d.guar t h held s s' → l ∉ held →
    d.lockInv l s → d.lockInv l s'

variable {d}

namespace Laws

variable (laws : d.Laws) {t : T} {h h' h'' : H} {held : List L} {s s' s'' : S}
include laws

theorem seen_refl (hhere : d.Here t h held s) : d.Seen t held h s h s :=
  ⟨laws.rely_refl _ _ _ _, hhere⟩

theorem seen_trans (h₁ : d.Seen t held h s h' s') (h₂ : d.Seen t held h' s' h'' s'') :
    d.Seen t held h s h'' s'' :=
  ⟨laws.rely_trans h₁.1 h₂.1, h₂.2⟩

theorem back_trans (haway : d.away t s s') (hback : d.Back t s' h held s'') :
    d.Back t s h held s'' :=
  ⟨laws.away_trans haway hback.1, hback.2⟩

end Laws

variable [DecidableEq L] (d)

/-- **The code keeps to the discipline** if thread `t` runs it at this place,
whatever the others do between its steps. -/
def Ok (t : T) : Prog H L T I K S → H → List L → S → Prop
  | .acquire l next, h, held, s =>
      (∀ m ∈ held, d.rank m < d.rank l) ∧
        ∀ h' s', d.Seen t held h s h' s' → d.lockInv l s' →
          d.Here t h' (l :: held) s' ∧ Ok t next h' (l :: held) s'
  | .release l next, h, held, s =>
      ∀ h' s', d.Seen t held h s h' s' →
        l ∈ held ∧ d.lockInv l s' ∧ d.Here t h' (held.erase l) s' ∧
          Ok t next h' (held.erase l) s'
  | .act f next, h, held, s =>
      ∀ h' s', d.Seen t held h s h' s' →
        d.guar t h' held s' (f h' s') ∧ d.Here t h' held (f h' s') ∧
          Ok t (next h' s') h' held (f h' s')
  | .ask next, h, held, s => ∀ i, Ok t (next i) h held s
  | .swtch save load next, h, held, s =>
      ∀ h' s', d.Seen t held h s h' s' →
        save = t ∧ load ≠ t ∧ d.Elsewhere load h' s' ∧ d.Here load h' held s' ∧
          d.entry load h' held s' ∧
          ∀ h₁ held₁ s₁, d.Back t s' h₁ held₁ s₁ → Ok t next h₁ held₁ s₁
  | .prepare t' label next, h, held, s =>
      ∀ h' s', d.Seen t held h s h' s' →
        t' ≠ t ∧ d.Elsewhere t' h' s' ∧
          (∀ h₁ held₁ s₁, d.Back t' s' h₁ held₁ s₁ → d.Jumps label t' h₁ held₁ s₁) ∧
          Ok t next h' held s'
  | .goto label, h, held, s => d.Jumps label t h held s
  | .hang, _, _, _ => d.mayHang

/-- A context that is saved is `Ok` wherever it may be loaded. -/
def Parked (t : T) (prog : Prog H L T I K S) (s : S) : Prop :=
  ∀ h held s', d.Back t s h held s' → d.Ok t prog h held s'

variable {d}

namespace Laws

variable (laws : d.Laws) {t : T} {h h' h'' : H} {held : List L} {s s' s'' : S}
  {prog : Prog H L T I K S}
include laws

/-- Code stays `Ok` whatever the others do. -/
theorem ok_of_seen (hok : d.Ok t prog h held s) (hseen : d.Seen t held h s h' s') :
    d.Ok t prog h' held s' := by
  induction prog with
  | acquire l next ih =>
      refine ⟨hok.1, fun h₁ s₁ hs => hok.2 h₁ s₁ (laws.seen_trans hseen hs)⟩
  | ask next ih => exact fun i => ih i (hok i)
  | hang => exact hok
  | release | act | swtch | prepare | goto =>
      exact fun h₁ s₁ hs => hok h₁ s₁ (laws.seen_trans hseen hs)

theorem parked_of_away {prog : Prog H L T I K S} (hparked : d.Parked t prog s)
    (haway : d.away t s s') : d.Parked t prog s' :=
  fun h held s'' hback => hparked h held s'' (laws.back_trans haway hback)

end Laws

variable (d)

/-- What all code has to do: at every label and in every handler. -/
structure Obeyed (code : K → Prog H L T I K S)
    (handler : D → Prog H L T I K S → Prog H L T I K S) : Prop where
  code_ok : ∀ label t h held s, d.Here t h held s → d.spec label t h held s →
    d.Ok t (code label) h held s
  handler_ok : ∀ i t prog h s, d.Here t h [] s → d.Ok t prog h [] s →
    d.Ok t (handler i prog) h [] s

/-- **The discipline is kept** in a state, in which hart `h` runs thread
`who h`. -/
structure Kept (c : Config H L T I K S) (who : H → T) : Prop where
  inv : d.inv c.shared
  on : ∀ h, d.on (who h) h (c.held h) c.shared
  free : ∀ l, c.Free l → d.lockInv l c.shared
  apart : ∀ h h' l, l ∈ c.held h → l ∈ c.held h' → h = h'
  nodup : ∀ h, (c.held h).Nodup
  ok : ∀ h, d.Ok (who h) (c.running h) h (c.held h) c.shared
  parked : ∀ t, (∀ h, who h ≠ t) → d.Parked t (c.context t) c.shared

variable {d}

namespace Kept

variable {c c' : Config H L T I K S} {who : H → T} {h h' : H} {l : L} {prog next : Prog H L T I K S}
  {code : K → Prog H L T I K S} {handler : D → Prog H L T I K S → Prog H L T I K S} {e : Event H I D}

theorem here (kept : d.Kept c who) (h : H) : d.Here (who h) h (c.held h) c.shared :=
  ⟨kept.inv, kept.on h⟩

theorem seen (laws : d.Laws) (kept : d.Kept c who) (h : H) :
    d.Seen (who h) (c.held h) h c.shared h c.shared :=
  laws.seen_refl (kept.here h)

/-- A thread runs on one hart only. -/
theorem who_ne (laws : d.Laws) (kept : d.Kept c who) (hne : h' ≠ h) : who h' ≠ who h := by
  intro hsame
  exact hne (laws.on_unique kept.inv (hsame ▸ kept.on h') (kept.on h))

/-- A hart that waits for a lock holds only locks of smaller rank. -/
theorem rank_lt (kept : d.Kept c who) (hwait : c.running h = .acquire l next) {m : L}
    (hm : m ∈ c.held h) : d.rank m < d.rank l := by
  have hok := kept.ok h
  rw [hwait] at hok
  exact hok.1 m hm

/-- Along a chain of waiting harts the rank of what is waited for grows. -/
theorem rank_lt_of_waits (kept : d.Kept c who) (hwaits : Relation.TransGen c.WaitsFor h h')
    {m : L} {next' : Prog H L T I K S} (hlast : c.running h' = .acquire m next') :
    ∃ l next, c.running h = .acquire l next ∧ d.rank l < d.rank m := by
  induction hwaits using Relation.TransGen.head_induction_on with
  | single hwait =>
      obtain ⟨l, next, hrun, hheld⟩ := hwait
      exact ⟨l, next, hrun, kept.rank_lt hlast hheld⟩
  | head hwait _ ih =>
      obtain ⟨l, next, hrun, hheld⟩ := hwait
      obtain ⟨l', next', hrun', hlt⟩ := ih
      exact ⟨l, next, hrun, Nat.lt_trans (kept.rank_lt hrun' hheld) hlt⟩

/-- **No circle of harts** in which each waits for a lock that the next one
holds. -/
theorem no_circle (kept : d.Kept c who) : ¬ Relation.TransGen c.WaitsFor h h := by
  intro hcircle
  have hwaits : ∃ m next, c.running h = .acquire m next := by
    cases Relation.TransGen.head'_iff.mp hcircle with
    | intro h' hfirst =>
        obtain ⟨m, next, hrun, -⟩ := hfirst.1
        exact ⟨m, next, hrun⟩
  obtain ⟨m, next, hrun⟩ := hwaits
  obtain ⟨l, next', hrun', hlt⟩ := kept.rank_lt_of_waits hcircle hrun
  obtain ⟨rfl, -⟩ : l = m ∧ next' = next := by simpa [hrun'] using hrun
  exact Nat.lt_irrefl _ hlt

/-- Where code never stops for ever, a hart that can make no step waits for a
lock that some hart holds. -/
theorem waits_of_stuck [Fintype H] [DecidableEq H] [DecidableEq T] (laws : d.Laws)
    (kept : d.Kept c who)
    (hnever : ¬ d.mayHang) {input : I} (hstuck : c.runHart code h input = none) :
    ∃ l next h', c.running h = .acquire l next ∧ l ∈ c.held h' := by
  have hok := kept.ok h
  have hseen := kept.seen laws h
  cases hprog : c.running h with
  | acquire l next =>
      have hheld : ¬ c.Free l := by simpa [Config.runHart, hprog] using hstuck
      obtain ⟨h', hh'⟩ := not_forall.mp hheld
      exact ⟨l, next, h', rfl, not_not.mp hh'⟩
  | release l next =>
      rw [hprog] at hok
      obtain ⟨hl, -⟩ := hok h c.shared hseen
      simp [Config.runHart, hprog, hl] at hstuck
  | hang =>
      rw [hprog] at hok
      exact absurd hok hnever
  | act | ask | swtch | prepare | goto => simp [Config.runHart, hprog] at hstuck

/-- **Somebody goes on.**  Where code never stops for ever, one of the busy
harts can make a step, if there is one and those that hold a lock are busy. -/
theorem exists_step [Fintype H] [DecidableEq H] [DecidableEq T] (laws : d.Laws)
    (kept : d.Kept c who)
    (hnever : ¬ d.mayHang) {busy : H → Prop} (hsome : ∃ h, busy h)
    (hbusy : ∀ h, c.held h ≠ [] → busy h) (input : I) :
    ∃ h, busy h ∧ ∃ c', c.runHart code h input = some c' := by
  classical
  by_contra hnone
  have hstuck : ∀ h, busy h → c.runHart code h input = none := by
    intro h hh
    by_contra hstep
    exact hnone ⟨h, hh, Option.ne_none_iff_exists'.mp hstep⟩
  -- the busy hart that waits for the lock of the highest rank
  obtain ⟨h₀, hh₀⟩ := hsome
  obtain ⟨h, hmem, hmax⟩ := Finset.exists_max_image (Finset.univ.filter busy)
    (fun h => (c.awaited h).elim 0 d.rank) ⟨h₀, by simpa using hh₀⟩
  have hh : busy h := by simpa using hmem
  obtain ⟨l, next, h', hrun, hl⟩ := kept.waits_of_stuck laws hnever (hstuck h hh)
  have hh' : busy h' := hbusy h' (List.ne_nil_of_mem hl)
  obtain ⟨l', next', h'', hrun', -⟩ := kept.waits_of_stuck laws hnever (hstuck h' hh')
  have hle := hmax h' (by simpa using hh')
  have hlt := kept.rank_lt hrun' hl
  simp only [Config.awaited, hrun, hrun', Option.elim_some] at hle
  exact Nat.lt_irrefl _ (Nat.lt_of_lt_of_le hlt hle)

variable [DecidableEq H]

/-- Other code on one hart. -/
theorem setRunning (kept : d.Kept c who) (hok : d.Ok (who h) prog h (c.held h) c.shared) :
    d.Kept (c.setRunning h prog) who := by
  refine ⟨kept.inv, kept.on, kept.free, kept.apart, kept.nodup, ?_, kept.parked⟩
  intro h'
  by_cases hh : h' = h
  · subst hh
    simpa using hok
  · simpa [hh] using kept.ok h'

/-- A hart takes a free lock. -/
theorem acquire (kept : d.Kept c who) (hfree : c.Free l)
    (hhere : d.Here (who h) h (l :: c.held h) c.shared)
    (hok : d.Ok (who h) next h (l :: c.held h) c.shared) :
    d.Kept ((c.setHeld h (l :: c.held h)).setRunning h next) who := by
  have hheld : ∀ h' m, m ∈ Function.update c.held h (l :: c.held h) h' →
      h' = h ∧ m = l ∨ m ∈ c.held h' := by
    intro h' m hm
    by_cases hh : h' = h
    · subst hh
      rcases List.mem_cons.mp (by simpa using hm) with hm | hm
      · exact Or.inl ⟨rfl, hm⟩
      · exact Or.inr hm
    · exact Or.inr (by simpa [hh] using hm)
  refine ⟨kept.inv, ?_, fun m hm => kept.free m fun h' hmem => hm h' ?_, ?_, ?_, ?_, kept.parked⟩
  · intro h'
    by_cases hh : h' = h
    · subst hh
      simpa using hhere.2
    · simpa [hh] using kept.on h'
  · by_cases hh : h' = h
    · subst hh
      simpa using Or.inr hmem
    · simpa [hh] using hmem
  · intro h₁ h₂ m hm₁ hm₂
    rcases hheld h₁ m hm₁ with ⟨h₁h, hml⟩ | hm₁ <;> rcases hheld h₂ m hm₂ with ⟨h₂h, hml'⟩ | hm₂
    · exact h₁h.trans h₂h.symm
    · exact absurd (hml ▸ hm₂) (hfree h₂)
    · exact absurd (hml' ▸ hm₁) (hfree h₁)
    · exact kept.apart h₁ h₂ m hm₁ hm₂
  · intro h'
    by_cases hh : h' = h
    · subst hh
      simpa using ⟨hfree h', kept.nodup h'⟩
    · simpa [hh] using kept.nodup h'
  · intro h'
    by_cases hh : h' = h
    · subst hh
      simpa using hok
    · simpa [hh] using kept.ok h'

/-- A hart gives a lock back, with what the lock protects in order. -/
theorem release (kept : d.Kept c who) (hl : l ∈ c.held h) (hinv : d.lockInv l c.shared)
    (hhere : d.Here (who h) h ((c.held h).erase l) c.shared)
    (hok : d.Ok (who h) next h ((c.held h).erase l) c.shared) :
    d.Kept ((c.setHeld h ((c.held h).erase l)).setRunning h next) who := by
  have hheld : ∀ h' m, m ∈ Function.update c.held h ((c.held h).erase l) h' → m ∈ c.held h' := by
    intro h' m hm
    by_cases hh : h' = h
    · subst hh
      exact List.mem_of_mem_erase (by simpa using hm)
    · simpa [hh] using hm
  refine ⟨kept.inv, ?_, ?_, fun h₁ h₂ m hm₁ hm₂ => kept.apart h₁ h₂ m (hheld h₁ m hm₁) (hheld h₂ m
    hm₂), ?_, ?_, kept.parked⟩
  · intro h'
    by_cases hh : h' = h
    · subst hh
      simpa using hhere.2
    · simpa [hh] using kept.on h'
  · intro m hm
    -- the lock is free now, or some other lock was free before
    by_cases hml : m = l
    · exact hml ▸ hinv
    · refine kept.free m fun h' hmem => hm h' ?_
      by_cases hh : h' = h
      · subst hh
        simpa using (List.mem_erase_of_ne hml).mpr hmem
      · simpa [hh] using hmem
  · intro h'
    by_cases hh : h' = h
    · subst hh
      simpa using (kept.nodup h').erase l
    · simpa [hh] using kept.nodup h'
  · intro h'
    by_cases hh : h' = h
    · subst hh
      simpa using hok
    · simpa [hh] using kept.ok h'

/-- A hart writes the memory, within what its thread may do. -/
theorem act (laws : d.Laws) (kept : d.Kept c who) {s : S}
    (hguar : d.guar (who h) h (c.held h) c.shared s) (hhere : d.Here (who h) h (c.held h) s)
    (hok : d.Ok (who h) next h (c.held h) s) :
    d.Kept ((c.setShared s).setRunning h next) who := by
  have hothers : ∀ h', h' ≠ h → d.Seen (who h') (c.held h') h' c.shared h' s := by
    intro h' hh
    obtain ⟨hrely, hon⟩ := laws.guar_rely hguar (kept.on h) (kept.who_ne laws hh) hh
      (fun l hl hl' => hh (kept.apart h' h l hl hl')) (kept.on h')
    exact ⟨hrely, hhere.1, hon⟩
  refine ⟨hhere.1, ?_, fun l hl => laws.guar_lockInv hguar (hl h) (kept.free l hl),
    kept.apart, kept.nodup, ?_, fun t ht =>
      laws.parked_of_away (kept.parked t ht) (laws.guar_away hguar (Ne.symm (ht h)))⟩
  · intro h'
    by_cases hh : h' = h
    · subst hh
      exact hhere.2
    · exact (hothers h' hh).2.2
  · intro h'
    by_cases hh : h' = h
    · subst hh
      simpa using hok
    · simpa [hh] using laws.ok_of_seen (kept.ok h') (hothers h' hh)

variable [DecidableEq T]

/-- A hart switches to a thread that no other hart runs. -/
theorem swtch (laws : d.Laws) (kept : d.Kept c who) {load : T} (hne : load ≠ who h)
    (helse : d.Elsewhere load h c.shared) (hhere : d.Here load h (c.held h) c.shared)
    (hentry : d.entry load h (c.held h) c.shared)
    (hback : d.Parked (who h) next c.shared) :
    d.Kept ((c.setContext (who h) next).setRunning h ((c.setContext (who h) next).context load))
      (Function.update who h load) := by
  have hload : d.Parked load (c.context load) c.shared := by
    refine kept.parked load fun h' hwho => ?_
    by_cases hh : h' = h
    · exact hne (hh ▸ hwho).symm
    · exact helse h' _ hh (hwho ▸ kept.on h')
  refine ⟨kept.inv, ?_, kept.free, kept.apart, kept.nodup, ?_, ?_⟩
  · intro h'
    by_cases hh : h' = h
    · subst hh
      simpa using hhere.2
    · simpa [hh] using kept.on h'
  · intro h'
    by_cases hh : h' = h
    · subst hh
      simpa [hne] using hload h' (c.held h') c.shared ⟨laws.away_refl _ _, hhere, hentry⟩
    · simpa [hh] using kept.ok h'
  · intro t ht
    by_cases hth : t = who h
    · subst hth
      simpa using hback
    · rw [Config.setRunning_context, Config.setContext_context, if_neg hth]
      refine kept.parked t fun h' hwho => ?_
      by_cases hh : h' = h
      · exact hth (hh ▸ hwho).symm
      · exact ht h' (by simpa [hh] using hwho)

/-- A hart prepares the context of a thread that no hart runs. -/
theorem prepare (kept : d.Kept c who) {t : T} {label : K} (hne : t ≠ who h)
    (helse : d.Elsewhere t h c.shared) (hparked : d.Parked t (.goto label : Prog H L T I K S) c.shared)
    (hok : d.Ok (who h) next h (c.held h) c.shared) :
    d.Kept ((c.setContext t (.goto label)).setRunning h next) who := by
  have hcontext : d.Kept (c.setContext t (.goto label)) who := by
    refine ⟨kept.inv, kept.on, kept.free, kept.apart, kept.nodup, kept.ok, ?_⟩
    intro t' ht'
    by_cases htt : t' = t
    · subst htt
      simpa using hparked
    · simpa [htt] using kept.parked t' ht'
  exact hcontext.setRunning hok

variable [Fintype H]

/-- **Step lemma.**  Every step of any hart keeps the discipline. -/
theorem step (laws : d.Laws) (obeyed : d.Obeyed code handler) (kept : d.Kept c who)
    (hstep : c.step code handler e = some c') : ∃ who', d.Kept c' who' := by
  cases e with
  | run h input =>
      have hok := kept.ok h
      have hseen := kept.seen laws h
      simp only [Config.step, Config.runHart] at hstep
      cases hprog : c.running h with
      | acquire l next =>
          rw [hprog] at hok
          obtain ⟨hfree, rfl⟩ : c.Free l ∧ _ = c' := by simpa [hprog] using hstep
          obtain ⟨hhere, hnext⟩ := hok.2 h c.shared hseen (kept.free l hfree)
          exact ⟨who, kept.acquire hfree hhere hnext⟩
      | release l next =>
          rw [hprog] at hok
          obtain ⟨hl, rfl⟩ : l ∈ c.held h ∧ _ = c' := by simpa [hprog] using hstep
          obtain ⟨-, hinv, hhere, hnext⟩ := hok h c.shared hseen
          exact ⟨who, kept.release hl hinv hhere hnext⟩
      | act f next =>
          rw [hprog] at hok
          obtain rfl : _ = c' := by simpa [hprog] using hstep
          obtain ⟨hguar, hhere, hnext⟩ := hok h c.shared hseen
          exact ⟨who, kept.act laws hguar hhere hnext⟩
      | ask next =>
          rw [hprog] at hok
          obtain rfl : _ = c' := by simpa [hprog] using hstep
          exact ⟨who, kept.setRunning (hok input)⟩
      | swtch save load next =>
          rw [hprog] at hok
          obtain rfl : _ = c' := by simpa [hprog] using hstep
          obtain ⟨rfl, hne, helse, hhere, hentry, hback⟩ := hok h c.shared hseen
          exact ⟨_, kept.swtch laws hne helse hhere hentry hback⟩
      | prepare t label next =>
          rw [hprog] at hok
          obtain rfl : _ = c' := by simpa [hprog] using hstep
          obtain ⟨hne, helse, hparked, hnext⟩ := hok h c.shared hseen
          exact ⟨who, kept.prepare hne helse hparked hnext⟩
      | goto label =>
          rw [hprog] at hok
          obtain rfl : _ = c' := by simpa [hprog] using hstep
          exact ⟨who, kept.setRunning
            (obeyed.code_ok label (who h) h (c.held h) c.shared (kept.here h) (hok h c.shared hseen))⟩
      | hang => simp [hprog] at hstep
  | interrupt h i =>
      obtain ⟨hnone, rfl⟩ : c.held h = [] ∧ _ = c' := by simpa [Config.step] using hstep
      have hhere := kept.here h
      have hok := kept.ok h
      rw [hnone] at hhere hok
      refine ⟨who, kept.setRunning ?_⟩
      rw [hnone]
      exact obeyed.handler_ok i (who h) _ h c.shared hhere hok

/-- **What a step may do** to the memory is what the thread may do that the hart
runs. -/
theorem guar_of_step (laws : d.Laws) (kept : d.Kept c who) (hstep : c.step code handler e = some c') :
    d.guar (who e.hart) e.hart (c.held e.hart) c.shared c'.shared := by
  cases e with
  | run h input =>
      have hok := kept.ok h
      have hseen := kept.seen laws h
      have hrefl := laws.guar_refl (who h) h (c.held h) c.shared
      simp only [Config.step, Config.runHart] at hstep
      cases hprog : c.running h with
      | acquire l next =>
          obtain ⟨-, rfl⟩ : c.Free l ∧ _ = c' := by simpa [hprog] using hstep
          exact hrefl
      | release l next =>
          obtain ⟨-, rfl⟩ : l ∈ c.held h ∧ _ = c' := by simpa [hprog] using hstep
          exact hrefl
      | act f next =>
          rw [hprog] at hok
          obtain rfl : _ = c' := by simpa [hprog] using hstep
          exact (hok h c.shared hseen).1
      | ask | swtch | prepare | goto =>
          obtain rfl : _ = c' := by simpa [hprog] using hstep
          exact hrefl
      | hang => simp [hprog] at hstep
  | interrupt h i =>
      obtain ⟨-, rfl⟩ : c.held h = [] ∧ _ = c' := by simpa [Config.step] using hstep
      exact laws.guar_refl _ _ _ _

end Kept

/-- **Run lemma.**  The discipline is kept in every state that is reached. -/
theorem reachable_kept [DecidableEq H] [DecidableEq T] [Fintype H] (laws : d.Laws)
    {code : K → Prog H L T I K S} {handler : D → Prog H L T I K S → Prog H L T I K S}
    {start c : Config H L T I K S} (obeyed : d.Obeyed code handler)
    (hstart : ∃ who, d.Kept start who) (hc : (machine code handler start).Reachable c) :
    ∃ who, d.Kept c who := by
  obtain ⟨past, run⟩ := hc
  refine run.invariant (P := fun _ c => ∃ who, d.Kept c who) (fun c hinit => ?_)
    fun _ _ _ _ _ hkept hstep => ?_
  · obtain rfl : c = start := hinit
    exact hstart
  · obtain ⟨who, kept⟩ := hkept
    exact kept.step laws obeyed hstep

end Discipline

end Threads
