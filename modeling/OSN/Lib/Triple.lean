import OSN.Lib.Discipline

/-!
# Rules for code under a discipline

`Triple t X A c Y B`: where thread `t` holds the locks `X` and `A` holds, it
may run `c`; if `c` comes back with `a` then `t` holds `Y a` and `B a` holds.
Assertions have to be stable, for the other harts may step between any two
steps of `c`.  Code is `Quiet` if nobody who keeps to stable assertions can
tell that it ran.
-/

namespace Threads.Discipline

variable {H L T I K S α β : Type} (d : Discipline H L T K S)

/-- The assertion survives whatever the others do while `t` holds `X`. -/
def Stable (t : T) (X : List L) (A : H → S → Prop) : Prop :=
  ∀ h s h' s', A h s → d.Seen t X h s h' s' → A h' s'

variable {d} {t : T} {X : List L} {A A' B : H → S → Prop}

theorem Stable.and (hA : d.Stable t X A) (hB : d.Stable t X B) :
    d.Stable t X fun h s => A h s ∧ B h s :=
  fun h s h' s' hs hseen => ⟨hA h s h' s' hs.1 hseen, hB h s h' s' hs.2 hseen⟩

theorem Stable.true : d.Stable t X fun _ _ => True := fun _ _ _ _ _ _ => trivial

variable [DecidableEq L] (d)

/-- **A triple**: see the top of this file. -/
def Triple (t : T) (X : List L) (A : H → S → Prop) (c : Code H L T I K S α) (Y : α → List L)
    (B : α → H → S → Prop) : Prop :=
  ∀ next : α → Prog H L T I K S,
    (∀ a h s, d.Here t h (Y a) s → B a h s → d.Ok t (next a) h (Y a) s) →
      ∀ h s, d.Here t h X s → A h s → d.Ok t (c next) h X s

/-- The code keeps every stable assertion and ends with the locks it began
with. -/
def Quiet (t : T) (X : List L) (c : Code H L T I K S α) : Prop :=
  ∀ A, d.Stable t X A → d.Triple t X A c (fun _ => X) fun _ => A

variable {d} {Y Z : α → List L} {P Q : α → H → S → Prop} {c : Code H L T I K S α}

namespace Triple

/-- A triple gives `Ok` for code that ends in a jump. -/
theorem body {c : Code H L T I K S Unit} (hc : d.Triple t X A c (fun _ => []) fun _ _ _ => False)
    {h : H} {s : S} (hhere : d.Here t h X s) (hA : A h s) : d.Ok t c.body h X s :=
  hc (fun _ => .hang) (fun _ _ _ _ => False.elim) h s hhere hA

theorem pre (hc : d.Triple t X A c Y P) (hpre : ∀ h s, d.Here t h X s → A' h s → A h s) :
    d.Triple t X A' c Y P :=
  fun next hnext h s hhere hA => hc next hnext h s hhere (hpre h s hhere hA)

theorem post (hc : d.Triple t X A c Y P) (hpost : ∀ a h s, d.Here t h (Y a) s → P a h s → Q a h s) :
    d.Triple t X A c Y Q :=
  fun next hnext => hc next fun a h s hhere hP => hnext a h s hhere (hpost a h s hhere hP)

theorem pure (a : α) : d.Triple t (Y a) (P a) (Pure.pure a : Code H L T I K S α) Y P :=
  fun _ hnext h s hhere hP => hnext a h s hhere hP

theorem bind {f : α → Code H L T I K S β} {Y : β → List L} {Q : β → H → S → Prop}
    (hc : d.Triple t X A c Z P) (hf : ∀ a, d.Triple t (Z a) (P a) (f a) Y Q) :
    d.Triple t X A (c >>= f) Y Q :=
  fun next hnext => hc (fun a => f a next) fun a => hf a next hnext

/-- A fact about no state may be used outside the triple. -/
theorem of_pure {φ : Prop} (hc : φ → d.Triple t X A c Y P) :
    d.Triple t X (fun h s => φ ∧ A h s) c Y P :=
  fun next hnext h s hhere hA => hc hA.1 next hnext h s hhere hA.2

theorem acquire (laws : d.Laws) (hstable : d.Stable t X A) {l : L}
    (hrank : ∀ m ∈ X, d.rank m < d.rank l) :
    d.Triple t X A (Code.acquire l : Code H L T I K S Unit) (fun _ => l :: X)
      fun _ h s => A h s ∧ d.lockInv l s := by
  intro next hnext h s hhere hA
  refine ⟨hrank, ?_⟩
  intro h' s' hseen hinv
  have hhere' : d.Here t h' (l :: X) s' := ⟨hseen.2.1, laws.on_acquire l hseen.2.2⟩
  exact ⟨hhere', hnext () h' s' hhere' ⟨hstable h s h' s' hA hseen, hinv⟩⟩

theorem release (hstable : d.Stable t X A) {l : L} (hl : l ∈ X)
    (hgive : ∀ h s, d.Here t h X s → A h s →
      d.lockInv l s ∧ d.on t h (X.erase l) s ∧ B h s) :
    d.Triple t X A (Code.release l : Code H L T I K S Unit) (fun _ => X.erase l)
      fun _ => B := by
  intro next hnext h s hhere hA h' s' hseen
  obtain ⟨hinv, hon, hB⟩ := hgive h' s' hseen.2 (hstable h s h' s' hA hseen)
  exact ⟨hl, hinv, ⟨hseen.2.1, hon⟩, hnext () h' s' ⟨hseen.2.1, hon⟩ hB⟩

theorem update (hstable : d.Stable t X A) {f : H → S → S}
    (hf : ∀ h s, d.Here t h X s → A h s →
      d.guar t h X s (f h s) ∧ d.Here t h X (f h s) ∧ B h (f h s)) :
    d.Triple t X A (Code.update f : Code H L T I K S Unit) (fun _ => X) fun _ => B := by
  intro next hnext h s hhere hA h' s' hseen
  obtain ⟨hguar, hhere', hB⟩ := hf h' s' hseen.2 (hstable h s h' s' hA hseen)
  exact ⟨hguar, hhere', hnext () h' (f h' s') hhere' hB⟩

theorem read (laws : d.Laws) (hstable : d.Stable t X A) (g : H → S → α) :
    d.Triple t X A (Code.read g : Code H L T I K S α) (fun _ => X)
      fun a h s => A h s ∧ a = g h s := by
  intro next hnext h s hhere hA h' s' hseen
  exact ⟨laws.guar_refl t h' X s', hseen.2,
    hnext (g h' s') h' s' hseen.2 ⟨hstable h s h' s' hA hseen, rfl⟩⟩

theorem modifyGet (hstable : d.Stable t X A) {f : H → S → S} {g : H → S → α}
    (hf : ∀ h s, d.Here t h X s → A h s →
      d.guar t h X s (f h s) ∧ d.Here t h X (f h s) ∧ P (g h s) h (f h s)) :
    d.Triple t X A (Code.modifyGet f g : Code H L T I K S α) (fun _ => X) P := by
  intro next hnext h s hhere hA h' s' hseen
  obtain ⟨hguar, hhere', hP⟩ := hf h' s' hseen.2 (hstable h s h' s' hA hseen)
  exact ⟨hguar, hhere', hnext (g h' s') h' (f h' s') hhere' hP⟩

theorem ask : d.Triple t X A (Code.ask : Code H L T I K S I) (fun _ => X) fun _ => A :=
  fun _ hnext h s hhere hA i => hnext i h s hhere hA

theorem jump (hstable : d.Stable t X A) {label : K}
    (hspec : ∀ h s, d.Here t h X s → A h s → d.spec label t h X s) :
    d.Triple t X A (Code.jump label : Code H L T I K S α) Y P :=
  fun _ _ h s _ hA h' s' hseen => hspec h' s' hseen.2 (hstable h s h' s' hA hseen)

theorem when {b : Prop} [Decidable b] {c : Code H L T I K S Unit}
    (hc : b → d.Triple t X A c (fun _ => X) fun _ => B)
    (hskip : ¬ b → ∀ h s, d.Here t h X s → A h s → B h s) :
    d.Triple t X A (Code.when b c) (fun _ => X) fun _ => B := by
  unfold Code.when
  split
  case isTrue hb => exact hc hb
  case isFalse hb => exact (pure (P := fun _ => B) ()).pre (hskip hb)

theorem hang (hmay : d.mayHang) : d.Triple t X A (Code.hang : Code H L T I K S α) Y P :=
  fun _ _ _ _ _ _ => hmay

/-- Switching away and coming back. -/
theorem swtch (hstable : d.Stable t X A) {load : T} {X' : List L}
    (hgo : ∀ h s, d.Here t h X s → A h s → load ≠ t ∧ d.Elsewhere load h s ∧
      d.Here load h X s ∧ d.entry load h X s ∧
        ∀ h' held s', d.Back t s h' held s' → held = X' ∧ B h' s') :
    d.Triple t X A (Code.swtch t load : Code H L T I K S Unit) (fun _ => X') fun _ => B := by
  intro next hnext h s hhere hA h' s' hseen
  obtain ⟨hne, helse, hload, hentry, hback⟩ := hgo h' s' hseen.2 (hstable h s h' s' hA hseen)
  refine ⟨rfl, hne, helse, hload, hentry, ?_⟩
  intro h₁ held₁ s₁ hb
  obtain ⟨rfl, hB⟩ := hback h₁ held₁ s₁ hb
  exact hnext () h₁ s₁ hb.2.1 hB

theorem prepare (hstable : d.Stable t X A) {t' : T} {label : K}
    (hready : ∀ h s, d.Here t h X s → A h s → t' ≠ t ∧ d.Elsewhere t' h s ∧
      ∀ h' held s', d.Back t' s h' held s' → d.Jumps label t' h' held s') :
    d.Triple t X A (Code.prepare t' label : Code H L T I K S Unit) (fun _ => X) fun _ => A := by
  intro next hnext h s hhere hA h' s' hseen
  have hA' := hstable h s h' s' hA hseen
  obtain ⟨hne, helse, hjumps⟩ := hready h' s' hseen.2 hA'
  exact ⟨hne, helse, hjumps, hnext () h' s' hseen.2 hA'⟩

/-- A loop over a list that keeps an assertion. -/
theorem forM {xs : List β} {f : β → Code H L T I K S PUnit}
    (hf : ∀ x ∈ xs, d.Triple t X A (f x) (fun _ => X) fun _ => A) :
    d.Triple t X A (xs.forM f) (fun _ => X) fun _ => A := by
  induction xs with
  | nil => exact pure (P := fun _ => A) PUnit.unit
  | cons x xs ih =>
      exact (hf x (by simp)).bind fun _ => ih fun y hy => hf y (List.mem_cons_of_mem x hy)

/-- A loop over a list, whose assertion may tell what is still to come. -/
theorem forM_rest {xs : List β} {f : β → Code H L T I K S PUnit} {P : List β → H → S → Prop}
    (hf : ∀ x rest, d.Triple t X (P (x :: rest)) (f x) (fun _ => X) fun _ => P rest) :
    d.Triple t X (P xs) (xs.forM f) (fun _ => X) fun _ => P [] := by
  induction xs with
  | nil => exact pure (P := fun _ => P []) PUnit.unit
  | cons x xs ih => exact (hf x xs).bind fun _ => ih

/-- A loop over a list that may stop early with a result. -/
theorem findSomeM {xs : List β} {f : β → Code H L T I K S (Option α)}
    {Y : Option α → List L} {P : Option α → H → S → Prop}
    (hf : ∀ x ∈ xs, d.Triple t (Y none) (P none) (f x) Y P) :
    d.Triple t (Y none) (P none) (xs.findSomeM? f) Y P := by
  induction xs with
  | nil => exact pure none
  | cons x xs ih =>
      refine (hf x (by simp)).bind fun r => ?_
      cases r with
      | none => exact ih fun y hy => hf y (List.mem_cons_of_mem x hy)
      | some a => exact pure (some a)

/-- A loop over a list with an accumulator, whose assertion may tell what is
still to come. -/
theorem foldlM {xs : List β} {f : α → β → Code H L T I K S α} {Y : List β → α → List L}
    {P : List β → α → H → S → Prop}
    (hf : ∀ x rest a, (∃ done, xs = done ++ x :: rest) →
      d.Triple t (Y (x :: rest) a) (P (x :: rest) a) (f a x) (Y rest) (P rest)) (a : α) :
    d.Triple t (Y xs a) (P xs a) (xs.foldlM f a) (Y []) (P []) := by
  induction xs generalizing a with
  | nil => exact pure a
  | cons x xs ih =>
      refine (hf x xs a ⟨[], rfl⟩).bind fun a' => ih (fun y rest b hy => ?_) a'
      obtain ⟨done, hdone⟩ := hy
      exact hf y rest b ⟨x :: done, by simp [hdone]⟩

end Triple

namespace Quiet

theorem pure (a : α) : d.Quiet t X (Pure.pure a : Code H L T I K S α) :=
  fun A _ => Triple.pure (P := fun _ => A) a

theorem bind {f : α → Code H L T I K S β} (hc : d.Quiet t X c)
    (hf : ∀ a, d.Quiet t X (f a)) : d.Quiet t X (c >>= f) :=
  fun A hA => (hc A hA).bind fun a => hf a A hA

theorem read (laws : d.Laws) (g : H → S → α) : d.Quiet t X (Code.read g : Code H L T I K S α) :=
  fun _ hA => (Triple.read laws hA g).post fun _ _ _ _ h => h.1

theorem when {b : Prop} [Decidable b] {c : Code H L T I K S Unit} (hc : b → d.Quiet t X c) :
    d.Quiet t X (Code.when b c) :=
  fun A hA => Triple.when (fun hb => hc hb A hA) fun _ _ _ _ hs => hs

theorem forM {xs : List β} {f : β → Code H L T I K S PUnit} (hf : ∀ x, d.Quiet t X (f x)) :
    d.Quiet t X (xs.forM f) :=
  fun A hA => Triple.forM fun x _ => hf x A hA

theorem findSomeM {xs : List β} {f : β → Code H L T I K S (Option α)}
    (hf : ∀ x, d.Quiet t X (f x)) : d.Quiet t X (xs.findSomeM? f) :=
  fun A hA => Triple.findSomeM (Y := fun _ => X) (P := fun _ => A) fun x _ => hf x A hA

/-- Interrupted by quiet code, a thread goes on. -/
theorem ok (laws : d.Laws) (hc : d.Quiet t X c) {prog : Prog H L T I K S} {h : H} {s : S}
    (hhere : d.Here t h X s) (hok : d.Ok t prog h X s) :
    d.Ok t (c fun _ => prog) h X s := by
  refine hc (fun h' s' => d.Seen t X h s h' s') (fun _ _ _ _ h₁ h₂ => laws.seen_trans h₁ h₂)
    (fun _ => prog) (fun _ h' s' _ hseen => laws.ok_of_seen hok hseen) h s hhere
    (laws.seen_refl hhere)

end Quiet

end Threads.Discipline
