import OSN.Server.Concurrent

/-!
# When the server is linearizable

Between a read of `empty` and the section that counts on it, other workers may
change the slot, and so may they between the section and the `GetString` that
fetches the answer.  A step is `Fresh` if what its request has read or written
before still stands.  Where all steps are, each command takes effect in one of
its steps, and the history of the server is that of a map from keys to
optional strings.
-/

namespace Server

open Linearizable

variable {n : Nat} {past newer older : Past (Workers n) (WorkEvent n)} {s t : Workers n}
  {e : WorkEvent n} {w : Fin n} {r : InFlight} {c : Command} {k : Key} {i : Nat}

/-! ### When a command takes effect -/

/-- The map that the dictionary is to be, with the answers of the server. -/
def dictionary : Spec Contents Command (List Message) where
  init := fun _ => none
  step m c := ((c.apply m).1, c.answer (c.apply m).2)

/-- The command takes effect in this step: where it fails, in the test that
fails; where not, in the section that reads or writes the string. -/
def Point.takesEffect (d : Dict) : Point → Bool
  | .start (.insert k _) => !(d k).empty
  | .start (.update k _) | .start (.fetch k) | .start (.delete k) => (d k).empty
  | .start (.concat _ k₂) => (d k₂).empty
  | .testThis k _ => (d k).empty
  | .fill _ _ | .write _ _ | .getFetched _ | .splice _ _ | .clear _ _ => true
  | .getUpdated _ _ | .getOther _ _ | .reply _ | .deny _ | .remove _ _ | .close _ => false

/-- The request at a point, as the map answers it, if it takes effect in this
step. -/
def Point.effect (d : Dict) (id : Nat) (c : Command) (p : Point) :
    List (Done Command (List Message)) :=
  if p.takesEffect d then [⟨id, c, (dictionary.step d.lookup c).2⟩] else []

/-- The request that takes effect in a step, if one does. -/
def Workers.effect (s : Workers n) : WorkEvent n → List (Done Command (List Message))
  | .accept _ _ => []
  | .step w =>
      match s.worker w with
      | none => []
      | some r => r.point.effect s.dict r.id r.command

/-- The requests in the order in which they have taken effect. -/
def order : Past (Workers n) (WorkEvent n) → List (Done Command (List Message))
  | [] => []
  | (s, e) :: past => order past ++ s.effect e

theorem order_append : order (newer ++ older) = order older ++ order newer := by
  induction newer with
  | nil => simp [order]
  | cons x newer ih => simp [order, ih]

/-- What the request has read or written before still stands: the slot that
`InsertString` fills is still empty; the slots that `UpdateString`, `GetString`
of `fetch`, `concat` and `Remove` go on with are still not empty; what `update`
and `concat` read back is what they wrote; and `Remove` finds the slot as the
test before it. -/
def Point.Fresh (d : Dict) : Point → Prop
  | .fill k _ => (d k).empty = true
  | .write k _ | .getFetched k | .clear k _ => (d k).empty = false
  | .splice k k₂ => (d k).empty = false ∧ (d k₂).empty = false
  | .getUpdated k v => (d k).str = v
  | .getOther k₂ wrote => (d k₂).str = wrote
  | .remove k told => (d k).empty = told
  | .start _ | .testThis _ _ | .reply _ | .deny _ | .close _ => True

instance (d : Dict) (p : Point) : Decidable (p.Fresh d) := by
  cases p <;> unfold Point.Fresh <;> infer_instance

/-- The condition on a step. -/
def Fresh (_ : Past (Workers n) (WorkEvent n)) (s : Workers n) (e : WorkEvent n) : Prop :=
  match e with
  | .accept _ _ => True
  | .step w => ∀ r ∈ s.worker w, r.point.Fresh s.dict

instance (past : Past (Workers n) (WorkEvent n)) (s : Workers n) (e : WorkEvent n) :
    Decidable (Fresh past s e) := by
  cases e <;> unfold Fresh <;> infer_instance

/-! ### The invariant -/

/-- How a request stands at a point, when `done` have taken effect: it is among
them, with the answer that it is going to give, or not yet. -/
def Point.Stands (done : List (Done Command (List Message))) (id : Nat) (c : Command) : Point → Prop
  | .start c' => c' = c ∧ id ∉ ids done
  | .fill k v => c = .insert k v ∧ id ∉ ids done
  | .write k v => c = .update k v ∧ id ∉ ids done
  | .getUpdated _ v => ⟨id, c, [.tagged v]⟩ ∈ done
  | .getFetched k => c = .fetch k ∧ id ∉ ids done
  | .testThis k k₂ | .splice k k₂ => c = .concat k k₂ ∧ id ∉ ids done
  | .getOther _ wrote => ⟨id, c, [.tagged wrote]⟩ ∈ done
  | .reply m => ⟨id, c, [m]⟩ ∈ done
  | .deny k => c = .delete k ∧ ⟨id, c, [.tagged "No such key exists"]⟩ ∈ done
  | .remove k told => c = .delete k ∧ (id ∈ ids done ↔ told = true)
  | .clear k told => c = .delete k ∧ told = false ∧ id ∉ ids done
  | .close told => id ∈ ids done ∧ (told = false → ⟨id, c, []⟩ ∈ done)

/-- The requests of others do not matter. -/
theorem Point.Stands.grow {p : Point} {done rest : List (Done Command (List Message))}
    (h : p.Stands done i c) (hrest : i ∉ ids rest) : p.Stands (done ++ rest) i c := by
  have hids : i ∈ ids (done ++ rest) ↔ i ∈ ids done := by simp [hrest]
  cases p with
  | start | fill | write | getFetched | testThis | splice =>
      exact ⟨h.1, fun hi => h.2 (hids.mp hi)⟩
  | getUpdated | getOther | reply => exact List.mem_append_left _ h
  | deny => exact ⟨h.1, List.mem_append_left _ h.2⟩
  | remove => exact ⟨h.1, hids.trans h.2⟩
  | clear => exact ⟨h.1, h.2.1, fun hi => h.2.2 (hids.mp hi)⟩
  | close => exact ⟨hids.mpr h.1, fun htold => List.mem_append_left _ (h.2 htold)⟩

/-! ### What the map does in the step that takes effect -/

section Map

variable {d : Dict} {k₂ : Key} (v : String)

theorem insert_full (h : (d k).empty = false) :
    dictionary.step d.lookup (.insert k v) = (d.lookup, [.tagged "Key already exists"]) := by
  simp [dictionary, Command.apply, Dict.lookup_of_not_empty h, Command.answer, Command.failure]

theorem insert_empty (h : (d k).empty = true) :
    dictionary.step d.lookup (.insert k v) =
      ((d.modify k (LockedString.fill v)).lookup, [.tagged "Insertion successful"]) := by
  simp [dictionary, Command.apply, Dict.lookup_of_empty h, Command.answer, Dict.modify,
    Dict.lookup_update, Dict.lookup_fill]

theorem update_empty (h : (d k).empty = true) :
    dictionary.step d.lookup (.update k v) = (d.lookup, [.tagged "Key does not exist"]) := by
  simp [dictionary, Command.apply, Dict.lookup_of_empty h, Command.answer, Command.failure]

theorem update_full (h : (d k).empty = false) :
    dictionary.step d.lookup (.update k v) =
      ((d.modify k (LockedString.write v)).lookup, [.tagged v]) := by
  simp [dictionary, Command.apply, Dict.lookup_of_not_empty h, Command.answer, Dict.modify,
    Dict.lookup_update, Dict.lookup_write h]

theorem fetch_empty (h : (d k).empty = true) :
    dictionary.step d.lookup (.fetch k) = (d.lookup, [.tagged "Key does not exist"]) := by
  simp [dictionary, Command.apply, Dict.lookup_of_empty h, Command.answer, Command.failure]

theorem fetch_full (h : (d k).empty = false) :
    dictionary.step d.lookup (.fetch k) = (d.lookup, [.tagged (d k).getString]) := by
  simp [dictionary, Command.apply, Dict.lookup_of_not_empty h, Command.answer,
    LockedString.getString]

theorem delete_empty (h : (d k).empty = true) :
    dictionary.step d.lookup (.delete k) = (d.lookup, [.tagged "No such key exists"]) := by
  simp [dictionary, Command.apply, Dict.lookup_of_empty h, Command.answer, Command.failure]

theorem delete_full (h : (d k).empty = false) :
    dictionary.step d.lookup (.delete k) =
      ((d.modify k LockedString.clear).lookup, []) := by
  simp [dictionary, Command.apply, Dict.lookup_of_not_empty h, Command.answer, Dict.modify,
    Dict.lookup_update, Dict.lookup_clear]

theorem concat_empty (h : (d k).empty = true ∨ (d k₂).empty = true) :
    dictionary.step d.lookup (.concat k k₂) =
      (d.lookup, [.tagged "Concat failed as at least one of the keys does not exist"]) := by
  have hnone : d.lookup k = none ∨ d.lookup k₂ = none :=
    h.imp Dict.lookup_of_empty Dict.lookup_of_empty
  cases hk : d.lookup k <;> cases hk₂ : d.lookup k₂ <;>
    simp_all [dictionary, Command.apply, Command.answer, Command.failure]

theorem concat_full (h : (d k).empty = false) (h₂ : (d k₂).empty = false) :
    dictionary.step d.lookup (.concat k k₂) =
      ((d.splice k k₂).lookup, [.tagged (d.splice k k₂ k₂).str]) := by
  obtain ⟨hlookup, hvalue⟩ := Dict.lookup_splice h h₂
  simp [dictionary, hlookup, hvalue, Command.answer]

end Map

/-! ### A step of one request -/

section Run

variable {d : Dict} {p p' : Point} {done : List (Done Command (List Message))}

/-- The map follows the dictionary. -/
theorem run_lookup (hstands : p.Stands done i c) (hfresh : p.Fresh d) :
    (p.run d).dict.lookup =
      if p.takesEffect d then (dictionary.step d.lookup c).1 else d.lookup := by
  cases p with
  | start c' =>
      obtain ⟨rfl, -⟩ := hstands
      cases c' with
      | insert k v | update k v | fetch k | delete k =>
          cases hk : (d k).empty <;>
            simp [Point.run, Point.takesEffect, LockedString.isEmpty, hk, insert_full,
              update_empty, fetch_empty, delete_empty]
      | concat k k₂ =>
          cases hk : (d k₂).empty <;>
            simp [Point.run, Point.takesEffect, LockedString.isEmpty, hk, concat_empty]
  | testThis k k₂ =>
      obtain ⟨rfl, -⟩ := hstands
      cases hk : (d k).empty <;> simp [Point.run, Point.takesEffect, hk, concat_empty]
  | fill k v =>
      obtain ⟨rfl, -⟩ := hstands
      exact (congrArg Prod.fst (insert_empty v hfresh)).symm
  | write k v =>
      obtain ⟨rfl, -⟩ := hstands
      exact (congrArg Prod.fst (update_full v hfresh)).symm
  | getFetched k =>
      obtain ⟨rfl, -⟩ := hstands
      exact (congrArg Prod.fst (fetch_full hfresh)).symm
  | splice k k₂ =>
      obtain ⟨rfl, -⟩ := hstands
      exact (congrArg Prod.fst (concat_full hfresh.1 hfresh.2)).symm
  | clear k told =>
      obtain ⟨rfl, -⟩ := hstands
      exact (congrArg Prod.fst (delete_full hfresh)).symm
  | remove k told => cases hk : (d k).empty <;> simp [Point.run, Point.takesEffect, hk]
  | getUpdated | getOther | reply | deny | close => rfl

/-- Slots stay tidy. -/
theorem run_tidy (hd : d.Tidy) (hfresh : p.Fresh d) : (p.run d).dict.Tidy := by
  cases p with
  | start c' =>
      cases c' with
      | insert k v | update k v | fetch k | delete k =>
          cases hk : (d k).empty <;> simpa [Point.run, LockedString.isEmpty, hk] using hd
      | concat k k₂ =>
          cases hk : (d k₂).empty <;> simpa [Point.run, LockedString.isEmpty, hk] using hd
  | testThis k k₂ => cases hk : (d k).empty <;> simpa [Point.run, hk] using hd
  | remove k told => cases hk : (d k).empty <;> simpa [Point.run, hk] using hd
  | fill k v => exact hd.update (Dict.tidy_of_not_empty rfl)
  | write k v => exact hd.update (Dict.tidy_of_not_empty hfresh)
  | splice k k₂ => exact Dict.tidy_splice hd hfresh.1 hfresh.2
  | clear k told => exact hd.update (Dict.tidy_clear _)
  | getUpdated | getFetched | getOther | reply | deny | close => exact hd

/-- A request that takes effect has not done so before. -/
theorem new_of_takesEffect (hstands : p.Stands done i c) (htakes : p.takesEffect d = true) :
    i ∉ ids done := by
  cases p with
  | start | fill | write | getFetched | testThis | splice => exact hstands.2
  | clear => exact hstands.2.2
  | getUpdated | getOther | reply | deny | remove | close => simp [Point.takesEffect] at htakes

/-- What is answered in a step is what the request was answered when it took
effect. -/
theorem done_of_answer {ms : List Message} (hstands : p.Stands done i c)
    (hanswer : (p.run d).answer = some ms) : ⟨i, c, ms⟩ ∈ done := by
  cases p with
  | reply m =>
      obtain rfl : [m] = ms := by simpa [Point.run] using hanswer
      exact hstands
  | deny k =>
      obtain rfl : [.tagged "No such key exists"] = ms := by simpa [Point.run] using hanswer
      exact hstands.2
  | close told =>
      cases told with
      | true => simp [Point.run] at hanswer
      | false =>
          obtain rfl : [] = ms := by simpa [Point.run] using hanswer
          exact hstands.2 rfl
  | start c' =>
      cases c' with
      | insert k v | update k v | fetch k | delete k | concat k k₂ =>
          simp only [Point.run] at hanswer
          split at hanswer <;> simp at hanswer
  | testThis | remove =>
      simp only [Point.run] at hanswer
      split at hanswer <;> simp at hanswer
  | fill | write | getUpdated | getFetched | splice | getOther | clear =>
      simp [Point.run] at hanswer

/-- A request ends when it has taken effect. -/
theorem done_of_end (hstands : p.Stands done i c) (hend : (p.run d).next = none) :
    i ∈ ids done := by
  cases p with
  | close told => exact hstands.1
  | start c' =>
      cases c' with
      | insert k v | update k v | fetch k | delete k | concat k k₂ =>
          simp only [Point.run] at hend
          split at hend <;> simp at hend
  | testThis | remove =>
      simp only [Point.run] at hend
      split at hend <;> simp at hend
  | fill | write | getUpdated | getFetched | splice | getOther | clear | reply | deny =>
      simp [Point.run] at hend

/-- A request stands as it should after its step. -/
theorem run_stands (hstands : p.Stands done i c) (hfresh : p.Fresh d)
    (hnext : (p.run d).next = some p') : p'.Stands (done ++ p.effect d i c) i c := by
  cases p with
  | start c' =>
      obtain ⟨rfl, hnew⟩ := hstands
      cases c' with
      | insert k v | update k v | fetch k | delete k =>
          cases hk : (d k).empty <;> simp [Point.run, LockedString.isEmpty, hk] at hnext <;>
            subst hnext <;> simp [Point.Stands, Point.effect, Point.takesEffect, hk, hnew,
              insert_full, update_empty, fetch_empty, delete_empty]
      | concat k k₂ =>
          cases hk : (d k₂).empty <;> simp [Point.run, LockedString.isEmpty, hk] at hnext <;>
            subst hnext <;> simp [Point.Stands, Point.effect, Point.takesEffect, hk, hnew,
              concat_empty]
  | testThis k k₂ =>
      obtain ⟨rfl, hnew⟩ := hstands
      cases hk : (d k).empty <;> simp [Point.run, hk] at hnext <;>
        subst hnext <;> simp [Point.Stands, Point.effect, Point.takesEffect, hk, hnew,
          concat_empty]
  | fill k v =>
      obtain ⟨rfl, -⟩ := hstands
      obtain rfl := Option.some.inj hnext
      simp [Point.Stands, Point.effect, Point.takesEffect, insert_empty v hfresh]
  | write k v =>
      obtain ⟨rfl, -⟩ := hstands
      obtain rfl := Option.some.inj hnext
      simp [Point.Stands, Point.effect, Point.takesEffect, update_full v hfresh]
  | getFetched k =>
      obtain ⟨rfl, -⟩ := hstands
      obtain rfl := Option.some.inj hnext
      simp [Point.Stands, Point.effect, Point.takesEffect, fetch_full hfresh]
  | splice k k₂ =>
      obtain ⟨rfl, -⟩ := hstands
      obtain rfl := Option.some.inj hnext
      simp [Point.Stands, Point.effect, Point.takesEffect, concat_full hfresh.1 hfresh.2]
  | clear k told =>
      obtain ⟨rfl, rfl, -⟩ := hstands
      obtain rfl := Option.some.inj hnext
      simp [Point.Stands, Point.effect, Point.takesEffect, delete_full hfresh]
  | remove k told =>
      -- `Remove` finds the slot as the test before it
      obtain ⟨rfl, hdone⟩ := hstands
      obtain rfl : (d k).empty = told := hfresh
      cases hk : (d k).empty <;> simp [Point.run, hk] at hnext <;>
        subst hnext <;> simpa [Point.Stands, Point.effect, Point.takesEffect, hk] using hdone
  | getUpdated k v =>
      obtain rfl := Option.some.inj hnext
      have hread : (d k).str = v := hfresh
      simpa [Point.Stands, Point.effect, Point.takesEffect, LockedString.getString, hread] using
        hstands
  | getOther k₂ wrote =>
      obtain rfl := Option.some.inj hnext
      have hread : (d k₂).str = wrote := hfresh
      simpa [Point.Stands, Point.effect, Point.takesEffect, LockedString.getString, hread] using
        hstands
  | reply m =>
      obtain rfl := Option.some.inj hnext
      simpa [Point.Stands, Point.effect, Point.takesEffect] using mem_ids_of_mem hstands
  | deny k =>
      obtain rfl := Option.some.inj hnext
      obtain ⟨rfl, hdone⟩ := hstands
      simpa [Point.Stands, Point.effect, Point.takesEffect] using mem_ids_of_mem hdone
  | close told => simp [Point.run] at hnext

end Run

/-! ### A step of the workers -/

theorem accept_cases (h : s.step (.accept w c) = some t) :
    s.worker w = none ∧
      t = { s with
            worker := Function.update s.worker w (some ⟨s.accepted, c, .start c⟩)
            accepted := s.accepted + 1 } := by
  by_cases hidle : s.worker w = none
  · exact ⟨hidle, by simpa [Workers.step, hidle] using h.symm⟩
  · simp [Workers.step, hidle] at h

theorem step_cases (h : s.step (.step w) = some t) :
    ∃ r, s.worker w = some r ∧
      t = { s with
            dict := (r.point.run s.dict).dict
            worker := Function.update s.worker w
              ((r.point.run s.dict).next.map fun p => { r with point := p }) } := by
  cases hr : s.worker w with
  | none => simp [Workers.step, hr] at h
  | some r => exact ⟨r, rfl, by simpa [Workers.step, hr] using h.symm⟩

/-- **The invariant.**  The order explains the history, and the dictionary is
what it comes to; each request that a worker is at stands as it should; the
numbers are those given so far, each to one request; and a request that has not
taken effect is still in the hands of a worker. -/
structure Inv (past : Past (Workers n) (WorkEvent n)) (s : Workers n) : Prop where
  linearizes : Linearizes dictionary (history past) (order past)
  contents : dictionary.after dictionary.init (order past) = s.dict.lookup
  tidy : s.dict.Tidy
  stands : ∀ w r, s.worker w = some r →
    .call r.id r.command ∈ history past ∧ r.point.Stands (order past) r.id r.command
  apart : ∀ w w' r r', s.worker w = some r → s.worker w' = some r' → r.id = r'.id → w = w'
  known : ∀ i c, .call i c ∈ history past → i < s.accepted
  same : ∀ i c c', .call i c ∈ history past → .call i c' ∈ history past → c = c'
  pending : ∀ i c, .call i c ∈ history past →
    i ∈ ids (order past) ∨ ∃ w r, s.worker w = some r ∧ r.id = i ∧ r.command = c

namespace Inv

theorem init (n : Nat) : Inv [] (Workers.start n) where
  linearizes := .nil
  contents := rfl
  tidy := Dict.tidy_initial
  stands _ _ hr := nomatch hr
  apart _ _ _ _ hr := nomatch hr
  known _ _ hi := nomatch hi
  same _ _ _ hi := nomatch hi
  pending _ _ hi := nomatch hi

/-- The next number is new. -/
theorem accepted_new (inv : Inv past s) : s.accepted ∉ ids (order past) := by
  intro hmem
  obtain ⟨d, hd, hid⟩ := List.mem_map.mp hmem
  have hlt := inv.known _ _ (inv.linearizes.called d hd)
  omega

theorem accept (inv : Inv past s) (h : s.step (.accept w c) = some t) :
    Inv ((s, .accept w c) :: past) t := by
  obtain ⟨hidle, rfl⟩ := accept_cases h
  have horder : order ((s, .accept w c) :: past) = order past := by simp [order, Workers.effect]
  have hhistory : history ((s, .accept w c) :: past) = history past ++ [.call s.accepted c] := rfl
  -- a call is the new one or an old one
  have hcall : ∀ {i c'}, .call i c' ∈ history past ++ [Action.call s.accepted c] →
      .call i c' ∈ history past ∨ i = s.accepted ∧ c' = c := by
    intro i c' hi
    simpa using hi
  refine ⟨?_, ?_, inv.tidy, ?_, ?_, ?_, ?_, ?_⟩
  · rw [horder, hhistory]
    exact inv.linearizes.call inv.accepted_new
  · rw [horder]
    exact inv.contents
  · intro w' r hr
    rw [horder, hhistory]
    by_cases hw : w' = w
    · obtain rfl : ⟨s.accepted, c, .start c⟩ = r := by simpa [hw] using hr
      exact ⟨by simp, rfl, inv.accepted_new⟩
    · obtain ⟨hcalled, hstands⟩ := inv.stands w' r (by simpa [hw] using hr)
      exact ⟨List.mem_append_left _ hcalled, hstands⟩
  · intro w₁ w₂ r₁ r₂ hr₁ hr₂ hid
    -- the others have smaller numbers
    have hother : ∀ {w' r}, w' ≠ w →
        Function.update s.worker w (some ⟨s.accepted, c, .start c⟩) w' = some r →
        s.worker w' = some r ∧ r.id < s.accepted := by
      intro w' r hw hr
      have hr' : s.worker w' = some r := by simpa [hw] using hr
      exact ⟨hr', inv.known _ _ (inv.stands w' r hr').1⟩
    have hself : ∀ {r}, Function.update s.worker w (some ⟨s.accepted, c, .start c⟩) w = some r →
        r.id = s.accepted := by
      intro r hr
      obtain rfl : ⟨s.accepted, c, .start c⟩ = r := by simpa using hr
      rfl
    by_cases hw₁ : w₁ = w <;> by_cases hw₂ : w₂ = w
    · exact hw₁.trans hw₂.symm
    · have h₁ := hself (hw₁ ▸ hr₁)
      have h₂ := (hother hw₂ hr₂).2
      omega
    · have h₁ := (hother hw₁ hr₁).2
      have h₂ := hself (hw₂ ▸ hr₂)
      omega
    · exact inv.apart w₁ w₂ r₁ r₂ (hother hw₁ hr₁).1 (hother hw₂ hr₂).1 hid
  · intro i c' hi
    rcases hcall (hhistory ▸ hi) with hi | ⟨rfl, rfl⟩
    · exact Nat.lt_succ_of_lt (inv.known i c' hi)
    · exact Nat.lt_succ_self _
  · intro i c₁ c₂ hi hi'
    rcases hcall (hhistory ▸ hi) with hold | ⟨hacc, hc⟩ <;>
      rcases hcall (hhistory ▸ hi') with hold' | ⟨hacc', hc'⟩
    · exact inv.same i c₁ c₂ hold hold'
    · have hlt := inv.known i c₁ hold
      omega
    · have hlt := inv.known i c₂ hold'
      omega
    · exact hc.trans hc'.symm
  · intro i c' hi
    rw [horder]
    rcases hcall (hhistory ▸ hi) with hi | ⟨rfl, rfl⟩
    · rcases inv.pending i c' hi with hdone | ⟨w', r, hr, hrid, hrc⟩
      · exact Or.inl hdone
      · have hw : w' ≠ w := by
          intro heq
          subst heq
          simp [hidle] at hr
        exact Or.inr ⟨w', r, by simpa [hw] using hr, hrid, hrc⟩
    · exact Or.inr ⟨w, ⟨s.accepted, c', .start c'⟩, by simp, rfl, rfl⟩

theorem step (inv : Inv past s) (hfresh : Fresh past s (.step w))
    (h : s.step (.step w) = some t) : Inv ((s, .step w) :: past) t := by
  obtain ⟨r, hr, rfl⟩ := step_cases h
  obtain ⟨hcalled, hstands⟩ := inv.stands w r hr
  have hfresh' : r.point.Fresh s.dict := hfresh r hr
  have horder : order ((s, .step w) :: past) =
      order past ++ r.point.effect s.dict r.id r.command := by
    simp [order, Workers.effect, hr]
  have hhistory : history ((s, .step w) :: past) =
      history past ++ ((r.point.run s.dict).answer.map (.ret r.id)).toList := by
    simp [history, Workers.observe, hr]
  have hcall : ∀ {i c'}, .call i c' ∈ history ((s, .step w) :: past) → .call i c' ∈ history past := by
    intro i c' hi
    rw [hhistory] at hi
    simpa using hi
  -- the order with the request, if it takes effect
  have heffect : Linearizes dictionary (history past) (order ((s, .step w) :: past)) := by
    rw [horder, Point.effect, ← inv.contents]
    split
    case isTrue htakes =>
        exact inv.linearizes.effect (new_of_takesEffect hstands htakes) hcalled
    case isFalse => simpa using inv.linearizes
  have hrest : ∀ {w' r'}, w' ≠ w → s.worker w' = some r' →
      r'.id ∉ ids (r.point.effect s.dict r.id r.command) := by
    intro w' r' hw hr' hmem
    refine hw (inv.apart w' w r' r hr' hr ?_)
    unfold Point.effect at hmem
    split at hmem
    · simpa using hmem
    · simp [ids] at hmem
  -- a worker that is at a request after the step was so before
  have hworker : ∀ {w' r'}, Function.update s.worker w
      ((r.point.run s.dict).next.map fun p => { r with point := p }) w' = some r' →
      ∃ r₀, s.worker w' = some r₀ ∧ r₀.id = r'.id ∧ r₀.command = r'.command := by
    intro w' r' hr'
    by_cases hw : w' = w
    · subst hw
      obtain ⟨p, -, rfl⟩ : ∃ p, (r.point.run s.dict).next = some p ∧ { r with point := p } = r' := by
        simpa using hr'
      exact ⟨r, hr, rfl, rfl⟩
    · exact ⟨r', by simpa [hw] using hr', rfl, rfl⟩
  refine ⟨?_, ?_, run_tidy inv.tidy hfresh', ?_, ?_,
    fun i c' hi => inv.known i c' (hcall hi),
    fun i c₁ c₂ hi hi' => inv.same i c₁ c₂ (hcall hi) (hcall hi'), ?_⟩
  · rw [hhistory]
    cases hanswer : (r.point.run s.dict).answer with
    | none => simpa using heffect
    | some ms =>
        have hdone : ⟨r.id, r.command, ms⟩ ∈ order ((s, .step w) :: past) := by
          rw [horder]
          exact List.mem_append_left _ (done_of_answer hstands hanswer)
        exact heffect.ret hdone
  · rw [horder, Spec.after_append, inv.contents, run_lookup hstands hfresh', Point.effect]
    split <;> rfl
  · intro w' r' hr'
    obtain ⟨r₀, hr₀, hid, hcommand⟩ := hworker hr'
    constructor
    · rw [hhistory, ← hid, ← hcommand]
      exact List.mem_append_left _ (inv.stands w' r₀ hr₀).1
    · rw [horder]
      by_cases hw : w' = w
      · subst hw
        obtain ⟨p, hnext, rfl⟩ :
            ∃ p, (r.point.run s.dict).next = some p ∧ { r with point := p } = r' := by
          simpa using hr'
        exact run_stands hstands hfresh' hnext
      · have hr' : s.worker w' = some r' := by simpa [hw] using hr'
        exact (inv.stands w' r' hr').2.grow (hrest hw hr')
  · intro w₁ w₂ r₁ r₂ hr₁ hr₂ hid
    obtain ⟨r₁', hr₁', hid₁, -⟩ := hworker hr₁
    obtain ⟨r₂', hr₂', hid₂, -⟩ := hworker hr₂
    exact inv.apart w₁ w₂ r₁' r₂' hr₁' hr₂' (hid₁.trans (hid.trans hid₂.symm))
  · intro i c' hi
    rw [horder, ids_append]
    rcases inv.pending i c' (hcall hi) with hdone | ⟨w', r', hr', rfl, rfl⟩
    · exact Or.inl (List.mem_append_left _ hdone)
    · by_cases hw : w' = w
      · subst hw
        obtain rfl : r = r' := by simpa [hr] using hr'
        cases hnext : (r.point.run s.dict).next with
        | none => exact Or.inl (List.mem_append_left _ (done_of_end hstands hnext))
        | some p => exact Or.inr ⟨w', { r with point := p }, by simp, rfl, rfl⟩
      · exact Or.inr ⟨w', r', by simpa [hw] using hr', rfl, rfl⟩

end Inv

/-- The invariant holds while all steps are fresh. -/
theorem inv_of_fresh (run : Run (concurrent n) past s) (hfresh : Machine.StepsMeet Fresh past) :
    Inv past s := by
  refine run.invariant_of_meet (P := Inv) (fun s hs => ?_) (fun past s e t _ hfresh inv hstep => ?_)
    hfresh
  · obtain rfl : s = Workers.start n := hs
    exact Inv.init n
  · cases e with
    | accept w c => exact inv.accept hstep
    | step w => exact inv.step hfresh hstep

/-! ### Concurrent inserts -/

/-- An insertion that has succeeded. -/
def Inserts (k : Key) (d : Done Command (List Message)) : Prop :=
  (∃ v, d.op = .insert k v) ∧ d.ans = [.tagged "Insertion successful"]

section Inserts

variable {m : Contents} {ds : List (Done Command (List Message))}

/-- Only `delete` takes a key away. -/
theorem apply_present (hk : m k ≠ none) (hc : c ≠ .delete k) : (c.apply m).1 k ≠ none := by
  have hupdate : ∀ {m : Contents} {j : Key} {v : String}, m k ≠ none →
      Function.update m j (some v) k ≠ none := by
    intro m j v hm
    by_cases hj : k = j
    · subst hj
      simp
    · simpa [hj] using hm
  cases c with
  | insert j v =>
      simp only [Command.apply]
      split
      · exact hk
      · exact hupdate hk
  | update j v =>
      simp only [Command.apply]
      split
      · exact hupdate hk
      · exact hk
  | fetch j =>
      simp only [Command.apply]
      split <;> exact hk
  | concat j j₂ =>
      simp only [Command.apply]
      split
      · split
        · exact hupdate hk
        · exact hupdate (hupdate hk)
      · exact hk
  | delete j =>
      have hj : k ≠ j := by
        intro heq
        subst heq
        exact hc rfl
      simp only [Command.apply]
      split
      · simpa [hj] using hk
      · exact hk

/-- Only `insert` brings a key. -/
theorem apply_absent (hk : m k = none) (hc : ∀ v, c ≠ .insert k v) : (c.apply m).1 k = none := by
  have hupdate : ∀ {m : Contents} {j : Key} {o : Option String}, k ≠ j → m k = none →
      Function.update m j o k = none := by
    intro m j o hj hm
    simpa [hj] using hm
  have hne : ∀ {j : Key} {s : String}, m j = some s → k ≠ j := by
    intro j s hj heq
    subst heq
    simp [hk] at hj
  cases c with
  | insert j v =>
      have hj : k ≠ j := by
        intro heq
        subst heq
        exact hc v rfl
      simp only [Command.apply]
      split
      · exact hk
      · exact hupdate hj hk
  | update j v | delete j =>
      simp only [Command.apply]
      split
      case h_1 hj => exact hupdate (hne hj) hk
      case h_2 => exact hk
  | fetch j =>
      simp only [Command.apply]
      split <;> exact hk
  | concat j j₂ =>
      simp only [Command.apply]
      split
      case h_1 hj hj₂ =>
          split
          · exact hupdate (hne hj) hk
          · exact hupdate (hne hj₂) (hupdate (hne hj) hk)
      case h_2 => exact hk

/-- While a key is there nobody inserts it. -/
theorem not_inserts_of_present (hlegal : dictionary.Legal m ds) (hk : m k ≠ none)
    (hdelete : ∀ d ∈ ds, d.op ≠ .delete k) : ∀ d ∈ ds, ¬ Inserts k d := by
  induction ds generalizing m with
  | nil => simp
  | cons d ds ih =>
      intro d' hd'
      rcases List.mem_cons.mp hd' with rfl | hd'
      · intro hinserts
        obtain ⟨⟨v, hop⟩, hans⟩ := hinserts
        obtain ⟨s, hs⟩ := Option.ne_none_iff_exists'.mp hk
        have hfail := hlegal.1
        simp [hop, hans, dictionary, Command.apply, hs, Command.answer, Command.failure] at hfail
      · exact ih hlegal.2 (apply_present hk (hdelete d List.mem_cons_self))
          (fun d hd => hdelete d (List.mem_cons_of_mem _ hd)) d' hd'

/-- **Of any inserts of a key that is not there the first one succeeds**, and no
other. -/
theorem inserts_once (hlegal : dictionary.Legal m ds) (hk : m k = none)
    (hdelete : ∀ d ∈ ds, d.op ≠ .delete k) (hsome : ∃ d ∈ ds, ∃ v, d.op = .insert k v) :
    ∃ d ∈ ds, Inserts k d ∧ ∀ d' ∈ ds, Inserts k d' → d' = d := by
  induction ds generalizing m with
  | nil => simp at hsome
  | cons d ds ih =>
      have hlater : ∀ d' ∈ ds, d'.op ≠ .delete k :=
        fun d' hd' => hdelete d' (List.mem_cons_of_mem d hd')
      by_cases hop : ∃ v, d.op = .insert k v
      · obtain ⟨v, hop⟩ := hop
        obtain ⟨hans, hrest⟩ := hlegal
        simp only [hop, dictionary, Command.apply, hk, Command.answer] at hans hrest
        have hnone := not_inserts_of_present hrest (k := k) (by simp) hlater
        refine ⟨d, List.mem_cons_self, ⟨⟨v, hop⟩, hans.symm⟩, ?_⟩
        intro d' hd' hinserts
        rcases List.mem_cons.mp hd' with rfl | hd'
        · rfl
        · exact absurd hinserts (hnone d' hd')
      · have hk' : (dictionary.step m d.op).1 k = none :=
          apply_absent hk fun v hv => hop ⟨v, hv⟩
        have hsome' : ∃ d ∈ ds, ∃ v, d.op = .insert k v := by
          obtain ⟨d', hd', hop'⟩ := hsome
          rcases List.mem_cons.mp hd' with rfl | hd'
          · exact absurd hop' hop
          · exact ⟨d', hd', hop'⟩
        obtain ⟨d', hd', hinserts, honly⟩ := ih hlegal.2 hk' hlater hsome'
        refine ⟨d', List.mem_cons_of_mem d hd', hinserts, ?_⟩
        intro d'' hd'' hinserts'
        rcases List.mem_cons.mp hd'' with rfl | hd''
        · exact absurd hinserts'.1 hop
        · exact honly d'' hd'' hinserts'

end Inserts

/-- The key is absent, and nobody is about to insert or to delete it. -/
def Workers.Lacks (s : Workers n) (k : Key) : Prop :=
  (s.dict k).empty = true ∧
    ∀ w r, s.worker w = some r → r.command ≠ .delete k ∧ ∀ v, r.command ≠ .insert k v

/-- **Exactly one insert succeeds.**  Whenever a key is absent, and inserts of it
come and are all answered before anybody asks to delete it, exactly one of them
is told that it succeeded. -/
def InsertsOnce (past : Past (Workers n) (WorkEvent n)) : Prop :=
  ∀ newer s e older k, past = newer ++ (s, e) :: older → s.Lacks k →
    (∀ i, .call i (.delete k) ∉ history (newer ++ [(s, e)])) →
    (∃ i v, .call i (.insert k v) ∈ history (newer ++ [(s, e)])) →
    (∀ i v, .call i (.insert k v) ∈ history (newer ++ [(s, e)]) →
      ∃ ans, .ret i ans ∈ history (newer ++ [(s, e)])) →
    ∃! i, (∃ v, .call i (.insert k v) ∈ history (newer ++ [(s, e)])) ∧
      .ret i [.tagged "Insertion successful"] ∈ history (newer ++ [(s, e)])

/-- The numbers of the calls since a state are those given since. -/
theorem accepted_le_of_call {s₀ : Workers n} {e₀ : WorkEvent n}
    (run : Run (concurrent n) (newer ++ (s₀, e₀) :: older) s) :
    s₀.accepted ≤ s.accepted ∧
      ∀ i c, .call i c ∈ history (newer ++ [(s₀, e₀)]) → s₀.accepted ≤ i := by
  have hstep : ∀ {s t : Workers n} {e}, s.step e = some t → s.accepted ≤ t.accepted ∧
      ∀ i c, .call i c ∈ s.observe e → s.accepted ≤ i := by
    intro s t e h
    cases e with
    | accept w c =>
        obtain ⟨-, rfl⟩ := accept_cases h
        exact ⟨Nat.le_succ _, by simp [Workers.observe]⟩
    | step w =>
        obtain ⟨r, hr, rfl⟩ := step_cases h
        exact ⟨Nat.le_refl _, by simp [Workers.observe, hr]⟩
  induction newer generalizing s with
  | nil =>
      cases run with
      | step run h =>
          obtain ⟨hle, hcalls⟩ := hstep h
          exact ⟨hle, fun i c hi => hcalls i c (by simpa [history] using hi)⟩
  | cons x newer ih =>
      cases run with
      | step run h =>
          obtain ⟨hle, hcalls⟩ := hstep h
          obtain ⟨hle', hcalls'⟩ := ih run
          refine ⟨Nat.le_trans hle' hle, ?_⟩
          intro i c hi
          rcases List.mem_append.mp hi with hi | hi
          · exact hcalls' i c hi
          · exact Nat.le_trans hle' (hcalls i c hi)

theorem insertsOnce_of_fresh (run : Run (concurrent n) past s)
    (hfresh : Machine.StepsMeet Fresh past) : InsertsOnce past := by
  intro newer s₀ e₀ older k heq hall hdelete hsome hanswered
  subst heq
  obtain ⟨habsent, hnobody⟩ := hall
  have inv := inv_of_fresh run hfresh
  have inv₀ := inv_of_fresh (run.earlier rfl) hfresh.older.2
  have hsplit : newer ++ (s₀, e₀) :: older = (newer ++ [(s₀, e₀)]) ++ older := by simp
  obtain ⟨-, hcalls⟩ := accepted_le_of_call run
  have hhistory : history (newer ++ (s₀, e₀) :: older) =
      history older ++ history (newer ++ [(s₀, e₀)]) := by
    rw [hsplit, history_append]
  have horder : order (newer ++ (s₀, e₀) :: older) =
      order older ++ order (newer ++ [(s₀, e₀)]) := by
    rw [hsplit, order_append]
  generalize history (newer ++ [(s₀, e₀)]) = calls at *
  generalize order (newer ++ [(s₀, e₀)]) = ds at *
  have hlinear := inv.linearizes
  rw [hhistory, horder] at hlinear
  have hlegal : dictionary.Legal s₀.dict.lookup ds := by
    have hboth := Spec.legal_append.mp hlinear.legal
    rw [inv₀.contents] at hboth
    exact hboth.2
  -- what takes effect in this time and is an insert or a delete of the key is called in it
  have hcalled : ∀ d ∈ ds, (d.op = .delete k ∨ ∃ v, d.op = .insert k v) → .call d.id d.op ∈ calls := by
    intro d hd hop
    rcases List.mem_append.mp (hlinear.called d (List.mem_append_right _ hd)) with hold | hnew
    · rcases inv₀.pending _ _ hold with hdone | ⟨w, r, hr, -, hrc⟩
      · have hdisjoint := (List.nodup_append.mp (by simpa using hlinear.once)).2.2
        exact absurd rfl (hdisjoint _ hdone _ (mem_ids_of_mem hd))
      · obtain ⟨hnodelete, hnoinsert⟩ := hnobody w r hr
        rcases hop with hop | ⟨v, hop⟩
        · exact absurd (hrc.trans hop) hnodelete
        · exact absurd (hrc.trans hop) (hnoinsert v)
    · exact hnew
  -- what is called in this time and answered takes effect in it
  have hdone : ∀ i c ans, .call i c ∈ calls → .ret i ans ∈ calls → ⟨i, c, ans⟩ ∈ ds := by
    intro i c ans hi hret
    obtain ⟨op, hmem⟩ := hlinear.answered i ans (List.mem_append_right _ hret)
    have hop := hlinear.called _ hmem
    have hsame := inv.same i op c (hhistory ▸ hop) (hhistory ▸ List.mem_append_right _ hi)
    obtain rfl : op = c := hsame
    rcases List.mem_append.mp hmem with hold | hnew
    · have hlt : i < s₀.accepted := inv₀.known _ _ (inv₀.linearizes.called _ hold)
      have hle := hcalls i op hi
      omega
    · exact hnew
  obtain ⟨d, hd, ⟨⟨v, hop⟩, hans⟩, honly⟩ := inserts_once hlegal (Dict.lookup_of_empty habsent)
    (fun d hd hop => hdelete d.id (hop ▸ hcalled d hd (Or.inl hop))) (by
      obtain ⟨i, v, hi⟩ := hsome
      obtain ⟨ans, hret⟩ := hanswered i v hi
      exact ⟨_, hdone i _ ans hi hret, v, rfl⟩)
  have hdcall : .call d.id (.insert k v) ∈ calls := hop ▸ hcalled d hd (Or.inr ⟨v, hop⟩)
  refine ⟨d.id, ⟨⟨v, hdcall⟩, ?_⟩, ?_⟩
  · obtain ⟨ans, hret⟩ := hanswered d.id v hdcall
    have hmem := hdone d.id _ ans hdcall hret
    -- a request takes effect once, with one answer
    have hnodup : (ids ds).Nodup := (List.nodup_append.mp (by simpa using hlinear.once)).2.1
    have heq := List.inj_on_of_nodup_map hnodup hmem hd rfl
    have hans' : ans = d.ans := congrArg Done.ans heq
    rwa [hans', hans] at hret
  · intro i hi
    obtain ⟨⟨v', hi⟩, hret⟩ := hi
    have heq := honly _ (hdone i _ _ hi hret) ⟨⟨v', rfl⟩, rfl⟩
    exact congrArg Done.id heq

/-! ### The server is linearizable -/

/-- **The server serves a map to concurrent clients.** -/
structure ServesMap (past : Past (Workers n) (WorkEvent n)) (s : Workers n) : Prop where
  linearizable : Explained dictionary (history past)
  insertsOnce : InsertsOnce past
  tidy : s.dict.Tidy

/-- **When the server is linearizable.**  For any number of workers and any
order of their steps: if in each step what its request has read or written
before still stands, then the history is that of a map from keys to optional
strings, exactly one of any inserts of an absent key succeeds, and an empty slot
has an empty string. -/
theorem servesMap_of_fresh (run : Run (concurrent n) past s)
    (hfresh : Machine.StepsMeet Fresh past) : ServesMap past s where
  linearizable := ⟨_, (inv_of_fresh run hfresh).linearizes⟩
  insertsOnce := insertsOnce_of_fresh run hfresh
  tidy := (inv_of_fresh run hfresh).tidy

/-- The theorem at two inserts that overlap. -/
theorem servesMap_of_fresh_overlap : ∃ past s, Run (concurrent 2) past s ∧
    history past = [.call 0 (.insert 5 "a"), .call 1 (.insert 5 "b"),
      .ret 1 [.tagged "Key already exists"], .ret 0 [.tagged "Insertion successful"]] ∧
    ServesMap past s := by
  obtain ⟨past, s, run, hhistory, hfresh⟩ := Machine.exists_run_of_trace (M := concurrent 2) rfl
    [.accept 0 (.insert 5 "a"), .accept 1 (.insert 5 "b"), .step 0, .step 0, .step 1, .step 1,
      .step 0]
    (fun past _ => history past = [.call 0 (.insert 5 "a"), .call 1 (.insert 5 "b"),
        .ret 1 [.tagged "Key already exists"], .ret 0 [.tagged "Insertion successful"]] ∧
      Machine.StepsMeet Fresh past) (by decide)
  exact ⟨past, s, run, hhistory, servesMap_of_fresh run hfresh⟩

/-- Two workers find the same slot empty, and both inserts succeed. -/
theorem both_insert : ¬ ∀ (n : Nat) past s, Run (concurrent n) past s → ServesMap past s := by
  intro h
  obtain ⟨past, s, run, hhistory⟩ := Machine.exists_run_of_trace (M := concurrent 2) rfl
    [.accept 0 (.insert 5 "a"), .accept 1 (.insert 5 "b"), .step 0, .step 1, .step 0, .step 1,
      .step 0, .step 1]
    (fun past _ => history past = [.call 0 (.insert 5 "a"), .call 1 (.insert 5 "b"),
      .ret 0 [.tagged "Insertion successful"], .ret 1 [.tagged "Insertion successful"]])
    (by decide)
  obtain ⟨ds, hlinear⟩ := (h 2 past s run).linearizable
  rw [hhistory] at hlinear
  have hinsert : ∀ d ∈ ds, ∃ v, d.op = .insert 5 v := by
    intro d hd
    have hcalled := hlinear.called d hd
    simp only [List.mem_cons, Action.call.injEq, reduceCtorEq, List.not_mem_nil, or_self,
      or_false] at hcalled
    rcases hcalled with ⟨-, hop⟩ | ⟨-, hop⟩
    · exact ⟨_, hop⟩
    · exact ⟨_, hop⟩
  obtain ⟨op₀, hdone₀⟩ := hlinear.answered 0 [.tagged "Insertion successful"] (by simp)
  obtain ⟨op₁, hdone₁⟩ := hlinear.answered 1 [.tagged "Insertion successful"] (by simp)
  obtain ⟨d, -, -, honly⟩ := inserts_once (k := 5) hlinear.legal rfl
    (fun d hd hop => by
      obtain ⟨v, hv⟩ := hinsert d hd
      simp [hv] at hop)
    ⟨_, hdone₀, hinsert _ hdone₀⟩
  have heq := (honly _ hdone₀ ⟨hinsert _ hdone₀, rfl⟩).trans
    (honly _ hdone₁ ⟨hinsert _ hdone₁, rfl⟩).symm
  simp at heq

end Server
