import OSN.Stadium.Match

/-!
# From creation to return

A thread that has not been created or has returned takes no step, and no other
thread moves it (`ThreadStep`).  Only `main` creates threads, one after the
other, so those it has not come to yet have not begun (`Unborn`).
-/

namespace Stadium

variable {inp : Input} {s t : State inp} {e : Event inp} {past : Past (State inp) (Event inp)}

/-- A spectator thread that does not run: before its creation or after its
return. -/
def Spectator.Idle (a : Spectator) : Prop := a = .notCreated ∨ a = .returned

def Zone.Idle (a : Zone) : Prop := a = .notCreated ∨ a = .returned

def Goal.Idle (a : Goal) : Prop := a = .notCreated ∨ a = .returned

/-- **What every step of a thread other than `main` leaves alone**: `main`,
`done`, and the threads that do not run. -/
structure ThreadStep (s t : State inp) : Prop where
  main : t.main = s.main
  done : t.done = s.done
  spectator : ∀ p, (s.spectator p).Idle → t.spectator p = s.spectator p
  zone : ∀ z, (s.zone z).Idle → t.zone z = s.zone z
  goal : ∀ g, (s.goal g).Idle → t.goal g = s.goal g

/-- One thread of a family moves, and it was running. -/
theorem idle_update {n : Nat} {A : Type} {f g : Fin n → A} {Idle : A → Prop} {p : Fin n} {a : A}
    (hrun : ¬ Idle (f p)) (hg : g = Function.update f p a) (q : Fin n) (hq : Idle (f q)) :
    g q = f q := by
  have hne : q ≠ p := by
    intro heq
    subst heq
    exact hrun hq
  rw [hg, Function.update_of_ne hne]

/-- A spectator's operation moves the spectator alone, and changes nothing but
the seats and the mutexes. -/
theorem spectatorThread_cases {p : inp.Fan} (h : s.spectatorThread p = some t) :
    ¬ (s.spectator p).Idle ∧ ∃ a capacity mutexes mutex,
      t = { s with
            spectator := Function.update s.spectator p a
            capacity := capacity
            fansTypeMutex := mutexes
            goalCondMutex := mutex } := by
  constructor
  · intro hidle
    rcases hidle with hidle | hidle <;> simp [State.spectatorThread, hidle] at h
  · simp only [State.spectatorThread] at h
    split at h <;> try split at h
    all_goals first
      | exact ⟨_, _, _, _, (Option.some.inj h).symm⟩
      | cases h

theorem spectatorThread_step {p : inp.Fan} (h : s.spectatorThread p = some t) :
    ThreadStep s t := by
  obtain ⟨hrun, a, capacity, mutexes, mutex, ht⟩ := spectatorThread_cases h
  subst ht
  exact ⟨rfl, rfl, idle_update hrun rfl, fun _ _ => rfl, fun _ _ => rfl⟩

/-- **What other threads can do to a spectator**: create his thread, or wake
him up. -/
inductive Disturbed : Spectator → Spectator → Prop
  | not (a : Spectator) : Disturbed a a
  | created : Disturbed .notCreated .sleep
  | wokenUp (rt : Rt) : Disturbed (.fansType .blocked) (.fansType (.woken rt))
  | wokenUpSeated (z : Fin 3) (rt : Rt) :
      Disturbed (.goalCond z .blocked) (.goalCond z (.woken rt))

theorem expire_cases {p : inp.Fan} {rt : Rt} (h : s.expire p rt = some t) :
    ¬ (s.spectator p).Idle ∧ ∃ a, Disturbed (s.spectator p) a ∧ t = s.setSpectator p a := by
  unfold State.expire at h
  split at h
  · rename_i hs
    rw [hs]
    exact ⟨by simp [Spectator.Idle], _, .wokenUp rt, (Option.some.inj h).symm⟩
  · rename_i z hs
    rw [hs]
    exact ⟨by simp [Spectator.Idle], _, .wokenUpSeated z rt, (Option.some.inj h).symm⟩
  · cases h

theorem expire_step {p : inp.Fan} {rt : Rt} (h : s.expire p rt = some t) : ThreadStep s t := by
  obtain ⟨hrun, a, _, ht⟩ := expire_cases h
  subst ht
  exact ⟨rfl, rfl, idle_update hrun rfl, fun _ _ => rfl, fun _ _ => rfl⟩

theorem Disturbed.returned {a b : Spectator} (h : Disturbed a b) (ha : a = .returned) :
    b = .returned := by
  cases h with
  | not => exact ha
  | created | wokenUp | wokenUpSeated => cases ha

/-- A zone thread moves itself alone, changes nothing but the seats, and returns
only when it sees `done`. -/
theorem zoneThread_cases {i : Fin 3} (h : s.zoneThread i = some t) :
    ¬ (s.zone i).Idle ∧ ∃ a capacity, (a = .returned → s.done = true) ∧
      t = { s with zone := Function.update s.zone i a, capacity := capacity } := by
  constructor
  · intro hidle
    rcases hidle with hidle | hidle <;> simp [State.zoneThread, hidle] at h
  · simp only [State.zoneThread] at h
    split at h <;> try split at h
    all_goals first
      | (refine ⟨_, _, ?_, (Option.some.inj h).symm⟩; simp_all)
      | cases h

theorem zoneThread_step {i : Fin 3} (h : s.zoneThread i = some t) : ThreadStep s t := by
  obtain ⟨hrun, a, capacity, _, ht⟩ := zoneThread_cases h
  subst ht
  exact ⟨rfl, rfl, fun _ _ => rfl, idle_update hrun rfl, fun _ _ => rfl⟩

/-- A signal: whose turn it was, and whom it woke up. -/
theorem signal_cases {i : Fin 3} {woken : List inp.Fan} (h : s.signal i woken = some t) :
    ∃ j types, s.zone i = .signal (j :: types) ∧ CondVar.MayWake .posix (s.BlockedOnType j) woken ∧
      t = { s.setZone i (.signal types) with
            spectator := fun p =>
              if p ∈ woken then .fansType (.woken .zero) else s.spectator p } := by
  unfold State.signal at h
  split at h
  · rename_i j types hs
    simp only [Option.ite_none_right_eq_some, Option.some.injEq] at h
    exact ⟨j, types, hs, h.1, h.2.symm⟩
  · cases h

/-- A signal wakes spectators up who wait for a seat, and no others. -/
theorem signal_disturbs {i : Fin 3} {woken : List inp.Fan} (h : s.signal i woken = some t)
    (p : inp.Fan) : Disturbed (s.spectator p) (t.spectator p) := by
  obtain ⟨j, types, hs, hwake, ht⟩ := signal_cases h
  subst ht
  by_cases hp : p ∈ woken
  · simp only [(hwake.1 p hp).2, hp, ↓reduceIte]
    exact .wokenUp .zero
  · simp only [hp, ↓reduceIte]
    exact .not _

theorem broadcast_disturbs (s : State inp) (p : inp.Fan) :
    Disturbed (s.spectator p) (s.broadcastGoalCond.spectator p) := by
  simp only [State.broadcastGoalCond]
  split
  · rename_i z hs
    rw [hs]
    exact .wokenUpSeated z .zero
  · exact .not _

theorem signal_step {i : Fin 3} {woken : List inp.Fan} (h : s.signal i woken = some t) :
    ThreadStep s t := by
  obtain ⟨j, types, hs, hwake, ht⟩ := signal_cases h
  subst ht
  constructor
  · rfl
  · rfl
  · intro p hidle
    have hnot : p ∉ woken := by
      intro hmem
      have hblocked := (hwake.1 p hmem).2
      simp [hblocked, Spectator.Idle] at hidle
    simp [hnot]
  · exact idle_update (by simp [hs, Zone.Idle]) rfl
  · intro g _
    rfl

/-- A goal thread moves itself alone, unless it broadcasts, and changes nothing
but the count of its team and the mutex. -/
theorem goalThread_cases {g : inp.Chance} (h : s.goalThread g = some t) :
    ¬ (s.goal g).Idle ∧ ∃ a counts mutex spectator,
      (spectator = s.spectator ∨ spectator = s.broadcastGoalCond.spectator) ∧
        t = { s with
              goal := Function.update s.goal g a
              goalsCount := counts
              goalsCountMutex := mutex
              spectator := spectator } := by
  constructor
  · intro hidle
    rcases hidle with hidle | hidle <;> simp [State.goalThread, hidle] at h
  · simp only [State.goalThread] at h
    split at h <;> try split at h
    all_goals first
      | exact ⟨_, _, _, _, Or.inl rfl, (Option.some.inj h).symm⟩
      | exact ⟨_, _, _, _, Or.inr rfl, (Option.some.inj h).symm⟩
      | cases h

theorem goalThread_disturbs {g : inp.Chance} (h : s.goalThread g = some t) (p : inp.Fan) :
    Disturbed (s.spectator p) (t.spectator p) := by
  obtain ⟨_, a, counts, mutex, spectator, hspectator, ht⟩ := goalThread_cases h
  subst ht
  rcases hspectator with hspectator | hspectator
  · subst hspectator
    exact .not _
  · subst hspectator
    exact broadcast_disturbs s p

theorem goalThread_step {g : inp.Chance} (h : s.goalThread g = some t) : ThreadStep s t := by
  obtain ⟨hrun, a, counts, mutex, spectator, hspectator, ht⟩ := goalThread_cases h
  subst ht
  constructor
  · rfl
  · rfl
  · intro p hidle
    rcases hspectator with hspectator | hspectator
    · subst hspectator
      rfl
    · subst hspectator
      rcases hidle with hidle | hidle <;> simp [State.broadcastGoalCond, hidle]
  · intro z _
    rfl
  · exact idle_update hrun rfl

theorem step_runs (h : s.step e = some t) : s.main ≠ .returned := by
  intro hreturned
  simp [State.step, hreturned] at h

theorem step_spectator {p : inp.Fan} (h : s.step (.spectator p) = some t) :
    s.spectatorThread p = some t := by
  simpa [State.step, step_runs h] using h

theorem step_expire {p : inp.Fan} {rt : Rt} (h : s.step (.expire p rt) = some t) :
    s.expire p rt = some t := by
  simpa [State.step, step_runs h] using h

theorem step_zone {i : Fin 3} (h : s.step (.zone i) = some t) : s.zoneThread i = some t := by
  simpa [State.step, step_runs h] using h

theorem step_signal {i : Fin 3} {woken : List inp.Fan} (h : s.step (.signal i woken) = some t) :
    s.signal i woken = some t := by
  simpa [State.step, step_runs h] using h

theorem step_goal {g : inp.Chance} (h : s.step (.goal g) = some t) :
    s.goalThread g = some t := by
  simpa [State.step, step_runs h] using h

/-- Every event other than one of `main` is a step of a thread. -/
theorem step_thread (h : s.step e = some t) (he : e ≠ .main) : ThreadStep s t := by
  cases e with
  | main => exact absurd rfl he
  | spectator p => exact spectatorThread_step (step_spectator h)
  | expire p rt => exact expire_step (step_expire h)
  | zone i => exact zoneThread_step (step_zone h)
  | signal i woken => exact signal_step (step_signal h)
  | goal g => exact goalThread_step (step_goal h)

/-- **What `main` can do.** -/
inductive MainMove (s t : State inp) : Prop
  | createSpectator (index : Nat) (hs : s.main = .createSpectator index)
      (hmore : index < inp.people.length)
      (ht : t = { s with
                  main := .createSpectator (index + 1)
                  spectator := State.create s.spectator .sleep index })
  | spectatorsCreated (index : Nat) (hs : s.main = .createSpectator index)
      (hmore : ¬ index < inp.people.length) (ht : t = { s with main := .createZone 0 })
  | createZone (i : Nat) (hs : s.main = .createZone i) (hmore : i < 3)
      (ht : t = { s with main := .createZone (i + 1), zone := State.create s.zone .test i })
  | zonesCreated (i : Nat) (hs : s.main = .createZone i) (hmore : ¬ i < 3)
      (ht : t = { s with main := .createGoal 0 })
  | createGoal (i : Nat) (hs : s.main = .createGoal i) (hmore : i < inp.store.length)
      (ht : t = { s with main := .createGoal (i + 1), goal := State.create s.goal .sleep i })
  | goalsCreated (i : Nat) (hs : s.main = .createGoal i) (hmore : ¬ i < inp.store.length)
      (ht : t = { s with main := .joinSpectator 0 })
  | joinSpectator (i : Nat) (hs : s.main = .joinSpectator i) (hmore : (i : Int) < inp.totalPeople)
      (hjoin : ∀ p : inp.Fan, p.val = i → s.spectator p = .returned)
      (ht : t = { s with main := .setDone i })
  | spectatorsJoined (i : Nat) (hs : s.main = .joinSpectator i)
      (hmore : ¬ (i : Int) < inp.totalPeople) (ht : t = { s with main := .joinGoal 0 })
  | setDone (i : Nat) (hs : s.main = .setDone i)
      (ht : t = { s with done := true, main := .joinSpectator (i + 1) })
  | joinGoal (i : Nat) (hs : s.main = .joinGoal i) (hmore : i < inp.store.length)
      (hjoin : ∀ g : inp.Chance, g.val = i → s.goal g = .returned)
      (ht : t = { s with main := .broadcast i })
  | goalsJoined (i : Nat) (hs : s.main = .joinGoal i) (hmore : ¬ i < inp.store.length)
      (ht : t = { s with main := .joinZone 0 })
  | broadcast (i : Nat) (hs : s.main = .broadcast i)
      (ht : t = { s with main := .joinGoal (i + 1) }.broadcastGoalCond)
  | joinZone (i : Nat) (hs : s.main = .joinZone i) (hmore : i < 3)
      (hjoin : ∀ z : Fin 3, z.val = i → s.zone z = .returned)
      (ht : t = { s with main := .joinZone (i + 1) })
  | returns (i : Nat) (hs : s.main = .joinZone i) (hmore : ¬ i < 3)
      (ht : t = { s with main := .returned })

theorem step_main (h : s.step .main = some t) : MainMove s t := by
  have hmain : s.mainThread = some t := by simpa [State.step, step_runs h] using h
  unfold State.mainThread at hmain
  cases hs : s.main with
  | createSpectator index =>
      by_cases hmore : index < inp.people.length <;> simp [hs, hmore] at hmain
      · exact .createSpectator index hs hmore hmain.symm
      · exact .spectatorsCreated index hs hmore hmain.symm
  | createZone i =>
      by_cases hmore : i < 3 <;> simp [hs, hmore] at hmain
      · exact .createZone i hs hmore hmain.symm
      · exact .zonesCreated i hs hmore hmain.symm
  | createGoal i =>
      by_cases hmore : i < inp.store.length <;> simp [hs, hmore] at hmain
      · exact .createGoal i hs hmore hmain.symm
      · exact .goalsCreated i hs hmore hmain.symm
  | joinSpectator i =>
      by_cases hmore : (i : Int) < inp.totalPeople <;> simp only [hs, hmore, ↓reduceIte,
        Option.ite_none_right_eq_some, Option.some.injEq] at hmain
      · exact .joinSpectator i hs hmore hmain.1 hmain.2.symm
      · exact .spectatorsJoined i hs hmore hmain.symm
  | setDone i =>
      simp only [hs, Option.some.injEq] at hmain
      exact .setDone i hs hmain.symm
  | joinGoal i =>
      by_cases hmore : i < inp.store.length <;> simp only [hs, hmore, ↓reduceIte,
        Option.ite_none_right_eq_some, Option.some.injEq] at hmain
      · exact .joinGoal i hs hmore hmain.1 hmain.2.symm
      · exact .goalsJoined i hs hmore hmain.symm
  | broadcast i =>
      simp only [hs, Option.some.injEq] at hmain
      exact .broadcast i hs hmain.symm
  | joinZone i =>
      by_cases hmore : i < 3 <;> simp only [hs, hmore, ↓reduceIte,
        Option.ite_none_right_eq_some, Option.some.injEq] at hmain
      · exact .joinZone i hs hmore hmain.1 hmain.2.symm
      · exact .returns i hs hmore hmain.symm
  | returned => simp [hs] at hmain

/-! ### Threads that are still to be created -/

/-- How many spectator threads `main` has created. -/
def Main.spectators (inp : Input) : Main → Nat
  | .createSpectator index => index
  | _ => inp.people.length

def Main.zones : Main → Nat
  | .createSpectator _ => 0
  | .createZone i => i
  | _ => 3

def Main.goals (inp : Input) : Main → Nat
  | .createSpectator _ => 0
  | .createZone _ => 0
  | .createGoal i => i
  | _ => inp.store.length

/-- The threads that `main` has not come to have not begun. -/
structure Unborn (s : State inp) : Prop where
  spectator : ∀ p, s.main.spectators inp ≤ p.val → s.spectator p = .notCreated
  zone : ∀ z : Fin 3, s.main.zones ≤ z.val → s.zone z = .notCreated
  goal : ∀ g, s.main.goals inp ≤ g.val → s.goal g = .notCreated

/-- A thread that is not the one created now stays as it is. -/
theorem create_of_ne {n : Nat} {A : Type} {f : Fin n → A} {a : A} {i : Nat} {p : Fin n}
    (h : p.val ≠ i) : State.create f a i p = f p :=
  if_neg h

/-- The thread created now. -/
theorem create_of_eq {n : Nat} {A : Type} {f : Fin n → A} {a : A} {i : Nat} {p : Fin n}
    (h : p.val = i) : State.create f a i p = a :=
  if_pos h

theorem Unborn.of_main (hunborn : Unborn s) (hmove : MainMove s t) : Unborn t := by
  obtain ⟨hspectator, hzone, hgoal⟩ := hunborn
  have hnone : ∀ {n : Nat} (p : Fin n), ¬ n ≤ p.val := fun p => Nat.not_le.mpr p.isLt
  cases hmove with
  | createSpectator index hs _ ht =>
      subst ht
      simp only [hs, Main.spectators, Main.zones, Main.goals] at hspectator hzone hgoal
      constructor
      · intro p hp
        have hlt : index < p.val := hp
        exact (create_of_ne (Nat.ne_of_gt hlt)).trans (hspectator p (Nat.le_of_lt hlt))
      · exact hzone
      · exact hgoal
  | createZone i hs _ ht =>
      subst ht
      simp only [hs, Main.spectators, Main.zones, Main.goals] at hspectator hzone hgoal
      constructor
      · exact hspectator
      · intro z hz
        have hlt : i < z.val := hz
        exact (create_of_ne (Nat.ne_of_gt hlt)).trans (hzone z (Nat.le_of_lt hlt))
      · exact hgoal
  | createGoal i hs _ ht =>
      subst ht
      simp only [hs, Main.spectators, Main.zones, Main.goals] at hspectator hzone hgoal
      constructor
      · exact hspectator
      · exact hzone
      · intro g hg
        have hlt : i < g.val := hg
        exact (create_of_ne (Nat.ne_of_gt hlt)).trans (hgoal g (Nat.le_of_lt hlt))
  | spectatorsCreated _ hs _ ht | zonesCreated _ hs _ ht | goalsCreated _ hs _ ht
  | joinSpectator _ hs _ _ ht | spectatorsJoined _ hs _ ht | setDone _ hs ht | joinGoal _ hs _ _ ht
  | goalsJoined _ hs _ ht | broadcast _ hs ht | joinZone _ hs _ _ ht | returns _ hs _ ht =>
      subst ht
      simp only [hs, Main.spectators, Main.zones, Main.goals] at hspectator hzone hgoal
      constructor
      · intro p hp
        exact absurd hp (hnone p)
      · intro z hz
        first
          | exact absurd hz (hnone z)
          | exact hzone z (Nat.zero_le _)
      · intro g hg
        first
          | exact absurd hg (hnone g)
          | exact hgoal g (Nat.zero_le _)

theorem Unborn.of_thread (hunborn : Unborn s) (h : ThreadStep s t) : Unborn t := by
  constructor
  · intro p hp
    rw [h.main] at hp
    have hnew := hunborn.spectator p hp
    rw [h.spectator p (Or.inl hnew), hnew]
  · intro z hz
    rw [h.main] at hz
    have hnew := hunborn.zone z hz
    rw [h.zone z (Or.inl hnew), hnew]
  · intro g hg
    rw [h.main] at hg
    have hnew := hunborn.goal g hg
    rw [h.goal g (Or.inl hnew), hnew]

/-- **No thread begins before it is created.** -/
theorem unborn (run : Run (stadium inp) past s) : Unborn s := by
  apply run.invariant (P := fun _ s => Unborn s)
  · intro s hs
    have hstart : s = start inp := hs
    subst hstart
    exact ⟨fun _ _ => rfl, fun _ _ => rfl, fun _ _ => rfl⟩
  · intro past s e t _ hunborn h
    by_cases he : e = .main
    · subst he
      exact hunborn.of_main (step_main h)
    · exact hunborn.of_thread (step_thread h he)

/-- **A spectator moves himself, or is disturbed.** -/
theorem step_disturbs {p : inp.Fan} (hunborn : Unborn s) (h : s.step e = some t)
    (he : e ≠ .spectator p) : Disturbed (s.spectator p) (t.spectator p) := by
  cases e with
  | main =>
      cases step_main h with
      | createSpectator index hs _ ht =>
          subst ht
          by_cases hp : p.val = index
          · have hnew := hunborn.spectator p (by rw [hs, hp]; exact Nat.le_refl _)
            simp only [create_of_eq hp, hnew]
            exact .created
          · simp only [create_of_ne hp]
            exact .not _
      | broadcast i hs ht =>
          subst ht
          exact broadcast_disturbs { s with main := .joinGoal (i + 1) } p
      | createZone _ _ _ ht | createGoal _ _ _ ht | spectatorsCreated _ _ _ ht
      | zonesCreated _ _ _ ht | goalsCreated _ _ _ ht | joinSpectator _ _ _ _ ht
      | spectatorsJoined _ _ _ ht | setDone _ _ ht | joinGoal _ _ _ _ ht | goalsJoined _ _ _ ht
      | joinZone _ _ _ _ ht | returns _ _ _ ht =>
          subst ht
          exact .not _
  | spectator q =>
      have hne : p ≠ q := by
        intro heq
        exact he (by rw [heq])
      obtain ⟨_, a, _, _, _, ht⟩ := spectatorThread_cases (step_spectator h)
      subst ht
      simp only [Function.update_of_ne hne]
      exact .not _
  | expire q rt =>
      obtain ⟨_, a, ha, ht⟩ := expire_cases (step_expire h)
      subst ht
      by_cases hp : p = q
      · subst hp
        simpa [State.setSpectator] using ha
      · simp only [State.setSpectator, Function.update_of_ne hp]
        exact .not _
  | zone i =>
      obtain ⟨_, a, _, _, ht⟩ := zoneThread_cases (step_zone h)
      subst ht
      exact .not _
  | signal i woken => exact signal_disturbs (step_signal h) p
  | goal g => exact goalThread_disturbs (step_goal h) p

/-- Who has returned has returned for good. -/
theorem step_returned {p : inp.Fan} (hunborn : Unborn s) (h : s.step e = some t)
    (hs : s.spectator p = .returned) : t.spectator p = .returned := by
  have he : e ≠ .spectator p := by
    intro heq
    subst heq
    have hstep := step_spectator h
    simp [State.spectatorThread, hs] at hstep
  exact (step_disturbs hunborn h he).returned hs

end Stadium
