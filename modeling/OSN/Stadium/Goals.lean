import OSN.Stadium.Lifetimes

/-!
# Goals that a spectator sleeps through

A seated spectator waits on `goal_cond` first and looks at the goals only after
he has been woken up.  So a goal that is scored and broadcast before he falls
asleep escapes him, unless another broadcast is still to come.  That is also
the only way: a goal counted while he sleeps has its broadcast ahead, and the
broadcast wakes everybody up.
-/

namespace Stadium

variable {inp : Input} {s t : State inp} {e : Event inp} {past : Past (State inp) (Event inp)}

/-- No goal thread has a broadcast ahead. -/
def AllBroadcast (s : State inp) : Prop :=
  ∀ g, (inp.store.get g).scores = true → s.goal g = .returned

instance (s : State inp) : Decidable (AllBroadcast s) := by
  unfold AllBroadcast
  infer_instance

/-- The goals scored against a person have reached his limit. -/
def LimitReached (s : State inp) (p : inp.Fan) : Prop :=
  (inp.person p).goalLimit ≤ s.goalsCount (inp.typeId p)

instance (s : State inp) (p : inp.Fan) : Decidable (LimitReached s p) := by
  unfold LimitReached
  infer_instance

/-- A seated spectator is blocked on `goal_cond`. -/
def BlockedOnGoal (s : State inp) (p : inp.Fan) : Prop :=
  ∃ z, s.spectator p = .goalCond z .blocked

instance (s : State inp) (p : inp.Fan) : Decidable (BlockedOnGoal s p) := by
  unfold BlockedOnGoal
  infer_instance

/-- **Nobody sleeps through the decisive goal**: once all broadcasts are over,
no seated spectator is blocked on `goal_cond` whose limit is reached. -/
def HearsGoals (s : State inp) : Prop :=
  AllBroadcast s → ∀ p, BlockedOnGoal s p → ¬ LimitReached s p

/-- Nobody falls asleep on `goal_cond` whose limit is reached when all
broadcasts are over. -/
def Listens (_ : Past (State inp) (Event inp)) (s : State inp) (e : Event inp) : Prop :=
  ∀ p z, e = .spectator p → s.spectator p = .goalCond z .wait → LimitReached s p →
    ¬ AllBroadcast s

instance (past : Past (State inp) (Event inp)) (s : State inp) (e : Event inp) :
    Decidable (Listens past s e) := by
  unfold Listens
  infer_instance

/-- **What a step has to do with goals.** -/
inductive GoalMove (s : State inp) (e : Event inp) (t : State inp) : Prop
  | quiet (hlisten : ∀ p z, e = .spectator p → s.spectator p ≠ .goalCond z .wait)
      (hcount : t.goalsCount = s.goalsCount)
      (hblocked : ∀ p, BlockedOnGoal t p → BlockedOnGoal s p)
      (hgoal : AllBroadcast t → AllBroadcast s)
  | wait (p : inp.Fan) (z : Fin 3) (he : e = .spectator p) (hs : s.spectator p = .goalCond z .wait)
      (ht : t.spectator = Function.update s.spectator p (.goalCond z .blocked))
      (hcount : t.goalsCount = s.goalsCount) (hgoal : t.goal = s.goal)
  | count (he : ∀ p, e ≠ .spectator p) (hahead : ¬ AllBroadcast t)
  | broadcast (he : ∀ p, e ≠ .spectator p) (hawake : ∀ p, ¬ BlockedOnGoal t p)

/-- A step from a state in which nobody sleeps through a goal leads to such a
state just when nobody falls asleep too late. -/
theorem GoalMove.hears_iff (h : GoalMove s e t) (hhears : HearsGoals s) :
    HearsGoals t ↔ Listens past s e := by
  cases h with
  | quiet hlisten hcount hblocked hgoal =>
      constructor
      · intro _ p z he hs
        exact absurd hs (hlisten p z he)
      · intro _ hall p hp
        unfold LimitReached
        rw [hcount]
        exact hhears (hgoal hall) p (hblocked p hp)
  | wait p z he hs ht hcount hgoal =>
      have hall_iff : AllBroadcast t ↔ AllBroadcast s := by
        unfold AllBroadcast
        rw [hgoal]
      have hlimit_iff : ∀ q, LimitReached t q ↔ LimitReached s q := by
        intro q
        unfold LimitReached
        rw [hcount]
      constructor
      · intro hears q z' he' _ hlimit hall
        have hq : p = q := Event.spectator.inj (he.symm.trans he')
        subst hq
        have hblocked : BlockedOnGoal t p := ⟨z, by rw [ht, Function.update_self]⟩
        exact hears (hall_iff.mpr hall) p hblocked ((hlimit_iff p).mpr hlimit)
      · intro hlistens hall q hq hlimit
        by_cases hqp : q = p
        · subst hqp
          exact hlistens q z he hs ((hlimit_iff q).mp hlimit) (hall_iff.mp hall)
        · obtain ⟨z', hz'⟩ := hq
          rw [ht, Function.update_of_ne hqp] at hz'
          exact hhears (hall_iff.mp hall) q ⟨z', hz'⟩ ((hlimit_iff q).mp hlimit)
  | count he hahead =>
      constructor
      · intro _ p _ hp
        exact absurd hp (he p)
      · intro _ hall
        exact absurd hall hahead
  | broadcast he hawake =>
      constructor
      · intro _ p _ hp
        exact absurd hp (he p)
      · intro _ _ p hp
        exact absurd hp (hawake p)

theorem broadcast_awake (s : State inp) (p : inp.Fan) : ¬ BlockedOnGoal s.broadcastGoalCond p := by
  intro hblocked
  obtain ⟨z, hz⟩ := hblocked
  simp only [State.broadcastGoalCond] at hz
  split at hz
  · cases hz
  · rename_i hnot
    exact hnot z hz

/-- Who is disturbed does not fall asleep. -/
theorem Disturbed.blocked {a b : Spectator} (h : Disturbed a b) {z : Fin 3}
    (hb : b = .goalCond z .blocked) : a = .goalCond z .blocked := by
  cases h with
  | not => exact hb
  | created | wokenUp | wokenUpSeated => cases hb

/-- A spectator who is blocked on `goal_cond` now was about to wait. -/
theorem spectatorThread_blocked {p : inp.Fan} {z : Fin 3} (h : s.spectatorThread p = some t)
    (ht : t.spectator p = .goalCond z .blocked) : s.spectator p = .goalCond z .wait := by
  simp only [State.spectatorThread] at h
  split at h <;> try split at h
  all_goals first
    | (obtain rfl := Option.some.inj h
       simp_all [State.setSpectator])
    | cases h

/-- Nobody who is blocked after the step was awake before. -/
theorem blocked_of_disturbed (hunborn : Unborn s) (h : s.step e = some t)
    (he : ∀ p, e ≠ .spectator p) (p : inp.Fan) (hp : BlockedOnGoal t p) : BlockedOnGoal s p := by
  obtain ⟨z, hz⟩ := hp
  exact ⟨z, (step_disturbs hunborn h (he p)).blocked hz⟩

/-- Goals and waits are left alone. -/
theorem GoalMove.of_other (hunborn : Unborn s) (h : s.step e = some t)
    (he : ∀ p, e ≠ .spectator p) (hcount : t.goalsCount = s.goalsCount)
    (hgoal : AllBroadcast t → AllBroadcast s) : GoalMove s e t := by
  apply GoalMove.quiet _ hcount (blocked_of_disturbed hunborn h he) hgoal
  intro p _ hp
  exact absurd hp (he p)

/-- Only threads of chances that score come to the count and the broadcast. -/
def Goal.Scoring : Goal → Prop
  | .lock => True
  | .count => True
  | .unlock => True
  | .broadcast => True
  | _ => False

/-- Only a chance that scores brings its thread there. -/
theorem goalThread_scoring {g : inp.Chance} (h : s.goalThread g = some t)
    (ht : (t.goal g).Scoring) : (s.goal g).Scoring ∨ (inp.store.get g).scores = true := by
  simp only [State.goalThread] at h
  split at h <;> try split at h
  all_goals first
    | (obtain rfl := Option.some.inj h
       simp_all [State.setGoal, State.broadcastGoalCond, Goal.Scoring])
    | cases h

theorem scoring (run : Run (stadium inp) past s) (g : inp.Chance) (hg : (s.goal g).Scoring) :
    (inp.store.get g).scores = true := by
  induction run with
  | init hs =>
      have hstart : _ = start inp := hs
      rw [hstart] at hg
      exact absurd hg id
  | @step past s t e run h ih =>
      cases e with
      | goal g' =>
          have hstep := step_goal h
          by_cases hne : g = g'
          · subst hne
            rcases goalThread_scoring hstep hg with hold | hnew
            · exact ih hold
            · exact hnew
          · obtain ⟨_, a, _, _, _, _, ht⟩ := goalThread_cases hstep
            subst ht
            simp only [Function.update_of_ne hne] at hg
            exact ih hg
      | main =>
          cases step_main h with
          | createGoal i _ _ ht =>
              subst ht
              by_cases hi : g.val = i
              · simp only [create_of_eq hi] at hg
                exact absurd hg id
              · simp only [create_of_ne hi] at hg
                exact ih hg
          | createSpectator _ _ _ ht | broadcast _ _ ht | createZone _ _ _ ht
          | spectatorsCreated _ _ _ ht | zonesCreated _ _ _ ht | goalsCreated _ _ _ ht
          | joinSpectator _ _ _ _ ht | spectatorsJoined _ _ _ ht | setDone _ _ ht
          | joinGoal _ _ _ _ ht | goalsJoined _ _ _ ht | joinZone _ _ _ _ ht | returns _ _ _ ht =>
              subst ht
              exact ih hg
      | spectator p =>
          obtain ⟨_, _, _, _, _, ht⟩ := spectatorThread_cases (step_spectator h)
          subst ht
          exact ih hg
      | expire p rt =>
          obtain ⟨_, _, _, ht⟩ := expire_cases (step_expire h)
          subst ht
          exact ih hg
      | zone i =>
          obtain ⟨_, _, _, _, ht⟩ := zoneThread_cases (step_zone h)
          subst ht
          exact ih hg
      | signal i woken =>
          obtain ⟨_, _, _, _, ht⟩ := signal_cases (step_signal h)
          subst ht
          exact ih hg

/-- If all broadcasts are over although this goal thread has not returned, they
were over before it moved. -/
theorem allBroadcast_before {g : inp.Chance} (hother : ∀ g', g' ≠ g → t.goal g' = s.goal g')
    (hmoved : (inp.store.get g).scores = true → t.goal g ≠ .returned) (h : AllBroadcast t) :
    AllBroadcast s := by
  intro g' hscores
  by_cases hg : g' = g
  · subst hg
    exact absurd (h g' hscores) (hmoved hscores)
  · rw [← hother g' hg]
    exact h g' hscores

theorem goal_move {g : inp.Chance} (hunborn : Unborn s)
    (hscoring : (s.goal g).Scoring → (inp.store.get g).scores = true)
    (h : s.step (.goal g) = some t) : GoalMove s (.goal g) t := by
  have hstep := step_goal h
  have hother : ∀ g', g' ≠ g → t.goal g' = s.goal g' := by
    intro g' hg
    obtain ⟨_, a, _, _, _, _, ht⟩ := goalThread_cases hstep
    rw [ht]
    exact Function.update_of_ne hg a s.goal
  simp only [State.goalThread] at hstep
  cases hs : s.goal g with
  | notCreated | returned => simp [hs] at hstep
  | sleep =>
      simp only [hs, Option.some.injEq] at hstep
      apply GoalMove.of_other hunborn h (by simp) (by rw [← hstep]; rfl)
      apply allBroadcast_before hother
      intro hscores
      rw [← hstep]
      simpa [State.setGoal] using hscores
  | lock =>
      simp only [hs, Option.ite_none_right_eq_some, Option.some.injEq] at hstep
      apply GoalMove.of_other hunborn h (by simp) (by rw [← hstep.2]; rfl)
      apply allBroadcast_before hother
      intro _
      rw [← hstep.2]
      simp [State.setGoal]
  | count =>
      simp only [hs, Option.some.injEq] at hstep
      apply GoalMove.count (by simp)
      intro hall
      have hreturned := hall g (hscoring (by rw [hs]; trivial))
      rw [← hstep] at hreturned
      simp [State.setGoal] at hreturned
  | unlock =>
      simp only [hs, Option.some.injEq] at hstep
      apply GoalMove.of_other hunborn h (by simp) (by rw [← hstep]; rfl)
      apply allBroadcast_before hother
      intro _
      rw [← hstep]
      simp [State.setGoal]
  | broadcast =>
      simp only [hs, Option.some.injEq] at hstep
      apply GoalMove.broadcast (by simp)
      intro p
      rw [← hstep]
      exact broadcast_awake _ p

theorem spectator_move {p : inp.Fan} (h : s.step (.spectator p) = some t) :
    GoalMove s (.spectator p) t := by
  have hstep := step_spectator h
  by_cases hwait : ∃ z, s.spectator p = .goalCond z .wait
  · obtain ⟨z, hs⟩ := hwait
    simp only [State.spectatorThread, hs, Option.some.injEq] at hstep
    subst hstep
    exact .wait p z rfl hs rfl rfl rfl
  · have hblocked : ∀ z, t.spectator p ≠ .goalCond z .blocked := by
      intro z hz
      exact hwait ⟨z, spectatorThread_blocked hstep hz⟩
    obtain ⟨_, a, _, _, _, ht⟩ := spectatorThread_cases hstep
    apply GoalMove.quiet
    · intro q z he hq
      have hpq : p = q := Event.spectator.inj he
      subst hpq
      exact hwait ⟨z, hq⟩
    · rw [ht]
    · intro q hq
      obtain ⟨z, hz⟩ := hq
      by_cases hqp : q = p
      · subst hqp
        exact absurd hz (hblocked z)
      · rw [ht] at hz
        simp only [Function.update_of_ne hqp] at hz
        exact ⟨z, hz⟩
    · rw [ht]
      exact id

theorem main_move (hunborn : Unborn s) (h : s.step .main = some t) : GoalMove s .main t := by
  cases step_main h with
  | createGoal i _ hmore ht =>
      apply GoalMove.of_other hunborn h (by simp) (by rw [ht])
      apply allBroadcast_before (g := ⟨i, hmore⟩)
      · intro g hg
        rw [ht]
        exact create_of_ne fun hi => hg (Fin.ext hi)
      · intro _
        rw [ht]
        simp [create_of_eq]
  | broadcast i _ ht =>
      apply GoalMove.broadcast (by simp)
      intro p
      rw [ht]
      exact broadcast_awake _ p
  | createSpectator _ _ _ ht | createZone _ _ _ ht | spectatorsCreated _ _ _ ht
  | zonesCreated _ _ _ ht | goalsCreated _ _ _ ht | joinSpectator _ _ _ _ ht
  | spectatorsJoined _ _ _ ht | setDone _ _ ht | joinGoal _ _ _ _ ht | goalsJoined _ _ _ ht
  | joinZone _ _ _ _ ht | returns _ _ _ ht =>
      subst ht
      exact .of_other hunborn h (by simp) rfl id

theorem step_goals (run : Run (stadium inp) past s) (h : s.step e = some t) : GoalMove s e t := by
  cases e with
  | main => exact main_move (unborn run) h
  | spectator p => exact spectator_move h
  | expire p rt =>
      obtain ⟨_, _, _, ht⟩ := expire_cases (step_expire h)
      subst ht
      exact .of_other (unborn run) h (by simp) rfl id
  | zone i =>
      obtain ⟨_, _, _, _, ht⟩ := zoneThread_cases (step_zone h)
      subst ht
      exact .of_other (unborn run) h (by simp) rfl id
  | signal i woken =>
      obtain ⟨_, _, _, _, ht⟩ := signal_cases (step_signal h)
      subst ht
      exact .of_other (unborn run) h (by simp) rfl id
  | goal g => exact goal_move (unborn run) (scoring run g) h

/-! ### The result -/

/-- **When nobody sleeps through the decisive goal.**  In every state of a run,
just when nobody falls asleep on `goal_cond` whose limit is already reached
while no broadcast is ahead. -/
theorem hearsGoals_iff (run : Run (stadium inp) past s) :
    Machine.Throughout HearsGoals past s ↔ Machine.StepsMeet Listens past := by
  apply run.throughout_iff
  · intro s hs
    have hstart : s = start inp := hs
    subst hstart
    intro _ p hp
    obtain ⟨z, hz⟩ := hp
    cases hz
  · intro past s e t run _ hhears h
    exact (step_goals run h).hears_iff hhears

/-- One home fan who leaves at the first goal, which is scored. -/
def firstGoal : Input where
  homeCapacity := 1
  awayCapacity := 0
  neutralCapacity := 0
  groups := [⟨1, [⟨.H, 1⟩]⟩]
  store := [⟨.H, true⟩]

/-- `main` up to its first join, and the fan up to his seat. -/
def comesIn : List (Event firstGoal) :=
  let fan : firstGoal.Fan := ⟨0, by decide⟩
  List.replicate 8 .main ++ List.replicate 3 (.spectator fan) ++ [.expire fan .error] ++
    List.replicate 4 (.spectator fan)

/-- He falls asleep on `goal_cond`. -/
def fallsAsleep : List (Event firstGoal) :=
  List.replicate 2 (.spectator ⟨0, by decide⟩)

/-- The goal, from the chance to the broadcast. -/
def goalIsScored : List (Event firstGoal) :=
  List.replicate 5 (.goal ⟨0, by decide⟩)

/-- The theorem at a fan who is woken up by the goal. -/
theorem hearsGoals_iff_woken : ∃ past s, Run (stadium firstGoal) past s ∧
    (LimitReached s ⟨0, by decide⟩ ∧ AllBroadcast s) ∧
      (Machine.Throughout HearsGoals past s ↔ Machine.StepsMeet Listens past) := by
  obtain ⟨past, s, run, hscored⟩ := Machine.exists_run_of_trace (M := stadium firstGoal) rfl
    (comesIn ++ fallsAsleep ++ goalIsScored)
    (fun _ s => LimitReached s ⟨0, by decide⟩ ∧ AllBroadcast s) (by decide)
  exact ⟨past, s, run, hscored, hearsGoals_iff run⟩

/-- A fan who falls asleep after the goal sleeps through it. -/
theorem sleeps_through : ¬ ∀ past s, Run (stadium firstGoal) past s → HearsGoals s := by
  intro hears
  obtain ⟨past, s, run, hall, hblocked, hlimit⟩ := Machine.exists_run_of_trace
    (M := stadium firstGoal) rfl (comesIn ++ goalIsScored ++ fallsAsleep)
    (fun _ s => AllBroadcast s ∧ BlockedOnGoal s ⟨0, by decide⟩ ∧ LimitReached s ⟨0, by decide⟩)
    (by decide)
  exact hears past s run hall ⟨0, by decide⟩ hblocked hlimit

end Stadium
