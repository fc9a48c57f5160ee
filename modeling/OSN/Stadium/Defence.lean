import OSN.Stadium.Seats
import OSN.Stadium.Goals
import OSN.Stadium.Shutdown

/-!
# Whose goals drive a spectator away

A spectator who leaves "due to the bad defensive performance of his team" has
compared his limit with `goals_count` at the index of his own type.  That entry
counts the goals his own team has scored, not those it has let in, and for a
neutral spectator it starts at `-2` and counts the chances marked `N`.  So the
exit is the right one only where it cannot be taken at all, or where the limit
is zero or less and every score reaches it.
-/

namespace Stadium

variable {inp : Input} {s t : State inp} {e : Event inp} {past : Past (State inp) (Event inp)}

/-- The team a team plays against. -/
def Team.opponent : Team → Option Team
  | .H => some .A
  | .A => some .H
  | .N => none

/-- In this step a team scores: a goal thread adds to the count of its team. -/
def Scores (T : Team) (s : State inp) (e : Event inp) : Prop :=
  ∃ g, e = .goal g ∧ s.goal g = .count ∧ (inp.store.get g).teamId = T

instance (T : Team) (s : State inp) (e : Event inp) : Decidable (Scores T s e) := by
  unfold Scores
  infer_instance

/-- How often a team has scored. -/
def scored (T : Team) (past : Past (State inp) (Event inp)) : Nat :=
  past.countP fun x => decide (Scores T x.1 x.2)

theorem scored_cons (T : Team) (s : State inp) (e : Event inp)
    (past : Past (State inp) (Event inp)) :
    scored T ((s, e) :: past) = scored T past + if Scores T s e then 1 else 0 := by
  simp [scored, List.countP_cons]

/-- In this step the spectator leaves his place for the exit because of the
goals. -/
def LeavesForGoals (p : inp.Fan) (s : State inp) (e : Event inp) : Prop :=
  e = .spectator p ∧
    ∃ z t, s.spectator p = .checkGoals z ∧ s.step e = some t ∧ t.spectator p = .post z

/-- **Fans leave for the other team's goals**, and neutral fans never do. -/
def LeavesRightly (past : Past (State inp) (Event inp)) (s : State inp) (e : Event inp) : Prop :=
  ∀ p, LeavesForGoals p s e →
    ∃ T ∈ (inp.person p).type.opponent, (inp.person p).goalLimit ≤ scored T past

/-- The chances of a team that end in a goal. -/
def Input.chances (inp : Input) (T : Team) : Nat :=
  headcount inp.store.get fun chance => chance.teamId = T ∧ chance.scores = true

/-- **The own side's goals do not mislead this spectator**: he plays for a team
and any score is enough for him, or his entry of `goals_count` stays below his
limit, or the zones of his type have no seats. -/
def Input.NotMisled (inp : Input) (p : inp.Fan) : Prop :=
  ((inp.person p).type ≠ .N ∧ (inp.person p).goalLimit ≤ 0) ∨
    initialGoals (inp.typeId p) + inp.chances (inp.person p).type < (inp.person p).goalLimit ∨
      ∀ z ∈ zonesFor (inp.typeId p), inp.seatingCapacity z = 0

/-! ### What `goals_count` counts -/

/-- The thread of a chance that scores has counted its goal. -/
def Goal.Over : Goal → Prop
  | .unlock => True
  | .broadcast => True
  | .returned => True
  | _ => False

instance : DecidablePred Goal.Over := fun a => by
  cases a <;> (unfold Goal.Over; infer_instance)

/-- A chance of this team whose goal is counted. -/
def CountedFor (T : Team) (x : GoalProb × Goal) : Prop :=
  x.1.teamId = T ∧ x.1.scores = true ∧ x.2.Over

instance (T : Team) : DecidablePred (CountedFor T) := fun x => by
  unfold CountedFor
  infer_instance

/-- A chance together with its thread. -/
def State.chance (s : State inp) (g : inp.Chance) : GoalProb × Goal :=
  (inp.store.get g, s.goal g)

/-- **What a step has to do with the score.** -/
inductive ScoreMove (s : State inp) (e : Event inp) (t : State inp) : Prop
  | quiet (he : ∀ T, ¬ Scores T s e) (hcount : t.goalsCount = s.goalsCount)
      (hover : ∀ T g, CountedFor T (t.chance g) ↔ CountedFor T (s.chance g))
  | scores (g : inp.Chance) (he : e = .goal g) (hs : s.goal g = .count)
      (hgoal : t.goal = Function.update s.goal g .unlock)
      (hcount : t.goalsCount =
        let i := teamCharToInt (inp.store.get g).teamId
        Function.update s.goalsCount i (s.goalsCount i + 1))

/-- The thread of a chance moves on, and no goal is counted. -/
theorem ScoreMove.of_goal {g : inp.Chance} {a : Goal} (hs : s.goal g ≠ .count)
    (hcount : t.goalsCount = s.goalsCount) (hgoal : t.goal = Function.update s.goal g a)
    (hover : (inp.store.get g).scores = true → (a.Over ↔ (s.goal g).Over)) :
    ScoreMove s (.goal g) t := by
  apply ScoreMove.quiet
  · intro T hscores
    obtain ⟨g', he, hs', _⟩ := hscores
    cases he
    exact hs hs'
  · exact hcount
  · intro T g'
    by_cases hg : g' = g
    · subst hg
      simp only [CountedFor, State.chance, hgoal, Function.update_self]
      constructor
      · intro h
        exact ⟨h.1, h.2.1, (hover h.2.1).mp h.2.2⟩
      · intro h
        exact ⟨h.1, h.2.1, (hover h.2.1).mpr h.2.2⟩
    · simp only [CountedFor, State.chance, hgoal, Function.update_of_ne hg]

theorem goalThread_score {g : inp.Chance} (h : s.goalThread g = some t) :
    ScoreMove s (.goal g) t := by
  simp only [State.goalThread] at h
  cases hs : s.goal g with
  | notCreated | returned => simp [hs] at h
  | sleep =>
      simp only [hs, Option.some.injEq] at h
      subst h
      refine .of_goal (by simp [hs]) rfl rfl ?_
      intro hscores
      rw [if_pos hscores, hs]
      simp [Goal.Over]
  | lock =>
      simp only [hs, Option.ite_none_right_eq_some, Option.some.injEq] at h
      obtain ⟨_, h⟩ := h
      subst h
      refine .of_goal (by simp [hs]) rfl rfl ?_
      simp [hs, Goal.Over]
  | count =>
      simp only [hs, Option.some.injEq] at h
      subst h
      exact .scores g rfl hs rfl rfl
  | unlock | broadcast =>
      simp only [hs, Option.some.injEq] at h
      subst h
      refine .of_goal (by simp [hs]) rfl rfl ?_
      simp [hs, Goal.Over]

/-- No goal thread moves. -/
theorem ScoreMove.of_other (he : ∀ g, e ≠ .goal g) (hcount : t.goalsCount = s.goalsCount)
    (hgoal : t.goal = s.goal) : ScoreMove s e t := by
  apply ScoreMove.quiet
  · intro T hscores
    obtain ⟨g, he', _⟩ := hscores
    exact he g he'
  · exact hcount
  · intro T g
    simp only [CountedFor, State.chance, hgoal]

theorem main_score (hunborn : Unborn s) (h : MainMove s t) : ScoreMove s .main t := by
  cases h with
  | createGoal i hs hmore ht =>
      have hnew := hunborn.goal ⟨i, hmore⟩ (by rw [hs]; exact Nat.le_refl _)
      subst ht
      refine .quiet (by simp [Scores]) rfl ?_
      intro T g
      by_cases hg : g.val = i
      · have hgi : g = ⟨i, hmore⟩ := Fin.ext hg
        subst hgi
        simp [CountedFor, State.chance, create_of_eq, hnew, Goal.Over]
      · simp only [CountedFor, State.chance, create_of_ne hg]
  | createSpectator _ _ _ ht | broadcast _ _ ht | createZone _ _ _ ht
  | spectatorsCreated _ _ _ ht | zonesCreated _ _ _ ht | goalsCreated _ _ _ ht
  | joinSpectator _ _ _ _ ht | spectatorsJoined _ _ _ ht | setDone _ _ ht
  | joinGoal _ _ _ _ ht | goalsJoined _ _ _ ht | joinZone _ _ _ _ ht | returns _ _ _ ht =>
      subst ht
      exact .of_other (by simp) rfl rfl

theorem step_score (hunborn : Unborn s) (h : s.step e = some t) : ScoreMove s e t := by
  cases e with
  | main => exact main_score hunborn (step_main h)
  | spectator p =>
      obtain ⟨_, _, _, _, _, ht⟩ := spectatorThread_cases (step_spectator h)
      subst ht
      exact .of_other (by simp) rfl rfl
  | expire p rt =>
      obtain ⟨_, _, _, ht⟩ := expire_cases (step_expire h)
      subst ht
      exact .of_other (by simp) rfl rfl
  | zone i =>
      obtain ⟨_, _, _, _, ht⟩ := zoneThread_cases (step_zone h)
      subst ht
      exact .of_other (by simp) rfl rfl
  | signal i woken =>
      obtain ⟨_, _, _, _, ht⟩ := signal_cases (step_signal h)
      subst ht
      exact .of_other (by simp) rfl rfl
  | goal g => exact goalThread_score (step_goal h)

/-- `team_char_to_int` tells the teams apart. -/
theorem teamCharToInt_inj {T T' : Team} : teamCharToInt T = teamCharToInt T' ↔ T = T' := by
  cases T <;> cases T' <;> decide

/-- **The books of a team agree**: `goals_count` holds what the team has scored
on top of what `sync_init` left there, and each goal is that of a chance. -/
structure Books (T : Team) (past : Past (State inp) (Event inp)) (s : State inp) : Prop where
  count : s.goalsCount (teamCharToInt T) = initialGoals (teamCharToInt T) + scored T past
  chances : scored T past = headcount s.chance (CountedFor T)

theorem Books.of_move {T : Team} (hbooks : Books T past s) (h : ScoreMove s e t)
    (hscoring : ∀ g, (s.goal g).Scoring → (inp.store.get g).scores = true) :
    Books T ((s, e) :: past) t := by
  obtain ⟨hcount, hchances⟩ := hbooks
  cases h with
  | quiet he hcount' hover =>
      have hsame : scored T ((s, e) :: past) = scored T past := by
        simp [scored_cons, he T]
      constructor
      · rw [hcount', hsame, hcount]
      · rw [hsame, hchances]
        exact (headcount_congr (hover T)).symm
  | scores g he hs hgoal hcount' =>
      have hscores := hscoring g (by rw [hs]; trivial)
      have hchance : t.chance = Function.update s.chance g (inp.store.get g, .unlock) := by
        funext g'
        by_cases hg : g' = g
        · subst hg
          simp [State.chance, hgoal]
        · simp [State.chance, hgoal, Function.update_of_ne hg]
      by_cases hT : (inp.store.get g).teamId = T
      · have hnow : Scores T s e := ⟨g, he, hs, hT⟩
        constructor
        · simp only [hcount', scored_cons, hnow, if_true, hT, Function.update_self, hcount]
          omega
        · rw [scored_cons, if_pos hnow, hchances, hchance, headcount_update_enter]
          · simp [CountedFor, State.chance, hs, Goal.Over]
          · exact ⟨hT, hscores, trivial⟩
      · have hnot : ¬ Scores T s e := by
          intro hnow
          obtain ⟨g', he', _, hT'⟩ := hnow
          have hg : g = g' := Event.goal.inj (he.symm.trans he')
          subst hg
          exact hT hT'
        have hne : teamCharToInt T ≠ teamCharToInt (inp.store.get g).teamId := by
          intro heq
          exact hT (teamCharToInt_inj.mp heq).symm
        constructor
        · simp only [hcount', scored_cons, hnot, if_false, Function.update_of_ne hne, hcount,
            Nat.add_zero]
        · rw [scored_cons, if_neg hnot, hchances, hchance, headcount_update_same, Nat.add_zero]
          simp only [CountedFor, State.chance, hT, false_and]

/-- **The books agree in every run.** -/
theorem books (run : Run (stadium inp) past s) (T : Team) : Books T past s := by
  induction run with
  | init hs =>
      have hstart : _ = start inp := hs
      subst hstart
      constructor
      · simp [start, scored]
      · symm
        apply headcount_eq_zero
        simp [State.chance, CountedFor, start, Goal.Over]
  | step run h ih => exact ih.of_move (step_score (unborn run) h) (scoring run)

/-- A team never scores more often than it has chances that end in a goal. -/
theorem scored_le (run : Run (stadium inp) past s) (T : Team) : scored T past ≤ inp.chances T := by
  rw [(books run T).chances]
  apply headcount_mono
  intro g hg
  exact ⟨hg.1, hg.2.1⟩

/-! ### Where the exit is the right one -/

/-- Who leaves because of the goals is seated, and his own entry of
`goals_count` has reached his limit. -/
theorem LeavesForGoals.limit {p : inp.Fan} (h : LeavesForGoals p s e) :
    LimitReached s p ∧ ∃ z, s.spectator p = .checkGoals z := by
  obtain ⟨he, z, t, hs, hstep, ht⟩ := h
  subst he
  have hthread := step_spectator hstep
  simp only [State.spectatorThread, hs, Option.some.injEq] at hthread
  subst hthread
  refine ⟨?_, z, hs⟩
  by_contra hlimit
  have hnot : ¬ (inp.person p).goalLimit ≤ s.goalsCount (inp.typeId p) := hlimit
  simp [State.setSpectator, hnot] at ht

/-- Who sits in a zone sits in one of his type, which has seats. -/
theorem seated_somewhere (run : Run (stadium inp) past s) {p : inp.Fan} {z : Fin 3}
    (hp : s.spectator p = .checkGoals z) :
    z ∈ zonesFor (inp.typeId p) ∧ inp.seatingCapacity z ≠ 0 := by
  constructor
  · apply zones_of_type run p z
    simp [hp, Spectator.zones]
  · have hseated : 0 < s.seated z := headcount_pos (p := p) (by simp [hp, Spectator.seat])
    have haccount := account run z
    omega

/-- Every step of a run is right about a spectator who is not misled. -/
theorem leaves_rightly (run : Run (stadium inp) past s) {p : inp.Fan} (hp : inp.NotMisled p)
    (h : LeavesForGoals p s e) :
    ∃ T ∈ (inp.person p).type.opponent, (inp.person p).goalLimit ≤ scored T past := by
  obtain ⟨hlimit, z, hz⟩ := h.limit
  rcases hp with ⟨hteam, hzero⟩ | hfew | hfull
  · have hany : ∀ T, (inp.person p).goalLimit ≤ scored T past := by
      intro T
      omega
    cases htype : (inp.person p).type with
    | H => exact ⟨.A, rfl, hany .A⟩
    | A => exact ⟨.H, rfl, hany .H⟩
    | N => exact absurd htype hteam
  · have hcount := (books run (inp.person p).type).count
    have hle := scored_le run (inp.person p).type
    have hreached : (inp.person p).goalLimit ≤ s.goalsCount (inp.typeId p) := hlimit
    simp only [Input.typeId] at hfew hreached
    omega
  · obtain ⟨htype, hseats⟩ := seated_somewhere run hz
    exact absurd (hfull z htype) hseats

/-! ### A spectator who is misled -/

/-- `main` waits for the first spectator, the goals of one team among the first
`k` chances have been scored, and nothing else has happened. -/
structure ScoredUpTo (T : Team) (k : Nat) (s : State inp) : Prop extends
    Asleep (.joinSpectator 0) s where
  capacity : s.capacity = inp.seatingCapacity
  goalCond : s.goalCondMutex = none
  goalsCount : s.goalsCountMutex = none
  goal : ∀ g : inp.Chance, s.goal g =
    if g.val < k ∧ (inp.store.get g).teamId = T ∧ (inp.store.get g).scores = true then .returned
    else .sleep

/-- The broadcast finds nobody to wake up. -/
theorem broadcast_asleep (hs : ∀ p, s.spectator p = .sleep) : s.broadcastGoalCond = s := by
  have hsame : s.broadcastGoalCond.spectator = s.spectator := by
    funext p
    simp [State.broadcastGoalCond, hs p]
  unfold State.broadcastGoalCond at hsame ⊢
  simp only at hsame
  rw [hsame]

/-- A chance that scores, from its sleep to its return. -/
theorem reach_goal {g : inp.Chance} (hreach : (stadium inp).Reachable s)
    (hmain : s.main ≠ .returned) (hspectator : ∀ p, s.spectator p = .sleep)
    (hmutex : s.goalsCountMutex = none) (hg : s.goal g = .sleep)
    (hscores : (inp.store.get g).scores = true) :
    ∃ counts, (stadium inp).Reachable
      { s with goal := Function.update s.goal g .returned, goalsCount := counts } := by
  let i := teamCharToInt (inp.store.get g).teamId
  let counts := Function.update s.goalsCount i (s.goalsCount i + 1)
  have hlock := reach_step (t := s.setGoal g .lock) hreach (e := .goal g)
    (by simp only [State.step, State.goalThread, hmain, hg, hscores, if_true, if_false])
  have hcount := reach_step (e := .goal g)
    (t := { s.setGoal g .count with goalsCountMutex := some g }) hlock
    (by simp [State.step, State.goalThread, State.setGoal, hmain, hmutex])
  have hunlock := reach_step (e := .goal g)
    (t := { s.setGoal g .unlock with goalsCountMutex := some g, goalsCount := counts }) hcount
    (by simp [State.step, State.goalThread, State.setGoal, hmain, counts, i])
  have hbroadcast := reach_step (e := .goal g)
    (t := { s.setGoal g .broadcast with goalsCount := counts }) hunlock
    (by simp [State.step, State.goalThread, State.setGoal, hmain, hmutex])
  have hreturned := reach_step (e := .goal g)
    (t := { s.setGoal g .returned with goalsCount := counts }) hbroadcast
    (by
      have hnobody : { s.setGoal g .returned with goalsCount := counts }.broadcastGoalCond =
          { s.setGoal g .returned with goalsCount := counts } := broadcast_asleep hspectator
      simpa [State.step, State.goalThread, State.setGoal, hmain] using hnobody)
  exact ⟨counts, hreturned⟩

theorem reach_scored (T : Team) : ∀ k, k ≤ inp.store.length → ∃ s : State inp,
    ScoredUpTo T k s := by
  intro k
  induction k with
  | zero =>
      intro _
      obtain ⟨s, hs⟩ := @reach_joins inp
      obtain ⟨hcapacity, hcond, hcount, hgoal⟩ := hs.untouched
      refine ⟨s, hs.toAsleep, hcapacity, hcond, hcount, ?_⟩
      intro g
      simpa using hgoal g (by rw [hs.main]; exact g.isLt)
  | succ k ih =>
      intro hk
      obtain ⟨s, hs⟩ := ih (Nat.le_of_succ_le hk)
      let g : inp.Chance := ⟨k, hk⟩
      have hsleep : s.goal g = .sleep := by
        rw [hs.goal g]
        simp [g]
      have hother : ∀ g' : inp.Chance, g' ≠ g → (g'.val < k + 1 ↔ g'.val < k) := by
        intro g' hg'
        have hne : g'.val ≠ k := fun heq => hg' (Fin.ext heq)
        omega
      by_cases hscores : (inp.store.get g).teamId = T ∧ (inp.store.get g).scores = true
      · obtain ⟨counts, hreach⟩ := reach_goal hs.reachable (by simp [hs.main]) hs.spectator
          hs.goalsCount hsleep hscores.2
        refine ⟨_, ⟨hreach, hs.main, hs.spectator, hs.mutex⟩, hs.capacity, hs.goalCond,
          hs.goalsCount, ?_⟩
        intro g'
        by_cases hg' : g' = g
        · subst hg'
          simp only [Function.update_self]
          rw [if_pos ⟨Nat.lt_succ_self k, hscores⟩]
        · simp only [Function.update_of_ne hg', hother g' hg']
          exact hs.goal g'
      · refine ⟨s, hs.toAsleep, hs.capacity, hs.goalCond, hs.goalsCount, ?_⟩
        intro g'
        by_cases hg' : g' = g
        · subst hg'
          rw [hsleep, if_neg (fun h => hscores h.2)]
        · simp only [hother g' hg']
          exact hs.goal g'

/-- The zones are tried one after the other until one has room. -/
theorem reach_seat {p : inp.Fan} (zones : List (Fin 3)) (hreach : (stadium inp).Reachable s)
    (hmain : s.main ≠ .returned) (hp : s.spectator p = .trywait zones)
    (hroom : ∃ z ∈ zones, 0 < s.capacity z) :
    ∃ z capacity, (stadium inp).Reachable
      { s with
        spectator := Function.update s.spectator p (.goalCond z .lock), capacity := capacity } := by
  induction zones generalizing s with
  | nil =>
      obtain ⟨z, hz, _⟩ := hroom
      cases hz
  | cons z zones ih =>
      by_cases hz : 0 < s.capacity z
      · have hseat := reach_step (e := .spectator p) hreach
          (t := { s.setSpectator p (.goalCond z .lock) with
                  capacity := Function.update s.capacity z (s.capacity z - 1) })
          (by simp [State.step, State.spectatorThread, hmain, hp, hz])
        exact ⟨z, _, hseat⟩
      · have hnext := reach_step (e := .spectator p) (t := s.setSpectator p (.trywait zones)) hreach
          (by simp [State.step, State.spectatorThread, hmain, hp, hz])
        have hrest : ∃ z ∈ zones, 0 < s.capacity z := by
          obtain ⟨z', hz', hlt⟩ := hroom
          rcases List.mem_cons.mp hz' with hsame | hmem
          · subst hsame
            exact absurd hlt hz
          · exact ⟨z', hmem, hlt⟩
        obtain ⟨z', capacity, hseat⟩ := ih hnext hmain (by simp [State.setSpectator]) hrest
        refine ⟨z', capacity, ?_⟩
        simpa [State.setSpectator] using hseat

/-- A spectator who has found a seat looks at the goals for the first time. -/
theorem reach_checkGoals {p : inp.Fan} {z : Fin 3} (hreach : (stadium inp).Reachable s)
    (hmain : s.main ≠ .returned) (hp : s.spectator p = .goalCond z .lock)
    (hmutex : s.goalCondMutex = none) :
    (stadium inp).Reachable (s.setSpectator p (.checkGoals z)) := by
  have hlock := reach_step (e := .spectator p)
    (t := { s.setSpectator p (.goalCond z .wait) with goalCondMutex := some p }) hreach
    (by simp [State.step, State.spectatorThread, hmain, hp, hmutex])
  have hwait := reach_step (e := .spectator p) (t := s.setSpectator p (.goalCond z .blocked)) hlock
    (by simp [State.step, State.spectatorThread, State.setSpectator, hmain, hmutex])
  have hexpire := reach_step (e := .expire p .zero)
    (t := s.setSpectator p (.goalCond z (.woken .zero))) hwait
    (by simp [State.step, State.expire, State.setSpectator, hmain])
  have hback := reach_step (e := .spectator p)
    (t := { s.setSpectator p (.goalCond z (.unlock .zero)) with goalCondMutex := some p }) hexpire
    (by simp [State.step, State.spectatorThread, State.setSpectator, hmain, hmutex])
  have hunlock := reach_step (e := .spectator p) (t := s.setSpectator p (.checkTime z .zero)) hback
    (by simp [State.step, State.spectatorThread, State.setSpectator, hmain, hmutex])
  exact reach_step (e := .spectator p) hunlock
    (by simp [State.step, State.spectatorThread, State.setSpectator, hmain])

/-- The score when all goals of one team have been scored and no others. -/
theorem scored_only {T : Team} (run : Run (stadium inp) past s)
    (hgoals : ∀ g : inp.Chance, s.goal g =
      if (inp.store.get g).teamId = T ∧ (inp.store.get g).scores = true then .returned
      else .sleep) :
    scored T past = inp.chances T ∧ ∀ T', T' ≠ T → scored T' past = 0 := by
  constructor
  · apply Nat.le_antisymm (scored_le run T)
    rw [(books run T).chances]
    apply headcount_mono
    intro g hg
    refine ⟨hg.1, hg.2, ?_⟩
    simp only [State.chance, hgoals g, if_pos hg]
    trivial
  · intro T' hT
    rw [(books run T').chances]
    apply headcount_eq_zero
    intro g hg
    obtain ⟨hteam, _, hover⟩ := hg
    have hteam' : (inp.store.get g).teamId = T' := hteam
    have hnot : ¬ ((inp.store.get g).teamId = T ∧ (inp.store.get g).scores = true) := by
      intro h
      exact hT (hteam'.symm.trans h.1)
    simp only [State.chance, hgoals g, if_neg hnot] at hover
    exact hover

/-- A run that brings a spectator with a seat to the test of the goals, when all
goals of his own entry have been scored and no others. -/
theorem reach_test (p : inp.Fan) (hseat : ∃ z ∈ zonesFor (inp.typeId p), 0 < inp.seatingCapacity z) :
    ∃ past s, Run (stadium inp) past s ∧ s.main ≠ .returned ∧ (∃ z, s.spectator p = .checkGoals z) ∧
      scored (inp.person p).type past = inp.chances (inp.person p).type ∧
        ∀ T, T ≠ (inp.person p).type → scored T past = 0 := by
  obtain ⟨s, hs⟩ := reach_scored (inp.person p).type inp.store.length (Nat.le_refl _)
  have hmain : s.main ≠ .returned := by simp [hs.main]
  have hchecks := reach_checkSeat .zero hs.reachable hmain (hs.spectator p) hs.mutex
  let free := Function.update s.fansTypeMutex (inp.typeId p) none
  have htry := reach_step (e := .spectator p)
    (t := { s.setSpectator p (.trywait (zonesFor (inp.typeId p))) with fansTypeMutex := free })
    hchecks (by simp [State.step, State.spectatorThread, State.setSpectator, hmain, free])
  obtain ⟨z, capacity, hsits⟩ := reach_seat (p := p) (zonesFor (inp.typeId p)) htry hmain
    (by simp [State.setSpectator]) (by simpa [State.setSpectator, hs.capacity] using hseat)
  obtain ⟨past, run⟩ := reach_checkGoals (p := p) (z := z) hsits hmain (by simp) hs.goalCond
  have hgoals : ∀ g : inp.Chance, s.goal g =
      if (inp.store.get g).teamId = (inp.person p).type ∧ (inp.store.get g).scores = true then
        .returned
      else .sleep := by
    intro g
    rw [hs.goal g]
    simp only [g.isLt, true_and]
  exact ⟨past, _, run, hmain, ⟨z, by simp [State.setSpectator]⟩, scored_only run hgoals⟩

/-- Whom the own side's goals mislead has a run in which he leaves for them. -/
theorem leaves_for_own {p : inp.Fan} (hp : ¬ inp.NotMisled p) :
    ∃ past s, Run (stadium inp) past s ∧ ¬ Machine.StepsMeet LeavesRightly past := by
  unfold Input.NotMisled at hp
  push Not at hp
  obtain ⟨hteam, hmany, z, hz, hroom⟩ := hp
  obtain ⟨past, s, run, hmain, ⟨z', hchecks⟩, hown, hothers⟩ :=
    reach_test p ⟨z, hz, Nat.pos_of_ne_zero hroom⟩
  have hcount := (books run (inp.person p).type).count
  have hlimit : (inp.person p).goalLimit ≤ s.goalsCount (inp.typeId p) := by
    simp only [Input.typeId] at hmany ⊢
    omega
  have hstep : (stadium inp).step s (.spectator p) = some (s.setSpectator p (.post z')) := by
    simp [stadium, State.step, State.spectatorThread, hmain, hchecks, hlimit]
  refine ⟨_, _, run.step hstep, ?_⟩
  intro hmeet
  obtain ⟨T, hT, hreached⟩ := hmeet.1 p
    ⟨rfl, z', _, hchecks, hstep, by simp [State.setSpectator]⟩
  have hne : T ≠ (inp.person p).type := by
    intro heq
    subst heq
    cases htype : (inp.person p).type <;> rw [htype] at hT <;> cases hT
  have hpos : (inp.person p).type ≠ .N := by
    intro hN
    rw [hN] at hT
    cases hT
  have hzero := hothers T hne
  have hlow := hteam hpos
  omega

/-! ### The result -/

/-- **When fans leave for the other team's goals in every run.**  Just when the
goals of the own side mislead none of them. -/
theorem leavesRightly_iff (inp : Input) :
    (∀ past s, Run (stadium inp) past s → Machine.StepsMeet LeavesRightly past) ↔
      ∀ p, inp.NotMisled p := by
  constructor
  · intro hall p
    by_contra hp
    obtain ⟨past, s, run, hwrong⟩ := leaves_for_own hp
    exact hwrong (hall past s run)
  · intro hp past s run
    induction run with
    | init => trivial
    | step run h ih => exact ⟨fun p hleaves => leaves_rightly run (hp p) hleaves, ih⟩

/-- A home fan leaves when his own team scores. -/
theorem leaves_for_home : ¬ ∀ past s, Run (stadium firstGoal) past s →
    Machine.StepsMeet LeavesRightly past := by
  intro hall
  let fan : firstGoal.Fan := ⟨0, by decide⟩
  obtain ⟨past, s, run, hmain, hchecks, hlimit, haway⟩ := Machine.exists_run_of_trace
    (M := stadium firstGoal) rfl
    (comesIn ++ fallsAsleep ++ goalIsScored ++ List.replicate 3 (.spectator fan))
    (fun past s => s.main ≠ .returned ∧ s.spectator fan = .checkGoals 0 ∧ LimitReached s fan ∧
      scored .A past = 0) (by decide)
  have hreached : (firstGoal.person fan).goalLimit ≤ s.goalsCount (firstGoal.typeId fan) := hlimit
  have hstep : (stadium firstGoal).step s (.spectator fan) =
      some (s.setSpectator fan (.post 0)) := by
    simp [stadium, State.step, State.spectatorThread, hmain, hchecks, hreached]
  have hmeet := hall _ _ (run.step hstep)
  obtain ⟨T, hT, hscored⟩ := hmeet.1 fan ⟨rfl, 0, _, hchecks, hstep, by simp [State.setSpectator]⟩
  have haway' : Team.A = T := Option.some.inj hT
  rw [← haway', haway] at hscored
  revert hscored
  decide

end Stadium
