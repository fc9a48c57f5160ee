import OSN.Stadium.Lifetimes

/-!
# When the stadium closes

`main` joins the spectators one after the other and then the zone threads,
which stop once they see `done`.  But `done` is set in the loop, after the
first join, and the bound of the loop is a sum of numbers that were not read
yet.  So the program keeps the stadium open for everybody only if there is at
most one spectator, or if the sum is such that the loop joins nobody: then
`done` is never set, and `main` waits for the zone threads for ever.
-/

namespace Stadium

variable {inp : Input} {s t : State inp} {e : Event inp} {past : Past (State inp) (Event inp)}

/-- `main` has joined this spectator. -/
def Joined (p : inp.Fan) (past : Past (State inp) (Event inp)) : Prop :=
  ∃ x ∈ past, x.2 = .main ∧ x.1.main = .joinSpectator p.val ∧ (p.val : Int) < inp.totalPeople

/-- **The stadium stays open**: `done` says that all spectators have finished,
and `main` returns after it has joined them all. -/
def StaysOpen (past : Past (State inp) (Event inp)) (s : State inp) : Prop :=
  (s.done = true → ∀ p, s.spectator p = .returned) ∧
    (s.main = .returned → ∀ p, Joined p past)

/-! ### What the joins have done so far -/

/-- How many joins of spectators are over. -/
def Main.joins (inp : Input) : Main → Nat
  | .createSpectator _ => 0
  | .createZone _ => 0
  | .createGoal _ => 0
  | .joinSpectator i => i
  | .setDone i => i + 1
  | _ => inp.totalPeople.toNat

/-- `main` has seen a zone thread return. -/
def Main.PastZones : Main → Prop
  | .joinZone i => 0 < i
  | .returned => True
  | _ => False

/-- What holds while `main` creates, joins and closes. -/
structure Joining (past : Past (State inp) (Event inp)) (s : State inp) : Prop where
  /-- A zone thread returns when it sees `done`. -/
  zone : ∀ z, s.zone z = .returned → s.done = true
  pastZones : s.main.PastZones → s.done = true
  setDone : ∀ i, s.main = .setDone i → (i : Int) < inp.totalPeople
  done : s.done = true → 0 < inp.totalPeople ∧ 0 < s.main.joins inp
  joined : ∀ p : inp.Fan, p.val < s.main.joins inp → Joined p past

theorem Joined.later {p : inp.Fan} {x : State inp × Event inp} (h : Joined p past) :
    Joined p (x :: past) := by
  obtain ⟨y, hy, hrest⟩ := h
  exact ⟨y, List.mem_cons_of_mem x hy, hrest⟩

/-- A zone thread returns only when `done` is set. -/
theorem zone_returns (hmain : e ≠ .main) (h : s.step e = some t) {z : Fin 3}
    (ht : t.zone z = .returned) : s.zone z = .returned ∨ s.done = true := by
  cases e with
  | main => exact absurd rfl hmain
  | spectator p =>
      obtain ⟨_, _, _, _, _, hstep⟩ := spectatorThread_cases (step_spectator h)
      subst hstep
      exact Or.inl ht
  | expire p rt =>
      obtain ⟨_, _, _, hstep⟩ := expire_cases (step_expire h)
      subst hstep
      exact Or.inl ht
  | zone i =>
      obtain ⟨_, a, _, ha, hstep⟩ := zoneThread_cases (step_zone h)
      subst hstep
      by_cases hz : z = i
      · subst hz
        exact Or.inr (ha (by simpa using ht))
      · simp only [Function.update_of_ne hz] at ht
        exact Or.inl ht
  | signal i woken =>
      obtain ⟨j, types, hs, _, hstep⟩ := signal_cases (step_signal h)
      subst hstep
      by_cases hz : z = i
      · subst hz
        simp [State.setZone] at ht
      · simp only [State.setZone, Function.update_of_ne hz] at ht
        exact Or.inl ht
  | goal g =>
      obtain ⟨_, _, _, _, _, _, hstep⟩ := goalThread_cases (step_goal h)
      subst hstep
      exact Or.inl ht

theorem Joining.of_thread (hjoining : Joining past s) (hmain : e ≠ .main)
    (h : s.step e = some t) : Joining ((s, e) :: past) t := by
  have hstep := step_thread h hmain
  obtain ⟨hzone, hpast, hset, hdone, hjoined⟩ := hjoining
  constructor
  · intro z hz
    rw [hstep.done]
    rcases zone_returns hmain h hz with hold | hopen
    · exact hzone z hold
    · exact hopen
  · rw [hstep.main, hstep.done]
    exact hpast
  · rw [hstep.main]
    exact hset
  · rw [hstep.main, hstep.done]
    exact hdone
  · rw [hstep.main]
    intro p hp
    exact (hjoined p hp).later

/-- `main` goes on, and no join of a spectator is concerned. -/
theorem Joining.go (hjoining : Joining past s) (hdone : t.done = s.done)
    (hzone : ∀ z, t.zone z = .returned → s.zone z = .returned)
    (hpast : t.main.PastZones → s.done = true) (hset : ∀ i, t.main ≠ .setDone i)
    (hjoins : t.main.joins inp = s.main.joins inp) : Joining ((s, e) :: past) t := by
  constructor
  · intro z hz
    rw [hdone]
    exact hjoining.zone z (hzone z hz)
  · rw [hdone]
    exact hpast
  · intro i hi
    exact absurd hi (hset i)
  · rw [hdone, hjoins]
    exact hjoining.done
  · rw [hjoins]
    intro p hp
    exact (hjoining.joined p hp).later

theorem Joining.of_main (hjoining : Joining past s) (h : MainMove s t) :
    Joining ((s, .main) :: past) t := by
  cases h with
  | createSpectator _ hs _ ht | spectatorsCreated _ hs _ ht | zonesCreated _ hs _ ht
  | createGoal _ hs _ ht | goalsCreated _ hs _ ht | goalsJoined _ hs _ ht | joinGoal _ hs _ _ ht
  | broadcast _ hs ht =>
      subst ht
      apply hjoining.go
      · rfl
      · intro z hz
        exact hz
      · simp [Main.PastZones, State.broadcastGoalCond]
      · simp [State.broadcastGoalCond]
      · simp [hs, Main.joins, State.broadcastGoalCond]
  | createZone i hs _ ht =>
      subst ht
      apply hjoining.go
      · rfl
      · intro z hz
        by_cases hi : z.val = i
        · simp [create_of_eq hi] at hz
        · simpa only [create_of_ne hi] using hz
      · simp [Main.PastZones]
      · simp
      · simp [hs, Main.joins]
  | joinSpectator i hs hmore hjoin ht =>
      subst ht
      constructor
      · exact hjoining.zone
      · simp [Main.PastZones]
      · intro j hj
        have hij : i = j := Main.setDone.inj hj
        subst hij
        exact hmore
      · intro hd
        exact ⟨(hjoining.done hd).1, Nat.succ_pos i⟩
      · intro p hp
        have hle : p.val < i + 1 := hp
        by_cases hi : p.val = i
        · subst hi
          exact ⟨_, List.mem_cons_self, rfl, hs, hmore⟩
        · have hlt : p.val < s.main.joins inp := by
            rw [hs]
            simp only [Main.joins]
            omega
          exact (hjoining.joined p hlt).later
  | spectatorsJoined i hs hmore ht =>
      subst ht
      constructor
      · exact hjoining.zone
      · simp [Main.PastZones]
      · simp
      · intro hd
        have hpos := (hjoining.done hd).1
        refine ⟨hpos, ?_⟩
        simp only [Main.joins]
        omega
      · intro p hp
        have hlt : p.val < s.main.joins inp := by
          rw [hs]
          simp only [Main.joins] at hp ⊢
          omega
        exact (hjoining.joined p hlt).later
  | setDone i hs ht =>
      subst ht
      constructor
      · intro _ _
        rfl
      · simp
      · simp
      · intro _
        have hlt := hjoining.setDone i hs
        refine ⟨by omega, Nat.succ_pos i⟩
      · intro p hp
        have hlt : p.val < s.main.joins inp := by
          rw [hs]
          exact hp
        exact (hjoining.joined p hlt).later
  | joinZone i hs hmore hjoin ht =>
      subst ht
      apply hjoining.go
      · rfl
      · intro z hz
        exact hz
      · intro _
        exact hjoining.zone ⟨i, hmore⟩ (hjoin ⟨i, hmore⟩ rfl)
      · simp
      · simp [hs, Main.joins]
  | returns i hs hmore ht =>
      subst ht
      apply hjoining.go
      · rfl
      · intro z hz
        exact hz
      · intro _
        apply hjoining.pastZones
        rw [hs]
        simp only [Main.PastZones]
        omega
      · simp
      · simp [hs, Main.joins]

theorem joining (run : Run (stadium inp) past s) : Joining past s := by
  apply run.invariant (P := Joining)
  · intro s hs
    have hstart : s = start inp := hs
    subst hstart
    constructor <;> simp [start, Main.PastZones, Main.joins]
  · intro past s e t _ hjoining h
    by_cases he : e = .main
    · subst he
      exact hjoining.of_main (step_main h)
    · exact hjoining.of_thread he h

/-- Who has been joined has returned. -/
theorem Joined.returned {p : inp.Fan} (run : Run (stadium inp) past s) (h : Joined p past) :
    s.spectator p = .returned := by
  induction run with
  | init => obtain ⟨x, hx, _⟩ := h; cases hx
  | @step past s t e run hstep ih =>
      by_cases hold : Joined p past
      · exact step_returned (unborn run) hstep (ih hold)
      · obtain ⟨x, hx, he, hmain, hlt⟩ := h
        rcases List.mem_cons.mp hx with hnow | hearlier
        · subst hnow
          have he' : e = .main := he
          subst he'
          have hs : s.main = .joinSpectator p.val := hmain
          cases step_main hstep with
          | joinSpectator i hs' _ hjoin ht =>
              subst ht
              apply hjoin p
              exact Main.joinSpectator.inj (hs.symm.trans hs')
          | spectatorsJoined i hs' hmore _ =>
              have hi : p.val = i := Main.joinSpectator.inj (hs.symm.trans hs')
              subst hi
              exact absurd hlt hmore
          | createSpectator _ hs' | createZone _ hs' | createGoal _ hs' | spectatorsCreated _ hs'
          | zonesCreated _ hs' | goalsCreated _ hs' | setDone _ hs' | joinGoal _ hs'
          | goalsJoined _ hs' | broadcast _ hs' | joinZone _ hs' | returns _ hs' =>
              rw [hs] at hs'
              cases hs'
        · exact absurd ⟨x, hearlier, he, hmain, hlt⟩ hold

/-- With one spectator at most, or nobody to join, the stadium stays open. -/
theorem staysOpen_of_few (run : Run (stadium inp) past s)
    (hfew : inp.people.length ≤ 1 ∨ inp.totalPeople ≤ 0) : StaysOpen past s := by
  have hjoining := joining run
  constructor
  · intro hdone p
    obtain ⟨hpos, hjoins⟩ := hjoining.done hdone
    have hp := p.isLt
    exact (hjoining.joined p (by omega)).returned run
  · intro hmain p
    have hdone := hjoining.pastZones (by rw [hmain]; trivial)
    obtain ⟨hpos, hjoins⟩ := hjoining.done hdone
    have hp := p.isLt
    exact hjoining.joined p (by omega)

/-! ### A spectator who gives up before anybody else -/

theorem reach_step (hs : (stadium inp).Reachable s) (h : s.step e = some t) :
    (stadium inp).Reachable t := by
  obtain ⟨past, run⟩ := hs
  exact ⟨_, run.step h⟩

/-- All spectators sleep, no mutex is locked and `main` is at `m`. -/
structure Asleep (m : Main) (s : State inp) : Prop where
  reachable : (stadium inp).Reachable s
  main : s.main = m
  spectator : ∀ p, s.spectator p = .sleep
  mutex : ∀ i, s.fansTypeMutex i = none

/-- Only `main` has moved: all seats are free, and all goal threads created
sleep. -/
structure Untouched (s : State inp) : Prop where
  capacity : s.capacity = inp.seatingCapacity
  goalCond : s.goalCondMutex = none
  goalsCount : s.goalsCountMutex = none
  goal : ∀ g : inp.Chance, g.val < s.main.goals inp → s.goal g = .sleep

theorem Untouched.go (hs : Untouched s) (hcapacity : t.capacity = s.capacity)
    (hcond : t.goalCondMutex = s.goalCondMutex) (hcount : t.goalsCountMutex = s.goalsCountMutex)
    (hgoal : t.goal = s.goal) (hmain : t.main.goals inp ≤ s.main.goals inp) : Untouched t := by
  constructor
  · rw [hcapacity, hs.capacity]
  · rw [hcond, hs.goalCond]
  · rw [hcount, hs.goalsCount]
  · intro g hg
    rw [hgoal]
    exact hs.goal g (Nat.lt_of_lt_of_le hg hmain)

/-- `main` is at `m`, and no other thread has moved. -/
structure Waiting (m : Main) (s : State inp) : Prop extends Asleep m s where
  untouched : Untouched s

theorem Waiting.go {m m' : Main} (hs : Waiting m s) (h : s.step .main = some t)
    (hmain : t.main = m') (hspectator : t.spectator = s.spectator)
    (hmutex : t.fansTypeMutex = s.fansTypeMutex) (hfresh : Untouched t) : Waiting m' t :=
  ⟨⟨reach_step hs.reachable h, hmain, by rw [hspectator]; exact hs.spectator,
    by rw [hmutex]; exact hs.mutex⟩, hfresh⟩

theorem reach_created : ∀ k, k ≤ inp.people.length → ∃ s : State inp, (stadium inp).Reachable s ∧
    s.main = .createSpectator k ∧ (∀ p, p.val < k → s.spectator p = .sleep) ∧
      (∀ i, s.fansTypeMutex i = none) ∧ Untouched s := by
  intro k
  induction k with
  | zero =>
      intro _
      refine ⟨start inp, ⟨[], .init rfl⟩, rfl, fun p hp => absurd hp (Nat.not_lt_zero _),
        fun _ => rfl, rfl, rfl, rfl, ?_⟩
      intro g hg
      exact absurd hg (Nat.not_lt_zero _)
  | succ k ih =>
      intro hk
      obtain ⟨s, hs, hmain, hspectator, hmutex, hfresh⟩ := ih (Nat.le_of_succ_le hk)
      have hmore : k < inp.people.length := hk
      have hstep : s.step .main = some { s with
          main := .createSpectator (k + 1)
          spectator := State.create s.spectator .sleep k } := by
        simp [State.step, State.mainThread, hmain, hmore]
      refine ⟨_, reach_step hs hstep, rfl, ?_, hmutex, hfresh.go rfl rfl rfl rfl (Nat.zero_le _)⟩
      intro p hp
      by_cases hpk : p.val = k
      · exact create_of_eq hpk
      · exact (create_of_ne hpk).trans (hspectator p (by omega))

theorem reach_zones : ∀ i, i ≤ 3 → ∃ s : State inp, Waiting (.createZone i) s := by
  intro i
  induction i with
  | zero =>
      intro _
      obtain ⟨s, hs, hmain, hspectator, hmutex, hfresh⟩ := @reach_created inp _ (Nat.le_refl _)
      have hstep : s.step .main = some { s with main := .createZone 0 } := by
        simp [State.step, State.mainThread, hmain]
      exact ⟨_, ⟨reach_step hs hstep, rfl, fun p => hspectator p p.isLt, hmutex⟩,
        hfresh.go rfl rfl rfl rfl (Nat.zero_le _)⟩
  | succ i ih =>
      intro hi
      obtain ⟨s, hs⟩ := ih (Nat.le_of_succ_le hi)
      have hmore : i < 3 := hi
      have hstep : s.step .main = some { s with
          main := .createZone (i + 1), zone := State.create s.zone .test i } := by
        simp [State.step, State.mainThread, hs.main, hmore]
      exact ⟨_, hs.go hstep rfl rfl rfl (hs.untouched.go rfl rfl rfl rfl (Nat.zero_le _))⟩

theorem reach_goals : ∀ i, i ≤ inp.store.length → ∃ s : State inp, Waiting (.createGoal i) s := by
  intro i
  induction i with
  | zero =>
      intro _
      obtain ⟨s, hs⟩ := @reach_zones inp 3 (Nat.le_refl 3)
      have hstep : s.step .main = some { s with main := .createGoal 0 } := by
        simp [State.step, State.mainThread, hs.main]
      exact ⟨_, hs.go hstep rfl rfl rfl (hs.untouched.go rfl rfl rfl rfl (Nat.zero_le _))⟩
  | succ i ih =>
      intro hi
      obtain ⟨s, hs⟩ := ih (Nat.le_of_succ_le hi)
      have hmore : i < inp.store.length := hi
      have hstep : s.step .main = some { s with
          main := .createGoal (i + 1), goal := State.create s.goal .sleep i } := by
        simp [State.step, State.mainThread, hs.main, hmore]
      obtain ⟨hcapacity, hcond, hcount, hgoal⟩ := hs.untouched
      refine ⟨_, hs.go hstep rfl rfl rfl ⟨hcapacity, hcond, hcount, ?_⟩⟩
      intro g hg
      by_cases hgi : g.val = i
      · exact create_of_eq hgi
      · have hlt : g.val < i + 1 := hg
        refine (create_of_ne hgi).trans (hgoal g ?_)
        rw [hs.main]
        exact Nat.lt_of_le_of_ne (Nat.le_of_lt_succ hlt) hgi

/-- `main` waits for the first spectator, and no other thread has moved. -/
theorem reach_joins : ∃ s : State inp, Waiting (.joinSpectator 0) s := by
  obtain ⟨s, hs⟩ := @reach_goals inp _ (Nat.le_refl _)
  have hstep : s.step .main = some { s with main := .joinSpectator 0 } := by
    simp [State.step, State.mainThread, hs.main]
  refine ⟨_, hs.go hstep rfl rfl rfl (hs.untouched.go rfl rfl rfl rfl ?_)⟩
  rw [hs.main]
  exact Nat.le_refl _

/-- A spectator whose wait for a seat ends with `rt`, without a signal. -/
theorem reach_checkSeat {p : inp.Fan} (rt : Rt) (hreach : (stadium inp).Reachable s)
    (hmain : s.main ≠ .returned) (hp : s.spectator p = .sleep)
    (hmutex : ∀ i, s.fansTypeMutex i = none) :
    (stadium inp).Reachable
      { s.setSpectator p (.checkSeat rt) with
        fansTypeMutex := Function.update s.fansTypeMutex (inp.typeId p) none } := by
  let i := inp.typeId p
  let locked := Function.update s.fansTypeMutex i (some p)
  let free := Function.update s.fansTypeMutex i none
  have hsleep := reach_step (t := s.setSpectator p (.fansType .lock)) hreach (e := .spectator p)
    (by simp [State.step, State.spectatorThread, hmain, hp])
  have hlock := reach_step (e := .spectator p)
    (t := { s.setSpectator p (.fansType .wait) with fansTypeMutex := locked }) hsleep
    (by simp [State.step, State.spectatorThread, State.setSpectator, hmain, hmutex, locked, i])
  have hwait := reach_step (e := .spectator p)
    (t := { s.setSpectator p (.fansType .blocked) with fansTypeMutex := free }) hlock
    (by simp [State.step, State.spectatorThread, State.setSpectator, hmain, locked, free, i])
  have hexpire := reach_step (e := .expire p rt)
    (t := { s.setSpectator p (.fansType (.woken rt)) with fansTypeMutex := free }) hwait
    (by simp [State.step, State.expire, State.setSpectator, hmain])
  have hback := reach_step (e := .spectator p)
    (t := { s.setSpectator p (.fansType (.unlock rt)) with fansTypeMutex := locked }) hexpire
    (by simp [State.step, State.spectatorThread, State.setSpectator, hmain, locked, free, i])
  exact reach_step (e := .spectator p) hback
    (by simp [State.step, State.spectatorThread, State.setSpectator, hmain, locked, i])

/-- A spectator whose patience runs out before a seat is offered. -/
theorem reach_gives_up {p : inp.Fan} (hreach : (stadium inp).Reachable s)
    (hmain : s.main ≠ .returned) (hp : s.spectator p = .sleep)
    (hmutex : ∀ i, s.fansTypeMutex i = none) :
    ∃ t : State inp, (stadium inp).Reachable t ∧ t.main = s.main ∧
      t.spectator = Function.update s.spectator p .returned := by
  let free := Function.update s.fansTypeMutex (inp.typeId p) none
  have hchecks := reach_checkSeat .timedOut hreach hmain hp hmutex
  have hreturn := reach_step (e := .spectator p)
    (t := { s.setSpectator p .returned with fansTypeMutex := free }) hchecks
    (by simp [State.step, State.spectatorThread, State.setSpectator, hmain, free])
  exact ⟨_, hreturn, rfl, rfl⟩

/-- With two spectators and a join there is a run that closes the stadium
while one of them sleeps. -/
theorem closes_early (hmany : 1 < inp.people.length) (hjoin : 0 < inp.totalPeople) :
    ∃ past s, Run (stadium inp) past s ∧ ¬ StaysOpen past s := by
  let first : inp.Fan := ⟨0, Nat.lt_of_succ_lt hmany⟩
  let second : inp.Fan := ⟨1, hmany⟩
  obtain ⟨s, hs⟩ := @reach_joins inp
  obtain ⟨t, ht, hmain, hspectator⟩ := reach_gives_up (p := first) hs.reachable
    (by simp [hs.main]) (hs.spectator first) hs.mutex
  have hjoined : ∀ p : inp.Fan, p.val = 0 → t.spectator p = .returned := by
    intro p hp
    have hfirst : p = first := Fin.ext hp
    rw [hspectator, hfirst, Function.update_self]
  have hset := reach_step (e := .main) (t := { t with main := .setDone 0 }) ht
    (by simpa [State.step, State.mainThread, hmain, hs.main, hjoin] using hjoined)
  obtain ⟨past, run⟩ := reach_step (e := .main)
    (t := { t with done := true, main := .joinSpectator 1 }) hset
    (by simp [State.step, State.mainThread])
  refine ⟨past, _, run, ?_⟩
  intro hopen
  have hreturned : t.spectator second = .returned := hopen.1 rfl second
  have hne : second ≠ first := by simp [first, second]
  rw [hspectator, Function.update_of_ne hne, hs.spectator] at hreturned
  cases hreturned

/-! ### The result -/

/-- **When the stadium stays open in every run.**  Exactly when there is at
most one spectator or `main` joins none. -/
theorem staysOpen_iff (inp : Input) :
    (∀ past s, Run (stadium inp) past s → StaysOpen past s) ↔
      inp.people.length ≤ 1 ∨ inp.totalPeople ≤ 0 := by
  constructor
  · intro hopen
    by_contra hmany
    obtain ⟨past, s, run, hclosed⟩ := @closes_early inp (by omega) (by omega)
    exact hclosed (hopen past s run)
  · intro hfew past s run
    exact staysOpen_of_few run hfew

/-- Two groups of one home fan each, with `total_people` right. -/
def twoFans : Input where
  homeCapacity := 1
  awayCapacity := 0
  neutralCapacity := 0
  groups := [⟨1, [⟨.H, 1⟩]⟩, ⟨1, [⟨.H, 1⟩]⟩]
  store := []

/-- The first of two fans gives up, and `done` is set while the other sleeps. -/
theorem closes_on_two : ¬ ∀ past s, Run (stadium twoFans) past s → StaysOpen past s := by
  intro hopen
  let fan : twoFans.Fan := ⟨0, by decide⟩
  obtain ⟨past, s, run, hdone, hasleep⟩ := Machine.exists_run_of_trace (M := stadium twoFans) rfl
    (List.replicate 8 .main ++ List.replicate 3 (.spectator fan) ++ [.expire fan .timedOut] ++
      List.replicate 3 (.spectator fan) ++ List.replicate 2 .main)
    (fun _ s => s.done = true ∧ s.spectator ⟨1, by decide⟩ = .sleep) (by decide)
  have hreturned := (hopen past s run).1 hdone ⟨1, by decide⟩
  rw [hasleep] at hreturned
  cases hreturned

end Stadium
