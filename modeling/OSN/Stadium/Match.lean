import OSN.Lib.Run
import OSN.Lib.CondVar
import OSN.Lib.Headcount

/-!
# The stadium

`main` reads the input and creates the threads: one for each spectator, one for
each of the three zones and one for each chance of a goal.  A spectator waits
on the condition variable of his type until a zone thread says that there is
room, tries the zones of his type in turn, and watches the match on
`goal_cond`.  A zone thread takes a seat of its zone and gives it back at once,
to find out whether there is one, and then signals two types of fans.

Each thread is a program counter and each event is one operation of one thread:
an operation of a mutex, a semaphore or a condition variable, or a test or an
update of shared data.  Sleeps and deadlines may take any time, so a wait may
end at any moment, and what is only printed is left out.
-/

namespace Stadium

/-- The type of a fan, and the team of a chance. -/
inductive Team where
  | H
  | N
  | A
  deriving DecidableEq

/-- `team_char_to_int`. -/
def teamCharToInt : Team → Fin 3
  | .H => 0
  | .A => 2
  | .N => 1

structure Person where
  type : Team
  goalLimit : Int
  deriving DecidableEq

/-- A group as the first loop of `main` meets it. -/
structure Group where
  /-- What `num_people` holds as the body begins, before it is read. -/
  unread : Int
  members : List Person

/-- A chance of a goal. -/
structure GoalProb where
  teamId : Team
  /-- Whether `rand() % 100 < chance` when its thread asks. -/
  scores : Bool

/-- What `main` reads. -/
structure Input where
  homeCapacity : Nat
  awayCapacity : Nat
  neutralCapacity : Nat
  groups : List Group
  store : List GoalProb

namespace Input

/-- `seating_capacity`. -/
def seatingCapacity (inp : Input) : Fin 3 → Nat
  | 0 => inp.homeCapacity
  | 1 => inp.neutralCapacity
  | 2 => inp.awayCapacity

/-- The loop that reads the groups: `num_people` is added before it is read. -/
def readGroups (totalPeople : Int) : List Group → Int
  | [] => totalPeople
  | group :: rest => readGroups (totalPeople + group.unread) rest

/-- `total_people`, the bound of the loop that joins. -/
def totalPeople (inp : Input) : Int :=
  readGroups 0 inp.groups

/-- The persons in the order in which their threads are created. -/
def people (inp : Input) : List Person :=
  inp.groups.flatMap Group.members

/-- The name of a spectator thread: `index` in `spec_threads`. -/
abbrev Fan (inp : Input) := Fin inp.people.length

/-- The name of a goal thread. -/
abbrev Chance (inp : Input) := Fin inp.store.length

def person (inp : Input) (p : inp.Fan) : Person := inp.people.get p

/-- The index of `fans_type` and `goals_count` for a person. -/
def typeId (inp : Input) (p : inp.Fan) : Fin 3 := teamCharToInt (inp.person p).type

end Input

/-- What `pthread_cond_timedwait` returns: `0`, `ETIMEDOUT`, or another error
(such as `EINVAL`, as `tv_nsec` is not set). -/
inductive Rt where
  | zero
  | timedOut
  | error
  deriving DecidableEq

/-- Where a spectator thread is. -/
inductive Spectator where
  | notCreated
  | sleep
  /-- Waits on `fans_type`. -/
  | fansType (w : Waiter Rt)
  /-- Tests `rt == ETIMEDOUT`. -/
  | checkSeat (rt : Rt)
  /-- Is about to `sem_trywait` the first of these zones. -/
  | trywait (zones : List (Fin 3))
  /-- Waits on `goal_cond`, seated in `zone_id`. -/
  | goalCond (zoneId : Fin 3) (w : Waiter Rt)
  | checkTime (zoneId : Fin 3) (rt : Rt)
  | checkGoals (zoneId : Fin 3)
  /-- At the label `end`. -/
  | post (zoneId : Fin 3)
  | returned
  deriving DecidableEq

/-- Where a zone thread is. -/
inductive Zone where
  | notCreated
  /-- Tests `done`. -/
  | test
  | semWait
  /-- Holds the seat it has taken and is about to `sem_post`. -/
  | semPost
  /-- Has these types of fans still to signal. -/
  | signal (types : List (Fin 3))
  | returned
  deriving DecidableEq

/-- Where a goal thread is. -/
inductive Goal where
  | notCreated
  | sleep
  | lock
  | count
  | unlock
  | broadcast
  | returned
  deriving DecidableEq

/-- Where `main` is once it has read the groups. -/
inductive Main where
  | createSpectator (index : Nat)
  | createZone (i : Nat)
  | createGoal (i : Nat)
  /-- In `pthread_join(spec_threads[i])`. -/
  | joinSpectator (i : Nat)
  /-- Has joined spectator `i` and is about to set `done`. -/
  | setDone (i : Nat)
  | joinGoal (i : Nat)
  | broadcast (i : Nat)
  | joinZone (i : Nat)
  | returned
  deriving DecidableEq

/-- The state of the program. -/
structure State (inp : Input) where
  done : Bool
  main : Main
  /-- The values of the semaphores `capacity`. -/
  capacity : Fin 3 → Nat
  fansTypeMutex : Fin 3 → Option inp.Fan
  goalCondMutex : Option inp.Fan
  goalsCount : Fin 3 → Int
  goalsCountMutex : Option inp.Chance
  spectator : inp.Fan → Spectator
  zone : Fin 3 → Zone
  goal : inp.Chance → Goal

/-- One operation of one thread. -/
inductive Event (inp : Input) where
  | main
  | spectator (p : inp.Fan)
  /-- The wait of a spectator ends without a signal. -/
  | expire (p : inp.Fan) (rt : Rt)
  | zone (i : Fin 3)
  /-- A zone thread signals, and these spectators are woken up. -/
  | signal (i : Fin 3) (woken : List inp.Fan)
  | goal (g : inp.Chance)
  deriving DecidableEq

/-- The zones a spectator tries, in order. -/
def zonesFor : Fin 3 → List (Fin 3)
  | 0 => [0, 1]
  | 1 => [0, 1, 2]
  | 2 => [2]

/-- The types of fans a zone thread signals, in order. -/
def typesFor : Fin 3 → List (Fin 3)
  | 0 => [0, 1]
  | 1 => [0, 1]
  | 2 => [1, 2]

namespace State

variable {inp : Input}

def setSpectator (s : State inp) (p : inp.Fan) (at' : Spectator) : State inp :=
  { s with spectator := Function.update s.spectator p at' }

def setZone (s : State inp) (i : Fin 3) (at' : Zone) : State inp :=
  { s with zone := Function.update s.zone i at' }

def setGoal (s : State inp) (g : inp.Chance) (at' : Goal) : State inp :=
  { s with goal := Function.update s.goal g at' }

/-- `pthread_cond_broadcast(&goal_cond)`. -/
def broadcastGoalCond (s : State inp) : State inp :=
  { s with
    spectator := fun p =>
      match s.spectator p with
      | .goalCond zoneId .blocked => .goalCond zoneId (.woken .zero)
      | other => other }

/-- An operation of `spectator_thread`. -/
def spectatorThread (s : State inp) (p : inp.Fan) : Option (State inp) :=
  let i := inp.typeId p
  match s.spectator p with
  | .notCreated => none
  | .sleep => some (s.setSpectator p (.fansType .lock))
  | .fansType .lock =>
      if s.fansTypeMutex i = none then
        some
          { s.setSpectator p (.fansType .wait) with
            fansTypeMutex := Function.update s.fansTypeMutex i (some p) }
      else none
  | .fansType .wait =>
      some
        { s.setSpectator p (.fansType .blocked) with
          fansTypeMutex := Function.update s.fansTypeMutex i none }
  | .fansType .blocked => none
  | .fansType (.woken rt) =>
      if s.fansTypeMutex i = none then
        some
          { s.setSpectator p (.fansType (.unlock rt)) with
            fansTypeMutex := Function.update s.fansTypeMutex i (some p) }
      else none
  | .fansType (.unlock rt) =>
      some
        { s.setSpectator p (.checkSeat rt) with
          fansTypeMutex := Function.update s.fansTypeMutex i none }
  | .checkSeat rt =>
      some (s.setSpectator p (if rt = .timedOut then .returned else .trywait (zonesFor i)))
  -- no zone of this type has room: `goto justincase`
  | .trywait [] => some (s.setSpectator p (.fansType .lock))
  | .trywait (z :: zones) =>
      if 0 < s.capacity z then
        some
          { s.setSpectator p (.goalCond z .lock) with
            capacity := Function.update s.capacity z (s.capacity z - 1) }
      else some (s.setSpectator p (.trywait zones))
  | .goalCond z .lock =>
      if s.goalCondMutex = none then
        some { s.setSpectator p (.goalCond z .wait) with goalCondMutex := some p }
      else none
  | .goalCond z .wait =>
      some { s.setSpectator p (.goalCond z .blocked) with goalCondMutex := none }
  | .goalCond _ .blocked => none
  | .goalCond z (.woken rt) =>
      if s.goalCondMutex = none then
        some { s.setSpectator p (.goalCond z (.unlock rt)) with goalCondMutex := some p }
      else none
  | .goalCond z (.unlock rt) =>
      some { s.setSpectator p (.checkTime z rt) with goalCondMutex := none }
  | .checkTime z rt =>
      some (s.setSpectator p (if rt = .timedOut then .post z else .checkGoals z))
  | .checkGoals z =>
      some (s.setSpectator p
        (if (inp.person p).goalLimit ≤ s.goalsCount i then .post z else .goalCond z .lock))
  | .post z =>
      some
        { s.setSpectator p .returned with
          capacity := Function.update s.capacity z (s.capacity z + 1) }
  | .returned => none

/-- The wait of a spectator ends without a signal. -/
def expire (s : State inp) (p : inp.Fan) (rt : Rt) : Option (State inp) :=
  match s.spectator p with
  | .fansType .blocked => some (s.setSpectator p (.fansType (.woken rt)))
  | .goalCond z .blocked => some (s.setSpectator p (.goalCond z (.woken rt)))
  | _ => none

/-- An operation of `zone_thread`, except for its signals. -/
def zoneThread (s : State inp) (i : Fin 3) : Option (State inp) :=
  match s.zone i with
  | .test => some (s.setZone i (if s.done then .returned else .semWait))
  | .semWait =>
      if 0 < s.capacity i then
        some
          { s.setZone i .semPost with
            capacity := Function.update s.capacity i (s.capacity i - 1) }
      else none
  | .semPost =>
      some
        { s.setZone i (.signal (typesFor i)) with
          capacity := Function.update s.capacity i (s.capacity i + 1) }
  | .signal [] => some (s.setZone i .test)
  | _ => none

/-- A spectator of this type is blocked on `fans_type`. -/
def BlockedOnType (s : State inp) (j : Fin 3) (p : inp.Fan) : Prop :=
  inp.typeId p = j ∧ s.spectator p = .fansType .blocked

instance (s : State inp) (j : Fin 3) (p : inp.Fan) : Decidable (s.BlockedOnType j p) := by
  unfold BlockedOnType
  infer_instance

/-- A signal of `zone_thread`. -/
def signal (s : State inp) (i : Fin 3) (woken : List inp.Fan) : Option (State inp) :=
  match s.zone i with
  | .signal (j :: types) =>
      if CondVar.MayWake .posix (s.BlockedOnType j) woken then
        some
          { s.setZone i (.signal types) with
            spectator := fun p =>
              if p ∈ woken then .fansType (.woken .zero) else s.spectator p }
      else none
  | _ => none

/-- An operation of `goal_thread`. -/
def goalThread (s : State inp) (g : inp.Chance) : Option (State inp) :=
  let chance := inp.store.get g
  let i := teamCharToInt chance.teamId
  match s.goal g with
  | .notCreated => none
  | .sleep => some (s.setGoal g (if chance.scores then .lock else .returned))
  | .lock =>
      if s.goalsCountMutex = none then
        some { s.setGoal g .count with goalsCountMutex := some g }
      else none
  | .count =>
      some
        { s.setGoal g .unlock with
          goalsCount := Function.update s.goalsCount i (s.goalsCount i + 1) }
  | .unlock => some { s.setGoal g .broadcast with goalsCountMutex := none }
  | .broadcast => some (s.setGoal g .returned).broadcastGoalCond
  | .returned => none

/-- Create one of the threads of a family, if there are any left. -/
def create {n : Nat} {A : Type} (threads : Fin n → A) (start : A) (index : Nat) : Fin n → A :=
  fun p => if p.val = index then start else threads p

/-- An operation of `main`.  A handle past the last thread created was never
written, so joining it may return at once. -/
def mainThread (s : State inp) : Option (State inp) :=
  match s.main with
  | .createSpectator index =>
      if index < inp.people.length then
        some
          { s with
            main := .createSpectator (index + 1)
            spectator := create s.spectator .sleep index }
      else some { s with main := .createZone 0 }
  | .createZone i =>
      if i < 3 then
        some { s with main := .createZone (i + 1), zone := create s.zone .test i }
      else some { s with main := .createGoal 0 }
  | .createGoal i =>
      if i < inp.store.length then
        some { s with main := .createGoal (i + 1), goal := create s.goal .sleep i }
      else some { s with main := .joinSpectator 0 }
  | .joinSpectator i =>
      if (i : Int) < inp.totalPeople then
        if ∀ p : inp.Fan, p.val = i → s.spectator p = .returned then
          some { s with main := .setDone i }
        else none
      else some { s with main := .joinGoal 0 }
  | .setDone i => some { s with done := true, main := .joinSpectator (i + 1) }
  | .joinGoal i =>
      if i < inp.store.length then
        if ∀ g : inp.Chance, g.val = i → s.goal g = .returned then
          some { s with main := .broadcast i }
        else none
      else some { s with main := .joinZone 0 }
  | .broadcast i => some { s with main := .joinGoal (i + 1) }.broadcastGoalCond
  | .joinZone i =>
      if i < 3 then
        if ∀ z : Fin 3, z.val = i → s.zone z = .returned then
          some { s with main := .joinZone (i + 1) }
        else none
      else some { s with main := .returned }
  | .returned => none

/-- A step.  When `main` returns the process ends. -/
def step (s : State inp) (e : Event inp) : Option (State inp) :=
  if s.main = .returned then none
  else
    match e with
    | .main => s.mainThread
    | .spectator p => s.spectatorThread p
    | .expire p rt => s.expire p rt
    | .zone i => s.zoneThread i
    | .signal i woken => s.signal i woken
    | .goal g => s.goalThread g

end State

/-- `goals_count` as `sync_init` leaves it. -/
def initialGoals : Fin 3 → Int
  | 0 => 0
  | 1 => -2
  | 2 => 0

/-- The state after `sync_init` and the reading of the groups. -/
def start (inp : Input) : State inp where
  done := false
  main := .createSpectator 0
  capacity := inp.seatingCapacity
  fansTypeMutex := fun _ => none
  goalCondMutex := none
  goalsCount := initialGoals
  goalsCountMutex := none
  spectator := fun _ => .notCreated
  zone := fun _ => .notCreated
  goal := fun _ => .notCreated

/-- The stadium. -/
def stadium (inp : Input) : Machine (State inp) (Event inp) where
  init s := s = start inp
  step := State.step

end Stadium
