import OSN.Stadium.Lifetimes

/-!
# Seats are conserved

A seat of a zone is free, taken by a spectator or held by the zone's thread
while it probes.  Of all operations only four touch a seat: a `sem_trywait`
that succeeds, the `sem_post` at the end of a spectator, and the `sem_wait` and
`sem_post` of a zone thread (`SeatMove`).  Each moves one seat, whatever the
other threads do, so the account is kept by every interleaving.
-/

namespace Stadium

variable {inp : Input} {s t : State inp} {e : Event inp} {past : Past (State inp) (Event inp)}

/-- The zone a spectator is seated in. -/
def Spectator.seat : Spectator → Option (Fin 3)
  | .goalCond z _ => some z
  | .checkTime z _ => some z
  | .checkGoals z => some z
  | .post z => some z
  | _ => none

namespace State

/-- The number of spectators seated in a zone. -/
def seated (s : State inp) (z : Fin 3) : Nat :=
  headcount s.spectator fun a => a.seat = some z

/-- The seats that the thread of a zone holds. -/
def held (s : State inp) (z : Fin 3) : Nat :=
  if s.zone z = .semPost then 1 else 0

end State

/-- This step seats the spectator. -/
def Seats (p : inp.Fan) (s : State inp) (e : Event inp) : Prop :=
  e = .spectator p ∧
    match s.spectator p with
    | .trywait (z :: _) => 0 < s.capacity z
    | _ => False

instance (p : inp.Fan) (s : State inp) (e : Event inp) : Decidable (Seats p s e) := by
  unfold Seats
  split <;> infer_instance

/-- In this step the spectator gives his seat back. -/
def GivesBack (p : inp.Fan) (s : State inp) (e : Event inp) : Prop :=
  e = .spectator p ∧
    match s.spectator p with
    | .post _ => True
    | _ => False

instance (p : inp.Fan) (s : State inp) (e : Event inp) : Decidable (GivesBack p s e) := by
  unfold GivesBack
  split <;> infer_instance

/-- How often a spectator was seated. -/
def seatings (p : inp.Fan) (past : Past (State inp) (Event inp)) : Nat :=
  past.countP fun x => decide (Seats p x.1 x.2)

/-- How often a spectator gave a seat back. -/
def returns (p : inp.Fan) (past : Past (State inp) (Event inp)) : Nat :=
  past.countP fun x => decide (GivesBack p x.1 x.2)

theorem seatings_cons (p : inp.Fan) (s : State inp) (e : Event inp)
    (past : Past (State inp) (Event inp)) :
    seatings p ((s, e) :: past) = seatings p past + if Seats p s e then 1 else 0 := by
  simp [seatings, List.countP_cons]

theorem returns_cons (p : inp.Fan) (s : State inp) (e : Event inp)
    (past : Past (State inp) (Event inp)) :
    returns p ((s, e) :: past) = returns p past + if GivesBack p s e then 1 else 0 := by
  simp [returns, List.countP_cons]

/-- **What a step does to the seats.** -/
inductive SeatMove (s : State inp) (e : Event inp) (t : State inp) : Prop
  | keep (hcapacity : t.capacity = s.capacity)
      (hseat : ∀ p, (t.spectator p).seat = (s.spectator p).seat)
      (hzone : ∀ z, t.zone z = .semPost ↔ s.zone z = .semPost)
      (hnone : ∀ p, ¬ Seats p s e ∧ ¬ GivesBack p s e)
  | sit (p : inp.Fan) (z : Fin 3) (zones : List (Fin 3)) (he : e = .spectator p)
      (hs : s.spectator p = .trywait (z :: zones)) (hfree : 0 < s.capacity z)
      (hcapacity : t.capacity = Function.update s.capacity z (s.capacity z - 1))
      (ht : t.spectator = Function.update s.spectator p (.goalCond z .lock))
      (hzone : t.zone = s.zone)
  | leave (p : inp.Fan) (z : Fin 3) (he : e = .spectator p) (hs : s.spectator p = .post z)
      (hcapacity : t.capacity = Function.update s.capacity z (s.capacity z + 1))
      (ht : t.spectator = Function.update s.spectator p .returned) (hzone : t.zone = s.zone)
  | probe (i : Fin 3) (he : e = .zone i) (hs : s.zone i = .semWait) (hfree : 0 < s.capacity i)
      (hcapacity : t.capacity = Function.update s.capacity i (s.capacity i - 1))
      (ht : t.zone = Function.update s.zone i .semPost) (hspectator : t.spectator = s.spectator)
  | offer (i : Fin 3) (he : e = .zone i) (hs : s.zone i = .semPost)
      (hcapacity : t.capacity = Function.update s.capacity i (s.capacity i + 1))
      (ht : t.zone = Function.update s.zone i (.signal (typesFor i)))
      (hspectator : t.spectator = s.spectator)

/-- A spectator who moves without a seat changing hands. -/
theorem seat_setSpectator {p : inp.Fan} {a : Spectator} (h : a.seat = (s.spectator p).seat)
    (ht : t.spectator = Function.update s.spectator p a) (q : inp.Fan) :
    (t.spectator q).seat = (s.spectator q).seat := by
  rw [ht]
  by_cases hq : q = p
  · subst hq
    rw [Function.update_self, h]
  · rw [Function.update_of_ne hq]

/-- Who is disturbed keeps his seat. -/
theorem Disturbed.seat {a b : Spectator} (h : Disturbed a b) : b.seat = a.seat := by
  cases h <;> rfl

/-- A spectator goes on, and no seat changes hands. -/
theorem SeatMove.of_spectator {p : inp.Fan} {a : Spectator} (hseat : a.seat = (s.spectator p).seat)
    (hquiet : match s.spectator p with
      | .trywait (z :: _) => ¬ 0 < s.capacity z
      | .post _ => False
      | _ => True)
    (hcapacity : t.capacity = s.capacity) (ht : t.spectator = Function.update s.spectator p a)
    (hzone : t.zone = s.zone) : SeatMove s (.spectator p) t := by
  apply SeatMove.keep hcapacity (seat_setSpectator hseat ht)
  · intro z
    rw [hzone]
  · intro q
    by_cases hq : p = q
    · subst hq
      revert hquiet
      unfold Seats GivesBack
      cases s.spectator p with
      | trywait zones => cases zones <;> simp
      | _ => simp
    · simp [Seats, GivesBack, hq]

theorem spectatorThread_seat {p : inp.Fan} (h : s.spectatorThread p = some t) :
    SeatMove s (.spectator p) t := by
  unfold State.spectatorThread at h
  cases hs : s.spectator p with
  | notCreated | returned => simp [hs] at h
  | sleep | checkSeat | checkTime | checkGoals =>
      simp only [hs, Option.some.injEq] at h
      subst h
      refine SeatMove.of_spectator ?_ (by simp [hs]) rfl rfl rfl
      rw [hs]
      try split
      all_goals rfl
  | fansType w =>
      cases w with
      | blocked => simp [hs] at h
      | lock | woken =>
          simp only [hs, Option.ite_none_right_eq_some, Option.some.injEq] at h
          obtain ⟨_, h⟩ := h
          subst h
          exact SeatMove.of_spectator (by rw [hs]; rfl) (by simp [hs]) rfl rfl rfl
      | wait | unlock =>
          simp only [hs, Option.some.injEq] at h
          subst h
          exact SeatMove.of_spectator (by rw [hs]; rfl) (by simp [hs]) rfl rfl rfl
  | trywait zones =>
      cases zones with
      | nil =>
          simp only [hs, Option.some.injEq] at h
          subst h
          exact SeatMove.of_spectator (by rw [hs]; rfl) (by simp [hs]) rfl rfl rfl
      | cons z zones =>
          by_cases hfree : 0 < s.capacity z
          · simp only [hs, hfree, ↓reduceIte, Option.some.injEq] at h
            subst h
            exact SeatMove.sit p z zones rfl hs hfree rfl rfl rfl
          · simp only [hs, hfree, ↓reduceIte, Option.some.injEq] at h
            subst h
            exact SeatMove.of_spectator (by rw [hs]; rfl) (by simpa [hs] using hfree) rfl rfl rfl
  | goalCond z w =>
      cases w with
      | blocked => simp [hs] at h
      | lock | woken =>
          simp only [hs, Option.ite_none_right_eq_some, Option.some.injEq] at h
          obtain ⟨_, h⟩ := h
          subst h
          exact SeatMove.of_spectator (by rw [hs]; rfl) (by simp [hs]) rfl rfl rfl
      | wait | unlock =>
          simp only [hs, Option.some.injEq] at h
          subst h
          exact SeatMove.of_spectator (by rw [hs]; rfl) (by simp [hs]) rfl rfl rfl
  | post z =>
      simp only [hs, Option.some.injEq] at h
      subst h
      exact SeatMove.leave p z rfl hs rfl rfl rfl

theorem seats_quiet {p : inp.Fan} (he : e ≠ .spectator p) : ¬ Seats p s e ∧ ¬ GivesBack p s e :=
  ⟨fun h => he h.1, fun h => he h.1⟩

/-- A zone thread moves, and holds no seat before or after. -/
theorem SeatMove.of_zone {i : Fin 3} {a : Zone} (he : ∀ p, e ≠ .spectator p)
    (hold : s.zone i ≠ .semPost) (hnew : a ≠ .semPost)
    (hcapacity : t.capacity = s.capacity)
    (hseat : ∀ p, (t.spectator p).seat = (s.spectator p).seat)
    (ht : t.zone = Function.update s.zone i a) : SeatMove s e t := by
  apply SeatMove.keep hcapacity hseat
  · intro z
    rw [ht]
    by_cases hz : z = i
    · subst hz
      simp [hold, hnew]
    · rw [Function.update_of_ne hz]
  · intro p
    exact seats_quiet (he p)

theorem zoneThread_seat {i : Fin 3} (h : s.zoneThread i = some t) : SeatMove s (.zone i) t := by
  unfold State.zoneThread at h
  cases hs : s.zone i with
  | notCreated | returned => simp [hs] at h
  | test =>
      simp only [hs, Option.some.injEq] at h
      subst h
      refine .of_zone (by simp) (by simp [hs]) ?_ rfl (fun _ => rfl) rfl
      split <;> simp
  | semWait =>
      simp only [hs, Option.ite_none_right_eq_some, Option.some.injEq] at h
      obtain ⟨hfree, h⟩ := h
      subst h
      exact .probe i rfl hs hfree rfl rfl rfl
  | semPost =>
      simp only [hs, Option.some.injEq] at h
      subst h
      exact .offer i rfl hs rfl rfl rfl
  | signal types =>
      cases types with
      | nil =>
          simp only [hs, Option.some.injEq] at h
          subst h
          exact .of_zone (by simp) (by simp [hs]) (by simp) rfl (fun _ => rfl) rfl
      | cons j types => simp [hs] at h

/-- A thread other than a spectator or a zone moves no seat. -/
theorem SeatMove.of_other (he : ∀ p, e ≠ .spectator p) (hunborn : Unborn s)
    (h : s.step e = some t) (hcapacity : t.capacity = s.capacity)
    (hzone : ∀ z, t.zone z = .semPost ↔ s.zone z = .semPost) : SeatMove s e t := by
  apply SeatMove.keep hcapacity _ hzone
  · intro p
    exact seats_quiet (he p)
  · intro p
    exact (step_disturbs hunborn h (he p)).seat

theorem step_seat (hunborn : Unborn s) (h : s.step e = some t) : SeatMove s e t := by
  cases e with
  | main =>
      cases step_main h with
      | createZone i hs _ ht =>
          refine .of_other (by simp) hunborn h (by rw [ht]) ?_
          intro z
          subst ht
          by_cases hz : z.val = i
          · have hnew := hunborn.zone z (by rw [hs, hz]; exact Nat.le_refl _)
            simp [create_of_eq hz, hnew]
          · simp only [create_of_ne hz]
      | createSpectator _ _ _ ht | broadcast _ _ ht | createGoal _ _ _ ht
      | spectatorsCreated _ _ _ ht | zonesCreated _ _ _ ht | goalsCreated _ _ _ ht
      | joinSpectator _ _ _ _ ht | spectatorsJoined _ _ _ ht | setDone _ _ ht
      | joinGoal _ _ _ _ ht | goalsJoined _ _ _ ht | joinZone _ _ _ _ ht | returns _ _ _ ht =>
          subst ht
          exact .of_other (by simp) hunborn h rfl fun _ => Iff.rfl
  | spectator p => exact spectatorThread_seat (step_spectator h)
  | expire p rt =>
      obtain ⟨_, a, _, ht⟩ := expire_cases (step_expire h)
      subst ht
      exact .of_other (by simp) hunborn h rfl fun _ => Iff.rfl
  | zone i => exact zoneThread_seat (step_zone h)
  | signal i woken =>
      obtain ⟨j, types, hs, _, ht⟩ := signal_cases (step_signal h)
      have hseat : ∀ p, (t.spectator p).seat = (s.spectator p).seat := fun p =>
        (step_disturbs hunborn h (by simp)).seat
      subst ht
      exact .of_zone (i := i) (by simp) (by simp [hs]) (by simp) rfl hseat rfl
  | goal g =>
      obtain ⟨_, a, _, _, spectator, _, ht⟩ := goalThread_cases (step_goal h)
      subst ht
      exact .of_other (by simp) hunborn h rfl fun _ => Iff.rfl

/-! ### The account of a zone -/

/-- The account of a zone is kept by every move. -/
theorem SeatMove.account (h : SeatMove s e t) (z : Fin 3) :
    t.capacity z + t.seated z + t.held z = s.capacity z + s.seated z + s.held z := by
  cases h with
  | keep hcapacity hseat hzone _ =>
      have hseated : t.seated z = s.seated z := headcount_congr fun p => by rw [hseat p]
      have hheld : t.held z = s.held z := if_congr (hzone z) rfl rfl
      rw [hcapacity, hseated, hheld]
  | sit p z' zones _ hs hfree hcapacity ht hzone =>
      have hheld : t.held z = s.held z := by rw [State.held, hzone, State.held]
      rw [hheld, hcapacity, State.seated, ht]
      by_cases hz : z = z'
      · subst hz
        have henter : headcount (Function.update s.spectator p (.goalCond z .lock))
            (fun a => a.seat = some z) = s.seated z + 1 :=
          headcount_update_enter (by simp [hs, Spectator.seat]) rfl
        rw [henter, Function.update_self]
        omega
      · have hsame : headcount (Function.update s.spectator p (.goalCond z' .lock))
            (fun a => a.seat = some z) = s.seated z :=
          headcount_update_same (by simp [hs, Spectator.seat, Ne.symm hz])
        rw [hsame, Function.update_of_ne hz]
  | leave p z' _ hs hcapacity ht hzone =>
      have hheld : t.held z = s.held z := by rw [State.held, hzone, State.held]
      rw [hheld, hcapacity, State.seated, ht]
      by_cases hz : z = z'
      · subst hz
        have hleave : headcount (Function.update s.spectator p .returned)
            (fun a => a.seat = some z) + 1 = s.seated z :=
          headcount_update_leave (by simp [hs, Spectator.seat]) (by simp [Spectator.seat])
        rw [Function.update_self]
        omega
      · have hsame : headcount (Function.update s.spectator p .returned)
            (fun a => a.seat = some z) = s.seated z :=
          headcount_update_same (by simp [hs, Spectator.seat, Ne.symm hz])
        rw [hsame, Function.update_of_ne hz]
  | probe i _ hs hfree hcapacity ht hspectator =>
      have hseated : t.seated z = s.seated z := by rw [State.seated, hspectator, State.seated]
      rw [hseated, hcapacity, State.held, ht, State.held]
      by_cases hz : z = i
      · subst hz
        simp only [Function.update_self, hs, ↓reduceIte, reduceCtorEq]
        omega
      · rw [Function.update_of_ne hz, Function.update_of_ne hz]
  | offer i _ hs hcapacity ht hspectator =>
      have hseated : t.seated z = s.seated z := by rw [State.seated, hspectator, State.seated]
      rw [hseated, hcapacity, State.held, ht, State.held]
      by_cases hz : z = i
      · subst hz
        simp only [Function.update_self, hs, ↓reduceIte, reduceCtorEq]
        omega
      · rw [Function.update_of_ne hz, Function.update_of_ne hz]

theorem account_start (z : Fin 3) :
    (start inp).capacity z + (start inp).seated z + (start inp).held z =
      inp.seatingCapacity z := by
  have hseated : (start inp).seated z = 0 :=
    headcount_eq_zero fun p => by simp [start, Spectator.seat]
  have hheld : (start inp).held z = 0 := by simp [State.held, start]
  rw [hseated, hheld]
  rfl

/-- **The account of a zone** holds in every reachable state. -/
theorem account (run : Run (stadium inp) past s) (z : Fin 3) :
    s.capacity z + s.seated z + s.held z = inp.seatingCapacity z := by
  induction run with
  | init hs =>
      have hstart : _ = start inp := hs
      rw [hstart, account_start]
  | step run h ih => rw [(step_seat (unborn run) h).account, ih]

/-! ### Where a spectator may sit -/

/-- The zones a spectator is in or about to try. -/
def Spectator.zones : Spectator → List (Fin 3)
  | .trywait zones => zones
  | .goalCond z _ => [z]
  | .checkTime z _ => [z]
  | .checkGoals z => [z]
  | .post z => [z]
  | _ => []

theorem zones_of_seat {a : Spectator} {z : Fin 3} (h : a.seat = some z) : z ∈ a.zones := by
  cases a <;> simp_all [Spectator.seat, Spectator.zones]

/-- A spectator only comes to zones of his type, or stays with those he has. -/
theorem spectatorThread_zones {p : inp.Fan} (h : s.spectatorThread p = some t) {z : Fin 3}
    (hz : z ∈ (t.spectator p).zones) :
    z ∈ (s.spectator p).zones ∨ z ∈ zonesFor (inp.typeId p) := by
  simp only [State.spectatorThread] at h
  split at h <;> try split at h
  all_goals first
    | (obtain rfl := Option.some.inj h
       simp_all [State.setSpectator, Spectator.zones])
    | cases h

theorem Disturbed.zones {a b : Spectator} (h : Disturbed a b) : b.zones = a.zones := by
  cases h <;> rfl

/-- A spectator is only ever in zones of his type. -/
theorem zones_of_type (run : Run (stadium inp) past s) (p : inp.Fan) (z : Fin 3)
    (hz : z ∈ (s.spectator p).zones) : z ∈ zonesFor (inp.typeId p) := by
  induction run with
  | init hs =>
      have hstart : _ = start inp := hs
      rw [hstart] at hz
      cases hz
  | @step past s t e run h ih =>
      by_cases he : e = .spectator p
      · subst he
        rcases spectatorThread_zones (step_spectator h) hz with hold | hnew
        · exact ih hold
        · exact hnew
      · rw [(step_disturbs (unborn run) h he).zones] at hz
        exact ih hz

/-! ### How often a spectator sits down and gets up -/

/-- What a move does to the seat of one spectator: he sits down, gets up, or
keeps the seat he has or has not. -/
theorem SeatMove.seat_cases (h : SeatMove s e t) (p : inp.Fan) :
    (Seats p s e ∧ ¬ GivesBack p s e ∧ (s.spectator p).seat = none ∧
        s.spectator p ≠ .returned ∧ (t.spectator p).seat ≠ none) ∨
      (¬ Seats p s e ∧ GivesBack p s e ∧ (s.spectator p).seat ≠ none ∧
        t.spectator p = .returned) ∨
      (¬ Seats p s e ∧ ¬ GivesBack p s e ∧ (t.spectator p).seat = (s.spectator p).seat) := by
  cases h with
  | keep _ hseat _ hnone => exact Or.inr (Or.inr ⟨(hnone p).1, (hnone p).2, hseat p⟩)
  | sit q z zones he hs hfree _ ht _ =>
      by_cases hp : p = q
      · subst hp
        left
        simp [Seats, GivesBack, he, hs, hfree, ht, Spectator.seat]
      · right; right
        have hne : e ≠ .spectator p := by
          intro heq
          exact hp (Event.spectator.inj (heq.symm.trans he))
        exact ⟨(seats_quiet hne).1, (seats_quiet hne).2, by rw [ht, Function.update_of_ne hp]⟩
  | leave q z he hs _ ht _ =>
      by_cases hp : p = q
      · subst hp
        right; left
        simp [Seats, GivesBack, he, hs, ht, Spectator.seat]
      · right; right
        have hne : e ≠ .spectator p := by
          intro heq
          exact hp (Event.spectator.inj (heq.symm.trans he))
        exact ⟨(seats_quiet hne).1, (seats_quiet hne).2, by rw [ht, Function.update_of_ne hp]⟩
  | probe i he _ _ _ _ hspectator | offer i he _ _ _ hspectator =>
      have hne : e ≠ .spectator p := by
        rw [he]
        simp
      exact Or.inr (Or.inr ⟨(seats_quiet hne).1, (seats_quiet hne).2, by rw [hspectator]⟩)

/-- Whether a spectator is seated, as a number. -/
def State.sits (s : State inp) (p : inp.Fan) : Nat :=
  if (s.spectator p).seat = none then 0 else 1

/-- A spectator is seated once at most, and has given that seat back unless he
still sits in it. -/
structure SeatedOnce (p : inp.Fan) (past : Past (State inp) (Event inp)) (s : State inp) :
    Prop where
  account : seatings p past = returns p past + s.sits p
  once : seatings p past ≤ 1
  gone : 0 < returns p past → s.spectator p = .returned

theorem seatedOnce (run : Run (stadium inp) past s) (p : inp.Fan) : SeatedOnce p past s := by
  induction run with
  | init hs =>
      have hstart : _ = start inp := hs
      subst hstart
      exact ⟨rfl, Nat.zero_le 1, fun h => absurd h (Nat.lt_irrefl 0)⟩
  | @step past s t e run h ih =>
      obtain ⟨haccount, honce, hgone⟩ := ih
      have hmove := step_seat (unborn run) h
      rcases hmove.seat_cases p with ⟨hseats, hback, hold, hrun, hnew⟩ | ⟨hseats, hback, hold, ht⟩ |
        ⟨hseats, hback, hsame⟩
      · have hfirst : returns p past = 0 := by
          by_contra hne
          exact hrun (hgone (Nat.pos_of_ne_zero hne))
        have hsits : s.sits p = 0 := if_pos hold
        have hsits' : t.sits p = 1 := if_neg hnew
        constructor
        · rw [seatings_cons, returns_cons]
          simp [hseats, hback]
          omega
        · rw [seatings_cons]
          simp [hseats]
          omega
        · intro hback'
          rw [returns_cons] at hback'
          simp [hback, hfirst] at hback'
      · have hsits : s.sits p = 1 := if_neg hold
        have hsits' : t.sits p = 0 := if_pos (by rw [ht]; rfl)
        constructor
        · rw [seatings_cons, returns_cons]
          simp [hseats, hback]
          omega
        · rw [seatings_cons]
          simpa [hseats] using honce
        · intro _
          exact ht
      · have hsits : t.sits p = s.sits p := by rw [State.sits, hsame, State.sits]
        constructor
        · rw [seatings_cons, returns_cons]
          simp [hseats, hback]
          omega
        · rw [seatings_cons]
          simpa [hseats] using honce
        · intro hback'
          rw [returns_cons] at hback'
          exact step_returned (unborn run) h (hgone (by simpa [hback] using hback'))

/-! ### The result -/

/-- **Seats are conserved.**  Whatever the capacities, the spectators and the
order of the threads' steps, in every zone the free seats, the seated
spectators and the seat its thread holds make up the zone's capacity, so the
zone is not overfilled; each spectator is seated at most once and has given his
seat back unless he still sits in it; home fans sit in zones `0` and `1` only,
and away fans in zone `2` only. -/
theorem seats_conserved (run : Run (stadium inp) past s) :
    (∀ z, s.capacity z + s.seated z + s.held z = inp.seatingCapacity z ∧
        s.seated z ≤ inp.seatingCapacity z) ∧
      (∀ p, seatings p past = returns p past + s.sits p ∧ seatings p past ≤ 1) ∧
      ∀ p z, (s.spectator p).seat = some z →
        ((inp.person p).type = .H → z = 0 ∨ z = 1) ∧ ((inp.person p).type = .A → z = 2) := by
  constructor
  · intro z
    have haccount := account run z
    exact ⟨haccount, by omega⟩
  constructor
  · intro p
    exact ⟨(seatedOnce run p).account, (seatedOnce run p).once⟩
  · intro p z hseat
    have hzone := zones_of_type run p z (zones_of_seat hseat)
    constructor
    · intro htype
      simpa [Input.typeId, htype, teamCharToInt, zonesFor] using hzone
    · intro htype
      simpa [Input.typeId, htype, teamCharToInt, zonesFor] using hzone

/-- One home fan and one seat for him. -/
def oneFan : Input where
  homeCapacity := 1
  awayCapacity := 0
  neutralCapacity := 0
  groups := [⟨1, [⟨.H, 1⟩]⟩]
  store := []

/-- `main` up to its first join, the fan up to his wait, the zone thread up to
its first signal, and the fan to the end of his stay. -/
def stay : List (Event oneFan) :=
  let fan : oneFan.Fan := ⟨0, by decide⟩
  List.replicate 7 .main ++ List.replicate 3 (.spectator fan) ++
    List.replicate 3 (.zone 0) ++ [.signal 0 [fan]] ++ List.replicate 6 (.spectator fan) ++
      [.expire fan .timedOut] ++ List.replicate 4 (.spectator fan)

/-- The theorem at the end of a stay. -/
theorem seats_conserved_stay : ∃ past s, Run (stadium oneFan) past s ∧
    returns ⟨0, by decide⟩ past = 1 ∧
    (∀ z, s.capacity z + s.seated z + s.held z = oneFan.seatingCapacity z ∧
        s.seated z ≤ oneFan.seatingCapacity z) ∧
      (∀ p, seatings p past = returns p past + s.sits p ∧ seatings p past ≤ 1) ∧
      ∀ p z, (s.spectator p).seat = some z →
        ((oneFan.person p).type = .H → z = 0 ∨ z = 1) ∧ ((oneFan.person p).type = .A → z = 2) := by
  obtain ⟨past, s, run, hreturns⟩ := Machine.exists_run_of_trace (M := stadium oneFan) rfl stay
    (fun past _ => returns ⟨0, by decide⟩ past = 1) (by decide)
  exact ⟨past, s, run, hreturns, seats_conserved run⟩

end Stadium
