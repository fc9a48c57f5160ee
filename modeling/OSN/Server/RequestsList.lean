import OSN.Lib.Run
import Mathlib.Data.Fintype.Basic
import Mathlib.Data.Finset.Card
import Mathlib.Data.Fintype.Card

/-!
# How requests get from `main` to the workers

`main` accepts a connection, pushes it to `requestsList.queueInternal` and
signals `requestsList.cond`.  A worker waits for the signal, whatever the queue
is like, and then pops a request, whatever the queue is like.  `cond_lock` is
held only on the way into the wait and out of it, and `queue_lock` only for one
push or pop, so neither is more than a part of a step here.

A push comes before its signal and a pop after its wakeup.  So the queue holds
one request for each worker that is awake and has not popped yet, one for the
signal that is due, and one for each signal that nobody heard
(`queue_length`).  That decides both whether requests are left behind and
whether a pop may find nothing.
-/

namespace Server

/-- What to expect of `pthread_cond_wait` and `pthread_cond_signal`. -/
inductive CondVar where
  /-- A signal wakes one thread if one is waiting, and nothing else does. -/
  | exact
  /-- As POSIX has it: a signal wakes at least one thread if one is waiting, and
  a thread may wake up without a signal. -/
  | posix
  deriving DecidableEq

/-- Where `main` is in its loop, with the connection it has accepted.
Connections are numbered. -/
inductive Main where
  | accept
  | push (req : Nat)
  | signal
  deriving DecidableEq

/-- Where a worker is in its loop. -/
inductive Worker where
  /-- Anywhere from `pop()` to the next `pthread_cond_wait`. -/
  | busy
  /-- Blocked in `pthread_cond_wait`. -/
  | waiting
  /-- Woken up, on its way to `front()` and `pop()`. -/
  | awake
  deriving DecidableEq

/-- The state of `main` and `n` workers. -/
structure Requests (n : Nat) where
  /-- `requestsList.queueInternal`. -/
  queue : List Nat
  main : Main
  worker : Fin n → Worker
  /-- The number of connections accepted so far. -/
  accepted : Nat
  /-- Who has popped what, in order; none for what `front()` yields of an empty
  queue. -/
  popped : List (Fin n × Option Nat)

/-- A step of `main` or of a worker, or a wakeup without a signal. -/
inductive RequestEvent (n : Nat) where
  | accept
  | push
  | signal (woken : List (Fin n))
  | wait (w : Fin n)
  | spurious (w : Fin n)
  | pop (w : Fin n)
  deriving DecidableEq

namespace Requests

variable {n : Nat}

/-- A signal may wake these workers. -/
def MayWake (cond : CondVar) (s : Requests n) (woken : List (Fin n)) : Prop :=
  woken.Nodup ∧ (∀ w ∈ woken, s.worker w = .waiting) ∧
    ((∃ w, s.worker w = .waiting) → woken ≠ []) ∧ (cond = .exact → woken.length ≤ 1)

instance (cond : CondVar) (s : Requests n) (woken : List (Fin n)) :
    Decidable (s.MayWake cond woken) := by
  unfold MayWake
  infer_instance

/-- Move worker `w`. -/
def setWorker (s : Requests n) (w : Fin n) (worker : Worker) : Requests n :=
  { s with worker := Function.update s.worker w worker }

/-- A step. -/
def step (cond : CondVar) (s : Requests n) : RequestEvent n → Option (Requests n)
  | .accept =>
      if s.main = .accept then
        some { s with main := .push s.accepted, accepted := s.accepted + 1 }
      else none
  | .push =>
      match s.main with
      | .push req => some { s with main := .signal, queue := s.queue ++ [req] }
      | _ => none
  | .signal woken =>
      if s.main = .signal ∧ s.MayWake cond woken then
        some
          { s with
            main := .accept
            worker := fun w => if w ∈ woken then .awake else s.worker w }
      else none
  | .wait w => if s.worker w = .busy then some (s.setWorker w .waiting) else none
  | .spurious w =>
      if cond = .posix ∧ s.worker w = .waiting then some (s.setWorker w .awake) else none
  | .pop w =>
      if s.worker w = .awake then
        some
          { s.setWorker w .busy with
            queue := s.queue.tail
            popped := s.popped ++ [(w, s.queue.head?)] }
      else none

/-- All workers have been started. -/
def start (n : Nat) : Requests n where
  queue := []
  main := .accept
  worker := fun _ => .busy
  accepted := 0
  popped := []

end Requests

/-- The machine of `main` and `n` workers. -/
def requests (cond : CondVar) (n : Nat) : Machine (Requests n) (RequestEvent n) where
  init s := s = Requests.start n
  step := Requests.step cond

variable {n : Nat} {cond : CondVar} {s t : Requests n} {e : RequestEvent n}
  {past : Past (Requests n) (RequestEvent n)}

/-! ### Counting -/

namespace Requests

/-- The workers that are awake. -/
def awake (s : Requests n) : Finset (Fin n) := Finset.univ.filter fun w => s.worker w = .awake

/-- The signal that is due for the last push. -/
def due (s : Requests n) : Nat := if s.main = .signal then 1 else 0

theorem mem_awake {w : Fin n} : w ∈ s.awake ↔ s.worker w = .awake := by simp [awake]

theorem awake_of_same (h : ∀ w, t.worker w = .awake ↔ s.worker w = .awake) : t.awake = s.awake := by
  ext w
  rw [mem_awake, mem_awake, h]

/-- Workers that wake up were not awake. -/
theorem awake_signal {woken : List (Fin n)} (hnodup : woken.Nodup)
    (hwaiting : ∀ w ∈ woken, s.worker w = .waiting)
    (ht : ∀ w, t.worker w = if w ∈ woken then .awake else s.worker w) :
    t.awake.card = s.awake.card + woken.length := by
  have hunion : t.awake = s.awake ∪ woken.toFinset := by
    ext w
    rw [Finset.mem_union, mem_awake, mem_awake, List.mem_toFinset, ht]
    by_cases hw : w ∈ woken <;> simp [hw]
  have hdisjoint : Disjoint s.awake woken.toFinset := by
    rw [Finset.disjoint_left]
    intro w hw hwoken
    have hwait := hwaiting w (List.mem_toFinset.mp hwoken)
    simp [mem_awake.mp hw] at hwait
  rw [hunion, Finset.card_union_of_disjoint hdisjoint, List.toFinset_card_of_nodup hnodup]

/-- A worker that pops was awake. -/
theorem awake_pop {w : Fin n} (hw : s.worker w = .awake)
    (ht : t.worker = Function.update s.worker w .busy) : t.awake.card + 1 = s.awake.card := by
  have herase : t.awake = s.awake.erase w := by
    ext v
    rw [Finset.mem_erase, mem_awake, mem_awake, ht]
    by_cases hv : v = w
    · subst hv
      simp
    · simp [hv]
  rw [herase]
  exact Finset.card_erase_add_one (mem_awake.mpr hw)

end Requests

open Requests

/-- **What a step does to the queue and to who is awake.** -/
inductive Moves (cond : CondVar) (s : Requests n) : RequestEvent n → Requests n → Prop
  | accept {t : Requests n} (hmain : s.main = .accept) (ht : t.main = .push s.accepted)
      (hqueue : t.queue = s.queue) (hawake : t.awake = s.awake)
      (haccepted : t.accepted = s.accepted + 1) (hpopped : t.popped = s.popped) :
      Moves cond s .accept t
  | push {t : Requests n} {req : Nat} (hmain : s.main = .push req) (ht : t.main = .signal)
      (hqueue : t.queue = s.queue ++ [req]) (hawake : t.awake = s.awake)
      (haccepted : t.accepted = s.accepted) (hpopped : t.popped = s.popped) :
      Moves cond s .push t
  | signal {t : Requests n} {woken : List (Fin n)} (hmain : s.main = .signal)
      (hmay : s.MayWake cond woken) (ht : t.main = .accept) (hqueue : t.queue = s.queue)
      (hawake : t.awake.card = s.awake.card + woken.length)
      (haccepted : t.accepted = s.accepted) (hpopped : t.popped = s.popped) :
      Moves cond s (.signal woken) t
  | wait {t : Requests n} {w : Fin n} (ht : t.main = s.main) (hqueue : t.queue = s.queue)
      (hawake : t.awake = s.awake) (haccepted : t.accepted = s.accepted)
      (hpopped : t.popped = s.popped) : Moves cond s (.wait w) t
  | spurious {t : Requests n} {w : Fin n} (hcond : cond = .posix) (ht : t.main = s.main)
      (hqueue : t.queue = s.queue) (hawake : t.awake.card = s.awake.card + 1)
      (haccepted : t.accepted = s.accepted) (hpopped : t.popped = s.popped) :
      Moves cond s (.spurious w) t
  | pop {t : Requests n} {w : Fin n} (ht : t.main = s.main) (hqueue : t.queue = s.queue.tail)
      (hawake : t.awake.card + 1 = s.awake.card) (haccepted : t.accepted = s.accepted)
      (hpopped : t.popped = s.popped ++ [(w, s.queue.head?)]) : Moves cond s (.pop w) t

theorem step_moves (h : s.step cond e = some t) : Moves cond s e t := by
  cases e with
  | accept =>
      obtain ⟨hmain, rfl⟩ : s.main = .accept ∧ _ = t := by simpa [Requests.step] using h
      exact .accept hmain rfl rfl rfl rfl rfl
  | push =>
      cases hmain : s.main with
      | push req =>
          obtain rfl : _ = t := by simpa [Requests.step, hmain] using h
          exact .push hmain rfl rfl rfl rfl rfl
      | accept | signal => simp [Requests.step, hmain] at h
  | signal woken =>
      obtain ⟨⟨hmain, hmay⟩, rfl⟩ : (s.main = .signal ∧ s.MayWake cond woken) ∧ _ = t := by
        simpa [Requests.step] using h
      exact .signal hmain hmay rfl rfl (awake_signal hmay.1 hmay.2.1 fun _ => rfl) rfl rfl
  | wait w =>
      obtain ⟨hw, rfl⟩ : s.worker w = .busy ∧ _ = t := by simpa [Requests.step] using h
      refine .wait rfl rfl (awake_of_same fun v => ?_) rfl rfl
      by_cases hv : v = w
      · subst hv
        simp [setWorker, hw]
      · simp [setWorker, hv]
  | spurious w =>
      obtain ⟨⟨hcond, hw⟩, rfl⟩ : (cond = .posix ∧ s.worker w = .waiting) ∧ _ = t := by
        simpa [Requests.step] using h
      refine .spurious hcond rfl rfl ?_ rfl rfl
      refine awake_signal (List.nodup_singleton w) (by simpa using hw) fun v => ?_
      by_cases hv : v = w
      · subst hv
        simp [setWorker]
      · simp [setWorker, hv]
  | pop w =>
      obtain ⟨hw, rfl⟩ : s.worker w = .awake ∧ _ = t := by simpa [Requests.step] using h
      exact .pop rfl rfl (awake_pop hw rfl) rfl rfl

/-! ### Requests that are left behind -/

/-- The signals of a past that woke nobody. -/
def unheard : Past (Requests n) (RequestEvent n) → Nat
  | [] => 0
  | (_, .signal []) :: past => unheard past + 1
  | _ :: past => unheard past

/-- A signal is sent while some worker waits. -/
def Heard (_ : Past (Requests n) (RequestEvent n)) (s : Requests n) (e : RequestEvent n) : Prop :=
  ∀ woken, e = .signal woken → ∃ w, s.worker w = .waiting

/-- All workers are blocked in `pthread_cond_wait`, and `main` in `accept`. -/
def Requests.Quiescent (s : Requests n) : Prop :=
  s.main = .accept ∧ ∀ w, s.worker w = .waiting

instance (s : Requests n) : Decidable s.Quiescent := by
  unfold Requests.Quiescent
  infer_instance

/-- **What the queue holds**: a request for each worker that is awake, one for
the signal that is due, and one for each signal that nobody heard. -/
theorem queue_length (run : Run (requests .exact n) past s) :
    s.queue.length = s.awake.card + s.due + unheard past := by
  refine run.invariant
    (P := fun past s => s.queue.length = s.awake.card + s.due + unheard past) (fun s hs => ?_)
    fun past s e t _ hlength hstep => ?_
  · obtain rfl : s = start n := hs
    have hnone : (start n).awake = ∅ := by
      ext w
      simp [mem_awake, start]
    rw [hnone]
    rfl
  · cases step_moves hstep with
    | accept hmain ht hqueue hawake =>
        simp [due, ht, hqueue, hawake, unheard, hlength, hmain]
    | push hmain ht hqueue hawake =>
        simp [due, ht, hqueue, hawake, unheard, hlength, hmain]
        omega
    | @signal t woken hmain hmay ht hqueue hawake =>
        have hone : woken.length ≤ 1 := hmay.2.2.2 rfl
        cases woken with
        | nil =>
            simp [due, ht, hqueue, hawake, unheard, hlength, hmain]
            omega
        | cons w rest =>
            obtain rfl : rest = [] := List.length_eq_zero_iff.mp (by simpa using hone)
            simp [due, ht, hqueue, hawake, unheard, hlength, hmain]
    | wait ht hqueue hawake => simpa [due, ht, hqueue, hawake, unheard] using hlength
    | spurious hcond => exact absurd hcond (by decide)
    | pop ht hqueue hawake =>
        simp [due, ht, hqueue, unheard, hlength]
        omega

/-- A signal is heard if somebody is there to hear it. -/
theorem unheard_eq_zero_iff (run : Run (requests cond n) past s) :
    unheard past = 0 ↔ Machine.StepsMeet Heard past := by
  induction run with
  | init => exact ⟨fun _ => trivial, fun _ => rfl⟩
  | @step past s t e run h ih =>
      have hother : (∀ woken, e ≠ .signal woken) →
          (unheard past = 0 ↔ Machine.StepsMeet Heard ((s, e) :: past)) :=
        fun hne => ih.trans ⟨fun hmeet => ⟨fun woken he => absurd he (hne woken), hmeet⟩,
          fun hmeet => hmeet.2⟩
      cases step_moves h with
      | accept | push | wait | spurious | pop => exact hother nofun
      | @signal t woken _ hmay =>
          cases woken with
          | nil =>
              refine ⟨fun h => absurd h (Nat.succ_ne_zero _), ?_⟩
              intro hmeet
              exact absurd rfl (hmay.2.2.1 (hmeet.1 [] rfl))
          | cons w rest =>
              exact ih.trans ⟨fun hmeet => ⟨fun _ _ => ⟨w, hmay.2.1 w List.mem_cons_self⟩, hmeet⟩,
                fun hmeet => hmeet.2⟩

/-- If all signals are heard, every request that is queued has a worker awake
for it or its signal due, even with wakeups to spare. -/
theorem queue_length_le (run : Run (requests cond n) past s)
    (hmeet : Machine.StepsMeet Heard past) : s.queue.length ≤ s.awake.card + s.due := by
  refine run.invariant_of_meet (P := fun _ s => s.queue.length ≤ s.awake.card + s.due)
    (fun s hs => ?_) (fun past s e t _ hheard hle hstep => ?_) hmeet
  · obtain rfl : s = start n := hs
    exact Nat.zero_le _
  · cases step_moves hstep with
    | accept hmain ht hqueue hawake => simpa [due, ht, hqueue, hawake, hmain] using hle
    | push hmain ht hqueue hawake => simpa [due, ht, hqueue, hawake, hmain] using hle
    | @signal t woken hmain hmay ht hqueue hawake =>
        have hsome : 0 < woken.length := List.length_pos_iff.mpr (hmay.2.2.1 (hheard woken rfl))
        have hdue : s.due = 1 := if_pos hmain
        rw [hqueue, hawake]
        omega
    | wait ht hqueue hawake => simpa [due, ht, hqueue, hawake] using hle
    | spurious _ ht hqueue hawake =>
        have hdue : t.due = s.due := by rw [due, due, ht]
        rw [hqueue, hawake, hdue]
        omega
    | pop ht hqueue hawake =>
        have hdue : t.due = s.due := by rw [due, due, ht]
        rw [hqueue, hdue, List.length_tail]
        omega

/-- Nobody is awake and no signal is due when all are blocked. -/
theorem Requests.Quiescent.none (hquiet : s.Quiescent) : s.awake.card = 0 ∧ s.due = 0 := by
  obtain ⟨hmain, hworkers⟩ := hquiet
  have hnone : s.awake = ∅ := by
    ext w
    simp [mem_awake, hworkers]
  exact ⟨by rw [hnone, Finset.card_empty], by simp [due, hmain]⟩

/-- **When no request is stranded.**  Once all workers are blocked in
`pthread_cond_wait` and `main` in `accept`, the queue is empty if every signal
so far was sent while some worker waited; and only if so, as long as nobody
wakes up but for a signal. -/
theorem queue_empty_iff (run : Run (requests cond n) past s) (hquiet : s.Quiescent) :
    (Machine.StepsMeet Heard past → s.queue = []) ∧
      (cond = .exact → (s.queue = [] ↔ Machine.StepsMeet Heard past)) := by
  obtain ⟨hnone, hdue⟩ := hquiet.none
  constructor
  · intro hheard
    have hle := queue_length_le run hheard
    rw [hnone, hdue] at hle
    exact List.length_eq_zero_iff.mp (Nat.le_zero.mp hle)
  · intro hexact
    subst hexact
    have hlength := queue_length run
    rw [hnone, hdue] at hlength
    rw [← unheard_eq_zero_iff run, ← List.length_eq_zero_iff, hlength]
    omega

/-- The theorem at a worker that waits for its request. -/
theorem queue_empty_iff_served : ∃ past s, Run (requests .exact 1) past s ∧
    (s.Quiescent ∧ s.popped = [(0, some 0)]) ∧
      (Machine.StepsMeet Heard past → s.queue = []) ∧
        (CondVar.exact = .exact → (s.queue = [] ↔ Machine.StepsMeet Heard past)) := by
  obtain ⟨past, s, run, hserved⟩ := Machine.exists_run_of_trace (M := requests .exact 1) rfl
    [.wait 0, .accept, .push, .signal [0], .pop 0, .wait 0]
    (fun _ s => s.Quiescent ∧ s.popped = [(0, some 0)]) (by decide)
  exact ⟨past, s, run, hserved, queue_empty_iff run hserved.1⟩

/-- A request that comes while the only worker is busy is left behind. -/
theorem request_stranded :
    ¬ ∀ (n : Nat) past s, Run (requests .exact n) past s → s.Quiescent → s.queue = [] := by
  intro h
  obtain ⟨past, s, run, hquiet, hqueue⟩ := Machine.exists_run_of_trace (M := requests .exact 1) rfl
    [.wait 0, .accept, .push, .signal [0], .pop 0, .accept, .push, .signal [], .wait 0]
    (fun _ s => s.Quiescent ∧ s.queue = [1]) (by decide)
  simp [h 1 past s run hquiet] at hqueue

/-! ### Pops of an empty queue -/

/-- The connection that `main` has accepted and not pushed yet. -/
def Requests.pending (s : Requests n) : List Nat :=
  match s.main with
  | .push req => [req]
  | _ => []

/-- A pop finds a request. -/
def Finds (_ : Past (Requests n) (RequestEvent n)) (s : Requests n) (e : RequestEvent n) : Prop :=
  ∀ w, e = .pop w → s.queue ≠ []

/-- **No worker pops an empty queue**, and every connection is popped by one
worker or still to come: those popped, those queued and the one about to be
pushed are those accepted, in order. -/
def HandledOnce (past : Past (Requests n) (RequestEvent n)) (s : Requests n) : Prop :=
  Machine.StepsMeet Finds past ∧
    s.popped.map Prod.snd ++ (s.queue ++ s.pending).map some = (List.range s.accepted).map some

/-- A wakeup leaves no more workers awake than there are requests queued. -/
def Covered (_ : Past (Requests n) (RequestEvent n)) (s : Requests n) (e : RequestEvent n) : Prop :=
  match e with
  | .signal woken => s.awake.card + woken.length ≤ s.queue.length
  | .spurious _ => s.awake.card + 1 ≤ s.queue.length
  | _ => True

instance (past : Past (Requests n) (RequestEvent n)) (s : Requests n) (e : RequestEvent n) :
    Decidable (Covered past s e) := by
  unfold Covered
  split <;> infer_instance

/-- If every wakeup is covered there is a request for every worker awake. -/
theorem awake_le_queue (run : Run (requests cond n) past s)
    (hmeet : Machine.StepsMeet Covered past) : s.awake.card ≤ s.queue.length := by
  refine run.invariant_of_meet (P := fun _ s => s.awake.card ≤ s.queue.length) (fun s hs => ?_)
    (fun past s e t _ hcovered hle hstep => ?_) hmeet
  · obtain rfl : s = start n := hs
    have hnone : (start n).awake = ∅ := by
      ext w
      simp [mem_awake, start]
    rw [hnone]
    exact Nat.zero_le _
  · cases step_moves hstep with
    | accept _ _ hqueue hawake | wait _ hqueue hawake =>
        rw [hqueue, hawake]
        exact hle
    | push _ _ hqueue hawake =>
        rw [hqueue, hawake, List.length_append]
        exact Nat.le_add_right_of_le hle
    | signal _ _ _ hqueue hawake | spurious _ _ hqueue hawake =>
        rw [hqueue, hawake]
        exact hcovered
    | pop _ hqueue hawake =>
        rw [hqueue, List.length_tail]
        omega

/-- A worker that pops is awake, so its request is there. -/
theorem queue_ne_nil_of_pop {w : Fin n} (hle : s.awake.card ≤ s.queue.length)
    (h : s.step cond (.pop w) = some t) : s.queue ≠ [] := by
  intro hnil
  cases step_moves h with
  | pop _ _ hawake =>
      rw [hnil, List.length_nil] at hle
      omega

/-- The connections stay in order as long as every pop finds one. -/
theorem order_step (h : s.step cond e = some t) (hfinds : Finds past s e)
    (horder : s.popped.map Prod.snd ++ (s.queue ++ s.pending).map some =
      (List.range s.accepted).map some) :
    t.popped.map Prod.snd ++ (t.queue ++ t.pending).map some =
      (List.range t.accepted).map some := by
  cases step_moves h with
  | accept hmain ht hqueue _ haccepted hpopped =>
      have hnone : s.pending = [] := by simp [pending, hmain]
      rw [hnone, List.append_nil] at horder
      have hreq : t.pending = [s.accepted] := by simp [pending, ht]
      rw [hqueue, hpopped, haccepted, hreq, List.range_succ, List.map_append, List.map_append,
        ← List.append_assoc, horder]
  | @push t req hmain ht hqueue _ haccepted hpopped =>
      have hreq : s.pending = [req] := by simp [pending, hmain]
      have hnone : t.pending = [] := by simp [pending, ht]
      rw [hqueue, hpopped, haccepted, hnone, List.append_nil, ← hreq]
      exact horder
  | signal hmain _ ht hqueue _ haccepted hpopped =>
      have hnone : s.pending = [] := by simp [pending, hmain]
      have hnone' : t.pending = [] := by simp [pending, ht]
      rw [hqueue, hpopped, haccepted, hnone', ← hnone]
      exact horder
  | wait ht hqueue _ haccepted hpopped | spurious _ ht hqueue _ haccepted hpopped =>
      have hsame : t.pending = s.pending := by rw [pending, pending, ht]
      rw [hqueue, hpopped, haccepted, hsame]
      exact horder
  | @pop t w ht hqueue _ haccepted hpopped =>
      have hsame : t.pending = s.pending := by rw [pending, pending, ht]
      cases hs : s.queue with
      | nil => exact absurd hs (hfinds w rfl)
      | cons req rest =>
          rw [hqueue, hpopped, haccepted, hsame, ← horder, hs]
          simp

/-- **When no worker pops an empty queue.**  With condition variables as POSIX
specifies them: if every wakeup, by a signal or without one, finds more
requests queued than workers awake, then no pop finds the queue empty, and
every connection is handled by exactly one worker. -/
theorem handledOnce_of_covered (run : Run (requests .posix n) past s)
    (hmeet : Machine.StepsMeet Covered past) : HandledOnce past s := by
  induction run with
  | init hs =>
      obtain rfl : _ = start n := hs
      exact ⟨trivial, rfl⟩
  | @step past s t e run h ih =>
      obtain ⟨hsteps, horder⟩ := ih hmeet.2
      have hfinds : Finds past s e := by
        intro w heq
        subst heq
        have hpop : s.step .posix (.pop w) = some t := h
        exact queue_ne_nil_of_pop (awake_le_queue run hmeet.2) hpop
      exact ⟨⟨hfinds, hsteps⟩, order_step h hfinds horder⟩

/-- The theorem at a worker that is woken up for its request. -/
theorem handledOnce_of_covered_served : ∃ past s, Run (requests .posix 2) past s ∧
    s.popped = [(1, some 0)] ∧ HandledOnce past s := by
  obtain ⟨past, s, run, hserved, hmeet⟩ := Machine.exists_run_of_trace (M := requests .posix 2) rfl
    [.wait 0, .wait 1, .accept, .push, .signal [1], .pop 1]
    (fun past s => s.popped = [(1, some 0)] ∧ Machine.StepsMeet Covered past) (by decide)
  exact ⟨past, s, run, hserved, handledOnce_of_covered run hmeet⟩

/-- A worker that wakes up without a signal pops the empty queue. -/
theorem pops_empty : ¬ ∀ (n : Nat) past s, Run (requests .posix n) past s → HandledOnce past s := by
  intro h
  obtain ⟨past, s, run, hpopped⟩ := Machine.exists_run_of_trace (M := requests .posix 1) rfl
    [.wait 0, .spurious 0, .pop 0] (fun _ s => s.popped = [(0, none)] ∧ s.accepted = 0)
    (by decide)
  have horder := (h 1 past s run).2
  simp [hpopped] at horder

/-- With exact condition variables every wakeup is covered. -/
theorem covered_of_exact (run : Run (requests .exact n) past s) :
    Machine.StepsMeet Covered past := by
  induction run with
  | init => trivial
  | @step past s t e run h ih =>
      refine ⟨?_, ih⟩
      have hlength := queue_length run
      cases step_moves h with
      | accept | push | wait | pop => trivial
      | signal hmain hmay =>
          have hone := hmay.2.2.2 rfl
          have hdue : s.due = 1 := if_pos hmain
          simp only [Covered]
          omega
      | spurious hcond => exact absurd hcond (by decide)

end Server
