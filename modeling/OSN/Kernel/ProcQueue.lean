import OSN.Kernel.Proc
import OSN.Lib.Ring

/-!
# The MLFQ ring buffer

`ProcQueue` of proc.h with `ProcQueueEnqueue`, `ProcQueueDequeue` and
`ProcQueueRemove` of proc.c, over any type of pointers.  A queue is empty when
`front == rear == -1`; `pq_init` sets both to 0 instead, which says that the
null pointer in `list[0]` is queued.  `Holds q es` says that the queue holds
exactly the entries `es`, null pointers included, and every operation is
specified through it.
-/

namespace Xv6

/-- `ProcQueue` of proc.h.  A null pointer in `list` is `none`. -/
structure ProcQueue (α : Type) where
  front : Int
  rear : Int
  list : Nat → Option α

variable {α : Type}

/-- The body of the loop of `pq_init`. -/
def pqInit : ProcQueue α := { front := 0, rear := 0, list := fun _ => none }

/-- `ProcQueueEnqueue`. -/
def procQueueEnqueue (q : ProcQueue α) (p : α) : ProcQueue α :=
  let front := if q.front = -1 then q.front + 1 else q.front
  let rear := (q.rear + 1).tmod NPROC
  { front := front, rear := rear, list := Function.update q.list rear.toNat (some p) }

/-- `ProcQueueDequeue`, with the pointer it returns. -/
def procQueueDequeue (q : ProcQueue α) : Option α × ProcQueue α :=
  if q.front = -1 then (none, q)
  else
    let ret := q.list q.front.toNat
    if q.front = q.rear then
      (ret, { front := -1, rear := -1, list := Function.update q.list q.front.toNat none })
    else (ret, { q with front := (q.front + 1).tmod NPROC })

/-- The loop `while(i<q->rear)` of `ProcQueueRemove`, for at most `fuel` passes.
Its body moves the entry of `pid` one place towards `rear`; nothing in it
advances `i`.  `none`: out of fuel, or a null pointer is dereferenced. -/
def removeLoop (pidOf : α → Int) (pid : Int) (i : Int) :
    Nat → ProcQueue α → Option (ProcQueue α)
  | 0, _ => none
  | fuel + 1, q =>
      if i < q.rear then
        match q.list i.toNat with
        | none => none
        | some p =>
            if pidOf p = pid then
              removeLoop pidOf pid i fuel { q with
                list := Function.update
                  (Function.update q.list i.toNat (q.list (i.toNat + 1))) (i.toNat + 1) (some p) }
            else removeLoop pidOf pid i fuel q
      else some q

/-- `ProcQueueRemove`.  `none`: it does not come back, or writes outside
`list`. -/
def procQueueRemove (fuel : Nat) (pidOf : α → Int) (q : ProcQueue α) (pid : Int) :
    Option (ProcQueue α) :=
  match removeLoop pidOf pid q.front fuel q with
  | none => none
  | some q =>
      if q.rear < 0 then none
      else some { q with list := Function.update q.list q.rear.toNat none, rear := q.rear - 1 }

/-- The live circular segment `front..rear`, oldest entry first. -/
def ProcQueue.live (q : ProcQueue α) : List (Option α) :=
  if q.front = -1 then []
  else Ring.segment NPROC q.front.toNat (((q.rear - q.front) % NPROC).toNat + 1) q.list

/-- The queue is well formed and holds exactly the entries `es`. -/
def Holds (q : ProcQueue α) (es : List (Option α)) : Prop :=
  (es = [] ∧ q.front = -1 ∧ q.rear = -1) ∨
  ∃ f : Nat, f < NPROC ∧ 0 < es.length ∧ es.length ≤ NPROC ∧ q.front = f ∧
    q.rear = ((f + es.length - 1) % NPROC : Nat) ∧
    Ring.segment NPROC f es.length q.list = es

/-- Advancing an index of the array with `% NPROC`. -/
theorem tmod_succ (i : Nat) : ((i : Int) + 1).tmod NPROC = ((i + 1) % NPROC : Nat) := by
  rw [Int.tmod_eq_emod_of_nonneg (by omega)]
  simp

section Operations

variable {q : ProcQueue α} {e : Option α} {es : List (Option α)} {p : α}

/-- A queue holds what is in its live segment. -/
theorem Holds.live_eq (h : Holds q es) : q.live = es := by
  rcases h with ⟨rfl, hfront, -⟩ | ⟨f, hf, hpos, hle, hfront, hrear, hseg⟩
  · simp [ProcQueue.live, hfront]
  · have hne : q.front ≠ -1 := by omega
    have hcount : ((q.rear - q.front) % NPROC).toNat + 1 = es.length := by
      rw [hrear, hfront]
      unfold NPROC at *
      omega
    rw [ProcQueue.live, if_neg hne, hcount, hfront, Int.toNat_natCast, hseg]

/-- What a queue holds is determined by the queue. -/
theorem Holds.unique {es' : List (Option α)} (h : Holds q es) (h' : Holds q es') : es = es' :=
  h.live_eq.symm.trans h'.live_eq

/-- `pq_init` builds a queue that holds one null pointer. -/
theorem pqInit_holds : Holds (pqInit : ProcQueue α) [none] := by
  refine Or.inr ⟨0, NPROC_pos, by simp, NPROC_pos, rfl, by simp [pqInit], ?_⟩
  simp [Ring.segment, pqInit]

/-- **Enqueue.**  With room for one more entry, the new one comes last. -/
theorem Holds.enqueue (h : Holds q es) (hroom : es.length < NPROC) :
    Holds (procQueueEnqueue q p) (es ++ [some p]) := by
  rcases h with ⟨rfl, hfront, hrear⟩ | ⟨f, hf, hpos, hle, hfront, hrear, hseg⟩
  · refine Or.inr ⟨0, NPROC_pos, by simp, NPROC_pos, ?_, ?_, ?_⟩
    · simp [procQueueEnqueue, hfront]
    · simp [procQueueEnqueue, hrear]
    · simp [procQueueEnqueue, hrear, Ring.segment]
  · have hlast : (q.rear + 1).tmod NPROC = ((f + es.length) % NPROC : Nat) := by
      rw [hrear, tmod_succ, Ring.last_index_succ hpos]
    refine Or.inr ⟨f, hf, by simp, by simp; omega, ?_, ?_, ?_⟩
    · simp [procQueueEnqueue, hfront]
    · simp [procQueueEnqueue, hlast, ← Nat.add_assoc]
    · simp only [procQueueEnqueue, hlast, Int.toNat_natCast, List.length_append,
        List.length_singleton]
      rw [Ring.segment_push hroom, hseg]

/-- **Dequeue of an empty queue.**  Null, and nothing changes. -/
theorem Holds.dequeue_nil (h : Holds q []) : procQueueDequeue q = (none, q) := by
  rcases h with ⟨-, hfront, -⟩ | ⟨f, hf, hpos, -⟩
  · simp [procQueueDequeue, hfront]
  · simp at hpos

/-- Dequeue of the last entry marks the queue empty. -/
theorem procQueueDequeue_last (hne : q.front ≠ -1) (heq : q.front = q.rear) :
    procQueueDequeue q = (q.list q.front.toNat,
      { front := -1, rear := -1, list := Function.update q.list q.front.toNat none }) := by
  rw [procQueueDequeue, if_neg hne, if_pos heq]

/-- Dequeue of another entry moves `front` on. -/
theorem procQueueDequeue_more (hne : q.front ≠ -1) (hneq : q.front ≠ q.rear) :
    procQueueDequeue q = (q.list q.front.toNat,
      { q with front := (q.front + 1).tmod NPROC }) := by
  rw [procQueueDequeue, if_neg hne, if_neg hneq]

/-- **Dequeue.**  The oldest entry is returned and removed. -/
theorem Holds.dequeue_cons (h : Holds q (e :: es)) :
    (procQueueDequeue q).1 = e ∧ Holds (procQueueDequeue q).2 es := by
  rcases h with ⟨hnil, -⟩ | ⟨f, hf, -, hle, hfront, hrear, hseg⟩
  · simp at hnil
  · rw [List.length_cons, Ring.segment_succ_first hf, List.cons.injEq] at hseg
    obtain ⟨hhead, htail⟩ := hseg
    have hne : q.front ≠ -1 := by omega
    have hret : q.list q.front.toNat = e := by simpa [hfront] using hhead
    rw [List.length_cons] at hle hrear
    by_cases hlast : es = []
    · -- the last entry: the queue is marked empty
      subst hlast
      have heq : q.front = q.rear := by
        rw [hfront, hrear]
        simp [Nat.mod_eq_of_lt hf]
      rw [procQueueDequeue_last hne heq]
      exact ⟨hret, Or.inl ⟨rfl, rfl, rfl⟩⟩
    · have hpos : 0 < es.length := List.length_pos_of_ne_nil hlast
      have hneq : q.front ≠ q.rear := by
        rw [hfront, hrear]
        unfold NPROC at *
        omega
      rw [procQueueDequeue_more hne hneq]
      refine ⟨hret, Or.inr ⟨(f + 1) % NPROC, Nat.mod_lt _ NPROC_pos, hpos, by omega, ?_, ?_, htail⟩⟩
      · rw [hfront, tmod_succ]
      · rw [hrear]
        unfold NPROC at *
        omega

/-- The loop of `ProcQueueRemove` stops at once or never: neither `i` nor
`rear` changes in it. -/
theorem removeLoop_eq_none {pidOf : α → Int} {pid i : Int} (h : i < q.rear) (fuel : Nat) :
    removeLoop pidOf pid i fuel q = none := by
  induction fuel generalizing q with
  | zero => rfl
  | succ fuel ih =>
      simp only [removeLoop, h, reduceIte]
      split
      · rfl
      · split
        · exact ih h
        · exact ih h

/-- `ProcQueueRemove` never comes back from a segment that does not wrap and
has more than one entry, whatever the pid. -/
theorem procQueueRemove_diverges {pidOf : α → Int} (h : q.front < q.rear) (fuel : Nat)
    (pid : Int) : procQueueRemove fuel pidOf q pid = none := by
  simp [procQueueRemove, removeLoop_eq_none h]

/-- Where the loop does not run, `ProcQueueRemove` takes the last entry off,
whatever the pid. -/
theorem procQueueRemove_of_le {pidOf : α → Int} (h : q.rear ≤ q.front) (hrear : 0 ≤ q.rear)
    (fuel : Nat) (pid : Int) :
    procQueueRemove (fuel + 1) pidOf q pid =
      some { q with list := Function.update q.list q.rear.toNat none, rear := q.rear - 1 } := by
  have hloop : ¬ q.front < q.rear := by omega
  have hneg : ¬ q.rear < 0 := by omega
  simp [procQueueRemove, removeLoop, hloop, hneg]

/-- **Remove, where it works.**  The entry is the last of a wrapped segment
whose `rear` is not at index 0. -/
def RemovesLast (q : ProcQueue α) (p : α) : Prop :=
  q.rear < q.front ∧ 1 ≤ q.rear ∧ q.list q.rear.toNat = some p

instance [DecidableEq α] (q : ProcQueue α) (p : α) : Decidable (RemovesLast q p) := by
  unfold RemovesLast
  infer_instance

/-- There it removes exactly that entry. -/
theorem Holds.remove_last (h : Holds q es) (hlast : RemovesLast q p) (pidOf : α → Int)
    (fuel : Nat) (pid : Int) :
    ∃ q' fs, procQueueRemove (fuel + 1) pidOf q pid = some q' ∧ es = fs ++ [some p] ∧
      Holds q' fs := by
  obtain ⟨hwrap, hrear1, hentry⟩ := hlast
  rcases h with ⟨rfl, hfront, hrear⟩ | ⟨f, hf, hpos, hle, hfront, hrear, hseg⟩
  · omega
  · obtain ⟨m, hm⟩ : ∃ m, es.length = m + 2 := by
      refine ⟨es.length - 2, ?_⟩
      unfold NPROC at *
      omega
    have hidx : q.rear.toNat = (f + (m + 1)) % NPROC := by
      rw [hrear, hm]
      rfl
    have hes : es = Ring.segment NPROC f (m + 1) q.list ++ [some p] := by
      rw [← hseg, hm, Ring.segment_succ_last, ← hidx, hentry]
    refine ⟨_, es.dropLast, procQueueRemove_of_le (by omega) (by omega) fuel pid, ?_, ?_⟩
    · rw [hes, List.dropLast_concat]
    · refine Or.inr ⟨f, hf, ?_, ?_, hfront, ?_, ?_⟩
      · simp [hm]
      · simp; omega
      · have hr : q.rear = ((f + (m + 1)) % NPROC : Nat) := by
          rw [hrear, hm]
          rfl
        simp only [List.length_dropLast, hm, hr]
        unfold NPROC at *
        omega
      · have hlen : es.dropLast.length = m + 1 := by simp [hm]
        rw [hlen, hidx, Ring.segment_drop_last (by unfold NPROC at *; omega), ← hseg, hm]

/-- What is to be proved of `ProcQueueRemove`: it comes back, with the entry of
`pid` taken out and the others left in order, and with the queue as it was if
there is no such entry. -/
def RemovesEntry (pidOf : α → Int) (q : ProcQueue α) (es : List α) (pid : Int) : Prop :=
  ∃ fuel q', procQueueRemove fuel pidOf q pid = some q' ∧
    if pid ∈ es.map pidOf then Holds q' ((es.filter fun p => pidOf p ≠ pid).map some) else q' = q

/-- Of entries with distinct pids, all but the last are left without the pid of
the last. -/
theorem filter_last {pidOf : α → Int} {es : List α} (hdistinct : ((es ++ [p]).map pidOf).Nodup) :
    (es ++ [p]).filter (fun r => pidOf r ≠ pidOf p) = es := by
  have hnot : pidOf p ∉ es.map pidOf := by
    rw [List.map_append, List.nodup_append] at hdistinct
    intro hmem
    exact hdistinct.2.2 _ hmem _ (by simp) rfl
  have hkeep : es.filter (fun r => pidOf r ≠ pidOf p) = es := by
    apply List.filter_eq_self.mpr
    intro r hr
    simp only [decide_eq_true_eq]
    intro heq
    exact hnot (heq ▸ List.mem_map_of_mem hr)
  rw [List.filter_append, hkeep]
  simp

/-- The last entry stands at `rear`. -/
theorem Holds.rear_entry (h : Holds q (es ++ [e])) : 0 ≤ q.rear ∧ q.list q.rear.toNat = e := by
  rcases h with ⟨hnil, -, -⟩ | ⟨f, -, -, -, -, hrear, hseg⟩
  · simp at hnil
  · rw [List.length_append, List.length_singleton] at hrear hseg
    rw [Ring.segment_succ_last] at hseg
    obtain ⟨-, hlast⟩ := List.append_inj' hseg rfl
    have hidx : q.rear.toNat = (f + es.length) % NPROC := by
      rw [hrear, ← Nat.add_assoc, Nat.add_sub_cancel, Int.toNat_natCast]
    rw [hidx]
    exact ⟨by omega, by simpa using hlast⟩

/-- A queue that is not marked empty holds something. -/
theorem Holds.of_front_ne (h : Holds q es) (hfront : q.front ≠ -1) : es ≠ [] ∧ 0 ≤ q.rear := by
  rcases h with ⟨-, hneg, -⟩ | ⟨f, -, hpos, -, -, hrear, -⟩
  · exact absurd hneg hfront
  · exact ⟨List.ne_nil_of_length_pos hpos, by omega⟩

/-- A queue whose `front` and `rear` agree holds one entry at most. -/
theorem Holds.eq_nil_of_single (h : Holds q (es ++ [e])) (heq : q.front = q.rear) : es = [] := by
  rcases h with ⟨hnil, -, -⟩ | ⟨f, hf, -, hle, hfront, hrear, -⟩
  · simp at hnil
  · rw [List.length_append, List.length_singleton] at hle hrear
    have hlen : es.length = 0 := by
      unfold NPROC at *
      omega
    exact List.length_eq_zero_iff.mp hlen

/-- `ProcQueueRemove` comes back only from a queue that is not empty and whose
segment wraps or has one entry; `rear` then goes one place down. -/
theorem procQueueRemove_eq_some {pidOf : α → Int} {fuel : Nat} {pid : Int} {q' : ProcQueue α}
    (h : procQueueRemove fuel pidOf q pid = some q') :
    q.rear ≤ q.front ∧ 0 ≤ q.rear ∧
      q' = { q with list := Function.update q.list q.rear.toNat none, rear := q.rear - 1 } := by
  have hle : q.rear ≤ q.front := by
    by_contra hlt
    rw [procQueueRemove_diverges (by omega)] at h
    exact absurd h (by simp)
  have hloop : ¬ q.front < q.rear := by omega
  cases fuel with
  | zero => exact absurd h (by simp [procQueueRemove, removeLoop])
  | succ fuel =>
      have hpos : 0 ≤ q.rear := by
        by_contra hneg
        exact absurd h (by simp [procQueueRemove, removeLoop, hloop, Int.not_le.mp hneg])
      rw [procQueueRemove_of_le hle hpos, Option.some.injEq] at h
      exact ⟨hle, hpos, h.symm⟩

/-- **When `ProcQueueRemove` removes.**  Exactly if the live segment wraps,
does not end at index 0, and ends with the entry of `pid`. -/
theorem Holds.removesEntry_iff {pidOf : α → Int} {es : List α} (h : Holds q (es.map some))
    (hdistinct : (es.map pidOf).Nodup) (pid : Int) :
    RemovesEntry pidOf q es pid ↔ ∃ p, RemovesLast q p ∧ pidOf p = pid := by
  constructor
  · rintro ⟨fuel, q', hcall, hresult⟩
    obtain ⟨hle, hpos, hq'⟩ := procQueueRemove_eq_some hcall
    have hfront : q'.front = q.front := by rw [hq']
    have hrear : q'.rear = q.rear - 1 := by rw [hq']
    split at hresult
    · next hpid =>
        obtain ⟨fs, p, rfl⟩ : ∃ fs p, es = fs ++ [p] := by
          rcases List.eq_nil_or_concat es with rfl | hcat
          · simp at hpid
          · simpa using hcat
        rw [List.map_append] at h
        have hentry := (h.rear_entry).2
        have hne : q'.front ≠ -1 := by omega
        have hrear1 : 1 ≤ q.rear := by
          have := (Holds.of_front_ne hresult hne).2
          omega
        have hwrap : q.rear < q.front := by
          by_contra hnot
          -- a single entry is not followed by the mark of an empty queue
          obtain rfl : fs = [] := by simpa using h.eq_nil_of_single (by omega)
          have hpid' : pidOf p = pid := by simpa [eq_comm] using hpid
          exact (Holds.of_front_ne hresult hne).1 (by simp [hpid'])
        have hlast : RemovesLast q p := ⟨hwrap, hrear1, hentry⟩
        obtain ⟨q'', gs, hcall', hsplit, hholds⟩ := h.remove_last hlast pidOf 0 pid
        obtain ⟨rfl, -⟩ := List.append_inj' hsplit rfl
        have hsame : q'' = q' := (procQueueRemove_eq_some hcall').2.2.trans hq'.symm
        have hleft : (fs ++ [p]).filter (fun r => pidOf r ≠ pid) = fs :=
          List.map_injective_iff.mpr (Option.some_injective α)
            (Holds.unique hresult (hsame ▸ hholds))
        refine ⟨p, hlast, ?_⟩
        by_contra hother
        have hmem : p ∈ fs := by
          rw [← hleft]
          simp [hother]
        rw [List.map_append, List.nodup_append] at hdistinct
        exact hdistinct.2.2 _ (List.mem_map_of_mem hmem) _ (by simp) rfl
    · rw [hresult] at hrear
      omega
  · rintro ⟨p, hlast, rfl⟩
    obtain ⟨hwrap, hrear, hentry⟩ := hlast
    obtain ⟨fs, r, rfl⟩ : ∃ fs r, es = fs ++ [r] := by
      rcases List.eq_nil_or_concat es with rfl | hcat
      · rcases h with ⟨-, hfront, -⟩ | ⟨f, -, hpos, -⟩
        · omega
        · simp at hpos
      · simpa using hcat
    rw [List.map_append] at h
    have hr : some r = some p := (h.rear_entry).2.symm.trans hentry
    obtain rfl := Option.some.inj hr
    obtain ⟨q', gs, hcall, hsplit, hholds⟩ :=
      h.remove_last ⟨hwrap, hrear, hentry⟩ pidOf 0 (pidOf r)
    obtain ⟨rfl, -⟩ := List.append_inj' hsplit rfl
    refine ⟨1, q', hcall, ?_⟩
    rw [if_pos (by simp), filter_last hdistinct]
    exact hholds

/-- Two entries that do not wrap: the call does not come back. -/
theorem procQueueRemove_stuck :
    ¬ ∀ (pidOf : Slot → Int) (q : ProcQueue Slot) (es : List Slot), Holds q (es.map some) →
      (es.map pidOf).Nodup → ∀ pid, RemovesEntry pidOf q es pid := by
  intro hall
  let pidOf : Slot → Int := fun p => p.val + 1
  let q : ProcQueue Slot := { front := 0, rear := 1, list := fun i => [3, 5][i]? }
  have hholds : Holds q ([3, 5].map some) :=
    Or.inr ⟨0, by decide, by decide, by decide, rfl, by decide, by decide⟩
  obtain ⟨fuel, q', hcall, -⟩ := hall pidOf q [3, 5] hholds (by decide) 4
  rw [procQueueRemove_diverges (by decide)] at hcall
  exact absurd hcall (by simp)

/-- The theorem at a wrapped segment, for the pid of its last entry and for
that of its first. -/
theorem removesEntry_iff_wrapped :
    let pidOf : Slot → Int := fun p => p.val + 1
    let q : ProcQueue Slot :=
      { front := 63, rear := 1, list := fun i => if i = 63 then some 3 else [5, 7][i]? }
    RemovesEntry pidOf q [3, 5, 7] 8 ∧ ¬ RemovesEntry pidOf q [3, 5, 7] 4 := by
  intro pidOf q
  have hholds : Holds q ([3, 5, 7].map some) :=
    Or.inr ⟨63, by decide, by decide, by decide, rfl, by decide, by decide⟩
  have hdistinct : (([3, 5, 7] : List Slot).map pidOf).Nodup := by decide
  constructor
  · exact (Holds.removesEntry_iff hholds hdistinct 8).mpr ⟨7, by decide, by decide⟩
  · rw [Holds.removesEntry_iff hholds hdistinct 4]
    decide

end Operations

/-! ### Sequences of calls on one queue -/

/-- The pointers that the dequeue calls of a sequence return. -/
def ProcQueue.answers : ProcQueue α → List (QueueCall α) → List (Option α)
  | _, [] => []
  | q, .enqueue p :: rest => answers (procQueueEnqueue q p) rest
  | q, .dequeue :: rest => (procQueueDequeue q).1 :: answers (procQueueDequeue q).2 rest

/-- **The ring is a FIFO queue** from any state in which it holds what is
pending, as long as no more than `NPROC` entries are pending at once. -/
theorem Holds.answers_eq {q : ProcQueue α} {pending : List α} {calls : List (QueueCall α)}
    (h : Holds q (pending.map some)) (hwithin : Fifo.Within NPROC pending calls) :
    q.answers calls = Fifo.answers pending calls := by
  induction calls generalizing q pending with
  | nil => rfl
  | cons c rest ih =>
      obtain ⟨hroom, hrest⟩ := hwithin
      cases c with
      | enqueue p =>
          have hlt : (pending.map some).length < NPROC := by
            have hmore : pending.length + 1 ≤ NPROC := by simpa [Fifo.call] using hroom
            rw [List.length_map]
            exact hmore
          have hnext : Holds (procQueueEnqueue q p) ((pending ++ [p]).map some) := by
            simpa using h.enqueue hlt
          exact ih hnext hrest
      | dequeue =>
          cases pending with
          | nil =>
              have hdeq := Holds.dequeue_nil h
              simp only [ProcQueue.answers, Fifo.answers, hdeq, List.head?_nil, List.tail_nil]
              exact congrArg (none :: ·) (ih h hrest)
          | cons p pending =>
              obtain ⟨hret, hnext⟩ := Holds.dequeue_cons h
              simp only [ProcQueue.answers, Fifo.answers, hret, List.head?_cons, List.tail_cons]
              rw [ih hnext hrest]

/-- The ring after `pq_init` and a first enqueue: the null pointer of
`pq_init` is still ahead of what is pending, or it has been overwritten by the
`NPROC`th entry, or everything pending has been dropped by the dequeue call
that came next. -/
inductive Stale (q : ProcQueue α) (pending : List α) : Prop
  | behindNull (hpos : 0 < pending.length) (hlt : pending.length < NPROC)
      (h : Holds q (none :: pending.map some))
  | overrun (hlen : pending.length = NPROC) (hne : q.front ≠ -1) (heq : q.front = q.rear)
      (hlast : q.list q.front.toNat = pending.getLast?)
  | dropped (hlen : pending.length + 1 = NPROC) (h : Holds q [])

/-- `NPROC` entries are pending, and the newest pointer is also the oldest. -/
def FullTurn (pending : List α) : Prop :=
  pending.length = NPROC ∧ pending.head? = pending.getLast?

namespace Stale

variable {q : ProcQueue α} {pending : List α} {p : α}

theorem enqueue (h : Stale q pending) (hroom : pending.length + 1 ≤ NPROC) :
    Stale (procQueueEnqueue q p) (pending ++ [p]) := by
  cases h with
  | behindNull hpos hlt h =>
      by_cases hfull : pending.length + 1 < NPROC
      · refine .behindNull (by simp) (by simpa using hfull) ?_
        simpa using h.enqueue (p := p) (by simpa using hfull)
      · -- the ring is full, null pointer included: `rear` comes round to `front`
        have hlen : pending.length + 1 = NPROC := by omega
        rcases h with ⟨hnil, -⟩ | ⟨f, hf, -, -, hfront, hrear, -⟩
        · simp at hnil
        · have hturn : (q.rear + 1).tmod NPROC = f := by
            rw [hrear, tmod_succ, Ring.last_index_succ (by simp)]
            simp [hlen, Nat.mod_eq_of_lt hf]
          refine .overrun (by simpa using hlen) ?_ ?_ ?_
          · simp [procQueueEnqueue, hfront]
          · simp [procQueueEnqueue, hfront, hturn]
          · simp [procQueueEnqueue, hturn, hfront]
  | overrun hlen => omega
  | dropped hlen h =>
      rcases h with ⟨-, hfront, hrear⟩ | ⟨f, -, hpos, -⟩
      · refine .overrun (by simpa using hlen) ?_ ?_ ?_
        · simp [procQueueEnqueue, hfront]
        · simp [procQueueEnqueue, hfront, hrear]
        · simp [procQueueEnqueue, hfront, hrear]
      · simp at hpos

/-- A dequeue call is answered rightly only by accident. -/
theorem dequeue_right_iff (h : Stale q pending) :
    (procQueueDequeue q).1 = pending.head? ↔ FullTurn pending := by
  cases h with
  | behindNull hpos hlt h =>
      obtain ⟨x, rest, rfl⟩ := List.exists_cons_of_length_pos hpos
      have hret := h.dequeue_cons.1
      simp only [hret, List.head?_cons, reduceCtorEq, FullTurn, false_iff]
      omega
  | overrun hlen hne heq hlast =>
      simp [procQueueDequeue_last hne heq, FullTurn, hlen, hlast, eq_comm]
  | dropped hlen h =>
      have hpos : 0 < pending.length := by
        unfold NPROC at hlen
        omega
      obtain ⟨x, rest, rfl⟩ := List.exists_cons_of_length_pos hpos
      simp only [h.dequeue_nil, List.head?_cons, reduceCtorEq, FullTurn, false_iff]
      omega

theorem dequeue (h : Stale q pending) (hfull : FullTurn pending) :
    Stale (procQueueDequeue q).2 pending.tail := by
  have hlen := hfull.1
  cases h with
  | behindNull hpos hlt h => omega
  | overrun _ hne heq hlast =>
      rw [procQueueDequeue_last hne heq]
      refine .dropped ?_ (Or.inl ⟨rfl, rfl, rfl⟩)
      have := NPROC_pos
      simp only [List.length_tail]
      omega
  | dropped hlen' => omega

/-- From such a state the answers are right exactly if all are so by accident. -/
theorem answers_iff {calls : List (QueueCall α)} (h : Stale q pending)
    (hwithin : Fifo.Within NPROC pending calls) :
    q.answers calls = Fifo.answers pending calls ↔
      Fifo.AtDequeues FullTurn pending calls := by
  induction calls generalizing q pending with
  | nil => simp [ProcQueue.answers, Fifo.answers, Fifo.AtDequeues]
  | cons c rest ih =>
      obtain ⟨hroom, hrest⟩ := hwithin
      cases c with
      | enqueue p =>
          have hlt : pending.length + 1 ≤ NPROC := by simpa [Fifo.call] using hroom
          exact ih (h.enqueue hlt) hrest
      | dequeue =>
          simp only [ProcQueue.answers, Fifo.answers, Fifo.AtDequeues, List.cons.injEq,
            h.dequeue_right_iff]
          exact and_congr_right fun hfull => ih (h.dequeue hfull) hrest

end Stale

/-- The queue that `pq_init` builds does not answer as a FIFO queue: after one
enqueue the next dequeue call returns the null pointer. -/
theorem pqInit_not_fifo :
    ¬ ∀ calls : List (QueueCall Slot), Fifo.Within NPROC [] calls →
      pqInit.answers calls = Fifo.answers [] calls := by
  intro h
  have hwithin : Fifo.Within NPROC [] [QueueCall.enqueue (0 : Slot), .dequeue] := by
    simp [Fifo.Within, Fifo.call, NPROC]
  exact absurd (h _ hwithin) (by decide)

/-- **When the queue of `pq_init` is a FIFO queue.**  With at most `NPROC`
entries pending at once, every dequeue call returns the oldest pending
pointer, and null exactly if nothing is pending, if and only if the first call
is a dequeue, which takes the null pointer of `pq_init` off, or every dequeue
call finds `NPROC` entries pending of which the newest pointer is also the
oldest. -/
theorem pqInit_fifo_iff (calls : List (QueueCall α)) (hwithin : Fifo.Within NPROC [] calls) :
    pqInit.answers calls = Fifo.answers [] calls ↔
      calls.head? = some .dequeue ∨ Fifo.AtDequeues FullTurn [] calls := by
  cases calls with
  | nil => simp [ProcQueue.answers, Fifo.answers, Fifo.AtDequeues]
  | cons c rest =>
      cases c with
      | enqueue p =>
          have hfirst : Stale (procQueueEnqueue (pqInit : ProcQueue α) p) [p] :=
            .behindNull (by simp) (by simp [NPROC]) (pqInit_holds.enqueue (by simp [NPROC]))
          simpa [ProcQueue.answers, Fifo.answers, Fifo.AtDequeues] using
            hfirst.answers_iff hwithin.2
      | dequeue =>
          obtain ⟨hret, hnext⟩ := Holds.dequeue_cons (pqInit_holds : Holds (pqInit : ProcQueue α) _)
          have hrest : ProcQueue.answers _ rest = Fifo.answers [] rest :=
            Holds.answers_eq hnext hwithin.2
          simp [ProcQueue.answers, Fifo.answers, hret, hrest]

/-- The theorem at a sequence that primes the queue with a dequeue call. -/
theorem pqInit_fifo_iff_primed :
    (pqInit : ProcQueue Slot).answers [.dequeue, .enqueue 3, .enqueue 5, .dequeue] =
      [none, some 3] := by
  have hwithin : Fifo.Within NPROC []
      [QueueCall.dequeue, .enqueue (3 : Slot), .enqueue 5, .dequeue] := by
    simp [Fifo.Within, Fifo.call, NPROC]
  exact (pqInit_fifo_iff _ hwithin).mpr (Or.inl rfl)

end Xv6
