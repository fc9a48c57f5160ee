import OSN.Kernel.PipeFifo
import OSN.Kernel.Waitx

/-!
# What a `piperead` loses

`piperead` takes a byte out of the pipe before it copies it to the user.  When the
copy fails the byte is in neither place, and the count does not mention it.
-/

namespace Xv6

namespace PipeBuffer

/-- The bytes in the pipe, the one to be read next first. -/
def bytes (pi : PipeBuffer) : List UInt8 :=
  Ring.segment PIPESIZE.toNat (pi.nread.toNat % PIPESIZE.toNat) (pi.nwrite - pi.nread).toNat pi.data

/-- `pi->nread++`. -/
def consume (pi : PipeBuffer) : PipeBuffer := { pi with toPipe := pi.toPipe.take }

variable {pi : PipeBuffer}

theorem bytes_nil (h : pi.drained = true) : pi.bytes = [] := by
  have heq : pi.nread = pi.nwrite := eq_of_beq h
  rw [bytes, heq, UInt32.sub_self]
  rfl

/-- The next byte, and the bytes behind it. -/
theorem bytes_cons (h : pi.drained = false) : pi.bytes = pi.next :: pi.consume.bytes := by
  have hne : pi.nread.toNat ≠ pi.nwrite.toNat := fun heq =>
    ne_of_beq_false h (UInt32.toNat_inj.mp heq)
  have hread := pi.nread.toNat_lt
  have hwrite := pi.nwrite.toNat_lt
  have hcount : (pi.nwrite - pi.nread).toNat = (pi.nwrite - (pi.nread + 1)).toNat + 1 := by
    have hone : (1 : UInt32).toNat = 1 := rfl
    rw [UInt32.toNat_sub, UInt32.toNat_sub, UInt32.toNat_add, hone]
    omega
  have hnext : (pi.nread + 1).toNat % PIPESIZE.toNat =
      (pi.nread.toNat % PIPESIZE.toNat + 1) % PIPESIZE.toNat := by
    rw [UInt32.toNat_add, Nat.mod_mod_of_dvd _ PIPESIZE_dvd, Nat.mod_add_mod]
    rfl
  have hfirst : pi.next = pi.data (pi.nread.toNat % PIPESIZE.toNat) := by
    rw [next, UInt32.toNat_mod]
  rw [bytes, hcount, Ring.segment_succ_first (Nat.mod_lt _ (by decide)), ← hnext, hfirst]
  rfl

theorem drained_iff : pi.drained = true ↔ pi.bytes = [] := by
  constructor
  · exact bytes_nil
  · intro hnil
    by_contra hsome
    rw [bytes_cons (Bool.eq_false_of_not_eq_true hsome)] at hnil
    cases hnil

end PipeBuffer

/-- They are the queue of the pipe. -/
theorem PipeCalls.Queue.bytes_eq {N : Nat} {s : PipeCalls N} {pending : List UInt8}
    (h : s.Queue pending) : s.bytes = pending := by
  have hcount : (s.nwrite - s.nread).toNat = pending.length := by
    rw [UInt32.toNat_sub, Nat.add_comm]
    exact h.window.length_eq PIPESIZE_lt
  rw [PipeBuffer.bytes, hcount]
  exact h.window.cells

/-- The second loop of `piperead`; `left` is `n - i`. -/
def pipereadCopy (addr : UInt64) : (left i : Nat) → PipeBuffer → UserMem →
    Nat × PipeBuffer × UserMem
  | 0, i, pi, m => (i, pi, m)
  | left + 1, i, pi, m =>
      if pi.drained then (i, pi, m)
      else
        let ch := pi.next
        let pi := pi.consume
        let (r, m) := m.copyout (addr + UInt64.ofNat i) [ch]
        if r = -1 then (i, pi, m) else pipereadCopy addr left (i + 1) pi m

/-- A pass is a step of the machine of all the calls. -/
theorem PipeCalls.take_consumes {N : Nat} {s : PipeCalls N} {p : Fin N} {n i : Int}
    (hcall : s.call p = .copy n i) (hi : i < n) (hsome : s.drained = false) (delivered : Bool) :
    ∃ t, s.take p delivered = some t ∧ t.toPipeBuffer = s.toPipeBuffer.consume := by
  unfold PipeCalls.take
  rw [hcall]
  dsimp only
  rw [if_pos ⟨hi, by simp [hsome]⟩]
  cases delivered with
  | true => exact ⟨_, rfl, rfl⟩
  | false => exact ⟨_, rfl, rfl⟩

/-- `piperead`, with its return value; `passes` are the pipes that the passes of its first
loop find, and whether the process is killed then.  It sleeps between any two. -/
def piperead (addr : UInt64) (n : Int) (m : UserMem) :
    List (PipeBuffer × Bool) → Except Stuck (Int × PipeBuffer × UserMem)
  | [] => .error .noreturn
  | (pi, killed) :: passes =>
      if pi.drained ∧ pi.writeopen then
        if killed then .ok (-1, pi, m) else piperead addr n m passes
      else
        let (i, pi, m) := pipereadCopy addr n.toNat 0 pi m
        .ok (i, pi, m)

/-- The pipe that ends the first loop, or in which the call finds that it is killed. -/
def awaited (passes : List (PipeBuffer × Bool)) : Option PipeBuffer :=
  (passes.find? fun (pi, killed) => ¬ (pi.drained ∧ pi.writeopen) ∨ killed).map Prod.fst

/-- **A call that returns `r` loses nothing**: it has removed `r` bytes and stored them. -/
def LosesNothing (pi : PipeBuffer) (addr : UInt64) (m : UserMem) (r : Int) (pi' : PipeBuffer)
    (m' : UserMem) : Prop :=
  0 ≤ r → r.toNat ≤ pi.bytes.length ∧ pi'.bytes = pi.bytes.drop r.toNat ∧
    m' = m.write addr.toNat (pi.bytes.take r.toNat)

variable {addr : UInt64} {m : UserMem} {pi : PipeBuffer} {left i : Nat} {n : Int}
  {passes : List (PipeBuffer × Bool)}

/-- Where the next byte goes, when those before it have got to their places. -/
theorem next_address (h : m.Writable addr.toNat i) :
    (addr + UInt64.ofNat i).toNat = addr.toNat + i := by
  have haddr := addr.toNat_lt
  have hlt : addr.toNat + i < 2 ^ 64 := by
    rcases Nat.eq_zero_or_pos i with rfl | hpos
    · exact haddr
    · have hlast := m.mapped_lt _ (h (i - 1) (by omega))
      unfold PGSIZE MAXVA at hlast
      omega
  rw [UInt64.toNat_add, UInt64.toNat_ofNat', Nat.mod_eq_of_lt (show i < 2 ^ 64 by omega),
    Nat.mod_eq_of_lt hlt]

/-- One byte is copied, or not. -/
theorem copyout_byte (ch : UInt8) (h : m.Writable addr.toNat i) :
    m.copyout (addr + UInt64.ofNat i) [ch] =
      if m.mapped ((addr.toNat + i) / PGSIZE) = true then (0, m.write (addr.toNat + i) [ch])
      else (-1, m) := by
  have hwritable : m.Writable (addr.toNat + i) [ch].length ↔
      m.mapped ((addr.toNat + i) / PGSIZE) = true := by
    rw [List.length_singleton, UserMem.writable_succ]
    exact and_iff_left fun j hj => absurd hj (Nat.not_lt_zero j)
  unfold UserMem.copyout
  rw [next_address h, UserMem.copyoutLoop_eq (Nat.le_refl _), UserMem.reached, UserMem.reached]
  by_cases hmapped : m.mapped ((addr.toNat + i) / PGSIZE) = true
  · rw [if_pos (hwritable.mpr hmapped), if_pos hmapped, if_pos hmapped]
  · rw [if_neg fun hall => hmapped (hwritable.mp hall), if_neg hmapped, if_neg hmapped,
      UserMem.write_nil]

/-- **The second loop of `piperead`.**  `l` are the bytes that it gets to.  It moves those
before the first page that is not there, and one more is gone if there is such a page. -/
theorem pipereadCopy_eq {l : List UInt8} (hl : l = pi.bytes.take left)
    (h : m.Writable addr.toNat i) :
    ∃ k pi' m', pipereadCopy addr left i pi m = (i + k, pi', m') ∧ k ≤ l.length ∧
      m' = m.write (addr.toNat + i) (l.take k) ∧
      (m.Writable (addr.toNat + i) l.length ∧ k = l.length ∧ pi'.bytes = pi.bytes.drop k ∨
        ¬ m.Writable (addr.toNat + i) l.length ∧ k < l.length ∧
          pi'.bytes = pi.bytes.drop (k + 1)) := by
  induction left generalizing i pi m l with
  | zero =>
      rw [List.take_zero] at hl
      subst hl
      exact ⟨0, pi, m, rfl, Nat.le_refl _, UserMem.write_nil.symm,
        Or.inl ⟨fun j hj => absurd hj (Nat.not_lt_zero j), rfl, rfl⟩⟩
  | succ left ih =>
      unfold pipereadCopy
      by_cases hdrained : pi.drained = true
      · rw [PipeBuffer.bytes_nil hdrained, List.take_nil] at hl
        subst hl
        rw [if_pos hdrained]
        exact ⟨0, pi, m, rfl, Nat.le_refl _, UserMem.write_nil.symm,
          Or.inl ⟨fun j hj => absurd hj (Nat.not_lt_zero j), rfl, rfl⟩⟩
      · have hcons := PipeBuffer.bytes_cons (Bool.eq_false_of_not_eq_true hdrained)
        rw [hcons, List.take_succ_cons] at hl
        rw [if_neg hdrained]
        dsimp only
        rw [copyout_byte pi.next h]
        by_cases hmapped : m.mapped ((addr.toNat + i) / PGSIZE) = true
        · have hnext : (m.write (addr.toNat + i) [pi.next]).Writable addr.toNat (i + 1) := by
            intro j hj
            rcases Nat.lt_succ_iff_lt_or_eq.mp hj with hless | rfl
            · exact h j hless
            · exact hmapped
          obtain ⟨k, pi', m', hrun, hk, hm', hpi'⟩ := ih rfl hnext
          have hall : m.Writable (addr.toNat + i) l.length ↔ (m.write (addr.toNat + i)
              [pi.next]).Writable (addr.toNat + (i + 1)) (pi.consume.bytes.take left).length := by
            rw [hl, List.length_cons, UserMem.writable_succ]
            exact and_iff_right hmapped
          refine ⟨k + 1, pi', m', ?_, ?_, ?_, ?_⟩
          · rw [if_pos hmapped]
            dsimp only
            rw [if_neg (by decide), hrun, Nat.add_assoc, Nat.add_comm 1 k]
          · rw [hl, List.length_cons]
            exact Nat.succ_le_succ hk
          · rw [hm', hl, List.take_succ_cons, ← Nat.add_assoc]
            exact UserMem.write_append.symm
          · rw [hall, hl, List.length_cons, hcons, List.drop_succ_cons, List.drop_succ_cons]
            exact hpi'.imp (fun hpart => ⟨hpart.1, congrArg Nat.succ hpart.2.1, hpart.2.2⟩)
              fun hpart => ⟨hpart.1, Nat.succ_lt_succ hpart.2.1, hpart.2.2⟩
        · have hnot : ¬ m.Writable (addr.toNat + i) l.length := by
            rw [hl, List.length_cons, UserMem.writable_succ]
            exact fun hall => hmapped hall.1
          rw [if_neg hmapped]
          refine ⟨0, pi.consume, m, rfl, Nat.zero_le _, UserMem.write_nil.symm,
            Or.inr ⟨hnot, ?_, ?_⟩⟩
          · rw [hl, List.length_cons]
            exact Nat.succ_pos _
          · rw [hcons]
            rfl

/-- The passes of the first loop. -/
theorem piperead_awaited (h : awaited passes = some pi) :
    piperead addr n m passes = .ok (-1, pi, m) ∧ pi.bytes = [] ∨
      piperead addr n m passes = .ok ((pipereadCopy addr n.toNat 0 pi m).1,
        (pipereadCopy addr n.toNat 0 pi m).2) := by
  induction passes with
  | nil => cases h
  | cons pass passes ih =>
      obtain ⟨first, killed⟩ := pass
      unfold awaited at h
      rw [List.find?_cons] at h
      unfold piperead
      by_cases hwait : first.drained = true ∧ first.writeopen = true
      · rw [if_pos hwait]
        cases killed with
        | true =>
            simp only [or_true, decide_true, Option.map_some, Option.some.injEq] at h
            rw [← h]
            exact Or.inl ⟨rfl, PipeBuffer.bytes_nil hwait.1⟩
        | false =>
            simp only [hwait, and_self, not_true_eq_false, Bool.false_eq_true, or_self,
              decide_false] at h
            exact ih h
      · simp only [hwait, not_false_eq_true, true_or, decide_true, Option.map_some,
          Option.some.injEq] at h
        rw [if_neg hwait, h]
        exact Or.inr rfl

/-- **A `piperead` loses nothing** just when the bytes that it gets to all have a place. -/
theorem piperead_losesNothing_iff (addr : UInt64) (n : Int) (m : UserMem)
    (h : awaited passes = some pi) :
    ∃ r pi' m', piperead addr n m passes = .ok (r, pi', m') ∧
      (LosesNothing pi addr m r pi' m' ↔
        m.Writable addr.toNat (min n.toNat pi.bytes.length)) := by
  rcases piperead_awaited h with ⟨hrun, hnil⟩ | hrun
  · refine ⟨-1, pi, m, hrun, iff_of_true (fun hneg => absurd hneg (by decide)) ?_⟩
    rw [hnil, List.length_nil, Nat.min_zero]
    exact fun j hj => absurd hj (Nat.not_lt_zero j)
  · have hnone : m.Writable addr.toNat 0 := fun j hj => absurd hj (Nat.not_lt_zero j)
    obtain ⟨k, pi', m', hcopy, hk, hm', hpi'⟩ :=
      pipereadCopy_eq (l := pi.bytes.take n.toNat) rfl hnone
    rw [hcopy, Nat.zero_add] at hrun
    rw [Nat.add_zero, List.length_take] at hpi'
    rw [List.length_take] at hk
    refine ⟨k, pi', m', hrun, ?_⟩
    rcases hpi' with ⟨hall, -, hdrop⟩ | ⟨hnot, hless, hdrop⟩
    · refine iff_of_true (fun _ => ⟨?_, hdrop, ?_⟩) hall
      · exact Nat.le_trans hk (Nat.min_le_right _ _)
      · rw [hm', Nat.add_zero, List.take_take]
        congr 2
        exact Nat.min_eq_left (Nat.le_trans hk (Nat.min_le_left _ _))
    · refine iff_of_false (fun hkeeps => ?_) hnot
      obtain ⟨-, hsame, -⟩ := hkeeps (Int.natCast_nonneg k)
      have hlength := congrArg List.length (hsame.symm.trans hdrop)
      rw [Int.toNat_natCast, List.length_drop, List.length_drop] at hlength
      omega

/-- A pipe with the bytes 7 and 8. -/
def twoBytes : PipeBuffer where
  nread := 0
  nwrite := 2
  readopen := true
  writeopen := true
  data := fun i => if i = 0 then 7 else 8

/-- A memory with no page. -/
def noPages : UserMem := ⟨fun _ => false, fun _ => 0, fun _ h => absurd h Bool.false_ne_true⟩

/-- One byte is read to address 0, which is not mapped: the byte 7 is gone. -/
theorem piperead_loses : ∃ pi' m', piperead 0 1 noPages [(twoBytes, false)] = .ok (0, pi', m') ∧
    ¬ LosesNothing twoBytes 0 noPages 0 pi' m' := by
  refine ⟨twoBytes.consume, noPages, rfl, fun hkeeps => ?_⟩
  have hsame := (hkeeps (by decide)).2.1
  exact absurd hsame (by decide)

/-- A memory with the first page. -/
def firstPage : UserMem where
  mapped i := i = 0
  byte _ := 0
  mapped_lt := by
    intro i hi
    rw [of_decide_eq_true hi]
    decide

theorem piperead_losesNothing_two : ∃ r pi' m',
    piperead 0 5 firstPage [(twoBytes, false)] = .ok (r, pi', m') ∧
      LosesNothing twoBytes 0 firstPage r pi' m' := by
  obtain ⟨r, pi', m', hrun, hiff⟩ := piperead_losesNothing_iff 0 5 firstPage
    (show awaited [(twoBytes, false)] = some twoBytes from rfl)
  exact ⟨r, pi', m', hrun, hiff.mpr (by decide)⟩

end Xv6
