import OSN.Lib.Run
import OSN.Lib.Redo
import OSN.Lib.Headcount
import Mathlib.Data.UInt

/-!
# The log

System calls that write to the file system run between `begin_op` and
`end_op`.  `log_write` puts the number of a block into the log header in
memory, `log.lh`, and pins the block in the buffer cache.  When the last
operation ends, `commit` copies the blocks to the log, writes the header, which
makes the transaction count, copies the log to the blocks' homes and erases the
header.  After a crash `recover_from_log` copies what a header on disk speaks
of and erases it.

One event writes one block, so a crash may come between any two of them.
`log.lock` is held for no longer than a step, and a buffer only while its
process works on it.  The cache may hold any number of buffers.
-/

namespace Xv6

/-- The most blocks an operation writes. -/
def MAXOPBLOCKS : Nat := 10

/-- The most blocks in the header. -/
def LOGSIZE : Nat := MAXOPBLOCKS * 3

/-- The contents of a block of `BSIZE` bytes, in words of four. -/
abbrev Block := Fin 256 → UInt32

/-- What the superblock says of the log: `nlog` blocks from `logstart`, the
first of them for the header. -/
structure Superblock where
  logstart : UInt32
  nlog : Nat
  hasHeader : 0 < nlog
  fits : logstart.toNat + nlog ≤ 2 ^ 32

/-- The superblock that `mkfs` writes. -/
def mkfs : Superblock where
  logstart := 2
  nlog := LOGSIZE
  hasHeader := by decide
  fits := by decide

namespace Superblock

/-- The block `log.start + tail + 1`. -/
def logBlock (sb : Superblock) (tail : Nat) : UInt32 :=
  sb.logstart + UInt32.ofNat (tail + 1)

/-- A block outside the log. -/
def Home (sb : Superblock) (b : UInt32) : Prop :=
  b.toNat < sb.logstart.toNat ∨ sb.logstart.toNat + sb.nlog ≤ b.toNat

instance (sb : Superblock) (b : UInt32) : Decidable (sb.Home b) := by
  unfold Home
  infer_instance

end Superblock

/-- The header block with `lh` written over what it held: the number of blocks
in the first word, and the blocks in the next ones. -/
def headerBlock (lh : List UInt32) (old : Block) : Block :=
  fun w =>
    if w.val = 0 then UInt32.ofNat lh.length
    else
      match lh[w.val - 1]? with
      | some b => b
      | none => old w

/-- The header that a block holds.  A negative number of blocks counts as none,
and with more than `LOGSIZE` the copy would leave `log.lh.block`. -/
def readHeader (d : Block) : Option (List UInt32) :=
  if 2 ^ 31 ≤ (d 0).toNat then some []
  else if (d 0).toNat ≤ LOGSIZE then
    some ((List.range (d 0).toNat).map fun i => d (Fin.ofNat 256 (i + 1)))
  else none

/-- The log on a disk is empty: the header counts no blocks. -/
def EmptyLog (sb : Superblock) (disk : UInt32 → Block) : Prop :=
  disk sb.logstart 0 = 0

/-- What `commit` or `recover_from_log` does next. -/
inductive Stage where
  /-- Neither runs. -/
  | up
  | writeLog (tail : Nat)
  | writeHead
  | install (tail : Nat)
  | clear
  | readHead
  | reinstall (tail : Nat)
  | reclear
  deriving DecidableEq

/-- Where a process is. -/
inductive FsOp where
  | out
  /-- At the top of the loop of `begin_op`. -/
  | begins
  | asleep
  /-- In an operation that has passed these blocks to `log_write`. -/
  | runs (passed : List UInt32)
  /-- In `end_op`, with `do_commit` set. -/
  | commits
  deriving DecidableEq

/-- The disk, the buffer cache and the header in memory, with what is being
done to them. -/
structure LogStore where
  disk : UInt32 → Block
  /-- The valid buffers. -/
  cache : UInt32 → Option Block
  /-- The references that `bpin` holds. -/
  refcnt : UInt32 → Nat
  /-- `log.lh`, with its length for `log.lh.n`. -/
  lh : List UInt32
  stage : Stage

/-- The state of the log and of `n` processes. -/
structure Log (n : Nat) extends LogStore where
  outstanding : Int
  committing : Bool
  op : Fin n → FsOp
  /-- The text of the panic that has stopped the kernel. -/
  panicked : Option String

/-- One event. -/
inductive LogEvent (n : Nat) where
  /-- `begin_op`, up to where it returns or sleeps. -/
  | begin (p : Fin n)
  /-- `bread`, a change of the data to `d`, `log_write` and `brelse`. -/
  | write (p : Fin n) (b : UInt32) (d : Block)
  /-- `end_op`, up to where it returns or calls `commit`. -/
  | endOp (p : Fin n)
  /-- The next step of `commit` or `recover_from_log`. -/
  | disk
  /-- The end of `end_op` after `commit`. -/
  | finish (p : Fin n)
  /-- Some block is read into the cache. -/
  | load (b : UInt32)
  /-- The buffer of a block is recycled. -/
  | evict (b : UInt32)
  /-- The machine stops and boots again. -/
  | crash
  deriving DecidableEq

namespace LogStore

/-- `bread`. -/
def bread (s : LogStore) (b : UInt32) : Block :=
  (s.cache b).getD (s.disk b)

/-- `bwrite` of a buffer with contents `d`. -/
def bwrite (s : LogStore) (b : UInt32) (d : Block) : LogStore :=
  { s with
    cache := Function.update s.cache b (some d)
    disk := Function.update s.disk b d }

/-- The next step of `commit` or `recover_from_log`. -/
def diskStep (sb : Superblock) (s : LogStore) : Option LogStore :=
  match s.stage with
  | .up => none
  | .writeLog tail =>
      match s.lh[tail]? with
      | some b =>
          some { s.bwrite (sb.logBlock tail) (s.bread b) with stage := .writeLog (tail + 1) }
      | none => some { s with stage := .writeHead }
  | .writeHead =>
      some
        { s.bwrite sb.logstart (headerBlock s.lh (s.bread sb.logstart)) with stage := .install 0 }
  | .install tail =>
      match s.lh[tail]? with
      | some b =>
          some
            { s.bwrite b (s.bread (sb.logBlock tail)) with
              refcnt := Function.update s.refcnt b (s.refcnt b - 1)
              stage := .install (tail + 1) }
      | none => some { s with lh := [], stage := .clear }
  | .clear =>
      some { s.bwrite sb.logstart (headerBlock s.lh (s.bread sb.logstart)) with stage := .up }
  | .readHead =>
      (readHeader (s.bread sb.logstart)).map fun lh => { s with lh := lh, stage := .reinstall 0 }
  | .reinstall tail =>
      match s.lh[tail]? with
      | some b =>
          some { s.bwrite b (s.bread (sb.logBlock tail)) with stage := .reinstall (tail + 1) }
      | none => some { s with lh := [], stage := .reclear }
  | .reclear =>
      some { s.bwrite sb.logstart (headerBlock s.lh (s.bread sb.logstart)) with stage := .up }

/-- Some block is read into the cache. -/
def load (s : LogStore) (b : UInt32) : LogStore :=
  { s with cache := Function.update s.cache b (some (s.bread b)) }

/-- The buffer of a block is recycled. -/
def evict (s : LogStore) (b : UInt32) : Option LogStore :=
  if s.refcnt b = 0 then some { s with cache := Function.update s.cache b none } else none

/-- What is left after a crash: the disk. -/
def boot (disk : UInt32 → Block) : LogStore where
  disk := disk
  cache := fun _ => none
  refcnt := fun _ => 0
  lh := []
  stage := .readHead

end LogStore

namespace Log

variable {n : Nat}

/-- `wakeup(&log)`. -/
def wakeupLog (s : Log n) : Log n :=
  { s with op := fun p => if s.op p = .asleep then .begins else s.op p }

def setOp (s : Log n) (p : Fin n) (op : FsOp) : Log n :=
  { s with op := Function.update s.op p op }

/-- One pass through the loop of `begin_op`. -/
def beginOp (s : Log n) (p : Fin n) : Log n :=
  if s.committing then s.setOp p .asleep
  else if (s.lh.length : Int) + (s.outstanding + 1) * MAXOPBLOCKS > LOGSIZE then
    s.setOp p .asleep
  else { s.setOp p (.runs []) with outstanding := s.outstanding + 1 }

/-- `log_write` of a block that is in the cache. -/
def logWrite (sb : Superblock) (s : Log n) (b : UInt32) : Log n :=
  if s.lh.length ≥ LOGSIZE ∨ (s.lh.length : Int) ≥ sb.nlog - 1 then
    { s with panicked := some "too big a transaction" }
  else if s.outstanding < 1 then { s with panicked := some "log_write outside of trans" }
  -- log absorption
  else if b ∈ s.lh then s
  else
    { s with
      lh := s.lh ++ [b]
      refcnt := Function.update s.refcnt b (s.refcnt b + 1) }

/-- The different blocks that have been passed to `log_write` once `b` is. -/
def pass (passed : List UInt32) (b : UInt32) : List UInt32 :=
  if b ∈ passed then passed else passed ++ [b]

/-- An operation that has passed these blocks changes the data of a buffer. -/
def change (s : Log n) (p : Fin n) (passed : List UInt32) (b : UInt32) (d : Block) : Log n :=
  { s.setOp p (.runs passed) with cache := Function.update s.cache b (some d) }

/-- `end_op`, up to `commit`. -/
def endOp (s : Log n) (p : Fin n) : Log n :=
  let s := { s with outstanding := s.outstanding - 1 }
  if s.committing then { s with panicked := some "log.committing" }
  else if s.outstanding = 0 then
    { s.setOp p .commits with
      committing := true
      -- `commit` has nothing to do without blocks in the header
      stage := if 0 < s.lh.length then .writeLog 0 else .up }
  else (s.setOp p .out).wakeupLog

/-- The machine boots, with `initlog` about to recover. -/
def boot (disk : UInt32 → Block) : Log n where
  toLogStore := LogStore.boot disk
  outstanding := 0
  committing := false
  op := fun _ => .out
  panicked := none

/-- A step.  Operations wait until recovery is over, pass at most `MAXOPBLOCKS`
blocks each, all of them outside the log, and a panic stops the kernel. -/
def step (sb : Superblock) (s : Log n) (e : LogEvent n) : Option (Log n) :=
  match e with
  | .crash => some (boot s.disk)
  | e =>
    if s.panicked ≠ none then none
    else
      match e with
      | .begin p =>
          if (s.op p = .out ∨ s.op p = .begins) ∧ (s.stage = .up ∨ s.committing = true) then
            some (s.beginOp p)
          else none
      | .write p b d =>
          match s.op p with
          | .runs passed =>
              if sb.Home b ∧ (pass passed b).length ≤ MAXOPBLOCKS then
                some ((s.change p (pass passed b) b d).logWrite sb b)
              else none
          | _ => none
      | .endOp p =>
          match s.op p with
          | .runs _ => some (s.endOp p)
          | _ => none
      | .disk => (s.diskStep sb).map fun store => { s with toLogStore := store }
      | .finish p =>
          if s.op p = .commits ∧ s.stage = .up then
            some { s.setOp p .out with committing := false }.wakeupLog
          else none
      | .load b => some { s with toLogStore := s.load b }
      | .evict b => (s.evict b).map fun store => { s with toLogStore := store }
      | .crash => none

end Log

/-- A file system boots, with an empty log on its disk. -/
def logging (sb : Superblock) (n : Nat) : Machine (Log n) (LogEvent n) where
  init s := ∃ disk, s = Log.boot disk ∧ EmptyLog sb disk
  step := Log.step sb

/-! ### What an event does -/

/-- **What each event does**, and when it can happen. -/
inductive Log.Move {n : Nat} (sb : Superblock) (s : Log n) : LogEvent n → Log n → Prop
  | begin {p : Fin n} (hnone : s.panicked = none) (hp : s.op p = .out ∨ s.op p = .begins)
      (hup : s.stage = .up ∨ s.committing = true) : Move sb s (.begin p) (s.beginOp p)
  | write {p : Fin n} {b : UInt32} {d : Block} {passed : List UInt32} (hnone : s.panicked = none)
      (hp : s.op p = .runs passed) (hb : sb.Home b) :
      Move sb s (.write p b d) ((s.change p (Log.pass passed b) b d).logWrite sb b)
  | endOp {p : Fin n} {passed : List UInt32} (hnone : s.panicked = none)
      (hp : s.op p = .runs passed) : Move sb s (.endOp p) (s.endOp p)
  | disk {store : LogStore} (hnone : s.panicked = none) (hstore : s.diskStep sb = some store) :
      Move sb s .disk { s with toLogStore := store }
  | finish {p : Fin n} (hnone : s.panicked = none) (hp : s.op p = .commits)
      (hup : s.stage = .up) :
      Move sb s (.finish p) { s.setOp p .out with committing := false }.wakeupLog
  | load {b : UInt32} (hnone : s.panicked = none) :
      Move sb s (.load b) { s with toLogStore := s.load b }
  | evict {b : UInt32} (hnone : s.panicked = none) (hfree : s.refcnt b = 0) :
      Move sb s (.evict b) { s with cache := Function.update s.cache b none }
  | crash : Move sb s .crash (Log.boot s.disk)

theorem Log.step_moves {n : Nat} {sb : Superblock} {s t : Log n} {e : LogEvent n}
    (h : s.step sb e = some t) : Log.Move sb s e t := by
  unfold Log.step at h
  cases e with
  | crash =>
      obtain rfl := Option.some.inj h
      exact .crash
  | begin p =>
      simp only [Option.ite_none_left_eq_some, Option.ite_none_right_eq_some,
        Option.some.injEq] at h
      obtain ⟨hnone, ⟨hp, hup⟩, ht⟩ := h
      subst ht
      exact .begin (not_not.mp hnone) hp hup
  | write p b d =>
      cases hp : s.op p with
      | runs passed =>
          simp only [hp, Option.ite_none_left_eq_some, Option.ite_none_right_eq_some,
            Option.some.injEq] at h
          obtain ⟨hnone, ⟨hb, _⟩, ht⟩ := h
          subst ht
          exact .write (not_not.mp hnone) hp hb
      | out | begins | asleep | commits => simp [hp] at h
  | endOp p =>
      cases hp : s.op p with
      | runs passed =>
          simp only [hp, Option.ite_none_left_eq_some, Option.some.injEq] at h
          obtain ⟨hnone, ht⟩ := h
          subst ht
          exact .endOp (not_not.mp hnone) hp
      | out | begins | asleep | commits => simp [hp] at h
  | disk =>
      simp only [Option.ite_none_left_eq_some, Option.map_eq_some_iff] at h
      obtain ⟨hnone, store, hstore, ht⟩ := h
      subst ht
      exact .disk (not_not.mp hnone) hstore
  | finish p =>
      simp only [Option.ite_none_left_eq_some, Option.ite_none_right_eq_some,
        Option.some.injEq] at h
      obtain ⟨hnone, ⟨hp, hup⟩, ht⟩ := h
      subst ht
      exact .finish (not_not.mp hnone) hp hup
  | load b =>
      simp only [Option.ite_none_left_eq_some, Option.some.injEq] at h
      obtain ⟨hnone, ht⟩ := h
      subst ht
      exact .load (not_not.mp hnone)
  | evict b =>
      simp only [LogStore.evict, Option.ite_none_left_eq_some, Option.map_eq_some_iff,
        Option.ite_none_right_eq_some, Option.some.injEq] at h
      obtain ⟨hnone, store, ⟨hfree, hstore⟩, ht⟩ := h
      subst hstore
      subst ht
      exact .evict (not_not.mp hnone) hfree

/-! ### The log area -/

namespace Superblock

variable {sb : Superblock} {i j : Nat}

theorem toNat_logBlock (hi : i + 1 < sb.nlog) :
    (sb.logBlock i).toNat = sb.logstart.toNat + (i + 1) := by
  have hfits := sb.fits
  have hsmall : (UInt32.ofNat (i + 1)).toNat = i + 1 :=
    UInt32.toNat_ofNat_of_lt' (show i + 1 < 2 ^ 32 by omega)
  rw [logBlock, UInt32.toNat_add, hsmall, Nat.mod_eq_of_lt (by omega)]

/-- The blocks of the log area are different ones. -/
theorem logBlock_ne (hi : i + 1 < sb.nlog) (hj : j + 1 < sb.nlog) (hij : i ≠ j) :
    sb.logBlock i ≠ sb.logBlock j := by
  intro heq
  have hnat := congrArg UInt32.toNat heq
  rw [toNat_logBlock hi, toNat_logBlock hj] at hnat
  omega

theorem logBlock_ne_header (hi : i + 1 < sb.nlog) : sb.logBlock i ≠ sb.logstart := by
  intro heq
  have hnat := congrArg UInt32.toNat heq
  rw [toNat_logBlock hi] at hnat
  omega

theorem logBlock_not_home (hi : i + 1 < sb.nlog) : ¬ sb.Home (sb.logBlock i) := by
  unfold Home
  rw [toNat_logBlock hi]
  omega

theorem header_not_home (sb : Superblock) : ¬ sb.Home sb.logstart := by
  have hpos := sb.hasHeader
  unfold Home
  omega

end Superblock

/-! ### The header -/

theorem readHeader_empty {d : Block} (h : d 0 = 0) : readHeader d = some [] := by
  simp [readHeader, h]

/-- **What is written as a header is read back.** -/
theorem readHeader_headerBlock {lh : List UInt32} (old : Block) (hlen : lh.length ≤ LOGSIZE) :
    readHeader (headerBlock lh old) = some lh := by
  have hmax : LOGSIZE = 30 := rfl
  have hcount : (headerBlock lh old 0).toNat = lh.length :=
    UInt32.toNat_ofNat_of_lt' (show lh.length < 2 ^ 32 by omega)
  unfold readHeader
  rw [hcount, if_neg (by omega), if_pos hlen, Option.some.injEq]
  apply List.ext_getElem
  · simp
  · intro i hi hi'
    have hword : (Fin.ofNat 256 (i + 1)).val = i + 1 := Nat.mod_eq_of_lt (by omega)
    simp only [List.getElem_map, List.getElem_range, headerBlock, hword]
    simp [hi']

theorem headerBlock_empty (old : Block) : headerBlock [] old 0 = 0 := rfl

end Xv6
