import Mathlib.Logic.Function.Basic
import Mathlib.Tactic.Common

/-!
# Pipes and the console

What the locks of `pipe.c` and `console.c` protect, as far as it decides who
waits, and what the functions there do to it between two points at which they
may sleep.  The bytes in a pipe decide nothing and are left out.
-/

namespace Xv6

/-- `PIPESIZE`. -/
def PIPESIZE : UInt32 := 512

/-- `struct pipe`, without its lock and its bytes. -/
structure Pipe where
  nread : UInt32 := 0
  nwrite : UInt32 := 0
  readopen : Bool := true
  writeopen : Bool := true

namespace Pipe

/-- `pi->nwrite == pi->nread + PIPESIZE`. -/
def full (pi : Pipe) : Bool := pi.nwrite == pi.nread + PIPESIZE

/-- `pi->nread == pi->nwrite`. -/
def drained (pi : Pipe) : Bool := pi.nread == pi.nwrite

/-- `pi->data[pi->nwrite++ % PIPESIZE] = ch`. -/
def put (pi : Pipe) : Pipe := { pi with nwrite := pi.nwrite + 1 }

/-- `ch = pi->data[pi->nread++ % PIPESIZE]`. -/
def take (pi : Pipe) : Pipe := { pi with nread := pi.nread + 1 }

/-- `pipeclose`. -/
def close (writable : Bool) (pi : Pipe) : Pipe :=
  if writable then { pi with writeopen := false } else { pi with readopen := false }

end Pipe

/-- `INPUT_BUF`. -/
def INPUT_BUF : UInt32 := 128

/-- `C(x)`: a control character. -/
def ctrl (x : Char) : UInt8 := x.toUInt8 - '@'.toUInt8

/-- `cons`, without its lock. -/
structure Console where
  buf : UInt32 → UInt8 := fun _ => 0
  r : UInt32 := 0
  w : UInt32 := 0
  e : UInt32 := 0

namespace Console

/-- `cons.buf[i % INPUT_BUF]`. -/
def char (cons : Console) (i : UInt32) : UInt8 := cons.buf (i % INPUT_BUF)

/-- The loop of `C('U')`, which makes at most `fuel` steps. -/
def killLine : Nat → Console → Console
  | 0, cons => cons
  | fuel + 1, cons =>
      if cons.e ≠ cons.w ∧ cons.char (cons.e - 1) ≠ '\n'.toUInt8 then
        killLine fuel { cons with e := cons.e - 1 }
      else cons

/-- `cons.buf[cons.e++ % INPUT_BUF] = c`. -/
def store (c : UInt8) (cons : Console) : Console :=
  { cons with buf := Function.update cons.buf (cons.e % INPUT_BUF) c, e := cons.e + 1 }

/-- `consoleintr` with the lock held, and whether it wakes the readers. -/
def intr (c : UInt8) (cons : Console) : Console × Bool :=
  if c = ctrl 'P' then (cons, false)
  else if c = ctrl 'U' then (cons.killLine (cons.e - cons.w).toNat, false)
  else if c = ctrl 'H' ∨ c = 0x7f then
    if cons.e ≠ cons.w then ({ cons with e := cons.e - 1 }, false) else (cons, false)
  else if c ≠ 0 ∧ cons.e - cons.r < INPUT_BUF then
    let c := if c = '\r'.toUInt8 then '\n'.toUInt8 else c
    let cons := cons.store c
    if c = '\n'.toUInt8 ∨ c = ctrl 'D' ∨ cons.e = cons.r + INPUT_BUF then
      ({ cons with w := cons.e }, true)
    else (cons, false)
  else (cons, false)

end Console

end Xv6
