import OSN.Lib.Bytes
import OSN.Lib.Ends
import OSN.Kernel.Log

/-!
# The blocks of the file system

The disk as the kernel sees it through the buffer cache and the log: the contents of
each block, and of the log what `log_write`, `begin_op` and `end_op` look at.  That a
transaction reaches the disk whole or not at all is the business of the log.

System calls run one after the other here, so a process that has to wait waits for
ever; it fails.  A failure is a panic, with its text, or such a wait.

    [ boot block | super block | log | inode blocks | free bit map | data blocks ]
-/

namespace Fs

open Xv6 (MAXOPBLOCKS LOGSIZE)

/-- Block size. -/
def BSIZE : Nat := 1024

/-- The contents of a block. -/
abbrev Block := Nat → UInt8

/-- `struct superblock`. -/
structure Superblock where
  magic : Nat
  size : Nat
  nblocks : Nat
  ninodes : Nat
  nlog : Nat
  logstart : Nat
  inodestart : Nat
  bmapstart : Nat
  deriving DecidableEq

def FSMAGIC : Nat := 0x10203040

/-- `sizeof(struct dinode)`. -/
def DINODESIZE : Nat := 64

/-- Inodes per block. -/
def IPB : Nat := BSIZE / DINODESIZE

/-- Bitmap bits per block. -/
def BPB : Nat := BSIZE * 8

namespace Superblock

/-- Block containing inode `i`. -/
def IBLOCK (sb : Superblock) (i : Nat) : UInt32 := UInt32.ofNat (i / IPB + sb.inodestart)

/-- Block of free map containing bit for block `b`. -/
def BBLOCK (sb : Superblock) (b : Nat) : UInt32 := UInt32.ofNat (b / BPB + sb.bmapstart)

end Superblock

/-- The blocks and the log. -/
structure Disk where
  sb : Superblock
  block : UInt32 → Block
  /-- `log.outstanding`. -/
  outstanding : Nat
  /-- `log.lh`. -/
  lh : List UInt32
  /-- The transactions that have been committed, newest first. -/
  committed : List (List UInt32)

/-- Code that works on the disk. -/
abbrev DiskM := EStateM String Disk

namespace Disk

/-- `balloc` and `bfree` find the bit of the block clear. -/
def isFree (d : Disk) (b : Nat) : Bool := !Bytes.bit (d.block (d.sb.BBLOCK b)) (b % BPB)

/-- The contents of a block in the cache are changed. -/
def write (d : Disk) (b : UInt32) (data : Block) : Disk :=
  { d with block := Function.update d.block b data }

end Disk

/-- `memmove(sb, bp->data, sizeof(*sb))` of `readsb`. -/
def readsb (data : Block) : Superblock :=
  let field (k : Nat) := Bytes.ofLe (Bytes.slice data (4 * k) 4)
  ⟨field 0, field 1, field 2, field 3, field 4, field 5, field 6, field 7⟩

/-- `fsinit`: the superblock of the disk, if it is one. -/
def fsinit (block : UInt32 → Block) : Except String Superblock :=
  let sb := readsb (block 1)
  if sb.magic ≠ FSMAGIC then .error "invalid file system" else .ok sb

/-- `begin_op`. -/
def beginOp : DiskM Unit := do
  let d ← get
  if d.lh.length + (d.outstanding + 1) * MAXOPBLOCKS > LOGSIZE then
    throw "sleeps on the log"
  else
    modify fun d => { d with outstanding := d.outstanding + 1 }

/-- `end_op`. -/
def endOp : DiskM Unit :=
  modify fun d =>
    if d.outstanding = 1 then
      { d with outstanding := 0, lh := [], committed := d.lh :: d.committed }
    else { d with outstanding := d.outstanding - 1 }

/-- `bread`: what the buffer of a block holds. -/
def bread (b : UInt32) : DiskM Block := do
  let d ← get
  return d.block b

/-- The buffer of a block is written to. -/
def store (b : UInt32) (data : Block) : DiskM Unit := modify fun d => d.write b data

/-- `log_write`. -/
def logWrite (b : UInt32) : DiskM Unit := do
  let d ← get
  if d.lh.length ≥ LOGSIZE ∨ d.lh.length ≥ d.sb.nlog - 1 then
    throw "too big a transaction"
  else if d.outstanding < 1 then
    throw "log_write outside of trans"
  else if b ∈ d.lh then
    -- log absorption
    pure ()
  else
    modify fun d => { d with lh := d.lh ++ [b] }

/-- `bzero`. -/
def bzero (b : UInt32) : DiskM Unit := do
  store b fun _ => 0
  logWrite b

/-- `balloc`. -/
def balloc : DiskM UInt32 := do
  let d ← get
  match (List.range d.sb.size).find? d.isFree with
  | some b =>
      store (d.sb.BBLOCK b) (Bytes.setBit (d.block (d.sb.BBLOCK b)) (b % BPB))
      logWrite (d.sb.BBLOCK b)
      bzero (UInt32.ofNat b)
      return UInt32.ofNat b
  | none => throw "balloc: out of blocks"

/-- `bfree`. -/
def bfree (b : UInt32) : DiskM Unit := do
  let d ← get
  if d.isFree b.toNat then
    throw "freeing free block"
  else
    store (d.sb.BBLOCK b.toNat) (Bytes.clearBit (d.block (d.sb.BBLOCK b.toNat)) (b.toNat % BPB))
    logWrite (d.sb.BBLOCK b.toNat)

end Fs
