import OSN.Lib.Bytes
import OSN.Lib.Ends
import OSN.Vm.Ram

/-!
# The memory allocator of user programs

`malloc` and `free` of umalloc.c, on the bytes of the process.  The free blocks are linked to
a ring through their headers; so is `base`, an empty block in the data of the program.  What
is not in a page of the process cannot be read or written.
-/

namespace Umalloc

open Vm (PGROUNDUP)

/-- `sizeof(Header)`. -/
def HEADERSIZE : Nat := 16

/-- The memory there is: no process gets larger. -/
def MEMORY : Nat := 128 * 1024 * 1024

/-- The process: its memory, `&base`, `freep` and `p->sz`.  `granted k` says that the kernel
has pages for the `k`-th call of `sbrk` from now that asks for some. -/
structure Heap where
  mem : Nat → UInt8
  base : Nat
  freep : Nat
  brk : Nat
  granted : Nat → Bool

/-- A failure is that the process is killed at a page fault. -/
abbrev HeapM := EStateM String Heap

namespace Heap

/-- `p->s.ptr`. -/
def ptr (s : Heap) (p : Nat) : Nat := Bytes.ofLe (Bytes.slice s.mem p 8)

/-- `p->s.size`. -/
def size (s : Heap) (p : Nat) : Nat := Bytes.ofLe (Bytes.slice s.mem (p + 8) 4)

def setPtr (s : Heap) (p v : Nat) : Heap :=
  { s with mem := Bytes.splice s.mem p (Bytes.leBytes 8 v) }

def setSize (s : Heap) (p v : Nat) : Heap :=
  { s with mem := Bytes.splice s.mem (p + 8) (Bytes.leBytes 4 v) }

end Heap

/-- `n` bytes are accessed. -/
def access (a n : Nat) : HeapM Unit := do
  let s ← get
  if PGROUNDUP s.brk < a + n then throw "page fault"

def loadPtr (p : Nat) : HeapM Nat := do
  access p 8
  return (← get).ptr p

def loadSize (p : Nat) : HeapM Nat := do
  access (p + 8) 4
  return (← get).size p

def storePtr (p v : Nat) : HeapM Unit := do
  access p 8
  modify fun s => s.setPtr p v

def storeSize (p v : Nat) : HeapM Unit := do
  access (p + 8) 4
  modify fun s => s.setSize p v

def setFreep (p : Nat) : HeapM Unit := modify fun s => { s with freep := p }

/-- `(char*)-1`. -/
def NOMEM : Nat := 2 ^ 64 - 1

/-- `sbrk`, as the kernel does it.  A process that would shrink below nothing does not. -/
def sbrk (n : Int) : HeapM Nat := do
  let s ← get
  if 0 < n then
    set { s with granted := fun k => s.granted (k + 1) }
    if s.granted 0 = true ∧ s.brk + n.toNat ≤ MEMORY then
      modify fun s => { s with brk := s.brk + n.toNat }
      return s.brk
    else return NOMEM
  else
    set { s with brk := if 0 ≤ (s.brk : Int) + n then ((s.brk : Int) + n).toNat else s.brk }
    return s.brk

/-- A bound for the passes of a loop: it goes through the ring at most twice. -/
def passes : HeapM Nat := do
  return 2 * (← get).brk

/-- The loop of `free`: where in the ring does `bp` belong? -/
def freeLoop (bp : Nat) : Nat → Nat → HeapM Nat
  | 0, _ => throw "endless loop"
  | fuel + 1, p => do
      let next ← loadPtr p
      if p < bp ∧ bp < next then return p
      else if next ≤ p ∧ (p < bp ∨ bp < next) then return p
      else freeLoop bp fuel next

/-- `free`. -/
def free (ap : Nat) : HeapM Unit := do
  let bp := ap - HEADERSIZE
  let p ← freeLoop bp (← passes) (← get).freep
  let next ← loadPtr p
  let n ← loadSize bp
  if bp + HEADERSIZE * n = next then
    storeSize bp (n + (← loadSize next))
    storePtr bp (← loadPtr next)
  else storePtr bp next
  let m ← loadSize p
  if p + HEADERSIZE * m = bp then
    storeSize p (m + (← loadSize bp))
    storePtr p (← loadPtr bp)
  else storePtr p bp
  setFreep p

/-- The argument of `sbrk` is an `int`. -/
def toInt (n : Nat) : Int := (BitVec.ofNat 32 n).toInt

/-- `morecore`. -/
def morecore (nu : Nat) : HeapM Nat := do
  let nu := if nu < 4096 then 4096 else nu
  let p ← sbrk (toInt (nu * HEADERSIZE))
  if p = NOMEM then return 0
  else
    storeSize p nu
    free (p + HEADERSIZE)
    return (← get).freep

/-- The loop of `malloc`. -/
def mallocLoop (nunits : Nat) : Nat → Nat → Nat → HeapM Nat
  | 0, _, _ => throw "endless loop"
  | fuel + 1, prevp, p => do
      let n ← loadSize p
      if nunits ≤ n then
        if n = nunits then
          storePtr prevp (← loadPtr p)
          setFreep prevp
          return p + HEADERSIZE
        else
          storeSize p (n - nunits)
          let p := p + HEADERSIZE * (← loadSize p)
          storeSize p nunits
          setFreep prevp
          return p + HEADERSIZE
      else if p = (← get).freep then
        let p ← morecore nunits
        if p = 0 then return 0
        else mallocLoop nunits fuel p (← loadPtr p)
      else mallocLoop nunits fuel p (← loadPtr p)

/-- The headers that a block of `nbytes` bytes takes, with its own. -/
def unitsOf (nbytes : Nat) : Nat := ((nbytes + HEADERSIZE - 1) / HEADERSIZE + 1) % 2 ^ 32

/-- `malloc`; 0 is the null pointer. -/
def malloc (nbytes : Nat) : HeapM Nat := do
  let nunits := unitsOf nbytes
  let s ← get
  if s.freep = 0 then
    storePtr s.base s.base
    setFreep s.base
    storeSize s.base 0
  let prevp := (← get).freep
  mallocLoop nunits (← passes) prevp (← loadPtr prevp)

end Umalloc
