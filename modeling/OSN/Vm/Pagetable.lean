import OSN.Vm.Ram

/-!
# Page tables

The functions of vm.c on a user page table.  A page table is the address of a page of 512
entries; so is what an entry of an inner table points to.  A loop over pages comes to
`MAXVA` at the latest, where `walk` panics: that bounds its passes.
-/

namespace Vm

open Xv6 (PGSIZE MAXVA)

def PTE_V : Nat := 2 ^ 0
def PTE_R : Nat := 2 ^ 1
def PTE_W : Nat := 2 ^ 2
def PTE_X : Nat := 2 ^ 3
def PTE_U : Nat := 2 ^ 4

/-- Shift a physical address to the right place for an entry. -/
def PA2PTE (pa : Nat) : Nat := pa >>> 12 <<< 10

def PTE2PA (pte : Nat) : Nat := (pte >>> 10 <<< 12) % 2 ^ 64

def PTE_FLAGS (pte : Nat) : Nat := pte &&& 0x3FF

/-- The index into the page table of a level. -/
def PX (level va : Nat) : Nat := va >>> (12 + 9 * level) &&& 0x1FF

/-- The trampoline page is at the highest address, the trapframe just below. -/
def TRAMPOLINE : Nat := MAXVA - PGSIZE

def TRAPFRAME : Nat := TRAMPOLINE - PGSIZE

/-- The loop of `walk`, from a level down. -/
def walkFrom (va : Nat) (alloc : Bool) : Nat → Nat → RamM Nat
  | 0, pagetable => return pagetable + 8 * PX 0 va
  | level + 1, pagetable => do
      let pte := pagetable + 8 * PX (level + 1) va
      let entry ← load pte
      if entry &&& PTE_V ≠ 0 then walkFrom va alloc level (PTE2PA entry)
      else if alloc = false then return 0
      else
        let pagetable ← kalloc
        if pagetable = 0 then return 0
        else
          memset pagetable 0 PGSIZE
          store pte (PA2PTE pagetable ||| PTE_V)
          walkFrom va alloc level pagetable

/-- `walk`: the address of the entry for `va`, or 0. -/
def walk (pagetable va : Nat) (alloc : Bool) : RamM Nat :=
  if MAXVA ≤ va then throw "walk" else walkFrom va alloc 2 pagetable

/-- `walkaddr`. -/
def walkaddr (pagetable va : Nat) : RamM Nat := do
  if MAXVA ≤ va then return 0
  else
    let pte ← walk pagetable va false
    if pte = 0 then return 0
    else
      let entry ← load pte
      if entry &&& PTE_V = 0 then return 0
      else if entry &&& PTE_U = 0 then return 0
      else return PTE2PA entry

/-- The passes that a loop over pages can take before `walk` panics, and the one in which
it does. -/
def passes (a : Nat) : Nat := MAXVA / PGSIZE - a / PGSIZE + 1

/-- The loop of `mappages`. -/
def mapLoop (pagetable last perm : Nat) : Nat → Nat → Nat → RamM Int
  | 0, _, _ => throw "walk"
  | fuel + 1, a, pa => do
      let pte ← walk pagetable a true
      if pte = 0 then return -1
      else
        let entry ← load pte
        if entry &&& PTE_V ≠ 0 then throw "mappages: remap"
        else
          store pte (PA2PTE pa ||| perm ||| PTE_V)
          if a = last then return 0
          else mapLoop pagetable last perm fuel (a + PGSIZE) ((pa + PGSIZE) % 2 ^ 64)

/-- `mappages`. -/
def mappages (pagetable va size pa perm : Nat) : RamM Int :=
  if size = 0 then throw "mappages: size"
  else
    let a := PGROUNDDOWN va
    let last := PGROUNDDOWN ((va + size - 1) % 2 ^ 64)
    mapLoop pagetable last perm (passes a) a pa

/-- The loop of `uvmunmap`. -/
def unmapLoop (pagetable stop : Nat) (doFree : Bool) : Nat → Nat → RamM Unit
  | 0, _ => throw "walk"
  | fuel + 1, a =>
      if a < stop then do
        let pte ← walk pagetable a false
        if pte = 0 then throw "uvmunmap: walk"
        else
          let entry ← load pte
          if entry &&& PTE_V = 0 then throw "uvmunmap: not mapped"
          else if PTE_FLAGS entry = PTE_V then throw "uvmunmap: not a leaf"
          else
            if doFree then kfree (PTE2PA entry)
            store pte 0
            unmapLoop pagetable stop doFree fuel (a + PGSIZE)
      else return

/-- `uvmunmap`. -/
def uvmunmap (pagetable va npages : Nat) (doFree : Bool) : RamM Unit :=
  if va % PGSIZE ≠ 0 then throw "uvmunmap: not aligned"
  else unmapLoop pagetable ((va + npages * PGSIZE) % 2 ^ 64) doFree (passes va) va

/-- `uvmcreate`. -/
def uvmcreate : RamM Nat := do
  let pagetable ← kalloc
  if pagetable = 0 then return 0
  else
    memset pagetable 0 PGSIZE
    return pagetable

/-- `uvmdealloc`; `npages` is an `int`. -/
def uvmdealloc (pagetable oldsz newsz : Nat) : RamM Nat := do
  if oldsz ≤ newsz then return oldsz
  else
    if PGROUNDUP newsz < PGROUNDUP oldsz then
      let npages := (Int.bmod ((PGROUNDUP oldsz - PGROUNDUP newsz) / PGSIZE) (2 ^ 32) % 2 ^ 64).toNat
      uvmunmap pagetable (PGROUNDUP newsz) npages true
    return newsz

/-- The loop of `uvmalloc`; `oldsz` is rounded up already. -/
def allocLoop (pagetable oldsz newsz : Nat) : Nat → Nat → RamM Nat
  | 0, _ => throw "walk"
  | fuel + 1, a =>
      if a < newsz then do
        let mem ← kalloc
        if mem = 0 then
          let _ ← uvmdealloc pagetable a oldsz
          return 0
        else
          memset mem 0 PGSIZE
          let r ← mappages pagetable a PGSIZE mem (PTE_W ||| PTE_X ||| PTE_R ||| PTE_U)
          if r ≠ 0 then
            kfree mem
            let _ ← uvmdealloc pagetable a oldsz
            return 0
          else allocLoop pagetable oldsz newsz fuel (a + PGSIZE)
      else return newsz

/-- `uvmalloc`. -/
def uvmalloc (pagetable oldsz newsz : Nat) : RamM Nat :=
  if newsz < oldsz then return oldsz
  else
    let oldsz := PGROUNDUP oldsz
    allocLoop pagetable oldsz newsz (passes oldsz) oldsz

/-- `freewalk`, for a tree of at most `depth` levels. -/
def freewalk : Nat → Nat → RamM Unit
  | 0, _ => throw "no such level"
  | depth + 1, pagetable => do
      (List.range 512).forM fun i => do
        let pte ← load (pagetable + 8 * i)
        if pte &&& PTE_V ≠ 0 ∧ pte &&& (PTE_R ||| PTE_W ||| PTE_X) = 0 then
          freewalk depth (PTE2PA pte)
          store (pagetable + 8 * i) 0
        else if pte &&& PTE_V ≠ 0 then throw "freewalk: leaf"
      kfree pagetable

/-- `uvmfree`. -/
def uvmfree (pagetable sz : Nat) : RamM Unit := do
  if 0 < sz then uvmunmap pagetable 0 (PGROUNDUP sz / PGSIZE) true
  freewalk 3 pagetable

/-- `uvmclear`. -/
def uvmclear (pagetable va : Nat) : RamM Unit := do
  let pte ← walk pagetable va false
  if pte = 0 then throw "uvmclear"
  else
    let entry ← load pte
    store pte (entry &&& (2 ^ 64 - 1 - PTE_U))

/-! ### Copies between kernel and user -/

/-- How many bytes the next pass of a copy moves. -/
def piece (va len : Nat) : Nat := min (PGSIZE - (va - PGROUNDDOWN va)) len

/-- The loop of `copyout`. -/
def copyoutLoop (pagetable : Nat) : Nat → Nat → List UInt8 → RamM Int
  | 0, _, _ => return 0
  | fuel + 1, dstva, src =>
      if src.length = 0 then return 0
      else do
        let va0 := PGROUNDDOWN dstva
        let pa0 ← walkaddr pagetable va0
        if pa0 = 0 then return -1
        else
          let n := piece dstva src.length
          modify fun s => s.memmove (pa0 + (dstva - va0)) (src.take n)
          copyoutLoop pagetable fuel ((va0 + PGSIZE) % 2 ^ 64) (src.drop n)

/-- `copyout` of `src` to `dstva`. -/
def copyout (pagetable dstva : Nat) (src : List UInt8) : RamM Int :=
  copyoutLoop pagetable src.length dstva src

/-- The loop of `copyin`, with the bytes it has moved. -/
def copyinLoop (pagetable : Nat) : Nat → Nat → Nat → RamM (Int × List UInt8)
  | 0, _, _ => return (0, [])
  | fuel + 1, srcva, len =>
      if len = 0 then return (0, [])
      else do
        let va0 := PGROUNDDOWN srcva
        let pa0 ← walkaddr pagetable va0
        if pa0 = 0 then return (-1, [])
        else
          let n := piece srcva len
          let s ← get
          let bytes := Bytes.slice s.mem (pa0 + (srcva - va0)) n
          let (r, rest) ← copyinLoop pagetable fuel ((va0 + PGSIZE) % 2 ^ 64) (len - n)
          return (r, bytes ++ rest)

/-- `copyin`: its return value, and the bytes it has moved to `dst`. -/
def copyin (pagetable srcva len : Nat) : RamM (Int × List UInt8) :=
  copyinLoop pagetable len srcva len

/-- The inner loop of `copyinstr`: the bytes of the page before its first 0. -/
def untilNull (bytes : List UInt8) : List UInt8 := bytes.takeWhile (· ≠ 0)

/-- The loop of `copyinstr`, with the bytes it has moved. -/
def copyinstrLoop (pagetable : Nat) : Nat → Nat → Nat → RamM (Int × List UInt8)
  | 0, _, _ => return (-1, [])
  | fuel + 1, srcva, max =>
      if max = 0 then return (-1, [])
      else do
        let va0 := PGROUNDDOWN srcva
        let pa0 ← walkaddr pagetable va0
        if pa0 = 0 then return (-1, [])
        else
          let n := piece srcva max
          let s ← get
          let bytes := Bytes.slice s.mem (pa0 + (srcva - va0)) n
          let moved := untilNull bytes
          if moved.length < n then return (0, moved ++ [0])
          else
            let (r, rest) ← copyinstrLoop pagetable fuel ((va0 + PGSIZE) % 2 ^ 64) (max - n)
            return (r, moved ++ rest)

/-- `copyinstr`: its return value, and the bytes it has moved to `dst`. -/
def copyinstr (pagetable srcva max : Nat) : RamM (Int × List UInt8) :=
  copyinstrLoop pagetable max srcva max

end Vm
