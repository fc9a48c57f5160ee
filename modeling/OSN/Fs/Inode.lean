import OSN.Fs.Disk

/-!
# Inodes and their contents

A `dinode` on disk has a type, a device, a link count, a size and the numbers of its
blocks; the inode table has copies of those in use.  Code that works on a locked inode
sees the disk and the copy (`Node`), and nothing else of the table.
-/

namespace Fs

/-- Blocks listed in the inode. -/
def NDIRECT : Nat := 12

/-- Blocks listed in the indirect block. -/
def NINDIRECT : Nat := BSIZE / 4

/-- The most blocks of a file. -/
def MAXFILE : Nat := NDIRECT + NINDIRECT

/-- The most inodes in the table. -/
def NINODE : Nat := 50

instance neZeroInode : NeZero NINODE := ⟨by decide⟩

def ROOTDEV : Nat := 1

/-- Root i-number. -/
def ROOTINO : Nat := 1

/-- Directory. -/
def T_DIR : UInt16 := 1

/-- File. -/
def T_FILE : UInt16 := 2

/-- Device. -/
def T_DEVICE : UInt16 := 3

/-- `struct dinode`.  A `short` is kept as its 16 bits. -/
structure Dinode where
  type : UInt16
  major : UInt16
  minor : UInt16
  nlink : UInt16
  size : UInt32
  addrs : Fin (NDIRECT + 1) → UInt32

namespace Dinode

/-- What `memset` leaves of a dinode. -/
def zero : Dinode := ⟨0, 0, 0, 0, 0, fun _ => 0⟩

/-- The bytes of a dinode. -/
def bytes (dip : Dinode) : List UInt8 :=
  Bytes.leBytes 2 dip.type.toNat ++ Bytes.leBytes 2 dip.major.toNat ++
    Bytes.leBytes 2 dip.minor.toNat ++ Bytes.leBytes 2 dip.nlink.toNat ++
    Bytes.leBytes 4 dip.size.toNat ++
    (List.finRange (NDIRECT + 1)).flatMap fun k => Bytes.leBytes 4 (dip.addrs k).toNat

/-- A 16-bit and a 32-bit field. -/
def field16 (data : Block) (off : Nat) : UInt16 :=
  UInt16.ofNat (Bytes.ofLe (Bytes.slice data off 2))

def field32 (data : Block) (off : Nat) : UInt32 :=
  UInt32.ofNat (Bytes.ofLe (Bytes.slice data off 4))

/-- The dinode at an offset of a block. -/
def ofBlock (data : Block) (off : Nat) : Dinode where
  type := field16 data off
  major := field16 data (off + 2)
  minor := field16 data (off + 4)
  nlink := field16 data (off + 6)
  size := field32 data (off + 8)
  addrs := fun k => field32 data (off + 12 + 4 * k)

/-- Where inode `inum` is in its block. -/
def place (inum : Nat) : Nat := DINODESIZE * (inum % IPB)

variable {data : Block} {dip : Dinode} {off i j : Nat}

theorem bytes_length : dip.bytes.length = DINODESIZE := by
  simp [bytes, DINODESIZE, NDIRECT]

theorem field16_part {l : List UInt8} {k : Nat} {v : UInt16} (hk : k + 2 ≤ l.length)
    (hl : (l.drop k).take 2 = Bytes.leBytes 2 v.toNat) :
    field16 (Bytes.splice data off l) (off + k) = v := by
  have hlt : v.toNat < 256 ^ 2 := v.toNat_lt
  rw [field16, Bytes.slice_splice_part hk, hl, Bytes.ofLe_leBytes, Nat.mod_eq_of_lt hlt,
    UInt16.ofNat_toNat]

theorem field32_part {l : List UInt8} {k : Nat} {v : UInt32} (hk : k + 4 ≤ l.length)
    (hl : (l.drop k).take 4 = Bytes.leBytes 4 v.toNat) :
    field32 (Bytes.splice data off l) (off + k) = v := by
  have hlt : v.toNat < 256 ^ 4 := v.toNat_lt
  rw [field32, Bytes.slice_splice_part hk, hl, Bytes.ofLe_leBytes, Nat.mod_eq_of_lt hlt,
    UInt32.ofNat_toNat]

theorem bytes_addr (k : Fin (NDIRECT + 1)) :
    (dip.bytes.drop (12 + 4 * k)).take 4 = Bytes.leBytes 4 (dip.addrs k).toNat := by
  have hchunk := Bytes.take_flatMap (w := 4) (f := fun k => Bytes.leBytes 4 (dip.addrs k).toNat)
    (List.finRange (NDIRECT + 1)) (fun _ _ => Bytes.leBytes_length) k
    (by rw [List.length_finRange]; exact k.isLt)
  rw [List.getElem_finRange] at hchunk
  rw [bytes, ← List.drop_drop, List.drop_left' (by simp)]
  exact hchunk

/-- **A dinode that is written is read back.** -/
theorem ofBlock_splice : ofBlock (Bytes.splice data off dip.bytes) off = dip := by
  have hlength : dip.bytes.length = DINODESIZE := bytes_length
  unfold DINODESIZE at hlength
  have haddrs : ∀ k : Fin (NDIRECT + 1),
      field32 (Bytes.splice data off dip.bytes) (off + 12 + 4 * k) = dip.addrs k := by
    intro k
    have hk := k.isLt
    unfold NDIRECT at hk
    rw [Nat.add_assoc]
    exact field32_part (by omega) (bytes_addr k)
  have htype : field16 (Bytes.splice data off dip.bytes) off = dip.type :=
    field16_part (k := 0) (by omega) (by simp [bytes, Bytes.leBytes])
  have hmajor : field16 (Bytes.splice data off dip.bytes) (off + 2) = dip.major :=
    field16_part (by omega) (by simp [bytes, Bytes.leBytes])
  have hminor : field16 (Bytes.splice data off dip.bytes) (off + 4) = dip.minor :=
    field16_part (by omega) (by simp [bytes, Bytes.leBytes])
  have hnlink : field16 (Bytes.splice data off dip.bytes) (off + 6) = dip.nlink :=
    field16_part (by omega) (by simp [bytes, Bytes.leBytes])
  have hsize : field32 (Bytes.splice data off dip.bytes) (off + 8) = dip.size :=
    field32_part (by omega) (by simp [bytes, Bytes.leBytes])
  unfold ofBlock
  rw [htype, hmajor, hminor, hnlink, hsize]
  simp only [haddrs]

theorem place_apart (hij : i ≠ j) (hblock : i / IPB = j / IPB) :
    place i + DINODESIZE ≤ place j ∨ place j + DINODESIZE ≤ place i := by
  unfold place IPB BSIZE DINODESIZE at *
  omega

/-- A write elsewhere in its block leaves a dinode alone. -/
theorem ofBlock_splice_apart {l : List UInt8}
    (h : off + DINODESIZE ≤ i ∨ i + l.length ≤ off) :
    ofBlock (Bytes.splice data i l) off = ofBlock data off := by
  unfold DINODESIZE at h
  have h16 : ∀ k, k + 2 ≤ 64 →
      field16 (Bytes.splice data i l) (off + k) = field16 data (off + k) := by
    intro k hk
    rw [field16, Bytes.slice_splice_apart (by omega), field16]
  have h32 : ∀ k, k + 4 ≤ 64 →
      field32 (Bytes.splice data i l) (off + k) = field32 data (off + k) := by
    intro k hk
    rw [field32, Bytes.slice_splice_apart (by omega), field32]
  have haddrs : ∀ k : Fin (NDIRECT + 1),
      field32 (Bytes.splice data i l) (off + 12 + 4 * k) = field32 data (off + 12 + 4 * k) := by
    intro k
    have hk := k.isLt
    unfold NDIRECT at hk
    rw [Nat.add_assoc]
    exact h32 _ (by omega)
  unfold ofBlock
  rw [show field16 (Bytes.splice data i l) off = field16 data off from h16 0 (by omega),
    h16 2 (by omega), h16 4 (by omega), h16 6 (by omega), h32 8 (by omega)]
  simp only [haddrs]

end Dinode

/-- The copy of an inode on disk. -/
def Disk.dinode (d : Disk) (inum : Nat) : Dinode :=
  .ofBlock (d.block (d.sb.IBLOCK inum)) (Dinode.place inum)

/-- An entry of an indirect block. -/
def entry (data : Block) (j : Nat) : UInt32 := Dinode.field32 data (4 * j)

/-- `a[j] = addr`. -/
def setEntry (data : Block) (j : Nat) (addr : UInt32) : Block :=
  Bytes.splice data (4 * j) (Bytes.leBytes 4 addr.toNat)

theorem entry_zeros {j : Nat} : entry (fun _ => 0) j = 0 := by
  unfold entry Dinode.field32
  rw [Bytes.slice_zeros, Bytes.ofLe_zeros]
  rfl

/-- **An entry that is written is read back**, and the others are left alone. -/
theorem entry_setEntry {data : Block} {i j : Nat} {addr : UInt32} :
    entry (setEntry data i addr) j = if i = j then addr else entry data j := by
  unfold entry setEntry
  split
  next heq =>
    subst heq
    exact Dinode.field32_part (k := 0) (by simp) (by simp [List.take_of_length_le])
  next hne =>
    rw [Dinode.field32, Bytes.slice_splice_apart (by rw [Bytes.leBytes_length]; omega),
      Dinode.field32]

/-- `struct inode`. -/
structure Inode extends Dinode where
  dev : Nat
  inum : Nat
  ref : Nat
  locked : Bool
  valid : Bool

/-- The blocks, and the copy of a locked inode. -/
structure Node extends Disk where
  ip : Dinode

/-- Code that works on a locked inode. -/
abbrev NodeM := EStateM String Node

/-- The disk of a node. -/
def Node.diskPart : Component Node Disk where
  get := Node.toDisk
  set := fun d s => { s with toDisk := d }

/-- Work on the disk. -/
def NodeM.disk {α : Type} (x : DiskM α) : NodeM α := Node.diskPart.run x

/-! ### Contents -/

/-- `iupdate`. -/
def iupdate (inum : Nat) : NodeM Unit := do
  let s ← get
  let b := s.sb.IBLOCK inum
  .disk (store b (Bytes.splice (s.block b) (Dinode.place inum) s.ip.bytes))
  .disk (logWrite b)

/-- `ip->addrs[k] = addr`. -/
def Node.setAddr (s : Node) (k : Fin (NDIRECT + 1)) (addr : UInt32) : Node :=
  { s with ip := { s.ip with addrs := Function.update s.ip.addrs k addr } }

/-- `ip->addrs[k]`, allocated if it is zero. -/
def addrOrAlloc (k : Fin (NDIRECT + 1)) : NodeM UInt32 := do
  let s ← get
  if s.ip.addrs k = 0 then
    let addr ← .disk balloc
    modify fun s => s.setAddr k addr
    return addr
  else
    return s.ip.addrs k

/-- The place of direct block `bn` in `ip->addrs`. -/
def direct (bn : Nat) (h : bn < NDIRECT) : Fin (NDIRECT + 1) := ⟨bn, Nat.lt_succ_of_lt h⟩

/-- The place of the indirect block. -/
def indirect : Fin (NDIRECT + 1) := ⟨NDIRECT, Nat.lt_succ_self NDIRECT⟩

/-- `bmap`. -/
def bmap (bn : Nat) : NodeM UInt32 :=
  if h : bn < NDIRECT then addrOrAlloc (direct bn h)
  else if bn - NDIRECT < NINDIRECT then do
    let ind ← addrOrAlloc indirect
    let a ← .disk (bread ind)
    if entry a (bn - NDIRECT) = 0 then
      let addr ← .disk balloc
      let a ← .disk (bread ind)
      .disk (store ind (setEntry a (bn - NDIRECT) addr))
      .disk (logWrite ind)
      return addr
    else
      return entry a (bn - NDIRECT)
  else throw "bmap: out of range"

/-- A pass through the first loop of `itrunc`. -/
def truncDirect (k : Fin NDIRECT) : NodeM Unit := do
  let s ← get
  if s.ip.addrs k.castSucc = 0 then pure ()
  else
    .disk (bfree (s.ip.addrs k.castSucc))
    modify fun s => s.setAddr k.castSucc 0

/-- A pass through the second one, over the indirect block `ind`. -/
def truncEntry (ind : UInt32) (j : Nat) : DiskM Unit := do
  let a ← bread ind
  if entry a j = 0 then pure () else bfree (entry a j)

/-- `itrunc`. -/
def itrunc (inum : Nat) : NodeM Unit := do
  (List.finRange NDIRECT).forM truncDirect
  let s ← get
  if s.ip.addrs indirect = 0 then pure ()
  else
    let ind := s.ip.addrs indirect
    .disk ((List.range NINDIRECT).forM (truncEntry ind))
    .disk (bfree ind)
    modify fun s => s.setAddr indirect 0
  modify fun s => { s with ip := { s.ip with size := 0 } }
  iupdate inum

/-- How many bytes the next pass of a loop moves. -/
def chunk (off left : Nat) : Nat := min left (BSIZE - off % BSIZE)

/-- The loop of `readi`, with what `either_copyout` has delivered; `dst` says which
addresses of the destination can be written. -/
def readLoop (dst : Nat → Bool) : Nat → Nat → Nat → Nat → NodeM (Int × List UInt8)
  | 0, tot, _, _ => return (tot, [])
  | fuel + 1, tot, off, left =>
      if left = 0 then return (tot, [])
      else do
        let b ← bmap (off / BSIZE)
        let data ← .disk (bread b)
        let m := chunk off left
        let bytes := Bytes.slice data (off % BSIZE) m
        let done := ((List.range m).takeWhile fun i => dst (tot + i)).length
        if done < m then return (-1, bytes.take done)
        else
          let (r, rest) ← readLoop dst fuel (tot + m) (off + m) (left - m)
          return (r, bytes ++ rest)

/-- `readi`: what it returns, and the bytes it has delivered. -/
def readi (dst : Nat → Bool) (off n : Nat) : NodeM (Int × List UInt8) := do
  let s ← get
  let size := s.ip.size.toNat
  if off > size ∨ (off + n) % 2 ^ 32 < off then return (0, [])
  else
    let n := if off + n > size then size - off else n
    readLoop dst n 0 off n

/-- The bytes that `either_copyin` moves; `src` has those that can be read. -/
def readable (src : Nat → Option UInt8) (tot m : Nat) : List UInt8 :=
  ((List.range m).map fun i => src (tot + i)).takeWhile Option.isSome |>.filterMap id

/-- The loop of `writei`. -/
def writeLoop (src : Nat → Option UInt8) : Nat → Nat → Nat → Nat → NodeM Nat
  | 0, tot, _, _ => return tot
  | fuel + 1, tot, off, left =>
      if left = 0 then return tot
      else do
        let b ← bmap (off / BSIZE)
        let data ← .disk (bread b)
        let m := chunk off left
        let bytes := readable src tot m
        .disk (store b (Bytes.splice data (off % BSIZE) bytes))
        if bytes.length < m then return tot
        else
          .disk (logWrite b)
          writeLoop src fuel (tot + m) (off + m) (left - m)

/-- `writei`. -/
def writei (inum : Nat) (src : Nat → Option UInt8) (off n : Nat) : NodeM Int := do
  let s ← get
  if off > s.ip.size.toNat ∨ (off + n) % 2 ^ 32 < off then return -1
  else if off + n > MAXFILE * BSIZE then return -1
  else
    let tot ← writeLoop src n 0 off n
    modify fun s =>
      if off + tot > s.ip.size.toNat then
        { s with ip := { s.ip with size := UInt32.ofNat (off + tot) } }
      else s
    iupdate inum
    return tot

/-! ### The inode table -/

/-- The blocks and `itable`. -/
structure FileSys extends Disk where
  inode : Fin NINODE → Inode

/-- Code that works on the file system. -/
abbrev FsM := EStateM String FileSys

namespace FileSys

/-- The disk of the file system. -/
def diskPart : Component FileSys Disk where
  get := FileSys.toDisk
  set := fun d s => { s with toDisk := d }

/-- The disk and an inode of the table. -/
def node (i : Fin NINODE) : Component FileSys Node where
  get := fun s => ⟨s.toDisk, (s.inode i).toDinode⟩
  set := fun n s =>
    { s with
      toDisk := n.toDisk
      inode := Function.update s.inode i { s.inode i with toDinode := n.ip } }

/-- An inode of the table is changed. -/
def setInode (s : FileSys) (i : Fin NINODE) (ip : Inode) : FileSys :=
  { s with inode := Function.update s.inode i ip }

end FileSys

/-- Work on the disk. -/
def FsM.disk {α : Type} (x : DiskM α) : FsM α := FileSys.diskPart.run x

/-- Work on an inode. -/
def FsM.node {α : Type} (i : Fin NINODE) (x : NodeM α) : FsM α := (FileSys.node i).run x

/-- The entry of the table that is in use for an inode. -/
def FileSys.cached (s : FileSys) (dev inum : Nat) : Option (Fin NINODE) :=
  (List.finRange NINODE).find? fun i =>
    0 < (s.inode i).ref ∧ (s.inode i).dev = dev ∧ (s.inode i).inum = inum

/-- `iget`. -/
def iget (dev inum : Nat) : FsM (Fin NINODE) := do
  let s ← get
  match s.cached dev inum with
  | some i =>
      set (s.setInode i { s.inode i with ref := (s.inode i).ref + 1 })
      return i
  | none =>
      match (List.finRange NINODE).find? fun i => (s.inode i).ref = 0 with
      | some i =>
          set (s.setInode i { s.inode i with dev, inum, ref := 1, valid := false })
          return i
      | none => throw "iget: no inodes"

/-- `idup`. -/
def idup (i : Fin NINODE) : FsM (Fin NINODE) := do
  modify fun s => s.setInode i { s.inode i with ref := (s.inode i).ref + 1 }
  return i

/-- `ialloc`. -/
def ialloc (dev : Nat) (type : UInt16) : FsM (Fin NINODE) := do
  let s ← get
  match (List.range' 1 (s.sb.ninodes - 1)).find? fun inum => (s.dinode inum).type = 0 with
  | some inum =>
      let b := s.sb.IBLOCK inum
      .disk (store b (Bytes.splice (s.block b) (Dinode.place inum)
        { Dinode.zero with type }.bytes))
      .disk (logWrite b)
      iget dev inum
  | none => throw "ialloc: no inodes"

/-- `ilock`. -/
def ilock (i : Fin NINODE) : FsM Unit := do
  let s ← get
  let ip := s.inode i
  if ip.ref < 1 then throw "ilock"
  else if ip.locked then throw "sleeps on the inode"
  else if ip.valid then set (s.setInode i { ip with locked := true })
  else
    let dip := s.dinode ip.inum
    set (s.setInode i { ip with locked := true, valid := true, toDinode := dip })
    if dip.type = 0 then throw "ilock: no type" else pure ()

/-- `iunlock`. -/
def iunlock (i : Fin NINODE) : FsM Unit := do
  let s ← get
  let ip := s.inode i
  if ¬ ip.locked ∨ ip.ref < 1 then throw "iunlock"
  else set (s.setInode i { ip with locked := false })

/-- The part of `iput` that frees an inode without links. -/
def ifree (i : Fin NINODE) : FsM Unit := do
  let s ← get
  let inum := (s.inode i).inum
  if (s.inode i).locked then throw "sleeps on the inode"
  else
    .node i do
      itrunc inum
      modify fun s => { s with ip := { s.ip with type := 0 } }
      iupdate inum
    modify fun s => s.setInode i { s.inode i with valid := false }

/-- `iput`. -/
def iput (i : Fin NINODE) : FsM Unit := do
  let s ← get
  let ip := s.inode i
  if ip.ref = 1 ∧ ip.valid ∧ ip.nlink = 0 then ifree i else pure ()
  modify fun s => s.setInode i { s.inode i with ref := (s.inode i).ref - 1 }

/-- `iunlockput`. -/
def iunlockput (i : Fin NINODE) : FsM Unit := do
  iunlock i
  iput i

end Fs
