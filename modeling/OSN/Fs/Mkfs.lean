import OSN.Fs.Calls

/-!
# `mkfs`

The image is built block by block: an inode and an entry of the root directory for each
file, then the bitmap.  What `read` returns from a file may come in pieces of any size,
and each piece is appended by itself.  The host is little-endian, so `xshort` and `xint`
change nothing.
-/

namespace Fs

open Xv6 (LOGSIZE)

/-- Size of the file system in blocks. -/
def FSSIZE : Nat := 1000

def NINODES : Nat := 200

def nbitmap : Nat := FSSIZE / (BSIZE * 8) + 1

def ninodeblocks : Nat := NINODES / IPB + 1

def nlog : Nat := LOGSIZE

/-- Number of meta blocks: boot, superblock, log, inodes, bitmap. -/
def nmeta : Nat := 2 + nlog + ninodeblocks + nbitmap

/-- The superblock that `mkfs` writes. -/
def mkfsSb : Superblock where
  magic := FSMAGIC
  size := FSSIZE
  nblocks := FSSIZE - nmeta
  ninodes := NINODES
  nlog := nlog
  logstart := 2
  inodestart := 2 + nlog
  bmapstart := 2 + nlog + ninodeblocks

namespace Superblock

/-- The bytes of a superblock. -/
def bytes (sb : Superblock) : List UInt8 :=
  [sb.magic, sb.size, sb.nblocks, sb.ninodes, sb.nlog, sb.logstart, sb.inodestart,
    sb.bmapstart].flatMap (Bytes.leBytes 4)

end Superblock

/-- The image, and the counters of what has been given out. -/
structure Image where
  block : UInt32 → Block
  freeinode : Nat
  freeblock : Nat

/-- `mkfs` stops at a failed assertion or at the end of the image. -/
abbrev MkfsM := EStateM String Image

/-- `rsect`. -/
def rsect (sec : UInt32) : MkfsM Block := do
  let m ← get
  if sec.toNat < FSSIZE then return m.block sec else throw "read"

/-- `wsect`. -/
def wsect (sec : UInt32) (buf : Block) : MkfsM Unit :=
  modify fun m => { m with block := Function.update m.block sec buf }

/-- `rinode`. -/
def rinode (inum : Nat) : MkfsM Dinode := do
  let buf ← rsect (mkfsSb.IBLOCK inum)
  return .ofBlock buf (Dinode.place inum)

/-- `winode`. -/
def winode (inum : Nat) (ip : Dinode) : MkfsM Unit := do
  let buf ← rsect (mkfsSb.IBLOCK inum)
  wsect (mkfsSb.IBLOCK inum) (Bytes.splice buf (Dinode.place inum) ip.bytes)

namespace Mkfs

/-- `ialloc`. -/
def ialloc (type : UInt16) : MkfsM Nat := do
  let m ← get
  set { m with freeinode := m.freeinode + 1 }
  winode m.freeinode { Dinode.zero with type, nlink := 1 }
  return m.freeinode

/-- The bitmap with the first blocks marked. -/
def bitmap (used : Nat) : Block :=
  (List.range used).foldl (fun buf i => Bytes.setBit buf i) fun _ => 0

/-- `balloc`. -/
def balloc (used : Nat) : MkfsM Unit :=
  if used < BSIZE * 8 then wsect (UInt32.ofNat mkfsSb.bmapstart) (bitmap used)
  else throw "used < BSIZE*8"

/-- `freeblock++`. -/
def nextBlock : MkfsM UInt32 := do
  let m ← get
  set { m with freeblock := m.freeblock + 1 }
  return UInt32.ofNat m.freeblock

/-- An address of the inode at hand, given out if it is missing. -/
def addrOrNext (din : Dinode) (k : Fin (NDIRECT + 1)) : MkfsM Dinode :=
  if din.addrs k = 0 then do
    let x ← nextBlock
    return { din with addrs := Function.update din.addrs k x }
  else return din

/-- Block `fbn` of the file with the inode at hand. -/
def fileBlock (din : Dinode) (fbn : Nat) : MkfsM (UInt32 × Dinode) :=
  if h : fbn < NDIRECT then do
    let din ← addrOrNext din (direct fbn h)
    return (din.addrs (direct fbn h), din)
  else do
    let din ← addrOrNext din indirect
    let a ← rsect (din.addrs indirect)
    if entry a (fbn - NDIRECT) = 0 then
      let x ← nextBlock
      wsect (din.addrs indirect) (setEntry a (fbn - NDIRECT) x)
      return (x, din)
    else return (entry a (fbn - NDIRECT), din)

/-- The loop of `iappend`: what is left of the bytes goes to `off`. -/
def appendLoop : Nat → Dinode → Nat → List UInt8 → MkfsM Dinode
  | 0, din, off, _ => return { din with size := UInt32.ofNat off }
  | fuel + 1, din, off, p =>
      if p = [] then return { din with size := UInt32.ofNat off }
      else
        let fbn := off / BSIZE
        if fbn < MAXFILE then do
          let (x, din) ← fileBlock din fbn
          let n1 := min p.length ((fbn + 1) * BSIZE - off)
          let buf ← rsect x
          wsect x (Bytes.splice buf (off - fbn * BSIZE) (p.take n1))
          appendLoop fuel din (off + n1) (p.drop n1)
        else throw "fbn < MAXFILE"

/-- `iappend`. -/
def iappend (inum : Nat) (p : List UInt8) : MkfsM Unit := do
  let din ← rinode inum
  let din ← appendLoop p.length din din.size.toNat p
  winode inum din

/-- A file on the command line, with what `read` returns from it until it returns 0. -/
structure SourceFile where
  argv : CStr
  reads : List (List UInt8)
  string : 0 ∉ argv
  pieces : ∀ piece ∈ reads, piece ≠ [] ∧ piece.length ≤ BSIZE

/-- `"user/"` -/
def userDir : CStr := [117, 115, 101, 114, SLASH]

/-- `'_'` -/
def UNDERSCORE : UInt8 := 95

/-- The name without `user/`. -/
def SourceFile.shortname (file : SourceFile) : CStr :=
  if file.argv.take 5 = userDir then file.argv.drop 5 else file.argv

/-- And without a leading `_`: the name on the image. -/
def SourceFile.name (file : SourceFile) : CStr :=
  if file.shortname.head? = some UNDERSCORE then file.shortname.tail else file.shortname

/-- What the file holds. -/
def SourceFile.data (file : SourceFile) : List UInt8 := file.reads.flatten

/-- An entry is appended to the root directory. -/
def appendEntry (inum : Nat) (name : CStr) : MkfsM Unit :=
  iappend ROOTINO (Dirent.bytes ⟨inum, strncpy DIRSIZ name⟩)

/-- A file is put on the image. -/
def addFile (file : SourceFile) : MkfsM Unit := do
  if SLASH ∈ file.shortname then throw "index(shortname, '/') == 0"
  else
    let inum ← ialloc T_FILE
    appendEntry inum file.name
    file.reads.forM (iappend inum)

/-- The size of the root directory is rounded. -/
def fixRoot : MkfsM Unit := do
  let din ← rinode ROOTINO
  winode ROOTINO { din with size := (din.size / UInt32.ofNat BSIZE + 1) * UInt32.ofNat BSIZE }

/-- The image before the first inode is made. -/
def blank : Image where
  block := Function.update (fun _ _ => 0) 1 (Bytes.splice (fun _ => 0) 0 mkfsSb.bytes)
  freeinode := 1
  freeblock := nmeta

/-- The part of `main` that fills the image. -/
def fill (files : List SourceFile) : MkfsM Unit := do
  let rootino ← ialloc T_DIR
  if rootino ≠ ROOTINO then throw "rootino == ROOTINO"
  else
    appendEntry rootino dot
    appendEntry rootino dotdot
    files.forM addFile
    fixRoot
    let m ← get
    balloc m.freeblock

/-- `main`: the image, if `mkfs` gets to its end. -/
def main (files : List SourceFile) : Except String Image :=
  match fill files blank with
  | .ok _ m => .ok m
  | .error e _ => .error e

end Mkfs

end Fs
