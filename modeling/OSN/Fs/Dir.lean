import OSN.Fs.Inode

/-!
# Directories and path names

A directory is a file of `dirent`s.  A C string is the list of its bytes; what follows
is a NUL.
-/

namespace Fs

/-- The most bytes of a name. -/
def DIRSIZ : Nat := 14

/-- A string of C, without its NUL. -/
abbrev CStr := List UInt8

/-- `struct dirent`. -/
structure Dirent where
  inum : Nat
  name : List UInt8

/-- `sizeof(struct dirent)`. -/
def DIRENTSIZE : Nat := 2 + DIRSIZ

namespace Dirent

/-- The bytes of an entry; the number is a `ushort`. -/
def bytes (de : Dirent) : List UInt8 := Bytes.leBytes 2 de.inum ++ de.name

def ofBytes (l : List UInt8) : Dirent := ⟨Bytes.ofLe (l.take 2), l.drop 2⟩

theorem bytes_length {de : Dirent} (h : de.name.length = DIRSIZ) :
    de.bytes.length = DIRENTSIZE := by
  unfold bytes DIRENTSIZE
  rw [List.length_append, Bytes.leBytes_length, h]

/-- An entry is read back, its number as a `ushort`. -/
theorem ofBytes_bytes (de : Dirent) : ofBytes de.bytes = ⟨de.inum % 2 ^ 16, de.name⟩ := by
  have hlength : (Bytes.leBytes 2 de.inum).length = 2 := Bytes.leBytes_length
  unfold ofBytes bytes
  rw [List.take_left' hlength, List.drop_left' hlength, Bytes.ofLe_leBytes]
  rfl

end Dirent

/-- `strncmp(p, q, n) == 0`. -/
def strncmpEq : Nat → CStr → CStr → Bool
  | 0, _, _ => true
  | n + 1, p, q =>
      if p.headD 0 ≠ 0 ∧ p.headD 0 = q.headD 0 then strncmpEq n p.tail q.tail
      else p.headD 0 = q.headD 0

/-- The `n` bytes that `strncpy(s, t, n)` writes. -/
def strncpy : Nat → CStr → List UInt8
  | 0, _ => []
  | n + 1, t =>
      if t.headD 0 = 0 then List.replicate (n + 1) 0
      else t.headD 0 :: strncpy n t.tail

theorem strncpy_length {n : Nat} {t : CStr} : (strncpy n t).length = n := by
  induction n generalizing t with
  | zero => rfl
  | succ n ih =>
      unfold strncpy
      split
      · simp
      · rw [List.length_cons, ih]

/-- `namecmp(s, t) == 0`. -/
def namecmp (s t : CStr) : Bool := strncmpEq DIRSIZ s t

/-- All addresses of the kernel can be written. -/
def kernelDst : Nat → Bool := fun _ => true

/-- And its data can be read. -/
def kernelSrc (l : List UInt8) : Nat → Option UInt8 := fun i => l[i]?

/-- An entry is read; the panic is the caller's own. -/
def readDirent (text : String) (off : Nat) : NodeM Dirent := do
  let (r, l) ← readi kernelDst off DIRENTSIZE
  if r ≠ DIRENTSIZE then throw text
  else return .ofBytes l

/-- The loops over the entries of a directory: the first one of the listed offsets at
which `p` holds. -/
def findEntry (text : String) (p : Dirent → Bool) : List Nat → NodeM (Option (Nat × Dirent))
  | [] => return none
  | off :: offs => do
      let de ← readDirent text off
      if p de then return some (off, de) else findEntry text p offs

/-- The offsets `from`, `from + sizeof(de)`, … below a size. -/
def offsets (first size : Nat) : List Nat :=
  (List.range ((size - first + (DIRENTSIZE - 1)) / DIRENTSIZE)).map fun k => first + DIRENTSIZE * k

/-- `dirlookup`: the inode, and the offset of its entry. -/
def dirlookup (dp : Fin NINODE) (name : CStr) : FsM (Option (Fin NINODE × Nat)) := do
  let s ← get
  let d := s.inode dp
  if d.type ≠ T_DIR then throw "dirlookup not DIR"
  else
    let found ← .node dp (findEntry "dirlookup read"
      (fun de => de.inum ≠ 0 ∧ namecmp name de.name) (offsets 0 d.size.toNat))
    match found with
    | some (off, de) =>
        let ip ← iget d.dev de.inum
        return some (ip, off)
    | none => return none

/-- An entry is written, as a whole. -/
def writeDirent (text : String) (inum : Nat) (de : Dirent) (off : Nat) : NodeM Unit := do
  let r ← writei inum (kernelSrc de.bytes) off DIRENTSIZE
  if r ≠ DIRENTSIZE then throw text
  else pure ()

/-- The part of `dirlink` that writes the entry. -/
def addEntry (dinum : Nat) (name : CStr) (inum : Nat) : NodeM Unit := do
  let s ← get
  let size := s.ip.size.toNat
  let offs := offsets 0 size
  let found ← findEntry "dirlink read" (fun de => de.inum = 0) offs
  let off := match found with
    | some (off, _) => off
    | none => DIRENTSIZE * offs.length
  writeDirent "dirlink" dinum ⟨inum, strncpy DIRSIZ name⟩ off

/-- `dirlink`. -/
def dirlink (dp : Fin NINODE) (name : CStr) (inum : Nat) : FsM Int := do
  match ← dirlookup dp name with
  | some (ip, _) =>
      iput ip
      return -1
  | none =>
      let s ← get
      .node dp (addEntry (s.inode dp).inum name inum)
      return 0

/-- `isdirempty`. -/
def isdirempty (dp : Fin NINODE) : FsM Bool := do
  let s ← get
  let found ← .node dp (findEntry "isdirempty: readi" (fun de => de.inum ≠ 0)
    (offsets (2 * DIRENTSIZE) (s.inode dp).size.toNat))
  return found.isNone

/-! ### Paths -/

/-- `'/'` -/
def SLASH : UInt8 := 47

/-- `'.'` -/
def DOT : UInt8 := 46

/-- The names `.` and `..`. -/
def dot : CStr := [DOT]

def dotdot : CStr := [DOT, DOT]

/-- `skipelem`: the next element and what follows it. -/
def skipelem (path : CStr) : Option (CStr × CStr) :=
  let path := path.dropWhile (· = SLASH)
  if path = [] then none
  else
    let elem := path.takeWhile (· ≠ SLASH)
    some (elem.take DIRSIZ, (path.dropWhile (· ≠ SLASH)).dropWhile (· = SLASH))

/-- The loop of `namex`; the name is the last one that `skipelem` has copied. -/
def namexLoop (parent : Bool) : Nat → CStr → Fin NINODE → FsM (Option (Fin NINODE × CStr))
  | fuel, path, ip =>
    match skipelem path with
    | none =>
        if parent then do
          iput ip
          return none
        else return some (ip, [])
    | some (name, rest) =>
      match fuel with
      | 0 => throw "namex goes on"
      | fuel + 1 => do
          ilock ip
          let s ← get
          if (s.inode ip).type ≠ T_DIR then
            iunlockput ip
            return none
          else if parent ∧ rest = [] then
            iunlock ip
            return some (ip, name)
          else
            match ← dirlookup ip name with
            | none =>
                iunlockput ip
                return none
            | some (next, _) =>
                iunlockput ip
                namexLoop parent fuel rest next

/-- `namex`, from the current directory `cwd`. -/
def namex (parent : Bool) (cwd : Fin NINODE) (path : CStr) : FsM (Option (Fin NINODE × CStr)) := do
  let ip ← if path.head? = some SLASH then iget ROOTDEV ROOTINO else idup cwd
  namexLoop parent path.length path ip

/-- `namei`. -/
def namei (cwd : Fin NINODE) (path : CStr) : FsM (Option (Fin NINODE)) := do
  return (← namex false cwd path).map Prod.fst

/-- `nameiparent`: the directory, and the last element of the path. -/
def nameiparent (cwd : Fin NINODE) (path : CStr) : FsM (Option (Fin NINODE × CStr)) :=
  namex true cwd path

end Fs
