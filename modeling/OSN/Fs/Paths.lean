import Mathlib.Data.List.DropRight
import OSN.Fs.DirMap
import OSN.Fs.Holes

/-!
# Paths

A path is taken apart at its slashes, and each of its components is looked up in the
directory that the one before has led to.
-/

namespace Fs

/-! ### Components -/

variable {path elem rest name : CStr} {c : UInt8}

namespace Disk

/-- An inode of the disk, with its file. -/
def nodeAt (d : Disk) (k : Nat) : Node := ⟨d, d.dinode k⟩

/-- The inode that a directory has under a name. -/
def lookAt (d : Disk) (k : Nat) (name : CStr) : Option Nat :=
  if (d.dinode k).type = T_DIR then Slots.value (d.nodeAt k).slots (nameKey name) else none

/-- The inode that names lead to, one after the other. -/
def walk (d : Disk) (k : Nat) (names : List CStr) : Option Nat := names.foldlM d.lookAt k

/-- Inode `k` should not be on the way: it is free or has no links, or it is a directory that
ends within an entry. -/
def Unsound (d : Disk) (k : Nat) : Prop :=
  (d.dinode k).type = 0 ∨ (d.dinode k).nlink = 0 ∨
    (d.dinode k).type = T_DIR ∧ ¬ (d.nodeAt k).Whole

variable {d t u : Disk} {k : Nat} {names : List CStr}

/-- At most inodes without links have been freed. -/
structure Thinned (d t : Disk) : Prop where
  sb : t.sb = d.sb
  kept : ∀ k < d.sb.ninodes, (t.dinode k).type ≠ 0 → t.dinode k = d.dinode k ∧
    ∀ p, (t.nodeAt k).byte p = (d.nodeAt k).byte p
  gone : ∀ k < d.sb.ninodes, (t.dinode k).type = 0 →
    (d.dinode k).type = 0 ∨ (d.dinode k).nlink = 0

theorem Thinned.refl : Thinned d d := ⟨rfl, fun _ _ _ => ⟨rfl, fun _ => rfl⟩, fun _ _ h => Or.inl h⟩

theorem Thinned.trans (h : Thinned d t) (h' : Thinned t u) : Thinned d u := by
  refine ⟨h'.sb.trans h.sb, fun k hk hused => ?_, fun k hk hfree => ?_⟩
  · obtain ⟨hsame', hbyte'⟩ := h'.kept k (h.sb ▸ hk) hused
    obtain ⟨hsame, hbyte⟩ := h.kept k hk (hsame' ▸ hused)
    exact ⟨hsame'.trans hsame, fun p => (hbyte' p).trans (hbyte p)⟩
  · by_cases hgone : (t.dinode k).type = 0
    · exact h.gone k hk hgone
    · rcases h'.gone k (h.sb ▸ hk) hfree with hzero | hzero
      · exact absurd hzero hgone
      · rw [(h.kept k hk hgone).1] at hzero
        exact Or.inr hzero

/-- What is left is what it was. -/
theorem Thinned.nodeAt (h : Thinned d t) (hk : k < d.sb.ninodes) (hused : (t.dinode k).type ≠ 0) :
    (t.nodeAt k).slots = (d.nodeAt k).slots ∧ ((t.nodeAt k).Whole ↔ (d.nodeAt k).Whole) := by
  obtain ⟨hsame, hbyte⟩ := h.kept k hk hused
  have hsize : (t.nodeAt k).ip.size = (d.nodeAt k).ip.size := congrArg Dinode.size hsame
  refine ⟨Node.slots_congr hsize (funext hbyte), ?_⟩
  unfold Node.Whole
  rw [hsize]

theorem Thinned.lookAt (h : Thinned d t) (hk : k < d.sb.ninodes) (hused : (t.dinode k).type ≠ 0)
    (name : CStr) : t.lookAt k name = d.lookAt k name := by
  unfold Disk.lookAt
  rw [(h.kept k hk hused).1, (h.nodeAt hk hused).1]

theorem walk_cons {name : CStr} :
    d.walk k (name :: names) = (d.lookAt k name).bind fun next => d.walk next names :=
  List.foldlM_cons

end Disk

/-! ### What can go wrong on the way -/

/-- Not the failure of the model's loop that runs out of fuel. -/
abbrev InTime (e : String) : Prop := e ≠ "namex goes on"

namespace FileSys

variable {s t u s₀ : FileSys} {i j : Fin NINODE} {base : Fin NINODE → Nat}
  {held : List (Fin NINODE)}

/-- No entry of the table has another inode. -/
def SameInums (s t : FileSys) : Prop := ∀ j, (t.inode j).inum = (s.inode j).inum

theorem SameInums.setInode {ip : Inode} (h : ip.inum = (s.inode i).inum) :
    SameInums s (s.setInode i ip) := by
  intro j
  by_cases hj : j = i
  · subst hj
    simpa [FileSys.setInode] using h
  · simp [FileSys.setInode, hj]

theorem SameInums.trans (h : SameInums s t) (h' : SameInums t u) : SameInums s u :=
  fun j => (h' j).trans (h j)

/-- What stops `namex`: the inode table is full, or an inode on the way is not sound. -/
def Stuck (d : Disk) (k : Nat) (names : List CStr) (e : String) (t : FileSys) : Prop :=
  InTime e ∧ (TableFull t e ∨ ∃ n k', d.walk k (names.take n) = some k' ∧ d.Unsound k')

variable {d : Disk} {k : Nat} {names : List CStr} {name path rest : CStr} {e : String}
  {parent : Bool} {fuel : Nat} {ip cwd : Fin NINODE}

theorem Stuck.here (hin : InTime e) (hbad : d.Unsound k) : Stuck d k names e t :=
  ⟨hin, Or.inr ⟨0, k, rfl, hbad⟩⟩

theorem Stuck.cons {next : Nat} (hlook : d.lookAt k name = some next) (h : Stuck d next names e t) :
    Stuck d k (name :: names) e t := by
  refine ⟨h.1, h.2.imp_right ?_⟩
  rintro ⟨n, k', hwalk, hbad⟩
  refine ⟨n + 1, k', ?_, hbad⟩
  rw [List.take_succ_cons, Disk.walk_cons, hlook]
  exact hwalk

theorem Steady.begins (h : Steady [] s) : Kept (fun i => (s.inode i).ref) s [] [] s :=
  Kept.start ⟨fun _ => rfl, fun i j hi hj _ hinum => h.unique i j hi hj hinum⟩ h

end FileSys

end Fs
