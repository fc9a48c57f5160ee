import OSN.Fs.MkfsNames
import OSN.Fs.Whole

/-!
# Holes on the image of `mkfs`

The size of the root directory is rounded up past its end, also where it ends with a block:
then its last block is missing, and reading the directory would allocate it.
-/

namespace Fs

open Mkfs

namespace FileSys

variable {s t : FileSys} {i : Fin NINODE} {locks : List (Fin NINODE)} {dev inum : Nat}

theorem Steady.full (h : Steady [] s) : ∀ inum < s.sb.ninodes, (s.copy inum).type ≠ 0 →
    Full s.block (s.copy inum) := by
  intro inum hinum
  have hcopy : s.copy inum = s.dinode inum := by
    by_cases hheld : ∃ j, (s.inode j).Holds inum
    · obtain ⟨j, hj⟩ := hheld
      rw [copy_of_holds h.unique hj, h.synced j inum hj]
    · exact copy_of_none fun j hj => hheld ⟨j, hj⟩
  rw [hcopy]
  exact fun hused => (h.sane inum hinum hused).full

end FileSys

/-! ### The root directory -/

section Root

variable {s : FileSys} {files : List SourceFile} {m : Image} {j : Nat}

end Root

/-! ### Every run -/

variable {files : List SourceFile} {m : Image}

end Fs
