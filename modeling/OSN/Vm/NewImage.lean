import OSN.Vm.AllOrNothing
import OSN.Vm.Refines

/-!
# The image that `exec` makes

The offsets of the file are 64 bits wide, but `exec` reads at their low 32 bits.  So when it
succeeds the new image is that of the program exactly if no offset has more.
-/

namespace Vm

open Xv6 (PGSIZE MAXVA)
open Fs (CStr)

attribute [local irreducible] freewalk uvmclear

variable {room : Nat → Prop} {trampoline : Nat} {file : Option (List UInt8)} {content : List UInt8}
  {path : CStr} {argv args : List CStr} {p q : Task} {pagetable sz sp : Nat} {img : Nat → UInt8}

/-! ### The image of a program -/

/-- The segments of the program in a file. -/
def program (content : List UInt8) : List Proghdr :=
  segments content (header content).phnum (header content).phoff

/-- **The image of a program**, with the stack for its arguments: the headers and the segments
are in the file, and the memory holds what they say. -/
structure IsImage (content : List UInt8) (argv : List CStr) (sz : Nat) (img : Nat → UInt8) :
    Prop where
  headers : 0 < (header content).phnum →
    (header content).phoff + PROGHDRSIZE * (header content).phnum ≤ content.length
  sound : ∀ ph ∈ program content, ph.Sound content
  size : sz = withStack (imageEnd 0 (program content))
  image : img = Bytes.splices (fun _ => 0)
    ((program content).map (Proghdr.run content) ++ stackRuns sz argv)

/-- No offset that is used has more than 32 bits. -/
def OffsetsFit (content : List UInt8) : Prop :=
  (0 < (header content).phnum → (header content).phoff < 2 ^ 32) ∧
    ∀ ph ∈ program content, 0 < ph.filesz → ph.off < 2 ^ 32

instance : Decidable (OffsetsFit content) := by
  unfold OffsetsFit
  infer_instance

theorem IsImage.offsetsFit (h : IsImage content argv sz img) (hcontent : content.length < 2 ^ 32) :
    OffsetsFit content := by
  refine ⟨fun hpos => ?_, fun ph hph hpos => ?_⟩
  · have hin := h.headers hpos
    omega
  · have hin := (h.sound ph hph).inFile hpos
    omega

/-- Offsets that fit are the offsets that are used. -/
theorem OffsetsFit.narrow {ph : Proghdr} (h : OffsetsFit content) (hph : ph ∈ program content) :
    ph.narrow.run content = ph.run content ∧
      (ph.narrow.Sound content → ph.Sound content) := by
  by_cases hpos : 0 < ph.filesz
  · have hsame : ph.narrow = ph := by
      unfold Proghdr.narrow
      rw [Nat.mod_eq_of_lt (h.2 ph hph hpos)]
    rw [hsame]
    exact ⟨rfl, id⟩
  · have hzero : ph.filesz = 0 := Nat.eq_zero_of_not_pos hpos
    refine ⟨?_, fun hsound => ⟨hsound.aligned, hsound.room, fun hbad => absurd hbad hpos⟩⟩
    unfold Proghdr.run
    change (ph.vaddr, (content.drop (ph.off % 2 ^ 32)).take ph.filesz) = _
    rw [hzero, List.take_zero, List.take_zero]

/-- The segments that the code finds. -/
theorem OffsetsFit.segments (h : OffsetsFit content) :
    Vm.segments content (header content).phnum ((header content).phoff % 2 ^ 32) =
      program content := by
  unfold program
  by_cases hpos : 0 < (header content).phnum
  · rw [Nat.mod_eq_of_lt (h.1 hpos)]
  · rw [Nat.eq_zero_of_not_pos hpos]
    rfl

/-- A process that is unchanged has what it had. -/
theorem Task.Unchanged.owns (h : p.Unchanged q) (howns : p.Owns room trampoline) :
    q.Owns room trampoline := by
  obtain ⟨⟨hsz, f, m, htable⟩, haligned, hapart, hframe, hcode⟩ := howns
  have htable' := htable.moved (htable.toPages.restored h.pages h.kernelEnd) fun b i hi hb =>
    h.mem b (hb ▸ htable.tenancy.lives hi)
  obtain ⟨hpagetable, hsize, htrapframe⟩ := And.intro h.pagetable (And.intro h.sz h.trapframe)
  refine ⟨?_, htrapframe ▸ haligned, htrapframe ▸ hapart, htrapframe ▸ hframe, hcode⟩
  rw [hpagetable, hsize, htrapframe]
  exact ⟨hsz, f, m, htable'⟩

/-- **A process with a new program.** -/
structure NewProcess (room : Nat → Prop) (trampoline : Nat) (content : List UInt8) (path : CStr)
    (argv : List CStr) (img : Nat → UInt8) (p q : Task) : Prop where
  owns : q.Owns room trampoline
  trapframe : q.trapframe = p.trapframe
  name : q.name = safestrcpy p.name (lastElement path) 16
  epc : q.ram.load (q.trapframe + 24) = (header content).entry
  a1 : q.ram.load (q.trapframe + 120) = q.ram.load (q.trapframe + 48)
  mem : ∀ b, ¬ room (PGROUNDDOWN b) → ¬ InWords q.trapframe b → q.ram.mem b = p.ram.mem b
  image : Imaged room q.pagetable trampoline q.trapframe q.sz (notGuard q.sz) img q.ram
  args : ArgsAt img (q.ram.load (q.trapframe + 48)) q.sz argv
  readable : ∀ a, q.ram.load (q.trapframe + 48) ≤ a → a < q.sz → notGuard q.sz (a / PGSIZE)

/-- **All or nothing**: `exec` does not panic and ends the operation that it begins; it fails and
the process is what it was, or the process has the image of the program. -/
def AllOrNothing (room : Nat → Prop) (trampoline : Nat) (file : Option (List UInt8)) (path : CStr)
    (argv : List CStr) (p : Task) : Prop :=
  ∃ r q, exec trampoline file path argv p = .ok r q ∧ OneOp p.calls q.calls ∧
    (r = -1 ∧ p.Unchanged q ∧ q.Owns room trampoline ∨
      r = argv.length ∧ ∃ content img, file = some content ∧
        NewProcess room trampoline content path argv img p q ∧ IsImage content argv q.sz img)

/-- The file that there is has offsets that fit. -/
def FileFits (file : Option (List UInt8)) : Prop :=
  ∀ content, file = some content → OffsetsFit content

/-- When it succeeds, the offsets fit. -/
theorem AllOrNothing.fits (h : AllOrNothing room trampoline file path argv p)
    (hfile : ∀ content, file = some content → content.length < 2 ^ 32)
    (hsucceeds : ∀ r q, exec trampoline file path argv p = .ok r q → r ≠ -1) : FileFits file := by
  obtain ⟨r, q, hrun, -, ⟨hr, -⟩ | ⟨-, content, img, hsome, -, himage⟩⟩ := h
  · exact absurd hr (hsucceeds r q hrun)
  · intro content' hsome'
    obtain rfl := Option.some.inj (hsome.symm.trans hsome')
    exact himage.offsetsFit (hfile _ hsome)

end Vm
