import OSN.Vm.Exec

/-!
# Where the kernel ends

`end` is a constant: nothing that deals with pages changes it.
-/

namespace Vm

open Xv6 (PGSIZE MAXVA)
open Fs (CStr)

/-- The code leaves `end` alone. -/
def Fixed {α : Type} (x : RamM α) : Prop := ∀ c, Keeps (fun s : Ram => s.kernelEnd = c) x

namespace Fixed

variable {α β : Type} {x y : RamM α} {h : α → RamM β} {c : Prop} {g : Ram → Ram}

theorem pure (b : α) : Fixed (Pure.pure b) := fun _ => Keeps.pure b

theorem throw (e : String) : Fixed (throw e : RamM α) := fun _ => Keeps.throw e

theorem bind (hx : Fixed x) (hh : ∀ b, Fixed (h b)) : Fixed (x >>= h) := fun c =>
  (hx c).bind fun b => hh b c

theorem ite [Decidable c] (hx : Fixed x) (hy : Fixed y) : Fixed (if c then x else y) := fun c =>
  (hx c).ite (hy c)

theorem modify (hg : ∀ s, (g s).kernelEnd = s.kernelEnd) : Fixed (modify g) := fun _ =>
  Keeps.modify fun s hs => (hg s).trans hs

theorem load (a : Nat) : Fixed (Vm.load a) := fun _ => Keeps.get_bind fun _ hs => hs

theorem store (a v : Nat) : Fixed (Vm.store a v) := modify fun _ => rfl

theorem memset (a : Nat) (b : UInt8) (n : Nat) : Fixed (Vm.memset a b n) := modify fun _ => rfl

/-- The memory is read. -/
theorem get {h : Ram → RamM β} (hh : ∀ s, Fixed (h s)) : Fixed (get >>= h) := fun c =>
  Keeps.get_bind fun s hs => hh s c s hs

theorem kalloc : Fixed Vm.kalloc := by
  intro c s hs
  unfold Vm.kalloc
  rw [IfOk, Ends.get_bind_iff, Ends.set_bind_iff]
  split
  · exact hs
  · split
    · exact hs
    · exact hs

theorem kfree (pa : Nat) : Fixed (Vm.kfree pa) := by
  refine get fun s => ite (throw _) ((memset _ _ _).bind fun _ => (store _ _).bind fun _ => ?_)
  exact modify fun _ => rfl

theorem walkFrom {va : Nat} {alloc : Bool} (level pagetable : Nat) :
    Fixed (Vm.walkFrom va alloc level pagetable) := by
  induction level generalizing pagetable with
  | zero => exact pure _
  | succ level ih =>
      unfold Vm.walkFrom
      refine (load _).bind fun entry => ite (ih _) (ite (pure _) (kalloc.bind fun page => ?_))
      exact ite (pure _) ((memset _ _ _).bind fun _ => (store _ _).bind fun _ => ih _)

theorem walk (pagetable va : Nat) (alloc : Bool) : Fixed (Vm.walk pagetable va alloc) :=
  ite (throw _) (walkFrom _ _)

theorem walkaddr (pagetable va : Nat) : Fixed (Vm.walkaddr pagetable va) := by
  refine ite (pure _) ((walk _ _ _).bind fun pte => ite (pure _) ((load _).bind fun entry => ?_))
  exact ite (pure _) (ite (pure _) (pure _))

theorem mapLoop {pagetable last perm : Nat} (fuel a pa : Nat) :
    Fixed (Vm.mapLoop pagetable last perm fuel a pa) := by
  induction fuel generalizing a pa with
  | zero => exact throw _
  | succ fuel ih =>
      unfold Vm.mapLoop
      refine (walk _ _ _).bind fun pte => ite (pure _) ((load _).bind fun entry => ite (throw _) ?_)
      exact (store _ _).bind fun _ => ite (pure _) (ih _ _)

theorem mappages (pagetable va size pa perm : Nat) :
    Fixed (Vm.mappages pagetable va size pa perm) := ite (throw _) (mapLoop _ _ _)

theorem unmapLoop {pagetable stop : Nat} {doFree : Bool} (fuel a : Nat) :
    Fixed (Vm.unmapLoop pagetable stop doFree fuel a) := by
  induction fuel generalizing a with
  | zero => exact throw _
  | succ fuel ih =>
      unfold Vm.unmapLoop
      refine ite ((walk _ _ _).bind fun pte => ite (throw _) ((load _).bind fun entry => ?_))
        (pure _)
      refine ite (throw _) (ite (throw _) ?_)
      dsimp only
      exact ite ((kfree _).bind fun _ => (store _ _).bind fun _ => ih _)
        ((store _ _).bind fun _ => ih _)

theorem uvmunmap (pagetable va npages : Nat) (doFree : Bool) :
    Fixed (Vm.uvmunmap pagetable va npages doFree) := ite (throw _) (unmapLoop _ _)

theorem uvmcreate : Fixed Vm.uvmcreate :=
  kalloc.bind fun _ => ite (pure _) ((memset _ _ _).bind fun _ => pure _)

theorem uvmdealloc (pagetable oldsz newsz : Nat) :
    Fixed (Vm.uvmdealloc pagetable oldsz newsz) :=
  ite (pure _) (ite ((uvmunmap _ _ _ _).bind fun _ => pure _) (pure _))

theorem allocLoop {pagetable oldsz newsz : Nat} (fuel a : Nat) :
    Fixed (Vm.allocLoop pagetable oldsz newsz fuel a) := by
  induction fuel generalizing a with
  | zero => exact throw _
  | succ fuel ih =>
      unfold Vm.allocLoop
      refine ite (kalloc.bind fun page => ite ((uvmdealloc _ _ _).bind fun _ => pure _) ?_) (pure _)
      refine (memset _ _ _).bind fun _ => (mappages _ _ _ _ _).bind fun r => ite ?_ (ih _)
      exact (kfree _).bind fun _ => (uvmdealloc _ _ _).bind fun _ => pure _

theorem uvmalloc (pagetable oldsz newsz : Nat) : Fixed (Vm.uvmalloc pagetable oldsz newsz) :=
  ite (pure _) (allocLoop _ _)

theorem freewalk (depth pagetable : Nat) : Fixed (Vm.freewalk depth pagetable) := by
  induction depth generalizing pagetable with
  | zero => exact throw _
  | succ depth ih =>
      unfold Vm.freewalk
      generalize List.range 512 = l
      refine bind (fun c => Keeps.forM fun i => ?_) fun _ => kfree _
      refine bind (load _) (fun pte => ?_) c
      exact ite ((ih _).bind fun _ => store _ _) (ite (throw _) (pure _))

attribute [local irreducible] Vm.freewalk Vm.mapLoop Vm.unmapLoop

theorem uvmfree (pagetable sz : Nat) : Fixed (Vm.uvmfree pagetable sz) :=
  ite ((uvmunmap _ _ _ _).bind fun _ => freewalk _ _) (freewalk _ _)

theorem uvmclear (pagetable va : Nat) : Fixed (Vm.uvmclear pagetable va) :=
  (walk _ _ _).bind fun _ => ite (throw _) ((load _).bind fun _ => store _ _)

theorem copyoutLoop {pagetable : Nat} (fuel dstva : Nat) (src : List UInt8) :
    Fixed (Vm.copyoutLoop pagetable fuel dstva src) := by
  induction fuel generalizing dstva src with
  | zero => exact pure _
  | succ fuel ih =>
      unfold Vm.copyoutLoop
      refine ite (pure _) ((walkaddr _ _).bind fun pa0 => ite (pure _) ?_)
      refine bind (modify ?_) fun _ => ih _ _
      exact fun _ => rfl

theorem copyout (pagetable dstva : Nat) (src : List UInt8) :
    Fixed (Vm.copyout pagetable dstva src) := copyoutLoop _ _ _

theorem procPagetable (trampoline trapframe : Nat) :
    Fixed (Vm.procPagetable trampoline trapframe) := by
  refine uvmcreate.bind fun _ => ite (pure _) ((mappages _ _ _ _ _).bind fun _ => ite ?_ ?_)
  · exact (uvmfree _ _).bind fun _ => pure _
  · refine (mappages _ _ _ _ _).bind fun _ => ite ?_ (pure _)
    exact (uvmunmap _ _ _ _).bind fun _ => (uvmfree _ _).bind fun _ => pure _

theorem procFreepagetable (pagetable sz : Nat) : Fixed (Vm.procFreepagetable pagetable sz) :=
  (uvmunmap _ _ _ _).bind fun _ => (uvmunmap _ _ _ _).bind fun _ => uvmfree _ _

theorem loadsegLoop {pagetable va offset sz : Nat} {content : List UInt8} (fuel i : Nat) :
    Fixed (Vm.loadsegLoop pagetable va content offset sz fuel i) := by
  induction fuel generalizing i with
  | zero => exact throw _
  | succ fuel ih =>
      unfold Vm.loadsegLoop
      refine ite ((walkaddr _ _).bind fun pa => ite (throw _) ?_) (pure _)
      refine bind (modify ?_) fun _ => ite (pure _) (ih _)
      exact fun _ => rfl

theorem loadLoop {content : List UInt8} {pagetable : Nat} (k off sz : Nat) :
    Fixed (Vm.loadLoop content pagetable k off sz) := by
  induction k generalizing off sz with
  | zero => exact pure _
  | succ k ih =>
      unfold Vm.loadLoop
      refine ite (pure _) (ite (ih _ _) (ite (pure _) (ite (pure _) ((uvmalloc _ _ _).bind
        fun sz1 => ite (pure _) (ite (pure _) ?_)))))
      exact (loadsegLoop _ _).bind fun r => ite (pure _) (ih _ _)

theorem pushArgs {pagetable stackbase : Nat} (sp : Nat) (ustack : List Nat) (args : List CStr) :
    Fixed (Vm.pushArgs pagetable stackbase sp ustack args) := by
  induction args generalizing sp ustack with
  | nil => exact pure _
  | cons arg args ih =>
      unfold Vm.pushArgs
      exact ite (pure _) (ite (pure _) ((copyout _ _ _).bind fun r => ite (pure _) (ih _ _)))

attribute [local irreducible] Vm.uvmclear Vm.pushArgs Vm.copyout

theorem pushStack (pagetable sz : Nat) (argv : List CStr) :
    Fixed (Vm.pushStack pagetable sz argv) := by
  unfold Vm.pushStack
  refine (uvmclear _ _).bind fun _ => (pushArgs _ _ _).bind fun r => ?_
  split
  · exact pure _
  · dsimp only
    split
    · exact pure _
    · exact (copyout _ _ _).bind fun r => ite (pure _) (pure _)

end Fixed

/-! ### `exec` -/

/-- The code leaves `end` alone. -/
def TaskFixed {α : Type} (x : TaskM α) : Prop :=
  ∀ c, Keeps (fun p : Task => p.ram.kernelEnd = c) x

namespace TaskFixed

variable {α β : Type} {x y : TaskM α} {h : α → TaskM β} {c : Prop} {g : Task → Task}

theorem ram {x : RamM α} (hx : Fixed x) : TaskFixed (.ram x) := fun c _ hp =>
  Ends.component_iff.mpr (hx c _ hp)

theorem pure (b : α) : TaskFixed (Pure.pure b) := fun _ => Keeps.pure b

theorem bind (hx : TaskFixed x) (hh : ∀ b, TaskFixed (h b)) : TaskFixed (x >>= h) := fun c =>
  (hx c).bind fun b => hh b c

theorem ite [Decidable c] (hx : TaskFixed x) (hy : TaskFixed y) :
    TaskFixed (if c then x else y) := fun c => (hx c).ite (hy c)

theorem get {h : Task → TaskM β} (hh : ∀ s, TaskFixed (h s)) : TaskFixed (get >>= h) := fun c =>
  Keeps.get_bind fun s hs => hh s c s hs

theorem modify (hg : ∀ p, (g p).ram = p.ram) : TaskFixed (modify g) := fun _ =>
  Keeps.modify fun p hp => (congrArg Ram.kernelEnd (hg p)).trans hp

theorem call (k : FsCall) : TaskFixed (Vm.call k) := modify fun _ => rfl

theorem execBad (pagetable sz : Nat) (ip : Bool) : TaskFixed (Vm.execBad pagetable sz ip) := by
  have hend : TaskFixed (if ip = true then do Vm.call .iunlockput; Vm.call .endOp; return (-1 : Int)
      else return (-1 : Int)) :=
    ite ((call _).bind fun _ => (call _).bind fun _ => pure _) (pure _)
  exact ite ((ram (Fixed.procFreepagetable _ _)).bind fun _ => hend) hend

theorem execCommit (path : CStr) (entry pagetable sz sp argc : Nat) :
    TaskFixed (Vm.execCommit path entry pagetable sz sp argc) := by
  refine get fun p => (ram (Fixed.store _ _)).bind fun _ => bind (modify ?_) fun _ => ?_
  · exact fun _ => rfl
  · refine (ram (Fixed.store _ _)).bind fun _ => (ram (Fixed.store _ _)).bind fun _ => ?_
    exact (ram (Fixed.procFreepagetable _ _)).bind fun _ => pure _

attribute [local irreducible] Vm.uvmalloc Vm.pushStack

theorem execStack (path : CStr) (argv : List CStr) (entry pagetable sz : Nat) :
    TaskFixed (Vm.execStack path argv entry pagetable sz) := by
  refine (call _).bind fun _ => (call _).bind fun _ => (ram (Fixed.uvmalloc _ _ _)).bind fun sz1 => ?_
  refine ite (execBad _ _ _) ?_
  refine bind (ram (Fixed.pushStack _ _ _)) fun r => ?_
  split
  · exact execBad _ _ _
  · exact execCommit _ _ _ _ _ _

attribute [local irreducible] Vm.procPagetable Vm.loadLoop

theorem execFile (trampoline : Nat) (content : List UInt8) (path : CStr) (argv : List CStr) :
    TaskFixed (Vm.execFile trampoline content path argv) := by
  unfold Vm.execFile
  refine (call _).bind fun _ => ?_
  dsimp only
  split
  · exact execBad _ _ _
  · split
    · exact execBad _ _ _
    · refine get fun p => ?_
      refine bind (ram (Fixed.procPagetable _ _)) fun pagetable => ?_
      refine ite (execBad _ _ _) ?_
      refine bind (ram (Fixed.loadLoop _ _ _)) fun r => ?_
      exact ite (execStack _ _ _ _ _) (execBad _ _ _)

/-- **`exec`** leaves `end` alone. -/
theorem exec (trampoline : Nat) (file : Option (List UInt8)) (path : CStr) (argv : List CStr) :
    TaskFixed (Vm.exec trampoline file path argv) := by
  refine (call _).bind fun _ => (call _).bind fun _ => ?_
  cases file with
  | none => exact (call _).bind fun _ => pure _
  | some content => exact execFile _ _ _ _

end TaskFixed

end Vm
