import OSN.Vm.Procs

/-!
# A memory for each process

To itself a process is its registers and a memory that nobody else has.  `Hosts` says that the
machine is made of such processes: what each sees is in its own pages, and no page has two
owners.
-/

namespace Vm

open Xv6 (PGSIZE MAXVA UserMem Slot Kernel)
open Fs (CStr)

attribute [local irreducible] freewalk

/-! ### Processes that are alone -/

/-- What a process is to itself. -/
structure User where
  mem : UserMem
  sz : Nat
  regs : List UInt8

/-- A machine in which each process has a memory of its own. -/
structure Ideal where
  kernel : Kernel
  user : Slot → User

def Ideal.setKernel (a : Ideal) (f : Kernel → Kernel) : Ideal := { a with kernel := f a.kernel }

def Ideal.setUser (a : Ideal) (i : Slot) (u : User) : Ideal :=
  { a with user := Function.update a.user i u }

variable {all room : Nat → Prop} {trampoline n sz x : Nat} {w v : Sys} {s t : Ram}
  {f f' : Slot → Owner → Nat} {g : Owner → Nat} {m m' : Slot → PageMap} {m₁ : PageMap} {a : Ideal}
  {i j : Slot} {u : User} {mem : UserMem} {sp : Space}

@[simp] theorem Ideal.setUser_self : (a.setUser i u).user i = u := by
  change Function.update a.user i u i = u
  rw [Function.update_self]

theorem Ideal.setUser_of_ne (hj : j ≠ i) : (a.setUser i u).user j = a.user j := by
  change Function.update a.user i u j = a.user j
  rw [Function.update_of_ne hj]

@[simp] theorem Ideal.setUser_eq_self : a.setUser i (a.user i) = a := by
  unfold Ideal.setUser
  rw [Function.update_eq_self]

/-! ### Where they are -/

/-- The trapframes of the processes. -/
def Sys.frame (w : Sys) (i : Slot) : Nat := (w.space i).trapframe

/-- **A process is `u` to itself.** -/
structure Lodges (trampoline : Nat) (s : Ram) (sp : Space) (g : Owner → Nat) (m : PageMap)
    (u : User) : Prop where
  frame_ne : sp.trapframe ≠ 0
  frame_aligned : PGSIZE ∣ sp.trapframe
  sz_le : sp.sz ≤ TRAPFRAME
  sz_eq : u.sz = sp.sz
  regs : u.regs = Bytes.slice s.mem sp.trapframe TRAPFRAMESIZE
  view : UserView (Left g s) sp.pagetable g s m (PGROUNDUP sp.sz / PGSIZE) trampoline
    sp.trapframe u.mem

/-- A slot that has no pages. -/
structure NoPages (sp : Space) (g : Owner → Nat) : Prop where
  trapframe : sp.trapframe = 0
  pagetable : sp.pagetable = 0
  sz : sp.sz = 0
  pages : ∀ o, g o = 0

/-- What is known of slot `i`. -/
structure HostsAt (trampoline : Nat) (w : Sys) (f : Slot → Owner → Nat) (m : Slot → PageMap)
    (a : Ideal) (i : Slot) : Prop where
  unused : (w.kernel.proc i).state = .unused → NoPages (w.space i) (f i)
  used : (w.kernel.proc i).state ≠ .unused →
    Lodges trampoline w.ram (w.space i) (f i) (m i) (a.user i)

/-- **The machine is made of processes**, but for slot `i`. -/
structure HostsBut (i : Slot) (all : Nat → Prop) (trampoline : Nat) (w : Sys)
    (f : Slot → Owner → Nat) (m : Slot → PageMap) (a : Ideal) : Prop where
  estate : Estate all w.ram w.frame f
  base : KERNBASE ≤ w.ram.kernelEnd
  code_lt : trampoline < 2 ^ 64
  kernel : a.kernel = w.kernel
  others : ∀ j ≠ i, HostsAt trampoline w f m a j

/-- **The machine is made of processes.** -/
structure Hosts (all : Nat → Prop) (trampoline : Nat) (w : Sys) (f : Slot → Owner → Nat)
    (m : Slot → PageMap) (a : Ideal) : Prop where
  estate : Estate all w.ram w.frame f
  base : KERNBASE ≤ w.ram.kernelEnd
  code_lt : trampoline < 2 ^ 64
  kernel : a.kernel = w.kernel
  slot : ∀ i, HostsAt trampoline w f m a i

theorem Hosts.but (h : Hosts all trampoline w f m a) (i : Slot) :
    HostsBut i all trampoline w f m a := ⟨h.estate, h.base, h.code_lt, h.kernel, fun j _ => h.slot j⟩

theorem HostsBut.complete (h : HostsBut i all trampoline w f m a)
    (hi : HostsAt trampoline w f m a i) : Hosts all trampoline w f m a := by
  refine ⟨h.estate, h.base, h.code_lt, h.kernel, fun j => ?_⟩
  by_cases hj : j = i
  · exact hj ▸ hi
  · exact h.others j hj

/-- A process that runs is there. -/
theorem Hosts.running (h : Hosts all trampoline w f m a)
    (hrun : (w.kernel.proc i).state = .running) :
    Lodges trampoline w.ram (w.space i) (f i) (m i) (a.user i) :=
  (h.slot i).used (by rw [hrun]; decide)

/-- The registers lie on the page of the trapframe. -/
theorem regs_page (hx : PGSIZE ∣ x) {k : Nat} (hk : k < TRAPFRAMESIZE) :
    PGROUNDDOWN (x + k) = x := by
  rw [PGROUNDDOWN_eq hx]
  unfold TRAPFRAMESIZE at hk
  unfold PGSIZE
  omega

theorem regs_congr (hx : PGSIZE ∣ x) (hmem : ∀ b, PGROUNDDOWN b = x → t.mem b = s.mem b) :
    Bytes.slice t.mem x TRAPFRAMESIZE = Bytes.slice s.mem x TRAPFRAMESIZE :=
  Bytes.slice_congr fun _ hk => hmem _ (regs_page hx hk)

/-- **A process goes on** when its pages stay as they are. -/
theorem Lodges.onward (h : Lodges trampoline s sp g m₁ u) (hpages : Pages (Left g t) g t)
    (hmem : ∀ b, (∃ o, g o ≠ 0 ∧ g o = PGROUNDDOWN b) ∨ PGROUNDDOWN b = sp.trapframe →
      t.mem b = s.mem b) : Lodges trampoline t sp g m₁ u := by
  refine ⟨h.frame_ne, h.frame_aligned, h.sz_le, h.sz_eq, h.regs.trans ?_, h.view.moved hpages ?_⟩
  · exact (regs_congr h.frame_aligned fun b hb => hmem b (Or.inr hb)).symm
  · exact fun b o hne hb => hmem b (Or.inl ⟨o, hne, hb⟩)

/-- What changes on the pages of process `i` and the free ones is no one else's. -/
theorem Estate.others (h : Estate all s w.frame f) (hji : j ≠ i)
    (hmem : ∀ b, ¬ Left (f i) s (PGROUNDDOWN b) → PGROUNDDOWN b ≠ w.frame i → t.mem b = s.mem b)
    (hframe : w.frame j ≠ 0) (b : Nat)
    (hb : (∃ o, f j o ≠ 0 ∧ f j o = PGROUNDDOWN b) ∨ PGROUNDDOWN b = w.frame j) :
    t.mem b = s.mem b := by
  rcases hb with ⟨o, hne, hb⟩ | hb
  · exact hmem b (hb ▸ h.apart hji hne) (hb ▸ h.frame_ne_page hne)
  · exact hmem b (hb ▸ h.frame_apart hframe) (hb ▸ h.frame_ne hji hframe)

/-- **Slot `i` changes its pages**, and the others go on. -/
theorem HostsBut.change (h : HostsBut i all trampoline w f m a)
    (hspace : ∀ j ≠ i, v.space j = w.space j) (hkernel : v.kernel = w.kernel)
    (hf : ∀ j ≠ i, f' j = f j) (hm : ∀ j ≠ i, m' j = m j)
    (hestate : Estate all v.ram v.frame f') (hbase : v.ram.kernelEnd = w.ram.kernelEnd)
    (hmem : ∀ b, ¬ Left (f i) w.ram (PGROUNDDOWN b) → PGROUNDDOWN b ≠ w.frame i →
      v.ram.mem b = w.ram.mem b) : HostsBut i all trampoline v f' m' a := by
  refine ⟨hestate, hbase ▸ h.base, h.code_lt, h.kernel.trans hkernel.symm, fun j hj => ?_⟩
  have hat := h.others j hj
  refine ⟨fun hstate => ?_, fun hstate => ?_⟩
  · rw [hspace j hj, hf j hj]
    exact hat.unused (hkernel ▸ hstate)
  · have hlodges := hat.used (hkernel ▸ hstate)
    rw [hspace j hj, hf j hj, hm j hj]
    exact hlodges.onward (hf j hj ▸ hestate.left j)
      (h.estate.others hj hmem hlodges.frame_ne)

/-- What a slot is to the table changes. -/
theorem HostsBut.setKernel (h : HostsBut i all trampoline w f m a) (k : Kernel → Kernel)
    (hstate : ∀ j ≠ i, ((k w.kernel).proc j).state = .unused ↔
      (w.kernel.proc j).state = .unused) :
    HostsBut i all trampoline (w.setKernel k) f m (a.setKernel k) := by
  refine ⟨h.estate, h.base, h.code_lt, congrArg k h.kernel, fun j hj => ?_⟩
  exact ⟨fun hunused => (h.others j hj).unused ((hstate j hj).mp hunused),
    fun hused => (h.others j hj).used (mt (hstate j hj).mpr hused)⟩

/-- The process table changes, and no slot gets used or unused. -/
theorem Hosts.setKernel (h : Hosts all trampoline w f m a) (k : Kernel → Kernel)
    (hstate : ∀ j, ((k w.kernel).proc j).state = .unused ↔ (w.kernel.proc j).state = .unused) :
    Hosts all trampoline (w.setKernel k) f m (a.setKernel k) := by
  refine ⟨h.estate, h.base, h.code_lt, congrArg k h.kernel, fun j => ?_⟩
  exact ⟨fun hunused => (h.slot j).unused ((hstate j).mp hunused),
    fun hused => (h.slot j).used (mt (hstate j).mpr hused)⟩

/-- The calls of the file system are no memory. -/
theorem Hosts.setCalls (h : Hosts all trampoline w f m a) (calls : List FsCall) :
    Hosts all trampoline { w with calls := calls } f m a :=
  ⟨h.estate, h.base, h.code_lt, h.kernel, fun j => ⟨(h.slot j).unused, (h.slot j).used⟩⟩

/-- Nothing is known of the user of a slot that is not in use. -/
theorem HostsBut.setUser (h : HostsBut i all trampoline w f m a) (u : User) :
    HostsBut i all trampoline w f m (a.setUser i u) := by
  refine ⟨h.estate, h.base, h.code_lt, h.kernel, fun j hj => ⟨(h.others j hj).unused, fun hused => ?_⟩⟩
  rw [Ideal.setUser_of_ne hj]
  exact (h.others j hj).used hused

/-- **The memory of a process changes**, and the others go on. -/
theorem Hosts.change (sp : Space) (m₁ : PageMap) (h : Hosts all trampoline w f m a)
    (hused : (w.kernel.proc i).state ≠ .unused) (hframe : sp.trapframe = (w.space i).trapframe)
    (hpages : Pages (Left (f i) w.ram) g t) (hbase : t.kernelEnd = w.ram.kernelEnd)
    (hmem : ∀ b, ¬ Left (f i) w.ram (PGROUNDDOWN b) → PGROUNDDOWN b ≠ w.frame i →
      t.mem b = w.ram.mem b)
    (hlodges : Pages (Left g t) g t → Lodges trampoline t sp g m₁ u) :
    ∃ f' m', Hosts all trampoline { w with ram := t, space := Function.update w.space i sp } f' m'
      (a.setUser i u) := by
  have hsame : Sys.frame { w with ram := t, space := Function.update w.space i sp } = w.frame := by
    funext j
    by_cases hj : j = i
    · subst hj
      exact (congrArg Space.trapframe (Function.update_self j sp w.space)).trans hframe
    · exact congrArg Space.trapframe (Function.update_of_ne hj sp w.space)
  have hestate := h.estate.replace hpages hbase
  refine ⟨Function.update f i g, Function.update m i m₁, (((h.but i).change
    (v := { w with ram := t, space := Function.update w.space i sp })
    (fun j hj => Function.update_of_ne hj _ _) rfl (fun j hj => Function.update_of_ne hj _ _)
    (fun j hj => Function.update_of_ne hj _ _) (hsame ▸ hestate) hbase hmem).setUser u).complete
    ⟨fun hunused => absurd hunused hused, fun _ => ?_⟩⟩
  have hleft := hestate.left i
  rw [Function.update_self] at hleft
  rw [Ideal.setUser_self, Function.update_self, Function.update_self]
  change Lodges trampoline t (Function.update w.space i sp i) g m₁ u
  rw [Function.update_self]
  exact hlodges hleft

end Vm
