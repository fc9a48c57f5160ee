import OSN.Vm.Hosting
import OSN.Vm.KernelEnd

/-!
# Each process has its memory to itself

What a machine does that is made of processes, each with its own memory, and that the calls of
`proc.c` do that to the machine they run on, whatever `kalloc` denies them.
-/

namespace Vm

open Xv6 (PGSIZE MAXVA UserMem Slot Kernel)
open Fs (CStr)

attribute [local irreducible] freewalk

/-! ### What processes do that are alone -/

/-- The register at offset `o` of the trapframe. -/
def reg (regs : List UInt8) (o : Nat) : Nat := Bytes.ofLe ((regs.drop o).take 8)

/-- The registers start a program. -/
structure Enters (regs : List UInt8) (entry sp : Nat) (regs' : List UInt8) : Prop where
  length : regs'.length = regs.length
  epc : reg regs' 24 = entry
  stack : reg regs' 48 = sp
  a1 : reg regs' 120 = sp
  others : ∀ k, (∀ o ∈ [24, 48, 120], k < o ∨ o + 8 ≤ k) → regs'[k]? = regs[k]?

/-- **The program of a file runs** with arguments `argv`. -/
def RunsFile (content : List UInt8) (argv : List CStr) (u u' : User) : Prop :=
  ∃ sz img, ELFHDRSIZE ≤ content.length ∧ (header content).magic = ELF_MAGIC ∧
    Executed content (header content).phnum ((header content).phoff % 2 ^ 32) 0 sz (fun _ => 0) img ∧
    withStack sz - PGSIZE ≤ newSp (withStack sz) argv ∧ u'.sz = withStack sz ∧
    (∀ p, u'.mem.mapped p = true ↔ notGuard (withStack sz) p) ∧
    u'.mem.byte = Bytes.splices img (stackRuns (withStack sz) argv) ∧
    Enters u.regs (header content).entry (newSp (withStack sz) argv) u'.regs

/-- The child of a `fork`: a copy that sees 0 as the result. -/
def User.child (u : User) : User := { u with regs := Bytes.overwrite u.regs 112 (Bytes.leBytes 8 0) }

/-- `fork`, when memory can be had or not. -/
def Ideal.fork (a : Ideal) (me : Slot) (ok : Bool) : Int × Ideal :=
  match Xv6.allocproc ok a.kernel with
  | (none, k) => (-1, { a with kernel := k })
  | (some np, k) =>
      ((k.proc np).pid, ({ a with kernel := k.modify np (Xv6.forkFields me) } : Ideal).setUser np
        (a.user me).child)

/-- `sbrk`, when memory can be had or not. -/
def User.sbrk (u : User) (n : Int) (ok : Bool) : Int × User :=
  if 0 < n ∧ !ok then (-1, u)
  else
    let sz := if 0 ≤ (u.sz : Int) + n then ((u.sz : Int) + n).toNat else u.sz
    (u.sz, { u with
      mem := u.mem.resize (PGROUNDUP u.sz / PGSIZE) (PGROUNDUP sz / PGSIZE), sz := sz })

/-- **What each process does to itself and to the process table.** -/
def Ideal.Step (a : Ideal) : Op → Reply → Ideal → Prop
  | .turn t, r, a' => r = .nothing ∧ a' = a.setKernel t.apply
  | .fork me, r, a' => ∃ ok, (r, a') = (.value (a.fork me ok).1, (a.fork me ok).2)
  | .sbrk me n, r, a' => ∃ ok,
      (r, a') = (.value ((a.user me).sbrk n ok).1, a.setUser me ((a.user me).sbrk n ok).2)
  | .exec me file _ argv, r, a' => r = .value (-1) ∧ a' = a ∨
      r = .value argv.length ∧ ∃ content u, file = some content ∧
        RunsFile content argv (a.user me) u ∧ a' = a.setUser me u
  | .exit me status, r, a' => r = .nothing ∧ a' = a.setKernel (Xv6.exit me status)
  | .wait me addr, r, a' =>
      match Xv6.wait me addr (a.user me).mem [a.kernel] with
      | .ok (ret, k, mem) => r = .value ret ∧
          a' = ({ a with kernel := k } : Ideal).setUser me { a.user me with mem := mem }
      | .error _ => r = .nothing ∧
          a' = a.setKernel (·.modify me (Xv6.sleepProc (some (.proc me))))
  | .write me va bytes, r, a' =>
      r = .value (if (a.user me).mem.Writable va bytes.length then 0 else -1) ∧
        a' = a.setUser me { a.user me with
          mem := (a.user me).mem.write va ((a.user me).mem.reached va bytes) }
  | .read me va len, r, a' => a' = a ∧
      r = .bytes (if (a.user me).mem.Writable va len then 0 else -1)
        (Bytes.slice (a.user me).mem.byte va ((a.user me).mem.extent va len))
  | .trap me regs, r, a' => r = .nothing ∧ a' = a.setUser me { a.user me with regs := regs }

variable {all room : Nat → Prop} {trampoline n sz x : Nat} {w v : Sys} {s t : Ram}
  {f f' : Slot → Owner → Nat} {g : Owner → Nat} {m m' : Slot → PageMap} {m₁ : PageMap}
  {a a' : Ideal} {i j me : Slot} {u : User} {mem : UserMem} {sp : Space} {k : Kernel} {r : Reply}
  {op : Op}

/-- The machine is made of processes. -/
def Houses (all : Nat → Prop) (trampoline : Nat) (w : Sys) (a : Ideal) : Prop :=
  ∃ f m, Hosts all trampoline w f m a

/-- What an operation has done to the machine. -/
def Carries (all : Nat → Prop) (trampoline : Nat) (a : Ideal) (op : Op) (r : Reply) (w : Sys) :
    Prop :=
  ∃ a', a.Step op r a' ∧ Houses all trampoline w a'

/-! ### Rules for the machine -/

/-- Code for the memory. -/
theorem Ends.sysRam {α : Type} {x : RamM α} {Q : α → Ram → Prop}
    (h : Ends x w.ram Q fun _ _ => False) :
    Ends (SysM.ram x) w (fun b w' => ∃ t, w' = { w with ram := t } ∧ Q b t) fun _ _ => False :=
  Ends.component_iff.mpr (h.post fun _ t ht => ⟨t, rfl, ht⟩)

theorem Ends.setSpace_bind {α : Type} {h : Space → Space} {y : Unit → SysM α}
    {Q : α → Sys → Prop} {E : String → Sys → Prop} :
    Ends (Vm.setSpace i h >>= y) w Q E ↔ Ends (y ()) (w.setSpace i h) Q E := Iff.rfl

theorem Ends.setKernel_bind {α : Type} {h : Kernel → Kernel} {y : Unit → SysM α}
    {Q : α → Sys → Prop} {E : String → Sys → Prop} :
    Ends (Vm.setKernel h >>= y) w Q E ↔ Ends (y ()) (w.setKernel h) Q E := Iff.rfl

/-- Code that gives a value. -/
theorem Ends.value {x : SysM Int} {Q : Reply → Sys → Prop}
    (h : Ends x w (fun b => Q (.value b)) fun _ _ => False) :
    Ends (Reply.value <$> x) w Q fun _ _ => False := Ends.map_iff.mpr h

/-! ### The process table -/

/-- The same slots are in use. -/
def SameUse (k k' : Kernel) : Prop :=
  ∀ j, (k'.proc j).state = .unused ↔ (k.proc j).state = .unused

theorem sameUse_modify {h : Xv6.Proc → Xv6.Proc} (hi : (k.proc i).state ≠ .unused)
    (hi' : (h (k.proc i)).state ≠ .unused) : SameUse k (k.modify i h) := by
  intro j
  by_cases hj : j = i
  · subst hj
    rw [Xv6.Kernel.modify_proc_self]
    exact iff_of_false hi' hi
  · rw [Xv6.Kernel.modify_proc_of_ne hj]

theorem SameUse.trans {k' k'' : Kernel} (h : SameUse k k') (h' : SameUse k' k'') :
    SameUse k k'' := fun j => (h' j).trans (h j)

theorem wakeupProc_unused {now : UInt32} {chan : Option Xv6.Chan} {p : Xv6.Proc} :
    (Xv6.wakeupProc now chan p).state = .unused ↔ p.state = .unused := by
  unfold Xv6.wakeupProc
  split
  next hsleep => exact iff_of_false (by simp [Xv6.wakeProc]) (by rw [hsleep.1]; decide)
  next => rfl

theorem sameUse_wakeup (who : Option Slot) (chan : Option Xv6.Chan) :
    SameUse k (Xv6.wakeup who chan k) := by
  intro j
  rw [Xv6.wakeup_proc]
  split
  · rfl
  · exact wakeupProc_unused

theorem sameUse_clockintr {who : Option Slot} : SameUse k (Xv6.clockintr who k) := by
  refine SameUse.trans
    (show SameUse k (Xv6.runningTime { k with ticks := k.ticks + 1 }) from fun j => ?_)
    (sameUse_wakeup _ _)
  rw [Xv6.runningTime_proc, Xv6.runningTimeProc_state]

theorem sameUse_kill {pid : Int} : SameUse k (Xv6.kill pid k).2 := by
  unfold Xv6.kill
  split
  next i _ =>
    intro j
    by_cases hj : j = i
    · subst hj
      rw [Xv6.Kernel.modify_proc_self]
      unfold Xv6.killProc
      dsimp only
      split
      next hsleep =>
        refine iff_of_false (by simp [Xv6.wakeProc]) ?_
        rw [hsleep]
        decide
      next => rfl
    · rw [Xv6.Kernel.modify_proc_of_ne hj]
  next => exact fun _ => Iff.rfl

theorem sameUse_setpriority {pid : Int} {priority : UInt32} :
    SameUse k (Xv6.setpriority pid priority k).2 := by
  unfold Xv6.setpriority
  split
  next i _ =>
    intro j
    rw [Xv6.Kernel.modify_proc]
    split <;> rfl
  next => exact fun _ => Iff.rfl

/-- **A turn** uses no slot and gives none back. -/
theorem Turn.sameUse {t : Turn} (h : t.Ready k) : SameUse k (t.apply k) := by
  cases t with
  | dispatch i now =>
      exact sameUse_modify (by rw [show (k.proc i).state = _ from h]; decide)
        (by simp [Xv6.dispatchProc])
  | yield i =>
      exact sameUse_modify (by rw [show (k.proc i).state = _ from h]; decide)
        (by simp [Xv6.yieldProc])
  | sleep i chan =>
      exact sameUse_modify (by rw [show (k.proc i).state = _ from h]; decide)
        (by simp [Xv6.sleepProc])
  | wakeup who chan => exact sameUse_wakeup who chan
  | clockintr who => exact sameUse_clockintr
  | kill pid => exact sameUse_kill
  | setpriority pid priority => exact sameUse_setpriority

theorem sameUse_exit {status : Int} (hrun : (k.proc me).state = .running) :
    SameUse k (Xv6.exit me status k) := by
  have hreparent : SameUse k (Xv6.reparent me k) := by
    have hadopt : SameUse k (Xv6.adoptChildren me k) := by
      intro j
      unfold Xv6.adoptChildren
      rw [Xv6.Kernel.map_proc]
      split <;> rfl
    unfold Xv6.reparent
    split
    · exact hadopt.trans (sameUse_wakeup _ _)
    · exact hadopt
  unfold Xv6.exit
  dsimp only
  have hwoken := hreparent.trans (sameUse_wakeup (some me)
    (((Xv6.reparent me k).proc me).parent.map .proc))
  refine hwoken.trans (sameUse_modify ?_ (by simp [Xv6.exitProc]))
  rw [Ne, hwoken me, hrun]
  decide

/-! ### The calls that change the memory of the caller -/

/-- A turn of the process table. -/
theorem Hosts.turn (h : Hosts all trampoline w f m a) {t : Turn} (hready : t.Ready w.kernel) :
    Ends (perform trampoline (.turn t)) w (Carries all trampoline a (.turn t)) fun _ _ => False :=
  ⟨_, ⟨rfl, rfl⟩, f, m, h.setKernel _ (Turn.sameUse hready)⟩

/-- **`exit`**, but for the first process. -/
theorem Hosts.exit (h : Hosts all trampoline w f m a) {status : Int}
    (hrun : (w.kernel.proc me).state = .running) :
    Ends (perform trampoline (.exit me status)) w (Carries all trampoline a (.exit me status))
      fun e _ => e = "init exiting" ∧ me = Xv6.initproc := by
  rw [perform, Vm.exit]
  by_cases hinit : me = Xv6.initproc
  · rw [if_pos hinit]
    exact ⟨rfl, hinit⟩
  · rw [if_neg hinit]
    exact ⟨_, ⟨rfl, rfl⟩, f, m, h.setKernel _ (sameUse_exit hrun)⟩

/-- What changes of a process that runs is its memory. -/
theorem Hosts.resize (sp : Space) (h : Hosts all trampoline w f m a)
    (hrun : (w.kernel.proc me).state = .running)
    (hframe : sp.trapframe = (w.space me).trapframe) (hsz : sp.sz ≤ TRAPFRAME)
    (hconfined : Confined (Left (f me) w.ram) w.ram t)
    (hview : UserView (Left (f me) w.ram) sp.pagetable g t m₁ (PGROUNDUP sp.sz / PGSIZE) trampoline
      sp.trapframe mem) :
    Houses all trampoline { w with ram := t, space := Function.update w.space me sp }
      (a.setUser me ⟨mem, sp.sz, (a.user me).regs⟩) := by
  have hme := h.running hrun
  refine h.change sp m₁ (by rw [hrun]; decide) hframe hview.toPages hconfined.kernelEnd
    (fun b hb _ => hconfined.mem b hb) fun hpages =>
      ⟨hframe ▸ hme.frame_ne, hframe ▸ hme.frame_aligned, hsz, rfl, ?_,
        hview.moved hpages fun _ _ _ _ => rfl⟩
  refine hme.regs.trans ?_
  rw [hframe]
  refine (regs_congr hme.frame_aligned fun b hb => hconfined.mem b ?_).symm
  rw [hb]
  exact h.estate.frame_apart hme.frame_ne

/-- **`sbrk`**. -/
theorem Hosts.sbrk (h : Hosts all trampoline w f m a) {n : Int}
    (hready : (Op.sbrk me n).Ready w.kernel) :
    Ends (perform trampoline (.sbrk me n)) w (Carries all trampoline a (.sbrk me n))
      fun _ _ => False := by
  obtain ⟨hrun, hn⟩ := hready
  have hme := h.running hrun
  have hsmall := Process.le_memory ⟨hme.sz_le, h.base, _, _, hme.view.toProcMem⟩
  have hint : (BitVec.ofNat 32 (w.space me).sz).toInt = (a.user me).sz := by
    have hmod : (BitVec.ofNat 32 (w.space me).sz).toNat = (w.space me).sz := by
      rw [BitVec.toNat_ofNat]
      exact Nat.mod_eq_of_lt (by omega)
    rw [hme.sz_eq, BitVec.toInt_eq_toNat_of_lt (by rw [hmod]; omega), hmod]
  rw [perform]
  refine Ends.value ?_
  unfold sysSbrk
  rw [Ends.get_bind_iff]
  refine (Ends.sysRam (hme.view.growproc hme.sz_le h.base hn)).bind ?_
  rintro ⟨r, sz⟩ _ ⟨t, rfl, hconfined, hsz, hr, g, m₁, hview⟩
  dsimp only at hsz hr hview ⊢
  have hhouses := h.resize { w.space me with sz := sz } hrun rfl hsz hconfined hview
  rw [Ends.setSpace_bind]
  rcases hr with ⟨rfl, hnew⟩ | ⟨rfl, rfl, hpos⟩
  · rw [if_neg (by decide), hint]
    refine ⟨_, ⟨true, ?_⟩, hhouses⟩
    have hsum : (if 0 ≤ ((a.user me).sz : Int) + n then (((a.user me).sz : Int) + n).toNat
        else (a.user me).sz) = sz := by
      rw [hme.sz_eq]
      by_cases hover : 0 ≤ ((w.space me).sz : Int) + n
      · rw [if_pos hover] at hnew ⊢
        omega
      · rw [if_neg hover] at hnew ⊢
        omega
    unfold User.sbrk
    rw [if_neg (by simp)]
    simp only [hsum]
    rw [hme.sz_eq]
  · rw [if_pos (by decide)]
    refine ⟨_, ⟨false, ?_⟩, hhouses⟩
    unfold User.sbrk
    rw [if_pos ⟨hpos, rfl⟩, hme.view.resize_self, ← hme.sz_eq]

/-- **`copyout`**. -/
theorem Hosts.write (h : Hosts all trampoline w f m a) {va : Nat} {bytes : List UInt8}
    (hrun : (w.kernel.proc me).state = .running) :
    Ends (perform trampoline (.write me va bytes)) w
      (Carries all trampoline a (.write me va bytes)) fun _ _ => False := by
  have hme := h.running hrun
  rw [perform]
  refine Ends.value ?_
  unfold writeUser
  rw [Ends.get_bind_iff]
  refine (Ends.sysRam (hme.view.copyout va bytes)).post ?_
  rintro r _ ⟨t, rfl, hconfined, rfl, hview⟩
  have hhouses := h.resize (w.space me) hrun rfl hme.sz_le hconfined hview
  rw [Function.update_eq_self, ← hme.sz_eq] at hhouses
  exact ⟨_, ⟨rfl, rfl⟩, hhouses⟩

/-- **`copyin`**. -/
theorem Hosts.read (h : Hosts all trampoline w f m a) {va len : Nat}
    (hrun : (w.kernel.proc me).state = .running) :
    Ends (perform trampoline (.read me va len)) w
      (Carries all trampoline a (.read me va len)) fun _ _ => False := by
  have hme := h.running hrun
  rw [perform]
  unfold readUser
  rw [bind_assoc, Ends.get_bind_iff]
  refine (Ends.sysRam (hme.view.toUserTable.userSpace.copyinLoop va (Nat.le_refl len))).bind ?_
  rintro ⟨r, l⟩ _ ⟨t, rfl, rfl, hl, hr⟩
  dsimp only at hl hr
  rw [UserSpace.readable_length, hme.view.sees] at hr
  refine ⟨a, ⟨rfl, ?_⟩, f, m, h⟩
  rw [hl, UserSpace.readable, hme.view.sees, hr]
  exact congrArg (Reply.bytes · _) (if_congr UserMem.extent_eq_iff rfl rfl)

/-- The registers of a process that runs change, and nothing else. -/
theorem Hosts.frame (h : Hosts all trampoline w f m a)
    (hrun : (w.kernel.proc me).state = .running) (hfree : t.freelist = w.ram.freelist)
    (hkernel : t.kernelEnd = w.ram.kernelEnd)
    (hmem : ∀ b, PGROUNDDOWN b ≠ (w.space me).trapframe → t.mem b = w.ram.mem b) :
    Houses all trampoline { w with ram := t }
      (a.setUser me { a.user me with
        regs := Bytes.slice t.mem (w.space me).trapframe TRAPFRAMESIZE }) := by
  have hme := h.running hrun
  have hestate := h.estate.congr hfree hkernel
  have hleft : Left (f me) w.ram = Left (f me) t := by
    unfold Left
    rw [hfree]
  have hview := hestate.onward hme.view fun b o hne hb => hmem b fun heq =>
    h.estate.frame_ne_page (i := me) hne (hb.trans heq)
  have hhouses := h.change (w.space me) _ (u := { a.user me with
    regs := Bytes.slice t.mem (w.space me).trapframe TRAPFRAMESIZE }) (by rw [hrun]; decide) rfl
    (hleft ▸ hestate.left me) hkernel (fun b _ hb => hmem b hb) fun hpages =>
      ⟨hme.frame_ne, hme.frame_aligned, hme.sz_le, hme.sz_eq, rfl,
        hview.moved hpages fun _ _ _ _ => rfl⟩
  rwa [Function.update_eq_self] at hhouses

/-- **A trap.** -/
theorem Hosts.trap (h : Hosts all trampoline w f m a) {regs : List UInt8}
    (hready : (Op.trap me regs).Ready w.kernel) :
    Ends (perform trampoline (.trap me regs)) w
      (Carries all trampoline a (.trap me regs)) fun _ _ => False := by
  obtain ⟨hrun, hlength⟩ := hready
  have hme := h.running hrun
  have hregs : regs.take TRAPFRAMESIZE = regs := List.take_of_length_le (Nat.le_of_eq hlength)
  rw [perform]
  unfold saveRegs
  rw [bind_assoc, Ends.get_bind_iff, hregs]
  have hhouses := h.frame (t := w.ram.memmove (w.space me).trapframe regs) hrun rfl rfl
    fun b hb => ?_
  · refine ⟨_, ⟨rfl, rfl⟩, ?_⟩
    have hslice : Bytes.slice (w.ram.memmove (w.space me).trapframe regs).mem
        (w.space me).trapframe TRAPFRAMESIZE = regs := by
      rw [← hlength]
      exact Bytes.slice_splice
    rwa [hslice] at hhouses
  · refine Bytes.splice_outside ?_
    by_contra hin
    rw [hlength] at hin
    obtain ⟨k, rfl⟩ := Nat.exists_eq_add_of_le (show (w.space me).trapframe ≤ b by omega)
    exact hb (regs_page hme.frame_aligned (by omega))

/-! ### `exec` -/

/-- A register of the trapframe. -/
theorem reg_slice {o : Nat} (ho : o + 8 ≤ TRAPFRAMESIZE) :
    reg (Bytes.slice s.mem x TRAPFRAMESIZE) o = s.load (x + o) := by
  rw [reg, Bytes.slice_drop_take ho]
  rfl

/-- **The registers of a program that starts.** -/
theorem Enters.of_mem {entry sp : Nat} (hepc : t.load (x + 24) = entry)
    (hstack : t.load (x + 48) = sp) (ha1 : t.load (x + 120) = sp)
    (hmem : ∀ k < TRAPFRAMESIZE, ¬ InWords x (x + k) → t.mem (x + k) = s.mem (x + k)) :
    Enters (Bytes.slice s.mem x TRAPFRAMESIZE) entry sp (Bytes.slice t.mem x TRAPFRAMESIZE) := by
  refine ⟨?_, (reg_slice (by decide)).trans hepc, (reg_slice (by decide)).trans hstack,
    (reg_slice (by decide)).trans ha1, fun k hk => ?_⟩
  · rw [Bytes.slice_length, Bytes.slice_length]
  · by_cases hlt : k < TRAPFRAMESIZE
    · rw [Bytes.slice_getElem hlt, Bytes.slice_getElem hlt, hmem k hlt]
      rintro ⟨o, ho, hin⟩
      have hout := hk o ho
      omega
    · rw [List.getElem?_eq_none (by rw [Bytes.slice_length]; omega),
        List.getElem?_eq_none (by rw [Bytes.slice_length]; omega)]

/-- Process `me` as `exec` sees it. -/
theorem Hosts.owns (h : Hosts all trampoline w f m a)
    (hrun : (w.kernel.proc me).state = .running) :
    ((Sys.taskPart me).get w).Owns (Left (f me) w.ram) trampoline := by
  have hme := h.running hrun
  have hpage := h.estate.framePage (i := me) hme.frame_ne
  refine ⟨⟨hme.sz_le, f me, m me, hme.view.toUserTable⟩, hme.frame_aligned,
    h.estate.frame_apart hme.frame_ne, ?_, h.code_lt⟩
  exact Nat.lt_trans hpage.stop (by decide)

/-- **`exec`**. -/
theorem Hosts.exec (h : Hosts all trampoline w f m a) {file : Option (List UInt8)} {path : CStr}
    {argv : List CStr} (hready : (Op.exec me file path argv).Ready w.kernel) :
    Ends (perform trampoline (.exec me file path argv)) w
      (Carries all trampoline a (.exec me file path argv)) fun _ _ => False := by
  obtain ⟨hrun, hfile, hargs, hlen⟩ := hready
  have hme := h.running hrun
  have hused : (w.kernel.proc me).state ≠ .unused := by
    rw [hrun]
    decide
  rw [perform]
  refine Ends.value (Ends.component_iff.mpr ?_)
  refine (((h.owns hrun).exec (fun content hcontent => hfile content hcontent) hargs hlen).andOk
    (TaskFixed.exec trampoline file path argv w.ram.kernelEnd _ rfl)).post ?_
  rintro r q ⟨⟨-, ⟨rfl, hsame⟩ | ⟨rfl, content, pagetable, sz, img, hcontent, hstarted⟩⟩, hkernel⟩
  · have hpages := hme.view.toPages.restored hsame.pages hkernel
    have hhouses := h.change (g := f me) (u := a.user me)
      ⟨q.trapframe, q.pagetable, q.sz, q.name⟩ (m me) hused hsame.trapframe hpages hkernel
      (fun b hb _ => hsame.mem b fun hfree => hb (Or.inl hfree)) fun hpages' => ?_
    · obtain ⟨f', m', hhosts⟩ := hhouses
      rw [Ideal.setUser_eq_self] at hhosts
      exact ⟨a, Or.inl ⟨rfl, rfl⟩, f', m', hhosts.setCalls q.calls⟩
    · have hspace : (⟨q.trapframe, q.pagetable, q.sz, q.name⟩ : Space) = w.space me := by
        rw [hsame.trapframe, hsame.pagetable, hsame.sz, hsame.name]
        rfl
      rw [hspace]
      refine hme.onward hpages' fun b hb => hsame.mem b fun hfree => ?_
      rcases hb with ⟨o, hne, hb⟩ | hb
      · exact (h.estate.owned hne).2 (hb ▸ hfree)
      · exact (h.estate.frame_owned (i := me) hme.frame_ne).2
          (show (w.space me).trapframe ∈ _ from hb ▸ hfree)
  · have hcommitted := hstarted.committed
    obtain ⟨hsz, g, m₁, himage⟩ := hcommitted.image
    obtain ⟨hview, hmapped, hbyte⟩ := himage.userView
    have hframe : q.trapframe = (w.space me).trapframe := hcommitted.trapframe
    have hnotWord : ∀ b, PGROUNDDOWN b ≠ w.frame me → ¬ InWords (w.space me).trapframe b :=
      fun b hb hin => hb (hin.page hme.frame_aligned)
    have hhouses := h.change (g := g) (t := q.ram)
      (u := ⟨view m₁ q.ram, q.sz, Bytes.slice q.ram.mem q.trapframe TRAPFRAMESIZE⟩)
      ⟨q.trapframe, q.pagetable, q.sz, q.name⟩ m₁ hused hframe hview.toPages hkernel
      (fun b hb hpage => hcommitted.mem b hb (hnotWord b hpage)) fun hpages' => ?_
    · obtain ⟨f', m', hhosts⟩ := hhouses
      refine ⟨_, Or.inr ⟨rfl, content, _, hcontent, ⟨sz, img, hstarted.whole, hstarted.magic,
        hstarted.executed, hstarted.roomy, hcommitted.sz_eq, hmapped, hbyte, ?_⟩, rfl⟩, f', m',
        hhosts.setCalls q.calls⟩
      rw [hme.regs, hframe]
      refine Enters.of_mem hcommitted.epc hcommitted.stack hcommitted.a1 fun k hk hin =>
        hcommitted.mem _ ?_ hin
      have hpage := regs_page (x := (w.space me).trapframe) hme.frame_aligned hk
      exact hpage.symm ▸ h.estate.frame_apart hme.frame_ne
    · refine ⟨hframe ▸ hme.frame_ne, hframe ▸ hme.frame_aligned, hcommitted.sz_eq ▸ hsz, rfl, rfl,
        ?_⟩
      dsimp only
      rw [hcommitted.sz_eq, hcommitted.pagetable_eq, hframe]
      exact hview.moved hpages' fun _ _ _ _ => rfl

end Vm
