import OSN.Lib.Refinement
import OSN.Vm.Userinit

/-!
# Private memories

A machine that has been started is made of processes, each with a memory of its own, after
whatever the processes do and whatever `kalloc` denies them.
-/

namespace Vm

open Xv6 (PGSIZE MAXVA UserMem Slot Kernel)

attribute [local irreducible] freewalk

variable {all room : Nat → Prop} {trampoline root n : Nat} {w v start : Sys} {s : Ram}
  {f : Slot → Owner → Nat} {m : Slot → PageMap} {m₁ : PageMap} {a : Ideal} {i j : Slot}
  {op : Op} {r : Reply}

/-- **What the machine shows of its processes.** -/
structure Shows (w : Sys) (a : Ideal) : Prop where
  kernel : a.kernel = w.kernel
  sz : ∀ i, (w.kernel.proc i).state ≠ .unused → (a.user i).sz = (w.space i).sz
  regs : ∀ i, (w.kernel.proc i).state ≠ .unused →
    (a.user i).regs = Bytes.slice w.ram.mem (w.space i).trapframe TRAPFRAMESIZE
  mapped : ∀ i, (w.kernel.proc i).state ≠ .unused → ∀ va < MAXVA,
    (a.user i).mem.mapped (va / PGSIZE) = true →
      ∃ x ≠ 0, walkaddr (w.space i).pagetable va w.ram = .ok x w.ram ∧
        w.ram.mem (x + va % PGSIZE) = (a.user i).mem.byte va
  unmapped : ∀ i, (w.kernel.proc i).state ≠ .unused → ∀ va < MAXVA,
    (a.user i).mem.mapped (va / PGSIZE) = false →
      walkaddr (w.space i).pagetable va w.ram = .ok 0 w.ram
  apart : ∀ i j, (w.kernel.proc i).state ≠ .unused → (w.kernel.proc j).state ≠ .unused →
    ∀ va < MAXVA, ∀ vb < MAXVA, ∀ x ≠ 0,
      walkaddr (w.space i).pagetable va w.ram = .ok x w.ram →
      walkaddr (w.space j).pagetable vb w.ram = .ok x w.ram → i = j ∧ va / PGSIZE = vb / PGSIZE

/-- What `walkaddr` finds is a page of the process. -/
theorem Lodges.walkaddr {sp : Space} {g : Owner → Nat} {u : User} {va x : Nat}
    (h : Lodges trampoline s sp g m₁ u) (hva : va < MAXVA) (hne : x ≠ 0)
    (hwalk : Vm.walkaddr sp.pagetable va s = .ok x s) :
    m₁.addr va = x ∧ ∃ k, g (.inr k) = x := by
  have hfinds := h.view.toMaps.walkaddr hva
  have haddr : m₁.addr va = x := (EStateM.Result.ok.inj (hfinds.symm.trans hwalk)).1
  obtain ⟨e, hm, hU, hpa⟩ := addr_ne_zero (haddr.symm ▸ hne)
  obtain ⟨-, k, hk⟩ := h.view.toUserTable.userSpace.owned _ _ hm hU
  exact ⟨haddr, k, hk.trans (hpa.symm.trans haddr)⟩

/-- **A machine that is made of processes shows them.** -/
theorem Hosts.shows (h : Hosts all trampoline w f m a) : Shows w a := by
  refine ⟨h.kernel, fun i hi => ((h.slot i).used hi).sz_eq, fun i hi => ((h.slot i).used hi).regs,
    fun i hi va hva hmapped => ?_, fun i hi va hva hmapped => ?_,
    fun i j hi hj va hva vb hvb x hne hwalk hwalk' => ?_⟩
  · have hlodges := (h.slot i).used hi
    have hacc := (hlodges.view.access_iff va).mpr hmapped
    refine ⟨(m i).addr va, hacc.2, hlodges.view.toMaps.walkaddr hva, ?_⟩
    rw [← hlodges.view.sees]
    exact (if_pos hacc).symm
  · have hlodges := (h.slot i).used hi
    have hzero : (m i).addr va = 0 := by
      by_contra hne
      have hbad := (hlodges.view.access_iff va).mp ⟨hva, hne⟩
      rw [hmapped] at hbad
      cases hbad
    rw [hlodges.view.toMaps.walkaddr hva, hzero]
  · obtain ⟨haddr, k, hk⟩ := ((h.slot i).used hi).walkaddr hva hne hwalk
    obtain ⟨haddr', k', hk'⟩ := ((h.slot j).used hj).walkaddr hvb hne hwalk'
    have hsame := h.estate.tenancy.alone (i := (i, some (.inr k))) (j := (j, some (.inr k')))
      (show f i (.inr k) ≠ 0 from hk ▸ hne) (hk.trans hk'.symm)
    have hij : i = j := (Prod.mk.inj hsame).1
    subst hij
    refine ⟨rfl, ?_⟩
    have hspace := ((h.slot i).used hi).view.toUserTable.userSpace
    obtain ⟨e, hm, hU, hpa⟩ := addr_ne_zero (haddr.symm ▸ hne)
    obtain ⟨e', hm', hU', hpa'⟩ := addr_ne_zero (haddr'.symm ▸ hne)
    exact hspace.distinct _ _ _ _ hm hm' hU hU' (hpa.symm.trans (haddr.trans (haddr'.symm.trans hpa')))

/-- **What is ready can be done**, and it is what processes do that are alone. -/
theorem Hosts.perform (h : Hosts all trampoline w f m a) (hready : op.Ready w.kernel) :
    Ends (Vm.perform trampoline op) w (Carries all trampoline a op)
      fun e _ => e = "init exiting" ∧ ∃ status, op = .exit Xv6.initproc status := by
  have hnever : ∀ {x : SysM Reply}, Ends x w (Carries all trampoline a op) (fun _ _ => False) →
      Ends x w (Carries all trampoline a op)
        fun e _ => e = "init exiting" ∧ ∃ status, op = .exit Xv6.initproc status :=
    fun hends => hends.mono (fun _ _ hq => hq) fun _ _ hbad => hbad.elim
  cases op with
  | turn t => exact hnever (h.turn hready)
  | fork me => exact hnever (h.fork hready)
  | sbrk me n => exact hnever (h.sbrk hready)
  | exec me file path argv => exact hnever (h.exec hready)
  | exit me status =>
      exact (h.exit hready).mono (fun _ _ hq => hq) fun e _ he => ⟨he.1, status, by rw [he.2]⟩
  | wait me addr => exact hnever (h.wait hready)
  | write me va bytes => exact hnever (h.write hready)
  | read me va len => exact hnever (h.read hready)
  | trap me regs => exact hnever (h.trap hready)

end Vm

namespace Processes

open Xv6 (PGSIZE MAXVA UserMem Slot Kernel)
open Vm (Sys Op Reply perform userinit walkaddr Blank First Ideal Houses Carries Shows)

variable {trampoline : Nat} {w v start : Sys} {a : Ideal} {op : Op} {r : Reply}
  {past : Past Sys (Op × Reply)}

/-- **The machine.**  `userinit` has made the first process, and has found a page for its
program; an event is what happens, with the answer that is given. -/
def procs (trampoline : Nat) (start : Sys) : Machine Sys (Op × Reply) where
  init v := userinit trampoline start = .ok () v ∧
    walkaddr (v.space Xv6.initproc).pagetable 0 v.ram ≠ .ok 0 v.ram
  step w e :=
    if e.1.Ready w.kernel then
      match perform trampoline e.1 w with
      | .ok r v => if r = e.2 then some v else none
      | .error _ _ => none
    else none

theorem procs_step (h : (procs trampoline start).step w (op, r) = some v) :
    op.Ready w.kernel ∧ perform trampoline op w = .ok r v := by
  change (if op.Ready w.kernel then _ else none) = some v at h
  split at h
  next hready =>
    refine ⟨hready, ?_⟩
    dsimp only at h
    split at h
    next r' v' hrun =>
      split at h
      next heq =>
        obtain rfl := Option.some.inj h
        rw [hrun, heq]
      next => cases h
    next => cases h
  next => cases h

/-- **The machine is made of processes** at its start and after each step. -/
theorem simulates (hblank : Blank start) (hcode : trampoline < 2 ^ 64) :
    Refinement.Simulates (procs trampoline start) First (fun a e => a.Step e.1 e.2)
      (fun _ e => some e) (Houses (· ∈ start.ram.freelist) trampoline) := by
  constructor
  · intro v hinit
    rcases (hblank.userinit hcode).ok hinit.1 with hzero | hfirst
    · exact absurd hzero hinit.2
    · exact hfirst
  · rintro w v a ⟨op, r⟩ ⟨f, m, hhosts⟩ hstep
    obtain ⟨hready, hrun⟩ := procs_step hstep
    exact (hhosts.perform hready).ok hrun

/-- **Processes have their memory to themselves.** -/
theorem private_memories (hblank : Blank start) (hcode : trampoline < 2 ^ 64)
    (run : Run (procs trampoline start) past w) :
    ∃ a, Refinement.Traces First (fun a e => a.Step e.1 e.2) (past.map Prod.snd) a ∧ Shows w a ∧
      ∀ op, op.Ready w.kernel →
        (∃ r v a', perform trampoline op w = .ok r v ∧ a.Step op r a' ∧ Shows v a') ∨
        ∃ v status, perform trampoline op w = .error "init exiting" v ∧
          op = .exit Xv6.initproc status := by
  obtain ⟨a, htrace, f, m, hhosts⟩ := (simulates hblank hcode).run run
  rw [Refinement.deeds_some] at htrace
  refine ⟨a, htrace, hhosts.shows, fun op hready => ?_⟩
  have hends := hhosts.perform hready
  cases hrun : perform trampoline op w with
  | ok r v =>
      obtain ⟨a', hstep, f', m', hhosts'⟩ := hends.ok hrun
      exact Or.inl ⟨r, v, a', rfl, hstep, hhosts'.shows⟩
  | error e v =>
      obtain ⟨rfl, status, hop⟩ := hends.failed hrun
      exact Or.inr ⟨v, status, rfl, hop⟩

/-! ### A fork that fails -/

/-- The machine after code that does not panic. -/
def after {α : Type} (x : Vm.SysM α) (w : Sys) : Sys :=
  match x w with
  | .ok _ v => v
  | .error _ v => v

theorem ok_after {α : Type} {x : Vm.SysM α} {b : α}
    (h : Ends x w (fun c _ => c = b) fun _ _ => False) : x w = .ok b (after x w) := by
  obtain ⟨c, v, hx, rfl⟩ := h.exists_ok
  rw [after, hx]

theorem procs_takes (hready : op.Ready w.kernel) (hrun : perform trampoline op w = .ok r v) :
    (procs trampoline start).step w (op, r) = some v := by
  change (if op.Ready w.kernel then _ else none) = some v
  dsimp only
  rw [if_pos hready, hrun]
  exact if_pos rfl

/-- Eight free pages: the first process takes seven of them. -/
def blankSys : Sys where
  ram := {
    mem := fun _ => 0
    freelist := (List.range 8).map fun k => 0x87fff000 - k * PGSIZE
    kernelEnd := 0x80021d80
    denied := fun _ => false }
  calls := []
  kernel := Xv6.procinit
  space _ := {}

def startedSys : Sys := after (userinit 0x80007000) blankSys

def dispatchedSys : Sys :=
  after (perform 0x80007000 (.turn (.dispatch Xv6.initproc 0))) startedSys

def forkedSys : Sys := after (perform 0x80007000 (.fork Xv6.initproc)) dispatchedSys

theorem blankSys_blank : Blank blankSys := by
  refine ⟨rfl, fun _ => rfl, by decide, fun x hx => ?_, by decide⟩
  have hpage : ∀ x ∈ blankSys.ram.freelist,
      PGSIZE ∣ x ∧ blankSys.ram.kernelEnd ≤ x ∧ x < Vm.PHYSTOP := by decide
  obtain ⟨haligned, hstart, hstop⟩ := hpage x hx
  exact ⟨haligned, hstart, hstop⟩

-- this linter would run the machine to find the type of `hfound`
set_option linter.constructorNameAsVariable false in
theorem startedSys_init : (procs 0x80007000 blankSys).init startedSys := by
  refine ⟨ok_after (by decide +kernel), fun hzero => ?_⟩
  have hfound : Ends (walkaddr (startedSys.space Xv6.initproc).pagetable 0) startedSys.ram
      (fun x _ => x ≠ 0) fun _ _ => False := by decide +kernel
  exact hfound.ok hzero rfl

theorem dispatchedSys_step : (procs 0x80007000 blankSys).step startedSys
    (.turn (.dispatch Xv6.initproc 0), .nothing) = some dispatchedSys :=
  procs_takes (by decide +kernel) (ok_after (by decide +kernel))

theorem forkedSys_step : (procs 0x80007000 blankSys).step dispatchedSys
    (.fork Xv6.initproc, .value (-1)) = some forkedSys :=
  procs_takes (by decide +kernel) (ok_after (by decide +kernel))

theorem forkedSys_run : Run (procs 0x80007000 blankSys)
    [(dispatchedSys, .fork Xv6.initproc, .value (-1)),
      (startedSys, .turn (.dispatch Xv6.initproc 0), .nothing)] forkedSys :=
  ((Run.init startedSys_init).step dispatchedSys_step).step forkedSys_step

theorem private_memories_forked : ∃ a, Refinement.Traces First (fun a e => a.Step e.1 e.2)
    [(.fork Xv6.initproc, .value (-1)), (.turn (.dispatch Xv6.initproc 0), .nothing)] a ∧
      Shows forkedSys a := by
  obtain ⟨a, htrace, hshows, -⟩ :=
    private_memories blankSys_blank (by decide) forkedSys_run
  exact ⟨a, htrace, hshows⟩

end Processes
