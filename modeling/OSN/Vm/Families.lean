import OSN.Vm.PrivateMemory

/-!
# Processes come and go

`allocproc` makes a process without memory in a slot that is not in use, and `freeproc` gives
back all that a process has.  `fork` and `wait` are made of them: what they do to the machine
is what they do to processes that are alone.
-/

namespace Vm

open Xv6 (PGSIZE MAXVA UserMem Slot Kernel)
open Fs (CStr)

attribute [local irreducible] freewalk procPagetable procFreepagetable uvmcopy

variable {all room : Nat → Prop} {trampoline n sz x : Nat} {w v : Sys} {s t : Ram}
  {f f' : Slot → Owner → Nat} {g : Owner → Nat} {m m' : Slot → PageMap} {m₁ : PageMap}
  {a a' : Ideal} {i j me np : Slot} {u : User} {mem : UserMem} {sp : Space} {k : Kernel}

/-! ### The slot that changes -/

/-- Slot `i` gets other pages, and its space is `sp`. -/
def Sys.put (w : Sys) (i : Slot) (t : Ram) (sp : Space) : Sys :=
  { w with ram := t, space := Function.update w.space i sp }

@[simp] theorem Sys.put_ram : (w.put i t sp).ram = t := rfl

@[simp] theorem Sys.put_kernel : (w.put i t sp).kernel = w.kernel := rfl

@[simp] theorem Sys.put_space_self : (w.put i t sp).space i = sp := by
  change Function.update w.space i sp i = sp
  rw [Function.update_self]

theorem Sys.put_space_of_ne (hj : j ≠ i) : (w.put i t sp).space j = w.space j := by
  change Function.update w.space i sp j = w.space j
  rw [Function.update_of_ne hj]

theorem Sys.put_frame : (w.put i t sp).frame = Function.update w.frame i sp.trapframe := by
  funext j
  by_cases hj : j = i
  · subst hj
    rw [Function.update_self, Sys.frame, Sys.put_space_self]
  · rw [Function.update_of_ne hj, Sys.frame, Sys.put_space_of_ne hj, Sys.frame]

theorem Sys.put_setSpace {h : Space → Space} :
    (w.put i t sp).setSpace i h = w.put i t (h sp) := by
  unfold Sys.setSpace
  rw [Sys.put_space_self]
  unfold Sys.put
  dsimp only
  rw [Function.update_idem]

@[simp] theorem Sys.put_put {sp' : Space} {u : Ram} :
    (w.put i t sp).put i u sp' = w.put i u sp' := by
  unfold Sys.put
  dsimp only
  rw [Function.update_idem]

theorem Sys.put_self : w.put i t (w.space i) = { w with ram := t } := by
  unfold Sys.put
  rw [Function.update_eq_self]

theorem Sys.put_ramSet {u : Ram} :
    ({ w.put i t sp with ram := u } : Sys) = w.put i u sp := rfl

/-- **Slot `i` gets other pages**, and the others go on. -/
theorem HostsBut.put (sp : Space) (h : HostsBut i all trampoline w f m a)
    (hpages : Pages (Left (f i) w.ram) g t) (hbase : t.kernelEnd = w.ram.kernelEnd)
    (hframe : sp.trapframe = (w.space i).trapframe)
    (hmem : ∀ b, ¬ Left (f i) w.ram (PGROUNDDOWN b) → PGROUNDDOWN b ≠ w.frame i →
      t.mem b = w.ram.mem b) :
    HostsBut i all trampoline (w.put i t sp) (Function.update f i g) m a := by
  refine h.change (fun j hj => Sys.put_space_of_ne hj) rfl
    (fun j hj => Function.update_of_ne hj _ _) (fun _ _ => rfl) ?_ hbase hmem
  have hsame : (w.put i t sp).frame = w.frame := by
    rw [Sys.put_frame, hframe]
    exact Function.update_eq_self i w.frame
  rw [hsame]
  exact h.estate.replace hpages hbase

/-- The page of its trapframe, too, is no one else's. -/
theorem HostsBut.putFrame (sp : Space) (h : HostsBut i all trampoline w f m a)
    (hestate : Estate all t (Function.update w.frame i sp.trapframe) f)
    (hbase : t.kernelEnd = w.ram.kernelEnd)
    (hmem : ∀ b, ¬ Left (f i) w.ram (PGROUNDDOWN b) → PGROUNDDOWN b ≠ w.frame i →
      t.mem b = w.ram.mem b) : HostsBut i all trampoline (w.put i t sp) f m a :=
  h.change (fun _ hj => Sys.put_space_of_ne hj) rfl (fun _ _ => rfl) (fun _ _ => rfl)
    (Sys.put_frame ▸ hestate) hbase hmem

theorem HostsBut.setMap (h : HostsBut i all trampoline w f m a) (m₁ : PageMap) :
    HostsBut i all trampoline w f (Function.update m i m₁) a :=
  h.change (fun _ _ => rfl) rfl (fun _ _ => rfl) (fun _ hj => Function.update_of_ne hj _ _) h.estate
    rfl fun _ _ _ => rfl

/-! ### `freeproc` -/

/-- Slot `i` has no page table, or one that can be given back. -/
def HasTable (trampoline : Nat) (s : Ram) (sp : Space) (g : Owner → Nat) : Prop :=
  sp.pagetable = 0 ∧ (∀ o, g o = 0) ∨ sp.pagetable ≠ 0 ∧ sp.sz ≤ TRAPFRAME ∧
    ∃ m₁ frame, UserTable (Left g s) sp.pagetable g s m₁ (PGROUNDUP sp.sz / PGSIZE) trampoline frame

/-- The trapframe is given back. -/
theorem HostsBut.freeFrame (h : HostsBut i all trampoline w f m a)
    (htable : HasTable trampoline w.ram (w.space i) (f i)) :
    Ends (SysM.ram (if (w.space i).trapframe ≠ 0 then kfree (w.space i).trapframe else pure ())) w
      (fun _ v => ∃ t, v = { w with ram := t } ∧
        HostsBut i all trampoline (w.put i t { w.space i with trapframe := 0 }) f m a ∧
        HasTable trampoline t (w.space i) (f i))
      fun _ _ => False := by
  by_cases hne : (w.space i).trapframe = 0
  · rw [if_neg (not_not_intro hne)]
    refine ⟨w.ram, rfl, h.putFrame _ ?_ rfl (fun _ _ _ => rfl), htable⟩
    have hsame : Function.update w.frame i 0 = w.frame := by
      conv_lhs => rw [← hne]
      exact Function.update_eq_self i w.frame
    exact hsame.symm ▸ h.estate
  · rw [if_pos hne]
    refine (Ends.sysRam (kfree_ends (h.estate.framePage (i := i) hne))).post ?_
    rintro - _ ⟨t, rfl, hk⟩
    have hestate := h.estate.giveFrame (i := i) hne hk
    refine ⟨t, rfl, h.putFrame _ hestate hk.kernelEnd fun b _ hb => hk.mem b hb, ?_⟩
    refine htable.imp_right fun hthere => ⟨hthere.1, hthere.2.1, ?_⟩
    obtain ⟨m₁, frame, htab⟩ := hthere.2.2
    exact ⟨m₁, frame, htab.moved (hestate.left i) fun b o hne' hb =>
      hk.mem b fun heq => h.estate.frame_ne_page (i := i) hne' (hb.trans heq)⟩

/-- **`freeproc`** gives back all that a process has. -/
theorem HostsBut.freeproc (h : HostsBut i all trampoline w f m a)
    (htable : HasTable trampoline w.ram (w.space i) (f i)) :
    Ends (Vm.freeproc i) w
      (fun _ v => Houses all trampoline v (a.setKernel (·.modify i Xv6.freeproc)))
      fun _ _ => False := by
  unfold Vm.freeproc
  rw [Ends.get_bind_iff]
  refine (h.freeFrame htable).bind ?_
  rintro - _ ⟨t, rfl, h₁, htable₁⟩
  rw [Ends.setSpace_bind]
  have hput : ({ w with ram := t } : Sys).setSpace i (fun p => { p with trapframe := 0 }) =
      w.put i t { w.space i with trapframe := 0 } := rfl
  rw [hput]
  have hdone : ∀ u, Pages (Left (f i) t) (fun _ => 0) u → u.kernelEnd = t.kernelEnd →
      (∀ b, ¬ Left (f i) t (PGROUNDDOWN b) → u.mem b = t.mem b) →
      Houses all trampoline (((w.put i u { w.space i with trapframe := 0 }).setSpace i
          fun p => { p with pagetable := 0, sz := 0, name := p.name.set 0 0 }).setKernel
          (·.modify i Xv6.freeproc)) (a.setKernel (·.modify i Xv6.freeproc)) := by
    intro u hpages hkernel hmem
    rw [Sys.put_setSpace]
    have hbut := h₁.put { w.space i with
        trapframe := 0, pagetable := 0, sz := 0, name := (w.space i).name.set 0 0 }
      hpages hkernel (by rw [Sys.put_space_self]) fun b hb _ => hmem b hb
    rw [Sys.put_put] at hbut
    have hfreed := hbut.setKernel (·.modify i Xv6.freeproc) fun j hj => by
      rw [Xv6.Kernel.modify_proc_of_ne hj]
    refine ⟨_, m, hfreed.complete ⟨fun _ => ?_, fun hused => absurd ?_ hused⟩⟩
    · rw [Function.update_self]
      change NoPages ((w.put i u _).space i) _
      rw [Sys.put_space_self]
      exact ⟨rfl, rfl, rfl, fun _ => rfl⟩
    · exact congrArg Xv6.Proc.state Xv6.Kernel.modify_proc_self
  rcases htable₁ with ⟨hzero, hnone⟩ | ⟨hne, hsz, m₁, frame, htab⟩
  · rw [if_neg (not_not_intro hzero)]
    have hf : f i = fun _ => 0 := funext hnone
    exact hdone t (hf ▸ h₁.estate.left i) rfl fun _ _ => rfl
  · rw [if_pos hne]
    refine (Ends.sysRam (htab.procFreepagetable hsz)).bind ?_
    rintro - _ ⟨u, rfl, hreturned⟩
    exact hdone u hreturned.pages hreturned.kernelEnd hreturned.mem

/-! ### `allocproc` -/

/-- What `allocproc` does to the table for slot `i`. -/
def take (i : Slot) (k : Kernel) : Kernel :=
  { k.modify i (Xv6.allocprocFields k.ticks k.nextpid) with nextpid := k.nextpid + 1 }

theorem allocproc_eq {ok : Bool} (hfind : (Xv6.findSlot fun i => (k.proc i).state = .unused) = some i) :
    Xv6.allocproc ok k =
      if ok then (some i, take i k) else (none, (take i k).modify i Xv6.freeproc) := by
  unfold Xv6.allocproc
  rw [hfind]
  rfl

theorem take_of_ne (hj : j ≠ i) : (take i k).proc j = k.proc j := Xv6.Kernel.modify_proc_of_ne hj

theorem take_self : ((take i k).proc i).state = .used := by
  change ((k.modify i _).proc i).state = _
  rw [Xv6.Kernel.modify_proc_self]
  rfl

/-- **A process without memory.** -/
structure Newborn (trampoline : Nat) (s : Ram) (sp : Space) (g : Owner → Nat) : Prop where
  frame_ne : sp.trapframe ≠ 0
  pagetable_ne : sp.pagetable ≠ 0
  sz : sp.sz = 0
  table : ∃ m₁, UserTable (Left g s) sp.pagetable g s m₁ 0 trampoline sp.trapframe

theorem Newborn.hasTable (h : Newborn trampoline s sp g) : HasTable trampoline s sp g := by
  obtain ⟨m₁, htable⟩ := h.table
  refine Or.inr ⟨h.pagetable_ne, ?_, m₁, sp.trapframe, ?_⟩
  · rw [h.sz]
    exact Nat.zero_le _
  · rw [h.sz]
    exact htable

/-- What `allocproc` has done with slot `i`. -/
def Allocated (all : Nat → Prop) (trampoline : Nat) (a : Ideal) (i : Slot) (w : Sys)
    (o : Option Slot) (v : Sys) : Prop :=
  o = none ∧ Houses all trampoline v ((a.setKernel (take i)).setKernel (·.modify i Xv6.freeproc)) ∨
    o = some i ∧ ∃ f m, HostsBut i all trampoline v f m (a.setKernel (take i)) ∧
      Newborn trampoline v.ram (v.space i) (f i) ∧ ∀ j ≠ i, v.space j = w.space j

/-- The slot is given back. -/
theorem HostsBut.giveBack (h : HostsBut i all trampoline v f m (a.setKernel (take i)))
    (htable : HasTable trampoline v.ram (v.space i) (f i)) :
    Ends (do Vm.freeproc i; return none) v (Allocated all trampoline a i w) fun _ _ => False :=
  (h.freeproc htable).bind fun _ _ hu => Or.inl ⟨rfl, hu⟩

/-- **`allocproc`** makes a process without memory, or none. -/
theorem Hosts.allocSlot (h : Hosts all trampoline w f m a)
    (hunused : (w.kernel.proc i).state = .unused) :
    Ends (Vm.allocSlot trampoline i) w (Allocated all trampoline a i w) fun _ _ => False := by
  obtain ⟨hframe, hpagetable, hsz, hnone⟩ := (h.slot i).unused hunused
  have hf : f i = fun _ => 0 := funext hnone
  have hfresh : HostsBut i all trampoline (w.setKernel (take i)) f m (a.setKernel (take i)) :=
    (h.but i).setKernel (take i) fun j hj => by rw [take_of_ne hj]
  have hbare : ∀ u : Ram, HasTable trampoline u (w.space i) (f i) := fun u =>
    Or.inl ⟨hpagetable, hnone⟩
  unfold Vm.allocSlot
  rw [Ends.setKernel_bind]
  refine (Ends.sysRam (w := w.setKernel (take i)) (kalloc_ends h.estate.freeList)).bind ?_
  rintro x _ ⟨t, rfl, ⟨rfl, hdenied⟩ | ⟨hx, hk⟩⟩
  · rw [Ends.setSpace_bind, if_pos rfl]
    have hput : HostsBut i all trampoline
        ((w.setKernel (take i)).put i t { w.space i with trapframe := 0 }) f m
        (a.setKernel (take i)) := by
      refine hfresh.putFrame _ ?_ hdenied.kernelEnd fun _ _ _ => by rw [hdenied.mem]
      have hsame : Function.update (w.setKernel (take i)).frame i 0 = w.frame := by
        conv_lhs => rw [← hframe]
        exact Function.update_eq_self i w.frame
      exact hsame.symm ▸ h.estate.congr hdenied.freelist hdenied.kernelEnd
    refine hput.giveBack ?_
    rw [Sys.put_space_self]
    exact Or.inl ⟨hpagetable, hnone⟩
  · rw [Ends.setSpace_bind, if_neg hx]
    have hestate := h.estate.takeFrame (i := i) hframe hk
    have hput : HostsBut i all trampoline
        ((w.setKernel (take i)).put i t { w.space i with trapframe := x }) f m
        (a.setKernel (take i)) :=
      hfresh.putFrame _ hestate hk.kernelEnd fun b hb _ => hk.mem b fun heq =>
        hb (Or.inl (heq ▸ hk.freelist ▸ List.mem_cons_self))
    have hlt : x < 2 ^ 64 := by
      have hpage := h.estate.isPage (h.estate.free x (hk.freelist ▸ List.mem_cons_self))
      exact Nat.lt_trans hpage.stop (by decide)
    have hpages : Pages (Left (f i) t) (fun _ => 0) t := hf ▸ hestate.left i
    refine (Ends.sysRam (w := (w.setKernel (take i)).put i t { w.space i with trapframe := x })
      (hpages.procPagetable h.code_lt hlt)).bind ?_
    rintro r _ ⟨u, rfl, ⟨rfl, hreturned⟩ | ⟨hne, hconfined, g, m₁, htable⟩⟩
    · rw [Ends.setSpace_bind, if_pos rfl, Sys.put_ramSet, Sys.put_setSpace]
      have hback := hput.put (t := u) (g := f i) { w.space i with
        trapframe := x, pagetable := 0 } (hf ▸ hreturned.pages) hreturned.kernelEnd
        (by rw [Sys.put_space_self]) fun b hb _ => hreturned.mem b hb
      rw [Sys.put_put, Function.update_eq_self] at hback
      refine hback.giveBack ?_
      rw [Sys.put_space_self]
      exact Or.inl ⟨rfl, hnone⟩
    · rw [Ends.setSpace_bind, if_neg hne, Sys.put_ramSet, Sys.put_setSpace]
      have hmade := hput.put (t := u) (g := g) { w.space i with
        trapframe := x, pagetable := r } htable.toPages hconfined.kernelEnd
        (by rw [Sys.put_space_self]) fun b hb _ => hconfined.mem b hb
      rw [Sys.put_put] at hmade
      refine Or.inr ⟨rfl, _, m, hmade, ⟨?_, ?_, ?_, m₁, ?_⟩, fun j hj => Sys.put_space_of_ne hj⟩
      · rwa [Sys.put_space_self]
      · rwa [Sys.put_space_self]
      · rwa [Sys.put_space_self]
      · rw [Sys.put_space_self]
        have hleft := hmade.estate.left i
        rw [Function.update_self] at hleft ⊢
        exact htable.moved hleft fun _ _ _ _ => rfl

/-! ### `fork` -/

/-- A page is written to that is a trapframe. -/
theorem outside_regs (hx : PGSIZE ∣ x) {l : List UInt8} {o : Nat}
    (hl : o + l.length ≤ TRAPFRAMESIZE) {b : Nat} (hb : PGROUNDDOWN b ≠ x) :
    (s.memmove (x + o) l).mem b = s.mem b := by
  refine Bytes.splice_outside ?_
  by_contra hin
  obtain ⟨c, rfl⟩ := Nat.exists_eq_add_of_le (show x ≤ b by omega)
  exact hb (regs_page hx (by omega))

/-- **The trapframe of a child.** -/
theorem child_regs (frame : Nat) :
    Bytes.slice ((s.memmove x (Bytes.slice s.mem frame TRAPFRAMESIZE)).store (x + 112) 0).mem x
        TRAPFRAMESIZE =
      Bytes.overwrite (Bytes.slice s.mem frame TRAPFRAMESIZE) 112 (Bytes.leBytes 8 0) := by
  have hlength : (Bytes.slice s.mem frame TRAPFRAMESIZE).length = TRAPFRAMESIZE :=
    Bytes.slice_length
  have hcopy : Bytes.slice (s.memmove x (Bytes.slice s.mem frame TRAPFRAMESIZE)).mem x
      TRAPFRAMESIZE = Bytes.slice s.mem frame TRAPFRAMESIZE := by
    have hsplice : Bytes.slice (s.memmove x (Bytes.slice s.mem frame TRAPFRAMESIZE)).mem x
        (Bytes.slice s.mem frame TRAPFRAMESIZE).length = _ := Bytes.slice_splice
    rwa [hlength] at hsplice
  have hzero : 112 + (Bytes.leBytes 8 0).length ≤ TRAPFRAMESIZE := by decide
  exact (Bytes.slice_splice_within hzero).trans (by rw [hcopy])

/-- What the child and its parent have after a `fork`. -/
theorem HostsBut.fork (h : HostsBut np all trampoline w f m (a.setKernel (take np)))
    (hnew : Newborn trampoline w.ram (w.space np) (f np)) (hne : me ≠ np)
    (hrun : (w.kernel.proc me).state ≠ .unused) :
    Ends (forkInto me np) w
      (fun r v => r = -1 ∧ Houses all trampoline v
          ((a.setKernel (take np)).setKernel (·.modify np Xv6.freeproc)) ∨
        r = (w.kernel.proc np).pid ∧ Houses all trampoline v
          (((a.setKernel (take np)).setKernel (·.modify np (Xv6.forkFields me))).setUser np
            (a.user me).child))
      fun _ _ => False := by
  have hme := (h.others me hne).used hrun
  have haligned := (h.estate.framePage (i := np) hnew.frame_ne).aligned
  obtain ⟨m₁, htable⟩ := hnew.table
  unfold forkInto
  rw [Ends.get_bind_iff]
  refine (Ends.sysRam (hme.view.uvmcopy (fun o ho => h.estate.apart hne ho) htable
    hme.sz_le)).bind ?_
  rintro r _ ⟨t, rfl, hconfined, g, m₂, ⟨rfl, hview⟩ | ⟨rfl, hback⟩⟩
  · rw [if_neg (by decide), Ends.setSpace_bind]
    have hput : HostsBut np all trampoline (w.put np t { w.space np with sz := (w.space me).sz })
        (Function.update f np g) m (a.setKernel (take np)) :=
      h.put _ hview.toPages hconfined.kernelEnd rfl fun b hb _ => hconfined.mem b hb
    refine (Ends.sysRam (w := w.put np t { w.space np with sz := (w.space me).sz })
      (x := copyTrapframe _ _) (Q := fun _ u => u = t.memmove (w.space np).trapframe
        (Bytes.slice t.mem (w.space me).trapframe TRAPFRAMESIZE)) rfl).bind ?_
    rintro - _ ⟨_, rfl, rfl⟩
    refine (Ends.sysRam (w := w.put np (t.memmove (w.space np).trapframe
      (Bytes.slice t.mem (w.space me).trapframe TRAPFRAMESIZE)) { w.space np with
        sz := (w.space me).sz }) (x := Vm.store _ _) (Q := fun _ u =>
        u = (t.memmove (w.space np).trapframe (Bytes.slice t.mem (w.space me).trapframe
          TRAPFRAMESIZE)).store ((w.space np).trapframe + 112) 0) rfl).bind ?_
    rintro - _ ⟨_, rfl, rfl⟩
    rw [Ends.setSpace_bind, Ends.setKernel_bind, Sys.put_ramSet, Sys.put_setSpace]
    have hregs := child_regs (s := t) (x := (w.space np).trapframe) (w.space me).trapframe
    have hmem : ∀ b, PGROUNDDOWN b ≠ (w.space np).trapframe →
        ((t.memmove (w.space np).trapframe (Bytes.slice t.mem (w.space me).trapframe
          TRAPFRAMESIZE)).store ((w.space np).trapframe + 112) 0).mem b = t.mem b := by
      intro b hb
      refine (outside_regs haligned (by rw [Bytes.leBytes_length]; decide) hb).trans ?_
      exact outside_regs (o := 0) haligned (by rw [Bytes.slice_length, Nat.zero_add]) hb
    have hparent : Bytes.slice t.mem (w.space me).trapframe TRAPFRAMESIZE = (a.user me).regs := by
      change _ = ((a.setKernel (take np)).user me).regs
      rw [hme.regs]
      refine regs_congr hme.frame_aligned fun b hb => hconfined.mem b ?_
      rw [hb]
      exact h.estate.frame_apart (j := me) hme.frame_ne
    rw [hparent] at hregs hmem ⊢
    obtain ⟨u, hu⟩ : ∃ u, (t.memmove (w.space np).trapframe (a.user me).regs).store
      ((w.space np).trapframe + 112) 0 = u := ⟨_, rfl⟩
    have hfree : u.freelist = t.freelist := hu ▸ rfl
    have hkernel : u.kernelEnd = t.kernelEnd := hu ▸ rfl
    rw [hu] at hregs hmem ⊢
    have hframe : (w.put np t { w.space np with sz := (w.space me).sz }).frame np =
        (w.space np).trapframe := by
      rw [Sys.put_frame, Function.update_self]
    have hdone := hput.putFrame (t := u) { w.space np with
        sz := (w.space me).sz
        name := safestrcpy (w.space np).name (cstr (w.space me).name) 16 }
      (by
        rw [← hframe, Function.update_eq_self]
        exact hput.estate.congr hfree hkernel) hkernel fun b _ hb => hmem b (hframe ▸ hb)
    rw [Sys.put_put] at hdone
    have hborn := ((hdone.setMap m₂).setKernel (·.modify np (Xv6.forkFields me)) fun j hj => by
      rw [Xv6.Kernel.modify_proc_of_ne hj]).setUser (a.user me).child
    refine Or.inr ⟨rfl, _, _, hborn.complete ⟨fun hunused => ?_, fun _ => ?_⟩⟩
    · change ((Xv6.Kernel.modify _ np (Xv6.forkFields me)).proc np).state = _ at hunused
      rw [Xv6.Kernel.modify_proc_self] at hunused
      cases hunused
    · rw [Ideal.setUser_self, Function.update_self, Function.update_self]
      change Lodges trampoline u ((w.put np u _).space np) g m₂ _
      have hleft := hdone.estate.left np
      rw [Function.update_self] at hleft
      rw [Sys.put_space_self]
      refine ⟨hnew.frame_ne, haligned, hme.sz_le, hme.sz_eq, hregs.symm, hview.moved hleft ?_⟩
      intro b o ho hb
      have hapart := hput.estate.frame_ne_page (j := np) (i := np) (o := o)
      rw [Function.update_self, hframe] at hapart
      exact hmem b fun heq => hapart ho (hb.trans heq)
  · rw [if_pos (by decide)]
    have hput : HostsBut np all trampoline (w.put np t (w.space np)) (Function.update f np g) m
        (a.setKernel (take np)) :=
      h.put _ hback.toPages hconfined.kernelEnd rfl fun b hb _ => hconfined.mem b hb
    have hchild : Newborn trampoline t (w.space np) g := by
      refine ⟨hnew.frame_ne, hnew.pagetable_ne, hnew.sz, m₂, ?_⟩
      have hleft := hput.estate.left np
      rw [Function.update_self] at hleft
      exact hback.moved hleft fun _ _ _ _ => rfl
    rw [Sys.put_self] at hput
    refine (hput.freeproc ?_).bind fun _ v hv => Or.inl ⟨rfl, hv⟩
    rw [Function.update_self]
    exact hchild.hasTable

/-- **`fork`**. -/
theorem Hosts.fork (h : Hosts all trampoline w f m a)
    (hrun : (w.kernel.proc me).state = .running) :
    Ends (perform trampoline (.fork me)) w (Carries all trampoline a (.fork me)) fun _ _ => False := by
  rw [perform]
  refine Ends.value ?_
  unfold Vm.fork allocproc
  rw [bind_assoc, Ends.get_bind_iff]
  cases hfind : Xv6.findSlot fun i => (w.kernel.proc i).state = .unused with
  | none =>
      have hfork : a.fork me false = (-1, a) := by
        unfold Ideal.fork Xv6.allocproc
        rw [h.kernel, hfind, ← h.kernel]
      refine ⟨a, ⟨false, ?_⟩, f, m, h⟩
      rw [hfork]
  | some np =>
      have hunused : (w.kernel.proc np).state = .unused := of_decide_eq_true (Xv6.findSlot_some hfind)
      have hne : me ≠ np := by
        rintro rfl
        rw [hrun] at hunused
        cases hunused
      have halloc : ∀ ok, Xv6.allocproc ok a.kernel = if ok then (some np, take np a.kernel)
          else (none, (take np a.kernel).modify np Xv6.freeproc) := fun ok =>
        allocproc_eq (h.kernel ▸ hfind)
      have hfails : ∀ v, Houses all trampoline v
          ((a.setKernel (take np)).setKernel (·.modify np Xv6.freeproc)) →
          Carries all trampoline a (.fork me) (.value (-1)) v := by
        intro v hv
        refine ⟨_, ⟨false, ?_⟩, hv⟩
        unfold Ideal.fork
        rw [halloc]
        rfl
      refine (h.allocSlot hunused).bind ?_
      rintro _ v (⟨rfl, hv⟩ | ⟨rfl, f', m', hbut, hnew, hspace⟩)
      · exact hfails v hv
      · have hkernel : v.kernel = take np a.kernel := hbut.kernel.symm
        have hused : (v.kernel.proc me).state ≠ .unused := by
          rw [hkernel, take_of_ne hne, h.kernel, hrun]
          decide
        refine (hbut.fork hnew hne hused).post ?_
        rintro r u (⟨rfl, hu⟩ | ⟨rfl, hu⟩)
        · exact hfails u hu
        · refine ⟨_, ⟨true, ?_⟩, hu⟩
          unfold Ideal.fork
          rw [halloc, hkernel]
          rfl

/-! ### `wait` -/

/-- **`wait`** when it has found a child. -/
theorem Hosts.reap (h : Hosts all trampoline w f m a)
    (hrun : (w.kernel.proc me).state = .running) (hchild : (w.kernel.proc np).state = .zombie)
    (addr : UInt64) :
    Ends (Vm.reap me np addr) w
      (fun r v => ∃ mem : UserMem, ((if addr ≠ 0 then
            (a.user me).mem.copyout addr (Xv6.intWord (w.kernel.proc np).xstate)
          else (0, (a.user me).mem)) = (-1, mem) ∧ r = -1 ∧
            Houses all trampoline v (a.setUser me { a.user me with mem := mem }) ∨
          (if addr ≠ 0 then
              (a.user me).mem.copyout addr (Xv6.intWord (w.kernel.proc np).xstate)
            else (0, (a.user me).mem)) = (0, mem) ∧ r = (w.kernel.proc np).pid ∧
            Houses all trampoline v ((a.setUser me { a.user me with mem := mem }).setKernel
              (·.modify np Xv6.freeproc))))
      fun _ _ => False := by
  have hme := h.running hrun
  have hcopy : Ends (SysM.ram (if addr ≠ 0 then
      copyout (w.space me).pagetable addr.toNat (Xv6.intWord (w.kernel.proc np).xstate)
      else pure 0)) w (fun r v => ∃ mem : UserMem, (if addr ≠ 0 then
        (a.user me).mem.copyout addr (Xv6.intWord (w.kernel.proc np).xstate)
          else (0, (a.user me).mem)) = (r, mem) ∧ (r = 0 ∨ r = -1) ∧ v.kernel = w.kernel ∧
            Houses all trampoline v (a.setUser me { a.user me with mem := mem }))
      fun _ _ => False := by
    by_cases haddr : addr = 0
    · rw [if_neg (not_not_intro haddr)]
      refine ⟨_, if_neg (not_not_intro haddr), Or.inl rfl, rfl, f, m, ?_⟩
      rw [Ideal.setUser_eq_self]
      exact h
    · rw [if_pos haddr]
      refine (Ends.sysRam (hme.view.copyout addr.toNat _)).post ?_
      rintro r _ ⟨t, rfl, hconfined, rfl, hview⟩
      have hhouses := h.resize (w.space me) hrun rfl hme.sz_le hconfined hview
      rw [Function.update_eq_self, ← hme.sz_eq] at hhouses
      refine ⟨_, (if_pos haddr).trans (UserMem.copyoutLoop_eq (Nat.le_refl _)), ?_, rfl, hhouses⟩
      split
      · exact Or.inl rfl
      · exact Or.inr rfl
  unfold Vm.reap
  rw [Ends.get_bind_iff]
  refine hcopy.bind ?_
  rintro r v ⟨mem, hmem, rfl | rfl, hkernel, f', m', hv⟩
  · rw [if_neg (by decide)]
    have hused : (v.kernel.proc np).state ≠ .unused := by
      rw [hkernel, hchild]
      decide
    have hnp := (hv.slot np).used hused
    refine ((hv.but np).freeproc (Or.inr ⟨hnp.view.root_ne, hnp.sz_le, _, _,
      hnp.view.toUserTable⟩)).bind fun _ u hu => ⟨mem, Or.inr ⟨hmem, rfl, hu⟩⟩
  · rw [if_pos (by decide)]
    exact ⟨mem, Or.inl ⟨hmem, rfl, f', m', hv⟩⟩

/-- **One pass of `wait`**. -/
theorem Hosts.wait (h : Hosts all trampoline w f m a) {addr : UInt64}
    (hrun : (w.kernel.proc me).state = .running) :
    Ends (perform trampoline (.wait me addr)) w (Carries all trampoline a (.wait me addr))
      fun _ _ => False := by
  rw [perform]
  unfold Vm.wait
  rw [bind_assoc, Ends.get_bind_iff]
  cases hfind : Xv6.zombieChild me w.kernel with
  | some np =>
      have hzombie : (w.kernel.proc np).state = .zombie :=
        (of_decide_eq_true (Xv6.findSlot_some hfind)).2
      dsimp only
      rw [Ends.bind_iff, Ends.map_iff]
      refine (h.reap hrun hzombie addr).post ?_
      rintro r v ⟨mem, ⟨hmem, rfl, hv⟩ | ⟨hmem, rfl, hv⟩⟩
      · refine ⟨_, ?_, hv⟩
        unfold Ideal.Step
        dsimp only
        rw [h.kernel, Xv6.wait, hfind]
        dsimp only
        rw [hmem]
        exact ⟨rfl, by rw [← h.kernel]⟩
      · refine ⟨_, ?_, hv⟩
        unfold Ideal.Step
        dsimp only
        rw [h.kernel, Xv6.wait, hfind]
        dsimp only
        rw [hmem]
        exact ⟨rfl, by rw [← h.kernel]; rfl⟩
  | none =>
      dsimp only
      by_cases hgives : Xv6.givesUp me w.kernel = true
      · rw [if_pos hgives]
        refine ⟨_, ?_, f, m, h⟩
        unfold Ideal.Step
        dsimp only
        rw [h.kernel, Xv6.wait, hfind]
        dsimp only
        rw [if_pos hgives]
        refine ⟨rfl, ?_⟩
        rw [← h.kernel]
        exact Ideal.setUser_eq_self.symm
      · rw [if_neg hgives]
        refine ⟨_, ?_, f, m, h.setKernel (·.modify me (Xv6.sleepProc (some (.proc me))))
          (sameUse_modify (by rw [hrun]; decide) (by simp [Xv6.sleepProc]))⟩
        unfold Ideal.Step
        dsimp only
        rw [h.kernel, Xv6.wait, hfind]
        dsimp only
        rw [if_neg hgives]
        exact ⟨rfl, rfl⟩

end Vm
