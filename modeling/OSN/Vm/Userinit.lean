import OSN.Vm.Families

/-!
# The first process

`userinit` makes the first process of a machine whose pages are all free, with a program of
one page.  It does not look whether there is a page for it; if there is none, nothing is
mapped at address 0.
-/

namespace Vm

open Xv6 (PGSIZE MAXVA UserMem Slot Kernel)
open Fs (CStr)

attribute [local irreducible] freewalk procPagetable procFreepagetable mappages

variable {all room : Nat → Prop} {trampoline root n sz x : Nat} {w v : Sys} {s t u : Ram}
  {f f' : Slot → Owner → Nat} {g g' : Owner → Nat} {m m' : Slot → PageMap} {m₁ : PageMap}
  {a a' : Ideal} {i j me np : Slot} {mem : UserMem} {sp : Space} {k : Kernel} {src : List UInt8}
  {trapframe : Nat}

theorem lt_of_no_page (i : Nat) (h : false = true) : i * PGSIZE < MAXVA :=
  absurd h Bool.false_ne_true

/-- No memory at all. -/
def noMem : UserMem where
  mapped _ := false
  byte _ := 0
  mapped_lt := lt_of_no_page

/-- The memory of the first process: `src`, and zeros to the end of the page. -/
def firstMem (src : List UInt8) : UserMem := (noMem.resize 0 1).write 0 src

/-- A process without memory sees none. -/
theorem UserTable.noMem (h : UserTable room root g s m₁ 0 trampoline trapframe) :
    UserView room root g s m₁ 0 trampoline trapframe noMem := by
  have hnone : ∀ b, ¬ Access m₁ b := fun b hacc => Nat.not_lt_zero _ (h.access_lt hacc)
  refine ⟨h, fun _ hbad => (by cases hbad), UserMem.ext_pages (fun b => ?_) fun b => if_neg (hnone b)⟩
  rw [mapped_view]
  exact decide_eq_false (hnone b)

/-- Bytes of one page are written. -/
theorem UserView.memmove (src : List UInt8) (h : UserView room root g s m₁ n trampoline trapframe mem) {va : Nat}
    (hva : mem.mapped (va / PGSIZE) = true) (hl : src.length ≤ PGSIZE - va % PGSIZE) :
    UserView room root g (s.memmove (phys m₁ va) src) m₁ n trampoline trapframe (mem.write va src) ∧
      Confined room s (s.memmove (phys m₁ va) src) := by
  obtain ⟨himage, hconfined⟩ := h.userImage.memmove hva hl
  obtain ⟨hview, hmapped, hbyte⟩ := himage.userView
  refine ⟨⟨hview.toUserTable, h.user, UserMem.ext_pages (fun b => ?_) fun b => ?_⟩, hconfined⟩
  · rw [Bool.eq_iff_iff, hmapped, UserMem.write_mapped]
  · exact congrFun hbyte b

/-- Where `uvminit` has not found memory, nothing is mapped at 0. -/
def Failed (room : Nat → Prop) (root : Nat) (t : Ram) : Prop :=
  ∃ g m₁, Maps room root g t m₁ ∧ m₁.addr 0 = 0

/-- Tables are not on the first page of the memory. -/
theorem InTable.ge (h : Pages room g s) (hbase : KERNBASE ≤ s.kernelEnd) {b : Nat}
    (hb : InTable g b) : PGSIZE ≤ b := by
  have hstart := (h.isPage (hb.inRoom h)).start
  have hle := PGROUNDDOWN_le b
  unfold KERNBASE at hbase
  unfold PGSIZE
  omega

/-- **`uvminit`** maps the program at 0, or nothing. -/
theorem UserTable.uvminit (src : List UInt8) (h : UserTable room root g s m₁ 0 trampoline trapframe)
    (hbase : KERNBASE ≤ s.kernelEnd) (hsrc : src.length < PGSIZE) :
    Ends (Vm.uvminit root src) s
      (fun _ t => t.kernelEnd = s.kernelEnd ∧ (Failed room root t ∨ Confined room s t ∧
        ∃ g' m₂, UserView room root g' t m₂ 1 trampoline trapframe (firstMem src)))
      fun _ _ => False := by
  have hdiv : 0 / PGSIZE = 0 := Nat.zero_div _
  obtain ⟨hnone, -⟩ := h.none_above 0 (Nat.le_refl _) (by decide)
  have haddr : m₁.addr 0 = 0 := by
    unfold PageMap.addr
    rw [hdiv, hnone]
  unfold Vm.uvminit
  rw [if_neg (by omega)]
  refine (kalloc_ends h.freeList).bind ?_
  rintro x t (⟨rfl, hdenied⟩ | ⟨hx, hk⟩)
  · unfold Vm.memset
    rw [Ends.modify_bind_iff]
    have hlow : ∀ b, InTable g b → PGSIZE ≤ b := fun b hb => hb.ge h.toPages hbase
    have hmaps : Maps room root g (t.memset 0 0 PGSIZE) m₁ := by
      refine h.toMaps.congr hdenied.freelist hdenied.kernelEnd fun b hb => ?_
      have hge := hlow b hb
      exact (if_neg (by omega)).trans (congrFun hdenied.mem b)
    refine (hmaps.mapOne (a := 0) (x := 0) (Nat.dvd_zero _) (by decide) (by decide) (by decide)
      (hdiv.symm ▸ hnone)).bind ?_
    rintro r u ⟨g', hgrows, hr⟩
    have hmoved : ∀ m₂, Maps room root g' u m₂ → Maps room root g' (u.memmove 0 src) m₂ := by
      intro m₂ hm₂
      have hkernel : u.kernelEnd = s.kernelEnd := hgrows.kernelEnd.trans hdenied.kernelEnd
      refine hm₂.congr (t := u.memmove 0 src) rfl rfl fun b hb => ?_
      have hge := hb.ge hm₂.toPages (hkernel.symm ▸ hbase)
      have hout : Bytes.splice u.mem 0 src b = u.mem b := Bytes.splice_outside (by omega)
      exact hout
    refine ⟨hgrows.kernelEnd.trans hdenied.kernelEnd, Or.inl ⟨g', ?_⟩⟩
    rcases hr with ⟨-, hmaps'⟩ | ⟨-, hmaps'⟩
    · refine ⟨_, hmoved _ hmaps', ?_⟩
      unfold PageMap.addr
      rw [Function.update_self]
      dsimp only
      split <;> rfl
    · exact ⟨_, hmoved _ hmaps', haddr⟩
  · unfold Vm.memset
    rw [Ends.modify_bind_iff]
    have hpage := h.isPage (h.free x (hk.freelist ▸ List.mem_cons_self))
    obtain ⟨hk', hzero⟩ := hk.memset hpage.aligned
    have hproc : ProcMem room root g s m₁ (0 / PGSIZE) := hdiv.symm ▸ h.toProcMem
    refine (hproc.mapPage (a := 0) (Nat.dvd_zero _) (by decide) hx hk' (by decide)
      (by decide)).bind ?_
    rintro r u ⟨hmem, ⟨-, g', hproc', hown, hkept⟩ | ⟨-, g', hmaps', hown, -, hkept⟩⟩
    · rw [hdiv] at hproc' hown hkept
      have hfresh : ∀ p, 0 ≤ p → p < 0 + 1 → Fresh g' u
          (Function.update m₁ 0 (some (.make x (PTE_W ||| PTE_R ||| PTE_X ||| PTE_U)))) p := by
        intro p _ hp
        obtain rfl : p = 0 := by omega
        refine ⟨?_, fun b hb => ?_⟩
        · rw [Function.update_self, hown]
          rfl
        · rw [hown] at hb
          rw [hmem b hb]
          exact hzero b hb
      have hview := h.noMem.resized hproc' hkept (fun p hp _ => absurd hp (Nat.not_lt_zero p)) hfresh
      have hmapped : ((Vm.noMem).resize 0 (0 + 1)).mapped (0 / PGSIZE) = true := by
        rw [hdiv, UserMem.resize_mapped_new (Nat.le_refl _)]
        decide
      have hphys : phys (Function.update m₁ 0
          (some (.make x (PTE_W ||| PTE_R ||| PTE_X ||| PTE_U)))) 0 = x := by
        unfold phys PageMap.addr
        rw [hdiv, Function.update_self]
        change (if _ then PGROUNDDOWN (x % 2 ^ 64) else 0) + 0 = x
        have huser : (Mapping.make x (PTE_W ||| PTE_R ||| PTE_X ||| PTE_U)).flags.testBit 4 =
            true := by
          change ((PTE_W ||| PTE_R ||| PTE_X ||| PTE_U) % 1024 ||| PTE_V).testBit 4 = true
          decide
        rw [if_pos huser, Nat.mod_eq_of_lt (Nat.lt_trans hpage.stop (by decide)),
          PGROUNDDOWN_of_dvd hpage.aligned]
        rfl
      obtain ⟨hwritten, hconfined⟩ := hview.memmove src hmapped (by
        rw [Nat.zero_mod]
        omega)
      rw [hphys] at hwritten hconfined
      have hall := hkept.confined.trans hconfined
      exact ⟨hall.kernelEnd, Or.inr ⟨hall, g', _, hwritten⟩⟩
    · refine ⟨hkept.kernelEnd, Or.inl ⟨g', m₁, ?_, haddr⟩⟩
      refine hmaps'.congr (t := u.memmove x src) rfl rfl fun b hb => ?_
      have hne : PGROUNDDOWN b ≠ x := fun heq => hb.ne_leaf hmaps'.toPages (hown.trans heq.symm)
      rw [Ne, PGROUNDDOWN_eq hpage.aligned] at hne
      exact Bytes.splice_outside (by omega)

/-! ### The machine at its start -/

/-- No process has been made yet, and the pages are free. -/
structure Blank (w : Sys) : Prop where
  kernel : w.kernel = Xv6.procinit
  space : ∀ i, w.space i = {}
  nodup : w.ram.freelist.Nodup
  isPage : ∀ x ∈ w.ram.freelist, IsPage w.ram x
  base : KERNBASE ≤ w.ram.kernelEnd

/-- **The first process** as it is to itself. -/
structure First (a : Ideal) : Prop where
  kernel : a.kernel = Xv6.userinit
  mem : (a.user Xv6.initproc).mem = firstMem initcode
  sz : (a.user Xv6.initproc).sz = PGSIZE
  epc : reg (a.user Xv6.initproc).regs 24 = 0
  stack : reg (a.user Xv6.initproc).regs 48 = PGSIZE

theorem Blank.hosts (h : Blank w) (hcode : trampoline < 2 ^ 64) (user : Slot → User) :
    Hosts (· ∈ w.ram.freelist) trampoline w (fun _ _ => 0) (fun _ _ => none)
      ⟨Xv6.procinit, user⟩ := by
  have hkernel : 0 < w.ram.kernelEnd := Nat.lt_of_lt_of_le (by decide) h.base
  have hpos : ∀ x ∈ w.ram.freelist, x ≠ 0 := by
    intro x hx hzero
    have hstart := (h.isPage x hx).start
    omega
  have htenant : ∀ q, tenant w.frame (fun _ _ => 0) q = 0 := by
    rintro ⟨i, _ | o⟩
    · change (w.space i).trapframe = 0
      rw [h.space]
    · rfl
  refine ⟨⟨h.nodup, hkernel, fun hx => h.isPage _ hx, fun _ hx => hx, ?_⟩, h.base, hcode,
    h.kernel.symm, fun i => ⟨fun _ => ?_, fun hused => absurd ?_ hused⟩⟩
  · refine ⟨fun hbad => hpos 0 hbad rfl, fun {q _} hne => absurd (htenant q) hne,
      fun {q} hne => absurd (htenant q) hne, fun {b} hb => ?_⟩
    refine iff_of_false (not_not_intro hb) ?_
    rintro ⟨q, hq⟩
    exact hpos b hb (hq.symm.trans (htenant q))
  · rw [h.space]
    exact ⟨rfl, rfl, rfl, fun _ => rfl⟩
  · rw [h.kernel]
    rfl

/-- What `userinit` stores in the trapframe. -/
theorem first_regs (hx : PGSIZE ∣ x) :
    (∀ b, PGROUNDDOWN b ≠ x →
      ((s.store (x + 24) 0).store (x + 48) PGSIZE).mem b = s.mem b) ∧
    reg (Bytes.slice ((s.store (x + 24) 0).store (x + 48) PGSIZE).mem x TRAPFRAMESIZE) 24 = 0 ∧
    reg (Bytes.slice ((s.store (x + 24) 0).store (x + 48) PGSIZE).mem x TRAPFRAMESIZE) 48 =
      PGSIZE := by
  have hdvd : ∀ o, 8 ∣ o → 8 ∣ x + o := fun o ho => Nat.dvd_add (Nat.dvd_trans (by decide) hx) ho
  refine ⟨fun b hb => ?_, ?_, ?_⟩
  · refine (outside_regs hx (by rw [Bytes.leBytes_length]; decide) hb).trans ?_
    exact outside_regs hx (by rw [Bytes.leBytes_length]; decide) hb
  · rw [reg_slice (by decide), Ram.load_store_ne (hdvd 48 (by decide)) (hdvd 24 (by decide))
      (by omega), Ram.load_store (by decide)]
  · rw [reg_slice (by decide), Ram.load_store (by decide)]

/-- **`userinit`** makes the first process if there is memory for it. -/
theorem Blank.userinit (h : Blank w) (hcode : trampoline < 2 ^ 64) :
    Ends (Vm.userinit trampoline) w
      (fun _ v => walkaddr (v.space Xv6.initproc).pagetable 0 v.ram = .ok 0 v.ram ∨
        ∃ a, First a ∧ Houses (· ∈ w.ram.freelist) trampoline v a)
      fun e _ => e = "userinit: no process" := by
  have hhosts := h.hosts hcode fun _ => ⟨noMem, 0, []⟩
  have hfind : (Xv6.findSlot fun i => (w.kernel.proc i).state = .unused) = some Xv6.initproc := by
    rw [h.kernel]
    decide
  have hunused : (w.kernel.proc Xv6.initproc).state = .unused := by
    rw [h.kernel]
    rfl
  unfold Vm.userinit Vm.allocproc
  rw [bind_assoc, Ends.get_bind_iff, hfind]
  dsimp only
  refine ((hhosts.allocSlot hunused).mono (fun _ _ hq => hq) fun _ _ hbad => hbad.elim).bind ?_
  generalize hi : Xv6.initproc = i
  rintro _ v (⟨rfl, -⟩ | ⟨rfl, f, m, hbut, hnew, -⟩)
  · exact rfl
  · have haligned := (hbut.estate.framePage (i := i) hnew.frame_ne).aligned
    obtain ⟨m₁, htable⟩ := hnew.table
    dsimp only
    rw [Ends.get_bind_iff]
    refine ((Ends.sysRam (htable.uvminit initcode hbut.base (by decide))).mono
      (fun _ _ hq => hq) fun _ _ hbad => hbad.elim).bind ?_
    rintro - _ ⟨t, rfl, hkernel, hr⟩
    rw [Ends.setSpace_bind]
    refine Ends.bind (Q := fun _ v' => v' = v.put i (t.store ((v.space i).trapframe + 24) 0)
      { v.space i with sz := PGSIZE }) rfl ?_
    rintro - _ rfl
    refine Ends.bind (Q := fun _ v' => v' = v.put i ((t.store ((v.space i).trapframe + 24) 0).store
      ((v.space i).trapframe + 48) PGSIZE) { v.space i with sz := PGSIZE }) rfl ?_
    rintro - _ rfl
    rw [Ends.setSpace_bind, Sys.put_setSpace]
    obtain ⟨hmem, hepc, hstack⟩ := first_regs (s := t) haligned
    obtain ⟨u, hu⟩ : ∃ u, (t.store ((v.space i).trapframe + 24) 0).store
      ((v.space i).trapframe + 48) PGSIZE = u := ⟨_, rfl⟩
    have hfree : u.freelist = t.freelist := hu ▸ rfl
    have hkernel' : u.kernelEnd = t.kernelEnd := hu ▸ rfl
    change ∀ b, PGROUNDDOWN b ≠ (v.space i).trapframe → (Ram.store _ _ _).mem b = _ at hmem
    change reg (Bytes.slice (Ram.store (t.store ((v.space i).trapframe + 24) 0)
      ((v.space i).trapframe + 48) PGSIZE).mem (v.space i).trapframe _) 24 = _ at hepc
    change reg (Bytes.slice (Ram.store (t.store ((v.space i).trapframe + 24) 0)
      ((v.space i).trapframe + 48) PGSIZE).mem (v.space i).trapframe _) 48 = _ at hstack
    change ∀ b, PGROUNDDOWN b ≠ (v.space i).trapframe →
      ((t.store ((v.space i).trapframe + 24) 0).store
        ((v.space i).trapframe + 48) PGSIZE).mem b = t.mem b at hmem
    rw [hu] at hmem hepc hstack ⊢
    rcases hr with ⟨g, m₂, hmaps, haddr⟩ | ⟨hconfined, g, m₂, hview⟩
    · refine Or.inl ?_
      have hfinal : Maps _ (v.space i).pagetable g u m₂ := hmaps.congr hfree hkernel' fun b hb =>
        hmem b fun heq => hbut.estate.frame_apart (i := i) (j := i) hnew.frame_ne
          (show Left _ _ (v.space i).trapframe from heq ▸ hb.inRoom hmaps.toPages)
      have hwalk := hfinal.walkaddr (show 0 < MAXVA by decide)
      rw [haddr] at hwalk
      change walkaddr ((v.put i u _).space i).pagetable 0 u = .ok 0 u
      rw [Sys.put_space_self]
      exact hwalk
    · refine Or.inr ?_
      have hput := hbut.put { v.space i with sz := PGSIZE } hview.toPages hkernel rfl
        fun b hb _ => hconfined.mem b hb
      have hframe : (v.put i t { v.space i with sz := PGSIZE }).frame i =
          (v.space i).trapframe := by
        rw [Sys.put_frame, Function.update_self]
      have hdone := hput.putFrame (t := u) { v.space i with
          sz := PGSIZE
          name := safestrcpy (v.space i).name [105, 110, 105, 116, 99, 111, 100, 101] 16 }
        (by
          rw [← hframe, Function.update_eq_self]
          exact hput.estate.congr hfree hkernel') hkernel' fun b _ hb => hmem b (hframe ▸ hb)
      rw [Sys.put_put] at hdone
      have hborn := ((hdone.setMap m₂).setKernel
        (·.modify i fun q => { q with state := .runnable }) fun j hj => by
          rw [Xv6.Kernel.modify_proc_of_ne hj]).setUser ⟨firstMem initcode, PGSIZE,
            Bytes.slice u.mem (v.space i).trapframe TRAPFRAMESIZE⟩
      refine ⟨_, ?_, _, _, hborn.complete ⟨fun hbad => ?_, fun _ => ?_⟩⟩
      · rw [← hi]
        refine ⟨?_, ?_, ?_, ?_, ?_⟩
        · rfl
        all_goals rw [Ideal.setUser_self]
        · rw [hi]
          exact hepc
        · rw [hi]
          exact hstack
      · have hstate : ((v.kernel.modify i fun q => { q with state := .runnable }).proc i).state =
            .runnable := by
          rw [Xv6.Kernel.modify_proc_self]
        cases hstate.symm.trans hbad
      · rw [Ideal.setUser_self, Function.update_self, Function.update_self]
        change Lodges trampoline u ((v.put i u _).space i) g m₂ _
        have hleft := hdone.estate.left i
        rw [Function.update_self] at hleft
        rw [Sys.put_space_self]
        refine ⟨hnew.frame_ne, haligned, show PGSIZE ≤ TRAPFRAME by decide, rfl, rfl, ?_⟩
        refine UserView.moved (n := PGROUNDUP PGSIZE / PGSIZE) (s := t) hview hleft ?_
        intro b o ho hb
        have hapart := hput.estate.frame_ne_page (j := i) (i := i) (o := o)
        rw [Function.update_self, hframe] at hapart
        exact hmem b fun heq => hapart ho (hb.trans heq)

end Vm
