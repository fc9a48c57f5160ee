import OSN.Kernel.Proc
import OSN.Vm.UserView

/-!
# Who has which pages

Each process has the page of its trapframe and the pages of its page table; the others are
free.  A process that takes pages and gives them back only does so among its own and the free
ones, so it is enough to look at these.
-/

namespace Vm

open Xv6 (PGSIZE MAXVA UserMem Slot)

attribute [local irreducible] freewalk

/-- What a page can be to a process: its trapframe, or a page of its page table. -/
def tenant (frame : Slot → Nat) (f : Slot → Owner → Nat) : Slot × Option Owner → Nat
  | (i, none) => frame i
  | (i, some o) => f i o

/-- **The pages `all`** are the free ones and those of the processes. -/
structure Estate (all : Nat → Prop) (s : Ram) (frame : Slot → Nat) (f : Slot → Owner → Nat) :
    Prop where
  nodup : s.freelist.Nodup
  kernel : 0 < s.kernelEnd
  isPage : ∀ {x}, all x → IsPage s x
  free : ∀ x ∈ s.freelist, all x
  tenancy : Tenancy all (· ∉ s.freelist) (tenant frame f)

variable {all room : Nat → Prop} {s t : Ram} {frame : Slot → Nat} {f : Slot → Owner → Nat}
  {f' : Owner → Nat} {i j : Slot} {o : Owner} {x n root trampoline trapframe : Nat} {m : PageMap}
  {mem : UserMem}

namespace Estate

theorem congr (h : Estate all s frame f) (hfree : t.freelist = s.freelist)
    (hkernel : t.kernelEnd = s.kernelEnd) : Estate all t frame f := by
  refine ⟨hfree ▸ h.nodup, hkernel ▸ h.kernel, fun hx => ?_, hfree ▸ h.free, hfree ▸ h.tenancy⟩
  have hpage := h.isPage hx
  exact ⟨hpage.aligned, hkernel ▸ hpage.start, hpage.stop⟩

theorem freeList (h : Estate all s frame f) : FreeList s :=
  ⟨h.nodup, fun x hx => h.isPage (h.free x hx), h.kernel⟩

theorem zero_notMem (h : Estate all s frame f) : 0 ∉ s.freelist := fun hbad =>
  h.tenancy.zero (h.free 0 hbad)

theorem owned (h : Estate all s frame f) (hne : f i o ≠ 0) : all (f i o) ∧ f i o ∉ s.freelist :=
  ⟨h.tenancy.inRoom (i := (i, some o)) hne, h.tenancy.lives (i := (i, some o)) hne⟩

theorem frame_owned (h : Estate all s frame f) (hne : frame i ≠ 0) :
    all (frame i) ∧ frame i ∉ s.freelist :=
  ⟨h.tenancy.inRoom (i := (i, none)) hne, h.tenancy.lives (i := (i, none)) hne⟩

theorem framePage (h : Estate all s frame f) (hne : frame i ≠ 0) : IsPage s (frame i) :=
  h.isPage (h.frame_owned hne).1

/-- **A process and the free pages.** -/
theorem left (h : Estate all s frame f) (i : Slot) : Pages (Left (f i) s) (f i) s := by
  refine ⟨h.nodup, h.kernel, ?_, fun _ hx => Or.inl hx, ?_⟩
  · rintro x (hfree | ⟨hne, o, rfl⟩)
    · exact h.isPage (h.free x hfree)
    · exact h.isPage (h.owned hne).1
  · refine ⟨?_, fun {o o'} hne heq => ?_, fun hne => Or.inr ⟨hne, _, rfl⟩,
      fun {b} hb => ⟨fun hnot => ?_, ?_⟩⟩
    · rintro (hfree | ⟨hne, -⟩)
      · exact h.zero_notMem hfree
      · exact hne rfl
    · have hsame := h.tenancy.alone (i := (i, some o)) (j := (i, some o')) hne heq
      exact Option.some.inj (Prod.mk.inj hsame).2
    · exact (hb.resolve_left hnot).2
    · rintro ⟨o, rfl⟩ hfree
      exact (h.owned fun hzero => h.zero_notMem (hzero ▸ hfree)).2 hfree

/-- The pages of another process. -/
theorem apart (h : Estate all s frame f) (hij : j ≠ i) (hne : f j o ≠ 0) :
    ¬ Left (f i) s (f j o) := by
  rintro (hfree | ⟨-, o', heq⟩)
  · exact (h.owned hne).2 hfree
  · have hsame := h.tenancy.alone (i := (j, some o)) (j := (i, some o')) hne heq.symm
    exact hij (Prod.mk.inj hsame).1

/-- The page of a trapframe. -/
theorem frame_apart (h : Estate all s frame f) (hne : frame j ≠ 0) :
    ¬ Left (f i) s (frame j) := by
  rintro (hfree | ⟨-, o, heq⟩)
  · exact (h.frame_owned hne).2 hfree
  · have hsame := h.tenancy.alone (i := (j, none)) (j := (i, some o)) hne heq.symm
    cases (Prod.mk.inj hsame).2

theorem frame_ne (h : Estate all s frame f) (hij : j ≠ i) (hne : frame j ≠ 0) :
    frame j ≠ frame i := by
  intro heq
  have hsame := h.tenancy.alone (i := (j, none)) (j := (i, none)) hne heq
  exact hij (Prod.mk.inj hsame).1

theorem frame_ne_page (h : Estate all s frame f) (hne : f j o ≠ 0) : f j o ≠ frame i := by
  intro heq
  have hsame := h.tenancy.alone (i := (j, some o)) (j := (i, none)) hne heq
  cases (Prod.mk.inj hsame).2

theorem left_all (h : Estate all s frame f) (hx : Left (f i) s x) : all x := by
  rcases hx with hfree | ⟨hne, o, rfl⟩
  · exact h.free x hfree
  · exact (h.owned hne).1

/-- **The pages of one process change.** -/
theorem replace (h : Estate all s frame f) (hpages : Pages (Left (f i) s) f' t)
    (hkernel : t.kernelEnd = s.kernelEnd) : Estate all t frame (Function.update f i f') := by
  have hself : ∀ o, tenant frame (Function.update f i f') (i, some o) = f' o := by
    intro o
    change Function.update f i f' i o = f' o
    rw [Function.update_self]
  refine ⟨hpages.nodup, hpages.kernel, fun hx => ?_, fun x hx => h.left_all (hpages.free x hx), ?_⟩
  · have hpage := h.isPage hx
    exact ⟨hpage.aligned, hkernel ▸ hpage.start, hpage.stop⟩
  · refine h.tenancy.exchange (P := fun q => ∃ o, q = (i, some o)) (Left (f i) s)
      (fun {b} => ⟨fun hb => ⟨h.left_all hb, ?_⟩, ?_⟩) ?_ ?_ ?_ (fun {b} hb => ?_) ?_
    · rcases hb with hfree | ⟨-, o, rfl⟩
      · exact Or.inl (not_not_intro hfree)
      · exact Or.inr ⟨_, ⟨o, rfl⟩, rfl⟩
    · rintro ⟨hall, hfree | ⟨_, ⟨o, rfl⟩, rfl⟩⟩
      · exact Or.inl (not_not.mp hfree)
      · exact Or.inr ⟨h.tenancy.ne_zero hall, o, rfl⟩
    · rintro ⟨j, _ | o⟩ hq
      · rfl
      · have hji : j ≠ i := fun heq => hq ⟨o, by rw [heq]⟩
        change Function.update f i f' j o = f j o
        rw [Function.update_of_ne hji]
    · rintro _ _ ⟨o, rfl⟩ ⟨o', rfl⟩ hne heq
      rw [hself] at hne
      rw [hself, hself] at heq
      rw [hpages.tenancy.alone hne heq]
    · rintro _ ⟨o, rfl⟩ hne
      rw [hself] at hne ⊢
      exact hpages.tenancy.inRoom hne
    · rw [hpages.tenancy.taken_iff hb]
      constructor
      · rintro ⟨o, rfl⟩
        exact ⟨_, ⟨o, rfl⟩, hself o⟩
      · rintro ⟨_, ⟨o, rfl⟩, rfl⟩
        exact ⟨o, (hself o).symm⟩
    · exact fun hall hout hfree => hout (hpages.free _ hfree)

/-- The trapframes are other pages. -/
theorem tenant_update_frame {q : Slot × Option Owner} :
    tenant (Function.update frame i x) f q = Function.update (tenant frame f) (i, none) x q := by
  obtain ⟨j, _ | o⟩ := q
  · by_cases hj : j = i
    · subst hj
      rw [Function.update_self]
      exact Function.update_self j x frame
    · rw [Function.update_of_ne fun heq => hj (Prod.mk.inj heq).1]
      exact Function.update_of_ne hj x frame
  · rw [Function.update_of_ne fun heq => by cases (Prod.mk.inj heq).2]
    rfl

/-- **A page becomes a trapframe.** -/
theorem takeFrame (h : Estate all s frame f) (hzero : frame i = 0) (hk : Kalloced s x t) :
    Estate all t (Function.update frame i x) f := by
  have hin : x ∈ s.freelist := hk.freelist ▸ List.mem_cons_self
  have hnodup : (x :: t.freelist).Nodup := hk.freelist ▸ h.nodup
  have hmem : ∀ y, y ∈ s.freelist ↔ y = x ∨ y ∈ t.freelist := fun y => by
    rw [hk.freelist, List.mem_cons]
  refine ⟨(List.nodup_cons.mp hnodup).2, hk.kernelEnd ▸ h.kernel, fun hx => ?_,
    fun y hy => h.free y ((hmem y).mpr (Or.inr hy)), ?_⟩
  · have hpage := h.isPage hx
    exact ⟨hpage.aligned, hk.kernelEnd ▸ hpage.start, hpage.stop⟩
  · have htaken : ∀ c, all c → (c ∉ t.freelist ↔ c ∉ s.freelist ∨ c = x) := by
      intro c _
      rw [hmem, not_or]
      constructor
      · intro hc
        by_cases hcx : c = x
        · exact Or.inr hcx
        · exact Or.inl ⟨hcx, hc⟩
      · rintro (⟨-, hc⟩ | rfl)
        · exact hc
        · exact (List.nodup_cons.mp hnodup).1
    exact (h.tenancy.moveIn (i := (i, none)) (h.free x hin) (not_not_intro hin) hzero htaken).congr
      (fun q => tenant_update_frame) fun _ _ => Iff.rfl

/-- **A trapframe is freed.** -/
theorem giveFrame (h : Estate all s frame f) (hne : frame i ≠ 0) (hk : Kfreed s (frame i) t) :
    Estate all t (Function.update frame i 0) f := by
  obtain ⟨hall, hnot⟩ := h.frame_owned hne
  refine ⟨?_, hk.kernelEnd ▸ h.kernel, fun hx => ?_, fun y hy => ?_, ?_⟩
  · rw [hk.freelist]
    exact List.nodup_cons.mpr ⟨hnot, h.nodup⟩
  · have hpage := h.isPage hx
    exact ⟨hpage.aligned, hk.kernelEnd ▸ hpage.start, hpage.stop⟩
  · rw [hk.freelist] at hy
    rcases List.mem_cons.mp hy with rfl | hy
    · exact hall
    · exact h.free y hy
  · have htaken : ∀ c, all c → (c ∉ t.freelist ↔ c ∉ s.freelist ∧ c ≠ frame i) := by
      intro c _
      rw [hk.freelist, List.mem_cons, not_or]
      exact and_comm
    exact (h.tenancy.moveOut (i := (i, none)) hne htaken).congr
      (fun q => tenant_update_frame) fun _ _ => Iff.rfl

/-! ### What another process sees -/

/-- **A process goes on** while others take pages and give them back. -/
theorem onward (h : Estate all t frame f)
    (hview : UserView room root (f j) s m n trampoline trapframe mem)
    (hmem : ∀ b o, f j o ≠ 0 → f j o = PGROUNDDOWN b → t.mem b = s.mem b) :
    UserView (Left (f j) t) root (f j) t m n trampoline trapframe mem :=
  hview.moved (h.left j) hmem

end Estate

end Vm
