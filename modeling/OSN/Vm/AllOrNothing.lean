import OSN.Vm.ArgStack
import OSN.Vm.Rooms

/-!
# `exec` is all or nothing

Until it commits, `exec` has only taken free pages, and all of them belong to the new page
table: it gives them back and is done, or it lets go of the old page table instead.
-/

namespace Vm

open Xv6 (PGSIZE MAXVA)
open Fs (CStr)

attribute [local irreducible] freewalk uvmclear

variable {room : Nat → Prop} {trampoline : Nat} {file : Option (List UInt8)} {content : List UInt8}
  {path : CStr} {argv : List CStr} {p q : Task} {pagetable sz sp entry frame : Nat}
  {usable : Nat → Prop} {img : Nat → UInt8} {s t u : Ram}

/-- **A process** and its pages.  Its trapframe and the trampoline are none of them. -/
structure Task.Owns (p : Task) (room : Nat → Prop) (trampoline : Nat) : Prop where
  table : Tabled room p.pagetable trampoline p.trapframe p.sz p.ram
  aligned : PGSIZE ∣ p.trapframe
  apart : ¬ room p.trapframe
  frame_lt : p.trapframe < 2 ^ 64
  code_lt : trampoline < 2 ^ 64

/-- The process is what it was, but for free pages. -/
structure Task.Same (p q : Task) : Prop extends
    Confined (· ∈ p.ram.freelist) p.ram q.ram where
  pagetable : q.pagetable = p.pagetable
  sz : q.sz = p.sz
  trapframe : q.trapframe = p.trapframe
  name : q.name = p.name

/-- And no page has been taken or given back. -/
structure Task.Unchanged (p q : Task) : Prop extends Task.Same p q where
  pages : Pages (· ∈ p.ram.freelist) (fun _ => 0) q.ram

/-- Code for the memory. -/
theorem Ends.ram {α : Type} {x : RamM α} {Q : α → Ram → Prop}
    (h : Ends x q.ram Q fun _ _ => False) :
    Ends (TaskM.ram x) q (fun a u => ∃ t, u = { q with ram := t } ∧ Q a t) fun _ _ => False :=
  Ends.component_iff.mpr (h.post fun _ t ht => ⟨t, rfl, ht⟩)

/-- A call of the file system changes nothing else. -/
theorem Ends.call {c : FsCall} :
    Ends (Vm.call c) q (fun _ u => u = { q with calls := q.calls ++ [c] })
    fun _ _ => False := rfl

theorem Ends.store {a v : Nat} : Ends (TaskM.ram (Vm.store a v)) q
    (fun _ u => u = { q with ram := q.ram.store a v }) fun _ _ => False := rfl

theorem Task.Same.refl : p.Same p := ⟨.refl, rfl, rfl, rfl, rfl⟩

theorem Task.Same.calls (h : p.Same q) (calls : List FsCall) : p.Same { q with calls := calls } :=
  ⟨h.toConfined, h.pagetable, h.sz, h.trapframe, h.name⟩

/-- The memory changes, but only what was free. -/
theorem Task.Same.ram {t : Ram} (h : p.Same q) (ht : Confined (· ∈ p.ram.freelist) q.ram t) :
    p.Same { q with ram := t } :=
  ⟨h.toConfined.trans ht, h.pagetable, h.sz, h.trapframe, h.name⟩

/-- The file is let go of. -/
theorem Task.Same.close {x : TaskM Int} {Q : Int → Task → Prop} (h : p.Same q)
    (hx : ∀ u, p.Same u → u.ram = q.ram → u.calls = q.calls ++ [.iunlockput, .endOp] →
      Ends x u Q fun _ _ => False) :
    Ends (do Vm.call .iunlockput; Vm.call .endOp; x) q Q fun _ _ => False := by
  refine Ends.call.bind ?_
  rintro - _ rfl
  refine Ends.call.bind ?_
  rintro - _ rfl
  refine hx _ (h.calls _) rfl ?_
  exact List.append_assoc q.calls [_] [_]

/-! ### Giving up -/

/-- There is no new page table, or it is one of size `sz`. -/
def Spare (p : Task) (trampoline pagetable sz : Nat) (s : Ram) : Prop :=
  pagetable = 0 ∧ Pages (· ∈ p.ram.freelist) (fun _ => 0) s ∨
    pagetable ≠ 0 ∧ Tabled (· ∈ p.ram.freelist) pagetable trampoline p.trapframe sz s

/-- What `exec` has done when it gives up. -/
structure GivenUp (p : Task) (calls : List FsCall) (r : Int) (q : Task) : Prop extends
    Task.Unchanged p q where
  fails : r = -1
  calls_eq : q.calls = calls

/-- The new page table is given back, and all is free that was. -/
theorem Task.Same.giveBack {k : TaskM Int} {Q : Int → Task → Prop} (h : p.Same q)
    (hspare : Spare p trampoline pagetable sz q.ram)
    (hk : ∀ u, p.Unchanged u → u.calls = q.calls → Ends k u Q fun _ _ => False) :
    Ends (if pagetable ≠ 0 then do TaskM.ram (procFreepagetable pagetable sz); k else k) q Q
      fun _ _ => False := by
  rcases hspare with ⟨hzero, hpages⟩ | ⟨hne, hsz, f, m, htable⟩
  · rw [if_neg (not_not_intro hzero)]
    exact hk q ⟨h, hpages⟩ rfl
  · rw [if_pos hne]
    refine (Ends.ram (htable.procFreepagetable hsz)).bind ?_
    rintro - u ⟨t, rfl, hreturned⟩
    exact hk _ ⟨h.ram hreturned.toConfined, hreturned.pages⟩ rfl

/-- **`exec` gives up.** -/
theorem Task.Same.execBad (h : p.Same q) (hspare : Spare p trampoline pagetable sz q.ram)
    (ip : Bool) :
    Ends (Vm.execBad pagetable sz ip) q
      (GivenUp p (q.calls ++ if ip then [.iunlockput, .endOp] else [])) fun _ _ => False := by
  refine h.giveBack hspare fun u hu hcalls => ?_
  cases ip with
  | false =>
      refine ⟨hu, rfl, ?_⟩
      rw [hcalls]
      exact (List.append_nil _).symm
  | true =>
      refine hu.toSame.close fun v hv hram hend => ⟨⟨hv, hram ▸ hu.pages⟩, rfl, ?_⟩
      rw [hend, hcalls]
      rfl

/-! ### The commit -/

/-- Where the trapframe keeps `epc`, `sp` and `a1`. -/
def InWords (frame b : Nat) : Prop :=
  ∃ o ∈ [24, 48, 120], frame + o ≤ b ∧ b < frame + o + 8

/-- The trapframe starts the program. -/
structure Entered (frame entry sp : Nat) (s t : Ram) : Prop where
  freelist : t.freelist = s.freelist
  kernelEnd : t.kernelEnd = s.kernelEnd
  epc : t.load (frame + 24) = entry
  stack : t.load (frame + 48) = sp
  a1 : t.load (frame + 120) = sp
  mem : ∀ b, ¬ InWords frame b → t.mem b = s.mem b

theorem entered (hframe : PGSIZE ∣ frame) (hentry : entry < 2 ^ 64) (hsp : sp < 2 ^ 64) (s : Ram) :
    Entered frame entry sp s
      (((s.store (frame + 120) sp).store (frame + 24) entry).store (frame + 48) sp) := by
  have hdvd : ∀ o, 8 ∣ o → 8 ∣ frame + o := fun o ho =>
    Nat.dvd_add (Nat.dvd_trans (by decide) hframe) ho
  have h24 := hdvd 24 (by decide)
  have h48 := hdvd 48 (by decide)
  have h120 := hdvd 120 (by decide)
  refine ⟨rfl, rfl, ?_, Ram.load_store hsp, ?_, fun b hb => ?_⟩
  · rw [Ram.load_store_ne h48 h24 (by omega), Ram.load_store hentry]
  · rw [Ram.load_store_ne h48 h120 (by omega), Ram.load_store_ne h24 h120 (by omega),
      Ram.load_store hsp]
  · have hout : ∀ o ∈ [24, 48, 120], b < frame + o ∨ frame + o + 8 ≤ b := by
      intro o ho
      by_contra hin
      exact hb ⟨o, ho, by omega⟩
    rw [Ram.store_outside (hout 48 (by decide)), Ram.store_outside (hout 24 (by decide)),
      Ram.store_outside (hout 120 (by decide))]

/-- The words are on the page of the trapframe. -/
theorem InWords.page {b : Nat} (hframe : PGSIZE ∣ frame) (h : InWords frame b) :
    PGROUNDDOWN b = frame := by
  obtain ⟨o, ho, hin⟩ := h
  have hle : ∀ o ∈ [24, 48, 120], o ≤ 120 := by decide
  have hoff := hle o ho
  rw [PGROUNDDOWN_eq hframe]
  unfold PGSIZE
  omega

/-- And they stay when other pages change. -/
theorem Entered.confined (h : Entered frame entry sp s t) (hframe : PGSIZE ∣ frame)
    (hmem : ∀ b, PGROUNDDOWN b = frame → u.mem b = t.mem b) :
    u.load (frame + 24) = entry ∧ u.load (frame + 48) = sp ∧ u.load (frame + 120) = sp := by
  have hload : ∀ o ∈ [24, 48, 120], u.load (frame + o) = t.load (frame + o) := by
    intro o ho
    exact Ram.load_congr fun i hi => hmem _ (InWords.page hframe ⟨o, ho, by omega⟩)
  rw [hload 24 (by decide), hload 48 (by decide), hload 120 (by decide)]
  exact ⟨h.epc, h.stack, h.a1⟩

/-- What `exec` has done when it has committed to a page table. -/
structure Committed (room : Nat → Prop) (trampoline : Nat) (path : CStr)
    (entry pagetable sz sp : Nat) (usable : Nat → Prop) (img : Nat → UInt8) (p : Task)
    (calls : List FsCall) (q : Task) : Prop where
  pagetable_eq : q.pagetable = pagetable
  sz_eq : q.sz = sz
  trapframe : q.trapframe = p.trapframe
  name : q.name = safestrcpy p.name (lastElement path) 16
  calls_eq : q.calls = calls
  epc : q.ram.load (p.trapframe + 24) = entry
  stack : q.ram.load (p.trapframe + 48) = sp
  a1 : q.ram.load (p.trapframe + 120) = sp
  mem : ∀ b, ¬ room (PGROUNDDOWN b) → ¬ InWords p.trapframe b → q.ram.mem b = p.ram.mem b
  image : Imaged room pagetable trampoline p.trapframe sz usable img q.ram

/-- **`exec` commits.** -/
theorem Task.Same.execCommit (h : p.Same q) (howns : p.Owns room trampoline)
    (himage : Imaged (· ∈ p.ram.freelist) pagetable trampoline p.trapframe sz usable img q.ram)
    (hentry : entry < 2 ^ 64) (hsp : sp < 2 ^ 64) (argc : Nat) :
    Ends (Vm.execCommit path entry pagetable sz sp argc) q
      (fun r u => r = argc ∧
        Committed room trampoline path entry pagetable sz sp usable img p q.calls u)
      fun _ _ => False := by
  obtain ⟨hpsz, f, m, hold⟩ := howns.table
  obtain ⟨hsz, f₁, m₁, hnew⟩ := himage
  have hentered := entered howns.aligned hentry hsp q.ram
  unfold Vm.execCommit
  rw [Ends.get_bind_iff, h.trapframe, h.pagetable, h.sz]
  refine Ends.store.bind ?_
  rintro - _ rfl
  rw [Ends.modify_bind_iff]
  refine Ends.store.bind ?_
  rintro - _ rfl
  refine Ends.store.bind ?_
  rintro - _ rfl
  dsimp only
  generalize ((q.ram.store (p.trapframe + 120) sp).store (p.trapframe + 24) entry).store
    (p.trapframe + 48) sp = t at hentered ⊢
  have hpages := hold.toPages
  have hnewPages := hnew.toPages.congr hentered.freelist hentered.kernelEnd
  have hkernel := hentered.kernelEnd.trans h.kernelEnd
  have hwords : ∀ b, room (PGROUNDDOWN b) → ¬ InWords p.trapframe b := fun b hb hin =>
    howns.apart (hin.page howns.aligned ▸ hb)
  have hleft : ∀ x, Left f t x → room x := by
    rintro x (hfree | ⟨hne, i, rfl⟩)
    · exact hpages.free x (hnewPages.free x hfree)
    · exact hpages.tenancy.inRoom hne
  -- the old page table is what it was, so it can be given back
  have holdTable := hold.moved (hpages.left hnewPages hkernel) fun b i hi hb => by
    rw [hentered.mem b (hwords b (hb ▸ hpages.tenancy.inRoom hi))]
    exact h.mem b (hb ▸ hpages.tenancy.lives hi)
  refine (Ends.ram (holdTable.procFreepagetable hpsz)).bind ?_
  rintro - _ ⟨v, rfl, hreturned⟩
  have hv : ∀ b, ¬ room (PGROUNDDOWN b) → v.mem b = t.mem b := fun b hb =>
    hreturned.mem b fun hin => hb (hleft _ hin)
  have halone : Pages room f₁ v :=
    hpages.replaced hnewPages hreturned.pages (hreturned.kernelEnd.trans hkernel)
  have hnewImage := hnew.moved halone fun b i hi hb => by
    rw [hreturned.mem b, hentered.mem b (hwords b ?_)]
    · rw [← hb]
      exact hpages.free _ (hnewPages.tenancy.inRoom hi)
    · rw [← hb]
      rintro (hfree | ⟨-, j, hj⟩)
      · exact hnewPages.tenancy.lives hi hfree
      · exact (hpages.not_free hnewPages (hj ▸ hi)).2 i hj.symm
  obtain ⟨hepc, hstack, ha1⟩ := hentered.confined howns.aligned fun b hb =>
    hv b (hb ▸ howns.apart)
  refine ⟨rfl, rfl, rfl, h.trapframe, ?_, rfl, hepc, hstack, ha1, fun b hb hin => ?_, hsz, f₁, m₁,
    hnewImage⟩
  · exact congrArg (safestrcpy · _ _) h.name
  · rw [hv b hb, hentered.mem b hin]
    exact h.mem b fun hfree => hb (hpages.free _ hfree)

/-! ### The stack -/

/-- A size that is rounded up has the same pages. -/
theorem Loaded.round (h : Loaded room pagetable trampoline frame sz img s) :
    Loaded room pagetable trampoline frame (PGROUNDUP sz) img s := by
  obtain ⟨hsz, f, m, himage⟩ := h
  obtain ⟨-, hmax, -⟩ := PGROUNDUP_mono (Nat.le_refl sz) hsz
  have hround := PGROUNDUP_of_dvd (PGSIZE_dvd_PGROUNDUP sz) hmax
  refine ⟨hmax, f, m, ?_⟩
  rwa [hround]

/-- Behind its pages there is nothing. -/
theorem Loaded.img_zero (h : Loaded room pagetable trampoline frame sz img s) {a : Nat}
    (ha : PGROUNDUP sz ≤ a) : img a = 0 := by
  obtain ⟨-, f, m, himage⟩ := h
  exact himage.img_zero (Nat.not_lt.mpr (Nat.div_le_div_right ha))

/-- The size of a program of size `sz` with its stack. -/
def withStack (sz : Nat) : Nat := PGROUNDUP sz + 2 * PGSIZE

/-- What `exec` has done in the end. -/
def Ended (room : Nat → Prop) (trampoline : Nat) (path : CStr) (argv : List CStr)
    (entry pagetable sz : Nat) (img : Nat → UInt8) (p : Task) (calls : List FsCall) (r : Int)
    (q : Task) : Prop :=
  GivenUp p calls r q ∨ r = argv.length ∧
    withStack sz - PGSIZE ≤ newSp (withStack sz) argv ∧
    Committed room trampoline path entry pagetable (withStack sz) (newSp (withStack sz) argv)
      (notGuard (withStack sz)) (Bytes.splices img (stackRuns (withStack sz) argv)) p calls q

/-- **`exec` of a program that is loaded.** -/
theorem Task.Same.execStack (h : p.Same q) (howns : p.Owns room trampoline)
    (hloaded : Loaded (· ∈ p.ram.freelist) pagetable trampoline p.trapframe sz img q.ram)
    (hne : pagetable ≠ 0) (hentry : entry < 2 ^ 64) (hargs : argv.length < MAXARG)
    (hlen : ∀ arg ∈ argv, arg.length < PGSIZE) :
    Ends (Vm.execStack path argv entry pagetable sz) q
      (Ended room trampoline path argv entry pagetable sz img p
        (q.calls ++ [.iunlockput, .endOp])) fun _ _ => False := by
  have hround := hloaded.round
  have haligned : PGSIZE ∣ withStack sz :=
    Nat.dvd_add (PGSIZE_dvd_PGROUNDUP sz) (Nat.dvd_mul_left _ _)
  have hlt : withStack sz < 2 ^ 64 :=
    Nat.lt_of_le_of_lt (Nat.add_le_add_right hround.1 _) (by decide)
  have hsum : max (PGROUNDUP sz) ((PGROUNDUP sz + 2 * PGSIZE) % 2 ^ 64) = withStack sz := by
    change max _ (withStack sz % 2 ^ 64) = _
    rw [Nat.mod_eq_of_lt hlt]
    exact Nat.max_eq_right (Nat.le_add_right _ _)
  have halloc := hround.uvmalloc ((PGROUNDUP sz + 2 * PGSIZE) % 2 ^ 64)
  rw [hsum] at halloc
  unfold Vm.execStack
  refine h.close fun u hu hram hcalls => ?_
  rw [← hcalls]
  rw [← hram] at halloc
  refine (Ends.ram halloc).bind ?_
  rintro sz1 _ ⟨t, rfl, hconfined, hr⟩
  have ht := hu.ram hconfined
  rcases hr with ⟨rfl, hloaded'⟩ | ⟨rfl, htabled⟩
  · have hpositive : withStack sz ≠ 0 := Nat.ne_of_gt (Nat.add_pos_right _ (by decide))
    rw [if_neg hpositive]
    have hzero : ∀ a, withStack sz - 2 * PGSIZE ≤ a → img a = 0 := fun a ha =>
      hloaded.img_zero (by rwa [withStack, Nat.add_sub_cancel] at ha)
    have hpush := hloaded'.pushStack haligned (Nat.le_add_left _ _) hzero hargs hlen
    refine (Ends.ram hpush).bind ?_
    rintro r _ ⟨v, rfl, hconfined', hr⟩
    have hv := ht.ram hconfined'
    rcases hr with ⟨rfl, htabled⟩ | ⟨rfl, hroom, himage⟩
    · refine (hv.execBad (Or.inr ⟨hne, htabled⟩) false).post fun r v hv => Or.inl ?_
      rwa [if_neg Bool.false_ne_true, List.append_nil] at hv
    · have hsp : newSp (withStack sz) argv < 2 ^ 64 := Nat.lt_of_le_of_lt newSp_le hlt
      exact (hv.execCommit howns himage hentry hsp argv.length).post fun r w hw =>
        Or.inr ⟨hw.1, hroom, hw.2⟩
  · rw [if_pos rfl]
    refine (ht.execBad (Or.inr ⟨hne, htabled⟩) false).post fun r v hv => Or.inl ?_
    rwa [if_neg Bool.false_ne_true, List.append_nil] at hv

/-! ### The file -/

/-- A page table that nothing has been added to. -/
theorem UserTable.loaded {f : Owner → Nat} {m : PageMap}
    (h : UserTable room pagetable f s m 0 trampoline frame) :
    Loaded room pagetable trampoline frame 0 (fun _ => 0) s := by
  have hnone : ∀ a, ¬ Access m a := fun a hacc => Nat.not_lt_zero _ (h.access_lt hacc)
  refine ⟨Nat.zero_le _, f, m, h, fun a => iff_of_false (hnone a) (Nat.not_lt_zero _), ?_, ?_⟩
  · exact fun p hp => absurd hp (Nat.not_lt_zero p)
  · funext a
    exact if_neg (hnone a)

/-- The header of a file. -/
def header (content : List UInt8) : Elfhdr := .ofBytes (content.take ELFHDRSIZE)

/-- What `exec` has done when it has run a program. -/
structure Started (room : Nat → Prop) (trampoline : Nat) (content : List UInt8) (path : CStr)
    (argv : List CStr) (pagetable sz : Nat) (img : Nat → UInt8) (p : Task) (calls : List FsCall)
    (q : Task) : Prop where
  whole : ELFHDRSIZE ≤ content.length
  magic : (header content).magic = ELF_MAGIC
  executed : Executed content (header content).phnum ((header content).phoff % 2 ^ 32) 0 sz
    (fun _ => 0) img
  roomy : withStack sz - PGSIZE ≤ newSp (withStack sz) argv
  committed : Committed room trampoline path (header content).entry pagetable (withStack sz)
    (newSp (withStack sz) argv) (notGuard (withStack sz))
    (Bytes.splices img (stackRuns (withStack sz) argv)) p calls q

/-- What `exec` of a file has done. -/
def ExecutedFile (room : Nat → Prop) (trampoline : Nat) (content : List UInt8) (path : CStr)
    (argv : List CStr) (p : Task) (calls : List FsCall) (r : Int) (q : Task) : Prop :=
  GivenUp p calls r q ∨ r = argv.length ∧
    ∃ pagetable sz img, Started room trampoline content path argv pagetable sz img p calls q

/-- **`exec` of a file.** -/
theorem Task.Same.execFile (h : p.Same q) (howns : p.Owns room trampoline)
    (hfree : Pages (· ∈ p.ram.freelist) (fun _ => 0) q.ram) (hcontent : content.length < 2 ^ 32)
    (hargs : argv.length < MAXARG) (hlen : ∀ arg ∈ argv, arg.length < PGSIZE) :
    Ends (Vm.execFile trampoline content path argv) q
      (ExecutedFile room trampoline content path argv p
        (q.calls ++ [.ilock, .iunlockput, .endOp])) fun _ _ => False := by
  unfold Vm.execFile
  refine Ends.call.bind ?_
  rintro - u hq
  have hu : p.Same u := hq ▸ h.calls _
  have hcalls : u.calls = q.calls ++ [.ilock] := hq ▸ rfl
  replace hfree : Pages (· ∈ p.ram.freelist) (fun _ => 0) u.ram := hq ▸ hfree
  have hbad : q.calls ++ [.ilock] ++ [.iunlockput, .endOp] =
      q.calls ++ [.ilock, .iunlockput, .endOp] := List.append_assoc _ [_] _
  have hgiveUp : ∀ {u : Task} {pagetable sz}, p.Same u → u.calls = q.calls ++ [.ilock] →
      Spare p trampoline pagetable sz u.ram → Ends (Vm.execBad pagetable sz true) u
        (ExecutedFile room trampoline content path argv p
          (q.calls ++ [.ilock, .iunlockput, .endOp])) fun _ _ => False := by
    intro u pagetable sz hu hcalls hspare
    refine (hu.execBad hspare true).post fun r v hv => Or.inl ?_
    rwa [if_pos rfl, hcalls, hbad] at hv
  dsimp only
  by_cases hlength : (readi content 0 ELFHDRSIZE).length = ELFHDRSIZE
  · rw [if_neg (not_not_intro hlength)]
    obtain ⟨hwhole, hbytes⟩ := readi_whole (by decide) hlength
    rw [hbytes, List.drop_zero, ← header]
    by_cases hmagic : (header content).magic = ELF_MAGIC
    · rw [if_neg (not_not_intro hmagic), Ends.get_bind_iff]
      rw [hu.trapframe]
      refine (Ends.ram (hfree.procPagetable howns.code_lt howns.frame_lt)).bind ?_
      rintro pagetable _ ⟨t, rfl, ⟨rfl, hreturned⟩ | ⟨hne, hconfined, f, m, htable⟩⟩
      · rw [if_pos rfl]
        exact hgiveUp (hu.ram hreturned.toConfined) hcalls (Or.inl ⟨rfl, hreturned.pages⟩)
      · rw [if_neg hne]
        have ht := hu.ram hconfined
        have hload := htable.loaded.loadLoop (k := (header content).phnum) hcontent
          (Nat.mod_lt (header content).phoff (by decide))
        refine (Ends.ram hload).bind ?_
        rintro ⟨loaded, sz⟩ _ ⟨v, rfl, hconfined', htabled, hdone⟩
        have hv := ht.ram hconfined'
        cases loaded with
        | false => exact hgiveUp hv hcalls (Or.inr ⟨hne, htabled⟩)
        | true =>
            obtain ⟨img, hexecuted, hloaded⟩ := hdone rfl
            have hentry : (header content).entry < 2 ^ 64 := field_lt (Nat.le_refl 8)
            refine (hv.execStack howns hloaded hne hentry hargs hlen).post fun r w hw => ?_
            rw [hcalls, hbad] at hw
            refine hw.imp_right fun ⟨hr, hroomy, hcommitted⟩ => ⟨hr, pagetable, sz, img, ?_⟩
            exact ⟨by omega, hmagic, hexecuted, hroomy, hcommitted⟩
    · rw [if_pos hmagic]
      exact hgiveUp hu hcalls (Or.inl ⟨rfl, hfree⟩)
  · rw [if_pos hlength]
    exact hgiveUp hu hcalls (Or.inl ⟨rfl, hfree⟩)

/-! ### The whole -/

/-- One operation of the log, from its begin to its end. -/
def OneOp (before after : List FsCall) : Prop :=
  ∃ calls, after = before ++ .beginOp :: (calls ++ [.endOp]) ∧ .beginOp ∉ calls ∧ .endOp ∉ calls

/-- **`exec`** gives up, or has run the program of a file. -/
theorem Task.Owns.exec (howns : p.Owns room trampoline)
    (hfile : ∀ content, file = some content → content.length < 2 ^ 32)
    (hargs : argv.length < MAXARG) (hlen : ∀ arg ∈ argv, arg.length < PGSIZE) :
    Ends (Vm.exec trampoline file path argv) p
      (fun r q => OneOp p.calls q.calls ∧ (r = -1 ∧ p.Unchanged q ∨ r = argv.length ∧
        ∃ content pagetable sz img, file = some content ∧
          Started room trampoline content path argv pagetable sz img p q.calls q))
      fun _ _ => False := by
  obtain ⟨-, f, m, htable⟩ := howns.table
  have hfree := htable.toPages.unused
  unfold Vm.exec
  refine Ends.call.bind ?_
  rintro - _ rfl
  refine Ends.call.bind ?_
  rintro - _ rfl
  cases file with
  | none =>
      refine Ends.call.bind ?_
      rintro - _ rfl
      refine ⟨⟨[.namei], ?_, by decide, by decide⟩, Or.inl ⟨rfl, Task.Same.refl.calls _, hfree⟩⟩
      rw [List.append_assoc, List.append_assoc]
      rfl
  | some content =>
      have hsame : p.Same { p with calls := p.calls ++ [.beginOp] ++ [.namei] } :=
        Task.Same.refl.calls _
      refine (hsame.execFile howns hfree (hfile content rfl) hargs hlen).post fun r q hq => ?_
      have hop : OneOp p.calls (p.calls ++ [.beginOp] ++ [.namei] ++
          [.ilock, .iunlockput, .endOp]) := by
        refine ⟨[.namei, .ilock, .iunlockput], ?_, by decide, by decide⟩
        rw [List.append_assoc, List.append_assoc]
        rfl
      rcases hq with hgiven | ⟨hr, pagetable, sz, img, hstarted⟩
      · exact ⟨hgiven.calls_eq ▸ hop, Or.inl ⟨hgiven.fails, hgiven.toUnchanged⟩⟩
      · have hcalls := hstarted.committed.calls_eq
        refine ⟨hcalls ▸ hop, Or.inr ⟨hr, content, pagetable, sz, img, rfl, ?_⟩⟩
        rw [hcalls]
        exact hstarted

end Vm
