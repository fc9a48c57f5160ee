import OSN.Vm.UserImage

/-!
# Loading a program

`loadseg` copies a part of the file to pages that the user has already.  The loop of `exec`
over the program headers makes room for each segment and loads it, so that the image is what
the segments write one after the other.
-/

namespace Vm

open Xv6 (PGSIZE MAXVA)

attribute [local irreducible] freewalk

variable {room : Nat → Prop} {root : Nat} {f : Owner → Nat} {s t : Ram} {m : PageMap}
  {n k i off offset sz newsz va trampoline trapframe : Nat} {usable : Nat → Prop}
  {img : Nat → UInt8} {content : List UInt8} {ph : Proghdr}

/-! ### Reading -/

theorem readi_length_le : (readi content off n).length ≤ n := by
  unfold readi
  split
  · exact Nat.zero_le n
  · exact List.length_take_le _ _

/-- A read of all that is asked for. -/
theorem readi_whole (hn : 0 < n) (h : (readi content off n).length = n) :
    off + n ≤ content.length ∧ readi content off n = (content.drop off).take n := by
  unfold readi at h ⊢
  split at h
  · exact absurd h (Nat.ne_of_lt hn)
  next hguard =>
    rw [List.length_take, List.length_drop] at h
    exact ⟨by omega, if_neg hguard⟩

/-! ### `loadseg` -/

/-- What is left of a segment from byte `i` on. -/
def restFrom (content : List UInt8) (offset sz i : Nat) : List UInt8 :=
  (content.drop (offset + i)).take (sz - i)

theorem restFrom_done (h : sz ≤ i) : restFrom content offset sz i = [] := by
  unfold restFrom
  rw [Nat.sub_eq_zero_of_le h, List.take_zero]

/-- One page, and what is left then. -/
theorem restFrom_step (hi : i < sz) (hn : n = if sz - i < PGSIZE then sz - i else PGSIZE)
    (hin : offset + i + n ≤ content.length) (img : Nat → UInt8) (va : Nat) :
    Bytes.splice (Bytes.splice img (va + i) ((content.drop (offset + i)).take n))
      (va + (i + PGSIZE))
        (restFrom content offset sz (i + PGSIZE)) =
      Bytes.splice img (va + i) (restFrom content offset sz i) := by
  by_cases hlast : sz - i < PGSIZE
  · rw [if_pos hlast] at hn
    rw [restFrom_done (by omega), Bytes.splice_nil, hn]
    rfl
  · rw [if_neg hlast] at hn
    have hparts : restFrom content offset sz i = (content.drop (offset + i)).take PGSIZE ++
        restFrom content offset sz (i + PGSIZE) := by
      unfold restFrom
      rw [show sz - i = PGSIZE + (sz - (i + PGSIZE)) by omega, List.take_add, List.drop_drop,
        Nat.add_assoc]
    have hlength : ((content.drop (offset + i)).take PGSIZE).length = PGSIZE := by
      rw [List.length_take, List.length_drop]
      omega
    rw [hparts, Bytes.splice_append, hlength, hn, Nat.add_assoc]

/-- **The loop of `loadseg`.** -/
theorem UserImage.loadsegLoop (h : UserImage room root f s m n trampoline trapframe usable img)
    (fuel : Nat) (hva : PGSIZE ∣ va) (hi : PGSIZE ∣ i)
    (husable : ∀ j < sz, usable ((va + j) / PGSIZE))
    (hsz : sz + PGSIZE < 2 ^ 32) (hcontent : content.length < 2 ^ 32)
    (hoffset : i < sz → offset + i < 2 ^ 32) (hfuel : sz ≤ i + fuel * PGSIZE) :
    Ends (Vm.loadsegLoop root va content offset sz (fuel + 1) i) s
      (fun r t => Confined room s t ∧
        (r = 0 ∧ (i < sz → offset + sz ≤ content.length) ∧ UserImage room root f t m n trampoline
            trapframe usable (Bytes.splice img (va + i) (restFrom content offset sz i)) ∨
          r = -1 ∧ UserTable room root f t m n trampoline trapframe))
      fun _ _ => False := by
  induction fuel generalizing i s img with
  | zero =>
      unfold Vm.loadsegLoop
      rw [if_neg (by omega)]
      refine ⟨.refl, Or.inl ⟨rfl, fun hlt => by omega, ?_⟩⟩
      rwa [restFrom_done (by omega), Bytes.splice_nil]
  | succ fuel ih =>
      unfold Vm.loadsegLoop
      by_cases hmore : i < sz
      · rw [if_pos hmore]
        have hpage : PGSIZE ∣ va + i := Nat.dvd_add hva hi
        have hacc : Access m (va + i) := (h.access _).mpr (husable i hmore)
        have hmod : (va + i) % 2 ^ 64 = va + i := Nat.mod_eq_of_lt (Nat.lt_trans hacc.1 (by decide))
        have hwalk := h.toUserTable.userSpace.walkaddr_page (a := va + i)
        rw [PGROUNDDOWN_of_dvd hpage, if_pos hacc] at hwalk
        have hphys : phys m (va + i) = m.addr (va + i) := by
          rw [phys, Nat.mod_eq_zero_of_dvd hpage, Nat.add_zero]
        rw [hmod]
        refine (Ends.of_ok hwalk (Q := fun pa t => t = s ∧ pa = m.addr (va + i)) ⟨rfl, rfl⟩).bind ?_
        rintro pa s ⟨rfl, rfl⟩
        rw [if_neg hacc.2, Ends.modify_bind_iff, ← hphys, Nat.mod_eq_of_lt (hoffset hmore)]
        generalize hn : (if sz - i < PGSIZE then sz - i else PGSIZE) = piece
        have hpiece : 0 < piece ∧ piece ≤ PGSIZE := by
          rw [← hn]
          unfold PGSIZE at *
          split <;> omega
        obtain ⟨h', hconfined⟩ := h.memmove (husable i hmore)
          (l := readi content (offset + i) piece) (by
            have hle : (readi content (offset + i) piece).length ≤ piece := readi_length_le
            have hround := Nat.mod_eq_zero_of_dvd hpage
            omega)
        by_cases hlength : (readi content (offset + i) piece).length = piece
        · rw [if_neg (not_not_intro hlength)]
          obtain ⟨hin, hbytes⟩ := readi_whole hpiece.1 hlength
          rw [Nat.mod_eq_of_lt (show i + PGSIZE < 2 ^ 32 by omega)]
          refine (ih h' (Nat.dvd_add hi (Nat.dvd_refl _)) (fun hlt => ?_) ?_).post ?_
          · rw [if_neg (by omega)] at hn
            omega
          · rw [Nat.succ_mul] at hfuel
            omega
          · rintro r t ⟨hconfined', hr⟩
            refine ⟨hconfined.trans hconfined', hr.imp_left ?_⟩
            rintro ⟨hr, hall, himage⟩
            rw [hbytes, restFrom_step hmore hn.symm hin] at himage
            refine ⟨hr, fun _ => ?_, himage⟩
            by_cases hnext : i + PGSIZE < sz
            · exact hall hnext
            · have hwhole : piece = sz - i := by
                rw [← hn]
                split <;> omega
              omega
        · rw [if_pos hlength]
          exact ⟨hconfined, Or.inr ⟨rfl, h'.toUserTable⟩⟩
      · rw [if_neg hmore]
        refine ⟨.refl, Or.inl ⟨rfl, fun hlt => absurd hlt hmore, ?_⟩⟩
        rwa [restFrom_done (Nat.not_lt.mp hmore), Bytes.splice_nil]

/-- **`loadseg`.** -/
theorem UserImage.loadseg (h : UserImage room root f s m n trampoline trapframe usable img)
    (hva : PGSIZE ∣ va) (husable : ∀ j < sz, usable ((va + j) / PGSIZE))
    (hsz : sz + PGSIZE < 2 ^ 32) (hcontent : content.length < 2 ^ 32) (hoffset : offset < 2 ^ 32) :
    Ends (Vm.loadseg root va content offset sz) s
      (fun r t => Confined room s t ∧
        (r = 0 ∧ (0 < sz → offset + sz ≤ content.length) ∧ UserImage room root f t m n trampoline
            trapframe usable (Bytes.splice img va ((content.drop offset).take sz)) ∨
          r = -1 ∧ UserTable room root f t m n trampoline trapframe))
      fun _ _ => False :=
  h.loadsegLoop (sz / PGSIZE + 1) (i := 0) hva (Nat.dvd_zero _) husable hsz hcontent
    (fun _ => hoffset) (by unfold PGSIZE; omega)

/-! ### A process of some size -/

/-- The page table of a process of size `sz`. -/
def Tabled (room : Nat → Prop) (root trampoline trapframe sz : Nat) (s : Ram) : Prop :=
  sz ≤ TRAPFRAME ∧ ∃ f m, UserTable room root f s m (PGROUNDUP sz / PGSIZE) trampoline trapframe

/-- And what the user sees. -/
def Imaged (room : Nat → Prop) (root trampoline trapframe sz : Nat) (usable : Nat → Prop)
    (img : Nat → UInt8) (s : Ram) : Prop :=
  sz ≤ TRAPFRAME ∧
    ∃ f m, UserImage room root f s m (PGROUNDUP sz / PGSIZE) trampoline trapframe usable img

theorem Imaged.tabled (h : Imaged room root trampoline trapframe sz usable img s) :
    Tabled room root trampoline trapframe sz s :=
  h.imp_right fun ⟨f, m, himage⟩ => ⟨f, m, himage.toUserTable⟩

/-- All pages of the process are the user's. -/
abbrev Loaded (room : Nat → Prop) (root trampoline trapframe sz : Nat) (img : Nat → UInt8)
    (s : Ram) : Prop :=
  Imaged room root trampoline trapframe sz (· < PGROUNDUP sz / PGSIZE) img s

/-- A process is not larger than the memory. -/
theorem Tabled.size_le (h : Tabled room root trampoline trapframe sz s) : sz ≤ PHYSTOP := by
  obtain ⟨hsz, f, m, htable⟩ := h
  have hpages := htable.le_pages (Nat.dvd_zero _) (Nat.zero_le _)
  unfold PGROUNDUP TRAPFRAME TRAMPOLINE MAXVA PHYSTOP PGSIZE at *
  omega

/-- **`uvmalloc`** for a process. -/
theorem Loaded.uvmalloc (h : Loaded room root trampoline trapframe sz img s) (newsz : Nat) :
    Ends (Vm.uvmalloc root sz newsz) s
      (fun r t => Confined room s t ∧ (r = max sz newsz ∧
          Loaded room root trampoline trapframe (max sz newsz) img t ∨
        r = 0 ∧ Tabled room root trampoline trapframe sz t))
      fun _ _ => False := by
  obtain ⟨hsz, f, m, himage⟩ := id h
  by_cases hless : newsz < sz
  · refine Ends.of_ok (uvmalloc_lt hless) ⟨.refl, Or.inl ?_⟩
    rw [Nat.max_eq_left (Nat.le_of_lt hless)]
    exact ⟨rfl, h⟩
  · have hle := Nat.le_of_not_lt hless
    rw [Nat.max_eq_right hle]
    refine (himage.toProcMem.uvmalloc hle).post ?_
    rintro r t (⟨htop, hr, hgrown⟩ | ⟨hr, f', m', hproc, hkept⟩)
    · obtain ⟨hround, -, -⟩ := PGROUNDUP_mono hle htop
      have hpages : PGROUNDUP sz / PGSIZE ≤ PGROUNDUP newsz / PGSIZE := Nat.div_le_div_right hround
      obtain ⟨f', m', himage', hconfined⟩ := himage.grown hgrown
      have husable : (fun p => p < PGROUNDUP sz / PGSIZE ∨
          PGROUNDUP sz / PGSIZE ≤ p ∧ p < PGROUNDUP newsz / PGSIZE) =
            (· < PGROUNDUP newsz / PGSIZE) := by
        funext p
        exact propext ⟨fun hp => by omega, fun hp => by omega⟩
      rw [husable] at himage'
      exact ⟨hconfined, Or.inl ⟨hr, htop, f', m', himage'⟩⟩
    · exact ⟨hkept.confined, Or.inr ⟨hr, hsz, f', m', himage.toUserTable.of_kept hproc hkept⟩⟩

/-! ### The program -/

/-- The program headers from an offset on. -/
def programHeaders (content : List UInt8) : Nat → Nat → List Proghdr
  | 0, _ => []
  | k + 1, off => .ofBytes ((content.drop off).take PROGHDRSIZE) ::
      programHeaders content k (off + PROGHDRSIZE)

/-- Those that are for loading. -/
def segments (content : List UInt8) (k off : Nat) : List Proghdr :=
  (programHeaders content k off).filter (·.type = ELF_PROG_LOAD)

/-- What a segment writes to the image. -/
def Proghdr.run (content : List UInt8) (ph : Proghdr) : Nat × List UInt8 :=
  (ph.vaddr, (content.drop ph.off).take ph.filesz)

/-- The offset as a `uint`. -/
def Proghdr.narrow (ph : Proghdr) : Proghdr := { ph with off := ph.off % 2 ^ 32 }

/-- A segment starts on a page, has room for its bytes, and the file has them. -/
structure Proghdr.Sound (content : List UInt8) (ph : Proghdr) : Prop where
  aligned : PGSIZE ∣ ph.vaddr
  room : ph.filesz ≤ ph.memsz
  inFile : 0 < ph.filesz → ph.off + ph.filesz ≤ content.length

/-- The end of the last segment. -/
def imageEnd (sz : Nat) (phs : List Proghdr) : Nat :=
  phs.foldl (fun sz ph => max sz (ph.vaddr + ph.memsz)) sz

/-- **A segment is loaded**, if there is room for it. -/
theorem Loaded.segment (h : Loaded room root trampoline trapframe sz img s)
    (hend : ph.vaddr + ph.memsz ≤ sz) (hfilesz : ph.filesz ≤ ph.memsz) (hva : PGSIZE ∣ ph.vaddr)
    (hcontent : content.length < 2 ^ 32) :
    Ends (Vm.loadseg root ph.vaddr content (ph.off % 2 ^ 32) (ph.filesz % 2 ^ 32)) s
      (fun r t => Confined room s t ∧ (r = 0 ∧ ph.narrow.Sound content ∧
          Loaded room root trampoline trapframe sz
            (Bytes.splice img (ph.narrow.run content).1 (ph.narrow.run content).2) t ∨
        r = -1 ∧ Tabled room root trampoline trapframe sz t))
      fun _ _ => False := by
  have hle := h.tabled.size_le
  unfold PHYSTOP at hle
  obtain ⟨hsz, f, m, himage⟩ := h
  rw [Nat.mod_eq_of_lt (show ph.filesz < 2 ^ 32 by omega)]
  have husable : ∀ j < ph.filesz, (ph.vaddr + j) / PGSIZE < PGROUNDUP sz / PGSIZE := by
    intro j hj
    unfold PGROUNDUP
    unfold TRAPFRAME TRAMPOLINE MAXVA PGSIZE at *
    omega
  refine (himage.loadseg hva husable (by unfold PGSIZE; omega) hcontent
    (Nat.mod_lt _ (by decide))).post ?_
  rintro r t ⟨hconfined, hr⟩
  refine ⟨hconfined, hr.imp ?_ ?_⟩
  · rintro ⟨hr, hin, himage'⟩
    exact ⟨hr, ⟨hva, hfilesz, hin⟩, hsz, f, m, himage'⟩
  · rintro ⟨hr, htable⟩
    exact ⟨hr, hsz, f, m, htable⟩

/-- What the loop of `exec` over `k` headers has done, if it comes to its end. -/
structure Executed (content : List UInt8) (k off sz sz' : Nat) (img img' : Nat → UInt8) :
    Prop where
  inFile : 0 < k → off + PROGHDRSIZE * k ≤ content.length
  sound : ∀ ph ∈ segments content k off, ph.narrow.Sound content
  size : sz' = imageEnd sz (segments content k off)
  image : img' = Bytes.splices img ((segments content k off).map (·.narrow.run content))

/-- What it has done in any case. -/
def Loads (room : Nat → Prop) (root trampoline trapframe : Nat) (content : List UInt8)
    (k off sz : Nat) (img : Nat → UInt8) (s : Ram) (r : Bool × Nat) (t : Ram) : Prop :=
  Confined room s t ∧ Tabled room root trampoline trapframe r.2 t ∧
    (r.1 = true → ∃ img', Executed content k off sz r.2 img img' ∧
      Loaded room root trampoline trapframe r.2 img' t)

theorem Loads.stop (hconfined : Confined room s t)
    (h : Tabled room root trampoline trapframe newsz t) :
    Loads room root trampoline trapframe content k off sz img s (false, newsz) t :=
  ⟨hconfined, h, nofun⟩

theorem segments_succ (content : List UInt8) (k off : Nat) : segments content (k + 1) off =
    if (Proghdr.ofBytes ((content.drop off).take PROGHDRSIZE)).type = ELF_PROG_LOAD then
      .ofBytes ((content.drop off).take PROGHDRSIZE) :: segments content k (off + PROGHDRSIZE)
    else segments content k (off + PROGHDRSIZE) := by
  unfold segments
  rw [programHeaders, List.filter_cons]
  simp only [decide_eq_true_eq]

/-- One header more. -/
theorem inFile_succ (hin : off + PROGHDRSIZE ≤ content.length)
    (h : 0 < k → off + PROGHDRSIZE + PROGHDRSIZE * k ≤ content.length) :
    off + PROGHDRSIZE * (k + 1) ≤ content.length := by
  unfold PROGHDRSIZE at *
  omega

/-- A header that is not for loading. -/
theorem Executed.skip {img' : Nat → UInt8} (hin : off + PROGHDRSIZE ≤ content.length)
    (htype : (Proghdr.ofBytes ((content.drop off).take PROGHDRSIZE)).type ≠ ELF_PROG_LOAD)
    (h : Executed content k (off + PROGHDRSIZE) sz newsz img img') :
    Executed content (k + 1) off sz newsz img img' := by
  have hsegments := segments_succ content k off
  rw [if_neg htype] at hsegments
  exact ⟨fun _ => inFile_succ hin h.inFile, hsegments ▸ h.sound, hsegments ▸ h.size,
    hsegments ▸ h.image⟩

/-- A segment, and those behind it. -/
theorem Executed.cons {img' : Nat → UInt8} (hin : off + PROGHDRSIZE ≤ content.length)
    (hph : ph = .ofBytes ((content.drop off).take PROGHDRSIZE)) (htype : ph.type = ELF_PROG_LOAD)
    (hsound : ph.narrow.Sound content)
    (h : Executed content k (off + PROGHDRSIZE) (max sz (ph.vaddr + ph.memsz)) newsz
      (Bytes.splice img (ph.narrow.run content).1 (ph.narrow.run content).2) img') :
    Executed content (k + 1) off sz newsz img img' := by
  have hsegments := segments_succ content k off
  rw [← hph, if_pos htype] at hsegments
  refine ⟨fun _ => inFile_succ hin h.inFile, ?_, ?_, ?_⟩
  · rw [hsegments]
    exact List.forall_mem_cons.mpr ⟨hsound, h.sound⟩
  · rw [hsegments]
    exact h.size
  · rw [hsegments]
    exact h.image

theorem field_lt {bytes : List UInt8} {w : Nat} (hw : w ≤ 8) : field bytes off w < 2 ^ 64 := by
  have hlt : field bytes off w < 256 ^ ((bytes.drop off).take w).length := Bytes.ofLe_lt
  have hle : ((bytes.drop off).take w).length ≤ 8 := Nat.le_trans (List.length_take_le _ _) hw
  exact Nat.lt_of_lt_of_le hlt (Nat.pow_le_pow_right (by decide) hle)

section Exits

variable {s₀ : Ram} {sz₀ : Nat} {img₀ : Nat → UInt8}

/-- The loop goes on where there is memory for the segment. -/
theorem Loaded.growThen {rest : Nat → RamM (Bool × Nat)}
    (h : Loaded room root trampoline trapframe sz img s) (hconfined : Confined room s₀ s)
    (hrest : ∀ t, Confined room s₀ t →
      Loaded room root trampoline trapframe (max sz newsz) img t →
      Ends (rest (max sz newsz)) t
        (Loads room root trampoline trapframe content k off sz₀ img₀ s₀) fun _ _ => False) :
    Ends (do
      let sz1 ← Vm.uvmalloc root sz newsz
      if sz1 = 0 then return (false, sz) else rest sz1) s
      (Loads room root trampoline trapframe content k off sz₀ img₀ s₀) fun _ _ => False := by
  refine (h.uvmalloc newsz).bind ?_
  rintro sz1 t ⟨hconfined', ⟨rfl, hloaded⟩ | ⟨rfl, htabled⟩⟩
  · by_cases hzero : max sz newsz = 0
    · rw [if_pos hzero]
      have hsame : sz = max sz newsz := by omega
      exact .stop (hconfined.trans hconfined') (hsame ▸ hloaded.tabled)
    · rw [if_neg hzero]
      exact hrest t (hconfined.trans hconfined') hloaded
  · rw [if_pos rfl]
    exact .stop (hconfined.trans hconfined') htabled

/-- And where the file has the segment. -/
theorem Loaded.loadThen {rest : RamM (Bool × Nat)}
    (h : Loaded room root trampoline trapframe sz img s) (hconfined : Confined room s₀ s)
    (hend : ph.vaddr + ph.memsz ≤ sz) (hfilesz : ph.filesz ≤ ph.memsz)
    (hcontent : content.length < 2 ^ 32)
    (hrest : ∀ t, Confined room s₀ t → ph.narrow.Sound content →
      Loaded room root trampoline trapframe sz
        (Bytes.splice img (ph.narrow.run content).1 (ph.narrow.run content).2) t →
      Ends rest t (Loads room root trampoline trapframe content k off sz₀ img₀ s₀)
        fun _ _ => False) :
    Ends (if ph.vaddr % PGSIZE ≠ 0 then return (false, sz)
      else do
        let r ← Vm.loadseg root ph.vaddr content (ph.off % 2 ^ 32) (ph.filesz % 2 ^ 32)
        if r < 0 then return (false, sz) else rest) s
      (Loads room root trampoline trapframe content k off sz₀ img₀ s₀) fun _ _ => False := by
  by_cases haligned : ph.vaddr % PGSIZE = 0
  · rw [if_neg (not_not_intro haligned)]
    refine (h.segment hend hfilesz (Nat.dvd_of_mod_eq_zero haligned) hcontent).bind ?_
    rintro r t ⟨hconfined', ⟨rfl, hsound, hloaded⟩ | ⟨rfl, htabled⟩⟩
    · rw [if_neg (by decide)]
      exact hrest t (hconfined.trans hconfined') hsound hloaded
    · rw [if_pos (by decide)]
      exact .stop (hconfined.trans hconfined') htabled
  · rw [if_pos haligned]
    exact .stop hconfined h.tabled

end Exits

/-- **The loop of `exec` over the program headers.** -/
theorem Loaded.loadLoop (h : Loaded room root trampoline trapframe sz img s)
    (hcontent : content.length < 2 ^ 32) (hoff : off < 2 ^ 32) :
    Ends (Vm.loadLoop content root k off sz) s
      (Loads room root trampoline trapframe content k off sz img s) fun _ _ => False := by
  induction k generalizing off sz s img with
  | zero =>
      refine ⟨.refl, h.tabled, fun _ => ⟨img, ⟨fun hbad => absurd hbad (Nat.lt_irrefl 0), ?_, rfl,
        rfl⟩, h⟩⟩
      exact fun _ hbad => absurd hbad List.not_mem_nil
  | succ k ih =>
      unfold Vm.loadLoop
      by_cases hlength : (readi content off PROGHDRSIZE).length = PROGHDRSIZE
      · rw [if_neg (not_not_intro hlength)]
        obtain ⟨hin, hbytes⟩ := readi_whole (by decide) hlength
        have hnext : (off + PROGHDRSIZE) % 2 ^ 32 = off + PROGHDRSIZE := Nat.mod_eq_of_lt (by omega)
        rw [hbytes, hnext]
        generalize hph : Proghdr.ofBytes ((content.drop off).take PROGHDRSIZE) = ph
        by_cases htype : ph.type = ELF_PROG_LOAD
        · rw [if_neg (not_not_intro htype)]
          by_cases hfilesz : ph.memsz < ph.filesz
          · rw [if_pos hfilesz]
            exact .stop .refl h.tabled
          · rw [if_neg hfilesz]
            have hvaddr : ph.vaddr < 2 ^ 64 := hph ▸ field_lt (Nat.le_refl 8)
            have hmemsz : ph.memsz < 2 ^ 64 := hph ▸ field_lt (Nat.le_refl 8)
            by_cases hwrap : (ph.vaddr + ph.memsz) % 2 ^ 64 < ph.vaddr
            · rw [if_pos hwrap]
              exact .stop .refl h.tabled
            · rw [if_neg hwrap, show (ph.vaddr + ph.memsz) % 2 ^ 64 = ph.vaddr + ph.memsz by omega]
              refine h.growThen .refl fun t ht hgrown => hgrown.loadThen ht (Nat.le_max_right _ _)
                (Nat.le_of_not_lt hfilesz) hcontent fun u hu hsound hloaded => ?_
              refine (ih hloaded (by omega)).post ?_
              rintro r v ⟨hconfined, htabled, hdone⟩
              refine ⟨hu.trans hconfined, htabled, fun hr => ?_⟩
              obtain ⟨img', hexecuted, hloaded'⟩ := hdone hr
              exact ⟨img', hexecuted.cons hin hph.symm htype hsound, hloaded'⟩
        · rw [if_pos htype]
          refine (ih h (by omega)).post ?_
          rintro r t ⟨hconfined, htabled, hdone⟩
          refine ⟨hconfined, htabled, fun hr => ?_⟩
          obtain ⟨img', hexecuted, hloaded⟩ := hdone hr
          exact ⟨img', hexecuted.skip hin (hph ▸ htype), hloaded⟩
      · rw [if_pos hlength]
        exact .stop .refl h.tabled

end Vm
