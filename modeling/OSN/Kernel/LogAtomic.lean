import OSN.Kernel.Log

/-!
# Commits are atomic

A transaction writes the new contents of some blocks to their homes.  Until the
header is written the homes are as they were and the header on disk counts no
blocks; from then on until it is erased the header names the blocks and the log
holds their new contents.  Whatever the homes hold in the meantime, `install`
or `reinstall` determines them, from the start if a crash comes in between.

`LogPhase` says this for each stage of `commit` and `recover_from_log`, and every
step keeps it, crashes included (`LogPhase.step`).
-/

namespace Xv6

variable {n : Nat} {sb : Superblock} {old new : UInt32 → Block} {blocks : List UInt32}
  {s t : LogStore} {disk : UInt32 → Block} {k : Nat} {past : Past (Log n) (LogEvent n)}

/-- The blocks of a transaction that `log_write` has let pass. -/
structure FitsLog (sb : Superblock) (blocks : List UInt32) : Prop where
  home : ∀ b ∈ blocks, sb.Home b
  header : blocks.length ≤ LOGSIZE
  body : blocks.length < sb.nlog

/-- **All or nothing**: the log is empty, and the blocks outside it are either
all as they were or all with the transaction written. -/
def AllOrNothing (sb : Superblock) (old new : UInt32 → Block) (blocks : List UInt32)
    (disk : UInt32 → Block) : Prop :=
  EmptyLog sb disk ∧
    ((∀ b, sb.Home b → disk b = old b) ∨ ∀ b, sb.Home b → disk b = redo old new blocks b)

/-- The first `k` blocks of the log hold the new contents. -/
def Logged (sb : Superblock) (new : UInt32 → Block) (blocks : List UInt32) (k : Nat)
    (disk : UInt32 → Block) : Prop :=
  ∀ i b, i < k → blocks[i]? = some b → disk (sb.logBlock i) = new b

/-- The transaction counts: the header names its blocks, the log holds their
new contents, and the first `k` are installed. -/
structure Counts (sb : Superblock) (old new : UInt32 → Block) (blocks : List UInt32) (k : Nat)
    (disk : UInt32 → Block) : Prop where
  header : readHeader (disk sb.logstart) = some blocks
  logged : Logged sb new blocks blocks.length disk
  installed : Redone sb.Home old new blocks k disk

/-- Buffers of the log area agree with the disk. -/
def Coherent (sb : Superblock) (s : LogStore) : Prop :=
  ∀ b, ¬ sb.Home b → s.bread b = s.disk b

/-- **Where `commit` and `recover_from_log` are with a transaction.** -/
inductive LogPhase (sb : Superblock) (old new : UInt32 → Block) (blocks : List UInt32)
    (s : LogStore) : Prop
  | writeLog (tail : Nat) (hstage : s.stage = .writeLog tail) (hlh : s.lh = blocks)
      (hempty : EmptyLog sb s.disk) (hold : ∀ b, sb.Home b → s.disk b = old b)
      (hlogged : Logged sb new blocks tail s.disk)
      (hnew : ∀ b ∈ blocks, s.bread b = new b ∧ 0 < s.refcnt b)
  | writeHead (hstage : s.stage = .writeHead) (hlh : s.lh = blocks)
      (hold : ∀ b, sb.Home b → s.disk b = old b) (hempty : EmptyLog sb s.disk)
      (hlogged : Logged sb new blocks blocks.length s.disk)
  | install (tail : Nat) (hstage : s.stage = .install tail) (hlh : s.lh = blocks)
      (hcounts : Counts sb old new blocks tail s.disk)
  | clear (hstage : s.stage = .clear) (hlh : s.lh = [])
      (hcounts : Counts sb old new blocks blocks.length s.disk)
  | readHead (hstage : s.stage = .readHead) (hlh : s.lh = [])
      (hdisk : AllOrNothing sb old new blocks s.disk ∨ Counts sb old new blocks 0 s.disk)
  | reinstallNone (tail : Nat) (hstage : s.stage = .reinstall tail) (hlh : s.lh = [])
      (hsettled : AllOrNothing sb old new blocks s.disk)
  | reinstall (tail : Nat) (hstage : s.stage = .reinstall tail) (hlh : s.lh = blocks)
      (hcounts : Counts sb old new blocks tail s.disk)
  | reclear (hstage : s.stage = .reclear) (hlh : s.lh = [])
      (hdisk : AllOrNothing sb old new blocks s.disk ∨
        Counts sb old new blocks blocks.length s.disk)
  | up (hstage : s.stage = .up) (hlh : s.lh = []) (hsettled : AllOrNothing sb old new blocks s.disk)

/-! ### What a write to disk keeps -/

/-- The block that is written reads as written. -/
theorem bread_bwrite_self (s : LogStore) (b : UInt32) (d : Block) :
    (s.bwrite b d).bread b = d := by
  simp [LogStore.bread, LogStore.bwrite]

theorem bread_bwrite_of_ne (s : LogStore) {b c : UInt32} (d : Block) (h : c ≠ b) :
    (s.bwrite b d).bread c = s.bread c := by
  simp [LogStore.bread, LogStore.bwrite, h]

theorem disk_bwrite (s : LogStore) (b : UInt32) (d : Block) :
    (s.bwrite b d).disk = Function.update s.disk b d :=
  rfl

theorem Coherent.bwrite (h : Coherent sb s) (b : UInt32) (d : Block) :
    Coherent sb (s.bwrite b d) := by
  intro c hc
  by_cases hcb : c = b
  · subst hcb
    rw [bread_bwrite_self, disk_bwrite, Function.update_self]
  · rw [bread_bwrite_of_ne s d hcb, h c hc, disk_bwrite, Function.update_of_ne hcb]

/-- A write to a home leaves the log alone. -/
theorem Logged.home (h : Logged sb new blocks k disk) (hk : k < sb.nlog) {b : UInt32}
    (hb : sb.Home b) (d : Block) : Logged sb new blocks k (Function.update disk b d) := by
  intro i c hi hc
  have hne : sb.logBlock i ≠ b := by
    intro heq
    subst heq
    exact Superblock.logBlock_not_home (by omega) hb
  rw [Function.update_of_ne hne]
  exact h i c hi hc

/-- A write to the header leaves the body alone. -/
theorem Logged.headerWritten (h : Logged sb new blocks k disk) (hk : k < sb.nlog) (d : Block) :
    Logged sb new blocks k (Function.update disk sb.logstart d) := by
  intro i c hi hc
  rw [Function.update_of_ne (Superblock.logBlock_ne_header (by omega))]
  exact h i c hi hc

/-- The next block of the log is written. -/
theorem Logged.next (h : Logged sb new blocks k disk) {b : UInt32} (hb : blocks[k]? = some b)
    (hk : k + 1 < sb.nlog) :
    Logged sb new blocks (k + 1) (Function.update disk (sb.logBlock k) (new b)) := by
  intro i c hi hc
  by_cases hik : i = k
  · subst hik
    rw [Function.update_self]
    have hbc : b = c := Option.some.inj (hb.symm.trans hc)
    rw [hbc]
  · rw [Function.update_of_ne (Superblock.logBlock_ne (by omega) hk hik)]
    exact h i c (by omega) hc

/-- Nothing is left to write when all blocks are. -/
theorem Logged.all (h : Logged sb new blocks k disk) (hk : blocks.length ≤ k) :
    Logged sb new blocks blocks.length disk := by
  intro i b hi hb
  exact h i b (by omega) hb

theorem EmptyLog.of_ne (h : EmptyLog sb disk) {b : UInt32} (hb : sb.logstart ≠ b) (d : Block) :
    EmptyLog sb (Function.update disk b d) := by
  rw [EmptyLog, Function.update_of_ne hb]
  exact h

/-- The erased header counts no blocks. -/
theorem emptyLog_erased (disk : UInt32 → Block) (d : Block) :
    EmptyLog sb (Function.update disk sb.logstart (headerBlock [] d)) := by
  rw [EmptyLog, Function.update_self]
  exact headerBlock_empty d

theorem home_ne_header {b : UInt32} (hb : sb.Home b) : b ≠ sb.logstart := by
  intro heq
  subst heq
  exact sb.header_not_home hb

/-- A write to the log area leaves the homes alone. -/
theorem home_of_log {c : UInt32} (hc : ¬ sb.Home c) (d : Block) {b : UInt32} (hb : sb.Home b) :
    Function.update disk c d b = disk b := by
  have hne : b ≠ c := by
    intro heq
    subst heq
    exact hc hb
  rw [Function.update_of_ne hne]

theorem AllOrNothing.erased (h : AllOrNothing sb old new blocks disk) (d : Block) :
    AllOrNothing sb old new blocks (Function.update disk sb.logstart (headerBlock [] d)) := by
  constructor
  · exact emptyLog_erased disk d
  · rcases h.2 with hold | hnew
    · left
      intro b hb
      rw [home_of_log sb.header_not_home _ hb, hold b hb]
    · right
      intro b hb
      rw [home_of_log sb.header_not_home _ hb, hnew b hb]

/-- Erasing the header settles a transaction that is installed. -/
theorem Counts.erased (h : Counts sb old new blocks blocks.length disk) (d : Block) :
    AllOrNothing sb old new blocks (Function.update disk sb.logstart (headerBlock [] d)) := by
  constructor
  · exact emptyLog_erased disk d
  · right
    intro b hb
    rw [home_of_log sb.header_not_home _ hb]
    exact h.installed.all (Nat.le_refl _) hb

/-- The next block is installed from the log. -/
theorem Counts.next (h : Counts sb old new blocks k disk) (hfits : FitsLog sb blocks) {b : UInt32}
    (hb : blocks[k]? = some b) :
    Counts sb old new blocks (k + 1) (Function.update disk b (disk (sb.logBlock k))) := by
  obtain ⟨hk, hbk⟩ := List.getElem?_eq_some_iff.mp hb
  have hhome : sb.Home b := hfits.home b (List.mem_of_getElem? hb)
  have hnew : disk (sb.logBlock k) = new b := h.logged k b hk hb
  constructor
  · rw [Function.update_of_ne (Ne.symm (home_ne_header hhome))]
    exact h.header
  · exact h.logged.home hfits.body hhome _
  · rw [hnew]
    subst hbk
    exact h.installed.write hk

/-! ### What each step keeps -/

/-- The next block of `write_log`, or its end. -/
theorem LogPhase.writeLog_step (hfits : FitsLog sb blocks) {tail : Nat}
    (hstage : s.stage = .writeLog tail) (hlh : s.lh = blocks) (hempty : EmptyLog sb s.disk)
    (hold : ∀ b, sb.Home b → s.disk b = old b) (hlogged : Logged sb new blocks tail s.disk)
    (hnew : ∀ b ∈ blocks, s.bread b = new b ∧ 0 < s.refcnt b) (h : s.diskStep sb = some t) :
    LogPhase sb old new blocks t := by
  have hbody := hfits.body
  subst hlh
  simp only [LogStore.diskStep, hstage] at h
  cases hb : s.lh[tail]? with
  | none =>
      simp only [hb, Option.some.injEq] at h
      subst h
      have hall := hlogged.all (List.getElem?_eq_none_iff.mp hb)
      exact .writeHead rfl rfl hold hempty hall
  | some b =>
      simp only [hb, Option.some.injEq] at h
      subst h
      obtain ⟨htail, _⟩ := List.getElem?_eq_some_iff.mp hb
      have hroom : tail + 1 < sb.nlog := by omega
      have hlog := Superblock.logBlock_not_home hroom
      rw [(hnew b (List.mem_of_getElem? hb)).1]
      refine .writeLog (tail + 1) rfl rfl ?_ ?_ ?_ ?_
      · exact hempty.of_ne (Ne.symm (Superblock.logBlock_ne_header hroom)) _
      · intro c hc
        exact (home_of_log hlog _ hc).trans (hold c hc)
      · exact hlogged.next hb hroom
      · intro c hc
        have hne : c ≠ sb.logBlock tail := by
          intro heq
          rw [heq] at hc
          exact hlog (hfits.home _ hc)
        exact ⟨(bread_bwrite_of_ne s _ hne).trans (hnew c hc).1, (hnew c hc).2⟩

/-- The header is written: the transaction counts. -/
theorem LogPhase.writeHead_step (hfits : FitsLog sb blocks) (hstage : s.stage = .writeHead)
    (hlh : s.lh = blocks) (hold : ∀ b, sb.Home b → s.disk b = old b)
    (hlogged : Logged sb new blocks blocks.length s.disk) (h : s.diskStep sb = some t) :
    LogPhase sb old new blocks t := by
  subst hlh
  simp only [LogStore.diskStep, hstage, Option.some.injEq] at h
  subst h
  refine .install 0 rfl rfl ?_
  constructor
  · simp only [disk_bwrite, Function.update_self]
    exact readHeader_headerBlock _ hfits.header
  · exact hlogged.headerWritten hfits.body _
  · apply Redone.start
    intro b hb _
    exact (home_of_log sb.header_not_home _ hb).trans (hold b hb)

/-- There is no block left to install. -/
theorem Counts.complete (h : Counts sb old new blocks k disk) (hk : blocks.length ≤ k) :
    Counts sb old new blocks blocks.length disk :=
  ⟨h.header, h.logged, h.installed.complete hk⟩

/-- The next block of `install_trans(0)`, or its end. -/
theorem LogPhase.install_step (hfits : FitsLog sb blocks) (hcoherent : Coherent sb s) {tail : Nat}
    (hstage : s.stage = .install tail) (hlh : s.lh = blocks)
    (hcounts : Counts sb old new blocks tail s.disk) (h : s.diskStep sb = some t) :
    LogPhase sb old new blocks t := by
  have hbody := hfits.body
  subst hlh
  simp only [LogStore.diskStep, hstage] at h
  cases hb : s.lh[tail]? with
  | none =>
      simp only [hb, Option.some.injEq] at h
      subst h
      exact .clear rfl rfl (hcounts.complete (List.getElem?_eq_none_iff.mp hb))
  | some b =>
      simp only [hb, Option.some.injEq] at h
      subst h
      obtain ⟨htail, _⟩ := List.getElem?_eq_some_iff.mp hb
      rw [hcoherent _ (Superblock.logBlock_not_home (show tail + 1 < sb.nlog by omega))]
      exact .install (tail + 1) rfl rfl (hcounts.next hfits hb)

/-- `read_head` finds no blocks, or those of the transaction. -/
theorem LogPhase.readHead_step (hcoherent : Coherent sb s) (hstage : s.stage = .readHead)
    (hdisk : AllOrNothing sb old new blocks s.disk ∨ Counts sb old new blocks 0 s.disk)
    (h : s.diskStep sb = some t) : LogPhase sb old new blocks t := by
  simp only [LogStore.diskStep, hstage, hcoherent _ sb.header_not_home] at h
  rcases hdisk with hsettled | hcounts
  · rw [readHeader_empty hsettled.1, Option.map_some, Option.some.injEq] at h
    subst h
    exact .reinstallNone 0 rfl rfl hsettled
  · rw [hcounts.header, Option.map_some, Option.some.injEq] at h
    subst h
    exact .reinstall 0 rfl rfl hcounts

/-- The next block of `install_trans(1)`, or its end. -/
theorem LogPhase.reinstall_step (hfits : FitsLog sb blocks) (hcoherent : Coherent sb s) {tail : Nat}
    (hstage : s.stage = .reinstall tail) (hlh : s.lh = blocks)
    (hcounts : Counts sb old new blocks tail s.disk) (h : s.diskStep sb = some t) :
    LogPhase sb old new blocks t := by
  have hbody := hfits.body
  subst hlh
  simp only [LogStore.diskStep, hstage] at h
  cases hb : s.lh[tail]? with
  | none =>
      simp only [hb, Option.some.injEq] at h
      subst h
      exact .reclear rfl rfl (Or.inr (hcounts.complete (List.getElem?_eq_none_iff.mp hb)))
  | some b =>
      simp only [hb, Option.some.injEq] at h
      subst h
      obtain ⟨htail, _⟩ := List.getElem?_eq_some_iff.mp hb
      rw [hcoherent _ (Superblock.logBlock_not_home (show tail + 1 < sb.nlog by omega))]
      exact .reinstall (tail + 1) rfl rfl (hcounts.next hfits hb)

/-- A step of `commit` or `recover_from_log`. -/
theorem LogPhase.diskStep (hfits : FitsLog sb blocks) (hcoherent : Coherent sb s)
    (hphase : LogPhase sb old new blocks s) (h : s.diskStep sb = some t) :
    LogPhase sb old new blocks t := by
  cases hphase with
  | writeLog tail hstage hlh hempty hold hlogged hnew =>
      exact LogPhase.writeLog_step hfits hstage hlh hempty hold hlogged hnew h
  | writeHead hstage hlh hold _ hlogged =>
      exact LogPhase.writeHead_step hfits hstage hlh hold hlogged h
  | install tail hstage hlh hcounts =>
      exact LogPhase.install_step hfits hcoherent hstage hlh hcounts h
  | clear hstage hlh hcounts =>
      simp only [LogStore.diskStep, hstage, hlh, Option.some.injEq] at h
      subst h
      exact .up rfl hlh (hcounts.erased _)
  | readHead hstage _ hdisk => exact LogPhase.readHead_step hcoherent hstage hdisk h
  | reinstallNone tail hstage hlh hsettled =>
      simp only [LogStore.diskStep, hstage, hlh, List.getElem?_nil, Option.some.injEq] at h
      subst h
      exact .reclear rfl rfl (Or.inl hsettled)
  | reinstall tail hstage hlh hcounts =>
      exact LogPhase.reinstall_step hfits hcoherent hstage hlh hcounts h
  | reclear hstage hlh hdisk =>
      simp only [LogStore.diskStep, hstage, hlh, Option.some.injEq] at h
      subst h
      refine .up rfl hlh ?_
      rcases hdisk with hsettled | hcounts
      · exact hsettled.erased _
      · exact hcounts.erased _
  | up hstage => simp [LogStore.diskStep, hstage] at h

/-- What is on the disk in every phase: the log is empty and the homes are
settled, or the transaction counts. -/
theorem LogPhase.onDisk (h : LogPhase sb old new blocks s) :
    AllOrNothing sb old new blocks s.disk ∨ Counts sb old new blocks 0 s.disk := by
  have hagain : ∀ {k}, Counts sb old new blocks k s.disk → Counts sb old new blocks 0 s.disk :=
    fun hcounts => ⟨hcounts.header, hcounts.logged, hcounts.installed.again⟩
  cases h with
  | writeLog _ _ _ hempty hold | writeHead _ _ hold hempty => exact Or.inl ⟨hempty, Or.inl hold⟩
  | install _ _ _ hcounts | clear _ _ hcounts | reinstall _ _ _ hcounts =>
      exact Or.inr (hagain hcounts)
  | readHead _ _ hdisk => exact hdisk
  | reinstallNone _ _ _ hsettled | up _ _ hsettled => exact Or.inl hsettled
  | reclear _ _ hdisk =>
      rcases hdisk with hsettled | hcounts
      · exact Or.inl hsettled
      · exact Or.inr (hagain hcounts)

/-- **A crash**, in any phase, leaves `recover_from_log` a phase to begin with. -/
theorem LogPhase.boot (h : LogPhase sb old new blocks s) :
    LogPhase sb old new blocks (LogStore.boot s.disk) :=
  .readHead rfl rfl h.onDisk

/-- Only the cache changes, and blocks that are pinned read the same. -/
theorem LogPhase.of_cache {cache : UInt32 → Option Block} (h : LogPhase sb old new blocks s)
    (hread : ∀ b, 0 < s.refcnt b → ({ s with cache := cache } : LogStore).bread b = s.bread b) :
    LogPhase sb old new blocks { s with cache := cache } := by
  cases h with
  | writeLog tail hstage hlh hempty hold hlogged hnew =>
      refine .writeLog tail hstage hlh hempty hold hlogged ?_
      intro b hb
      obtain ⟨hsame, hpinned⟩ := hnew b hb
      exact ⟨(hread b hpinned).trans hsame, hpinned⟩
  | writeHead hstage hlh hold hempty hlogged => exact .writeHead hstage hlh hold hempty hlogged
  | install tail hstage hlh hcounts => exact .install tail hstage hlh hcounts
  | clear hstage hlh hcounts => exact .clear hstage hlh hcounts
  | readHead hstage hlh hdisk => exact .readHead hstage hlh hdisk
  | reinstallNone tail hstage hlh hsettled => exact .reinstallNone tail hstage hlh hsettled
  | reinstall tail hstage hlh hcounts => exact .reinstall tail hstage hlh hcounts
  | reclear hstage hlh hdisk => exact .reclear hstage hlh hdisk
  | up hstage hlh hsettled => exact .up hstage hlh hsettled

theorem bread_load (s : LogStore) (b c : UInt32) : (s.load b).bread c = s.bread c := by
  by_cases hc : c = b
  · subst hc
    simp [LogStore.bread, LogStore.load]
  · simp [LogStore.bread, LogStore.load, hc]

theorem LogPhase.load (h : LogPhase sb old new blocks s) (b : UInt32) :
    LogPhase sb old new blocks (s.load b) :=
  h.of_cache fun c _ => bread_load s b c

theorem LogPhase.evict (h : LogPhase sb old new blocks s) {b : UInt32} (hfree : s.refcnt b = 0) :
    LogPhase sb old new blocks { s with cache := Function.update s.cache b none } := by
  apply h.of_cache
  intro c hc
  have hne : c ≠ b := by
    intro heq
    subst heq
    omega
  simp [LogStore.bread, hne]

theorem Coherent.boot (disk : UInt32 → Block) : Coherent sb (LogStore.boot disk) := fun _ _ => rfl

theorem Coherent.load (h : Coherent sb s) (b : UInt32) : Coherent sb (s.load b) := by
  intro c hc
  rw [bread_load]
  exact h c hc

theorem Coherent.evict (h : Coherent sb s) (b : UInt32) :
    Coherent sb { s with cache := Function.update s.cache b none } := by
  intro c hc
  by_cases hcb : c = b
  · subst hcb
    simp [LogStore.bread]
  · have hsame := h c hc
    simpa [LogStore.bread, hcb] using hsame

/-- Whatever `commit` and `recover_from_log` do to the cache, they do by
`bwrite`. -/
theorem Coherent.diskStep (h : Coherent sb s) (hstep : s.diskStep sb = some t) :
    Coherent sb t := by
  have hother : ∀ (lh : List UInt32) (refcnt : UInt32 → Nat) (stage : Stage),
      Coherent sb { s with lh := lh, refcnt := refcnt, stage := stage } := fun _ _ _ => h
  have hwrite : ∀ (b : UInt32) (d : Block) (refcnt : UInt32 → Nat) (stage : Stage),
      Coherent sb { s.bwrite b d with refcnt := refcnt, stage := stage } :=
    fun b d _ _ => h.bwrite b d
  unfold LogStore.diskStep at hstep
  split at hstep <;> try split at hstep
  all_goals first
    | (obtain rfl := Option.some.inj hstep; exact hwrite _ _ _ _)
    | (obtain rfl := Option.some.inj hstep; exact hother _ _ _)
    | (obtain ⟨lh, _, rfl⟩ := Option.map_eq_some_iff.mp hstep; exact hother _ _ _)
    | cases hstep

/-! ### From the beginning of a commit -/

/-- An operation is under way. -/
def FsOp.Runs : FsOp → Prop
  | .runs _ => True
  | _ => False

instance (op : FsOp) : Decidable op.Runs := by
  unfold FsOp.Runs
  split <;> infer_instance

/-- The states after `s₀` up to the next one in which neither `commit` nor
`recover_from_log` runs. -/
inductive Underway (sb : Superblock) (s₀ : Log n) : Log n → Prop
  | start : Underway sb s₀ s₀
  | step {s t : Log n} {e : LogEvent n} (h : Underway sb s₀ s) (hbusy : s.stage ≠ .up)
      (hstep : s.step sb e = some t) : Underway sb s₀ t

/-- `commit` or `recover_from_log` is in some phase, and no operation runs. -/
structure Busy (sb : Superblock) (old new : UInt32 → Block) (blocks : List UInt32) (s : Log n) :
    Prop where
  phase : LogPhase sb old new blocks s.toLogStore
  coherent : Coherent sb s.toLogStore
  idle : ∀ p, ¬ (s.op p).Runs

/-- **A step while `commit` or `recover_from_log` runs.** -/
theorem Busy.step {s t : Log n} {e : LogEvent n} (hfits : FitsLog sb blocks)
    (hbusy : Busy sb old new blocks s) (hstage : s.stage ≠ .up) (h : s.step sb e = some t) :
    Busy sb old new blocks t := by
  obtain ⟨hphase, hcoherent, hidle⟩ := hbusy
  cases Log.step_moves h with
  | crash => exact ⟨hphase.boot, Coherent.boot _, fun p => id⟩
  | @begin p _ hp hup =>
      have hcommitting : s.committing = true := hup.resolve_left hstage
      simp only [Log.beginOp, hcommitting, ↓reduceIte]
      refine ⟨hphase, hcoherent, ?_⟩
      intro q
      by_cases hq : q = p
      · subst hq
        simp [Log.setOp, FsOp.Runs]
      · simpa [Log.setOp, hq] using hidle q
  | @write p b d passed _ hp hb => exact absurd (hp ▸ trivial) (hidle p)
  | @endOp p passed _ hp => exact absurd (hp ▸ trivial) (hidle p)
  | disk _ hstore =>
      exact ⟨hphase.diskStep hfits hcoherent hstore, hcoherent.diskStep hstore, hidle⟩
  | finish _ _ hup => exact absurd hup hstage
  | load => exact ⟨hphase.load _, hcoherent.load _, hidle⟩
  | evict _ hfree => exact ⟨hphase.evict hfree, hcoherent.evict _, hidle⟩

theorem Busy.underway {s₀ t : Log n} (hfits : FitsLog sb blocks)
    (hbusy : Busy sb old new blocks s₀) (h : Underway sb s₀ t) : Busy sb old new blocks t := by
  induction h with
  | start => exact hbusy
  | step _ hstage hstep ih => exact ih.step hfits hstage hstep

/-- Neither `commit` nor `recover_from_log` runs any more. -/
theorem LogPhase.settled (h : LogPhase sb old new blocks s) (hup : s.stage = .up) :
    AllOrNothing sb old new blocks s.disk := by
  cases h with
  | up _ _ hsettled => exact hsettled
  | writeLog _ hstage | writeHead hstage | install _ hstage | clear hstage | readHead hstage
  | reinstallNone _ hstage | reinstall _ hstage | reclear hstage =>
      rw [hup] at hstage
      cases hstage

theorem LogPhase.lh_nil (h : LogPhase sb old new blocks s) (hup : s.stage = .up) : s.lh = [] := by
  cases h with
  | up _ hlh _ => exact hlh
  | writeLog _ hstage | writeHead hstage | install _ hstage | clear hstage | readHead hstage
  | reinstallNone _ hstage | reinstall _ hstage | reclear hstage =>
      rw [hup] at hstage
      cases hstage

/-- The header in memory names the transaction or nothing. -/
theorem LogPhase.lh_cases (h : LogPhase sb old new blocks s) : s.lh = blocks ∨ s.lh = [] := by
  cases h with
  | writeLog _ _ hlh | writeHead _ hlh | install _ _ hlh | reinstall _ _ hlh => exact Or.inl hlh
  | clear _ hlh | readHead _ hlh | reinstallNone _ _ hlh | reclear _ hlh | up _ hlh =>
      exact Or.inr hlh

/-- At the beginning of a commit the transaction is what the header in memory
and the cache say. -/
theorem LogPhase.atBegin (h : LogPhase sb old new blocks s) (hfits : FitsLog sb blocks)
    (hbegin : s.stage = .writeLog 0) : FitsLog sb s.lh ∧ LogPhase sb s.disk s.bread s.lh s := by
  cases h with
  | writeLog tail hstage hlh hempty hold hlogged hnew =>
      subst hlh
      refine ⟨hfits, .writeLog 0 hbegin rfl hempty (fun _ _ => rfl) ?_ ?_⟩
      · intro i b hi
        exact absurd hi (Nat.not_lt_zero i)
      · intro b hb
        exact ⟨rfl, (hnew b hb).2⟩
  | up hstage | writeHead hstage | install _ hstage | clear hstage | readHead hstage
  | reinstallNone _ hstage | reinstall _ hstage | reclear hstage =>
      rw [hbegin] at hstage
      cases hstage

/-! ### Up to the beginning of a commit -/

/-- The blocks of the transaction so far are those that fit the log, and are
pinned. -/
structure Working (sb : Superblock) (s : LogStore) : Prop where
  fits : FitsLog sb s.lh
  pinned : ∀ b ∈ s.lh, 0 < s.refcnt b

/-- **What holds in every state.** -/
structure Sound (sb : Superblock) (s : Log n) : Prop where
  /-- `outstanding` counts the operations that run. -/
  counted : s.outstanding = headcount s.op FsOp.Runs
  alone : s.committing = true ∨ s.stage ≠ .up → s.outstanding = 0
  coherent : Coherent sb s.toLogStore
  empty : s.stage = .up → EmptyLog sb s.disk
  working : s.stage = .up → s.panicked = none → Working sb s.toLogStore
  busy : s.stage ≠ .up →
    ∃ old new blocks, FitsLog sb blocks ∧ LogPhase sb old new blocks s.toLogStore

theorem FitsLog.nil (sb : Superblock) : FitsLog sb [] := by
  constructor
  · intro b hb
    cases hb
  · exact Nat.zero_le _
  · exact sb.hasHeader

theorem Sound.idle {s : Log n} (h : Sound sb s) (hnone : s.outstanding = 0) (p : Fin n) :
    ¬ (s.op p).Runs := by
  intro hruns
  have hpos := headcount_pos (f := s.op) (Q := FsOp.Runs) hruns
  have hcounted := h.counted
  omega

theorem Sound.boot {disk : UInt32 → Block}
    (h : ∃ old new blocks, FitsLog sb blocks ∧ LogPhase sb old new blocks (LogStore.boot disk)) :
    Sound sb (Log.boot disk : Log n) := by
  constructor
  · have hnone : headcount (Log.boot disk : Log n).op FsOp.Runs = 0 := headcount_eq_zero fun p => id
    rw [hnone]
    rfl
  · intro _
    rfl
  · exact Coherent.boot disk
  · intro hup
    cases hup
  · intro hup
    cases hup
  · intro _
    exact h

theorem boot_phase (h : EmptyLog sb disk) :
    ∃ old new blocks, FitsLog sb blocks ∧ LogPhase sb old new blocks (LogStore.boot disk) :=
  ⟨disk, disk, [], FitsLog.nil sb, .readHead rfl rfl (Or.inl ⟨h, Or.inl fun _ _ => rfl⟩)⟩

/-- Operations move, and nothing happens to the disk and the header. -/
theorem Sound.of_ops {s t : Log n} (h : Sound sb s) (hstore : t.toLogStore = s.toLogStore)
    (hcounted : t.outstanding = headcount t.op FsOp.Runs)
    (halone : t.committing = true ∨ t.stage ≠ .up → t.outstanding = 0)
    (hpanicked : t.panicked = none → s.panicked = none) : Sound sb t := by
  obtain ⟨_, _, hcoherent, hempty, hworking, hbusy⟩ := h
  rw [← hstore] at hcoherent hempty hworking hbusy
  exact ⟨hcounted, halone, hcoherent, hempty,
    fun hup hnone => hworking hup (hpanicked hnone), hbusy⟩

/-- Who sleeps or begins does not run. -/
theorem headcount_wakeupLog (s : Log n) :
    headcount s.wakeupLog.op FsOp.Runs = headcount s.op FsOp.Runs := by
  apply headcount_congr
  intro p
  simp only [Log.wakeupLog]
  split
  · rename_i hasleep
    rw [hasleep]
    rfl
  · rfl

theorem Sound.begin {s : Log n} (h : Sound sb s) {p : Fin n}
    (hp : s.op p = .out ∨ s.op p = .begins) (hup : s.stage = .up ∨ s.committing = true) :
    Sound sb (s.beginOp p) := by
  have hnot : ¬ (s.op p).Runs := by
    rcases hp with hp | hp <;> simp [hp, FsOp.Runs]
  have hasleep : Sound sb (s.setOp p .asleep) := by
    apply h.of_ops
    · rfl
    · have hsame : headcount (s.setOp p .asleep).op FsOp.Runs = headcount s.op FsOp.Runs :=
        headcount_update_same (iff_of_false id hnot)
      rw [hsame]
      exact h.counted
    · exact h.alone
    · exact id
  unfold Log.beginOp
  split
  · exact hasleep
  · rename_i hfree
    split
    · exact hasleep
    · apply h.of_ops
      · rfl
      · have henter :
            headcount (s.setOp p (.runs [])).op FsOp.Runs = headcount s.op FsOp.Runs + 1 :=
          headcount_update_enter hnot trivial
        have hcounted := h.counted
        simp only [henter]
        omega
      · intro hbusy
        have hup' : s.stage = .up := hup.resolve_right hfree
        rcases hbusy with hcommitting | hstage
        · exact absurd hcommitting hfree
        · exact absurd hup' hstage
      · exact id

/-- While an operation runs, the log is not being committed. -/
theorem Sound.runs {s : Log n} (h : Sound sb s) {p : Fin n} (hp : (s.op p).Runs) :
    0 < s.outstanding ∧ s.stage = .up ∧ s.committing = false := by
  have hpos := headcount_pos (f := s.op) (Q := FsOp.Runs) hp
  have hcounted := h.counted
  have hsome : 0 < s.outstanding := by omega
  refine ⟨hsome, ?_, ?_⟩
  · by_contra hstage
    have hnone := h.alone (Or.inr hstage)
    omega
  · by_contra hcommitting
    have hnone := h.alone (Or.inl (Bool.eq_true_of_not_eq_false hcommitting))
    omega

/-- A panic stops the kernel and changes nothing else. -/
theorem Sound.panic {s : Log n} (h : Sound sb s) (text : String) :
    Sound sb { s with panicked := some text } := by
  obtain ⟨hcounted, halone, hcoherent, hempty, _, hbusy⟩ := h
  refine ⟨hcounted, halone, hcoherent, hempty, ?_, hbusy⟩
  intro _ hnone
  cases hnone

/-- A block outside the log is changed in the cache. -/
theorem Coherent.change (h : Coherent sb s) {b : UInt32} (hb : sb.Home b) (d : Block) :
    Coherent sb { s with cache := Function.update s.cache b (some d) } := by
  intro c hc
  have hne : c ≠ b := by
    intro heq
    subst heq
    exact hc hb
  have hsame := h c hc
  simpa [LogStore.bread, hne] using hsame

/-- `log_write` takes a block into the transaction, or panics. -/
theorem Sound.logWrite {s : Log n} (h : Sound sb s) (hup : s.stage = .up)
    (hnone : s.panicked = none) {b : UInt32} (hb : sb.Home b) : Sound sb (s.logWrite sb b) := by
  obtain ⟨hfits, hpinned⟩ := h.working hup hnone
  unfold Log.logWrite
  split
  · exact h.panic _
  · rename_i hroom
    split
    · exact h.panic _
    · split
      · exact h
      · have hlen : (s.lh ++ [b]).length = s.lh.length + 1 := by simp
        obtain ⟨hcounted, halone, hcoherent, hempty, _, _⟩ := h
        refine ⟨hcounted, halone, hcoherent, hempty, ?_, fun hstage => absurd hup hstage⟩
        intro _ _
        constructor
        · constructor
          · intro c hc
            rcases List.mem_append.mp hc with hc | hc
            · exact hfits.home c hc
            · rw [List.mem_singleton.mp hc]
              exact hb
          · simp only [hlen]
            omega
          · simp only [hlen]
            omega
        · intro c hc
          by_cases hcb : c = b
          · subst hcb
            simp
          · simp only [Function.update_of_ne hcb]
            rcases List.mem_append.mp hc with hc | hc
            · exact hpinned c hc
            · exact absurd (List.mem_singleton.mp hc) hcb

/-- An operation changes a block. -/
theorem Sound.change {s : Log n} (h : Sound sb s) {p : Fin n} {passed passed' : List UInt32}
    (hp : s.op p = .runs passed) {b : UInt32} (hb : sb.Home b) (d : Block) :
    Sound sb (s.change p passed' b d) := by
  obtain ⟨_, hup, _⟩ := h.runs (p := p) (by rw [hp]; trivial)
  have hsame : headcount (s.change p passed' b d).op FsOp.Runs = headcount s.op FsOp.Runs :=
    headcount_update_same (by simp [hp, FsOp.Runs])
  obtain ⟨hcounted, halone, hcoherent, hempty, hworking, _⟩ := h
  refine ⟨?_, halone, hcoherent.change hb d, hempty, ?_, fun hstage => absurd hup hstage⟩
  · rw [hsame]
    exact hcounted
  · intro _ hnone
    exact ⟨(hworking hup hnone).fits, (hworking hup hnone).pinned⟩

/-- A transaction begins to be committed. -/
theorem Working.commits (h : Working sb s) (hempty : EmptyLog sb s.disk)
    (hstage : s.stage = .writeLog 0) : LogPhase sb s.disk s.bread s.lh s := by
  refine .writeLog 0 hstage rfl hempty (fun _ _ => rfl) ?_ ?_
  · intro i b hi
    exact absurd hi (Nat.not_lt_zero i)
  · intro b hb
    exact ⟨rfl, h.pinned b hb⟩

theorem Sound.endOp {s : Log n} (h : Sound sb s) (hnone : s.panicked = none) {p : Fin n}
    (hp : (s.op p).Runs) : Sound sb (s.endOp p) := by
  obtain ⟨hsome, hup, hfree⟩ := h.runs hp
  have hleave : ∀ op, ¬ op.Runs →
      s.outstanding - 1 = headcount (Function.update s.op p op) FsOp.Runs := by
    intro op hop
    have hless := headcount_update_leave (f := s.op) (p := p) (a := op) hp hop
    have hcounted := h.counted
    omega
  unfold Log.endOp
  simp only [hfree, Bool.false_eq_true, ↓reduceIte]
  split
  · rename_i hlast
    obtain ⟨hcounted, _, hcoherent, hempty, hworking, _⟩ := h
    refine ⟨hleave .commits id, fun _ => hlast, hcoherent, fun _ => hempty hup,
      fun _ _ => ⟨(hworking hup hnone).fits, (hworking hup hnone).pinned⟩, ?_⟩
    intro hstage
    refine ⟨s.disk, s.bread, s.lh, (hworking hup hnone).fits, ?_⟩
    by_cases hsomeblock : 0 < s.lh.length
    · have hwork : Working sb { s.toLogStore with stage := .writeLog 0 } :=
        ⟨(hworking hup hnone).fits, (hworking hup hnone).pinned⟩
      simp only [hsomeblock, ↓reduceIte]
      exact hwork.commits (hempty hup) rfl
    · simp [hsomeblock] at hstage
  · apply h.of_ops
    · rfl
    · rw [headcount_wakeupLog]
      exact hleave .out id
    · intro hbusy
      rcases hbusy with hcommitting | hstage
      · exact absurd hcommitting Bool.false_ne_true
      · exact absurd hup hstage
    · exact id

/-- Only the cache changes. -/
theorem Sound.of_cache {s : Log n} (h : Sound sb s) {cache : UInt32 → Option Block}
    (hcoherent : Coherent sb { s.toLogStore with cache := cache })
    (hphase : ∀ old new blocks, LogPhase sb old new blocks s.toLogStore →
      LogPhase sb old new blocks { s.toLogStore with cache := cache }) :
    Sound sb { s with cache := cache } := by
  obtain ⟨hcounted, halone, _, hempty, hworking, hbusy⟩ := h
  refine ⟨hcounted, halone, hcoherent, hempty, ?_, ?_⟩
  · intro hup hnone
    exact ⟨(hworking hup hnone).fits, (hworking hup hnone).pinned⟩
  · intro hstage
    obtain ⟨old, new, blocks, hfits, hbusy⟩ := hbusy hstage
    exact ⟨old, new, blocks, hfits, hphase old new blocks hbusy⟩

/-- `commit` or `recover_from_log` goes on. -/
theorem Sound.diskStep {s : Log n} (h : Sound sb s) {store : LogStore}
    (hstore : s.diskStep sb = some store) : Sound sb { s with toLogStore := store } := by
  have hstage : s.stage ≠ .up := by
    intro hup
    simp [LogStore.diskStep, hup] at hstore
  have hnone := h.alone (Or.inr hstage)
  obtain ⟨old, new, blocks, hfits, hphase⟩ := h.busy hstage
  have hnext := hphase.diskStep hfits h.coherent hstore
  refine ⟨h.counted, fun _ => hnone, h.coherent.diskStep hstore, ?_, ?_, ?_⟩
  · intro hup
    exact (hnext.settled hup).1
  · intro hup _
    have hlh := hnext.lh_nil hup
    constructor
    · simp only [hlh]
      exact FitsLog.nil sb
    · simp [hlh]
  · intro _
    exact ⟨old, new, blocks, hfits, hnext⟩

/-- `end_op` is over after a commit. -/
theorem Sound.finish {s : Log n} (h : Sound sb s) {p : Fin n} (hp : s.op p = .commits)
    (hup : s.stage = .up) : Sound sb { s.setOp p .out with committing := false }.wakeupLog := by
  apply h.of_ops
  · rfl
  · rw [headcount_wakeupLog]
    have hsame : headcount (s.setOp p .out).op FsOp.Runs = headcount s.op FsOp.Runs :=
      headcount_update_same (by simp [hp, FsOp.Runs])
    simp only [hsame]
    exact h.counted
  · intro hbusy
    rcases hbusy with hcommitting | hstage
    · exact absurd hcommitting Bool.false_ne_true
    · exact absurd hup hstage
  · exact id

/-- **Every step keeps the log sound.** -/
theorem Sound.step {s t : Log n} {e : LogEvent n} (hsound : Sound sb s)
    (h : s.step sb e = some t) : Sound sb t := by
  cases Log.step_moves h with
  | crash =>
      apply Sound.boot
      by_cases hup : s.stage = .up
      · exact boot_phase (hsound.empty hup)
      · obtain ⟨old, new, blocks, hfits, hphase⟩ := hsound.busy hup
        exact ⟨old, new, blocks, hfits, hphase.boot⟩
  | begin _ hp hup => exact hsound.begin hp hup
  | @write p b d passed hnone hp hb =>
      obtain ⟨_, hup, _⟩ := hsound.runs (p := p) (by rw [hp]; trivial)
      exact Sound.logWrite (hsound.change hp hb d) hup hnone hb
  | endOp hnone hp => exact hsound.endOp hnone (by rw [hp]; trivial)
  | disk _ hstore => exact hsound.diskStep hstore
  | finish _ hp hup => exact hsound.finish hp hup
  | load => exact hsound.of_cache (hsound.coherent.load _) fun _ _ _ hphase => hphase.load _
  | evict _ hfree =>
      exact hsound.of_cache (hsound.coherent.evict _) fun _ _ _ hphase => hphase.evict hfree

/-- **The log is sound** in every run. -/
theorem sound {s : Log n} (run : Run (logging sb n) past s) : Sound sb s := by
  apply run.invariant (P := fun _ s => Sound sb s)
  · intro s hs
    obtain ⟨disk, hboot, hempty⟩ := hs
    subst hboot
    exact Sound.boot (boot_phase hempty)
  · intro past s e t _ hsound h
    exact hsound.step h

/-! ### Recovery comes to an end -/

theorem logWrite_frame (sb : Superblock) (s : Log n) (b : UInt32) :
    (s.logWrite sb b).stage = s.stage ∧ (s.logWrite sb b).committing = s.committing ∧
      (s.logWrite sb b).op = s.op ∧ (s.logWrite sb b).outstanding = s.outstanding := by
  unfold Log.logWrite
  split
  · exact ⟨rfl, rfl, rfl, rfl⟩
  · split
    · exact ⟨rfl, rfl, rfl, rfl⟩
    · split <;> exact ⟨rfl, rfl, rfl, rfl⟩

/-- Only `log_write` panics. -/
theorem step_panicked {s t : Log n} {e : LogEvent n} (hsound : Sound sb s)
    (h : s.step sb e = some t) (he : ∀ p b d, e ≠ .write p b d) : t.panicked = none := by
  cases Log.step_moves h with
  | @begin p hnone =>
      unfold Log.beginOp
      split
      · exact hnone
      · split <;> exact hnone
  | @write p b d => exact absurd rfl (he p b d)
  | @endOp p passed hnone hp =>
      obtain ⟨_, _, hfree⟩ := hsound.runs (p := p) (by rw [hp]; trivial)
      unfold Log.endOp
      simp only [hfree, Bool.false_eq_true, ↓reduceIte]
      split <;> exact hnone
  | disk hnone | finish hnone | load hnone | evict hnone => exact hnone
  | crash => rfl

/-- A panic does not come in the middle of a commit or a recovery. -/
theorem steady {s : Log n} (run : Run (logging sb n) past s) (hbusy : s.stage ≠ .up) :
    s.panicked = none := by
  cases run with
  | init hs =>
      obtain ⟨disk, hboot, _⟩ := hs
      subst hboot
      rfl
  | @step past u _ e run h =>
      by_cases he : ∀ p b d, e ≠ .write p b d
      · exact step_panicked (sound run) h he
      · simp only [ne_eq, not_forall, not_not] at he
        obtain ⟨p, b, d, he⟩ := he
        subst he
        have hstep : u.step sb (.write p b d) = some s := h
        cases Log.step_moves hstep with
        | @write _ _ _ passed hnone hp hb =>
            obtain ⟨_, hup, _⟩ := (sound run).runs (p := p) (by rw [hp]; trivial)
            obtain ⟨hstage, _⟩ := logWrite_frame sb (u.change p (Log.pass passed b) b d) b
            exact absurd (hstage.trans hup) hbusy

/-- How many steps are left at most. -/
def Stage.left : Stage → Nat
  | .up => 0
  | .clear => 1
  | .reclear => 1
  | .install tail => LOGSIZE - tail + 2
  | .reinstall tail => LOGSIZE - tail + 2
  | .writeHead => LOGSIZE + 3
  | .readHead => LOGSIZE + 3
  | .writeLog tail => LOGSIZE - tail + LOGSIZE + 4

/-- `commit` and `recover_from_log` can go on until they are over, and each step
brings them nearer to the end. -/
theorem LogPhase.goes_on (hfits : FitsLog sb blocks) (hcoherent : Coherent sb s)
    (h : LogPhase sb old new blocks s) (hbusy : s.stage ≠ .up) :
    ∃ t, s.diskStep sb = some t ∧ t.stage.left < s.stage.left := by
  have hshort : s.lh.length ≤ LOGSIZE := by
    rcases h.lh_cases with hlh | hlh
    · rw [hlh]
      exact hfits.header
    · rw [hlh]
      exact Nat.zero_le _
  have htail : ∀ {tail b}, s.lh[tail]? = some b → tail < LOGSIZE := by
    intro tail b hb
    obtain ⟨hlt, _⟩ := List.getElem?_eq_some_iff.mp hb
    omega
  cases hstage : s.stage with
  | up => exact absurd hstage hbusy
  | writeLog tail | install tail | reinstall tail =>
      simp only [LogStore.diskStep, hstage]
      cases hb : s.lh[tail]? with
      | none => exact ⟨_, rfl, by simp only [Stage.left]; omega⟩
      | some b =>
          have hlt := htail hb
          exact ⟨_, rfl, by simp only [Stage.left]; omega⟩
  | writeHead | clear | reclear =>
      simp only [LogStore.diskStep, hstage]
      exact ⟨_, rfl, by simp only [Stage.left]; omega⟩
  | readHead =>
      obtain ⟨lh, hlh⟩ : ∃ lh, readHeader (s.bread sb.logstart) = some lh := by
        rw [hcoherent _ sb.header_not_home]
        rcases h.onDisk with hsettled | hcounts
        · exact ⟨[], readHeader_empty hsettled.1⟩
        · exact ⟨blocks, hcounts.header⟩
      simp only [LogStore.diskStep, hstage, hlh]
      exact ⟨_, rfl, by simp only [Stage.left]; omega⟩

/-- **Commit and recovery come to an end**, if no crash comes in between: from
every state of a run some steps of the disk lead to one in which neither
runs. -/
theorem comes_up {s : Log n} (run : Run (logging sb n) past s) :
    ∃ k t, (logging sb n).exec s (List.replicate k .disk) = some t ∧ t.stage = .up := by
  induction hleft : s.stage.left using Nat.strong_induction_on generalizing past s with
  | _ left ih =>
      by_cases hup : s.stage = .up
      · exact ⟨0, s, rfl, hup⟩
      · obtain ⟨old, new, blocks, hfits, hphase⟩ := (sound run).busy hup
        obtain ⟨store, hstore, hless⟩ := hphase.goes_on hfits (sound run).coherent hup
        have hstep : (logging sb n).step s .disk = some { s with toLogStore := store } := by
          simp [logging, Log.step, steady run hup, hstore]
        obtain ⟨k, t, hrest, ht⟩ := ih store.stage.left (by omega) (run.step hstep) rfl
        refine ⟨k + 1, t, ?_, ht⟩
        rw [List.replicate_succ, Machine.exec, hstep]
        exact hrest

/-! ### The result -/

/-- **Commits are atomic.**  Take any run to the beginning of a commit, in
`s₀`, and any steps from there until neither `commit` nor `recover_from_log`
runs, in `t`, with crashes at any point of either.  Then the blocks outside the
log are all as they were in `s₀`, or those of the transaction have the contents
they had in the buffer cache of `s₀` and all others are as they were; and the
log is empty. -/
theorem commit_atomic {s₀ t : Log n} (run : Run (logging sb n) past s₀)
    (hbegin : s₀.stage = .writeLog 0) (hunder : Underway sb s₀ t) (hup : t.stage = .up) :
    EmptyLog sb t.disk ∧
      ((∀ b, sb.Home b → t.disk b = s₀.disk b) ∨
        ∀ b, sb.Home b → t.disk b = if b ∈ s₀.lh then s₀.bread b else s₀.disk b) := by
  have hsound := sound run
  have hstage : s₀.stage ≠ .up := by simp [hbegin]
  obtain ⟨old, new, blocks, hfits, hphase⟩ := hsound.busy hstage
  have hstart : FitsLog sb s₀.lh ∧ LogPhase sb s₀.disk s₀.bread s₀.lh s₀.toLogStore :=
    hphase.atBegin hfits hbegin
  have hbusy : Busy sb s₀.disk s₀.bread s₀.lh s₀ :=
    ⟨hstart.2, hsound.coherent, hsound.idle (hsound.alone (Or.inr hstage))⟩
  exact (hbusy.underway hstart.1 hunder).phase.settled hup

/-- Run these events as long as `commit` or `recover_from_log` runs. -/
def during (sb : Superblock) : Log n → List (LogEvent n) → Option (Log n)
  | s, [] => some s
  | s, e :: rest =>
      if s.stage = .up then none else (s.step sb e).bind fun t => during sb t rest

theorem Underway.during {s₀ s t : Log n} (h : Underway sb s₀ s) {es : List (LogEvent n)}
    (hduring : during sb s es = some t) : Underway sb s₀ t := by
  induction es generalizing s with
  | nil =>
      obtain rfl := Option.some.inj hduring
      exact h
  | cons e rest ih =>
      simp only [Xv6.during, Option.ite_none_left_eq_some, Option.bind_eq_some_iff] at hduring
      obtain ⟨hbusy, u, hstep, hrest⟩ := hduring
      exact ih (h.step hbusy hstep) hrest

/-- Boot with an empty log, and change block `100` in an operation of its own. -/
def oneChange : List (LogEvent 1) :=
  [.disk, .disk, .disk, .begin 0, .write 0 100 (fun _ => 7), .endOp 0]

/-- Crash after the header is written, again while the block is installed, and
recover. -/
def twoCrashes : List (LogEvent 1) :=
  [.disk, .disk, .disk, .crash, .disk, .disk, .crash, .disk, .disk, .disk, .disk]

/-- The theorem at a change that survives two crashes. -/
theorem commit_atomic_crashed : ∃ past, ∃ s₀ t : Log 1, Run (logging mkfs 1) past s₀ ∧
    t.disk 100 0 = 7 ∧ EmptyLog mkfs t.disk ∧
      ((∀ b, mkfs.Home b → t.disk b = s₀.disk b) ∨
        ∀ b, mkfs.Home b → t.disk b = if b ∈ s₀.lh then s₀.bread b else s₀.disk b) := by
  obtain ⟨past, s₀, run, hbegin, hcrash⟩ := Machine.exists_run_of_trace (M := logging mkfs 1)
    (s := Log.boot fun _ _ => 0) ⟨_, rfl, rfl⟩ oneChange
    (fun _ s => s.stage = .writeLog 0 ∧ (during mkfs s twoCrashes).any
      (fun t => decide (t.stage = .up ∧ t.disk 100 0 = 7)) = true) (by decide)
  obtain ⟨t, ht, hdone⟩ := (Option.any_eq_true _ _).mp hcrash
  obtain ⟨hup, hnew⟩ := of_decide_eq_true hdone
  exact ⟨past, s₀, t, run, hnew, commit_atomic run hbegin (Underway.start.during ht) hup⟩

end Xv6
