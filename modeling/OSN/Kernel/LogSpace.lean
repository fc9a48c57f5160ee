import OSN.Kernel.LogAtomic

/-!
# Room in the log

`begin_op` admits an operation if the log has room for `MAXOPBLOCKS` blocks of
it and of each operation that runs, and it counts on `LOGSIZE` blocks.  The log
that `mkfs` makes has `LOGSIZE` blocks with its header, so one less for data,
and `log_write` panics when these are used up, even at a block that is in the
transaction already.  So three operations that together pass 30 different
blocks are admitted and panic at the last one.

The header in memory is the list of the different blocks passed since the last
commit (`Recorded`).  That makes the exact condition one on the calls alone.
-/

namespace Xv6

variable {n : Nat} {sb : Superblock} {s t : Log n} {e : LogEvent n}
  {past : Past (Log n) (LogEvent n)}

/-- The different blocks passed to `log_write` since the last commit, or since
the machine booted. -/
def transaction : Past (Log n) (LogEvent n) → List UInt32
  | [] => []
  | (_, .write _ b _) :: past => Log.pass (transaction past) b
  | (_, .finish _) :: _ => []
  | (_, .crash) :: _ => []
  | _ :: past => transaction past

/-- **The operations fit the log**: no panic of `log_write`, and no more blocks
in the header than the log has for data. -/
def OpsFit (sb : Superblock) (s : Log n) : Prop :=
  s.panicked ≠ some "too big a transaction" ∧ s.panicked ≠ some "log_write outside of trans" ∧
    s.lh.length ≤ sb.nlog - 1

instance (sb : Superblock) (s : Log n) : Decidable (OpsFit sb s) := by
  unfold OpsFit
  infer_instance

/-- `log_write` is called before the transaction has as many blocks as the log
has for data. -/
def HasRoom (sb : Superblock) (past : Past (Log n) (LogEvent n)) (_ : Log n) (e : LogEvent n) :
    Prop :=
  ∀ p b d, e = .write p b d → (transaction past).length < sb.nlog - 1

/-! ### The header in memory -/

/-- Who is in `end_op` with `do_commit` set. -/
abbrev FsOp.Commits (op : FsOp) : Prop := op = .commits

/-- **What the header in memory records**: the transaction, until it is
committed. -/
structure Recorded (past : Past (Log n) (LogEvent n)) (s : Log n) : Prop where
  /-- One process commits at a time. -/
  committer : headcount s.op FsOp.Commits = if s.committing then 1 else 0
  /-- A commit that is over has emptied the header. -/
  committed : s.committing = true → s.stage = .up → s.lh = []
  working : s.committing = false → s.stage = .up → s.panicked = none → s.lh = transaction past
  recovering : s.committing = false → s.stage ≠ .up → transaction past = []

/-- Only the disk and the cache change. -/
theorem Recorded.of_disk (h : Recorded past s) {store : LogStore}
    (hpast : transaction ((s, e) :: past) = transaction past)
    (hlh : store.stage = .up → s.stage = .up → store.lh = s.lh)
    (hover : store.stage = .up → s.stage ≠ .up → store.lh = [])
    (hbegin : store.stage ≠ .up → s.stage ≠ .up) :
    Recorded ((s, e) :: past) { s with toLogStore := store } := by
  constructor
  · exact h.committer
  · intro hcommitting hup
    by_cases hs : s.stage = .up
    · exact (hlh hup hs).trans (h.committed hcommitting hs)
    · exact hover hup hs
  · intro hfree hup hnone
    rw [hpast]
    by_cases hs : s.stage = .up
    · exact (hlh hup hs).trans (h.working hfree hs hnone)
    · rw [h.recovering hfree hs]
      exact hover hup hs
  · intro hfree hup
    rw [hpast]
    exact h.recovering hfree (hbegin hup)

/-- Operations move, and `commit` begins for none of them. -/
theorem Recorded.of_ops (h : Recorded past s)
    (hpast : transaction ((s, e) :: past) = transaction past)
    (hstore : t.toLogStore = s.toLogStore) (hcommitting : t.committing = s.committing)
    (hheadcount : headcount t.op FsOp.Commits = headcount s.op FsOp.Commits)
    (hpanicked : t.panicked = none → s.panicked = none) : Recorded ((s, e) :: past) t := by
  obtain ⟨hcommitter, hcommitted, hworking, hrecovering⟩ := h
  rw [← hcommitting, ← hstore] at hcommitted hworking hrecovering
  rw [← hpast] at hworking hrecovering
  constructor
  · rw [hheadcount, hcommitting]
    exact hcommitter
  · exact hcommitted
  · intro hfree hup hnone
    exact hworking hfree hup (hpanicked hnone)
  · exact hrecovering

theorem headcount_commits_wakeupLog (s : Log n) :
    headcount s.wakeupLog.op FsOp.Commits = headcount s.op FsOp.Commits := by
  apply headcount_congr
  intro p
  simp only [Log.wakeupLog]
  split
  · rename_i hasleep
    simp [hasleep, FsOp.Commits]
  · rfl

/-- `log_write` that does not panic records the block. -/
theorem logWrite_records (b : UInt32) (hnone : (s.logWrite sb b).panicked = none) :
    (s.logWrite sb b).lh = Log.pass s.lh b := by
  unfold Log.logWrite at hnone ⊢
  unfold Log.pass
  split at hnone
  · cases hnone
  · split at hnone
    · cases hnone
    · rename_i hroom hinside
      simp only [hroom, hinside, ↓reduceIte]
      split <;> rfl

theorem Recorded.write (h : Recorded past s) (hsound : Sound sb s) (hnone : s.panicked = none)
    {p : Fin n} {passed : List UInt32} (hp : s.op p = .runs passed) (b : UInt32) (d : Block) :
    Recorded ((s, .write p b d) :: past)
      ((s.change p (Log.pass passed b) b d).logWrite sb b) := by
  obtain ⟨_, hup, hfree⟩ := hsound.runs (p := p) (by rw [hp]; trivial)
  obtain ⟨hstage, hcommitting, hop, _⟩ :=
    logWrite_frame sb (s.change p (Log.pass passed b) b d) b
  have hsame : headcount (s.change p (Log.pass passed b) b d).op FsOp.Commits =
      headcount s.op FsOp.Commits := headcount_update_same (by simp [hp, FsOp.Commits])
  constructor
  · rw [hop, hcommitting, hsame]
    exact h.committer
  · intro hcommits
    rw [hcommitting] at hcommits
    exact absurd (hfree.symm.trans hcommits) Bool.false_ne_true
  · intro _ _ hnopanic
    rw [logWrite_records b hnopanic]
    exact congrArg (fun lh => Log.pass lh b) (h.working hfree hup hnone)
  · intro _ hbusy
    rw [hstage] at hbusy
    exact absurd hup hbusy

theorem Recorded.endOp (h : Recorded past s) (hsound : Sound sb s) {p : Fin n}
    {passed : List UInt32} (hp : s.op p = .runs passed) :
    Recorded ((s, .endOp p) :: past) (s.endOp p) := by
  obtain ⟨_, hup, hfree⟩ := hsound.runs (p := p) (by rw [hp]; trivial)
  have hnobody : headcount s.op FsOp.Commits = 0 := by
    rw [h.committer, hfree]
    rfl
  have hnot : ¬ (s.op p).Commits := by simp [hp]
  unfold Log.endOp
  simp only [hfree, Bool.false_eq_true, ↓reduceIte]
  split
  · have henter : headcount (Function.update s.op p .commits) FsOp.Commits =
        headcount s.op FsOp.Commits + 1 := headcount_update_enter hnot rfl
    constructor
    · simp only [Log.setOp, henter, hnobody, ↓reduceIte]
    · intro _ hidle
      by_cases hsome : 0 < s.lh.length
      · simp [hsome] at hidle
      · exact List.length_eq_zero_iff.mp (Nat.eq_zero_of_not_pos hsome)
    · intro hcommits
      cases hcommits
    · intro hcommits
      cases hcommits
  · apply h.of_ops
    · rfl
    · rfl
    · exact hfree.symm
    · rw [headcount_commits_wakeupLog]
      exact headcount_update_same (by simp [hp, FsOp.Commits])
    · exact id

theorem Recorded.finish (h : Recorded past s) {p : Fin n} (hp : s.op p = .commits)
    (hup : s.stage = .up) :
    Recorded ((s, .finish p) :: past)
      { s.setOp p .out with committing := false }.wakeupLog := by
  have hpos := headcount_pos (f := s.op) (Q := FsOp.Commits) hp
  have hone := h.committer
  have hcommitting : s.committing = true := by
    by_contra hfree
    rw [if_neg hfree] at hone
    omega
  rw [hcommitting, if_pos rfl] at hone
  have hleave : headcount (Function.update s.op p .out) FsOp.Commits + 1 =
      headcount s.op FsOp.Commits :=
    headcount_update_leave hp (by simp [FsOp.Commits])
  constructor
  · rw [headcount_commits_wakeupLog]
    have hnobody : headcount (Function.update s.op p .out) FsOp.Commits = 0 := by omega
    exact hnobody
  · intro hcommits
    cases hcommits
  · intro _ _ _
    exact h.committed hcommitting hup
  · intro _ hbusy
    exact absurd hup hbusy

theorem Recorded.step (h : Recorded past s) (hsound : Sound sb s) (hstep : s.step sb e = some t) :
    Recorded ((s, e) :: past) t := by
  cases Log.step_moves hstep with
  | crash =>
      constructor
      · exact headcount_eq_zero fun p => by simp [Log.boot, FsOp.Commits]
      · intro hcommits
        cases hcommits
      · intro _ hup
        cases hup
      · intro _ _
        rfl
  | @begin p hnone hp hup =>
      have hnot : ¬ (s.op p).Commits := by
        rcases hp with hp | hp <;> simp [hp, FsOp.Commits]
      have hsame : ∀ op, ¬ FsOp.Commits op →
          headcount (Function.update s.op p op) FsOp.Commits = headcount s.op FsOp.Commits :=
        fun op hop => headcount_update_same (iff_of_false hop hnot)
      unfold Log.beginOp
      split
      · exact h.of_ops rfl rfl rfl (hsame _ (by simp [FsOp.Commits])) id
      · split
        · exact h.of_ops rfl rfl rfl (hsame _ (by simp [FsOp.Commits])) id
        · exact h.of_ops rfl rfl rfl (hsame _ (by simp [FsOp.Commits])) id
  | @write p b d passed hnone hp hb => exact h.write hsound hnone hp b d
  | endOp hnone hp => exact h.endOp hsound hp
  | @disk store hnone hstore =>
      have hbusy : s.stage ≠ .up := by
        intro hup
        simp [LogStore.diskStep, hup] at hstore
      obtain ⟨old, new, blocks, hfits, hphase⟩ := hsound.busy hbusy
      have hnext := hphase.diskStep hfits hsound.coherent hstore
      apply h.of_disk
      · rfl
      · intro _ hup
        exact absurd hup hbusy
      · intro hup _
        exact hnext.lh_nil hup
      · intro _
        exact hbusy
  | finish _ hp hup => exact h.finish hp hup
  | load | evict =>
      apply h.of_disk
      · rfl
      · intro _ _
        rfl
      · intro hup hbusy
        exact absurd hup hbusy
      · exact id

theorem recorded (run : Run (logging sb n) past s) : Recorded past s := by
  apply run.invariant (P := Recorded)
  · intro s hs
    obtain ⟨disk, hboot, _⟩ := hs
    subst hboot
    constructor
    · exact headcount_eq_zero fun p => by simp [Log.boot, FsOp.Commits]
    · intro hcommits
      cases hcommits
    · intro _ hup
      cases hup
    · intro _ _
      rfl
  · intro past s e t run h hstep
    exact h.step (sound run) hstep

/-! ### When operations fit -/

/-- As long as the kernel has not panicked the header has no more blocks than
the log has for data. -/
theorem Sound.lh_le (h : Sound sb s) (hnone : s.panicked = none) :
    s.lh.length ≤ sb.nlog - 1 := by
  by_cases hup : s.stage = .up
  · have hbody := (h.working hup hnone).fits.body
    omega
  · obtain ⟨old, new, blocks, hfits, hphase⟩ := h.busy hup
    have hbody := hfits.body
    rcases hphase.lh_cases with hlh | hlh
    · rw [hlh]
      omega
    · rw [hlh]
      exact Nat.zero_le _

theorem Sound.opsFit (h : Sound sb s) (hnone : s.panicked = none) : OpsFit sb s := by
  refine ⟨?_, ?_, h.lh_le hnone⟩
  · simp [hnone]
  · simp [hnone]

/-- The blocks that the log of `mkfs` has for data: one less than the header
has room for. -/
theorem mkfs_data : mkfs.nlog - 1 = 29 ∧ LOGSIZE = 30 := ⟨rfl, rfl⟩

/-- `log_write` in an operation panics just when the log is full. -/
theorem logWrite_fits (b : UInt32) (hnone : s.panicked = none) (hinside : 0 < s.outstanding) :
    (s.logWrite mkfs b).panicked = none ↔ s.lh.length < mkfs.nlog - 1 := by
  have hdata : ((mkfs.nlog : Nat) : Int) = 30 := rfl
  obtain ⟨hless, hmax⟩ := mkfs_data
  unfold Log.logWrite
  split
  · rename_i hfull
    constructor
    · intro hpanic
      cases hpanic
    · intro hroom
      omega
  · rename_i hroom
    rw [if_neg (by omega)]
    constructor
    · intro _
      omega
    · intro _
      split <;> exact hnone

/-- A panic of `log_write` is one of two. -/
theorem logWrite_panics (sb : Superblock) (s : Log n) (b : UInt32) :
    (s.logWrite sb b).panicked = some "too big a transaction" ∨
      (s.logWrite sb b).panicked = some "log_write outside of trans" ∨
        (s.logWrite sb b).panicked = s.panicked := by
  unfold Log.logWrite
  split
  · exact Or.inl rfl
  · split
    · exact Or.inr (Or.inl rfl)
    · split <;> exact Or.inr (Or.inr rfl)

/-- A step leaves the operations fitting just when `log_write` has room. -/
theorem opsFit_step (run : Run (logging mkfs n) past s) (h : s.step mkfs e = some t) :
    OpsFit mkfs t ↔ HasRoom mkfs past s e := by
  have hsound := sound run
  have hnext := hsound.step h
  by_cases he : ∃ p b d, e = .write p b d
  · obtain ⟨p, b, d, he⟩ := he
    subst he
    cases Log.step_moves h with
    | @write p b d passed hnone hp hb =>
        obtain ⟨hinside, hup, hfree⟩ := hsound.runs (p := p) (by rw [hp]; trivial)
        have hlh := (recorded run).working hfree hup hnone
        have hfits := logWrite_fits (s := s.change p (Log.pass passed b) b d) b hnone hinside
        have hroom : HasRoom mkfs past s (.write p b d) ↔ s.lh.length < mkfs.nlog - 1 := by
          rw [hlh]
          constructor
          · intro hroom
            exact hroom p b d rfl
          · intro hroom _ _ _ _
            exact hroom
        rw [hroom]
        constructor
        · intro hfit
          apply hfits.mp
          rcases logWrite_panics mkfs (s.change p (Log.pass passed b) b d) b with
            hbig | hout | hsame
          · exact absurd hbig hfit.1
          · exact absurd hout hfit.2.1
          · exact hsame.trans hnone
        · intro hless
          exact hnext.opsFit (hfits.mpr hless)
  · have hother : ∀ p b d, e ≠ .write p b d := fun p b d heq => he ⟨p, b, d, heq⟩
    constructor
    · intro _ p b d heq
      exact absurd heq (hother p b d)
    · intro _
      exact hnext.opsFit (step_panicked hsound h hother)

/-! ### The result -/

/-- **When admitted operations fit the log.**  In every state of a run on a
file system that `mkfs` has made, just when `log_write` is never called after
29 different blocks have been passed to it since the last commit. -/
theorem opsFit_iff (run : Run (logging mkfs n) past s) :
    Machine.Throughout (OpsFit mkfs) past s ↔ Machine.StepsMeet (HasRoom mkfs) past := by
  apply run.throughout_iff
  · intro s hs
    obtain ⟨disk, hboot, _⟩ := hs
    subst hboot
    refine ⟨?_, ?_, Nat.zero_le _⟩
    · simp [Log.boot]
    · simp [Log.boot]
  · intro past s e t run _ _ h
    exact opsFit_step run h

/-- The theorem at an operation that changes one block. -/
theorem opsFit_iff_change : ∃ past, ∃ s : Log 1, Run (logging mkfs 1) past s ∧
    s.lh = [100] ∧
      (Machine.Throughout (OpsFit mkfs) past s ↔ Machine.StepsMeet (HasRoom mkfs) past) := by
  obtain ⟨past, s, run, hlh⟩ := Machine.exists_run_of_trace (M := logging mkfs 1)
    (s := Log.boot fun _ _ => 0) ⟨_, rfl, rfl⟩
    [.disk, .disk, .disk, .begin 0, .write 0 100 (fun _ => 7)] (fun _ s => s.lh = [100])
    (by decide)
  exact ⟨past, s, run, hlh, opsFit_iff run⟩

/-- Three operations that are admitted and change ten blocks each. -/
def thirtyChanges : List (LogEvent 3) :=
  [.disk, .disk, .disk, .begin 0, .begin 1, .begin 2] ++
    (List.range 30).map fun i => .write (Fin.ofNat 3 (i / 10)) (UInt32.ofNat (100 + i)) fun _ => 0

/-- The last of the thirty changes panics. -/
theorem too_big : ¬ ∀ (n : Nat) past (s : Log n), Run (logging mkfs n) past s → OpsFit mkfs s := by
  intro hfit
  obtain ⟨past, s, run, hpanic⟩ := Machine.exists_run_of_trace (M := logging mkfs 3)
    (s := Log.boot fun _ _ => 0) ⟨_, rfl, rfl⟩ thirtyChanges
    (fun _ s => s.panicked = some "too big a transaction") (by decide)
  exact (hfit 3 past s run).1 hpanic

end Xv6
