import OSN.Lib.Journal
import OSN.Kernel.LogSpace

/-!
# The log is a journal

`commit_atomic` follows one commit.  Over a whole run, with crashes at any point, the log is a
journal of whole operations: what lasts is what the disk holds at home blocks after recovery,
and what is read is what the buffer cache holds.  The transaction counts from the first write
of the header on, and `end_op` returns from a commit only when everything lasts.
-/

namespace Xv6

open Refinement (Simulates Stutters deeds)

variable {n : Nat} {sb : Superblock} {past : Past (Log n) (LogEvent n)}
  {s t : Log n} {e : LogEvent n} {j : Journal (Fin n) UInt32 Block} {store store' : LogStore}
  {disk durable view : UInt32 → Block} {blocks : List UInt32}

/-- A file system boots with this disk. -/
def loggingFrom (sb : Superblock) (n : Nat) (disk : UInt32 → Block) :
    Machine (Log n) (LogEvent n) where
  init s := s = Log.boot disk
  step := Log.step sb

/-- What an event is to the journal.  Of the steps of `commit` the one that writes the header
makes the transaction count. -/
def Log.deed (s : Log n) : LogEvent n → Option (Journal.Deed (Fin n) UInt32 Block)
  | .begin p => if ((s.beginOp p).op p).Runs then some (.begin p) else none
  | .write p b d => some (.write p b d)
  | .endOp p => some (.done p)
  | .disk => if s.stage = .writeHead then some .commit else none
  | .finish _ => some .synced
  | .load _ | .evict _ => none
  | .crash => some .crash

/-- `recover_from_log` runs. -/
def Stage.Recovering : Stage → Prop
  | .readHead | .reinstall _ | .reclear => True
  | _ => False

/-- Home blocks read as in the journal. -/
def Reads (sb : Superblock) (view : UInt32 → Block) (store : LogStore) : Prop :=
  ∀ b, sb.Home b → store.bread b = view b

/-- The blocks of the transaction, and no others, are not on the disk yet. -/
structure Pending (durable view : UInt32 → Block) (store : LogStore) : Prop where
  nodup : store.lh.Nodup
  pinned : ∀ b ∈ store.lh, 0 < store.refcnt b
  other : ∀ b, b ∉ store.lh → view b = durable b

/-- **What the disk and the buffer cache hold** while the journal has `durable` and `view`. -/
inductive Mirrored (sb : Superblock) (durable view : UInt32 → Block) (panicked : Option String)
    (store : LogStore) : Prop
  /-- Operations may run. -/
  | working (hstage : store.stage = .up) (hdisk : ∀ b, sb.Home b → store.disk b = durable b)
      (hreads : panicked = none → Reads sb view store ∧ Pending durable view store)
  /-- The transaction is written to the log. -/
  | writing (hstage : (∃ tail, store.stage = .writeLog tail) ∨ store.stage = .writeHead)
      (hfits : FitsLog sb store.lh) (hphase : LogPhase sb durable view store.lh store)
      (hreads : Reads sb view store) (hpending : Pending durable view store)
  /-- It counts, and is installed. -/
  | installing (tail : Nat) (hstage : store.stage = .install tail) (hfits : FitsLog sb store.lh)
      (hcounts : Counts sb durable durable store.lh tail store.disk) (hsame : view = durable)
      (hreads : Reads sb view store) (hnodup : store.lh.Nodup)
      (hpinned : ∀ b ∈ store.lh.drop tail, 0 < store.refcnt b)
  | clearing (hstage : store.stage = .clear) (hlh : store.lh = [])
      (hdisk : ∀ b, sb.Home b → store.disk b = durable b) (blocks : List UInt32)
      (hfits : FitsLog sb blocks) (hcounts : Counts sb durable durable blocks 0 store.disk)
      (hsame : view = durable) (hreads : Reads sb view store)
  | recovering (hstage : store.stage.Recovering) (blocks : List UInt32)
      (hfits : FitsLog sb blocks) (hphase : LogPhase sb durable durable blocks store)
      (hsame : view = durable) (hreads : store.bread = store.disk)

/-- **The log mirrors the journal.** -/
structure Mirrors (sb : Superblock) (s : Log n) (j : Journal (Fin n) UInt32 Block) : Prop where
  sound : Sound sb s
  inside : ∀ p, j.inside p ↔ (s.op p).Runs
  mirrored : Mirrored sb j.durable j.view s.panicked s.toLogStore

/-! ### Steps of the disk -/

/-- What is read is on the disk, also after a step of `recover_from_log`. -/
theorem bread_disk (h : store.bread = store.disk) (hstep : store.diskStep sb = some store') :
    store'.bread = store'.disk := by
  have hwrite : ∀ (b : UInt32) (d : Block), (store.bwrite b d).bread = (store.bwrite b d).disk := by
    intro b d
    funext c
    by_cases hcb : c = b
    · subst hcb
      rw [bread_bwrite_self, disk_bwrite, Function.update_self]
    · rw [bread_bwrite_of_ne store d hcb, disk_bwrite, Function.update_of_ne hcb, h]
  unfold LogStore.diskStep at hstep
  split at hstep <;> try split at hstep
  all_goals first
    | (obtain rfl := Option.some.inj hstep; exact hwrite _ _)
    | (obtain rfl := Option.some.inj hstep; exact h)
    | (obtain ⟨lh, _, rfl⟩ := Option.map_eq_some_iff.mp hstep; exact h)
    | cases hstep

theorem Reads.bwrite_log (h : Reads sb view store) {b : UInt32} (hb : ¬ sb.Home b) (d : Block) :
    Reads sb view (store.bwrite b d) := by
  intro c hc
  have hne : c ≠ b := by
    rintro rfl
    exact hb hc
  rw [bread_bwrite_of_ne store d hne]
  exact h c hc

theorem Reads.bwrite_home (h : Reads sb view store) {b : UInt32} {d : Block} (hd : d = view b) :
    Reads sb view (store.bwrite b d) := by
  intro c hc
  by_cases hcb : c = b
  · rw [hcb, bread_bwrite_self, hd]
  · rw [bread_bwrite_of_ne store _ hcb]
    exact h c hc

/-- The transaction counts: from now on its blocks are what lasts. -/
theorem Counts.settles {k : Nat} {disk : UInt32 → Block}
    (h : Counts sb durable view blocks k disk) (hother : ∀ b, b ∉ blocks → view b = durable b) :
    Counts sb view view blocks k disk := by
  refine ⟨h.header, h.logged, h.installed.written, fun b hhome hb => ?_⟩
  rw [h.installed.other b hhome hb, hother b hb]

/-- What is on the disk no longer depends on where a crash came. -/
theorem AllOrNothing.same {disk : UInt32 → Block}
    (h : AllOrNothing sb durable durable blocks disk) {b : UInt32} (hb : sb.Home b) :
    disk b = durable b := by
  rcases h.2 with hall | hall
  · exact hall b hb
  · rw [hall b hb]
    simp [redo]

/-- All blocks are installed. -/
theorem Counts.same {disk : UInt32 → Block}
    (h : Counts sb durable durable blocks blocks.length disk) {b : UInt32} (hb : sb.Home b) :
    disk b = durable b := by
  rw [h.installed.all (Nat.le_refl _) hb]
  simp [redo]

/-- The next step of `write_log` or `write_head`. -/
theorem Mirrors.writing_step (hs : Sound sb s) (hinside : ∀ p, j.inside p ↔ (s.op p).Runs)
    (hstage : (∃ tail, s.stage = .writeLog tail) ∨ s.stage = .writeHead) (hfits : FitsLog sb s.lh)
    (hphase : LogPhase sb j.durable j.view s.lh s.toLogStore)
    (hreads : Reads sb j.view s.toLogStore) (hpending : Pending j.durable j.view s.toLogStore)
    (hstep : s.diskStep sb = some store) :
    ∃ j', Stutters Journal.Step (s.deed .disk) j j' ∧
      Mirrors sb { s with toLogStore := store } j' := by
  have hsound := hs.diskStep hstep
  have hnext := hphase.diskStep hfits hs.coherent hstep
  have hkept : ∀ cache disk stage, Pending j.durable j.view
      { s.toLogStore with cache := cache, disk := disk, stage := stage } := fun _ _ _ =>
    ⟨hpending.nodup, hpending.pinned, hpending.other⟩
  rcases hstage with ⟨tail, hstage⟩ | hstage
  · have hhead : s.stage ≠ .writeHead := by simp [hstage]
    refine ⟨j, by simp [Log.deed, hhead, Stutters], hsound, hinside, ?_⟩
    simp only [LogStore.diskStep, hstage] at hstep
    cases hb : s.lh[tail]? with
    | none =>
        simp only [hb, Option.some.injEq] at hstep
        subst hstep
        exact .writing (Or.inr rfl) hfits hnext hreads (hkept _ _ _)
    | some b =>
        simp only [hb, Option.some.injEq] at hstep
        subst hstep
        obtain ⟨htail, _⟩ := List.getElem?_eq_some_iff.mp hb
        have hbody := hfits.body
        exact .writing (Or.inl ⟨_, rfl⟩) hfits hnext
          (hreads.bwrite_log (Superblock.logBlock_not_home (by omega)) _) (hkept _ _ _)
  · have hbusy : s.stage ≠ .up := by simp [hstage]
    have hnobody : ∀ p, ¬ j.inside p := fun p hp =>
      hs.idle (hs.alone (Or.inr hbusy)) p ((hinside p).mp hp)
    refine ⟨{ j with durable := j.view }, ?_, hsound, hinside, ?_⟩
    · simp only [Log.deed, hstage, ↓reduceIte]
      exact .commit hnobody
    · simp only [LogStore.diskStep, hstage, Option.some.injEq] at hstep
      subst hstep
      cases hnext with
      | install tail hinstall _ hcounts =>
          obtain rfl : 0 = tail := Stage.install.inj hinstall
          exact .installing 0 rfl hfits (hcounts.settles hpending.other) rfl
            (hreads.bwrite_log sb.header_not_home _) hpending.nodup hpending.pinned
      | writeLog _ hno | writeHead hno | clear hno | readHead hno | reinstallNone _ hno
      | reinstall _ hno | reclear hno | up hno => cases hno

/-- The next block of `install_trans(0)`, or its end. -/
theorem Mirrored.install_step {panicked : Option String} (hcoherent : Coherent sb store)
    {tail : Nat} (hstage : store.stage = .install tail) (hfits : FitsLog sb store.lh)
    (hcounts : Counts sb durable durable store.lh tail store.disk) (hsame : view = durable)
    (hreads : Reads sb view store) (hnodup : store.lh.Nodup)
    (hpinned : ∀ b ∈ store.lh.drop tail, 0 < store.refcnt b)
    (hstep : store.diskStep sb = some store') : Mirrored sb durable view panicked store' := by
  have hbody := hfits.body
  simp only [LogStore.diskStep, hstage] at hstep
  cases hb : store.lh[tail]? with
  | none =>
      simp only [hb, Option.some.injEq] at hstep
      subst hstep
      have hall := hcounts.complete (List.getElem?_eq_none_iff.mp hb)
      exact .clearing rfl rfl (fun b hhome => hall.same hhome) store.lh hfits
        ⟨hall.header, hall.logged, hall.installed.again⟩ hsame hreads
  | some b =>
      simp only [hb, Option.some.injEq] at hstep
      subst hstep
      obtain ⟨htail, hbtail⟩ := List.getElem?_eq_some_iff.mp hb
      have hlog : store.bread (sb.logBlock tail) = store.disk (sb.logBlock tail) :=
        hcoherent _ (Superblock.logBlock_not_home (by omega))
      have hnew : store.disk (sb.logBlock tail) = durable b := hcounts.logged tail b htail hb
      refine .installing (tail + 1) rfl hfits ?_ hsame ?_ hnodup ?_
      · rw [hlog]
        exact hcounts.next hfits hb
      · exact hreads.bwrite_home (by rw [hlog, hnew, hsame])
      · intro c hc
        -- no block is in the header twice, so the pins of the later ones stay
        have hdrop : store.lh.drop tail = b :: store.lh.drop (tail + 1) := by
          rw [List.drop_eq_getElem_cons htail, hbtail]
        have hrest := hnodup.sublist (List.drop_sublist tail _)
        rw [hdrop, List.nodup_cons] at hrest
        have hne : c ≠ b := by
          rintro rfl
          exact hrest.1 hc
        have hpin := hpinned c (by rw [hdrop]; exact List.mem_cons_of_mem _ hc)
        simpa [hne] using hpin

/-- The next step of `recover_from_log`. -/
theorem Mirrored.recovering_step {panicked : Option String} (hcoherent : Coherent sb store)
    (hstage : store.stage.Recovering) (hfits : FitsLog sb blocks)
    (hphase : LogPhase sb durable durable blocks store) (hsame : view = durable)
    (hreads : store.bread = store.disk) (hstep : store.diskStep sb = some store') :
    Mirrored sb durable view panicked store' := by
  have hnext := hphase.diskStep hfits hcoherent hstep
  have hreads' := bread_disk hreads hstep
  by_cases hup : store'.stage = .up
  · have hdisk : ∀ b, sb.Home b → store'.disk b = durable b :=
      fun b hb => (hnext.settled hup).same hb
    refine .working hup hdisk fun _ => ⟨fun b hb => ?_, ?_⟩
    · rw [hreads', hsame]
      exact hdisk b hb
    · have hlh := hnext.lh_nil hup
      refine ⟨?_, ?_, fun b _ => congrFun hsame b⟩
      · rw [hlh]
        exact List.nodup_nil
      · simp [hlh]
  · refine .recovering ?_ blocks hfits hnext hsame hreads'
    unfold LogStore.diskStep at hstep
    cases hs : store.stage with
    | readHead | reinstall =>
        simp only [hs] at hstep
        first
          | (obtain ⟨lh, _, rfl⟩ := Option.map_eq_some_iff.mp hstep; trivial)
          | (split at hstep <;> (obtain rfl := Option.some.inj hstep; trivial))
    | reclear =>
        simp only [hs, Option.some.injEq] at hstep
        subst hstep
        exact absurd rfl hup
    | up | writeLog | writeHead | install | clear =>
        rw [hs] at hstage
        exact hstage.elim

/-- **A step of the disk.** -/
theorem Mirrors.diskStep (h : Mirrors sb s j) (hstep : s.diskStep sb = some store) :
    ∃ j', Stutters Journal.Step (s.deed .disk) j j' ∧
      Mirrors sb { s with toLogStore := store } j' := by
  have hsound := h.sound.diskStep hstep
  obtain ⟨hs, hinside, hmirrored⟩ := h
  have hquiet : s.stage ≠ .writeHead → Mirrored sb j.durable j.view s.panicked store →
      ∃ j', Stutters Journal.Step (s.deed .disk) j j' ∧
        Mirrors sb { s with toLogStore := store } j' := fun hhead hnext =>
    ⟨j, by simp [Log.deed, hhead, Stutters], hsound, hinside, hnext⟩
  cases hmirrored with
  | working hstage => simp [LogStore.diskStep, hstage] at hstep
  | writing hstage hfits hphase hreads hpending =>
      exact Mirrors.writing_step hs hinside hstage hfits hphase hreads hpending hstep
  | installing tail hstage hfits hcounts hsame hreads hnodup hpinned =>
      exact hquiet (by simp [hstage])
        (Mirrored.install_step hs.coherent hstage hfits hcounts hsame hreads hnodup hpinned hstep)
  | clearing hstage hlh hdisk blocks hfits hcounts hsame hreads =>
      apply hquiet (by simp [hstage])
      simp only [LogStore.diskStep, hstage, Option.some.injEq] at hstep
      subst hstep
      refine .working rfl (fun b hb => (home_of_log sb.header_not_home _ hb).trans (hdisk b hb))
        fun _ => ⟨hreads.bwrite_log sb.header_not_home _, ?_⟩
      refine ⟨?_, ?_, fun b _ => congrFun hsame b⟩
      · simp [LogStore.bwrite, hlh]
      · simp [LogStore.bwrite, hlh]
  | recovering hstage blocks hfits hphase hsame hreads =>
      have hhead : s.stage ≠ .writeHead := by
        intro hhead
        rw [hhead] at hstage
        exact hstage
      exact hquiet hhead
        (Mirrored.recovering_step hs.coherent hstage hfits hphase hsame hreads hstep)

/-! ### Crashes -/

/-- **A crash** leaves what lasts. -/
theorem Mirrors.crash (h : Mirrors sb s j) :
    Mirrors sb (Log.boot (n := n) s.disk)
      { j with view := j.durable, inside := fun _ => False } := by
  have hsound : Sound sb (Log.boot (n := n) s.disk) := h.sound.step (e := .crash) rfl
  refine ⟨hsound, fun p => iff_of_false id id, ?_⟩
  have hboot : ∀ blocks, FitsLog sb blocks →
      (AllOrNothing sb j.durable j.durable blocks s.disk ∨
        Counts sb j.durable j.durable blocks 0 s.disk) →
      Mirrored sb j.durable j.durable none (LogStore.boot s.disk) := fun blocks hfits hdisk =>
    .recovering trivial blocks hfits (.readHead rfl rfl hdisk) rfl rfl
  have hkept : EmptyLog sb s.disk → (∀ b, sb.Home b → s.disk b = j.durable b) →
      Mirrored sb j.durable j.durable none (LogStore.boot s.disk) := fun hempty hdisk =>
    hboot [] (FitsLog.nil sb) (Or.inl ⟨hempty, Or.inl hdisk⟩)
  cases h.mirrored with
  | working hstage hdisk => exact hkept (h.sound.empty hstage) hdisk
  | installing tail _ hfits hcounts =>
      exact hboot s.lh hfits (Or.inr ⟨hcounts.header, hcounts.logged, hcounts.installed.again⟩)
  | clearing _ _ _ blocks hfits hcounts => exact hboot blocks hfits (Or.inr hcounts)
  | recovering _ blocks hfits hphase => exact hboot blocks hfits hphase.onDisk
  | writing hstage hfits hphase =>
      cases hphase with
      | writeLog _ _ _ hempty hold | writeHead _ _ hold hempty => exact hkept hempty hold
      | install _ hno | clear hno | readHead hno | reinstallNone _ hno | reinstall _ hno
      | reclear hno | up hno =>
          rw [hno] at hstage
          rcases hstage with ⟨tail, hstage⟩ | hstage <;> cases hstage

/-! ### Operations -/

/-- Operations run. -/
theorem Mirrored.up {panicked : Option String} (h : Mirrored sb durable view panicked store)
    (hup : store.stage = .up) : (∀ b, sb.Home b → store.disk b = durable b) ∧
      (panicked = none → Reads sb view store ∧ Pending durable view store) := by
  cases h with
  | working _ hdisk hreads => exact ⟨hdisk, hreads⟩
  | writing hstage => simp [hup] at hstage
  | installing _ hstage | clearing hstage => simp [hup] at hstage
  | recovering hstage =>
      rw [hup] at hstage
      exact hstage.elim

/-- Operations come and go. -/
theorem Mirrors.of_ops (h : Mirrors sb s j) (hstep : s.step sb e = some t)
    (hstore : t.toLogStore = s.toLogStore) (hpanicked : t.panicked = s.panicked)
    {inside : Fin n → Prop} (hinside : ∀ p, inside p ↔ (t.op p).Runs) :
    Mirrors sb t { j with inside := inside } := by
  refine ⟨h.sound.step hstep, hinside, ?_⟩
  rw [hstore, hpanicked]
  exact h.mirrored

theorem runs_update (op : FsOp) (p : Fin n) (h : ∀ p, j.inside p ↔ (s.op p).Runs) {inside : Prop}
    (hop : inside ↔ op.Runs) (q : Fin n) :
    Function.update j.inside p inside q ↔ (Function.update s.op p op q).Runs := by
  by_cases hq : q = p
  · rw [hq, Function.update_self, Function.update_self]
    exact hop
  · rw [Function.update_of_ne hq, Function.update_of_ne hq]
    exact h q

theorem runs_wakeupLog (s : Log n) (p : Fin n) : (s.wakeupLog.op p).Runs ↔ (s.op p).Runs := by
  simp only [Log.wakeupLog]
  split
  · rename_i hasleep
    simp [hasleep, FsOp.Runs]
  · exact Iff.rfl

/-- A process enters an operation or waits. -/
theorem Mirrors.begin (h : Mirrors sb s j) {p : Fin n} (hp : s.op p = .out ∨ s.op p = .begins)
    (hstep : s.step sb (.begin p) = some (s.beginOp p)) :
    ∃ j', Stutters Journal.Step (s.deed (.begin p)) j j' ∧ Mirrors sb (s.beginOp p) j' := by
  have hout : ¬ (s.op p).Runs := by rcases hp with hp | hp <;> simp [hp, FsOp.Runs]
  have hoper := h.inside
  have hwaits : s.beginOp p = s.setOp p .asleep →
      ∃ j', Stutters Journal.Step (s.deed (.begin p)) j j' ∧ Mirrors sb (s.beginOp p) j' := by
    intro heq
    refine ⟨j, by simp [Log.deed, heq, Log.setOp, FsOp.Runs, Stutters], ?_⟩
    refine h.of_ops hstep (by rw [heq]; rfl) (by rw [heq]; rfl) fun q => ?_
    rw [heq]
    have hsame := runs_update .asleep p hoper (iff_of_false (a := False) id id) q
    rwa [Function.update_eq_self_iff.mpr (eq_false fun hin => hout ((hoper p).mp hin)).symm]
      at hsame
  by_cases hcommitting : s.committing = true
  · exact hwaits (by simp [Log.beginOp, hcommitting])
  by_cases hfull : (s.lh.length : Int) + (s.outstanding + 1) * MAXOPBLOCKS > LOGSIZE
  · exact hwaits (by simp [Log.beginOp, hcommitting, hfull])
  have hbegin : s.beginOp p =
      { s.setOp p (.runs []) with outstanding := s.outstanding + 1 } := by
    simp [Log.beginOp, hcommitting, hfull]
  refine ⟨{ j with inside := Function.update j.inside p True }, ?_, ?_⟩
  · have hruns : ((s.beginOp p).op p).Runs := by
      rw [hbegin]
      simp [Log.setOp, FsOp.Runs]
    simp only [Log.deed, hruns, ↓reduceIte]
    exact .begin fun hin => hout ((hoper p).mp hin)
  · refine h.of_ops hstep (by rw [hbegin]; rfl) (by rw [hbegin]; rfl) fun q => ?_
    rw [hbegin]
    exact runs_update (.runs []) p hoper (iff_of_true trivial trivial) q

/-- An operation ends, and the last one closes the transaction. -/
theorem Mirrors.endOp (h : Mirrors sb s j) (hnone : s.panicked = none) {p : Fin n}
    (hp : (s.op p).Runs) (hstep : s.step sb (.endOp p) = some (s.endOp p)) :
    ∃ j', Stutters Journal.Step (s.deed (.endOp p)) j j' ∧ Mirrors sb (s.endOp p) j' := by
  have hsound := h.sound.step hstep
  obtain ⟨hs, hinside, hmirrored⟩ := h
  obtain ⟨_, hup, hfree⟩ := hs.runs hp
  refine ⟨_, .done ((hinside p).mpr hp), hsound, ?_, ?_⟩
  · intro q
    unfold Log.endOp
    simp only [hfree, Bool.false_eq_true, ↓reduceIte]
    split
    · exact runs_update _ _ hinside (iff_of_false id id) q
    · rw [runs_wakeupLog]
      exact runs_update _ _ hinside (iff_of_false id id) q
  · obtain ⟨hdisk, hreads⟩ := hmirrored.up hup
    obtain ⟨hreads, hpending⟩ := hreads hnone
    have hfits := (hs.working hup hnone).fits
    unfold Log.endOp
    simp only [hfree, Bool.false_eq_true, ↓reduceIte]
    split
    · by_cases hsome : 0 < s.lh.length
      · simp only [hsome, ↓reduceIte]
        refine .writing (Or.inl ⟨0, rfl⟩) hfits ?_ hreads
          ⟨hpending.nodup, hpending.pinned, hpending.other⟩
        refine .writeLog 0 rfl rfl (hs.empty hup) hdisk ?_ ?_
        · intro i b hi
          exact absurd hi (Nat.not_lt_zero i)
        · intro b hb
          exact ⟨hreads b (hfits.home b hb), hpending.pinned b hb⟩
      · simp only [hsome, ↓reduceIte]
        exact .working rfl hdisk fun _ =>
          ⟨hreads, hpending.nodup, hpending.pinned, hpending.other⟩
    · exact .working hup hdisk fun _ => ⟨hreads, hpending⟩

/-- A block is changed in an operation. -/
theorem Mirrors.write (h : Mirrors sb s j) (hnone : s.panicked = none) {p : Fin n} {b : UInt32}
    {d : Block} {passed passed' : List UInt32} (hp : s.op p = .runs passed) (hb : sb.Home b)
    (hstep : s.step sb (.write p b d) = some ((s.change p passed' b d).logWrite sb b)) :
    ∃ j', Stutters Journal.Step (s.deed (.write p b d)) j j' ∧
      Mirrors sb ((s.change p passed' b d).logWrite sb b) j' := by
  have hsound := h.sound.step hstep
  obtain ⟨hs, hinside, hmirrored⟩ := h
  have hruns : (s.op p).Runs := by
    rw [hp]
    trivial
  obtain ⟨_, hup, _⟩ := hs.runs hruns
  obtain ⟨hdisk, hreads⟩ := hmirrored.up hup
  obtain ⟨hreads, hpending⟩ := hreads hnone
  obtain ⟨hstage, _, hop, _⟩ := logWrite_frame sb (s.change p passed' b d) b
  refine ⟨_, .write ((hinside p).mpr hruns), hsound, ?_, ?_⟩
  · intro q
    rw [hop, hinside]
    by_cases hq : q = p
    · subst hq
      simp [Log.change, Log.setOp, FsOp.Runs, hp]
    · simp [Log.change, Log.setOp, hq]
  · have hchanged : Reads sb (Function.update j.view b d) (s.change p passed' b d).toLogStore := by
      intro c hc
      by_cases hcb : c = b
      · subst hcb
        simp [Log.change, LogStore.bread]
      · simpa [Log.change, LogStore.bread, Log.setOp, hcb] using hreads c hc
    have hnodup := hpending.nodup
    unfold Log.logWrite
    split
    · exact .working hup hdisk fun hpanic => (by cases hpanic)
    · split
      · exact .working hup hdisk fun hpanic => (by cases hpanic)
      · split
        next hmem =>
          refine .working hup hdisk fun _ => ⟨hchanged, hnodup, hpending.pinned, fun c hc => ?_⟩
          have hne : c ≠ b := by
            rintro rfl
            exact hc hmem
          dsimp only
          rw [Function.update_of_ne hne]
          exact hpending.other c hc
        next hmem =>
          refine .working hup hdisk fun _ => ⟨hchanged, ?_, ?_, ?_⟩
          · have hconcat := hnodup.concat hmem
            rwa [List.concat_eq_append] at hconcat
          · intro c hc
            dsimp only
            by_cases hcb : c = b
            · subst hcb
              simp
            · rw [Function.update_of_ne hcb]
              refine hpending.pinned c ((List.mem_append.mp hc).resolve_right ?_)
              simpa using hcb
          · intro c hc
            simp only [List.mem_append, List.mem_singleton, not_or] at hc
            dsimp only
            rw [Function.update_of_ne hc.2]
            exact hpending.other c hc.1

/-- `commit` has emptied the header when it is over. -/
theorem Recorded.closed (h : Recorded past s) {p : Fin n} (hp : s.op p = .commits)
    (hup : s.stage = .up) : s.lh = [] := by
  have hpos := headcount_pos (f := s.op) (Q := FsOp.Commits) hp
  have hone := h.committer
  by_cases hcommitting : s.committing = true
  · exact h.committed hcommitting hup
  · rw [if_neg hcommitting] at hone
    omega

/-- `end_op` is over after a commit: everything lasts. -/
theorem Mirrors.finish (h : Mirrors sb s j) (hnone : s.panicked = none)
    (hlh : s.lh = []) {p : Fin n} (hp : s.op p = .commits) (hup : s.stage = .up)
    (hstep : s.step sb (.finish p) =
      some { s.setOp p .out with committing := false }.wakeupLog) :
    ∃ j', Stutters Journal.Step (s.deed (.finish p)) j j' ∧
      Mirrors sb { s.setOp p .out with committing := false }.wakeupLog j' := by
  obtain ⟨-, hpending⟩ := (h.mirrored.up hup).2 hnone
  refine ⟨j, .synced ?_, ?_⟩
  · funext b
    exact (hpending.other b (by simp [hlh])).symm
  · refine h.of_ops hstep rfl rfl fun q => ?_
    have hout := runs_update .out p h.inside (iff_of_false (a := False) id id) q
    rw [runs_wakeupLog]
    have hnot : ¬ j.inside p := fun hin => by
      have := (h.inside p).mp hin
      rw [hp] at this
      exact this
    rwa [Function.update_eq_self_iff.mpr (eq_false hnot).symm] at hout

/-- A cache that reads the same where it must. -/
theorem Mirrors.of_cache (h : Mirrors sb s j) {cache : UInt32 → Option Block}
    (hsound : Sound sb { s with cache := cache })
    (hphase : ∀ old new blocks, LogPhase sb old new blocks s.toLogStore →
      LogPhase sb old new blocks { s.toLogStore with cache := cache })
    (hread : ∀ b, ({ s.toLogStore with cache := cache } : LogStore).bread b = s.bread b ∨
      ({ s.toLogStore with cache := cache } : LogStore).bread b = s.disk b ∧ s.refcnt b = 0)
    (hnone : s.panicked = none) : Mirrors sb { s with cache := cache } j := by
  obtain ⟨hs, hinside, hmirrored⟩ := h
  refine ⟨hsound, hinside, ?_⟩
  -- a block that is read anew is not pinned, so what is on the disk is what was read
  have hsame : Reads sb j.view s.toLogStore →
      (∀ b, sb.Home b → s.refcnt b = 0 → s.disk b = j.view b) →
      Reads sb j.view { s.toLogStore with cache := cache } := by
    intro hreads hdisk b hb
    rcases hread b with hsame | ⟨hanew, hfree⟩
    · exact hsame.trans (hreads b hb)
    · exact hanew.trans (hdisk b hb hfree)
  have hpinned : Pending j.durable j.view s.toLogStore →
      (∀ b, sb.Home b → s.disk b = j.durable b) →
      ∀ b, sb.Home b → s.refcnt b = 0 → s.disk b = j.view b := by
    intro hpending hdisk b hb hfree
    rw [hdisk b hb, hpending.other b]
    intro hmem
    have hpin := hpending.pinned b hmem
    omega
  cases hmirrored with
  | working hstage hdisk hreads =>
      obtain ⟨hreads, hpending⟩ := hreads hnone
      exact .working hstage hdisk fun _ => ⟨hsame hreads (hpinned hpending hdisk),
        hpending.nodup, hpending.pinned, hpending.other⟩
  | writing hstage hfits hph hreads hpending =>
      refine .writing hstage hfits (hphase _ _ _ hph) (hsame hreads (hpinned hpending ?_))
        ⟨hpending.nodup, hpending.pinned, hpending.other⟩
      cases hph with
      | writeLog _ _ _ _ hold | writeHead _ _ hold => exact hold
      | install _ hno | clear hno | readHead hno | reinstallNone _ hno | reinstall _ hno
      | reclear hno | up hno =>
          rw [hno] at hstage
          rcases hstage with ⟨tail, hstage⟩ | hstage <;> cases hstage
  | installing tail hstage hfits hcounts hsame' hreads hnodup hpin =>
      refine .installing tail hstage hfits hcounts hsame' (hsame hreads ?_) hnodup hpin
      intro b hb hfree
      rw [hsame']
      by_cases hmem : b ∈ s.lh
      · refine hcounts.installed.written b ?_
        rw [← List.take_append_drop tail s.lh] at hmem
        refine (List.mem_append.mp hmem).resolve_right fun hdrop => ?_
        have hpos := hpin b hdrop
        omega
      · exact hcounts.installed.other b hb hmem
  | clearing hstage hlh hdisk blocks hfits hcounts hsame' hreads =>
      exact .clearing hstage hlh hdisk blocks hfits hcounts hsame'
        (hsame hreads fun b hb _ => by rw [hsame', hdisk b hb])
  | recovering hstage blocks hfits hph hsame' hreads =>
      refine .recovering hstage blocks hfits (hphase _ _ _ hph) hsame' ?_
      funext b
      rcases hread b with hsame | ⟨hanew, -⟩
      · exact hsame.trans (congrFun hreads b)
      · exact hanew

/-- **Every step of the log is one of the journal, or nothing to it.** -/
theorem Mirrors.step (h : Mirrors sb s j) (hrecorded : Recorded past s)
    (hstep : s.step sb e = some t) :
    ∃ j', Stutters Journal.Step (s.deed e) j j' ∧ Mirrors sb t j' := by
  cases Log.step_moves hstep with
  | crash => exact ⟨_, .crash, h.crash⟩
  | begin _ hp => exact h.begin hp hstep
  | write hnone hp hb => exact h.write hnone hp hb hstep
  | endOp hnone hp => exact h.endOp hnone (by rw [hp]; trivial) hstep
  | disk _ hstore => exact h.diskStep hstore
  | finish hnone hp hup => exact h.finish hnone (hrecorded.closed hp hup) hp hup hstep
  | @load b hnone =>
      refine ⟨j, rfl, h.of_cache (h.sound.step hstep) (fun _ _ _ hphase => hphase.load b)
        (fun c => Or.inl (bread_load s.toLogStore b c)) hnone⟩
  | @evict b hnone hfree =>
      refine ⟨j, rfl, h.of_cache (h.sound.step hstep) (fun _ _ _ hphase => hphase.evict hfree)
        (fun c => ?_) hnone⟩
      by_cases hcb : c = b
      · subst hcb
        exact Or.inr ⟨by simp [LogStore.bread], hfree⟩
      · exact Or.inl (by simp [LogStore.bread, hcb])

/-! ### The result -/

theorem loggingFrom_run (hempty : EmptyLog sb disk) (run : Run (loggingFrom sb n disk) past s) :
    Run (logging sb n) past s := by
  induction run with
  | init h => exact .init ⟨disk, h, hempty⟩
  | step _ hstep ih => exact ih.step hstep

/-- **The log is a journal.** -/
theorem simulates (hempty : EmptyLog sb disk) :
    Simulates (loggingFrom sb n disk) (· = Journal.opens disk) Journal.Step Log.deed
      fun s j => (∃ past, Run (logging sb n) past s) ∧ Mirrors sb s j := by
  constructor
  · rintro s rfl
    refine ⟨_, rfl, ⟨[], .init ⟨disk, rfl, hempty⟩⟩, ?_⟩
    refine ⟨Sound.boot (boot_phase hempty), fun p => iff_of_false id id, ?_⟩
    exact .recovering trivial [] (FitsLog.nil sb)
      (.readHead rfl rfl (Or.inl ⟨hempty, Or.inl fun _ _ => rfl⟩)) rfl rfl
  · rintro s t j e ⟨⟨past, run⟩, h⟩ hstep
    obtain ⟨j', hdeed, hnext⟩ := h.step (recorded run) hstep
    exact ⟨j', hdeed, ⟨_, run.step hstep⟩, hnext⟩

/-- Whatever is under way but recovery, home blocks read as in the journal. -/
theorem Mirrors.reads (h : Mirrors sb s j) (hstage : ¬ s.stage.Recovering)
    (hnone : s.panicked = none) : Reads sb j.view s.toLogStore := by
  cases h.mirrored with
  | working _ _ hreads => exact (hreads hnone).1
  | writing _ _ _ hreads => exact hreads
  | installing _ _ _ _ _ hreads => exact hreads
  | clearing _ _ _ _ _ _ _ hreads => exact hreads
  | recovering hrecovers => exact absurd hrecovers hstage

/-- **The log is a journal** over whole runs, with crashes at any point: its events are deeds
of a journal, in which `end_op` returns from a commit only when everything lasts.  What a
process reads is what the journal reads, and while neither `commit` nor `recover_from_log` runs
the home blocks on the disk hold what lasts. -/
theorem log_journal (hempty : EmptyLog sb disk) (run : Run (loggingFrom sb n disk) past s) :
    ∃ j, Journal.Makes disk (deeds Log.deed past) j ∧ (∀ p, j.inside p ↔ (s.op p).Runs) ∧
      (¬ s.stage.Recovering → s.panicked = none → ∀ b, sb.Home b → s.bread b = j.view b) ∧
      (s.stage = .up → ∀ b, sb.Home b → s.disk b = j.durable b) := by
  obtain ⟨j, hmakes, -, hmirrors⟩ := (simulates hempty).run run
  exact ⟨j, hmakes, hmirrors.inside, hmirrors.reads, fun hup => (hmirrors.mirrored.up hup).1⟩

/-- **Recovery keeps whole operations.**  After any run, once neither `commit` nor
`recover_from_log` runs, the home blocks on the disk are what some of the operations, in their
order, would have made of the first disk alone, without a crash and each from `begin_op` to
`end_op`: those whose deeds `survivors` picks. -/
theorem whole_operations (hempty : EmptyLog sb disk) (run : Run (loggingFrom sb n disk) past s)
    (hup : s.stage = .up) :
    ∃ kept u, kept = (Journal.survivors (deeds Log.deed past)).2 ∧
      kept.Sublist (deeds Log.deed past) ∧ (∀ d ∈ kept, d.Plain) ∧ Journal.Makes disk kept u ∧
      (∀ p, ¬ u.inside p) ∧ ∀ b, sb.Home b → s.disk b = u.view b := by
  obtain ⟨j, hmakes, -, hmirrors⟩ := (simulates hempty).run run
  obtain ⟨u, hu, hview, hnobody⟩ := (Journal.survivors_make hmakes).2
  refine ⟨_, u, rfl, (Journal.survivors_sublist _).2, (Journal.survivors_plain _).2, hu, hnobody,
    fun b hb => ?_⟩
  rw [hview]
  exact (hmirrors.mirrored.up hup).1 b hb

/-- An operation changes block `100`, and is committed; the next one changes block `101`, and
the machine crashes before its header is written. -/
def oneLost : List (LogEvent 1) :=
  [.disk, .disk, .disk, .begin 0, .write 0 100 (fun _ => 7), .endOp 0] ++
    List.replicate 6 .disk ++
    [.finish 0, .begin 0, .write 0 101 (fun _ => 9), .endOp 0, .disk, .crash, .disk, .disk, .disk]

theorem blank_log : EmptyLog mkfs fun _ _ => 0 := rfl

/-- The theorem at these operations: the first one is kept. -/
theorem log_journal_lost : ∃ past, ∃ s : Log 1, ∃ j : Journal (Fin 1) UInt32 Block,
    Journal.Makes (fun _ _ => 0) (deeds Log.deed past) j ∧ s.disk 100 0 = 7 ∧
      s.disk 101 0 = 0 ∧ j.durable 100 0 = 7 := by
  obtain ⟨past, s, run, hup, hseven, hzero⟩ := Machine.exists_run_of_trace
    (M := loggingFrom mkfs 1 fun _ _ => 0) (s := Log.boot fun _ _ => 0) rfl oneLost
    (fun _ s => s.stage = .up ∧ s.disk 100 0 = 7 ∧ s.disk 101 0 = 0) (by decide)
  obtain ⟨j, hmakes, -, -, hlasts⟩ := log_journal blank_log run
  exact ⟨past, s, j, hmakes, hseven, hzero, by rw [← hlasts hup 100 (by decide), hseven]⟩

/-- The theorem at these operations: the second one is gone. -/
theorem whole_operations_lost : ∃ past, ∃ s : Log 1, ∃ kept, ∃ u : Journal (Fin 1) UInt32 Block,
    s.stage = .up ∧ kept = (Journal.survivors (deeds Log.deed past)).2 ∧
      Journal.Makes (fun _ _ => 0) kept u ∧ u.view 100 0 = 7 ∧ u.view 101 0 = 0 := by
  obtain ⟨past, s, run, hup, hseven, hzero⟩ := Machine.exists_run_of_trace
    (M := loggingFrom mkfs 1 fun _ _ => 0) (s := Log.boot fun _ _ => 0) rfl oneLost
    (fun _ s => s.stage = .up ∧ s.disk 100 0 = 7 ∧ s.disk 101 0 = 0) (by decide)
  obtain ⟨kept, u, hkept, -, -, hmakes, -, hdisk⟩ := whole_operations blank_log run hup
  exact ⟨past, s, kept, u, hup, hkept, hmakes, by rw [← hdisk 100 (by decide), hseven],
    by rw [← hdisk 101 (by decide), hzero]⟩

end Xv6
