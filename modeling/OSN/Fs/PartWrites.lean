import OSN.Fs.Files

/-!
# Writes that fail part-way

`either_copyin` moves what it can into the buffer before it fails, and `writei` then leaves
the loop without `log_write`.  The return value does not count these bytes.  They do no
harm where they are what the file had, or where nobody sees them.
-/

namespace Fs

variable {n n₁ n₂ n' : Node} {src : Nat → Option UInt8} {off left m tot inum k : Nat}

/-- Where in the source the pass begins in which it ends, after `k` bytes. -/
def lastPass (off k : Nat) : Nat := (off + k) / BSIZE * BSIZE - off

/-- If the source ends early, what the last pass has moved is what the file had, in a block
that was there: as far as the file goes, or all of it if the block is not in the log. -/
def Node.Harmless (n : Node) (src : Nat → Option UInt8) (off m : Nat) : Prop :=
  ¬ n.Refuses off m → (readable src 0 m).length < m →
    ∀ i, lastPass off (readable src 0 m).length ≤ i → i < (readable src 0 m).length →
      n.blk ((off + i) / BSIZE) ≠ 0 →
      (off + i < n.ip.size.toNat ∨ n.blk ((off + i) / BSIZE) ∉ n.lh) →
      src i = some (n.byte (off + i))

/-! ### Where the source ends -/

theorem readable_stops (h : (readable src tot m).length < m) :
    src (tot + (readable src tot m).length) = none := by
  induction m generalizing tot with
  | zero => exact absurd h (Nat.not_lt_zero _)
  | succ m ih =>
      cases hx : src tot with
      | none =>
          rw [readable_succ, hx]
          exact hx
      | some x =>
          have hcons : readable src tot (m + 1) = x :: readable src (tot + 1) m := by
            rw [readable_succ, hx]
          rw [hcons, List.length_cons] at h ⊢
          rw [← ih (Nat.lt_of_succ_lt_succ h)]
          congr 1
          omega

/-- The length of what is moved. -/
theorem readable_length_eq (hk : k < m) (hsome : ∀ i < k, (src (tot + i)).isSome)
    (hstop : src (tot + k) = none) : (readable src tot m).length = k := by
  by_contra hne
  rcases Nat.lt_or_gt_of_ne hne with hless | hmore
  · have hnone : src (tot + (readable src tot m).length) = none :=
      readable_stops (Nat.lt_trans hless hk)
    have hthere := hsome _ hless
    rw [hnone] at hthere
    cases hthere
  · have hget := readable_get hmore
    rw [hstop] at hget
    cases hget

/-- The pass that is cut short is the last one. -/
theorem CutShort.length (hcut : CutShort src tot (off + tot) (m - tot) n n₁ n') (hlt : tot < m)
    (hsome : ∀ i < tot, (src i).isSome) :
    (readable src 0 m).length =
      tot + (readable src tot (chunk (off + tot) (m - tot))).length := by
  have hshort := hcut.short
  have hchunk : chunk (off + tot) (m - tot) ≤ m - tot := chunk_le
  refine readable_length_eq (by omega) (fun i hi => ?_) ?_
  · rw [Nat.zero_add]
    by_cases hbefore : i < tot
    · exact hsome i hbefore
    · obtain ⟨j, rfl⟩ := Nat.exists_eq_add_of_le (Nat.le_of_not_lt hbefore)
      have hj : j < (readable src tot (chunk (off + tot) (m - tot))).length := by omega
      rw [readable_get hj]
      rfl
  · rw [Nat.zero_add]
    exact readable_stops hshort

theorem lastPass_eq (haligned : tot = 0 ∨ (off + tot) % BSIZE = 0)
    (hk : (off + tot) % BSIZE + k < BSIZE) : lastPass off (tot + k) = tot := by
  unfold lastPass
  rw [← Nat.add_assoc, (div_mod_of_room hk).1]
  unfold BSIZE at *
  omega

/-! ### What is seen of a write -/

section Seen

variable {ι : Type} {own : Place → ι} {f : ι → UInt32}

/-- The source has what has been written. -/
theorem Wrote.readable_length (hw : Wrote own f inum src off m n tot n') :
    (readable src 0 tot).length = tot :=
  readable_full fun i hi => by
    rw [Nat.zero_add, hw.wrote i hi]
    rfl

/-- The file that `writei` reports is no longer than the one it has written. -/
theorem Wrote.overwrite_length (hw : Wrote own f inum src off m n tot n') :
    (Bytes.overwrite n.file off (readable src 0 tot)).length = n'.ip.size.toNat := by
  rw [Bytes.overwrite_length (by rw [Node.file_length]; exact hw.start), Node.file_length,
    hw.readable_length, hw.size]

/-- The file is what `writei` reports if the bytes around are what they were. -/
theorem Wrote.file_iff (hw : Wrote own f inum src off m n tot n') :
    n'.file = Bytes.overwrite n.file off (readable src 0 tot) ↔
      ∀ p < n.ip.size.toNat, p < off ∨ off + tot ≤ p → n'.byte p = n.byte p := by
  have hlength := hw.readable_length
  unfold Node.file
  rw [Bytes.slice_eq_overwrite hw.start]
  constructor
  · intro h p hp hout
    exact h.2.2 p hp (by rwa [hlength])
  · refine fun h => ⟨by rw [hlength]; exact hw.size, fun i hi => ?_, fun p hp hout => ?_⟩
    · have hsrc := readable_get hi
      rw [Nat.zero_add, hw.wrote i (hlength ▸ hi)] at hsrc
      exact Option.some.inj hsrc
    · rw [hlength] at hout
      exact h p hp hout

/-- What the pass that is cut short has done to the file. -/
theorem CutShort.bytes (hcut : CutShort src tot (off + tot) left n n₂ n₁)
    (h₂ : Held own f n₂) :
    (∀ i (hi : i < (readable src tot (chunk (off + tot) left)).length),
        n₁.byte (off + tot + i) = (readable src tot (chunk (off + tot) left))[i]) ∧
      ∀ p, p < off + tot ∨
          off + tot + (readable src tot (chunk (off + tot) left)).length ≤ p →
        n₁.byte p = n₂.byte p := by
  have hroom : (off + tot) % BSIZE + chunk (off + tot) left ≤ BSIZE := chunk_room
  have hshort := hcut.short
  refine WroteBlock.splice h₂ hcut.mapped (by omega) ?_
  rw [hcut.stored]
  exact ⟨rfl, rfl, rfl⟩

/-- The block of the last pass is in the log only if it was, or if it is new. -/
theorem WholePasses.not_logged (hwhole : WholePasses own f src 0 off m n tot n₂) (hlt : tot < m)
    (hold : n.blk ((off + tot) / BSIZE) ≠ 0) (hnot : n.blk ((off + tot) / BSIZE) ∉ n.lh) :
    n.blk ((off + tot) / BSIZE) ∉ n₂.lh := by
  refine fun hmem => hnot (hwhole.ahead _ ?_ hold hmem)
  rcases hwhole.aligned with hzero | hall | hblock
  · exact Or.inl hzero
  · omega
  · rw [Nat.sub_zero] at hblock ⊢
    right
    unfold BSIZE at *
    omega

/-- **When a write that is cut short is what it reports.** -/
theorem WriteTook.cutShort_iff (h : Held own f n) (hfull : Full n.block n.ip)
    (hw : Wrote own f inum src off m n tot n')
    (hwhole : WholePasses own f src 0 off m n tot n₂) (hlt : tot < m)
    (hcut : CutShort src tot (off + tot) (m - tot) n n₂ n₁) (hafter : Afterwards n₁ n')
    (hsb : n₁.sb = n.sb) (href : ¬ n.Refuses off m) :
    (n'.file = Bytes.overwrite n.file off (readable src 0 tot) ∧
      ∀ c, n'.block c ≠ n.block c → c ∈ n'.lh) ↔ n.Harmless src off m := by
  obtain ⟨⟨f₂, h₂, hquiet₂⟩, hheader₂, hblk₂, -, -, -, hkept₂, hwrote₂, -⟩ := hwhole.written
  rw [Nat.sub_zero] at hkept₂
  have hlength := hcut.length hlt fun i hi => by
    rw [hw.wrote i hi]
    rfl
  have hroom : (off + tot) % BSIZE + chunk (off + tot) (m - tot) ≤ BSIZE := chunk_room
  have hshort := hcut.short
  have hlast : lastPass off (readable src 0 m).length = tot := by
    rw [hlength]
    refine lastPass_eq ?_ (by omega)
    rcases hwhole.aligned with hzero | hall | hblock
    · exact Or.inl hzero
    · omega
    · exact Or.inr (by rwa [Nat.sub_zero] at hblock)
  obtain ⟨hinside, houtside⟩ := hcut.bytes h₂
  have hchunk : chunk (off + tot) (m - tot) ≤ m - tot := chunk_le
  -- the bytes of the last pass
  have hsrc : ∀ i, tot ≤ i → i < (readable src 0 m).length →
      (off + i) / BSIZE = (off + tot) / BSIZE ∧ src i = some (n₁.byte (off + i)) := by
    intro i hlow hhigh
    obtain ⟨j, rfl⟩ := Nat.exists_eq_add_of_le hlow
    have hj : j < (readable src tot (chunk (off + tot) (m - tot))).length := by omega
    rw [← Nat.add_assoc, hinside j hj]
    exact ⟨(div_mod_of_room (by omega)).1, readable_get hj⟩
  rw [hw.file_iff, Node.Harmless, hlast]
  constructor
  · rintro ⟨hfile, hlog⟩ - - i hlow hhigh hold hseen
    obtain ⟨hdiv, hi⟩ := hsrc i hlow hhigh
    rw [hi, ← hafter.byte]
    rcases hseen with hsize | hnot
    · rw [hfile _ hsize (Or.inr (by omega))]
    · rw [hdiv] at hnot hold
      have hsame : n'.block (n.blk ((off + tot) / BSIZE)) =
          n.block (n.blk ((off + tot) / BSIZE)) := by
        by_contra hne
        rcases hafter.only _ (hlog _ hne) with hmem | hdata
        · rw [hcut.stored] at hmem
          exact hwhole.not_logged hlt hold hnot hmem
        · rw [hsb] at hdata
          exact hdata (h.isData_blk hold)
      rw [Node.byte_eq, Node.byte_eq, hdiv, hw.blk _ hold, if_neg hold, if_neg hold, hsame]
  · intro hharm
    have hmoved : ∀ i, tot ≤ i → i < (readable src 0 m).length →
        n.blk ((off + i) / BSIZE) ≠ 0 →
        (off + i < n.ip.size.toNat ∨ n.blk ((off + i) / BSIZE) ∉ n.lh) →
        n₁.byte (off + i) = n.byte (off + i) := by
      intro i hlow hhigh hold hseen
      have hsame := hharm href (by omega) i hlow hhigh hold hseen
      rw [(hsrc i hlow hhigh).2] at hsame
      exact Option.some.inj hsame
    refine ⟨fun p hp hout => ?_, fun c hc => ?_⟩
    · rw [hafter.byte]
      by_cases hin : off + tot ≤ p ∧ p < off + (readable src 0 m).length
      · obtain ⟨i, rfl⟩ := Nat.exists_eq_add_of_le (show off ≤ p by omega)
        have hdiv := Nat.div_mul_le_self (off + i) BSIZE
        exact hmoved i (by omega) (by omega) (hfull _ (by omega)) (Or.inl hp)
      · rw [houtside p (by omega), hkept₂ p (by omega)]
    · by_contra hnot
      have hnot₁ : c ∉ n₁.lh := fun hmem => hnot (hafter.kept c hmem)
      have hc₁ : n'.block c = n₁.block c := by
        by_contra hne
        exact hnot (hafter.changed c hne)
      rw [hcut.stored] at hnot₁ hc₁
      have hc₂ : n₂.block c = n.block c := by
        by_contra hne
        exact hnot₁ (hwhole.changed c hne)
      refine hc (hc₁.trans (Eq.trans ?_ hc₂))
      -- only the block of the last pass is left
      by_cases hself : c = n₂.blk ((off + tot) / BSIZE)
      · subst hself
        have hold : n.blk ((off + tot) / BSIZE) ≠ 0 := fun hnone => hnot₁ (hcut.fresh hnone)
        have hsame := hblk₂ _ hold
        have hnot : n.blk ((off + tot) / BSIZE) ∉ n.lh :=
          fun hmem => hnot₁ (hsame ▸ hwhole.kept _ hmem)
        refine (Function.update_self _ _ _).trans (Bytes.splice_self fun i hi => ?_)
        obtain ⟨hdiv, hmod⟩ : (off + tot + i) / BSIZE = (off + tot) / BSIZE ∧
            (off + tot + i) % BSIZE = (off + tot) % BSIZE + i := div_mod_of_room (by omega)
        have hbyte := hmoved (tot + i) (by omega) (by omega)
        rw [← Nat.add_assoc, hdiv] at hbyte
        rw [← hinside i hi, hbyte hold (Or.inr hnot), ← hkept₂ _ (by omega), Node.byte_eq, hdiv,
          hmod, hsame, if_neg hold]
      · exact Function.update_of_ne hself _ _

/-- **When a write is what it reports.** -/
theorem WriteTook.reports_iff (h : Held own f n) (hfull : Full n.block n.ip)
    (hw : WriteTook own f inum src off m n tot n') (href : ¬ n.Refuses off m) :
    (n'.file = Bytes.overwrite n.file off (readable src 0 tot) ∧
      ∀ c, n'.block c ≠ n.block c → c ∈ n'.lh) ↔ n.Harmless src off m := by
  obtain ⟨hwrote, n₁, hloop, hafter⟩ := hw
  obtain ⟨n₂, hwhole, hend⟩ := hloop.passes
  rw [Nat.zero_add, Nat.sub_zero] at hend
  rcases hend with ⟨rfl, rfl⟩ | ⟨hlt, hcut⟩
  · refine iff_of_true ⟨hwrote.file_iff.mpr fun p _ hout => hwrote.kept p hout, fun c hc => ?_⟩
      fun _ hshort => ?_
    · by_cases hsame : n'.block c = n₁.block c
      · exact hafter.kept c (hwhole.changed c (hsame ▸ hc))
      · exact hafter.changed c hsame
    · rw [hwrote.readable_length] at hshort
      exact absurd hshort (Nat.lt_irrefl _)
  · obtain ⟨f₂, h₂, hquiet₂⟩ := hwhole.written.held
    have hsb : n₁.sb = n.sb := by
      rw [hcut.stored]
      exact hquiet₂.sb
    exact WriteTook.cutShort_iff h hfull hwrote hwhole hlt hcut hafter hsb href

end Seen

/-! ### In the file system -/

open FileSys

variable {s t : FileSys} {loose : List UInt32} {i : Fin NINODE} {r : Int}

/-- The file is what `writei` reports, and what it has changed is in the log. -/
def Reported (s : FileSys) (i : Fin NINODE) (src : Nat → Option UInt8) (off : Nat) (r : Int)
    (t : FileSys) : Prop :=
  (t.nodeOf i).ReadsAs (Bytes.overwrite (s.nodeOf i).file off (readable src 0 r.toNat)) ∧
    ∀ c, t.block c ≠ s.block c → c ∈ t.lh

theorem nodeOf_set (n : Node) : ((FileSys.node i).set n s).nodeOf i = n := by
  unfold nodeOf FileSys.node
  dsimp only
  rw [Function.update_self]

/-- **A write that fails part-way changes only what it reports** if and only if the bytes
that its last pass has moved do no harm. -/
theorem writei_reported_iff (h : s.Owned loose) (hi : (s.inode i).Holds inum)
    (hfull : Full s.block (s.inode i).toDinode)
    (hrun : FsM.node i (writei inum src off m) s = .ok r t) :
    Reported s i src off r t ↔ (s.nodeOf i).Harmless src off m := by
  have hheld := h.held hi
  have hwrite : Ends (FsM.node i (writei inum src off m)) s (fun r t =>
      Reported s i src off r t ↔ (s.nodeOf i).Harmless src off m) fun _ _ => True := by
    rw [node_iff]
    refine (hheld.writei_takes (h.range_of_holds hi)).mono ?_ fun _ _ _ => trivial
    rintro r n' (⟨rfl, rfl, href⟩ | ⟨tot, rfl, href, hw⟩)
    · rw [node_set_self]
      refine iff_of_true ⟨?_, fun c hc => absurd rfl hc⟩ fun hnot => absurd href hnot
      change (s.nodeOf i).ReadsAs (Bytes.overwrite _ off [])
      rw [Bytes.overwrite_nil]
      exact Full.readsAs hfull
    · have hlength : (Bytes.overwrite (s.nodeOf i).file off (readable src 0 tot)).length < 2 ^ 32 := by
        rw [hw.wrote.overwrite_length]
        exact n'.ip.size.toNat_lt
      rw [← hw.reports_iff hheld hfull href, Reported, nodeOf_set, Int.toNat_natCast,
        Full.readsAs_iff (hw.wrote.full_of_full hfull) hlength]
      rfl
  exact hwrite.ok hrun

instance (block : UInt32 → Block) (dip : Dinode) : Decidable (Full block dip) :=
  decidable_of_iff (∀ bn < dip.size.toNat / BSIZE + 1, bn * BSIZE < dip.size.toNat →
      blockOf block dip bn ≠ 0) <| by
    refine ⟨fun h bn hbn => h bn ?_ hbn, fun h bn _ hbn => h bn hbn⟩
    unfold BSIZE at *
    omega

/-- Three bytes are written to a file, and another transaction begins. -/
def sevens : List BlockCall :=
  [.beginOp, .iget 1, .ilock 0, .writei 0 (fun _ => some 7) 0 3, .endOp, .beginOp]

/-- Entry 0 holds inode 1, whose file has no hole. -/
def Ready (past : Past (FileSys × List UInt32) BlockCall) (s : FileSys × List UInt32) : Prop :=
  Machine.StepsMeet (fun past s c => c.WrittenBack past s) past ∧ (s.1.inode 0).Holds 1 ∧
    Full s.1.block (s.1.inode 0).toDinode

instance (past : Past (FileSys × List UInt32) BlockCall) (s : FileSys × List UInt32) :
    Decidable (Ready past s) := by
  unfold Ready
  infer_instance

/-- Two bytes of the file are written. -/
theorem writei_reports_two : ∃ s t, FsM.node 0 (writei 1 (fun _ => some 9) 0 2) s = .ok 2 t ∧
    Reported s 0 (fun _ => some 9) 0 2 t := by
  obtain ⟨past, s, run, ⟨hback, hi, hfull⟩, hok⟩ :=
    Machine.exists_run_of_trace smallFs_init sevens
      (fun past s => Ready past s ∧
        Ends (FsM.node 0 (writei 1 (fun _ => some 9) 0 2)) s.1 (fun r _ => r = 2)
          fun _ _ => False) (by decide +kernel)
  obtain ⟨r, t, hrun, rfl⟩ := hok.exists_ok
  refine ⟨s.1, t, hrun, (writei_reported_iff (owned_run run hback) hi hfull hrun).mpr ?_⟩
  exact fun _ hshort => absurd hshort (by decide)

/-- The source has one byte, then its page ends. -/
def oneByte : Nat → Option UInt8 := fun i => if i = 0 then some 9 else none

/-- **A byte that is not reported**: `writei` returns 0, but the file begins with another
byte than before, and its block is not in the log. -/
theorem writei_unreported : ∃ past s loose t, Run blockCalls past (s, loose) ∧ s.Owned loose ∧
    (s.inode 0).Holds 1 ∧ Full s.block (s.inode 0).toDinode ∧
    FsM.node 0 (writei 1 oneByte 0 2) s = .ok 0 t ∧ (s.nodeOf 0).file = [7, 7, 7] ∧
    (t.nodeOf 0).file = [9, 7, 7] ∧ ¬ Reported s 0 oneByte 0 0 t := by
  obtain ⟨past, s, run, ⟨hback, hi, hfull⟩, hold, hok⟩ :=
    Machine.exists_run_of_trace smallFs_init sevens
      (fun past s => Ready past s ∧ (s.1.nodeOf 0).file = [7, 7, 7] ∧
        Ends (FsM.node 0 (writei 1 oneByte 0 2)) s.1
          (fun r t => r = 0 ∧ (t.nodeOf 0).file = [9, 7, 7] ∧ t.block 34 0 ≠ s.1.block 34 0 ∧
            34 ∉ t.lh) fun _ _ => False) (by decide +kernel)
  obtain ⟨r, t, hrun, rfl, hnew, hchanged, hnot⟩ := hok.exists_ok
  refine ⟨past, s.1, s.2, t, run, owned_run run hback, hi, hfull, hrun, hold, hnew, ?_⟩
  exact fun hreported => hnot (hreported.2 34 fun hsame => hchanged (congrFun hsame 0))

end Fs
