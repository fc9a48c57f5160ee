import OSN.Fs.Accounts
import OSN.Fs.Contents

/-!
# The passes of `writei`

A pass of the loop maps a block, writes to it and passes it to `log_write`.  A pass whose
source ends early has moved what there was into the buffer, and the loop stops before
`log_write`.  So the loop is a number of whole passes, after which all that has changed is
in the log, and perhaps one more store (`CutShort`).
-/

namespace Fs

variable {ι : Type} {own : Place → ι} {f f' : ι → UInt32} {n n₁ n' : Node} {b : UInt32}
  {src : Nat → Option UInt8} {off left tot r bn : Nat} {t : Disk}

/-- The number of blocks of a file that some bytes lie in. -/
def span (off left : Nat) : Nat := if left = 0 then 0 else (off % BSIZE + left - 1) / BSIZE + 1

/-- The blocks of a file that some bytes lie in. -/
def touched (off left : Nat) : List Nat := List.range' (off / BSIZE) (span off left)

/-- The blocks that are to be allocated for some blocks of the file. -/
def Node.missingOf (n : Node) (bns : List Nat) : Nat :=
  bns.countP (fun bn => n.blk bn = 0) +
    if (∃ bn ∈ bns, NDIRECT ≤ bn) ∧ n.ip.addrs indirect = 0 then 1 else 0

theorem span_succ (h : left ≠ 0) :
    span off left = span (off + chunk off left) (left - chunk off left) + 1 := by
  unfold span chunk
  rw [if_neg h]
  unfold BSIZE
  split <;> omega

theorem touched_cons (h : left ≠ 0) :
    touched off left = off / BSIZE :: touched (off + chunk off left) (left - chunk off left) := by
  unfold touched
  rw [span_succ h, List.range'_succ]
  by_cases hlast : left - chunk off left = 0
  · rw [hlast]
    rfl
  · have hnext : (off + chunk off left) / BSIZE = off / BSIZE + 1 := by
      unfold chunk at *
      unfold BSIZE at *
      omega
    rw [hnext]

/-- A block of the file is in the log only if it has been passed to `log_write`. -/
theorem Held.not_mayLog (h : Held own f n) (hbn : n.blk bn ≠ 0) : ¬ n.MayLog (n.blk bn) := by
  have hlt : bn < MAXFILE := Node.lt_of_blk hbn
  rw [Node.blk_eq hlt] at hbn ⊢
  rintro (hdata | hused | hind)
  · exact hdata (h.isData hbn)
  · exact hused (h.used hbn)
  · exact filePlace_ne_indirect bn (h.addr_inj hbn
      (show n.addr (filePlace bn) = n.addr (.inl indirect) from hind))

/-- Where a block behind the indirect block is mapped, there is an indirect block. -/
theorem Mapped.indirect_ne (h : Mapped own f n (filePlace bn) b n') (hhigh : NDIRECT ≤ bn) :
    n'.ip.addrs indirect ≠ 0 := by
  intro hzero
  have haddr := h.addr
  rw [filePlace, dif_neg (Nat.not_lt.mpr hhigh)] at haddr
  exact h.ne_zero (haddr.symm.trans (if_pos hzero))

/-- **`bmap` leaves fewer blocks to allocate**, by as many as it has allocated. -/
theorem BmapTook.missingOf (h : BmapTook n bn b n') (hmap : Mapped own f n (filePlace bn) b n')
    (bns : List Nat) (hok : n.missingOf (bn :: bns) ≤ n.toDisk.freeCount) :
    n'.missingOf bns ≤ n'.toDisk.freeCount := by
  have hgrown := hmap.grown
  have hcount := h.freeCount
  have hrest : bns.countP (fun bn => n'.blk bn = 0) ≤ bns.countP (fun bn => n.blk bn = 0) := by
    apply List.countP_mono_left
    intro bn _ hzero
    simp only [decide_eq_true_eq] at hzero ⊢
    by_contra hne
    rw [hgrown.blk hne] at hzero
    exact hne hzero
  have hind : n'.ip.addrs indirect = 0 → n.ip.addrs indirect = 0 := by
    intro hzero
    by_contra hne
    have hsame : n'.ip.addrs indirect = n.ip.addrs indirect := hgrown.addr (.inl indirect) hne
    exact hne (hsame ▸ hzero)
  simp only [Node.missingOf, List.countP_cons, decide_eq_true_eq, List.mem_cons,
    exists_eq_or_imp] at hok ⊢
  unfold Node.missing at hcount
  by_cases hhigh : NDIRECT ≤ bn
  · have hne := hmap.indirect_ne hhigh
    rw [if_neg (fun hboth => hne hboth.2)]
    simp only [hhigh, true_or, true_and] at hok hcount
    omega
  · simp only [hhigh, false_or, false_and, if_false] at hok hcount
    have hle : (if (∃ bn ∈ bns, NDIRECT ≤ bn) ∧ n'.ip.addrs indirect = 0 then 1 else 0) ≤
        if (∃ bn ∈ bns, NDIRECT ≤ bn) ∧ n.ip.addrs indirect = 0 then 1 else 0 := by
      split
      next hboth => rw [if_pos ⟨hboth.1, hind hboth.2⟩]
      next => exact Nat.zero_le _
    omega

/-- And those it allocates are there. -/
theorem missing_le {bns : List Nat} (hok : n.missingOf (bn :: bns) ≤ n.toDisk.freeCount) :
    n.missing bn ≤ n.toDisk.freeCount := by
  refine Nat.le_trans ?_ hok
  simp only [Node.missingOf, Node.missing, List.countP_cons, decide_eq_true_eq, List.mem_cons,
    exists_eq_or_imp]
  by_cases hhigh : NDIRECT ≤ bn
  · simp only [hhigh, true_or, true_and]
    omega
  · simp only [hhigh, false_and, if_false]
    omega

/-! ### A whole pass -/

/-- What a whole pass at block `bn` has taken. -/
structure PassTook (n : Node) (bn : Nat) (n' : Node) : Prop where
  sb : n'.sb = n.sb
  outstanding : n'.outstanding = n.outstanding
  kept : ∀ c ∈ n.lh, c ∈ n'.lh
  changed : ∀ c, n'.block c ≠ n.block c → c ∈ n'.lh
  ahead : ∀ bn', bn' ≠ bn → n.blk bn' ≠ 0 → n.blk bn' ∈ n'.lh → n.blk bn' ∈ n.lh
  others : ∀ bn', bn' ≠ bn → n'.blk bn' = n.blk bn'
  length : n'.lh.length + n'.indirectCost ≤ n.lh.length + n.indirectCost + 2

theorem BmapTook.pass {data : Block} (h : BmapTook n bn b n₁) (hheld : Held own f n)
    (hmap : Mapped own f n (filePlace bn) b n₁) (hbn : bn < MAXFILE)
    (hu : Entered b (n₁.toDisk.write b data) t) : PassTook n bn ⟨t, n₁.ip⟩ := by
  have hlogged := hu.logged
  obtain ⟨⟨f₁, h₁, -⟩, hgrown, haddr, hne⟩ := hmap
  have hb : n₁.blk bn = b := (Node.blk_eq hbn).trans haddr
  have hw : WroteBlock n₁ bn data ⟨t, n₁.ip⟩ := ⟨hu.same.sb, rfl, by rw [hb]; exact hu.same.block⟩
  constructor
  · exact hlogged.sb.trans h.logged.sb
  · exact hlogged.outstanding.trans h.logged.outstanding
  · intro c hc
    exact hlogged.kept c (h.logged.kept c hc)
  · intro c hc
    by_cases hsame : t.block c = n₁.block c
    · exact hlogged.kept c (h.logged.changed c (hsame ▸ hc))
    · exact hlogged.changed c hsame
  · intro bn' hne hold hmem
    have hblk := hgrown.blk hold
    rcases hlogged.only _ hmem with hbefore | hself
    · exact (h.logged.only _ hbefore).resolve_right (hheld.not_mayLog hold)
    · refine absurd (h₁.blk_inj (hblk ▸ hold) ?_) hne
      rw [hblk, hb]
      exact hself
  · intro bn' hbn'
    rw [hw.blk h₁ (hb ▸ hne), h.others bn' hbn']
  · have hcost : (⟨t, n₁.ip⟩ : Node).indirectCost ≤ n₁.indirectCost :=
      indirectCost_le rfl hlogged.kept
    have hlength := h.length
    change t.lh.length + _ ≤ _
    by_cases hzero : n.blk bn = 0
    · have habsorbed : t.lh = n₁.lh := hu.absorbed (h.mem hzero)
      rw [if_pos hzero] at hlength
      rw [habsorbed]
      omega
    · have hone : t.lh.length ≤ n₁.lh.length + 1 := hu.length
      rw [if_neg hzero] at hlength
      omega

/-- A write to a block of the file changes nothing for what is to be allocated. -/
theorem missingOf_write {data : Block} (h : Held own f n) (hbn : n.blk bn ≠ 0)
    (hw : WroteBlock n bn data n') (bns : List Nat) : n'.missingOf bns = n.missingOf bns ∧
      n'.toDisk.freeCount = n.toDisk.freeCount := by
  have hdata : n.sb.IsData (n.blk bn) := h.isData_blk hbn
  have hsame : (n.toDisk.write (n.blk bn) data).SameBlocks n'.toDisk := ⟨hw.sb, hw.block⟩
  constructor
  · unfold Node.missingOf
    rw [hw.ip]
    simp only [hw.blk h hbn]
  · rw [hsame.freeCount, Disk.freeCount_write h.sound.layout hdata.offBitmap]

/-! ### The loop -/

/-- The passes that were whole: they have moved `r - tot` bytes. -/
structure WholePasses (own : Place → ι) (f : ι → UInt32) (src : Nat → Option UInt8)
    (tot off left : Nat) (n : Node) (r : Nat) (n' : Node) : Prop where
  written : Written own f src tot off (r - tot) n r n'
  le : r ≤ tot + left
  kept : ∀ c ∈ n.lh, c ∈ n'.lh
  changed : ∀ c, n'.block c ≠ n.block c → c ∈ n'.lh
  ahead : ∀ bn, r = tot ∨ off + (r - tot) ≤ bn * BSIZE → n.blk bn ≠ 0 → n.blk bn ∈ n'.lh →
    n.blk bn ∈ n.lh
  aligned : r = tot ∨ r = tot + left ∨ (off + (r - tot)) % BSIZE = 0

/-- The last pass, at `off`: its source has ended, and what there was is in the buffer. -/
structure CutShort (src : Nat → Option UInt8) (r off left : Nat) (n n₁ n' : Node) : Prop where
  short : (readable src r (chunk off left)).length < chunk off left
  mapped : n₁.blk (off / BSIZE) ≠ 0
  fresh : n.blk (off / BSIZE) = 0 → n₁.blk (off / BSIZE) ∈ n₁.lh
  stored : n' = ⟨n₁.toDisk.write (n₁.blk (off / BSIZE))
    (Bytes.splice (n₁.block (n₁.blk (off / BSIZE))) (off % BSIZE)
      (readable src r (chunk off left))), n₁.ip⟩

/-- What the loop has done and taken. -/
structure LoopTook (own : Place → ι) (f : ι → UInt32) (src : Nat → Option UInt8)
    (tot off left : Nat) (n : Node) (r : Nat) (n' : Node) : Prop where
  passes : ∃ n₁, WholePasses own f src tot off left n r n₁ ∧
    (n' = n₁ ∧ r = tot + left ∨
      r < tot + left ∧ CutShort src r (off + (r - tot)) (tot + left - r) n n₁ n')
  outstanding : n'.outstanding = n.outstanding
  length : n'.lh.length + n'.indirectCost ≤ n.lh.length + n.indirectCost + 2 * span off left

/-- Nothing has been moved yet. -/
theorem WholePasses.nothing (h : Held own f n) : WholePasses own f src tot off left n tot n where
  written := by
    rw [Nat.sub_self]
    exact .nothing h
  le := Nat.le_add_right _ _
  kept := fun _ hc => hc
  changed := fun _ hc => absurd rfl hc
  ahead := fun _ _ _ hmem => hmem
  aligned := Or.inl rfl

/-- A block has been mapped, and nothing more. -/
theorem BmapTook.whole (h : BmapTook n bn b n₁) (hheld : Held own f n)
    (hmap : Mapped own f n (filePlace bn) b n₁) :
    WholePasses own f src tot off left n tot n₁ where
  written := by
    obtain ⟨hheld', hgrown, -, -⟩ := hmap
    rw [Nat.sub_self]
    exact ⟨hheld', hgrown.header, fun _ hold => hgrown.blk hold, Nat.le_refl _, Nat.le_refl _,
      fun p hp hlt => by omega, fun p _ => hgrown.byte p, fun i hi => by omega, fun _ => rfl⟩
  le := Nat.le_add_right _ _
  kept := h.logged.kept
  changed := h.logged.changed
  ahead := fun _ _ hold hmem => (h.logged.only _ hmem).resolve_right (hheld.not_mayLog hold)
  aligned := Or.inl rfl

/-- The offset at which a pass ends that is not the last one. -/
theorem chunk_aligned (h : chunk off left < left) :
    off + chunk off left = (off / BSIZE + 1) * BSIZE := by
  unfold chunk at *
  unfold BSIZE at *
  omega

/-- A pass has the same bytes in every stretch that reaches as far. -/
theorem chunk_eq {l : Nat} (hlow : chunk off left ≤ l) (hhigh : l ≤ left) :
    chunk off l = chunk off left := by
  unfold chunk at *
  omega

/-- **A whole pass and the rest of them.** -/
theorem WholePasses.cons {f₁ : ι → UInt32} (hmore : left ≠ 0) (htook : PassTook n (off / BSIZE) n₁)
    (hpass : ∀ l, chunk off left ≤ l → l ≤ left → Pass own f src tot off l n n₁)
    (hquiet : Quiet own f f₁ n n₁)
    (hlength : (readable src tot (chunk off left)).length = chunk off left)
    (h : WholePasses own f₁ src (tot + chunk off left) (off + chunk off left)
      (left - chunk off left) n₁ r n') :
    WholePasses own f src tot off left n r n' := by
  have hpos : 0 < chunk off left := chunk_pos hmore
  have hchunk : chunk off left ≤ left := chunk_le
  have hge := h.written.ge
  have hle : r ≤ tot + left := by
    have hle := h.le
    omega
  have heq : chunk off (r - tot) = chunk off left := chunk_eq (by omega) (by omega)
  have hafter : off + chunk off left + (r - (tot + chunk off left)) = off + (r - tot) := by omega
  refine ⟨?_, hle, fun c hc => h.kept c (htook.kept c hc), ?_, ?_, ?_⟩
  · refine (hpass (r - tot) (by omega) (by omega)).cons hquiet (by rw [heq]; exact hlength) ?_
    rw [heq, show r - tot - chunk off left = r - (tot + chunk off left) by omega]
    exact h.written
  · intro c hc
    by_cases hsame : n'.block c = n₁.block c
    · exact h.kept c (htook.changed c (hsame ▸ hc))
    · exact h.changed c hsame
  · intro bn hbn hold hmem
    have hne : bn ≠ off / BSIZE := by
      have hdiv := Nat.div_mul_le_self off BSIZE
      rintro rfl
      omega
    have hblk := htook.others bn hne
    refine htook.ahead bn hne hold ?_
    rw [← hblk] at hold hmem ⊢
    exact h.ahead bn (Or.inr (by omega)) hold hmem
  · rcases h.aligned with hfirst | hlast | hblock
    · by_cases hlast : chunk off left = left
      · omega
      · rw [← hafter, hfirst, Nat.sub_self, Nat.add_zero, chunk_aligned (by omega)]
        exact Or.inr (Or.inr (Nat.mul_mod_left _ _))
    · omega
    · rw [hafter] at hblock
      exact Or.inr (Or.inr hblock)

/-- The last pass is on a block that the first one has not touched. -/
theorem CutShort.cons {n₂ : Node} (htook : PassTook n (off / BSIZE) n₁)
    (hge : tot + chunk off left ≤ r) (hlt : r < tot + left)
    (h : CutShort src r (off + (r - tot)) (tot + left - r) n₁ n₂ n') :
    CutShort src r (off + (r - tot)) (tot + left - r) n n₂ n' := by
  refine { h with fresh := fun hnone => ?_ }
  have haligned : off + chunk off left = (off / BSIZE + 1) * BSIZE := chunk_aligned (by omega)
  have hne : (off + (r - tot)) / BSIZE ≠ off / BSIZE := by
    have hdiv := Nat.div_le_div_right (c := BSIZE)
      (show off + chunk off left ≤ off + (r - tot) by omega)
    rw [haligned, Nat.mul_div_cancel _ (by decide)] at hdiv
    omega
  refine h.fresh ?_
  rw [htook.others _ hne]
  exact hnone

/-- **A whole pass and the rest of the loop.** -/
theorem LoopTook.cons {f₁ : ι → UInt32} (hmore : left ≠ 0) (htook : PassTook n (off / BSIZE) n₁)
    (hpass : ∀ l, chunk off left ≤ l → l ≤ left → Pass own f src tot off l n n₁)
    (hquiet : Quiet own f f₁ n n₁)
    (hlength : (readable src tot (chunk off left)).length = chunk off left)
    (h : LoopTook own f₁ src (tot + chunk off left) (off + chunk off left)
      (left - chunk off left) n₁ r n') :
    LoopTook own f src tot off left n r n' := by
  have hchunk : chunk off left ≤ left := chunk_le
  obtain ⟨n₂, hwhole, hend⟩ := h.passes
  have hge := hwhole.written.ge
  have hleft : tot + chunk off left + (left - chunk off left) = tot + left := by omega
  have hoff : off + chunk off left + (r - (tot + chunk off left)) = off + (r - tot) := by omega
  rw [hleft, hoff] at hend
  refine ⟨⟨n₂, hwhole.cons hmore htook hpass hquiet hlength, ?_⟩,
    h.outstanding.trans htook.outstanding, ?_⟩
  · exact hend.imp_right fun hcut => ⟨hcut.1, hcut.2.cons htook hge hcut.1⟩
  · have hlog := h.length
    have hfirst := htook.length
    rw [span_succ hmore]
    omega

/-- **The loop of `writei`** takes what the blocks of the stretch take. -/
theorem Held.writeLoop_takes [DecidableEq ι] (fuel : Nat) (h : Held own f n) (hfuel : left ≤ fuel) :
    Ends (Fs.writeLoop src fuel tot off left) n (LoopTook own f src tot off left n) fun e n' =>
      n.toDisk.FailsFor (n.indirectCost + 2 * span off left + 1)
        (off + left ≤ MAXFILE * BSIZE ∧ n.missingOf (touched off left) ≤ n.toDisk.freeCount)
        e n'.toDisk := by
  induction fuel generalizing f n tot off left with
  | zero =>
      obtain rfl : left = 0 := Nat.le_zero.mp hfuel
      exact ⟨⟨n, .nothing h, Or.inl ⟨rfl, rfl⟩⟩, rfl, Nat.le_add_right _ _⟩
  | succ fuel ih =>
      unfold Fs.writeLoop
      split
      next hzero =>
        subst hzero
        exact ⟨⟨n, .nothing h, Or.inl ⟨rfl, rfl⟩⟩, rfl, Nat.le_add_right _ _⟩
      next hmore =>
        have hspan : span off left = span (off + chunk off left) (left - chunk off left) + 1 :=
          span_succ hmore
        refine Ends.bind (((h.bmap (off / BSIZE)).and (bmap_takes h (off / BSIZE))).mono
          (fun _ _ hn => hn) fun e n' hfail => ?_) ?_
        · refine hfail.2.mono rfl rfl (fun hok => ⟨?_, ?_⟩) ?_
          · have hroom := hok.1
            unfold BSIZE at *
            omega
          · have hfree := hok.2
            rw [touched_cons hmore] at hfree
            exact missing_le hfree
          · split <;> omega
        · rintro b n₁ ⟨⟨hlt, hmap⟩, hbmap⟩
          have hb : n₁.blk (off / BSIZE) = b := (Node.blk_eq hlt).trans hmap.addr
          rw [Ends.bind_iff, NodeM.disk_bread]
          dsimp only
          rw [Ends.bind_iff, NodeM.disk_store]
          split
          next hshort =>
            refine ⟨⟨n₁, hbmap.whole h hmap, Or.inr ⟨by omega, ?_⟩⟩, hbmap.logged.outstanding, ?_⟩
            · rw [Nat.sub_self, Nat.add_zero, Nat.add_sub_cancel_left]
              refine ⟨hshort, hb ▸ hmap.ne_zero, fun hnone => hb ▸ hbmap.mem hnone, ?_⟩
              rw [hb]
            · have hlog := hbmap.length
              change n₁.lh.length + n₁.indirectCost ≤ _
              split at hlog <;> omega
          next hlong =>
            rw [Ends.bind_iff, NodeM.disk_iff]
            have hlength : (readable src tot (chunk off left)).length = chunk off left :=
              Nat.le_antisymm readable_length_le (Nat.le_of_not_lt hlong)
            have hpos : 0 < chunk off left := chunk_pos hmore
            have hlog := hbmap.length
            refine logWrite_enters.mono (fun _ u hu => ?_) fun e _ hfail => ?_
            · have htook := hbmap.pass h hmap hlt hu
              have hw : ∀ l, chunk off left ≤ l → l ≤ left →
                  Pass own f src tot off l n ⟨u, n₁.ip⟩ := by
                intro l hlow hhigh
                refine hmap.pass hlt ⟨hu.same.sb, rfl, ?_⟩
                rw [hb, chunk_eq hlow hhigh]
                exact hu.same.block
              obtain ⟨f₁, h₁, hquiet₁⟩ := (hw left chunk_le (Nat.le_refl _)).held
              refine (ih h₁ (by omega)).mono
                (fun r n' hrest => hrest.cons hmore htook hw hquiet₁ hlength) fun e n' hfail => ?_
              have hlength' := htook.length
              refine hfail.mono htook.sb htook.outstanding (fun hok => ⟨?_, ?_⟩) ?_
              · have hchunk : chunk off left ≤ left := chunk_le
                omega
              · have hfree := hok.2
                rw [touched_cons hmore] at hfree
                have hrest := hbmap.missingOf hmap _ hfree
                obtain ⟨f₂, h₂, -⟩ := hmap.held
                have hw : WroteBlock n₁ (off / BSIZE) _ ⟨u, n₁.ip⟩ :=
                  ⟨hu.same.sb, rfl, by rw [hb]; exact hu.same.block⟩
                have hsame := missingOf_write h₂ (hb ▸ hmap.ne_zero) hw
                rw [(hsame _).1, (hsame []).2]
                exact hrest
              · change u.lh.length + _ ≤ _
                change u.lh.length + _ ≤ _ at hlength'
                omega
            · refine hfail.mono hbmap.logged.sb hbmap.logged.outstanding (fun _ => trivial) ?_
              change n₁.lh.length + 1 ≤ _
              split at hlog <;> omega

end Fs
