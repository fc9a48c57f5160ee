import Mathlib.Data.List.TakeWhile
import OSN.Fs.Dir
import OSN.Fs.Owners

/-!
# Reading

A file has a hole where a block below its size is missing; `bmap` would allocate it.  In
a file without holes `readi` and the loops over the entries of a directory leave the disk
as it is, and return what the file holds.
-/

namespace Fs

/-- A file has a block wherever it has a byte. -/
def Full (block : UInt32 → Block) (dip : Dinode) : Prop :=
  ∀ bn, bn * BSIZE < dip.size.toNat → blockOf block dip bn ≠ 0

/-- The file has blocks for `m` bytes from `off` on. -/
def Node.Mapped (n : Node) (off m : Nat) : Prop :=
  ∀ p, off ≤ p → p < off + m → n.blk (p / BSIZE) ≠ 0

/-- The directory entry at an offset. -/
def Node.dirent (n : Node) (off : Nat) : Dirent := .ofBytes (Bytes.slice n.byte off DIRENTSIZE)

variable {n : Node} {dst : Nat → Bool} {tot off m left fuel : Nat} {text : String}
  {p : Dirent → Bool}

theorem Full.mapped (h : Full n.block n.ip) (hsize : off + m ≤ n.ip.size.toNat) :
    n.Mapped off m := by
  intro p _ hp
  refine h _ ?_
  have hdiv := Nat.div_mul_le_self p BSIZE
  omega

theorem takeWhile_all {i : Nat} (h : ∀ j, dst j = true) :
    ((List.range m).takeWhile fun j => dst (i + j)).length = m := by
  have hall : ∀ j ∈ List.range m, dst (i + j) = true := fun j _ => h (i + j)
  rw [List.takeWhile_eq_self_iff.mpr hall, List.length_range]

/-- The bytes of a pass are those of the file. -/
theorem slice_pass (hblk : n.blk (off / BSIZE) ≠ 0) :
    Bytes.slice (n.block (n.blk (off / BSIZE))) (off % BSIZE) (chunk off left) =
      Bytes.slice n.byte off (chunk off left) := by
  refine Bytes.slice_congr fun i hi => ?_
  have hroom : off % BSIZE + i < BSIZE := by
    unfold chunk at hi
    unfold BSIZE at *
    omega
  have hdiv : (off + i) / BSIZE = off / BSIZE := by
    unfold BSIZE at *
    omega
  have hmod : (off + i) % BSIZE = off % BSIZE + i := by
    unfold BSIZE at *
    omega
  rw [Node.byte_eq, hdiv, hmod, if_neg hblk]

/-- **The loop of `readi`** changes nothing, and delivers what the file holds. -/
theorem readLoop_pure (hfuel : left ≤ fuel) (hmapped : n.Mapped off left) :
    Ends (readLoop dst fuel tot off left) n (fun r n' => n' = n ∧
      ((∀ i, dst i = true) → r = (((tot + left : Nat) : Int), Bytes.slice n.byte off left)))
      fun _ _ => False := by
  induction fuel generalizing tot off left with
  | zero =>
      obtain rfl : left = 0 := Nat.le_zero.mp hfuel
      exact ⟨rfl, fun _ => rfl⟩
  | succ fuel ih =>
      unfold readLoop
      split
      next hzero =>
        subst hzero
        exact ⟨rfl, fun _ => rfl⟩
      next hmore =>
        have hpos : 0 < chunk off left := by
          unfold chunk BSIZE
          omega
        have hle : chunk off left ≤ left := Nat.min_le_left _ _
        have hblk : n.blk (off / BSIZE) ≠ 0 := hmapped off (Nat.le_refl _) (by omega)
        refine Ends.bind (Q := fun b t => b = n.blk (off / BSIZE) ∧ t = n)
          (Ends.of_ok (bmap_eq hblk) ⟨rfl, rfl⟩) ?_
        rintro _ n ⟨rfl, rfl⟩
        rw [Ends.bind_iff, NodeM.disk_bread]
        dsimp only
        split
        next hshort =>
          refine ⟨rfl, fun hall => ?_⟩
          rw [takeWhile_all hall] at hshort
          omega
        next =>
          have hrest : n.Mapped (off + chunk off left) (left - chunk off left) :=
            fun p hp hlt => hmapped p (by omega) (by omega)
          refine (ih (by omega) hrest).bind ?_
          rintro r n ⟨rfl, hr⟩
          refine ⟨rfl, fun hall => ?_⟩
          have hsplit : Bytes.slice n.byte off (chunk off left + (left - chunk off left)) =
              Bytes.slice n.byte off (chunk off left) ++
                Bytes.slice n.byte (off + chunk off left) (left - chunk off left) :=
            Bytes.slice_append
          rw [Nat.add_sub_cancel' hle] at hsplit
          rw [hr hall, slice_pass hblk, hsplit, Nat.add_assoc, Nat.add_sub_cancel' hle]

/-- **`readi`** of bytes that the file has. -/
theorem readi_mapped (hsize : off + m ≤ n.ip.size.toNat) (hmapped : n.Mapped off m) :
    readi kernelDst off m n = .ok ((m : Int), Bytes.slice n.byte off m) n := by
  have hlt := n.ip.size.toNat_lt
  have hguard : ¬ (off > n.ip.size.toNat ∨ (off + m) % 2 ^ 32 < off) := by
    rw [Nat.mod_eq_of_lt (by omega)]
    omega
  have hread : Ends (readLoop kernelDst m 0 off m) n (fun r n' => n' = n ∧
      ((∀ i, kernelDst i = true) → r = (((0 + m : Nat) : Int), Bytes.slice n.byte off m)))
      fun _ _ => False := readLoop_pure (Nat.le_refl m) hmapped
  have heq : readi kernelDst off m n = readLoop kernelDst m 0 off m n := by
    change (if off > n.ip.size.toNat ∨ (off + m) % 2 ^ 32 < off then _ else _ :
      NodeM (Int × List UInt8)) n = _
    rw [if_neg hguard, if_neg (by omega)]
  rw [heq]
  unfold Ends at hread
  split at hread
  next r t hrun =>
    obtain ⟨rfl, hr⟩ := hread
    rw [hrun, hr fun _ => rfl, Nat.zero_add]
  next => exact hread.elim

/-- The call that has read to the end of the file has read it all. -/
theorem readi_past {n : Node} {dst : Nat → Bool} {off m : Nat} (hoff : off ≤ n.ip.size.toNat)
    (hpast : n.ip.size.toNat ≤ off + m) (hlt : off + m < 2 ^ 32) :
    readi dst off m n = readi dst off (n.ip.size.toNat - off) n := by
  have hguard : ¬ (off > n.ip.size.toNat ∨ (off + m) % 2 ^ 32 < off) := by
    rw [Nat.mod_eq_of_lt hlt]
    omega
  have hguard' : ¬ (off > n.ip.size.toNat ∨ (off + (n.ip.size.toNat - off)) % 2 ^ 32 < off) := by
    rw [Nat.mod_eq_of_lt (by omega)]
    omega
  have hclip : (if off + m > n.ip.size.toNat then n.ip.size.toNat - off else m) =
      n.ip.size.toNat - off := by
    split <;> omega
  have hall : (if off + (n.ip.size.toNat - off) > n.ip.size.toNat then n.ip.size.toNat - off
      else n.ip.size.toNat - off) = n.ip.size.toNat - off := ite_self _
  change (if off > n.ip.size.toNat ∨ (off + m) % 2 ^ 32 < off then _ else _ :
    NodeM (Int × List UInt8)) n =
    (if off > n.ip.size.toNat ∨ (off + (n.ip.size.toNat - off)) % 2 ^ 32 < off then _ else _ :
      NodeM (Int × List UInt8)) n
  rw [if_neg hguard, if_neg hguard', hclip, hall]

/-- What is read of a file that the node holds. -/
theorem readi_holds {n : Node} {data : List UInt8} (hsize : n.ip.size.toNat = data.length)
    (hbyte : ∀ p (hp : p < data.length), n.byte p = data[p]) (hmapped : n.Mapped 0 data.length)
    {off m : Nat} (hlt : off + m < 2 ^ 32) :
    readi kernelDst off m n =
      .ok ((((data.drop off).take m).length : Int), (data.drop off).take m) n := by
  by_cases hoff : off ≤ data.length
  · obtain ⟨m', hroom, hread, hbytes⟩ : ∃ m', off + m' ≤ data.length ∧
        readi kernelDst off m n = readi kernelDst off m' n ∧
        (data.drop off).take m = (data.drop off).take m' := by
      by_cases hpast : data.length ≤ off + m
      · refine ⟨data.length - off, by omega, ?_, ?_⟩
        · rw [readi_past (by omega) (by omega) hlt, hsize]
        · rw [List.take_of_length_le (by simp; omega), List.take_of_length_le (by simp)]
      · exact ⟨m, by omega, rfl, rfl⟩
    have hpart : n.Mapped off m' := fun p _ hp => hmapped p (Nat.zero_le p) (by omega)
    have hlength : ((data.drop off).take m').length = m' := by
      rw [List.length_take, List.length_drop]
      omega
    rw [hread, hbytes, readi_mapped (by omega) hpart, Bytes.slice_part hbyte hroom, hlength]
  · have hguard : off > n.ip.size.toNat ∨ (off + m) % 2 ^ 32 < off := by omega
    have hnone : (data.drop off).take m = [] := by
      rw [List.drop_of_length_le (by omega), List.take_nil]
    rw [hnone]
    change (if off > n.ip.size.toNat ∨ (off + m) % 2 ^ 32 < off then _ else _ :
      NodeM (Int × List UInt8)) n = _
    rw [if_pos hguard]
    rfl

/-- **`readi`** of a file without holes changes nothing. -/
theorem readi_pure (h : Full n.block n.ip) :
    Ends (readi dst off m) n (fun r n' => n' = n ∧
      ((∀ i, dst i = true) → off + m ≤ n.ip.size.toNat →
        r = ((m : Int), Bytes.slice n.byte off m)) ∧
      ((∀ i, dst i = true) → ¬ off + m ≤ n.ip.size.toNat → r.1 < m ∨ m = 0))
      fun _ _ => False := by
  have hlt := n.ip.size.toNat_lt
  unfold readi
  rw [Ends.get_bind_iff]
  dsimp only
  split
  next hguard =>
    refine ⟨rfl, fun _ hsize => ?_, fun _ _ => ?_⟩
    · rw [Nat.mod_eq_of_lt (by omega)] at hguard
      omega
    · dsimp only
      omega
  next hguard =>
    split
    next hover =>
      have hsum : off + (n.ip.size.toNat - off) = n.ip.size.toNat := by omega
      refine (readLoop_pure (Nat.le_refl _)
        (h.mapped (Nat.le_of_eq hsum))).post ?_
      rintro r n ⟨rfl, hr⟩
      refine ⟨rfl, fun _ hsize => by omega, fun hall _ => ?_⟩
      rw [hr hall]
      dsimp only
      omega
    next hunder =>
      have hsize : off + m ≤ n.ip.size.toNat := Nat.le_of_not_lt hunder
      refine (readLoop_pure (Nat.le_refl _) (h.mapped hsize)).post ?_
      rintro r n ⟨rfl, hr⟩
      refine ⟨rfl, fun hall _ => ?_, fun _ hnot => absurd hsize hnot⟩
      rw [hr hall, Nat.zero_add]

/-! ### Entries of a directory -/

theorem readDirent_mapped (hsize : off + DIRENTSIZE ≤ n.ip.size.toNat)
    (hmapped : n.Mapped off DIRENTSIZE) : readDirent text off n = .ok (n.dirent off) n := by
  unfold readDirent
  simp only [bind, EStateM.bind, readi_mapped hsize hmapped]
  rw [if_neg (by simp)]
  rfl

/-- An entry of a directory without holes is read if it is there. -/
theorem readDirent_pure (h : Full n.block n.ip) :
    Ends (readDirent text off) n
      (fun de n' => n' = n ∧ off + DIRENTSIZE ≤ n.ip.size.toNat ∧ de = n.dirent off)
      fun e n' => n' = n ∧ e = text := by
  by_cases hsize : off + DIRENTSIZE ≤ n.ip.size.toNat
  · exact Ends.of_ok (readDirent_mapped hsize (h.mapped hsize)) ⟨rfl, hsize, rfl⟩
  · unfold readDirent
    refine Ends.bind ((readi_pure h).mono (fun _ _ hr => hr) fun _ _ hf => hf.elim) ?_
    rintro r n ⟨rfl, -, hr⟩
    dsimp only
    split
    · exact ⟨rfl, rfl⟩
    next heq =>
      have heq : r.1 = (DIRENTSIZE : Int) := not_not.mp heq
      rcases hr (fun _ => rfl) hsize with hless | hzero
      · omega
      · cases hzero

/-- **The loops over a directory** change nothing. -/
theorem findEntry_pure (h : Full n.block n.ip) (offs : List Nat) :
    Ends (findEntry text p offs) n
      (fun r n' => n' = n ∧
        match r with
        | none => ∀ off ∈ offs, off + DIRENTSIZE ≤ n.ip.size.toNat ∧ p (n.dirent off) = false
        | some (off, de) => off ∈ offs ∧ off + DIRENTSIZE ≤ n.ip.size.toNat ∧
            de = n.dirent off ∧ p de = true)
      fun e n' => n' = n ∧ e = text := by
  induction offs with
  | nil => exact ⟨rfl, fun off hoff => by cases hoff⟩
  | cons off offs ih =>
      unfold findEntry
      refine (readDirent_pure h).bind ?_
      rintro de n ⟨rfl, hsize, rfl⟩
      split
      next hp => exact ⟨rfl, List.mem_cons_self, hsize, rfl, hp⟩
      next hp =>
        refine ih.post ?_
        rintro r n ⟨rfl, hr⟩
        refine ⟨rfl, ?_⟩
        cases r with
        | none =>
            intro off' hoff'
            rcases List.mem_cons.mp hoff' with rfl | htail
            · exact ⟨hsize, Bool.eq_false_iff.mpr hp⟩
            · exact hr off' htail
        | some x => exact ⟨List.mem_cons_of_mem _ hr.1, hr.2⟩

/-- **The first entry** with the property is found; what follows it need not be there. -/
theorem findEntry_first {offs rest : List Nat}
    (hbefore : ∀ off ∈ offs, off + DIRENTSIZE ≤ n.ip.size.toNat ∧ n.Mapped off DIRENTSIZE ∧
      p (n.dirent off) = false)
    (hsize : off + DIRENTSIZE ≤ n.ip.size.toNat) (hmapped : n.Mapped off DIRENTSIZE)
    (hp : p (n.dirent off) = true) :
    findEntry text p (offs ++ off :: rest) n = .ok (some (off, n.dirent off)) n := by
  induction offs with
  | nil =>
      rw [List.nil_append]
      unfold findEntry
      simp only [bind, EStateM.bind, readDirent_mapped hsize hmapped]
      rw [if_pos hp]
      rfl
  | cons o offs ih =>
      obtain ⟨hsize', hmapped', hp'⟩ := hbefore o List.mem_cons_self
      rw [List.cons_append]
      unfold findEntry
      simp only [bind, EStateM.bind, readDirent_mapped hsize' hmapped']
      rw [if_neg (by simp [hp'])]
      exact ih fun off hoff => hbefore off (List.mem_cons_of_mem _ hoff)

end Fs
