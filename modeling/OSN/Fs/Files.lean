import OSN.Fs.Passes
import OSN.Fs.Steady

/-!
# The file as a list of bytes

The file of an inode without holes is a list of bytes, and `readi` returns its parts.
`writei` is followed with what it takes of the log.
-/

namespace Fs

/-- The bytes of the file. -/
def Node.file (n : Node) : List UInt8 := Bytes.slice n.byte 0 n.ip.size.toNat

/-- `readi` reads the file as `l`, in all ranges that end at a 32-bit number. -/
def Node.ReadsAs (n : Node) (l : List UInt8) : Prop :=
  ∀ off m, off + m < 2 ^ 32 →
    readi kernelDst off m n = .ok ((((l.drop off).take m).length : Int), (l.drop off).take m) n

/-- `writei` refuses these bytes. -/
def Node.Refuses (n : Node) (off m : Nat) : Prop :=
  n.ip.size.toNat < off ∨ (off + m) % 2 ^ 32 < off ∨ MAXFILE * BSIZE < off + m

variable {n n₁ n' : Node} {l : List UInt8} {off m tot inum : Nat}

theorem Node.file_length : n.file.length = n.ip.size.toNat := Bytes.slice_length

theorem Node.file_lt : n.file.length < 2 ^ 32 := by
  rw [Node.file_length]
  exact n.ip.size.toNat_lt

/-- **What `readi` returns** of a file without holes. -/
theorem Full.readsAs (h : Full n.block n.ip) : n.ReadsAs n.file := by
  intro off m hlt
  refine readi_holds Node.file_length.symm (fun p hp => ?_)
    (h.mapped (by rw [Node.file_length, Nat.zero_add])) hlt
  have hp' : p < n.ip.size.toNat := by rwa [Node.file_length] at hp
  have hget : n.file[p]? = some (n.byte (0 + p)) := Bytes.slice_getElem hp'
  rw [List.getElem?_eq_getElem hp, Nat.zero_add] at hget
  exact (Option.some.inj hget).symm

/-- It tells the file. -/
theorem Full.readsAs_iff (h : Full n.block n.ip) (hl : l.length < 2 ^ 32) :
    n.ReadsAs l ↔ n.file = l := by
  constructor
  · intro hreads
    have hfile := h.readsAs 0 (2 ^ 32 - 1) (by decide)
    rw [hreads 0 (2 ^ 32 - 1) (by decide)] at hfile
    have heq : l.take (2 ^ 32 - 1) = n.file.take (2 ^ 32 - 1) := by
      injection hfile with hpair
      exact congrArg Prod.snd hpair
    have hn := Node.file_lt (n := n)
    rw [List.take_of_length_le (by omega), List.take_of_length_le (by omega)] at heq
    exact heq.symm
  · rintro rfl
    exact h.readsAs

/-! ### `writei` -/

section Writing

variable {ι : Type} {own : Place → ι} {f : ι → UInt32} {src : Nat → Option UInt8}

/-- What the end of `writei` leaves of what the loop has done. -/
structure Afterwards (n₁ n' : Node) : Prop where
  outstanding : n'.outstanding = n₁.outstanding
  blk : ∀ bn, n'.blk bn = n₁.blk bn
  byte : ∀ p, n'.byte p = n₁.byte p
  kept : ∀ c ∈ n₁.lh, c ∈ n'.lh
  changed : ∀ c, n'.block c ≠ n₁.block c → c ∈ n'.lh
  only : ∀ c ∈ n'.lh, c ∈ n₁.lh ∨ ¬ n₁.sb.IsData c
  length : n'.lh.length ≤ n₁.lh.length + 1

/-- What `writei` has done and taken when it returns `tot`. -/
structure WriteTook (own : Place → ι) (f : ι → UInt32) (inum : Nat) (src : Nat → Option UInt8)
    (off m : Nat) (n : Node) (tot : Nat) (n' : Node) : Prop where
  wrote : Wrote own f inum src off m n tot n'
  loop : ∃ n₁, LoopTook own f src 0 off m n tot n₁ ∧ Afterwards n₁ n'

/-- `iupdate` after the size has been set. -/
theorem iupdate_takes (h : Held own f n₁) (hinum : inum < n₁.sb.ninodes) {n₂ : Node}
    (hdisk : n₂.toDisk = n₁.toDisk) (haddrs : n₂.ip.addrs = n₁.ip.addrs) :
    Ends (iupdate inum) n₂ (fun _ n' => Updated inum n₂ n' ∧ Afterwards n₁ n') fun e n' =>
      n₁.toDisk.FailsFor 1 True e n'.toDisk := by
  have h₂ : Held own f n₂ := h.setHeader hdisk haddrs
  have haddr := addr_setHeader hdisk haddrs
  have hsb₂ : n₂.sb = n₁.sb := congrArg Disk.sb hdisk
  have hinum₂ : inum < n₂.sb.ninodes := hsb₂ ▸ hinum
  have hblk : ∀ bn, n₂.blk bn = n₁.blk bn := fun _ => Node.blk_congr (haddr _)
  unfold iupdate
  rw [Ends.get_bind_iff]
  dsimp only
  rw [Ends.bind_iff, NodeM.disk_store, NodeM.disk_iff]
  refine logWrite_enters.mono (fun _ t ht => ?_) fun e t hfail => ?_
  · have hu : Updated inum n₂ ⟨t, n₂.ip⟩ := ⟨ht.same.sb, rfl, ht.same.block⟩
    have hlogged := ht.logged
    rw [hdisk] at hlogged
    refine ⟨hu, hlogged.outstanding, fun bn => ?_, fun p => ?_, hlogged.kept, hlogged.changed,
      fun c hc => ?_, ?_⟩
    · rw [hu.blk h₂ hinum₂, hblk]
    · rw [hu.byte h₂ hinum₂, Node.byte_eq, hblk, Node.byte_eq, hdisk]
    · refine (hlogged.only c hc).imp_right ?_
      rintro rfl hdata
      exact h.sound.layout.IBLOCK_ne hinum hdata rfl
    · have hlength := ht.length
      rw [hdisk] at hlength
      exact hlength
  · rw [hdisk] at hfail
    exact hfail.mono rfl rfl id (Nat.le_refl _)

/-- **`writei`** refuses, or takes what the blocks of the stretch take. -/
theorem Held.writei_takes [DecidableEq ι] (h : Held own f n) (hinum : inum < n.sb.ninodes) :
    Ends (Fs.writei inum src off m) n
      (fun r n' => r = -1 ∧ n' = n ∧ n.Refuses off m ∨
        ∃ tot : Nat, r = tot ∧ ¬ n.Refuses off m ∧ WriteTook own f inum src off m n tot n')
      fun e n' => n.toDisk.FailsFor (n.indirectCost + 2 * span off m + 1)
        (n.missingOf (touched off m) ≤ n.toDisk.freeCount) e n'.toDisk := by
  unfold Fs.writei
  rw [Ends.get_bind_iff]
  split
  next hguard => exact Or.inl ⟨rfl, rfl, by unfold Node.Refuses; omega⟩
  next hguard =>
    split
    next hroom => exact Or.inl ⟨rfl, rfl, by unfold Node.Refuses; omega⟩
    next hroom =>
      have hstart : off ≤ n.ip.size.toNat := by
        by_contra hlt
        exact hguard (Or.inl (by omega))
      refine Ends.bind (((h.writeLoop m (Nat.le_refl m)).and
        (h.writeLoop_takes m (Nat.le_refl m))).mono (fun _ _ hn => hn) fun e n' hfail => ?_) ?_
      · exact hfail.2.mono rfl rfl (fun hok => ⟨by omega, hok⟩) (Nat.le_refl _)
      · rintro tot n₁ ⟨hw, htook⟩
        rw [Ends.modify_bind_iff]
        obtain ⟨f₁, h₁, hquiet⟩ := hw.held
        have hle := hw.le
        have hfit : off + tot < 2 ^ 32 := by
          unfold MAXFILE NDIRECT NINDIRECT BSIZE at hroom
          omega
        have hinum₁ : inum < n₁.sb.ninodes := hquiet.sb ▸ hinum
        refine Ends.bind ((iupdate_takes h₁ hinum₁ ?_ ?_).mono (fun _ _ hn => hn)
          fun e n' hfail => ?_) ?_
        · split <;> rfl
        · split <;> rfl
        · have hlength := htook.length
          exact hfail.mono hquiet.sb htook.outstanding (fun _ => trivial) (by omega)
        · rintro _ n' ⟨hu, hafter⟩
          refine Or.inr ⟨tot, rfl, by unfold Node.Refuses; omega,
            hw.update hinum h.sound.layout hstart (by omega) ?_ ?_ ?_ hu, n₁, htook, hafter⟩
          · split <;> rfl
          · split <;> rfl
          · split
            next hgrow =>
              dsimp only
              rw [UInt32.toNat_ofNat_of_lt' hfit]
              omega
            next hsmall => omega

end Writing

end Fs
