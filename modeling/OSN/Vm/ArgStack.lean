import OSN.Vm.Loading

/-!
# The stack of a new program

`exec` puts the strings of the arguments on the stack, one below the other, and below them
the array of their addresses.  The page below the stack is not for the user.
-/

namespace Vm

open Xv6 (PGSIZE MAXVA)
open Fs (CStr)

attribute [local irreducible] freewalk uvmclear

variable {room : Nat → Prop} {root : Nat} {f : Owner → Nat} {s t : Ram} {m : PageMap}
  {n k sp hi sz len stackbase trampoline trapframe : Nat} {usable : Nat → Prop}
  {img : Nat → UInt8} {ustack : List Nat} {arg : CStr} {args argv : List CStr}
  {run : Nat × List UInt8}

/-! ### Where it all goes -/

/-- Where `len` bytes go below `sp`. -/
def place (sp len : Nat) : Nat := sp - len - (sp - len) % 16

theorem place_le : place sp len ≤ sp - len := Nat.sub_le _ _

/-- The strings, from `sp` down, each with its null. -/
def argRuns : Nat → List CStr → List (Nat × List UInt8)
  | _, [] => []
  | sp, arg :: args => (place sp (arg.length + 1), arg ++ [0]) ::
      argRuns (place sp (arg.length + 1)) args

/-- The address below the last of them. -/
def argsEnd : Nat → List CStr → Nat
  | sp, [] => sp
  | sp, arg :: args => argsEnd (place sp (arg.length + 1)) args

/-- The bytes of the array: the addresses of the strings, and a null. -/
def argArray (ustack : List Nat) : List UInt8 := (ustack ++ [0]).flatMap (Bytes.leBytes 8)

theorem argArray_length : (argArray ustack).length = 8 * (ustack.length + 1) := by
  unfold argArray
  induction ustack with
  | nil => rfl
  | cons a ustack ih =>
      rw [List.cons_append, List.flatMap_cons, List.length_append, ih, Bytes.leBytes_length,
        List.length_cons]
      omega

/-- The addresses of the strings. -/
def argPlaces (sp : Nat) (args : List CStr) : List Nat := (argRuns sp args).map Prod.fst

theorem argPlaces_length : (argPlaces sp args).length = args.length := by
  induction args generalizing sp with
  | nil => rfl
  | cons arg args ih => exact congrArg Nat.succ ih

/-- `sp` of the new program. -/
def newSp (sz : Nat) (argv : List CStr) : Nat := place (argsEnd sz argv) (8 * (argv.length + 1))

/-- **All that is written to the stack.** -/
def stackRuns (sz : Nat) (argv : List CStr) : List (Nat × List UInt8) :=
  argRuns sz argv ++ [(newSp sz argv, argArray (argPlaces sz argv))]

theorem argsEnd_le : argsEnd sp args ≤ sp := by
  induction args generalizing sp with
  | nil => exact Nat.le_refl sp
  | cons arg args ih => exact Nat.le_trans ih (Nat.le_trans place_le (Nat.sub_le _ _))

theorem newSp_le : newSp sz argv ≤ sz :=
  Nat.le_trans place_le (Nat.le_trans (Nat.sub_le _ _) argsEnd_le)

/-- **The arguments of a program**: at `sp` the addresses of its strings, and a null behind
the last; at each address the string, with its null.  All of it is below `sz`. -/
def ArgsAt (img : Nat → UInt8) (sp sz : Nat) (argv : List CStr) : Prop :=
  sp + 8 * (argv.length + 1) ≤ sz ∧ ∃ places,
    Bytes.slice img sp (8 * (argv.length + 1)) = argArray places ∧
    List.Forall₂ (fun place arg => sp ≤ place ∧ place + (arg.length + 1) ≤ sz ∧
      Bytes.slice img place (arg.length + 1) = arg ++ [0]) places argv

/-- The address that the code computes. -/
theorem place_eq (hlen : len ≤ sp) (hsp : sp < 2 ^ 64) :
    (sp + 2 ^ 64 - len) % 2 ^ 64 - (sp + 2 ^ 64 - len) % 2 ^ 64 % 16 = place sp len := by
  rw [show sp + 2 ^ 64 - len = sp - len + 2 ^ 64 by omega, Nat.add_mod_right,
    Nat.mod_eq_of_lt (by omega)]
  rfl

/-- **The loop of `exec` over the arguments.** -/
theorem UserImage.pushArgs (h : UserImage room root f s m n trampoline trapframe usable img)
    (hargs : ustack.length + args.length < MAXARG) (hlen : ∀ arg ∈ args, arg.length < PGSIZE)
    (hbase : PGSIZE ≤ stackbase) (hle : stackbase ≤ sp) (hsp : sp < 2 ^ 64) :
    Ends (Vm.pushArgs root stackbase sp ustack args) s
      (fun r t => Confined room s t ∧
        (r = none ∧ UserTable room root f t m n trampoline trapframe ∨
          r = some (argsEnd sp args, ustack ++ argPlaces sp args) ∧ stackbase ≤ argsEnd sp args ∧
            UserImage room root f t m n trampoline trapframe usable
              (Bytes.splices img (argRuns sp args))))
      fun _ _ => False := by
  induction args generalizing sp ustack s img with
  | nil =>
      refine ⟨.refl, Or.inr ⟨?_, hle, h⟩⟩
      rw [argPlaces, argRuns, List.map_nil, List.append_nil]
      rfl
  | cons arg args ih =>
      obtain ⟨harg, hrest⟩ := List.forall_mem_cons.mp hlen
      rw [List.length_cons] at hargs
      unfold Vm.pushArgs
      rw [if_neg (by omega)]
      dsimp only
      rw [place_eq (by omega) hsp]
      by_cases hroom : place sp (arg.length + 1) < stackbase
      · rw [if_pos hroom]
        exact ⟨.refl, Or.inl ⟨rfl, h.toUserTable⟩⟩
      · rw [if_neg hroom]
        refine (h.copyout _ _).bind ?_
        rintro r t ⟨hconfined, ⟨rfl, -, himage⟩ | ⟨rfl, htable⟩⟩
        · rw [if_neg (by decide)]
          have hbelow : place sp (arg.length + 1) ≤ sp := Nat.le_trans place_le (Nat.sub_le _ _)
          have hsp' := Nat.lt_of_le_of_lt hbelow hsp
          refine (ih himage ?_ hrest (Nat.le_of_not_lt hroom) hsp').post ?_
          · rw [List.length_append, List.length_singleton]
            omega
          · rintro r u ⟨hconfined', hr⟩
            refine ⟨hconfined.trans hconfined', hr.imp_right fun ⟨hr, hend, himage'⟩ => ?_⟩
            refine ⟨?_, hend, himage'⟩
            rw [hr, List.append_assoc]
            rfl
        · rw [if_pos (by decide)]
          exact ⟨hconfined, Or.inl ⟨rfl, htable⟩⟩

/-- The array is put below the strings. -/
theorem UserImage.pushArray (h : UserImage room root f s m n trampoline trapframe usable img)
    (sp stackbase argc : Nat) (bytes : List UInt8) :
    Ends (if sp < stackbase then return none
      else do
        let r ← Vm.copyout root sp bytes
        if r < 0 then return none else return some (sp, argc)) s
      (fun r t => Confined room s t ∧
        (r = none ∧ UserTable room root f t m n trampoline trapframe ∨
          r = some (sp, argc) ∧ stackbase ≤ sp ∧ UserImage room root f t m n trampoline trapframe
            usable (Bytes.splice img sp bytes)))
      fun _ _ => False := by
  by_cases hroom : sp < stackbase
  · rw [if_pos hroom]
    exact ⟨.refl, Or.inl ⟨rfl, h.toUserTable⟩⟩
  · rw [if_neg hroom]
    refine (h.copyout _ _).bind ?_
    rintro r t ⟨hconfined, ⟨rfl, -, himage⟩ | ⟨rfl, htable⟩⟩
    · rw [if_neg (by decide)]
      exact ⟨hconfined, Or.inr ⟨rfl, Nat.le_of_not_lt hroom, himage⟩⟩
    · rw [if_pos (by decide)]
      exact ⟨hconfined, Or.inl ⟨rfl, htable⟩⟩

/-- The user's pages of a new program: all but the one below the stack. -/
def notGuard (sz p : Nat) : Prop := p < sz / PGSIZE ∧ p ≠ sz / PGSIZE - 2

/-- **The stack of a new program** is made, or there is no room for it. -/
theorem Loaded.pushStack (h : Loaded room root trampoline trapframe sz img s)
    (haligned : PGSIZE ∣ sz) (hsz : 2 * PGSIZE ≤ sz)
    (hzero : ∀ a, sz - 2 * PGSIZE ≤ a → img a = 0) (hargs : argv.length < MAXARG)
    (hlen : ∀ arg ∈ argv, arg.length < PGSIZE) :
    Ends (Vm.pushStack root sz argv) s
      (fun r t => Confined room s t ∧
        (r = none ∧ Tabled room root trampoline trapframe sz t ∨
          r = some (newSp sz argv, argv.length) ∧ sz - PGSIZE ≤ newSp sz argv ∧
            Imaged room root trampoline trapframe sz (notGuard sz)
              (Bytes.splices img (stackRuns sz argv)) t))
      fun _ _ => False := by
  obtain ⟨hmax, f, m, himage⟩ := h
  have hround := PGROUNDUP_of_dvd haligned hmax
  have hguard : (sz - 2 * PGSIZE) / PGSIZE = sz / PGSIZE - 2 := by
    unfold PGSIZE
    omega
  have husable : (sz - 2 * PGSIZE) / PGSIZE < PGROUNDUP sz / PGSIZE := by
    rw [hguard, hround]
    unfold PGSIZE at *
    omega
  have hzeros : ∀ a, a / PGSIZE = (sz - 2 * PGSIZE) / PGSIZE → img a = 0 := by
    intro a ha
    refine hzero a ?_
    rw [hguard] at ha
    unfold PGSIZE at *
    omega
  have hclear := himage.uvmclear husable hzeros
  rw [hguard, hround] at hclear
  unfold Vm.pushStack
  refine hclear.bind ?_
  rintro - t ⟨himage, hconfined⟩
  have htabled : ∀ {f m u}, UserTable room root f u m (sz / PGSIZE) trampoline trapframe →
      Tabled room root trampoline trapframe sz u := fun htable =>
    ⟨hmax, _, _, hround.symm ▸ htable⟩
  have hlt : sz < 2 ^ 64 := Nat.lt_of_le_of_lt hmax (by decide)
  have hempty : ([] : List Nat).length + argv.length < MAXARG := by simpa using hargs
  refine (himage.pushArgs hempty hlen (by omega) (Nat.sub_le sz PGSIZE) hlt).bind ?_
  rintro r u ⟨hconfined', ⟨rfl, htable⟩ | ⟨hr, hend, himage⟩⟩
  · exact ⟨hconfined.trans hconfined', Or.inl ⟨rfl, htabled htable⟩⟩
  · have harray : (argArray (argPlaces sz argv)).length = 8 * (argv.length + 1) := by
      rw [argArray_length, argPlaces_length]
    have hle : argsEnd sz argv ≤ sz := argsEnd_le
    have hsp : ∀ x,
        x = (argsEnd sz argv + 2 ^ 64 - (argArray (argPlaces sz argv)).length) % 2 ^ 64 →
          x - x % 16 = newSp sz argv := by
      rintro x rfl
      rw [harray]
      exact place_eq (by unfold MAXARG at hargs; unfold PGSIZE at *; omega) (by omega)
    rw [hr, List.nil_append]
    dsimp only
    rw [← argArray, hsp _ rfl, argPlaces_length]
    refine (himage.pushArray _ _ _ _).post ?_
    rintro r v ⟨hconfined'', hr⟩
    refine ⟨(hconfined.trans hconfined').trans hconfined'', hr.imp ?_ ?_⟩
    · rintro ⟨hr, htable⟩
      exact ⟨hr, htabled htable⟩
    · rintro ⟨hr, hroom, himage⟩
      refine ⟨hr, hroom, hmax, f, m.clear (sz / PGSIZE - 2), ?_⟩
      rw [hround, stackRuns, Bytes.splices_append]
      exact himage

end Vm
