import OSN.Kernel.Syscall
import OSN.Kernel.Proc
import OSN.Lib.Bytes

/-!
# `waitx`

The memory of a user process, as far as `walkaddr` lets the kernel into it,
with `copyout` page by page: when it meets a page that is not there it fails,
with what comes before already copied.

`sys_waitx` hands `&wtime, &rtime` to `waitx`, whose parameters are `rtime` and
`wtime`; it copies the two times out after `waitx` has freed the child, and
also if `waitx` has failed.
-/

namespace Xv6

/-- `MAXVA` of riscv.h. -/
def MAXVA : Nat := 2 ^ 38

/-- The memory of a user process.  `mapped i`: `walkaddr` finds page `i`. -/
structure UserMem where
  mapped : Nat → Bool
  byte : Nat → UInt8
  mapped_lt : ∀ i, mapped i = true → i * PGSIZE < MAXVA

namespace UserMem

variable {m : UserMem} {a n : Nat} {src l : List UInt8}

/-- The bytes `l` written from address `a` on. -/
def write (m : UserMem) (a : Nat) (l : List UInt8) : UserMem :=
  { m with byte := Bytes.splice m.byte a l }

/-- The loop of `copyout`, for at most `fuel` pages, with its return value. -/
def copyoutLoop : Nat → UserMem → Nat → List UInt8 → Int × UserMem
  | 0, m, _, _ => (0, m)
  | fuel + 1, m, dstva, src =>
      if src.length = 0 then (0, m)
      else
        let va0 := dstva - dstva % PGSIZE
        if m.mapped (va0 / PGSIZE) then
          let n := min (PGSIZE - (dstva - va0)) src.length
          copyoutLoop fuel (m.write dstva (src.take n)) ((va0 + PGSIZE) % 2 ^ 64) (src.drop n)
        else (-1, m)

/-- `copyout`, with its return value.  Every pass copies a byte at least. -/
def copyout (m : UserMem) (dstva : UInt64) (src : List UInt8) : Int × UserMem :=
  copyoutLoop src.length m dstva.toNat src

/-- The part of `src` that gets to its place from address `a` on: what comes
before the first page that is not there. -/
def reached (m : UserMem) : Nat → List UInt8 → List UInt8
  | _, [] => []
  | a, x :: src => if m.mapped (a / PGSIZE) then x :: reached m (a + 1) src else []

/-- The pages of `n` bytes from address `a` on are all there. -/
def Writable (m : UserMem) (a n : Nat) : Prop := ∀ i < n, m.mapped ((a + i) / PGSIZE) = true

instance (m : UserMem) (a n : Nat) : Decidable (m.Writable a n) := by
  unfold Writable
  infer_instance

@[simp] theorem write_mapped : (m.write a l).mapped = m.mapped := rfl

@[simp] theorem write_byte : (m.write a l).byte = Bytes.splice m.byte a l := rfl

@[simp] theorem write_nil : m.write a [] = m := by simp [write]

theorem write_append {l' : List UInt8} :
    m.write a (l ++ l') = (m.write a l).write (a + l.length) l' := by
  simp [write, Bytes.splice_append]

/-- What gets to its place depends on the page table only. -/
theorem reached_of_mapped {m' : UserMem} (h : m'.mapped = m.mapped) :
    m'.reached a src = m.reached a src := by
  induction src generalizing a with
  | nil => rfl
  | cons x src ih => rw [reached, reached, h, ih]

theorem writable_succ :
    m.Writable a (n + 1) ↔ m.mapped (a / PGSIZE) = true ∧ m.Writable (a + 1) n := by
  constructor
  · intro h
    refine ⟨h 0 (Nat.succ_pos n), fun i hi => ?_⟩
    rw [Nat.add_assoc, Nat.add_comm 1 i]
    exact h (i + 1) (Nat.succ_lt_succ hi)
  · rintro ⟨hfirst, hrest⟩ i hi
    cases i with
    | zero => exact hfirst
    | succ i =>
        have hi' := hrest i (Nat.lt_of_succ_lt_succ hi)
        rwa [Nat.add_assoc, Nat.add_comm 1 i] at hi'

/-- Two parts of a run. -/
theorem writable_add {k : Nat} (h : m.Writable a k) :
    m.Writable a (k + n) ↔ m.Writable (a + k) n := by
  constructor
  · intro hall i hi
    rw [Nat.add_assoc]
    exact hall (k + i) (Nat.add_lt_add_left hi k)
  · intro hrest i hi
    by_cases hik : i < k
    · exact h i hik
    · obtain ⟨j, rfl⟩ := Nat.exists_eq_add_of_le (Nat.le_of_not_lt hik)
      rw [← Nat.add_assoc]
      exact hrest j (by omega)

/-- Bytes whose pages are there all get to their place. -/
theorem reached_append (h : m.Writable a l.length) :
    m.reached a (l ++ src) = l ++ m.reached (a + l.length) src := by
  induction l generalizing a with
  | nil => rfl
  | cons x l ih =>
      obtain ⟨hfirst, hrest⟩ := writable_succ.mp h
      rw [List.cons_append, reached, if_pos hfirst, ih hrest, List.length_cons, Nat.add_assoc,
        Nat.add_comm 1, List.cons_append]

theorem reached_of_writable (h : m.Writable a l.length) : m.reached a l = l := by
  have happend : m.reached a (l ++ []) = l ++ m.reached (a + l.length) [] := reached_append h
  rwa [List.append_nil, reached, List.append_nil] at happend

@[simp] theorem copyoutLoop_nil {fuel : Nat} : copyoutLoop fuel m a [] = (0, m) := by
  cases fuel <;> rfl

/-- **What `copyout` does**: all that gets to its place is there, and it fails
if that is not all. -/
theorem copyoutLoop_eq {fuel : Nat} (hfuel : src.length ≤ fuel) :
    copyoutLoop fuel m a src =
      (if m.Writable a src.length then 0 else -1, m.write a (m.reached a src)) := by
  induction fuel generalizing m a src with
  | zero =>
      obtain rfl : src = [] := List.length_eq_zero_iff.mp (by omega)
      simp [copyoutLoop, reached, Writable]
  | succ fuel ih =>
      by_cases hsrc : src.length = 0
      · obtain rfl := List.length_eq_zero_iff.mp hsrc
        simp [reached, Writable]
      · have hpage : (a - a % PGSIZE) / PGSIZE = a / PGSIZE := by
          unfold PGSIZE
          omega
        rw [copyoutLoop, if_neg hsrc]
        simp only [hpage]
        by_cases hmapped : m.mapped (a / PGSIZE) = true
        · -- the part of this page
          set k := min (PGSIZE - (a - (a - a % PGSIZE))) src.length with hk
          have hlt := m.mapped_lt _ hmapped
          have hpart : m.Writable a k := by
            intro i hi
            have hsame : (a + i) / PGSIZE = a / PGSIZE := by
              unfold PGSIZE at *
              omega
            rwa [hsame]
          have hlen : (src.take k).length = k := by
            rw [List.length_take]
            omega
          have hreached : m.reached a src = src.take k ++ m.reached (a + k) (src.drop k) := by
            have happend : m.reached a (src.take k ++ src.drop k) =
                src.take k ++ m.reached (a + (src.take k).length) (src.drop k) :=
              reached_append (hlen.symm ▸ hpart)
            rwa [List.take_append_drop, hlen] at happend
          have hwrite : m.write a (m.reached a src) =
              (m.write a (src.take k)).write (a + k) (m.reached (a + k) (src.drop k)) := by
            rw [hreached, write_append, hlen]
          have hall : m.Writable a src.length ↔
              m.Writable (a + k) (src.drop k).length := by
            rw [List.length_drop, ← writable_add hpart]
            congr! 1
            omega
          rw [if_pos hmapped, hwrite, if_congr hall rfl rfl]
          by_cases hlast : k = src.length
          · have hnil : src.drop k = [] := List.drop_of_length_le (by omega)
            simp [hnil, reached, Writable]
          · have hnext : (a - a % PGSIZE + PGSIZE) % 2 ^ 64 = a + k := by
              unfold PGSIZE MAXVA at *
              omega
            have hfuel' : (src.drop k).length ≤ fuel := by
              rw [List.length_drop]
              unfold PGSIZE at *
              omega
            rw [hnext, ih hfuel', reached_of_mapped write_mapped]
            rfl
        · obtain ⟨x, rest, rfl⟩ := List.exists_cons_of_length_pos (Nat.pos_of_ne_zero hsrc)
          have hnot : ¬ m.Writable a (x :: rest).length := fun h => hmapped (writable_succ.mp h).1
          rw [if_neg hmapped, if_neg hnot, reached, if_neg hmapped, write_nil]

/-- The runs that a list of copies gets to their places, when the first that
fails is the last one made. -/
def copied (m : UserMem) : List (Nat × List UInt8) → List (Nat × List UInt8)
  | [] => []
  | run :: rest =>
      (run.1, m.reached run.1 run.2) ::
        if m.Writable run.1 run.2.length then copied m rest else []

/-- Several runs written. -/
def writes (m : UserMem) (runs : List (Nat × List UInt8)) : UserMem :=
  { m with byte := Bytes.splices m.byte runs }

variable {dst : UInt64} {runs : List (Nat × List UInt8)}

@[simp] theorem writes_nil : m.writes [] = m := rfl

@[simp] theorem writes_mapped : (m.writes runs).mapped = m.mapped := rfl

@[simp] theorem writes_byte : (m.writes runs).byte = Bytes.splices m.byte runs := rfl

theorem copyout_eq : m.copyout dst src =
    (if m.Writable dst.toNat src.length then 0 else -1,
      m.writes [(dst.toNat, m.reached dst.toNat src)]) :=
  copyoutLoop_eq le_rfl

theorem copyout_fails : (m.copyout dst src).1 < 0 ↔ ¬ m.Writable dst.toNat src.length := by
  rw [copyout_eq]
  by_cases h : m.Writable dst.toNat src.length <;> simp [h]

@[simp] theorem copyout_snd :
    (m.copyout dst src).2 = m.writes [(dst.toNat, m.reached dst.toNat src)] := by
  rw [copyout_eq]

theorem writes_writes {runs' : List (Nat × List UInt8)} :
    (m.writes runs).writes runs' = m.writes (runs ++ runs') := by
  simp [writes, Bytes.splices_append]

/-- What a copy gets to its place is not changed by the copies before it. -/
theorem copyout_writes : ((m.writes runs).copyout dst src).2 =
    m.writes (runs ++ [(dst.toNat, m.reached dst.toNat src)]) := by
  rw [copyout_snd, writes_writes, reached_of_mapped writes_mapped]

theorem copyout_writes_fails :
    ((m.writes runs).copyout dst src).1 < 0 ↔ ¬ m.Writable dst.toNat src.length :=
  copyout_fails

end UserMem

/-- A `uint` as it lies in memory. -/
def word (x : UInt32) : List UInt8 := Bytes.leBytes 4 x.toNat

/-- An `int` as it lies in memory. -/
def intWord (x : Int) : List UInt8 := word (UInt32.ofBitVec (BitVec.ofInt 32 x))

@[simp] theorem word_length {x : UInt32} : (word x).length = 4 := Bytes.leBytes_length

@[simp] theorem intWord_length {x : Int} : (intWord x).length = 4 := word_length

theorem word_inj {x y : UInt32} (h : word x = word y) : x = y := by
  have hx : x.toNat < 256 ^ 4 := x.toNat_lt
  have hy : y.toNat < 256 ^ 4 := y.toNat_lt
  have hvalue := congrArg Bytes.ofLe h
  rw [word, word, Bytes.ofLe_leBytes, Bytes.ofLe_leBytes, Nat.mod_eq_of_lt hx,
    Nat.mod_eq_of_lt hy] at hvalue
  exact UInt32.toNat_inj.mp hvalue

/-! ### `wait` and `waitx` -/

/-- A pass of `wait` or of `waitx` that finds nothing and may not sleep: there
are no children or the caller is killed. -/
def givesUp (me : Slot) (k : Kernel) : Bool := !havekids me k || (k.proc me).killed ≠ 0

/-- `wait`, with its return value; `tables` are the process tables that its
passes find, a sleep between any two. -/
def wait (me : Slot) (addr : UInt64) (m : UserMem) :
    List Kernel → Except Stuck (Int × Kernel × UserMem)
  | [] => .error .noreturn
  | k :: tables =>
      match zombieChild me k with
      | some np =>
          let pid := (k.proc np).pid
          let (r, m) :=
            if addr ≠ 0 then m.copyout addr (intWord (k.proc np).xstate) else (0, m)
          if r < 0 then .ok (-1, k, m) else .ok (pid, k.modify np freeproc, m)
      | none => if givesUp me k then .ok (-1, k, m) else wait me addr m tables

/-- `waitx`, with its return value and then the two numbers that it leaves in
`*rtime` and `*wtime`. -/
def waitx (me : Slot) (addr : UInt64) (rtime wtime : UInt32) (m : UserMem) :
    List Kernel → Except Stuck (Int × UInt32 × UInt32 × Kernel × UserMem)
  | [] => .error .noreturn
  | k :: tables =>
      match zombieChild me k with
      | some np =>
          let pid := (k.proc np).pid
          let rtime := (k.proc np).rtime
          let wtime := (k.proc np).etime - (k.proc np).birthtime - (k.proc np).rtime
          let (r, m) :=
            if addr ≠ 0 then m.copyout addr (intWord (k.proc np).xstate) else (0, m)
          if r < 0 then .ok (-1, rtime, wtime, k, m)
          else .ok (pid, rtime, wtime, k.modify np freeproc, m)
      | none =>
          if givesUp me k then .ok (-1, rtime, wtime, k, m)
          else waitx me addr rtime wtime m tables

/-- `sys_waitx`, with its return value.  `wtime` and `rtime` are what its two
variables hold before they are assigned to. -/
def sys_waitx (me : Slot) (wtime rtime : UInt32) (tf : Trapframe) (m : UserMem)
    (tables : List Kernel) : Except Stuck (Int × Kernel × UserMem) := do
  let addr ← argaddr tf 0
  let addr1 ← argaddr tf 1
  let addr2 ← argaddr tf 2
  -- `waitx(addr, &wtime, &rtime)`: its `rtime` is `wtime` here
  let (ret, wtime, rtime, k, m) ← waitx me addr wtime rtime m tables
  let (r, m) := m.copyout addr1 (word wtime)
  if r < 0 then return (-1, k, m)
  let (r, m) := m.copyout addr2 (word rtime)
  if r < 0 then return (-1, k, m)
  return (ret, k, m)

/-- The registers of `waitx(status, wtime, rtime)` at the `ecall`. -/
def waitxStub (status wtime rtime : UInt64) : Trapframe :=
  { a0 := status, a1 := wtime, a2 := rtime, a7 := 24 }

/-! ### What one call does -/

/-- `wtime` of a ZOMBIE. -/
def Proc.wtime (p : Proc) : UInt32 := p.etime - p.birthtime - p.rtime

section Calls

variable {me np : Slot} {k k' : Kernel} {m m' : UserMem} {tables : List Kernel}
  {status wtime rtime addr : UInt64} {w₀ r₀ w r : UInt32} {ret : Int}

/-- A pass that is the last one. -/
def returns (me : Slot) (k : Kernel) : Bool := (zombieChild me k).isSome || givesUp me k

theorem returns_eq_false :
    returns me k = false ↔ zombieChild me k = none ∧ givesUp me k = false := by
  rw [returns, Bool.or_eq_false_iff, Option.isSome_eq_false_iff, Option.isNone_iff_eq_none]

theorem givesUp_of_none (h : returns me k = true) (hnone : zombieChild me k = none) :
    givesUp me k = true := by
  simpa [returns, hnone] using h

/-- The passes before the last one leave no trace in what is made of them. -/
theorem passes_last {α : Type} {f : List Kernel → α}
    (hsleep : ∀ k tables, returns me k = false → f (k :: tables) = f tables)
    (hlast : ∀ k tables, returns me k = true → f (k :: tables) = f [k])
    (h : tables.find? (returns me) = some k) : f tables = f [k] := by
  induction tables with
  | nil => simp at h
  | cons first tables ih =>
      by_cases hfirst : returns me first = true
      · rw [List.find?_cons_of_pos hfirst, Option.some_inj] at h
        subst h
        exact hlast first tables hfirst
      · rw [List.find?_cons_of_neg hfirst] at h
        rw [hsleep first tables (Bool.not_eq_true _ ▸ hfirst), ih h]

theorem wait_last (h : tables.find? (returns me) = some k) :
    wait me addr m tables = wait me addr m [k] := by
  refine passes_last (fun first rest hfirst => ?_) (fun first rest hfirst => ?_) h
  · obtain ⟨hnone, hgives⟩ := returns_eq_false.mp hfirst
    simp [wait, hnone, hgives]
  · cases hnp : zombieChild me first with
    | none => simp [wait, hnp, givesUp_of_none hfirst hnp]
    | some np => simp [wait, hnp]

theorem waitx_last (h : tables.find? (returns me) = some k) :
    waitx me addr r₀ w₀ m tables = waitx me addr r₀ w₀ m [k] := by
  refine passes_last (fun first rest hfirst => ?_) (fun first rest hfirst => ?_) h
  · obtain ⟨hnone, hgives⟩ := returns_eq_false.mp hfirst
    simp [waitx, hnone, hgives]
  · cases hnp : zombieChild me first with
    | none => simp [waitx, hnp, givesUp_of_none hfirst hnp]
    | some np => simp [waitx, hnp]

/-- The caller wants no exit status or has room for it. -/
def TakesStatus (m : UserMem) (addr : UInt64) : Prop := addr ≠ 0 → m.Writable addr.toNat 4

instance (m : UserMem) (addr : UInt64) : Decidable (TakesStatus m addr) := by
  unfold TakesStatus
  infer_instance

/-- The exit status on its way to the caller. -/
def statusRuns (addr : UInt64) (xstate : Int) : List (Nat × List UInt8) :=
  if addr ≠ 0 then [(addr.toNat, intWord xstate)] else []

theorem waitx_reaps (hnp : zombieChild me k = some np) (hstatus : TakesStatus m addr) :
    waitx me addr r₀ w₀ m (k :: tables) =
      .ok ((k.proc np).pid, (k.proc np).rtime, (k.proc np).wtime, k.modify np freeproc,
        m.writes (statusRuns addr (k.proc np).xstate)) := by
  rw [waitx, hnp]
  by_cases haddr : addr = 0
  · simp [haddr, statusRuns, UserMem.writes, Proc.wtime]
  · have hfits : m.Writable addr.toNat 4 := hstatus haddr
    simp [haddr, statusRuns, UserMem.copyout_eq, UserMem.reached_of_writable, hfits, Proc.wtime]

theorem wait_reaps (hnp : zombieChild me k = some np) (hstatus : TakesStatus m addr) :
    wait me addr m (k :: tables) =
      .ok ((k.proc np).pid, k.modify np freeproc,
        m.writes (statusRuns addr (k.proc np).xstate)) := by
  rw [wait, hnp]
  by_cases haddr : addr = 0
  · simp [haddr, statusRuns, UserMem.writes]
  · have hfits : m.Writable addr.toNat 4 := hstatus haddr
    simp [haddr, statusRuns, UserMem.copyout_eq, UserMem.reached_of_writable, hfits]

theorem waitx_keeps (hnp : zombieChild me k = some np) (hstatus : ¬ TakesStatus m addr) :
    waitx me addr r₀ w₀ m (k :: tables) =
      .ok (-1, (k.proc np).rtime, (k.proc np).wtime, k,
        m.writes [(addr.toNat, m.reached addr.toNat (intWord (k.proc np).xstate))]) := by
  obtain ⟨haddr, hunfit⟩ := Classical.not_imp.mp hstatus
  rw [waitx, hnp]
  simp [haddr, UserMem.copyout_eq, hunfit, Proc.wtime]

theorem waitx_none (hret : returns me k = true) (hnone : zombieChild me k = none) :
    waitx me addr r₀ w₀ m (k :: tables) = .ok (-1, r₀, w₀, k, m) := by
  rw [waitx, hnone]
  simp [givesUp_of_none hret hnone]

/-- **`sys_waitx` after `waitx`**: the first of the two numbers goes to `wtime`
and the second to `rtime`. -/
theorem sys_waitx_eq {runs : List (Nat × List UInt8)}
    (h : waitx me status w₀ r₀ m tables = .ok (ret, w, r, k, m.writes runs)) :
    sys_waitx me w₀ r₀ (waitxStub status wtime rtime) m tables =
      .ok (if m.Writable wtime.toNat 4 ∧ m.Writable rtime.toNat 4 then ret else -1, k,
        m.writes (runs ++ m.copied [(wtime.toNat, word w), (rtime.toNat, word r)])) := by
  have hw : ((m.writes runs).copyout wtime (word w)).1 < 0 ↔ ¬ m.Writable wtime.toNat 4 := by
    rw [UserMem.copyout_writes_fails, word_length]
  have hr : ∀ runs', ((m.writes runs').copyout rtime (word r)).1 < 0 ↔
      ¬ m.Writable rtime.toNat 4 := by
    intro runs'
    rw [UserMem.copyout_writes_fails, word_length]
  simp only [sys_waitx, waitxStub, argaddr, argraw, h, bind, Except.bind, pure, Except.pure]
  rw [if_congr hw rfl rfl, UserMem.copyout_writes]
  by_cases hwfits : m.Writable wtime.toNat 4
  · rw [if_neg (not_not_intro hwfits), if_congr (hr _) rfl rfl, UserMem.copyout_writes]
    by_cases hrfits : m.Writable rtime.toNat 4
    · simp [UserMem.copied, hwfits, hrfits]
    · simp [UserMem.copied, hwfits, hrfits]
  · simp [UserMem.copied, hwfits]

/-! ### The times go to each other's place -/

/-- What `waitx` of user.h promises for the child `np`: its pid, `np` freed, its
waiting time at `wtime`, its running time at `rtime` and its exit status at
`status`, if that is not null. -/
structure Reports (np : Slot) (k : Kernel) (status wtime rtime : UInt64)
    (answer : Int × Kernel × UserMem) : Prop where
  pid : answer.1 = (k.proc np).pid
  freed : answer.2.1 = k.modify np freeproc
  waiting : Bytes.slice answer.2.2.byte wtime.toNat 4 = word (k.proc np).wtime
  running : Bytes.slice answer.2.2.byte rtime.toNat 4 = word (k.proc np).rtime
  xstate : status ≠ 0 → Bytes.slice answer.2.2.byte status.toNat 4 = intWord (k.proc np).xstate

/-- What is to be stored, and where. -/
def reportRuns (np : Slot) (k : Kernel) (status wtime rtime : UInt64) : List (Nat × List UInt8) :=
  statusRuns status (k.proc np).xstate ++
    [(wtime.toNat, word (k.proc np).wtime), (rtime.toNat, word (k.proc np).rtime)]

/-- What is to be stored is there. -/
theorem reports_iff {answer : Int × Kernel × UserMem} : Reports np k status wtime rtime answer ↔
    answer.1 = (k.proc np).pid ∧ answer.2.1 = k.modify np freeproc ∧
      ∀ run ∈ reportRuns np k status wtime rtime,
        Bytes.slice answer.2.2.byte run.1 run.2.length = run.2 := by
  have hstored : (∀ run ∈ reportRuns np k status wtime rtime,
      Bytes.slice answer.2.2.byte run.1 run.2.length = run.2) ↔
      (status ≠ 0 → Bytes.slice answer.2.2.byte status.toNat 4 = intWord (k.proc np).xstate) ∧
        Bytes.slice answer.2.2.byte wtime.toNat 4 = word (k.proc np).wtime ∧
        Bytes.slice answer.2.2.byte rtime.toNat 4 = word (k.proc np).rtime := by
    by_cases hnull : status = 0 <;> simp [reportRuns, statusRuns, hnull]
  rw [hstored]
  constructor
  · intro h
    exact ⟨h.pid, h.freed, h.xstate, h.waiting, h.running⟩
  · rintro ⟨hpid, hfreed, hxstate, hwaiting, hrunning⟩
    exact ⟨hpid, hfreed, hwaiting, hrunning, hxstate⟩

/-- The call, when every address is writable. -/
theorem sys_waitx_reaps (hnp : zombieChild me k = some np) (hstatus : TakesStatus m status)
    (hwtime : m.Writable wtime.toNat 4) (hrtime : m.Writable rtime.toNat 4) :
    sys_waitx me w₀ r₀ (waitxStub status wtime rtime) m (k :: tables) =
      .ok ((k.proc np).pid, k.modify np freeproc, m.writes (statusRuns status (k.proc np).xstate ++
        [(wtime.toNat, word (k.proc np).rtime), (rtime.toNat, word (k.proc np).wtime)])) := by
  rw [sys_waitx_eq (waitx_reaps hnp hstatus), if_pos ⟨hwtime, hrtime⟩]
  simp [UserMem.copied, UserMem.reached_of_writable, hwtime, hrtime]

/-- **When `waitx` reports the right times**: the two are the same number, and
where the addresses are so near to each other that what is stored meets, it is
the same bytes. -/
theorem waitx_reports_iff (hnp : zombieChild me k = some np) (hstatus : TakesStatus m status)
    (hwtime : m.Writable wtime.toNat 4) (hrtime : m.Writable rtime.toNat 4) :
    (∃ answer, sys_waitx me w₀ r₀ (waitxStub status wtime rtime) m (k :: tables) = .ok answer ∧
      Reports np k status wtime rtime answer) ↔
    (k.proc np).rtime = (k.proc np).wtime ∧
      (reportRuns np k status wtime rtime).Pairwise Bytes.Agree := by
  rw [sys_waitx_reaps hnp hstatus hwtime hrtime]
  -- with one number for both, what is stored is what is to be stored
  have hstored : (k.proc np).rtime = (k.proc np).wtime → statusRuns status (k.proc np).xstate ++
      [(wtime.toNat, word (k.proc np).rtime), (rtime.toNat, word (k.proc np).wtime)] =
        reportRuns np k status wtime rtime := by
    intro hsame
    rw [reportRuns, hsame]
  constructor
  · rintro ⟨answer, hanswer, hreports⟩
    obtain rfl := Except.ok.inj hanswer
    -- `wtime` is stored last
    have hlast : ∀ b : Nat → UInt8, Bytes.slice
        (Bytes.splice b rtime.toNat (word (k.proc np).wtime)) rtime.toNat 4 =
          word (k.proc np).wtime := by
      intro b
      rw [← word_length (x := (k.proc np).wtime)]
      exact Bytes.slice_splice
    have hrunning := hreports.running
    rw [UserMem.writes_byte, List.append_cons, Bytes.splices_append] at hrunning
    have hsame := word_inj (hrunning.symm.trans (hlast _))
    refine ⟨hsame, (Bytes.slices_splices_iff (b := m.byte)).mp ?_⟩
    have hthere := (reports_iff.mp hreports).2.2
    rwa [hstored hsame] at hthere
  · rintro ⟨hsame, hagree⟩
    rw [hstored hsame]
    exact ⟨_, rfl, reports_iff.mpr ⟨rfl, rfl, Bytes.slices_splices_iff.mpr hagree⟩⟩

/-- A caller at slot 0 with one child, at slot 1, which has exited. -/
def exitedChild (child : Proc) : Kernel :=
  { ticks := 9, nextpid := 3
    proc := fun i => if i = 1 then { child with state := .zombie, pid := 2, parent := some 0 }
      else if i = 0 then { state := .running, pid := 1 } else {} }

/-- A memory of four pages. -/
def fourPages : UserMem where
  mapped i := i < 4
  byte _ := 0
  mapped_lt i hi := by
    have hi' : i < 4 := of_decide_eq_true hi
    unfold PGSIZE MAXVA
    omega

/-- A child that has waited as long as it has run. -/
theorem waitx_reports_three :
    ∃ answer, sys_waitx 0 0 0 (waitxStub 0 16 32) fourPages
        [exitedChild { birthtime := 1, rtime := 3, etime := 7 }] = .ok answer ∧
      Reports 1 (exitedChild { birthtime := 1, rtime := 3, etime := 7 }) 0 16 32 answer :=
  (waitx_reports_iff (by decide) (by decide) (by decide) (by decide)).mpr
    ⟨by decide, by decide⟩

/-- A child that lived from tick 1 to tick 7 and ran for one tick of it. -/
theorem waitx_swaps : ∃ answer, sys_waitx 0 0 0 (waitxStub 0 16 32) fourPages
      [exitedChild { birthtime := 1, rtime := 1, etime := 7 }] = .ok answer ∧
    Bytes.slice answer.2.2.byte 16 4 = word 1 ∧ Bytes.slice answer.2.2.byte 32 4 = word 5 ∧
    ¬ Reports 1 (exitedChild { birthtime := 1, rtime := 1, etime := 7 }) 0 16 32 answer := by
  refine ⟨_, rfl, by decide, by decide, fun h => ?_⟩
  exact absurd h.waiting (by decide)

/-! ### A call that fails -/

/-- A `waitx` that returns -1 has changed nothing in the table of its last pass
and no byte of memory; one that returns anything else does to the table what
`wait` does, and returns the same pid. -/
structure FailsCleanly (me : Slot) (k : Kernel) (status : UInt64) (m : UserMem)
    (tables : List Kernel) (answer : Int × Kernel × UserMem) : Prop where
  children : answer.1 = -1 → answer.2.1 = k
  memory : answer.1 = -1 → answer.2.2.byte = m.byte
  reaps : answer.1 ≠ -1 → ∃ m', wait me status m tables = .ok (answer.1, answer.2.1, m')

/-- With a ZOMBIE child whose exit status can be stored: the times can be stored
too, and -1 is not its pid.  Otherwise: of the bytes that are copied, those
that stay are there already. -/
def CleanFailure (me : Slot) (k : Kernel) (status wtime rtime : UInt64) (w₀ r₀ : UInt32)
    (m : UserMem) : Prop :=
  match zombieChild me k with
  | none => Bytes.Unseen m.byte (m.copied [(wtime.toNat, word w₀), (rtime.toNat, word r₀)])
  | some np =>
      if TakesStatus m status then
        m.Writable wtime.toNat 4 ∧ m.Writable rtime.toNat 4 ∧ (k.proc np).pid ≠ -1
      else
        Bytes.Unseen m.byte
          ((status.toNat, m.reached status.toNat (intWord (k.proc np).xstate)) ::
            m.copied [(wtime.toNat, word (k.proc np).rtime), (rtime.toNat, word (k.proc np).wtime)])

/-- A freed child is not as it was. -/
theorem modify_freeproc_ne (hnp : zombieChild me k = some np) : k.modify np freeproc ≠ k := by
  intro hsame
  have hzombie : (k.proc np).parent = some me ∧ (k.proc np).state = .zombie := by
    simpa using findSlot_some hnp
  have hfreed : ((k.modify np freeproc).proc np).state = .unused := by
    rw [Kernel.modify_proc_self]
    rfl
  rw [hsame, hzombie.2] at hfreed
  exact absurd hfreed (by decide)

/-- A call that returns -1 and leaves the table. -/
theorem failsCleanly_of_kept {runs : List (Nat × List UInt8)} :
    FailsCleanly me k status m tables (-1, k, m.writes runs) ↔ Bytes.Unseen m.byte runs := by
  rw [← Bytes.splices_eq_self_iff]
  constructor
  · intro h
    exact h.memory rfl
  · intro h
    exact ⟨fun _ => rfl, fun _ => h, fun hne => absurd rfl hne⟩

/-- **When a failing `waitx` changes nothing.** -/
theorem waitx_failure_iff (hk : tables.find? (returns me) = some k) :
    (∀ answer, sys_waitx me w₀ r₀ (waitxStub status wtime rtime) m tables = .ok answer →
      FailsCleanly me k status m tables answer) ↔
    CleanFailure me k status wtime rtime w₀ r₀ m := by
  have hret : returns me k = true := List.find?_some hk
  have hlast : waitx me status w₀ r₀ m tables = waitx me status w₀ r₀ m [k] := waitx_last hk
  have honly : ∀ answer, sys_waitx me w₀ r₀ (waitxStub status wtime rtime) m tables = .ok answer →
      ((∀ answer', sys_waitx me w₀ r₀ (waitxStub status wtime rtime) m tables = .ok answer' →
        FailsCleanly me k status m tables answer') ↔ FailsCleanly me k status m tables answer) := by
    intro answer hanswer
    rw [hanswer]
    constructor
    · intro h
      exact h answer rfl
    · rintro h answer' hsame
      rwa [← Except.ok.inj hsame]
  cases hnp : zombieChild me k with
  | none =>
      rw [waitx_none hret hnp, ← UserMem.writes_nil (m := m)] at hlast
      rw [honly _ (sys_waitx_eq hlast), ite_self, failsCleanly_of_kept, CleanFailure, hnp]
      rfl
  | some np =>
      by_cases hstatus : TakesStatus m status
      · rw [waitx_reaps hnp hstatus] at hlast
        rw [honly _ (sys_waitx_eq hlast), CleanFailure, hnp]
        simp only [if_pos hstatus]
        constructor
        · intro h
          have hreturns := fun hret => modify_freeproc_ne hnp (h.children hret)
          by_cases hfits : m.Writable wtime.toNat 4 ∧ m.Writable rtime.toNat 4
          · refine ⟨hfits.1, hfits.2, fun hpid => hreturns ?_⟩
            rw [if_pos hfits, hpid]
          · exact absurd (if_neg hfits) hreturns
        · rintro ⟨hwtime, hrtime, hpid⟩
          rw [if_pos ⟨hwtime, hrtime⟩]
          refine ⟨fun h => absurd h hpid, fun h => absurd h hpid, fun _ => ?_⟩
          exact ⟨_, (wait_last hk).trans (wait_reaps hnp hstatus)⟩
      · rw [waitx_keeps hnp hstatus] at hlast
        rw [honly _ (sys_waitx_eq hlast), ite_self, failsCleanly_of_kept, CleanFailure, hnp]
        simp only [if_neg hstatus]
        rfl

/-- A call from a process without children, whose addresses are not mapped,
after one pass that it has slept on. -/
theorem waitx_failure_two : ∃ answer, sys_waitx 0 0 0 (waitxStub 0 32768 40960) fourPages
      [(exitedChild {}).modify 1 fun p => { p with state := .running }, userinit] = .ok answer ∧
    FailsCleanly 0 userinit 0 fourPages
      [(exitedChild {}).modify 1 fun p => { p with state := .running }, userinit] answer := by
  have hclean : CleanFailure 0 userinit 0 32768 40960 0 0 fourPages :=
    show Bytes.Unseen fourPages.byte [(32768, [])] from ⟨by decide, trivial⟩
  exact ⟨_, rfl, (waitx_failure_iff (by rfl)).mpr hclean _ rfl⟩

/-- `wtime` is an address that is not mapped: the call returns -1 and the child
is gone. -/
theorem waitx_loses_child : ∃ answer, sys_waitx 0 0 0 (waitxStub 0 32768 32) fourPages
      [exitedChild {}] = .ok answer ∧
    answer.1 = -1 ∧ (answer.2.1.proc 1).state = .unused ∧
    zombieChild 0 (exitedChild {}) = some 1 ∧ havekids 0 answer.2.1 = false ∧
    ¬ FailsCleanly 0 (exitedChild {}) 0 fourPages [exitedChild {}] answer := by
  refine ⟨_, rfl, by decide, by decide, by decide, by decide, fun h => ?_⟩
  have hnp : zombieChild 0 (exitedChild {}) = some 1 := by decide
  exact modify_freeproc_ne hnp (h.children (by decide))

end Calls

end Xv6
