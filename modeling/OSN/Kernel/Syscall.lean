import Mathlib.Data.List.Basic
import Mathlib.Data.UInt
import Mathlib.Tactic.Common
import Mathlib.Tactic.FinCases
import Mathlib.Tactic.IntervalCases

/-!
# System calls and their trace

`syscall` of syscall.c with its three tables.  `syscalls` has an entry for
`SYS_waitx`, 24; `syscall_names` and `syscall_argcnt`, both indexed by
`num - 1`, end with `set_priority`, 23, and `syscall_argcnt` is read before
`num` is checked.

With tracing on, the first argument is printed as it was at entry and the
others as they are in the trap frame after the handler.  Of the handlers only
`exec` writes to them.
-/

namespace Xv6

/-- The registers of `struct trapframe` that system calls use. -/
structure Trapframe where
  epc : UInt64 := 0
  sp : UInt64 := 0
  a0 : UInt64 := 0
  a1 : UInt64 := 0
  a2 : UInt64 := 0
  a3 : UInt64 := 0
  a4 : UInt64 := 0
  a5 : UInt64 := 0
  a7 : UInt64 := 0
  deriving DecidableEq

/-- The conversion of a `uint64` to `int`. -/
def toInt (x : UInt64) : Int32 := x.toUInt32.toInt32

/-- The tables of syscall.c. -/
inductive SyscallTable where
  | syscalls | argcnt | names
  deriving DecidableEq

/-- How `syscall` may not come back. -/
inductive Stuck where
  /-- A table is read at an index that it does not have. -/
  | outside (table : SyscallTable) (index : Int)
  | panic (message : String)
  /-- The handler does not return. -/
  | noreturn
  deriving DecidableEq

/-- `argraw`. -/
def argraw (tf : Trapframe) : Nat → Except Stuck UInt64
  | 0 => .ok tf.a0
  | 1 => .ok tf.a1
  | 2 => .ok tf.a2
  | 3 => .ok tf.a3
  | 4 => .ok tf.a4
  | 5 => .ok tf.a5
  | _ => .error (.panic "argraw")

/-- `argint`. -/
def argint (tf : Trapframe) (n : Nat) : Except Stuck Int32 := (argraw tf n).map toInt

/-- `argaddr`. -/
def argaddr (tf : Trapframe) (n : Nat) : Except Stuck UInt64 := argraw tf n

/-! ### The tables -/

/-- The system calls. -/
inductive Syscall where
  | fork | exit | wait | pipe | read | kill | exec | fstat | chdir | dup | getpid | sbrk | sleep
  | uptime | open | write | mknod | unlink | link | mkdir | close | trace | set_priority | waitx
  deriving DecidableEq, Repr

/-- `syscalls[]`, with the null pointer at index 0. -/
def syscalls : List (Option Syscall) :=
  [none, some .fork, some .exit, some .wait, some .pipe, some .read, some .kill, some .exec,
    some .fstat, some .chdir, some .dup, some .getpid, some .sbrk, some .sleep, some .uptime,
    some .open, some .write, some .mknod, some .unlink, some .link, some .mkdir, some .close,
    some .trace, some .set_priority, some .waitx]

/-- `syscall_names`. -/
def syscallNames : List String :=
  ["fork", "exit", "wait", "pipe", "read", "kill", "exec", "fstat", "chdir", "dup", "getpid",
    "sbrk", "sleep", "uptime", "open", "write", "mknod", "unlink", "link", "mkdir", "close",
    "trace", "set_priority"]

/-- `syscall_argcnt`. -/
def syscallArgcnt : List Nat :=
  [0, 1, 1, 1, 3, 1, 2, 2, 1, 1, 0, 1, 1, 0, 2, 3, 3, 1, 2, 1, 1, 1, 2]

/-- Read a table. -/
def readTable {α : Type} (table : SyscallTable) (entries : List α) (index : Int) :
    Except Stuck α :=
  match if 0 ≤ index then entries[index.toNat]? else none with
  | some x => .ok x
  | none => .error (.outside table index)

/-! ### The handlers, as far as the trap frame goes -/

/-- `MAXARG` of param.h. -/
def MAXARG : Nat := 32

/-- `PGSIZE` of riscv.h. -/
def PGSIZE : Nat := 4096

/-- What `exec` has found when it comes to the stack: the size of the image with
its two stack pages, the length of each `argv[i]`, and what it commits to. -/
structure Image where
  sz : UInt64
  argv : List Nat
  entry : UInt64 := 0
  name : String := ""

/-- The loop of `exec` that pushes the argument strings, from `argc` on; `none`
is `goto bad`. -/
def pushStrings (stackbase : UInt64) : List Nat → Nat → UInt64 → Option UInt64
  | [], _, sp => some sp
  | len :: rest, argc, sp =>
      if MAXARG ≤ argc then none
      else
        let sp := sp - UInt64.ofNat (len + 1)
        let sp := sp - sp % 16
        if sp < stackbase then none else pushStrings stackbase rest (argc + 1) sp

/-- The stack pointer of the new image; `none` is `goto bad`. -/
def execStack (image : Image) : Option UInt64 :=
  let stackbase := image.sz - UInt64.ofNat PGSIZE
  match pushStrings stackbase image.argv 0 image.sz with
  | none => none
  | some sp =>
      let sp := sp - UInt64.ofNat ((image.argv.length + 1) * 8)
      let sp := sp - sp % 16
      if sp < stackbase then none else some sp

/-- The process that makes the call. -/
structure Caller where
  trapframe : Trapframe
  traceMask : Int32 := 0
  pid : Int := 0
  name : String := ""

/-- What the rest of the kernel makes of a call: what the handler returns, and
for `exec` the image, if it can be loaded. -/
structure Answer where
  ret : UInt64 := 0
  image : Option Image := none

/-- `exec`, with its return value. -/
def exec (image : Option Image) (c : Caller) : UInt64 × Caller :=
  match image with
  | none => (-1, c)
  | some image =>
      match execStack image with
      | none => (-1, c)
      | some sp =>
          (UInt64.ofNat image.argv.length, { c with
            trapframe := { c.trapframe with a1 := sp, epc := image.entry, sp := sp }
            name := image.name })

/-- `syscalls[num]()`: the value it returns, and what it writes to the trap
frame, the trace mask and the name of the process that makes the call. -/
def handle (call : Syscall) (answer : Answer) (c : Caller) : Except Stuck (UInt64 × Caller) :=
  match call with
  | .exit => .error .noreturn
  | .exec => .ok (exec answer.image c)
  | .trace => do
      let n ← argint c.trapframe 0
      return (0, { c with traceMask := n })
  | _ => .ok (answer.ret, c)

/-! ### The dispatcher -/

/-- A call of `printf`, with its format. -/
inductive Printf where
  | str (format text : String)
  | int (format : String) (n : Int32)
  | diagnostic (format : String) (pid : Int) (name : String) (num : Int32)
  deriving DecidableEq

/-- `num`. -/
def Caller.num (c : Caller) : Int32 := toInt c.trapframe.a7

/-- `num > 0 && num < NELEM(syscalls) && syscalls[num]`, with the entry. -/
def lookup (num : Int32) : Except Stuck (Option Syscall) :=
  if 0 < num.toInt ∧ num.toInt < syscalls.length then readTable .syscalls syscalls num.toInt
  else .ok none

/-- The line that `syscall` prints; `first` is `a`. -/
def traceLine (tf : Trapframe) (num first : Int32) : Except Stuck (List Printf) := do
  let name ← readTable .names syscallNames (num.toInt - 1)
  let argcnt ← readTable .argcnt syscallArgcnt (num.toInt - 1)
  let others ← (List.range' 1 (argcnt - 1)).mapM fun i => argint tf i
  return .str "syscall %s (" name ::
    ((if 0 < argcnt then [.int "%d " first] else []) ++ others.map (.int "%d ") ++
      [.int "\x08) -> %d\n" (toInt tf.a0)])

/-- `a` before the handler: the first argument, if the call has any. -/
def firstArg (tf : Trapframe) (argcnt : Nat) : Except Stuck Int32 :=
  if 0 < argcnt then argint tf 0 else .ok 0

/-- `syscall`. -/
def syscall (answer : Answer) (c : Caller) : Except Stuck (List Printf × Caller) := do
  let num := c.num
  let argcnt ← readTable .argcnt syscallArgcnt (num.toInt - 1)
  let a ← firstArg c.trapframe argcnt
  match ← lookup num with
  | some call =>
      let (ret, c) ← handle call answer c
      let c := { c with trapframe := { c.trapframe with a0 := ret } }
      if c.traceMask &&& (1 <<< num) ≠ 0 then
        return (← traceLine c.trapframe num a, c)
      else return ([], c)
  | none =>
      return ([.diagnostic "%d %s: unknown sys call %d\n" c.pid c.name num],
        { c with trapframe := { c.trapframe with a0 := -1 } })

/-! ### The tables agree up to `SYS_set_priority` -/

/-- A system call as user.h declares it: its name and how many arguments it
has. -/
def Syscall.declared : Syscall → String × Nat
  | .fork => ("fork", 0)
  | .exit => ("exit", 1)
  | .wait => ("wait", 1)
  | .pipe => ("pipe", 1)
  | .read => ("read", 3)
  | .kill => ("kill", 1)
  | .exec => ("exec", 2)
  | .fstat => ("fstat", 2)
  | .chdir => ("chdir", 1)
  | .dup => ("dup", 1)
  | .getpid => ("getpid", 0)
  | .sbrk => ("sbrk", 1)
  | .sleep => ("sleep", 1)
  | .uptime => ("uptime", 0)
  | .open => ("open", 2)
  | .write => ("write", 3)
  | .mknod => ("mknod", 3)
  | .unlink => ("unlink", 1)
  | .link => ("link", 2)
  | .mkdir => ("mkdir", 1)
  | .close => ("close", 1)
  | .trace => ("trace", 1)
  | .set_priority => ("set_priority", 2)
  | .waitx => ("waitx", 3)

/-- What register `a0` to `a5` holds. -/
def Trapframe.arg (tf : Trapframe) : Nat → UInt64
  | 0 => tf.a0
  | 1 => tf.a1
  | 2 => tf.a2
  | 3 => tf.a3
  | 4 => tf.a4
  | _ => tf.a5

variable {tf : Trapframe} {num : Int32} {call : Syscall} {answer : Answer} {c c' : Caller}
  {ret : UInt64}

/-- The value that a call returns overwrites its first argument only. -/
theorem arg_a0_succ {x : UInt64} :
    ∀ i, ({ tf with a0 := x } : Trapframe).arg (i + 1) = tf.arg (i + 1)
  | 0 | 1 | 2 | 3 | _ + 4 => rfl

theorem argint_ok {i : Nat} (hi : i ≤ 5) : argint tf i = .ok (toInt (tf.arg i)) := by
  interval_cases i <;> rfl

/-- A call takes at most three arguments. -/
theorem declared_le (call : Syscall) : call.declared.2 ≤ 3 := by
  cases call <;> decide

/-- Reading a table where it has an entry. -/
theorem readTable_ok {α : Type} {table : SyscallTable} {entries : List α} {index : Int} {k : Nat}
    {x : α} (hk : index = k) (hx : entries[k]? = some x) : readTable table entries index = .ok x := by
  subst hk
  simp [readTable, hx]

/-- Reading a table where it has none. -/
theorem readTable_outside {α : Type} {table : SyscallTable} {entries : List α} {index : Int}
    (h : index < 0 ∨ entries.length ≤ index) :
    readTable table entries index = .error (.outside table index) := by
  by_cases hneg : 0 ≤ index
  · have hlen : entries.length ≤ index.toNat := by omega
    simp [readTable, hlen]
  · simp [readTable, hneg]

/-- The three tables at the same number. -/
theorem tables_at (k : Fin 23) : ∃ call : Syscall, syscalls[k.val + 1]? = some (some call) ∧
    syscallNames[k.val]? = some call.declared.1 ∧ syscallArgcnt[k.val]? = some call.declared.2 ∧
    call ≠ .waitx := by
  fin_cases k <;> exact ⟨_, rfl, rfl, rfl, by decide⟩

/-- **The tables agree** on every number from 1 to 23. -/
theorem tables_agree (hlow : 1 ≤ num.toInt) (hhigh : num.toInt ≤ 23) :
    ∃ call, lookup num = .ok (some call) ∧
      readTable .names syscallNames (num.toInt - 1) = .ok call.declared.1 ∧
      readTable .argcnt syscallArgcnt (num.toInt - 1) = .ok call.declared.2 ∧ call ≠ .waitx := by
  obtain ⟨k, hk⟩ : ∃ k : Fin 23, num.toInt = (k.val + 1 : Nat) := by
    refine ⟨⟨(num.toInt - 1).toNat, by omega⟩, ?_⟩
    show num.toInt = ((num.toInt - 1).toNat + 1 : Nat)
    omega
  obtain ⟨call, hcall, hname, hcnt, hne⟩ := tables_at k
  refine ⟨call, ?_, readTable_ok (by omega) hname, readTable_ok (by omega) hcnt, hne⟩
  have hrange : 0 < num.toInt ∧ num.toInt < syscalls.length := ⟨by omega, by simp [syscalls]; omega⟩
  rw [lookup, if_pos hrange]
  exact readTable_ok hk hcall

/-- Of the numbers that the dispatcher accepts only 24, `waitx`, has no entry in
the other two tables. -/
theorem lookup_some (h : lookup num = .ok (some call)) :
    (1 ≤ num.toInt ∧ num.toInt ≤ 23) ∨ num.toInt = 24 ∧ call = .waitx := by
  have hrange : 0 < num.toInt ∧ num.toInt < syscalls.length := by
    by_contra hnot
    simp [lookup, hnot] at h
  have hlen : (syscalls.length : Int) = 25 := rfl
  by_cases hlast : num.toInt = 24
  · have hwaitx : readTable .syscalls syscalls num.toInt = .ok (some .waitx) :=
      readTable_ok (k := 24) (by omega) rfl
    rw [lookup, if_pos hrange, hwaitx] at h
    exact Or.inr ⟨hlast, by simpa [eq_comm] using h⟩
  · exact Or.inl ⟨by omega, by omega⟩

/-- All other numbers are read in `syscall_argcnt` all the same. -/
theorem syscall_outside (h : c.num.toInt < 1 ∨ 23 < c.num.toInt) :
    syscall answer c = .error (.outside .argcnt (c.num.toInt - 1)) := by
  have hlen : (syscallArgcnt.length : Int) = 23 := rfl
  rw [syscall, readTable_outside (by omega)]
  rfl

/-! ### The line -/

/-- The line that reports a call made with registers `tf` and answered by
`ret`. -/
def report (call : Syscall) (tf : Trapframe) (ret : UInt64) : List Printf :=
  .str "syscall %s (" call.declared.1 ::
    ((List.range call.declared.2).map (fun i => .int "%d " (toInt (tf.arg i))) ++
      [.int "\x08) -> %d\n" (toInt ret)])

/-- A loop of reads that all succeed. -/
theorem mapM_ok {α β ε : Type} {f : α → Except ε β} {g : α → β} :
    ∀ {l : List α}, (∀ a ∈ l, f a = .ok (g a)) → l.mapM f = .ok (l.map g)
  | [], _ => rfl
  | a :: l, h => by
      have hrest : l.mapM f = .ok (l.map g) := mapM_ok fun b hb => h b (List.mem_cons_of_mem a hb)
      rw [List.mapM_cons, h a List.mem_cons_self, hrest]
      rfl

/-- The line has the first argument as it was at entry and the others from the
trap frame. -/
theorem traceLine_eq (hname : readTable .names syscallNames (num.toInt - 1) = .ok call.declared.1)
    (hcnt : readTable .argcnt syscallArgcnt (num.toInt - 1) = .ok call.declared.2)
    (first : UInt64) :
    traceLine { tf with a0 := ret } num (toInt first) =
      .ok (report call { tf with a0 := first } ret) := by
  have hargs : (List.range' 1 (call.declared.2 - 1)).mapM (fun i => argint { tf with a0 := ret } i) =
      .ok ((List.range' 1 (call.declared.2 - 1)).map fun i => toInt (tf.arg i)) := by
    apply mapM_ok
    intro i hi
    have hle := declared_le call
    have hbounds : 1 ≤ i ∧ i ≤ 5 := by
      rw [List.mem_range'_1] at hi
      omega
    rw [argint_ok hbounds.2]
    obtain ⟨j, rfl⟩ := Nat.exists_eq_add_of_le' hbounds.1
    rw [arg_a0_succ]
  rw [traceLine, hname, hcnt]
  simp only [bind, Except.bind, hargs, pure, Except.pure, report]
  cases call.declared.2 with
  | zero => rfl
  | succ k =>
      have hothers : ∀ i ∈ List.range' 1 k,
          (({ tf with a0 := first } : Trapframe).arg i) = tf.arg i := by
        intro i hi
        obtain ⟨j, rfl⟩ := Nat.exists_eq_add_of_le' (List.mem_range'_1.mp hi).1
        exact arg_a0_succ j
      have hmap : ∀ f : Int32 → Printf,
          (List.range' 1 k).map (fun i => f (toInt (({ tf with a0 := first } : Trapframe).arg i))) =
            ((List.range' 1 k).map fun i => toInt (tf.arg i)).map f := by
        intro f
        rw [List.map_map]
        exact List.map_congr_left fun i hi => by rw [hothers i hi]; rfl
      rw [List.range_eq_range', List.range'_succ, List.map_cons, hmap]
      rfl

/-- **What `syscall` does with a number from 1 to 23**: it runs the handler and,
if the call is traced, prints the line from the trap frame that the handler
leaves. -/
theorem syscall_inside (hlow : 1 ≤ c.num.toInt) (hhigh : c.num.toInt ≤ 23) :
    ∃ call, lookup c.num = .ok (some call) ∧ call ≠ .waitx ∧
      syscall answer c = (handle call answer c).map fun r =>
        (if r.2.traceMask &&& (1 <<< c.num) ≠ 0 then
            report call { r.2.trapframe with a0 := c.trapframe.a0 } r.1 else [],
          { r.2 with trapframe := { r.2.trapframe with a0 := r.1 } }) := by
  obtain ⟨call, hcall, hname, hcnt, hne⟩ := tables_agree hlow hhigh
  refine ⟨call, hcall, hne, ?_⟩
  -- without arguments `a` is not read
  obtain ⟨a, ha, hline⟩ : ∃ a : Int32, firstArg c.trapframe call.declared.2 = .ok a ∧
      ∀ (tf : Trapframe) (ret : UInt64), traceLine { tf with a0 := ret } c.num a =
        .ok (report call { tf with a0 := c.trapframe.a0 } ret) := by
    by_cases hargs : 0 < call.declared.2
    · exact ⟨_, if_pos hargs, fun tf ret => traceLine_eq hname hcnt _⟩
    · refine ⟨toInt 0, if_neg hargs, fun tf ret => ?_⟩
      rw [traceLine_eq hname hcnt]
      simp [report, Nat.eq_zero_of_not_pos hargs]
  rw [syscall, hcnt]
  simp only [bind, Except.bind, ha, hcall]
  cases handle call answer c with
  | error => rfl
  | ok r =>
      obtain ⟨ret, c'⟩ := r
      by_cases htraced : c'.traceMask &&& (1 <<< c.num) ≠ 0
      · simp [Except.map, htraced, hline]
        rfl
      · simp [Except.map, htraced]
        rfl

/-! ### Safe indices -/

/-- What is to be proved of `syscall`: all indices are in range, and for a
number that is not a system call it only prints the diagnostic and returns -1. -/
structure SafeTables (answer : Answer) (c : Caller) : Prop where
  inside : ∀ table index, syscall answer c ≠ .error (.outside table index)
  unknown : lookup c.num = .ok none →
    syscall answer c = .ok ([.diagnostic "%d %s: unknown sys call %d\n" c.pid c.name c.num],
      { c with trapframe := { c.trapframe with a0 := -1 } })

/-- A handler reads no table. -/
theorem handle_inside (table : SyscallTable) (index : Int) :
    handle call answer c ≠ .error (.outside table index) := by
  cases call <;> simp [handle, argint, argraw, Except.map, bind, Except.bind, pure, Except.pure]

/-- **When the tables are safe.**  Exactly for the numbers from 1 to 23: below
and above, `SYS_waitx` included, `syscall_argcnt` is read out of range. -/
theorem safeTables_iff (answer : Answer) (c : Caller) :
    SafeTables answer c ↔ 1 ≤ c.num.toInt ∧ c.num.toInt ≤ 23 := by
  constructor
  · intro hsafe
    by_contra hnot
    exact hsafe.inside _ _ (syscall_outside (by omega))
  · rintro ⟨hlow, hhigh⟩
    obtain ⟨call, hcall, -, hsyscall⟩ := syscall_inside hlow hhigh
    refine ⟨?_, fun hnone => ?_⟩
    · intro table index houtside
      rw [hsyscall] at houtside
      cases hhandle : handle call answer c with
      | error stuck =>
          rw [hhandle] at houtside
          obtain rfl := Except.error.inj houtside
          exact handle_inside table index hhandle
      | ok r =>
          rw [hhandle] at houtside
          exact nomatch houtside
    · rw [hcall] at hnone
      simp at hnone

/-- `waitx`, which the dispatcher accepts, is not safe. -/
theorem waitx_outside :
    ¬ ∀ (answer : Answer) (c : Caller), SafeTables answer c := by
  intro hall
  exact (hall {} { trapframe := { a7 := 24 } }).inside _ _ (syscall_outside (Or.inr (by decide)))

/-! ### The trace reports the call -/

/-- Of the handlers only `exec` writes to the trap frame of its process. -/
theorem handle_frame (h : handle call answer c = .ok (ret, c')) (hne : call ≠ .exec) :
    c'.trapframe = c.trapframe := by
  cases call with
  | exec => exact absurd rfl hne
  | exit => simp [handle] at h
  | trace =>
      obtain ⟨-, rfl⟩ : (0 : UInt64) = ret ∧ _ = c' := by
        simpa [handle, argint, argraw, Except.map, bind, Except.bind, pure, Except.pure] using h
      rfl
  | _ =>
      obtain ⟨-, rfl⟩ : answer.ret = ret ∧ c = c' := by simpa [handle] using h
      rfl

/-- The stack pointer that `exec` hands to the new image, if it succeeds. -/
def Answer.stack (answer : Answer) : Option UInt64 := answer.image.bind execStack

/-- `exec` writes that stack pointer over its second argument. -/
theorem exec_frame :
    (exec answer.image c).2.trapframe.a1 = answer.stack.getD c.trapframe.a1 := by
  unfold exec Answer.stack
  cases answer.image with
  | none => rfl
  | some image => cases hstack : execStack image <;> simp [hstack]

/-- The lines of two trap frames are the same if the arguments are. -/
theorem report_eq_iff {tf' : Trapframe} : report call tf ret = report call tf' ret ↔
    ∀ i < call.declared.2, toInt (tf.arg i) = toInt (tf'.arg i) := by
  simp [report]

/-- **When strace reports the call.**  For a call whose handler returns and
which is traced then, the line is that of the call as it was made exactly if
the call is not `waitx` and, if it is an `exec` that succeeds, the stack
pointer of the new image happens to be what its argument `argv` was, as an
`int`. -/
theorem trace_reports_iff (hcall : lookup c.num = .ok (some call))
    (hret : handle call answer c = .ok (ret, c'))
    (htraced : c'.traceMask &&& (1 <<< c.num) ≠ 0) :
    (syscall answer c).map Prod.fst = .ok (report call c.trapframe ret) ↔
      call ≠ .waitx ∧
        (call = .exec → ∀ sp ∈ answer.stack, toInt sp = toInt c.trapframe.a1) := by
  rcases lookup_some hcall with ⟨hlow, hhigh⟩ | ⟨hlast, rfl⟩
  · obtain ⟨call', hcall', hne, hsyscall⟩ := syscall_inside hlow hhigh
    obtain rfl : call = call' := by
      rw [hcall] at hcall'
      simpa using hcall'
    have hline : (syscall answer c).map Prod.fst =
        .ok (report call { c'.trapframe with a0 := c.trapframe.a0 } ret) := by
      rw [hsyscall, hret]
      simp [Except.map, htraced]
    rw [hline, Except.ok.injEq, report_eq_iff]
    by_cases hexec : call = .exec
    · subst hexec
      have ha1 : c'.trapframe.a1 = answer.stack.getD c.trapframe.a1 := by
        obtain hpair : exec answer.image c = (ret, c') := by simpa [handle] using hret
        rw [← exec_frame, hpair]
      have hargs : (∀ i < Syscall.exec.declared.2,
          toInt (({ c'.trapframe with a0 := c.trapframe.a0 } : Trapframe).arg i) =
            toInt (c.trapframe.arg i)) ↔ toInt c'.trapframe.a1 = toInt c.trapframe.a1 := by
        constructor
        · intro hsame
          exact hsame 1 (by decide)
        · intro hsecond i hi
          have htwo : i < 2 := hi
          interval_cases i
          · rfl
          · exact hsecond
      rw [hargs, ha1]
      cases answer.stack with
      | none => simp
      | some sp => simp
    · rw [handle_frame hret hexec]
      simp [hne, hexec]
  · rw [syscall_outside (Or.inr (by omega))]
    simp [Except.map]

/-- A call of `read`, traced. -/
def tracedRead : Caller :=
  { trapframe := { a0 := 3, a1 := 0x3000, a2 := 512, a7 := 5 }, traceMask := 32 }

/-- The theorem at that call. -/
theorem trace_reports_iff_read :
    (syscall { ret := 10 } tracedRead).map Prod.fst =
      .ok [.str "syscall %s (" "read", .int "%d " 3, .int "%d " 0x3000, .int "%d " 512,
        .int "\x08) -> %d\n" 10] := by
  have hcall : lookup tracedRead.num = .ok (some .read) := rfl
  have hret : handle .read { ret := 10 } tracedRead = .ok (10, tracedRead) := rfl
  exact (trace_reports_iff hcall hret (by decide)).mpr ⟨by decide, nofun⟩

/-- An `exec` of `echo` with one more argument, traced. -/
def tracedExec : Caller :=
  { trapframe := { a0 := 0x2f00, a1 := 0x2f80, a7 := 7 }, traceMask := 128 }

/-- What that `exec` finds. -/
def echoImage : Answer := { image := some { sz := 0x5000, argv := [4, 2] } }

/-- Its second argument is printed as the stack pointer of the new image. -/
theorem exec_misreported :
    ¬ ∀ (answer : Answer) (c c' : Caller) (call : Syscall) (ret : UInt64),
      lookup c.num = .ok (some call) → handle call answer c = .ok (ret, c') →
        c'.traceMask &&& (1 <<< c.num) ≠ 0 →
          (syscall answer c).map Prod.fst = .ok (report call c.trapframe ret) := by
  intro hall
  have hline := hall echoImage tracedExec (exec echoImage.image tracedExec).2 .exec
    (exec echoImage.image tracedExec).1 rfl rfl (by decide)
  have hprinted : (syscall echoImage tracedExec).map Prod.fst = .ok [.str "syscall %s (" "exec",
      .int "%d " 0x2f00, .int "%d " 0x4fc0, .int "\x08) -> %d\n" 2] := by rfl
  rw [hprinted] at hline
  exact absurd (Except.ok.inj hline) (by decide)

end Xv6
