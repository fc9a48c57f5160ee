import OSN.Lib.LineEditor
import OSN.Lib.Ring
import OSN.Lib.Run
import OSN.Kernel.Streams

/-!
# The console is a line editor

`consoleread` holds `cons.lock` except while it sleeps, and `consoleintr` holds it to its
end.  One event is a character that is typed, one pass through the loops of `consoleread`
or a step into the lock, so the calls of any number of readers interleave where they
give the lock up.  Readers can write to where they want the characters.

The indices `r`, `w` and `e` only ever wrap around.  What lies between `r` and `w` is
committed, and what lies between `w` and `e` can be edited (`Shows`).
-/

namespace Xv6

open LineEditor (Key Output)

/-- Where a process is. -/
inductive ConsoleAt where
  | out
  /-- Acquires `cons.lock`, for the loops of `consoleread`. -/
  | lockRead (target n : Int)
  /-- At the top of the loops of `consoleread`. -/
  | loop (target n : Int)
  /-- Sleeps on `&cons.r`. -/
  | asleep (target n : Int)
  deriving DecidableEq

/-- The console and the processes that read from it.  What they get is kept for the record. -/
structure ConsoleCalls (N : Nat) extends Console where
  lock : Option (Fin N) := none
  call : Fin N → ConsoleAt := fun _ => .out
  output : List (Output (Fin N) UInt8) := []

/-- One event. -/
inductive ConsoleEvent (N : Nat) where
  /-- `consoleintr`, for a character that has been typed. -/
  | type (c : UInt8)
  /-- A process calls `consoleread`. -/
  | read (p : Fin N) (n : Int)
  /-- A process acquires the lock. -/
  | acquire (p : Fin N)
  /-- A pass through the loops of `consoleread`. -/
  | pass (p : Fin N) (killed : Bool)
  /-- `kill` wakes a process up. -/
  | kill (p : Fin N)

namespace ConsoleCalls

variable {N : Nat}

def setCall (s : ConsoleCalls N) (p : Fin N) (at' : ConsoleAt) : ConsoleCalls N :=
  { s with call := Function.update s.call p at' }

def put (s : ConsoleCalls N) (o : Output (Fin N) UInt8) : ConsoleCalls N :=
  { s with output := s.output ++ [o] }

/-- `wakeup(&cons.r)`. -/
def wakeReaders (s : ConsoleCalls N) : ConsoleCalls N :=
  { s with
    call := fun p =>
      match s.call p with
      | .asleep target n => .lockRead target n
      | other => other }

/-- The process gives up the lock and goes on at `at'`. -/
def release (s : ConsoleCalls N) (p : Fin N) (at' : ConsoleAt) : ConsoleCalls N :=
  { s.setCall p at' with lock := none }

/-- `consoleread` returns. -/
def returns (s : ConsoleCalls N) (p : Fin N) (r : Int) : ConsoleCalls N :=
  (s.release p .out).put (.returns p r)

/-- `consoleintr`. -/
def type (s : ConsoleCalls N) (c : UInt8) : Option (ConsoleCalls N) :=
  if s.lock = none then
    let (cons, wakes) := s.intr c
    let t := { s with toConsole := cons }
    some (if wakes then t.wakeReaders else t)
  else none

/-- `acquire(&cons.lock)`. -/
def acquire (s : ConsoleCalls N) (p : Fin N) : Option (ConsoleCalls N) :=
  if s.lock = none then
    match s.call p with
    | .lockRead target n => some { s.setCall p (.loop target n) with lock := some p }
    | _ => none
  else none

/-- A pass through the loops of `consoleread`. -/
def pass (s : ConsoleCalls N) (p : Fin N) (killed : Bool) : Option (ConsoleCalls N) :=
  match s.call p with
  | .loop target n =>
      if 0 < n then
        if s.r = s.w then
          if killed then some (s.returns p (-1)) else some (s.release p (.asleep target n))
        else
          let c := s.char s.r
          let t := { s with r := s.r + 1 }
          if c = ctrl 'D' then
            if n < target then some ({ t with r := t.r - 1 }.returns p (target - n))
            else some ((t.put (.endOfInput p)).returns p (target - n))
          else
            let t := t.put (.char p c)
            if c = '\n'.toUInt8 then some (t.returns p (target - (n - 1)))
            else some (t.setCall p (.loop target (n - 1)))
      else some (s.returns p (target - n))
  | _ => none

/-- `kill` makes a sleeping process runnable. -/
def kill (s : ConsoleCalls N) (p : Fin N) : Option (ConsoleCalls N) :=
  match s.call p with
  | .asleep target n => some (s.setCall p (.lockRead target n))
  | _ => none

/-- A step. -/
def step (s : ConsoleCalls N) : ConsoleEvent N → Option (ConsoleCalls N)
  | .type c => s.type c
  | .read p n => if s.call p = .out then some (s.setCall p (.lockRead n n)) else none
  | .acquire p => s.acquire p
  | .pass p killed => s.pass p killed
  | .kill p => s.kill p

end ConsoleCalls

/-- The console from `consoleinit` on, with `N` processes that may read from it. -/
def console (N : Nat) : Machine (ConsoleCalls N) (ConsoleEvent N) where
  init s := s = {}
  step := ConsoleCalls.step

/-! ### The line editor that it is -/

/-- What a character that is typed means. -/
def keyOf (c : UInt8) : Key UInt8 :=
  if c = ctrl 'P' ∨ c = 0 then .other
  else if c = ctrl 'U' then .kill
  else if c = ctrl 'H' ∨ c = 0x7f then .erase
  else .char (if c = '\r'.toUInt8 then '\n'.toUInt8 else c)

def terminal : LineEditor.Terminal UInt8 where
  room := INPUT_BUF.toNat
  newline := '\n'.toUInt8
  eof := ctrl 'D'

variable {N : Nat}

/-- What an event is for the editor. -/
def ConsoleEvent.edits : ConsoleEvent N → Option (LineEditor.Event (Fin N) UInt8)
  | .type c => some (.key (keyOf c))
  | .read p n => some (.read p n)
  | .pass p killed => some (.take p killed)
  | .acquire _ | .kill _ => none

/-- The editor after the events of the past. -/
def edited : Past (ConsoleCalls N) (ConsoleEvent N) → LineEditor.State (Fin N) UInt8
  | [] => {}
  | (_, e) :: past =>
      match e.edits with
      | some e => (edited past).step terminal e
      | none => edited past

/-- The read that a process is in. -/
def ConsoleAt.reading : ConsoleAt → Option (Int × Int)
  | .out => none
  | .lockRead target n | .loop target n | .asleep target n => some (target, n)

/-- The cells of the console's buffer. -/
def Console.cell (cons : Console) (i : Nat) : UInt8 := cons.buf (UInt32.ofNat i)

/-- **The console shows** the characters that are committed and those that are not. -/
structure Console.Shows (cons : Console) (ready edit : List UInt8) : Prop where
  window : Ring.Window INPUT_BUF.toNat (2 ^ 32) cons.cell cons.r.toNat cons.e.toNat (ready ++ edit)
  write : cons.w.toNat = (cons.r.toNat + ready.length) % 2 ^ 32
  /-- A line that ends is committed. -/
  plain : '\n'.toUInt8 ∉ edit

/-- The console does what the editor does. -/
structure Follows (s : ConsoleCalls N) (ed : LineEditor.State (Fin N) UInt8) : Prop where
  console : s.Shows ed.ready ed.edit
  call : ∀ p, ed.call p = (s.call p).reading
  output : s.output = ed.output

theorem INPUT_BUF_dvd : INPUT_BUF.toNat ∣ 2 ^ 32 := by decide

namespace Console.Shows

variable {cons : Console} {ready edit rest : List UInt8} {c : UInt8}

theorem length_le (h : cons.Shows ready edit) : ready.length + edit.length ≤ 128 := by
  have hbound := h.window.bounded
  rwa [List.length_append] at hbound

theorem e_eq (h : cons.Shows ready edit) :
    cons.e.toNat = (cons.r.toNat + (ready.length + edit.length)) % 2 ^ 32 := by
  have hback := h.window.back
  rwa [List.length_append] at hback

theorem e_sub_r (h : cons.Shows ready edit) :
    (cons.e - cons.r).toNat = ready.length + edit.length := by
  have hle := h.length_le
  have hr := cons.r.toNat_lt
  rw [UInt32.toNat_sub, h.e_eq]
  omega

theorem w_sub_r (h : cons.Shows ready edit) : (cons.w - cons.r).toNat = ready.length := by
  have hle := h.length_le
  have hr := cons.r.toNat_lt
  rw [UInt32.toNat_sub, h.write]
  omega

theorem e_sub_w (h : cons.Shows ready edit) : (cons.e - cons.w).toNat = edit.length := by
  have hle := h.length_le
  have hr := cons.r.toNat_lt
  rw [UInt32.toNat_sub, h.write, h.e_eq]
  omega

/-- There is something to edit. -/
theorem e_ne_w (h : cons.Shows ready edit) : cons.e ≠ cons.w ↔ edit ≠ [] := by
  have hle := h.length_le
  have hr := cons.r.toNat_lt
  rw [Ne, ← UInt32.toNat_inj, h.write, h.e_eq, not_iff_not, ← List.length_eq_zero_iff]
  omega

/-- There is nothing to read. -/
theorem r_eq_w (h : cons.Shows ready edit) : cons.r = cons.w ↔ ready = [] := by
  have hle := h.length_le
  have hr := cons.r.toNat_lt
  rw [← UInt32.toNat_inj, h.write, ← List.length_eq_zero_iff]
  omega

/-- There is room. -/
theorem room (h : cons.Shows ready edit) :
    cons.e - cons.r < INPUT_BUF ↔ ready.length + edit.length < INPUT_BUF.toNat := by
  rw [UInt32.lt_iff_toNat_lt, h.e_sub_r]

/-- There is no more room. -/
theorem full (h : cons.Shows ready edit) :
    cons.e = cons.r + INPUT_BUF ↔ ready.length + edit.length = INPUT_BUF.toNat := by
  rw [← UInt32.toNat_inj, UInt32.toNat_add, h.window.full_iff (by decide), List.length_append]

theorem char_eq (i : UInt32) : cons.char i = cons.cell (i.toNat % INPUT_BUF.toNat) := by
  rw [char, cell, ← UInt32.toNat_mod, UInt32.ofNat_toNat]

/-- **The first character is taken.** -/
theorem take (h : cons.Shows (c :: ready) edit) :
    cons.char cons.r = c ∧ Shows { cons with r := cons.r + 1 } ready edit := by
  obtain ⟨hhead, hrest⟩ := h.window.pop INPUT_BUF_dvd
  refine ⟨?_, ?_, ?_, h.plain⟩
  · rw [char_eq, hhead]
  · rw [UInt32.toNat_add]
    exact hrest
  · change cons.w.toNat = ((cons.r + 1).toNat + ready.length) % 2 ^ 32
    rw [h.write, UInt32.toNat_add, List.length_cons, Nat.mod_add_mod]
    congr 1
    have hone : (1 : UInt32).toNat = 1 := rfl
    omega

/-- **The last character is erased.** -/
theorem erase (h : cons.Shows ready (edit ++ [c])) :
    cons.char (cons.e - 1) = c ∧ Shows { cons with e := cons.e - 1 } ready edit := by
  have hwindow := h.window
  rw [← List.append_assoc] at hwindow
  obtain ⟨hlast, hinit⟩ := hwindow.unpush INPUT_BUF_dvd
  have he : (cons.e - 1).toNat = (cons.e.toNat + (2 ^ 32 - 1)) % 2 ^ 32 := by
    rw [UInt32.toNat_sub, Nat.add_comm]
    rfl
  rw [← he] at hlast hinit
  refine ⟨?_, hinit, h.write, fun hin => h.plain (List.mem_append_left _ hin)⟩
  rw [char_eq, hlast]

/-- **A character is stored.** -/
theorem store (h : cons.Shows ready edit) (hroom : ready.length + edit.length < INPUT_BUF.toNat)
    (c : UInt8) :
    Ring.Window INPUT_BUF.toNat (2 ^ 32) (cons.store c).cell cons.r.toNat (cons.store c).e.toNat
      (ready ++ edit ++ [c]) := by
  have hpush := h.window.push (x := c) INPUT_BUF_dvd (by rwa [List.length_append])
  have he : (cons.store c).e.toNat = (cons.e.toNat + 1) % 2 ^ 32 := UInt32.toNat_add _ _
  rw [he]
  refine hpush.congr fun i hi => ?_
  have hlt : i < 2 ^ 32 := Nat.lt_trans hi (by decide)
  change Function.update cons.buf (cons.e % INPUT_BUF) c (UInt32.ofNat i) = _
  by_cases hplace : i = cons.e.toNat % INPUT_BUF.toNat
  · rw [hplace, Function.update_self, ← UInt32.toNat_mod, UInt32.ofNat_toNat, Function.update_self]
  · rw [Function.update_of_ne hplace]
    refine Function.update_of_ne (fun heq => ?_) c cons.buf
    have hsame := congrArg UInt32.toNat heq
    rw [UInt32.toNat_ofNat', UInt32.toNat_mod, Nat.mod_eq_of_lt hlt] at hsame
    exact hplace hsame

/-- **The loop of `C('U')`** erases all that is not committed. -/
theorem killLine (h : cons.Shows ready edit) (fuel : Nat) (hfuel : edit.length ≤ fuel) :
    (cons.killLine fuel).Shows ready [] := by
  induction fuel generalizing cons edit with
  | zero =>
      obtain rfl := List.length_eq_zero_iff.mp (Nat.le_zero.mp hfuel)
      exact h
  | succ fuel ih =>
      unfold Console.killLine
      rcases List.eq_nil_or_concat edit with rfl | ⟨init, c, rfl⟩
      · rw [if_neg fun hmore => h.e_ne_w.mp hmore.1 rfl]
        exact h
      · rw [List.concat_eq_append] at h hfuel
        obtain ⟨hchar, hinit⟩ := h.erase
        have hplain : c ≠ '\n'.toUInt8 := by
          rintro rfl
          exact h.plain (List.mem_append_right _ List.mem_cons_self)
        rw [if_pos ⟨h.e_ne_w.mpr (List.append_ne_nil_of_right_ne_nil _ (List.cons_ne_nil _ _)),
          hchar ▸ hplain⟩]
        refine ih hinit ?_
        rw [List.length_append, List.length_singleton] at hfuel
        omega

/-- **A character is accepted**, and commits its line if it has to. -/
theorem accept {ed : LineEditor.State (Fin N) UInt8} (h : cons.Shows ed.ready ed.edit) (c : UInt8)
    (hroom : ed.ready.length + ed.edit.length < INPUT_BUF.toNat) :
    (if c = '\n'.toUInt8 ∨ c = ctrl 'D' ∨ (cons.store c).e = (cons.store c).r + INPUT_BUF then
        ({ cons.store c with w := (cons.store c).e }, true)
      else (cons.store c, false)).1.Shows (ed.type terminal (.char c)).ready
        (ed.type terminal (.char c)).edit := by
  have hstore := h.store hroom c
  have hfull : (cons.store c).e = (cons.store c).r + INPUT_BUF ↔
      ed.ready.length + (ed.edit ++ [c]).length = terminal.room := by
    have hiff := hstore.full_iff (by decide)
    rw [List.append_assoc, List.length_append] at hiff
    rw [← UInt32.toNat_inj, UInt32.toNat_add]
    exact hiff
  rw [List.append_assoc] at hstore
  rw [LineEditor.State.type, if_pos (show _ < terminal.room from hroom)]
  by_cases hends : c = '\n'.toUInt8 ∨ c = ctrl 'D' ∨
      (cons.store c).e = (cons.store c).r + INPUT_BUF
  · have hends' : c = terminal.newline ∨ c = terminal.eof ∨
        ed.ready.length + (ed.edit ++ [c]).length = terminal.room := by rwa [← hfull]
    rw [if_pos hends, if_pos hends']
    refine ⟨?_, hstore.back, List.not_mem_nil⟩
    rw [List.append_nil]
    exact hstore
  · have hends' : ¬ (c = terminal.newline ∨ c = terminal.eof ∨
        ed.ready.length + (ed.edit ++ [c]).length = terminal.room) := by rwa [← hfull]
    rw [if_neg hends, if_neg hends']
    refine ⟨hstore, h.write, fun hin => ?_⟩
    rcases List.mem_append.mp hin with hold | hnew
    · exact h.plain hold
    · exact hends (Or.inl (List.mem_singleton.mp hnew).symm)

/-- **`consoleintr` does what the editor does** with the key. -/
theorem intr {ed : LineEditor.State (Fin N) UInt8} (h : cons.Shows ed.ready ed.edit) (c : UInt8) :
    (cons.intr c).1.Shows (ed.type terminal (keyOf c)).ready (ed.type terminal (keyOf c)).edit := by
  unfold Console.intr keyOf
  by_cases hP : c = ctrl 'P'
  · rw [if_pos hP, if_pos (Or.inl hP)]
    exact h
  by_cases hzero : c = 0
  · subst hzero
    rw [if_neg (by decide), if_neg (by decide), if_neg (by decide), if_neg (by simp),
      if_pos (Or.inr rfl)]
    exact h
  rw [if_neg hP, if_neg (not_or.mpr ⟨hP, hzero⟩)]
  by_cases hU : c = ctrl 'U'
  · rw [if_pos hU, if_pos hU]
    exact h.killLine _ (Nat.le_of_eq h.e_sub_w.symm)
  rw [if_neg hU, if_neg hU]
  by_cases hH : c = ctrl 'H' ∨ c = 0x7f
  · rw [if_pos hH, if_pos hH, LineEditor.State.type]
    by_cases hnone : ed.edit = []
    · rw [if_neg fun hmore => h.e_ne_w.mp hmore hnone]
      change cons.Shows ed.ready ed.edit.dropLast
      rw [hnone] at h ⊢
      exact h
    · rw [if_pos (h.e_ne_w.mpr hnone)]
      have hlast := List.dropLast_append_getLast hnone
      exact (erase (hlast.symm ▸ h)).2
  rw [if_neg hH, if_neg hH]
  by_cases hroom : ed.ready.length + ed.edit.length < INPUT_BUF.toNat
  · rw [if_pos ⟨hzero, h.room.mpr hroom⟩]
    exact h.accept _ hroom
  · rw [if_neg fun hboth => hroom (h.room.mp hboth.2), LineEditor.State.type,
      if_neg (show ¬ _ < terminal.room from hroom)]
    exact h

end Console.Shows

namespace Follows

variable {s t : ConsoleCalls N} {ed : LineEditor.State (Fin N) UInt8} {p : Fin N}

theorem init : Follows ({} : ConsoleCalls N) {} :=
  ⟨⟨.nil (show 0 < 2 ^ 32 by decide), rfl, List.not_mem_nil⟩, fun _ => rfl, rfl⟩

/-- A process goes on. -/
theorem setCall (h : Follows s ed) (at' : ConsoleAt) :
    Follows (s.setCall p at') (ed.setCall p at'.reading) := by
  refine ⟨h.console, fun q => ?_, h.output⟩
  change Function.update ed.call p _ q = (Function.update s.call p at' q).reading
  by_cases hq : q = p
  · rw [hq, Function.update_self, Function.update_self]
  · rw [Function.update_of_ne hq, Function.update_of_ne hq]
    exact h.call q

theorem put (h : Follows s ed) (o : Output (Fin N) UInt8) : Follows (s.put o) (ed.put o) :=
  ⟨h.console, h.call, congrArg (· ++ [o]) h.output⟩

theorem returns (h : Follows s ed) (r : Int) : Follows (s.returns p r) (ed.returns p r) := by
  have hset := (h.setCall (p := p) .out).put (.returns p r)
  exact ⟨hset.console, hset.call, hset.output⟩

/-- A process goes on in the same read. -/
theorem wait (h : Follows s ed) (hconsole : t.toConsole = s.toConsole)
    (hcall : ∀ q, (t.call q).reading = (s.call q).reading) (hout : t.output = s.output) :
    Follows t ed :=
  ⟨hconsole ▸ h.console, fun q => (h.call q).trans (hcall q).symm, hout.trans h.output⟩

theorem setCall_reading {at' : ConsoleAt} (hsame : at'.reading = (s.call p).reading) (q : Fin N) :
    ((s.setCall p at').call q).reading = (s.call q).reading := by
  change (Function.update s.call p at' q).reading = _
  by_cases hq : q = p
  · rw [hq, Function.update_self, hsame]
  · rw [Function.update_of_ne hq]

theorem wakeReaders_reading (s : ConsoleCalls N) (q : Fin N) :
    (s.wakeReaders.call q).reading = (s.call q).reading := by
  unfold ConsoleCalls.wakeReaders
  dsimp only
  cases s.call q <;> rfl

/-- **A character is typed.** -/
theorem type (h : Follows s ed) {c : UInt8} (ht : s.type c = some t) :
    Follows t (ed.type terminal (keyOf c)) := by
  unfold ConsoleCalls.type at ht
  split at ht
  · obtain ⟨hcall, hout⟩ := ed.type_call terminal (keyOf c)
    have hintr := h.console.intr c
    have hfollows : Follows { s with toConsole := (s.intr c).1 } (ed.type terminal (keyOf c)) :=
      ⟨hintr, fun q => (congrFun hcall q).trans (h.call q), h.output.trans hout.symm⟩
    rw [Option.some.injEq] at ht
    subst ht
    split
    · exact hfollows.wait rfl (wakeReaders_reading _) rfl
    · exact hfollows
  · cases ht

/-- **A pass of a reader.** -/
theorem pass (h : Follows s ed) {killed : Bool} (ht : s.pass p killed = some t) :
    Follows t (ed.take terminal p killed) := by
  unfold ConsoleCalls.pass at ht
  split at ht
  next target n hloop =>
    have hcall : ed.call p = some (target, n) := by rw [h.call, hloop, ConsoleAt.reading]
    rw [LineEditor.State.take, hcall]
    dsimp only
    by_cases hmore : 0 < n
    · rw [if_pos hmore] at ht ⊢
      cases hready : ed.ready with
      | nil =>
          rw [if_pos (h.console.r_eq_w.mpr hready)] at ht
          dsimp only
          split at ht
          next hkilled =>
            cases ht
            rw [if_pos hkilled]
            exact h.returns _
          next hkilled =>
            cases ht
            rw [if_neg hkilled]
            refine h.wait rfl (setCall_reading ?_) rfl
            rw [hloop]
            rfl
      | cons c rest =>
          have hsome : s.r ≠ s.w := by
            rw [Ne, h.console.r_eq_w, hready]
            exact List.cons_ne_nil c rest
          obtain ⟨hchar, htake⟩ := (hready ▸ h.console : s.Shows (c :: rest) ed.edit).take
          have htaken : Follows { s with r := s.r + 1 } { ed with ready := rest } :=
            ⟨htake, h.call, h.output⟩
          rw [if_neg hsome] at ht
          dsimp only at ht ⊢
          rw [hchar] at ht
          by_cases heof : c = ctrl 'D'
          · rw [if_pos heof] at ht
            rw [if_pos (show c = terminal.eof from heof)]
            split at ht
            next hless =>
              cases ht
              rw [if_pos hless, UInt32.add_sub_cancel]
              exact h.returns _
            next hless =>
              cases ht
              rw [if_neg hless]
              exact (htaken.put _).returns _
          · rw [if_neg heof] at ht
            rw [if_neg (show c ≠ terminal.eof from heof)]
            split at ht
            next hline =>
              cases ht
              rw [if_pos (show c = terminal.newline from hline)]
              exact (htaken.put _).returns _
            next hline =>
              cases ht
              rw [if_neg (show c ≠ terminal.newline from hline)]
              exact (htaken.put _).setCall (.loop target (n - 1))
    · rw [if_neg hmore] at ht ⊢
      cases ht
      exact h.returns _
  next => cases ht

/-- **A step of the console** is a step of the editor, or none. -/
theorem step (h : Follows s ed) {e : ConsoleEvent N} (ht : s.step e = some t) :
    Follows t (match e.edits with | some e => ed.step terminal e | none => ed) := by
  cases e with
  | type c => exact h.type ht
  | read p n =>
      simp only [ConsoleCalls.step, Option.ite_none_right_eq_some, Option.some.injEq] at ht
      obtain ⟨-, rfl⟩ := ht
      exact h.setCall (.lockRead n n)
  | acquire p =>
      simp only [ConsoleCalls.step, ConsoleCalls.acquire] at ht
      split at ht
      · split at ht
        next target n hcall =>
          cases ht
          refine h.wait rfl (setCall_reading ?_) rfl
          rw [hcall]
          rfl
        next => cases ht
      · cases ht
  | pass p killed => exact h.pass ht
  | kill p =>
      simp only [ConsoleCalls.step, ConsoleCalls.kill] at ht
      split at ht
      next target n hcall =>
        cases ht
        refine h.wait rfl (setCall_reading ?_) rfl
        rw [hcall]
        rfl
      next => cases ht

end Follows

variable {s : ConsoleCalls N} {past : Past (ConsoleCalls N) (ConsoleEvent N)}

/-- **The console follows the editor** along every run. -/
theorem console_follows (run : Run (console N) past s) :
    Follows s (edited past) ∧ (edited past).Ordered terminal := by
  induction run with
  | init h =>
      obtain rfl : _ = ({} : ConsoleCalls N) := h
      exact ⟨.init, .init⟩
  | @step past s t e _ h ih =>
      obtain ⟨hfollows, hordered⟩ := ih
      have hstep := hfollows.step h
      rw [edited]
      cases hedits : e.edits with
      | none =>
          rw [hedits] at hstep
          exact ⟨hstep, hordered⟩
      | some e' =>
          rw [hedits] at hstep
          exact ⟨hstep, hordered.step e'⟩

/-- **The console is a line editor.**  The indices are in order; readers have got what the
editor has given them; what has been committed has been taken once, in order, or
is still there; and only a read of no characters has taken an end of input away. -/
theorem console_edits (run : Run (console N) past s) :
    (s.w - s.r).toNat ≤ (s.e - s.r).toNat ∧ (s.e - s.r).toNat ≤ INPUT_BUF.toNat ∧
      s.output = (edited past).output ∧
      (s.w - s.r).toNat = (edited past).ready.length ∧
      (s.e - s.w).toNat = (edited past).edit.length ∧
      (edited past).committed = LineEditor.taken terminal s.output ++ (edited past).ready ∧
      ∃ bs : List (List (Output (Fin N) UInt8)),
        (∀ b ∈ bs, LineEditor.Block terminal b) ∧ s.output = bs.flatten := by
  obtain ⟨hfollows, hordered⟩ := console_follows run
  have hconsole := hfollows.console
  rw [hfollows.output, hconsole.w_sub_r, hconsole.e_sub_r, hconsole.e_sub_w]
  exact ⟨Nat.le_add_right _ _, hconsole.length_le, rfl, rfl, rfl, hordered.committed,
    hordered.blocks⟩

/-- Two characters are typed and one is erased, the line ends, and a process reads it. -/
theorem console_edits_line : ∃ past s, Run (console 1) past s ∧
    s.output = [.char 0 98, .char 0 10, .returns 0 2] ∧ s.output = (edited past).output := by
  obtain ⟨past, s, run, hout⟩ := Machine.exists_run_of_trace (M := console 1) (s := {}) rfl
    [.read 0 5, .acquire 0, .pass 0 false, .type 97, .type 0x7f, .type 98, .type 13, .acquire 0,
      .pass 0 false, .pass 0 false]
    (fun _ s => s.output = [.char 0 98, .char 0 10, .returns 0 2]) (by decide)
  exact ⟨past, s, run, hout, (console_edits run).2.2.1⟩

end Xv6
