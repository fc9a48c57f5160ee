import OSN.Lib.Run
import OSN.Lib.Circle
import OSN.Lib.Headcount
import Mathlib.Data.UInt

/-!
# The buffer cache

`bread` looks for the buffer of a block through the list of all buffers, or
recycles the least recently used one that nobody refers to, and waits for its
sleep lock.  `brelse` gives the lock up and then the reference, and moves a
buffer without references to the front of the list.  `bpin` and `bunpin` hold a
reference without the lock.

One event is what happens under `bcache.lock`, or a step into or out of a sleep
lock, so any number of processes interleave.  What the buffers hold is left out:
only `valid` tells whether it was read.
-/

namespace Xv6

/-- `MAXOPBLOCKS * 3`. -/
def NBUF : Nat := 30

instance neZeroBuf : NeZero NBUF := ⟨by decide⟩

/-- `&bcache.head`, or a pointer into `bcache.buf`. -/
inductive BufPtr where
  | head
  | buf (b : Fin NBUF)
  deriving DecidableEq

/-- `struct buf`, without its pointers and its data.  The process in the sleep lock
is the one whose `pid` it holds. -/
structure Buf (N : Nat) where
  valid : Bool
  dev : UInt32
  blockno : UInt32
  lock : Option (Fin N)
  refcnt : UInt32

/-- Where a process is.  Between its calls it may hold buffers. -/
inductive BufAt where
  | out
  /-- In `acquiresleep(&b->lock)` of `bget`. -/
  | acquire (b : Fin NBUF)
  /-- In `bread`, with the buffer. -/
  | fill (b : Fin NBUF)
  /-- In `virtio_disk_rw` of `bwrite`. -/
  | write (b : Fin NBUF)
  /-- In `brelse`, after `releasesleep`. -/
  | drop (b : Fin NBUF)
  deriving DecidableEq

/-- The cache and `N` processes. -/
structure Bcache (N : Nat) where
  buf : Fin NBUF → Buf N
  links : Links BufPtr
  call : Fin N → BufAt
  /-- How many more times a buffer was pinned than unpinned. -/
  pins : Fin NBUF → Nat
  /-- The text of the panic that has stopped the kernel. -/
  panicked : Option String

/-- One event. -/
inductive BufEvent (N : Nat) where
  /-- `bread`, up to where `bget` releases `bcache.lock`. -/
  | bread (p : Fin N) (dev blockno : UInt32)
  /-- `bget` gets the sleep lock. -/
  | acquire (p : Fin N)
  /-- The rest of `bread`. -/
  | fill (p : Fin N)
  | bwrite (p : Fin N) (b : Fin NBUF)
  /-- `virtio_disk_rw` returns to `bwrite`. -/
  | written (p : Fin N)
  /-- `brelse`, up to the end of `releasesleep`. -/
  | brelse (p : Fin N) (b : Fin NBUF)
  /-- The rest of `brelse`. -/
  | drop (p : Fin N)
  | bpin (b : Fin NBUF)
  | bunpin (b : Fin NBUF)

/-- `binit`: the buffers are put behind the head one after the other. -/
def binit (junk : Links BufPtr) : Links BufPtr :=
  (List.finRange NBUF).foldl (fun r b => r.pushFront .head (.buf b))
    { next := Function.update junk.next .head .head
      prev := Function.update junk.prev .head .head }

namespace Bcache

variable {N : Nat}

def setBuf (s : Bcache N) (b : Fin NBUF) (f : Buf N → Buf N) : Bcache N :=
  { s with buf := Function.update s.buf b (f (s.buf b)) }

def setCall (s : Bcache N) (p : Fin N) (at' : BufAt) : Bcache N :=
  { s with call := Function.update s.call p at' }

/-- The block is cached here. -/
def cached (s : Bcache N) (dev blockno : UInt32) : BufPtr → Bool
  | .head => false
  | .buf b => (s.buf b).dev = dev ∧ (s.buf b).blockno = blockno

/-- Nobody refers to the buffer. -/
def unused (s : Bcache N) : BufPtr → Bool
  | .head => false
  | .buf b => (s.buf b).refcnt = 0

/-- `bget`, up to where it releases `bcache.lock`.  A loop that does not end has no
successor. -/
def bget (s : Bcache N) (p : Fin N) (dev blockno : UInt32) : Option (Bcache N) :=
  match searchLinks s.links.next (s.cached dev blockno) .head (NBUF + 1) (s.links.next .head) with
  | none => none
  | some (some (.buf b)) =>
      some ((s.setBuf b fun b => { b with refcnt := b.refcnt + 1 }).setCall p (.acquire b))
  | some _ =>
      match searchLinks s.links.prev s.unused .head (NBUF + 1) (s.links.prev .head) with
      | none => none
      | some (some (.buf b)) =>
          let recycled := s.setBuf b fun b =>
            { b with
              dev := dev
              blockno := blockno
              valid := false
              refcnt := 1 }
          some (recycled.setCall p (.acquire b))
      | some _ => some { s with panicked := some "bget: no buffers" }

/-- `acquiresleep(&b->lock)` returns. -/
def acquire (s : Bcache N) (p : Fin N) : Option (Bcache N) :=
  match s.call p with
  | .acquire b =>
      if (s.buf b).lock = none then
        some ((s.setBuf b fun b => { b with lock := some p }).setCall p (.fill b))
      else none
  | _ => none

/-- `bread` after `bget`. -/
def fill (s : Bcache N) (p : Fin N) : Option (Bcache N) :=
  match s.call p with
  | .fill b => some ((s.setBuf b fun b => { b with valid := true }).setCall p .out)
  | _ => none

/-- `bwrite`. -/
def bwrite (s : Bcache N) (p : Fin N) (b : Fin NBUF) : Option (Bcache N) :=
  if s.call p = .out then
    if (s.buf b).lock = some p then some (s.setCall p (.write b))
    else some { s with panicked := some "bwrite" }
  else none

/-- `virtio_disk_rw` returns to `bwrite`. -/
def written (s : Bcache N) (p : Fin N) : Option (Bcache N) :=
  match s.call p with
  | .write _ => some (s.setCall p .out)
  | _ => none

/-- `brelse`, up to the end of `releasesleep`. -/
def brelse (s : Bcache N) (p : Fin N) (b : Fin NBUF) : Option (Bcache N) :=
  if s.call p = .out then
    if (s.buf b).lock = some p then
      some ((s.setBuf b fun b => { b with lock := none }).setCall p (.drop b))
    else some { s with panicked := some "brelse" }
  else none

/-- The rest of `brelse`. -/
def drop (s : Bcache N) (p : Fin N) : Option (Bcache N) :=
  match s.call p with
  | .drop b =>
      let t := (s.setBuf b fun b => { b with refcnt := b.refcnt - 1 }).setCall p .out
      some
        (if (t.buf b).refcnt = 0 then
          { t with links := (t.links.unlink (.buf b)).pushFront .head (.buf b) }
        else t)
  | _ => none

/-- A step.  The callers of `bunpin` give up a pin that is there. -/
def step (s : Bcache N) (e : BufEvent N) : Option (Bcache N) :=
  if s.panicked ≠ none then none
  else
    match e with
    | .bread p dev blockno => if s.call p = .out then s.bget p dev blockno else none
    | .acquire p => s.acquire p
    | .fill p => s.fill p
    | .bwrite p b => s.bwrite p b
    | .written p => s.written p
    | .brelse p b => s.brelse p b
    | .drop p => s.drop p
    | .bpin b =>
        some
          { s.setBuf b fun b => { b with refcnt := b.refcnt + 1 } with
            pins := Function.update s.pins b (s.pins b + 1) }
    | .bunpin b =>
        if 0 < s.pins b then
          some
            { s.setBuf b fun b => { b with refcnt := b.refcnt - 1 } with
              pins := Function.update s.pins b (s.pins b - 1) }
        else none

end Bcache

/-- What `binit` leaves, from memory that is zero but for the pointers. -/
structure Bcache.Booted {N : Nat} (s : Bcache N) : Prop where
  links : ∃ junk, s.links = binit junk
  buf : ∀ b, s.buf b = ⟨false, 0, 0, none, 0⟩
  call : ∀ p, s.call p = .out
  pins : ∀ b, s.pins b = 0
  panicked : s.panicked = none

/-- The buffer cache of `N` processes. -/
def bufferCache (N : Nat) : Machine (Bcache N) (BufEvent N) where
  init := Bcache.Booted
  step := Bcache.step

variable {N : Nat} {s t : Bcache N} {e : BufEvent N} {past : Past (Bcache N) (BufEvent N)}

/-! ### The list -/

/-- The list goes through all buffers, once each, in this order. -/
structure Bcache.Listed (s : Bcache N) (l : List (Fin NBUF)) : Prop where
  circle : LinkedCircle s.links .head (l.map .buf)
  all : ∀ b, b ∈ l

theorem buf_injective : Function.Injective BufPtr.buf := fun _ _ h => BufPtr.buf.inj h

namespace Bcache.Listed

variable {l : List (Fin NBUF)}

theorem nodup (h : s.Listed l) : l.Nodup :=
  (List.nodup_map_iff buf_injective).mp h.circle.nodup_nodes

/-- There are `NBUF` buffers in the list, so the loops of `bget` end in time. -/
theorem length_lt (h : s.Listed l) : (l.map BufPtr.buf).length < NBUF + 1 := by
  have hcard := h.nodup.length_le_card
  rw [Fintype.card_fin] at hcard
  rw [List.length_map]
  exact Nat.lt_succ_of_le hcard

theorem of_links (h : s.Listed l) (hlinks : t.links = s.links) : t.Listed l :=
  ⟨hlinks ▸ h.circle, h.all⟩

/-- `brelse` moves a buffer to the front. -/
theorem moveFront (h : s.Listed l) {b : Fin NBUF}
    (hlinks : t.links = (s.links.unlink (.buf b)).pushFront .head (.buf b)) :
    t.Listed (b :: l.erase b) := by
  have hout := h.circle.unlink (List.mem_map_of_mem (h.all b))
  rw [← List.map_erase buf_injective] at hout
  constructor
  · rw [hlinks, List.map_cons]
    apply hout.pushFront (by simp)
    rw [List.mem_map_of_injective buf_injective]
    exact h.nodup.not_mem_erase
  · intro c
    by_cases hc : c = b
    · exact List.mem_cons.mpr (Or.inl hc)
    · exact List.mem_cons_of_mem b ((List.mem_erase_of_ne hc).mpr (h.all c))

end Bcache.Listed

/-- `binit` puts all buffers into the list. -/
theorem binit_listed (junk : Links BufPtr) :
    LinkedCircle (binit junk) .head ((List.finRange NBUF).reverse.map .buf) := by
  have hempty : LinkedCircle (⟨Function.update junk.next .head .head,
      Function.update junk.prev .head .head⟩ : Links BufPtr) BufPtr.head [] :=
    .nil (by simp) (by simp)
  have hall := hempty.pushAll (m := (List.finRange NBUF).map .buf)
    (by simpa [List.nodup_map_iff buf_injective] using List.nodup_finRange NBUF) (by simp)
  rw [List.append_nil, ← List.map_reverse, List.foldl_map] at hall
  exact hall

/-! ### What a step does -/

/-- **One step of the cache.** -/
inductive BufMove (s t : Bcache N) : Prop
  /-- `bget` finds the block. -/
  | hit (p : Fin N) (b : Fin NBUF) (hp : s.call p = .out)
      (ht : t = (s.setBuf b fun b => { b with refcnt := b.refcnt + 1 }).setCall p (.acquire b))
  /-- `bget` recycles a buffer for a block that is not cached. -/
  | recycle (p : Fin N) (b : Fin NBUF) (dev blockno : UInt32) (hp : s.call p = .out)
      (hmiss : ∀ c, ¬ ((s.buf c).dev = dev ∧ (s.buf c).blockno = blockno))
      (hunused : (s.buf b).refcnt = 0)
      (ht : t = (s.setBuf b fun b => ⟨false, dev, blockno, b.lock, 1⟩).setCall p (.acquire b))
  | panic (text : String) (ht : t = { s with panicked := some text })
  | acquire (p : Fin N) (b : Fin NBUF) (hp : s.call p = .acquire b) (hfree : (s.buf b).lock = none)
      (ht : t = (s.setBuf b fun b => { b with lock := some p }).setCall p (.fill b))
  /-- A process that neither waits nor drops a reference goes on. -/
  | go (p : Fin N) (at' : BufAt) (hp : ∀ b, s.call p ≠ .acquire b ∧ s.call p ≠ .drop b)
      (hat : ∀ b, at' ≠ .acquire b ∧ at' ≠ .drop b) (hcall : t.call = Function.update s.call p at')
      (hlinks : t.links = s.links) (hpins : t.pins = s.pins)
      (hbuf : ∀ b, t.buf b = s.buf b ∨ t.buf b = { s.buf b with valid := true })
  | release (p : Fin N) (b : Fin NBUF) (hp : s.call p = .out) (hlock : (s.buf b).lock = some p)
      (ht : t = (s.setBuf b fun b => { b with lock := none }).setCall p (.drop b))
  | drop (p : Fin N) (b : Fin NBUF) (hp : s.call p = .drop b)
      (hlinks : t.links = s.links ∨
        t.links = (s.links.unlink (.buf b)).pushFront .head (.buf b))
      (hbuf : t.buf = Function.update s.buf b { s.buf b with refcnt := (s.buf b).refcnt - 1 })
      (hcall : t.call = Function.update s.call p .out) (hpins : t.pins = s.pins)
  | pin (b : Fin NBUF)
      (ht : t =
        { s.setBuf b fun b => { b with refcnt := b.refcnt + 1 } with
          pins := Function.update s.pins b (s.pins b + 1) })
  | unpin (b : Fin NBUF) (hpinned : 0 < s.pins b)
      (ht : t =
        { s.setBuf b fun b => { b with refcnt := b.refcnt - 1 } with
          pins := Function.update s.pins b (s.pins b - 1) })

/-- `bget` comes to its end, and does one of three things. -/
theorem bget_cases {l : List (Fin NBUF)} (hl : s.Listed l) {p : Fin N} (hp : s.call p = .out)
    (dev blockno : UInt32) : ∃ t, s.bget p dev blockno = some t ∧ BufMove s t := by
  unfold Bcache.bget
  rw [hl.circle.search_next hl.length_lt, hl.circle.search_prev hl.length_lt]
  cases hfound : (l.map BufPtr.buf).find? (s.cached dev blockno) with
  | some c =>
      obtain ⟨b, -, rfl⟩ := List.mem_map.mp (List.mem_of_find?_eq_some hfound)
      exact ⟨_, rfl, .hit p b hp rfl⟩
  | none =>
      have hmiss : ∀ c, ¬ ((s.buf c).dev = dev ∧ (s.buf c).blockno = blockno) := by
        intro c
        have hc := List.find?_eq_none.mp hfound (.buf c) (List.mem_map_of_mem (hl.all c))
        simpa [Bcache.cached] using hc
      cases hfree : (l.map BufPtr.buf).reverse.find? s.unused with
      | some c =>
          have hmem := List.mem_reverse.mp (List.mem_of_find?_eq_some hfree)
          obtain ⟨b, -, rfl⟩ := List.mem_map.mp hmem
          have hunused := List.find?_some hfree
          exact ⟨_, rfl, .recycle p b dev blockno hp hmiss
            (by simpa [Bcache.unused] using hunused) rfl⟩
      | none => exact ⟨_, rfl, .panic _ rfl⟩

theorem Bcache.step_moves {l : List (Fin NBUF)} (hl : s.Listed l) (h : s.step e = some t) :
    BufMove s t := by
  simp only [Bcache.step, Option.ite_none_left_eq_some] at h
  obtain ⟨-, h⟩ := h
  cases e with
  | bread p dev blockno =>
      simp only [Option.ite_none_right_eq_some] at h
      obtain ⟨hp, h⟩ := h
      obtain ⟨u, hu, hmove⟩ := bget_cases hl hp dev blockno
      rw [hu, Option.some.injEq] at h
      exact h ▸ hmove
  | acquire p =>
      simp only [Bcache.acquire] at h
      split at h
      next b hp =>
        simp only [Option.ite_none_right_eq_some, Option.some.injEq] at h
        exact .acquire p b hp h.1 h.2.symm
      next => cases h
  | fill p =>
      simp only [Bcache.fill] at h
      split at h
      next b hp =>
        cases h
        refine .go p .out (by simp [hp]) (by simp) rfl rfl rfl ?_
        intro c
        by_cases hc : c = b
        · subst hc
          exact Or.inr (Function.update_self _ _ _)
        · exact Or.inl (Function.update_of_ne hc _ _)
      next => cases h
  | bwrite p b =>
      simp only [Bcache.bwrite, Option.ite_none_right_eq_some] at h
      obtain ⟨hp, h⟩ := h
      split at h
      · cases h
        exact .go p (.write b) (by simp [hp]) (by simp) rfl rfl rfl fun c => Or.inl rfl
      · cases h
        exact .panic _ rfl
  | written p =>
      simp only [Bcache.written] at h
      split at h
      next b hp =>
        cases h
        exact .go p .out (by simp [hp]) (by simp) rfl rfl rfl fun c => Or.inl rfl
      next => cases h
  | brelse p b =>
      simp only [Bcache.brelse, Option.ite_none_right_eq_some] at h
      obtain ⟨hp, h⟩ := h
      split at h
      next hlock =>
        cases h
        exact .release p b hp hlock rfl
      next =>
        cases h
        exact .panic _ rfl
  | drop p =>
      simp only [Bcache.drop] at h
      split at h
      next b hp =>
        cases h
        split
        · exact .drop p b hp (Or.inr rfl) rfl rfl rfl
        · exact .drop p b hp (Or.inl rfl) rfl rfl rfl
      next => cases h
  | bpin b =>
      cases h
      exact .pin b rfl
  | bunpin b =>
      simp only [Option.ite_none_right_eq_some, Option.some.injEq] at h
      exact .unpin b h.1 h.2.symm

theorem BufMove.listed (h : BufMove s t) {l : List (Fin NBUF)} (hl : s.Listed l) :
    ∃ l', t.Listed l' := by
  cases h with
  | hit _ _ _ ht | recycle _ _ _ _ _ _ _ ht | panic _ ht | acquire _ _ _ _ ht | release _ _ _ _ ht
  | pin _ ht | unpin _ _ ht =>
      subst ht
      exact ⟨l, hl.of_links rfl⟩
  | go p at' hp hat hcall hlinks hpins hbuf => exact ⟨l, hl.of_links hlinks⟩
  | drop p b hp hlinks hbuf hcall hpins =>
      rcases hlinks with hsame | hfront
      · exact ⟨l, hl.of_links hsame⟩
      · exact ⟨_, hl.moveFront hfront⟩

/-- In every reachable state the list goes through all buffers. -/
theorem listed (run : Run (bufferCache N) past s) : ∃ l, s.Listed l := by
  induction run with
  | init h =>
      obtain ⟨junk, hlinks⟩ := h.links
      refine ⟨_, hlinks ▸ binit_listed junk, ?_⟩
      intro b
      exact List.mem_reverse.mpr (List.mem_finRange b)
  | step _ h ih =>
      obtain ⟨l, hl⟩ := ih
      exact (Bcache.step_moves hl h).listed hl

/-! ### Which block a buffer holds -/

/-- A step changes which block a buffer holds only if nobody refers to the buffer,
and then to a block that no buffer holds. -/
theorem BufMove.block_cases (h : BufMove s t) :
    (∀ b, (t.buf b).dev = (s.buf b).dev ∧ (t.buf b).blockno = (s.buf b).blockno) ∨
      ∃ b dev blockno, (s.buf b).refcnt = 0 ∧
        (∀ c, ¬ ((s.buf c).dev = dev ∧ (s.buf c).blockno = blockno)) ∧
        (t.buf b).dev = dev ∧ (t.buf b).blockno = blockno ∧
        ∀ c, c ≠ b → (t.buf c).dev = (s.buf c).dev ∧ (t.buf c).blockno = (s.buf c).blockno := by
  cases h with
  | hit _ b _ ht | acquire _ b _ _ ht | release _ b _ _ ht | pin b ht | unpin b _ ht =>
      subst ht
      left
      intro c
      by_cases hc : c = b
      · subst hc
        simp [Bcache.setBuf, Bcache.setCall]
      · simp [Bcache.setBuf, Bcache.setCall, hc]
  | panic _ ht =>
      subst ht
      exact Or.inl fun c => ⟨rfl, rfl⟩
  | go p at' hp hat hcall hlinks hpins hbuf =>
      left
      intro c
      rcases hbuf c with hsame | hvalid
      · rw [hsame]
        exact ⟨rfl, rfl⟩
      · rw [hvalid]
        exact ⟨rfl, rfl⟩
  | drop p b hp hlinks hbuf hcall hpins =>
      left
      intro c
      rw [hbuf]
      by_cases hc : c = b
      · subst hc
        simp
      · simp [hc]
  | recycle p b dev blockno hp hmiss hunused ht =>
      subst ht
      right
      refine ⟨b, dev, blockno, hunused, hmiss, ?_, ?_, ?_⟩
      · simp [Bcache.setBuf, Bcache.setCall]
      · simp [Bcache.setBuf, Bcache.setCall]
      · intro c hc
        simp [Bcache.setBuf, Bcache.setCall, hc]

/-- **A buffer that somebody refers to is not recycled.** -/
theorem BufMove.keeps_block (h : BufMove s t) {b : Fin NBUF} (hb : (s.buf b).refcnt ≠ 0) :
    (t.buf b).dev = (s.buf b).dev ∧ (t.buf b).blockno = (s.buf b).blockno := by
  rcases h.block_cases with hsame | ⟨c, dev, blockno, hunused, -, -, -, hothers⟩
  · exact hsame b
  · apply hothers b
    intro hbc
    exact hb (hbc ▸ hunused)

/-- No two buffers hold the same block of a real device. -/
def Bcache.OneCopy (s : Bcache N) : Prop :=
  ∀ b c, (s.buf b).dev ≠ 0 → (s.buf b).dev = (s.buf c).dev →
    (s.buf b).blockno = (s.buf c).blockno → b = c

theorem BufMove.oneCopy (h : BufMove s t) (hs : s.OneCopy) : t.OneCopy := by
  intro b c hdev hsame hblock
  rcases h.block_cases with hkeep | ⟨d, dev, blockno, -, hmiss, hnewdev, hnewblock, hothers⟩
  · rw [(hkeep b).1, (hkeep c).1] at hsame
    rw [(hkeep b).2, (hkeep c).2] at hblock
    exact hs b c ((hkeep b).1 ▸ hdev) hsame hblock
  · -- the recycled buffer is `d`, and no other holds its new block
    by_cases hb : b = d
    · by_cases hc : c = d
      · rw [hb, hc]
      · rw [hb, hnewdev, (hothers c hc).1] at hsame
        rw [hb, hnewblock, (hothers c hc).2] at hblock
        exact absurd ⟨hsame.symm, hblock.symm⟩ (hmiss c)
    · by_cases hc : c = d
      · rw [hc, hnewdev, (hothers b hb).1] at hsame
        rw [hc, hnewblock, (hothers b hb).2] at hblock
        exact absurd ⟨hsame, hblock⟩ (hmiss b)
      · rw [(hothers b hb).1, (hothers c hc).1] at hsame
        rw [(hothers b hb).2, (hothers c hc).2] at hblock
        exact hs b c ((hothers b hb).1 ▸ hdev) hsame hblock

/-! ### How many refer to a buffer -/

namespace Bcache

/-- Who has the buffer: the process in the sleep lock, and those in `brelse` that
have given it up and not dropped their reference yet. -/
def holders (s : Bcache N) (b : Fin NBUF) : Nat :=
  (if (s.buf b).lock.isSome then 1 else 0) + headcount s.call (· = .drop b)

/-- Who waits for the sleep lock. -/
def waiters (s : Bcache N) (b : Fin NBUF) : Nat := headcount s.call (· = .acquire b)

/-- All who refer to the buffer. -/
def references (s : Bcache N) (b : Fin NBUF) : Nat := s.holders b + s.waiters b + s.pins b

end Bcache

/-- A process in a call that refers to the buffer without the sleep lock. -/
def BufAt.Refers (b : Fin NBUF) (at' : BufAt) : Prop := at' = .drop b ∨ at' = .acquire b

instance (b : Fin NBUF) : DecidablePred (BufAt.Refers b) := fun at' => by
  unfold BufAt.Refers
  infer_instance

theorem references_eq (s : Bcache N) (b : Fin NBUF) :
    s.references b = (if (s.buf b).lock.isSome then 1 else 0) +
      headcount s.call (BufAt.Refers b) + s.pins b := by
  have hboth : headcount s.call (fun at' => at' = .drop b ∨ at' = .acquire b) =
      headcount s.call (· = .drop b) + headcount s.call (· = .acquire b) :=
    headcount_or (by simp +contextual)
  have hrefers : headcount s.call (BufAt.Refers b) =
      headcount s.call (fun at' => at' = .drop b ∨ at' = .acquire b) := rfl
  unfold Bcache.references Bcache.holders Bcache.waiters
  omega

/-- `refcnt` counts all who refer to a buffer. -/
def Bcache.Counted (s : Bcache N) : Prop :=
  ∀ b, (s.buf b).refcnt = UInt32.ofNat (s.references b)

/-- The count of a buffer goes up by one, with those who refer to it. -/
theorem count_up {refcnt refcnt' : UInt32} {n n' : Nat} (h : refcnt = UInt32.ofNat n)
    (hcount : refcnt' = refcnt + 1) (hn : n' = n + 1) : refcnt' = UInt32.ofNat n' := by
  rw [hcount, hn, h, UInt32.ofNat_add]
  rfl

/-- Or down by one. -/
theorem count_down {refcnt refcnt' : UInt32} {n n' : Nat} (h : refcnt = UInt32.ofNat n)
    (hcount : refcnt' = refcnt - 1) (hn : n' + 1 = n) : refcnt' = UInt32.ofNat n' := by
  rw [hcount, h, ← hn, UInt32.ofNat_add]
  exact UInt32.add_sub_cancel _ _

theorem BufMove.counted (h : BufMove s t) (hs : s.Counted) : t.Counted := by
  intro c
  have hcount := hs c
  rw [references_eq] at hcount ⊢
  cases h with
  | hit p b hp ht =>
      subst ht
      simp only [Bcache.setBuf, Bcache.setCall] at hcount ⊢
      by_cases hc : c = b
      · subst hc
        have henter := headcount_update_enter (f := s.call) (p := p) (Q := BufAt.Refers c)
          (a := .acquire c) (by simp [hp, BufAt.Refers]) (by simp [BufAt.Refers])
        simp only [Function.update_self]
        exact count_up hcount rfl (by omega)
      · have hsame := headcount_update_same (f := s.call) (p := p) (Q := BufAt.Refers c)
          (a := .acquire b) (by simp [hp, BufAt.Refers, Ne.symm hc])
        simp only [Function.update_of_ne hc, hsame]
        exact hcount
  | recycle p b dev blockno hp hmiss hunused ht =>
      subst ht
      simp only [Bcache.setBuf, Bcache.setCall] at hcount ⊢
      by_cases hc : c = b
      · subst hc
        have henter := headcount_update_enter (f := s.call) (p := p) (Q := BufAt.Refers c)
          (a := .acquire c) (by simp [hp, BufAt.Refers]) (by simp [BufAt.Refers])
        simp only [Function.update_self]
        exact count_up hcount (by rw [hunused]; rfl) (by omega)
      · have hsame := headcount_update_same (f := s.call) (p := p) (Q := BufAt.Refers c)
          (a := .acquire b) (by simp [hp, BufAt.Refers, Ne.symm hc])
        simp only [Function.update_of_ne hc, hsame]
        exact hcount
  | panic text ht =>
      subst ht
      exact hcount
  | acquire p b hp hfree ht =>
      subst ht
      simp only [Bcache.setBuf, Bcache.setCall] at hcount ⊢
      by_cases hc : c = b
      · subst hc
        have hleave := headcount_update_leave (f := s.call) (p := p) (Q := BufAt.Refers c)
          (a := .fill c) (by simp [hp, BufAt.Refers]) (by simp [BufAt.Refers])
        simp only [Function.update_self, Option.isSome_some, ↓reduceIte, hfree,
          Option.isSome_none, Bool.false_eq_true] at hcount ⊢
        rw [hcount]
        congr 1
        omega
      · have hsame := headcount_update_same (f := s.call) (p := p) (Q := BufAt.Refers c)
          (a := .fill b) (by simp [hp, BufAt.Refers, Ne.symm hc])
        simp only [Function.update_of_ne hc, hsame]
        exact hcount
  | go p at' hp hat hcall hlinks hpins hbuf =>
      have hsame := headcount_update_same (f := s.call) (p := p) (Q := BufAt.Refers c) (a := at')
        (by simp [BufAt.Refers, hp c, hat c])
      rw [hcall, hpins, hsame]
      rcases hbuf c with hb | hb
      · rw [hb]
        exact hcount
      · rw [hb]
        exact hcount
  | release p b hp hlock ht =>
      subst ht
      simp only [Bcache.setBuf, Bcache.setCall] at hcount ⊢
      by_cases hc : c = b
      · subst hc
        have henter := headcount_update_enter (f := s.call) (p := p) (Q := BufAt.Refers c)
          (a := .drop c) (by simp [hp, BufAt.Refers]) (by simp [BufAt.Refers])
        simp only [Function.update_self, hlock, Option.isSome_some, ↓reduceIte,
          Option.isSome_none, Bool.false_eq_true] at hcount ⊢
        rw [hcount]
        congr 1
        omega
      · have hsame := headcount_update_same (f := s.call) (p := p) (Q := BufAt.Refers c)
          (a := .drop b) (by simp [hp, BufAt.Refers, Ne.symm hc])
        simp only [Function.update_of_ne hc, hsame]
        exact hcount
  | drop p b hp hlinks hbuf hcall hpins =>
      rw [hbuf, hcall, hpins]
      by_cases hc : c = b
      · subst hc
        have hleave := headcount_update_leave (f := s.call) (p := p) (Q := BufAt.Refers c)
          (a := .out) (by simp [hp, BufAt.Refers]) (by simp [BufAt.Refers])
        simp only [Function.update_self]
        exact count_down hcount rfl (by omega)
      · have hsame := headcount_update_same (f := s.call) (p := p) (Q := BufAt.Refers c)
          (a := .out) (by simp [hp, BufAt.Refers, Ne.symm hc])
        simp only [Function.update_of_ne hc, hsame]
        exact hcount
  | pin b ht =>
      subst ht
      simp only [Bcache.setBuf] at hcount ⊢
      by_cases hc : c = b
      · subst hc
        simp only [Function.update_self]
        exact count_up hcount rfl (by omega)
      · simp only [Function.update_of_ne hc]
        exact hcount
  | unpin b hpinned ht =>
      subst ht
      simp only [Bcache.setBuf] at hcount ⊢
      by_cases hc : c = b
      · subst hc
        simp only [Function.update_self]
        exact count_down hcount rfl (by omega)
      · simp only [Function.update_of_ne hc]
        exact hcount

theorem Bcache.Booted.counted (h : s.Booted) : s.Counted := by
  intro b
  have hnone : headcount s.call (BufAt.Refers b) = 0 :=
    headcount_eq_zero fun p => by simp [h.call p, BufAt.Refers]
  rw [references_eq, h.buf b, hnone, h.pins b]
  rfl

theorem Bcache.Booted.oneCopy (h : s.Booted) : s.OneCopy := by
  intro b c hdev
  rw [h.buf b] at hdev
  exact absurd rfl hdev

theorem counted_refs (run : Run (bufferCache N) past s) : s.Counted := by
  induction run with
  | init h => exact h.counted
  | step run h ih =>
      obtain ⟨l, hl⟩ := listed run
      exact (Bcache.step_moves hl h).counted ih

theorem one_copy (run : Run (bufferCache N) past s) : s.OneCopy := by
  induction run with
  | init h => exact h.oneCopy
  | step run h ih =>
      obtain ⟨l, hl⟩ := listed run
      exact (Bcache.step_moves hl h).oneCopy ih

/-! ### The result -/

/-- `bget` comes to an end, with a buffer or in a panic. -/
theorem bget_ends (run : Run (bufferCache N) past s) {p : Fin N} (hp : s.call p = .out)
    (dev blockno : UInt32) : ∃ t, s.bget p dev blockno = some t := by
  obtain ⟨l, hl⟩ := listed run
  obtain ⟨t, ht, -⟩ := bget_cases hl hp dev blockno
  exact ⟨t, ht⟩

/-- **The buffer cache holds one copy of a block.**  In every reachable state the
list goes through all buffers, once each, and back to the head, in both
directions; no two buffers hold the same block of a real device; `refcnt` counts
the holders, the waiters and the pins; and no step gives a buffer with references
to another block. -/
theorem bcache_one_copy (run : Run (bufferCache N) past s) :
    (∃ l : List (Fin NBUF), l.Nodup ∧ (∀ b, b ∈ l) ∧
      (.head :: (l.map .buf ++ [.head])).IsChain (s.links.next · = ·) ∧
      (.head :: (l.reverse.map .buf ++ [.head])).IsChain (s.links.prev · = ·)) ∧
    (∀ b c, (s.buf b).dev ≠ 0 → (s.buf b).dev = (s.buf c).dev →
      (s.buf b).blockno = (s.buf c).blockno → b = c) ∧
    (∀ b, (s.buf b).refcnt = UInt32.ofNat (s.holders b + s.waiters b + s.pins b)) ∧
    ∀ e t b, s.step e = some t → 0 < (s.buf b).refcnt →
      (t.buf b).dev = (s.buf b).dev ∧ (t.buf b).blockno = (s.buf b).blockno := by
  obtain ⟨l, hl⟩ := listed run
  refine ⟨⟨l, hl.nodup, hl.all, hl.circle.chain_next, ?_⟩, one_copy run, counted_refs run, ?_⟩
  · rw [List.map_reverse]
    exact hl.circle.chain_prev
  · intro e t b hstep hb
    apply (Bcache.step_moves hl hstep).keeps_block
    intro hzero
    rw [hzero] at hb
    exact absurd hb (by decide)

/-- The cache after `binit`. -/
def freshCache (N : Nat) : Bcache N where
  buf := fun _ => ⟨false, 0, 0, none, 0⟩
  links := binit ⟨fun b => b, fun b => b⟩
  call := fun _ => .out
  pins := fun _ => 0
  panicked := none

/-- A process holds a block, for which another one waits, and which is pinned. -/
theorem bcache_one_copy_shared : ∃ past s, Run (bufferCache 2) past s ∧
    (s.buf 0).refcnt = 3 ∧
    (s.buf 0).refcnt = UInt32.ofNat (s.holders 0 + s.waiters 0 + s.pins 0) := by
  obtain ⟨past, s, run, hcount⟩ := Machine.exists_run_of_trace (M := bufferCache 2)
    (s := freshCache 2) ⟨⟨_, rfl⟩, fun _ => rfl, fun _ => rfl, fun _ => rfl, rfl⟩
    [.bread 0 1 45, .acquire 0, .fill 0, .bread 1 1 45, .bpin 0]
    (fun _ s => (s.buf 0).refcnt = 3) (by decide +kernel)
  exact ⟨past, s, run, hcount, (bcache_one_copy run).2.2.1 0⟩

end Xv6
