import OSN.Lib.Run
import OSN.Lib.Ring
import Mathlib.Data.Fintype.Card
import Mathlib.Data.UInt

/-!
# The disk driver

`virtio_disk_rw` takes three of the `NUM` descriptors, chains them into a
request, puts the first one into the `avail` ring and sleeps until the interrupt
handler has cleared `b->disk`.  The device takes chains out of the `avail` ring
at its own pace, carries them out in any order and puts each into the `used`
ring, from which the interrupt handler takes them.

All of the driver runs under `vdisk_lock`, so one event is what happens from
where the lock is acquired to where it is released; only the interrupt handler,
whose loop the device may prolong, is taken pass by pass.  The device reads and
writes the rings at any time.  The ring indices are 16 bits wide and wrap around.
-/

namespace Virtio

/-- `NUM`, the number of descriptors. -/
def NUM : Nat := 8

instance neZeroNum : NeZero NUM := ⟨by decide⟩

/-- What the address in a descriptor points to. -/
inductive DiskAddr (β : Type) where
  | null
  /-- `&disk.ops[i]` -/
  | op (i : Fin NUM)
  /-- `b->data` -/
  | data (b : β)
  /-- `&disk.info[i].status` -/
  | status (i : Fin NUM)
  deriving DecidableEq

/-- `struct virtq_desc`. -/
structure Desc (β : Type) where
  addr : DiskAddr β
  len : UInt32
  flags : UInt16
  next : Fin NUM
  deriving DecidableEq

/-- `VRING_DESC_F_NEXT`. -/
def NEXT : UInt16 := 1

/-- `VRING_DESC_F_WRITE`. -/
def WRITE : UInt16 := 2

/-- `struct virtio_blk_req`. -/
structure BlkReq where
  type : UInt32
  reserved : UInt32
  sector : UInt64
  deriving DecidableEq

/-- An entry of `disk.info`. -/
structure Info (β : Type) where
  b : Option β
  status : UInt8

/-- The arguments of `virtio_disk_rw`: a buffer, its block and the direction. -/
structure Request (β : Type) where
  b : β
  blockno : UInt32
  write : Bool
  deriving DecidableEq

/-- `idx` of `virtio_disk_rw`. -/
structure Chain where
  head : Fin NUM
  data : Fin NUM
  status : Fin NUM
  deriving DecidableEq

namespace Chain

/-- The three descriptors. -/
def toList (idx : Chain) : List (Fin NUM) := [idx.head, idx.data, idx.status]

end Chain

/-- `disk`, without its lock, and `b->disk` of all buffers. -/
structure Driver (β : Type) where
  desc : Fin NUM → Desc β
  avail : Nat → Fin NUM
  availIdx : UInt16
  used : Nat → Fin NUM
  /-- `disk.used->idx`, which the device increments. -/
  usedDev : UInt16
  free : Fin NUM → Bool
  /-- `disk.used_idx`. -/
  usedIdx : UInt16
  info : Fin NUM → Info β
  ops : Fin NUM → BlkReq
  disk : β → Bool

/-- Where a process is. -/
inductive DiskAt (β : Type) where
  | out
  /-- Acquires the lock, for the loop around `alloc3_desc`. -/
  | alloc (r : Request β)
  /-- Sleeps on `&disk.free[0]`. -/
  | noDesc (r : Request β)
  /-- Acquires the lock, for the loop around `b->disk`. -/
  | await (r : Request β) (idx : Chain)
  /-- Sleeps on `b`. -/
  | asleep (r : Request β) (idx : Chain)
  deriving DecidableEq

/-- The driver, the device and `N` processes. -/
structure Disk (N : Nat) (β : Type) extends Driver β where
  /-- How far the device has read the `avail` ring. -/
  fetched : UInt16
  /-- The chains that the device has taken and not completed. -/
  working : List (Fin NUM)
  call : Fin N → DiskAt β
  /-- The interrupt handler has the lock. -/
  intr : Bool
  /-- The text of the panic that has stopped the kernel. -/
  panicked : Option String

/-- One event. -/
inductive DiskEvent (N : Nat) (β : Type) where
  /-- A process calls `virtio_disk_rw`. -/
  | rw (p : Fin N) (r : Request β)
  /-- A process gets the lock and runs until it sleeps or returns. -/
  | run (p : Fin N)
  /-- `kill` wakes a process up. -/
  | kill (p : Fin N)
  /-- `virtio_disk_intr` gets the lock. -/
  | intr
  /-- A pass through the loop of `virtio_disk_intr`. -/
  | handle
  /-- The device takes a chain out of the `avail` ring. -/
  | fetch
  /-- The device completes the chain that begins with this descriptor. -/
  | complete (i : Fin NUM)

namespace Driver

variable {β : Type}

/-- `alloc_desc`. -/
def allocDesc (d : Driver β) : Option (Fin NUM × Driver β) :=
  match (List.finRange NUM).find? d.free with
  | some i => some (i, { d with free := Function.update d.free i false })
  | none => none

/-- `free_desc`, without its wakeup. -/
def freeDesc (d : Driver β) (i : Fin NUM) : Except String (Driver β) :=
  if d.free i then .error "free_desc 2"
  else
    .ok
      { d with
        desc := Function.update d.desc i ⟨.null, 0, 0, 0⟩
        free := Function.update d.free i true }

/-- `free_chain`.  `none` means that it has not come to an end after `fuel`
descriptors. -/
def freeChain : Nat → Driver β → Fin NUM → Option (Except String (Driver β))
  | 0, _, _ => none
  | fuel + 1, d, i =>
      let flag := (d.desc i).flags
      let nxt := (d.desc i).next
      match d.freeDesc i with
      | .error text => some (.error text)
      | .ok d => if flag &&& NEXT ≠ 0 then freeChain fuel d nxt else some (.ok d)

/-- A pass through the loop of `alloc3_desc`: the next descriptor, or a rollback of
those taken so far. -/
def allocNext (d : Driver β) (taken : List (Fin NUM))
    (next : Fin NUM → Driver β → Except String (Option Chain × Driver β)) :
    Except String (Option Chain × Driver β) :=
  match d.allocDesc with
  | some (i, d) => next i d
  | none => (taken.foldlM freeDesc d).map fun d => (none, d)

/-- `alloc3_desc`. -/
def alloc3Desc (d : Driver β) : Except String (Option Chain × Driver β) :=
  d.allocNext [] fun i d =>
    d.allocNext [i] fun j d =>
      d.allocNext [i, j] fun k d => .ok (some ⟨i, j, k⟩, d)

variable [DecidableEq β]

/-- The part of `virtio_disk_rw` that formats the descriptors and gives the chain to
the device. -/
def format (d : Driver β) (r : Request β) (idx : Chain) : Driver β :=
  let ops := Function.update d.ops idx.head ⟨if r.write then 1 else 0, 0, (r.blockno * 2).toUInt64⟩
  let desc := Function.update d.desc idx.head ⟨.op idx.head, 16, NEXT, idx.data⟩
  let desc := Function.update desc idx.data
    ⟨.data r.b, 1024, (if r.write then 0 else WRITE) ||| NEXT, idx.status⟩
  let desc := Function.update desc idx.status ⟨.status idx.head, 1, WRITE, 0⟩
  { d with
    ops := ops
    desc := desc
    info := Function.update d.info idx.head ⟨some r.b, 0xff⟩
    disk := Function.update d.disk r.b true
    avail := Function.update d.avail (d.availIdx % UInt16.ofNat NUM).toNat idx.head
    availIdx := d.availIdx + 1 }

end Driver

namespace Disk

variable {N : Nat} {β : Type}

def setCall (s : Disk N β) (p : Fin N) (at' : DiskAt β) : Disk N β :=
  { s with call := Function.update s.call p at' }

def panic (s : Disk N β) (text : String) : Disk N β := { s with panicked := some text }

/-- `wakeup(&disk.free[0])`. -/
def wakeFree (s : Disk N β) : Disk N β :=
  { s with
    call := fun p =>
      match s.call p with
      | .noDesc r => .alloc r
      | other => other }

variable [DecidableEq β]

/-- `wakeup(b)`. -/
def wakeBuf (s : Disk N β) (b : β) : Disk N β :=
  { s with
    call := fun p =>
      match s.call p with
      | .asleep r idx => if r.b = b then .await r idx else .asleep r idx
      | other => other }

/-- `virtio_disk_rw` from the loop around `b->disk` on. -/
def waitFor (s : Disk N β) (p : Fin N) (r : Request β) (idx : Chain) : Option (Disk N β) :=
  if s.disk r.b then some (s.setCall p (.asleep r idx))
  else
    let info := Function.update s.info idx.head ⟨none, (s.info idx.head).status⟩
    match { s.toDriver with info := info }.freeChain (NUM + 1) idx.head with
    | none => none
    | some (.error text) => some (s.panic text)
    | some (.ok d) => some ({ s with toDriver := d }.wakeFree.setCall p .out)

/-- A process gets the lock and runs until it sleeps or returns. -/
def run (s : Disk N β) (p : Fin N) : Option (Disk N β) :=
  if s.intr then none
  else
    match s.call p with
    | .alloc r =>
        match s.alloc3Desc with
        | .error text => some (s.panic text)
        | .ok (none, d) =>
            let t := { s with toDriver := d }
            -- a rollback of at least one descriptor wakes others up
            some ((if s.allocDesc.isSome then t.wakeFree else t).setCall p (.noDesc r))
        | .ok (some idx, d) => { s with toDriver := d.format r idx }.waitFor p r idx
    | .await r idx => s.waitFor p r idx
    | _ => none

/-- `kill` makes a sleeping process runnable. -/
def kill (s : Disk N β) (p : Fin N) : Option (Disk N β) :=
  match s.call p with
  | .noDesc r => some (s.setCall p (.alloc r))
  | .asleep r idx => some (s.setCall p (.await r idx))
  | _ => none

/-- A pass through the loop of `virtio_disk_intr`. -/
def handle (s : Disk N β) : Option (Disk N β) :=
  if s.intr then
    if s.usedIdx ≠ s.usedDev then
      let id := s.used (s.usedIdx % UInt16.ofNat NUM).toNat
      if (s.info id).status ≠ 0 then some (s.panic "virtio_disk_intr status")
      else
        match (s.info id).b with
        -- a null pointer
        | none => some (s.panic "kerneltrap")
        | some b =>
            let t := { s with disk := Function.update s.disk b false }
            some { t.wakeBuf b with usedIdx := s.usedIdx + 1 }
    else some { s with intr := false }
  else none

/-- The device takes the next chain out of the `avail` ring. -/
def fetch (s : Disk N β) : Option (Disk N β) :=
  if s.fetched ≠ s.availIdx then
    some
      { s with
        working := s.working ++ [s.avail (s.fetched % UInt16.ofNat NUM).toNat]
        fetched := s.fetched + 1 }
  else none

/-- The address in the last descriptor of a chain of three. -/
def statusAddr (s : Disk N β) (i : Fin NUM) : DiskAddr β :=
  (s.desc (s.desc (s.desc i).next).next).addr

/-- The device completes a chain: it writes the status and puts the chain into the
`used` ring. -/
def complete (s : Disk N β) (i : Fin NUM) : Option (Disk N β) :=
  if i ∈ s.working then
    let info :=
      match s.statusAddr i with
      | .status j => Function.update s.info j { s.info j with status := 0 }
      | _ => s.info
    some
      { s with
        info := info
        working := s.working.erase i
        used := Function.update s.used (s.usedDev % UInt16.ofNat NUM).toNat i
        usedDev := s.usedDev + 1 }
  else none

/-- A process uses the buffer: it is the argument of its `virtio_disk_rw`. -/
def Uses (s : Disk N β) (p : Fin N) (b : β) : Prop :=
  match s.call p with
  | .out => False
  | .alloc r | .noDesc r | .await r _ | .asleep r _ => r.b = b

instance (s : Disk N β) (p : Fin N) (b : β) : Decidable (s.Uses p b) := by
  unfold Uses
  split <;> infer_instance

/-- A step.  The caller of `virtio_disk_rw` holds the sleep lock of the buffer, so
that no other process uses it. -/
def step (s : Disk N β) (e : DiskEvent N β) : Option (Disk N β) :=
  if s.panicked ≠ none then none
  else
    match e with
    | .rw p r =>
        if s.call p = .out ∧ ∀ q, ¬ s.Uses q r.b then some (s.setCall p (.alloc r)) else none
    | .run p => s.run p
    | .kill p => s.kill p
    | .intr => if s.intr then none else some { s with intr := true }
    | .handle => s.handle
    | .fetch => s.fetch
    | .complete i => s.complete i

end Disk

/-- What `virtio_disk_init` leaves; the rings are zero. -/
structure Disk.Booted {N : Nat} {β : Type} (s : Disk N β) : Prop where
  free : ∀ i, s.free i = true
  availIdx : s.availIdx = 0
  usedDev : s.usedDev = 0
  usedIdx : s.usedIdx = 0
  disk : ∀ b, s.disk b = false
  fetched : s.fetched = 0
  working : s.working = []
  call : ∀ p, s.call p = .out
  intr : s.intr = false
  panicked : s.panicked = none

/-- The disk driver, the device, and `N` processes. -/
def virtioDisk (N : Nat) (β : Type) [DecidableEq β] : Machine (Disk N β) (DiskEvent N β) where
  init := Disk.Booted
  step := Disk.step

variable {N : Nat} {β : Type}

/-! ### Taking and freeing descriptors -/

namespace Driver

variable {d d' : Driver β} {i j : Fin NUM}

theorem allocDesc_some (h : d.allocDesc = some (i, d')) :
    d.free i = true ∧ d' = { d with free := Function.update d.free i false } := by
  unfold allocDesc at h
  split at h
  next j hfound =>
    simp only [Option.some.injEq, Prod.mk.injEq] at h
    obtain ⟨rfl, rfl⟩ := h
    exact ⟨List.find?_some hfound, rfl⟩
  next => cases h

/-- What `free_desc` leaves of a descriptor that is taken. -/
def freed (d : Driver β) (i : Fin NUM) : Driver β :=
  { d with
    desc := Function.update d.desc i ⟨.null, 0, 0, 0⟩
    free := Function.update d.free i true }

theorem freeDesc_taken (h : d.free i = false) : d.freeDesc i = .ok (d.freed i) := by
  simp [freeDesc, freed, h]

theorem freed_free_of_ne (h : j ≠ i) : (d.freed i).free j = d.free j :=
  Function.update_of_ne h _ d.free

theorem freed_desc_of_ne (h : j ≠ i) : (d.freed i).desc j = d.desc j :=
  Function.update_of_ne h _ d.desc

/-- A pass through the loop of `free_chain`. -/
theorem freeChain_taken {fuel : Nat} (h : d.free i = false) :
    freeChain (fuel + 1) d i =
      if (d.desc i).flags &&& NEXT ≠ 0 then freeChain fuel (d.freed i) (d.desc i).next
      else some (.ok (d.freed i)) := by
  simp only [freeChain, freeDesc_taken h]

/-- Only descriptors that are free have changed, and they are free again. -/
def RolledBack (d d' : Driver β) : Prop :=
  d' = { d with desc := d'.desc } ∧ ∀ i, d.free i = false → d'.desc i = d.desc i

theorem RolledBack.refl (d : Driver β) : RolledBack d d := ⟨rfl, fun _ _ => rfl⟩

/-- Freeing a free descriptor after taking it is a rollback. -/
theorem RolledBack.freed (hi : d.free i = true)
    (h : RolledBack { d with free := Function.update d.free i false } d') :
    RolledBack d (d'.freed i) := by
  obtain ⟨heq, hdesc⟩ := h
  constructor
  · rw [heq]
    simp [Driver.freed, ← hi]
  · intro k hk
    have hki : k ≠ i := by
      rintro rfl
      rw [hi] at hk
      cases hk
    rw [freed_desc_of_ne hki]
    apply hdesc
    dsimp only
    rw [Function.update_of_ne hki]
    exact hk

/-- Three free descriptors are taken. -/
structure Takes (d : Driver β) (idx : Chain) (d' : Driver β) : Prop where
  nodup : idx.toList.Nodup
  free : ∀ i ∈ idx.toList, d.free i = true
  eq : d' = { d with free := fun i => if i ∈ idx.toList then false else d.free i }

/-- **`alloc3_desc`** takes three descriptors, or none. -/
theorem alloc3Desc_cases (d : Driver β) :
    (∃ idx d', d.alloc3Desc = .ok (some idx, d') ∧ d.Takes idx d') ∨
      ∃ d', d.alloc3Desc = .ok (none, d') ∧ d.RolledBack d' := by
  unfold alloc3Desc allocNext
  cases h₁ : d.allocDesc with
  | none => exact Or.inr ⟨d, rfl, .refl d⟩
  | some x =>
      obtain ⟨i, d₁⟩ := x
      obtain ⟨hi, rfl⟩ := allocDesc_some h₁
      dsimp only
      cases h₂ : ({ d with free := Function.update d.free i false } : Driver β).allocDesc with
      | none =>
          refine Or.inr ⟨_, ?_, RolledBack.freed hi (.refl _)⟩
          simp only [List.foldlM_cons, List.foldlM_nil]
          rw [freeDesc_taken (Function.update_self i false d.free)]
          rfl
      | some y =>
          obtain ⟨j, d₂⟩ := y
          obtain ⟨hj, rfl⟩ := allocDesc_some h₂
          have hji : j ≠ i := by
            rintro rfl
            simp at hj
          have hjfree : d.free j = true := by simpa [hji] using hj
          dsimp only
          cases h₃ : ({ d with free := Function.update (Function.update d.free i false) j false } :
              Driver β).allocDesc with
          | none =>
              refine Or.inr ⟨_, ?_, RolledBack.freed hjfree (.freed (i := i) ?_ (.refl _))⟩
              · simp only [List.foldlM_cons, List.foldlM_nil]
                rw [freeDesc_taken (by simp [Ne.symm hji])]
                dsimp only [bind, Except.bind]
                rw [freeDesc_taken (by simp [freed, hji]), Function.update_comm hji]
                rfl
              · dsimp only
                rw [Function.update_of_ne (Ne.symm hji)]
                exact hi
          | some z =>
              obtain ⟨k, d₃⟩ := z
              obtain ⟨hk, rfl⟩ := allocDesc_some h₃
              have hkj : k ≠ j := by
                rintro rfl
                simp at hk
              have hki : k ≠ i := by
                rintro rfl
                simp [Ne.symm hji] at hk
              have hkfree : d.free k = true := by simpa [hki, hkj] using hk
              refine Or.inl ⟨⟨i, j, k⟩, _, rfl, ?_, ?_, ?_⟩
              · simp [Chain.toList, Ne.symm hji, Ne.symm hki, Ne.symm hkj]
              · simp [Chain.toList, hi, hjfree, hkfree]
              · congr 1
                funext l
                simp only [Chain.toList, List.mem_cons, List.not_mem_nil, or_false,
                  Function.update_apply]
                split_ifs <;> grind

/-- The descriptors of a chain are as `virtio_disk_rw` formats them. -/
structure Formatted (d : Driver β) (r : Request β) (idx : Chain) : Prop where
  op : d.ops idx.head = ⟨if r.write then 1 else 0, 0, (r.blockno * 2).toUInt64⟩
  head : d.desc idx.head = ⟨.op idx.head, 16, NEXT, idx.data⟩
  data : d.desc idx.data =
    ⟨.data r.b, 1024, (if r.write then 0 else WRITE) ||| NEXT, idx.status⟩
  status : d.desc idx.status = ⟨.status idx.head, 1, WRITE, 0⟩

variable {r : Request β} {idx : Chain}

/-- A chain stays formatted as long as nothing of it changes. -/
theorem Formatted.congr (h : d.Formatted r idx) (hops : d'.ops idx.head = d.ops idx.head)
    (hdesc : ∀ i ∈ idx.toList, d'.desc i = d.desc i) : d'.Formatted r idx := by
  constructor
  · rw [hops, h.op]
  · rw [hdesc idx.head (by simp [Chain.toList]), h.head]
  · rw [hdesc idx.data (by simp [Chain.toList]), h.data]
  · rw [hdesc idx.status (by simp [Chain.toList]), h.status]

theorem data_has_next (w : Bool) : ((if w then 0 else WRITE) ||| NEXT) &&& NEXT ≠ 0 := by
  cases w <;> decide

/-- The descriptors of a chain, given back. -/
def released (d : Driver β) (idx : Chain) : Driver β :=
  ((d.freed idx.head).freed idx.data).freed idx.status

theorem released_free : (d.released idx).free i = if i ∈ idx.toList then true else d.free i := by
  simp only [released, freed, Chain.toList, Function.update_apply, List.mem_cons,
    List.not_mem_nil, or_false]
  split_ifs <;> grind

theorem released_desc (h : i ∉ idx.toList) : (d.released idx).desc i = d.desc i := by
  simp only [Chain.toList, List.mem_cons, List.not_mem_nil, or_false, not_or] at h
  obtain ⟨hhead, hdata, hstatus⟩ := h
  simp [released, freed, hhead, hdata, hstatus]

/-- **`free_chain`** gives back the three descriptors of a formatted chain. -/
theorem freeChain_formatted (hnodup : idx.toList.Nodup)
    (htaken : ∀ i ∈ idx.toList, d.free i = false) (h : d.Formatted r idx) :
    freeChain (NUM + 1) d idx.head = some (.ok (d.released idx)) := by
  simp only [Chain.toList, List.nodup_cons, List.mem_cons, List.not_mem_nil, or_false, not_or,
    not_false_eq_true, List.nodup_nil, and_true] at hnodup
  obtain ⟨⟨hhd, hhs⟩, hds⟩ := hnodup
  have hhead : d.free idx.head = false := htaken _ (by simp [Chain.toList])
  have hdata : (d.freed idx.head).free idx.data = false := by
    rw [freed_free_of_ne (Ne.symm hhd)]
    exact htaken _ (by simp [Chain.toList])
  have hstatus : ((d.freed idx.head).freed idx.data).free idx.status = false := by
    rw [freed_free_of_ne (Ne.symm hds), freed_free_of_ne (Ne.symm hhs)]
    exact htaken _ (by simp [Chain.toList])
  rw [freeChain_taken hhead, h.head, if_pos (show NEXT &&& NEXT ≠ 0 by decide), NUM,
    freeChain_taken hdata, freed_desc_of_ne (Ne.symm hhd), h.data, if_pos (data_has_next r.write),
    freeChain_taken hstatus, freed_desc_of_ne (Ne.symm hds), freed_desc_of_ne (Ne.symm hhs),
    h.status, if_neg (show ¬ WRITE &&& NEXT ≠ 0 by decide)]
  rfl

variable [DecidableEq β]

theorem format_formatted (hnodup : idx.toList.Nodup) : (d.format r idx).Formatted r idx := by
  simp only [Chain.toList, List.nodup_cons, List.mem_cons, List.not_mem_nil, or_false, not_or,
    not_false_eq_true, List.nodup_nil, and_true] at hnodup
  obtain ⟨⟨hhd, hhs⟩, hds⟩ := hnodup
  constructor <;> simp [format, hhd, hhs, hds]

/-- The other chains do not change. -/
theorem format_other {r' : Request β} {idx' : Chain} (h : d.Formatted r' idx')
    (hapart : ∀ i ∈ idx'.toList, i ∉ idx.toList) : (d.format r idx).Formatted r' idx' := by
  have hne : ∀ i ∈ idx'.toList, i ≠ idx.head ∧ i ≠ idx.data ∧ i ≠ idx.status := by
    simpa [Chain.toList] using hapart
  have hhead := hne idx'.head (by simp [Chain.toList])
  refine h.congr ?_ ?_
  · simp [format, hhead.1]
  · intro i hi
    obtain ⟨h₁, h₂, h₃⟩ := hne i hi
    simp [format, h₁, h₂, h₃]

end Driver

/-! ### Chains in flight -/

/-- The request and the chain of a process that waits for its completion. -/
def DiskAt.flight : DiskAt β → Option (Request β × Chain)
  | .await r idx | .asleep r idx => some (r, idx)
  | _ => none

namespace Disk

variable {s t : Disk N β} {p q : Fin N} {r r' : Request β} {idx idx' : Chain} {b : β}
  {i : Fin NUM}

/-- The chain `idx` of the request `r` of process `p` is in flight. -/
def Flight (s : Disk N β) (p : Fin N) (r : Request β) (idx : Chain) : Prop :=
  (s.call p).flight = some (r, idx)

/-- Since the chain of `p` is in flight, the device has completed it. -/
def Done (p : Fin N) : Past (Disk N β) (DiskEvent N β) → Prop
  | [] => False
  | (s, e) :: past => ∃ r idx, s.Flight p r idx ∧ (e = .complete idx.head ∨ Done p past)

theorem Flight.unique (h : s.Flight p r idx) (h' : s.Flight p r' idx') : r = r' ∧ idx = idx' := by
  unfold Flight at h h'
  rw [h] at h'
  simpa using h'

theorem Flight.cases (h : s.Flight p r idx) :
    s.call p = .await r idx ∨ s.call p = .asleep r idx := by
  unfold Flight DiskAt.flight at h
  split at h
  · simp_all
  · simp_all
  · cases h

theorem Flight.uses (h : s.Flight p r idx) : s.Uses p r.b := by
  rcases h.cases with hp | hp <;> simp [Uses, hp]

/-- Two processes never use the same buffer. -/
def Alone (s : Disk N β) : Prop := ∀ p q b, s.Uses p b → s.Uses q b → p = q

/-- The descriptors and the chains in flight. -/
structure Chains (s : Disk N β) : Prop where
  nodup : ∀ p r idx, s.Flight p r idx → idx.toList.Nodup
  apart : ∀ p r idx q r' idx', s.Flight p r idx → s.Flight q r' idx' →
    ∀ i ∈ idx.toList, i ∈ idx'.toList → p = q
  taken : ∀ i, s.free i = false ↔ ∃ p r idx, s.Flight p r idx ∧ i ∈ idx.toList
  formatted : ∀ p r idx, s.Flight p r idx → s.Formatted r idx
  info : ∀ p r idx, s.Flight p r idx → (s.info idx.head).b = some r.b
  alone : s.Alone

/-- The two rings, the chains that the device works on, and the buffers that the disk
owns. -/
structure Rings (s : Disk N β) (given completed : List (Fin NUM)) : Prop where
  avail : Ring.Window NUM (2 ^ 16) s.avail s.fetched.toNat s.availIdx.toNat given
  used : Ring.Window NUM (2 ^ 16) s.used s.usedIdx.toNat s.usedDev.toNat completed
  nodup : (given ++ s.working ++ completed).Nodup
  heads : ∀ i, i ∈ given ++ s.working ++ completed ↔
    ∃ p r idx, s.Flight p r idx ∧ idx.head = i ∧ s.disk r.b = true
  status : ∀ i ∈ completed, (s.info i).status = 0

/-- The books of the driver and the device. -/
structure Books (s : Disk N β) (past : Past (Disk N β) (DiskEvent N β))
    (given completed : List (Fin NUM)) : Prop where
  chains : s.Chains
  rings : s.Rings given completed
  done : ∀ p r idx, s.Flight p r idx →
    (Done p past ↔ idx.head ∈ completed ∨ s.disk r.b = false)
  panicked : s.panicked = none

theorem head_mem : idx.head ∈ idx.toList := List.mem_cons_self

/-- Two chains in flight that begin with the same descriptor are the same. -/
theorem Chains.same_head (h : s.Chains) (hp : s.Flight p r idx) (hq : s.Flight q r' idx')
    (hhead : idx.head = idx'.head) : p = q :=
  h.apart p r idx q r' idx' hp hq idx.head head_mem (hhead ▸ head_mem)

/-- Two chains in flight with the same buffer are the same. -/
theorem Chains.same_buffer (h : s.Chains) (hp : s.Flight p r idx) (hq : s.Flight q r' idx')
    (hb : r.b = r'.b) : p = q :=
  h.alone p q r.b hp.uses (hb ▸ hq.uses)

/-- A ring has room for another chain. -/
theorem Rings.room {l : List (Fin NUM)} (hl : l.Nodup) (hi : i ∉ l) : l.length < NUM := by
  have hcard := List.Nodup.length_le_card (List.nodup_cons.mpr ⟨hi, hl⟩)
  rw [Fintype.card_fin, List.length_cons] at hcard
  exact hcard

/-- A cell of a ring. -/
theorem cell_index (x : UInt16) : (x % UInt16.ofNat NUM).toNat = x.toNat % NUM := rfl

/-! ### Steps that take and give nothing -/

/-- Nothing of the rings and of the chains in flight changes. -/
structure Quiet (s t : Disk N β) : Prop where
  driver : s.RolledBack t.toDriver
  fetched : t.fetched = s.fetched
  working : t.working = s.working
  flight : ∀ p, (t.call p).flight = (s.call p).flight
  stays : ∀ p, t.call p = .out → s.call p = .out
  alone : s.Alone → t.Alone
  panicked : t.panicked = s.panicked

theorem Quiet.flight_iff (h : s.Quiet t) : t.Flight p r idx ↔ s.Flight p r idx := by
  unfold Flight
  rw [h.flight]

theorem Quiet.driver_eq (h : s.Quiet t) : t.toDriver = { s.toDriver with desc := t.desc } :=
  h.driver.1

/-- What counts as done does not change with an event that is no completion. -/
theorem done_cons {past : Past (Disk N β) (DiskEvent N β)} {e : DiskEvent N β}
    (hp : s.Flight p r idx) (he : ∀ i, e ≠ .complete i) : Done p ((s, e) :: past) ↔ Done p past := by
  constructor
  · rintro ⟨r', idx', -, rfl | hdone⟩
    · exact absurd rfl (he _)
    · exact hdone
  · intro hdone
    exact ⟨r, idx, hp, Or.inr hdone⟩

variable {past : Past (Disk N β) (DiskEvent N β)} {e : DiskEvent N β}
  {given completed : List (Fin NUM)}

theorem Quiet.chains (h : s.Quiet t) (hs : s.Chains) : t.Chains := by
  have hfree : t.free = s.free := by rw [h.driver_eq]
  have hinfo : t.info = s.info := by rw [h.driver_eq]
  have hops : t.ops = s.ops := by rw [h.driver_eq]
  constructor
  · intro p r idx hp
    exact hs.nodup p r idx (h.flight_iff.mp hp)
  · intro p r idx q r' idx' hp hq
    exact hs.apart p r idx q r' idx' (h.flight_iff.mp hp) (h.flight_iff.mp hq)
  · intro i
    simp only [hfree, h.flight_iff]
    exact hs.taken i
  · intro p r idx hp
    have hp' := h.flight_iff.mp hp
    refine (hs.formatted p r idx hp').congr (by rw [hops]) ?_
    intro i hi
    exact h.driver.2 i ((hs.taken i).mpr ⟨p, r, idx, hp', hi⟩)
  · intro p r idx hp
    rw [hinfo]
    exact hs.info p r idx (h.flight_iff.mp hp)
  · exact h.alone hs.alone

theorem Quiet.books (h : s.Quiet t) (he : ∀ i, e ≠ .complete i)
    (hs : s.Books past given completed) : t.Books ((s, e) :: past) given completed := by
  have hdisk : t.disk = s.disk := by rw [h.driver_eq]
  refine ⟨h.chains hs.chains, ?_, ?_, h.panicked.trans hs.panicked⟩
  · obtain ⟨havail, hused, hnodup, hheads, hstatus⟩ := hs.rings
    constructor
    · rw [h.fetched, h.driver_eq]
      exact havail
    · rw [h.driver_eq]
      exact hused
    · rw [h.working]
      exact hnodup
    · intro i
      simp only [h.working, hdisk, h.flight_iff]
      exact hheads i
    · rw [h.driver_eq]
      exact hstatus
  · intro p r idx hp
    have hp' := h.flight_iff.mp hp
    rw [done_cons hp' he, hdisk]
    exact hs.done p r idx hp'

@[simp] theorem wakeFree_flight : (s.wakeFree.call p).flight = (s.call p).flight := by
  unfold wakeFree
  dsimp only
  split
  next hp => simp [hp, DiskAt.flight]
  next => rfl

@[simp] theorem wakeFree_uses : s.wakeFree.Uses p b ↔ s.Uses p b := by
  cases hp : s.call p <;> simp [Uses, wakeFree, hp]

theorem wakeFree_stays (hp : s.wakeFree.call p = .out) : s.call p = .out := by
  unfold wakeFree at hp
  dsimp only at hp
  split at hp
  · cases hp
  · exact hp

/-- A wakeup changes only where the processes are. -/
theorem wakeFree_quiet : s.Quiet s.wakeFree where
  driver := .refl _
  fetched := rfl
  working := rfl
  flight := fun _ => wakeFree_flight
  stays := fun _ => wakeFree_stays
  alone := by
    intro h p q b hp hq
    exact h p q b (wakeFree_uses.mp hp) (wakeFree_uses.mp hq)
  panicked := rfl

/-- A process goes on in its call, with nothing in flight that was not. -/
theorem setCall_quiet {at' : DiskAt β} (hflight : at'.flight = (s.call p).flight)
    (hstays : at' ≠ .out) (huses : s.Alone → (s.setCall p at').Alone) :
    s.Quiet (s.setCall p at') where
  driver := .refl _
  fetched := rfl
  working := rfl
  flight := by
    intro q
    by_cases hq : q = p
    · subst hq
      simp [setCall, hflight]
    · simp [setCall, hq]
  stays := by
    intro q hq
    by_cases hqp : q = p
    · subst hqp
      exact absurd (by simpa [setCall] using hq) hstays
    · simpa [setCall, hqp] using hq
  alone := huses
  panicked := rfl

theorem setCall_uses_of_ne {at' : DiskAt β} (hq : q ≠ p) :
    (s.setCall p at').Uses q b ↔ s.Uses q b := by
  simp [Uses, setCall, hq]

/-- The buffers in use stay as they are, or `p` gives its own back. -/
theorem setCall_alone {at' : DiskAt β}
    (huses : ∀ b, (s.setCall p at').Uses p b → s.Uses p b) (h : s.Alone) :
    (s.setCall p at').Alone := by
  have hless : ∀ q b, (s.setCall p at').Uses q b → s.Uses q b := by
    intro q b hq
    by_cases hqp : q = p
    · subst hqp
      exact huses b hq
    · exact (setCall_uses_of_ne hqp).mp hq
  intro q q' b hq hq'
  exact h q q' b (hless q b hq) (hless q' b hq')

theorem Quiet.trans {u : Disk N β} (h : s.Quiet t) (h' : t.Quiet u)
    (hsame : u.toDriver = t.toDriver) : s.Quiet u where
  driver := by
    rw [hsame]
    exact h.driver
  fetched := h'.fetched.trans h.fetched
  working := h'.working.trans h.working
  flight := fun p => (h'.flight p).trans (h.flight p)
  stays := fun p hp => h.stays p (h'.stays p hp)
  alone := fun hs => h'.alone (h.alone hs)
  panicked := h'.panicked.trans h.panicked

/-- The driver after a rollback, with everything else as it was. -/
theorem rollback_quiet {d : Driver β} (h : s.RolledBack d) :
    s.Quiet { s with toDriver := d } where
  driver := h
  fetched := rfl
  working := rfl
  flight := fun _ => rfl
  stays := fun _ hp => hp
  alone := fun hs => hs
  panicked := rfl

theorem setCall_flight_of_ne {at' : DiskAt β} (hq : q ≠ p) :
    (s.setCall p at').Flight q r idx ↔ s.Flight q r idx := by
  simp [Flight, setCall, hq]

/-- The handler gets the lock, or gives it back. -/
theorem intr_quiet (intr : Bool) : s.Quiet { s with intr := intr } :=
  ⟨.refl _, rfl, rfl, fun _ => rfl, fun _ hp => hp, fun hs => hs, rfl⟩

theorem kill_quiet (hstep : s.kill p = some t) : s.Quiet t := by
  unfold kill at hstep
  split at hstep
  next r hp =>
    cases hstep
    refine setCall_quiet (by simp [hp, DiskAt.flight]) (by simp) (setCall_alone ?_)
    intro b hb
    simpa [Uses, setCall, hp] using hb
  next r idx hp =>
    cases hstep
    refine setCall_quiet (by simp [hp, DiskAt.flight]) (by simp) (setCall_alone ?_)
    intro b hb
    simpa [Uses, setCall, hp] using hb
  next => cases hstep

/-- A call begins only with a buffer that no other process uses. -/
theorem rw_quiet (hp : s.call p = .out) (hb : ∀ q, ¬ s.Uses q r.b) :
    s.Quiet (s.setCall p (.alloc r)) := by
  refine setCall_quiet (by simp [hp, DiskAt.flight]) (by simp) ?_
  intro hs q q' b hq hq'
  by_cases hqp : q = p
  · by_cases hqp' : q' = p
    · rw [hqp, hqp']
    · have hrb : r.b = b := by simpa [Uses, setCall, hqp] using hq
      rw [setCall_uses_of_ne hqp', ← hrb] at hq'
      exact absurd hq' (hb q')
  · rw [setCall_uses_of_ne hqp] at hq
    by_cases hqp' : q' = p
    · have hrb : r.b = b := by simpa [Uses, setCall, hqp'] using hq'
      rw [← hrb] at hq
      exact absurd hq (hb q)
    · rw [setCall_uses_of_ne hqp'] at hq'
      exact hs q q' b hq hq'

/-! ### A call returns -/

/-- What `disk.info[idx[0]].b = 0` leaves. -/
def forgotten (s : Disk N β) (idx : Chain) : Driver β :=
  { s.toDriver with info := Function.update s.info idx.head ⟨none, (s.info idx.head).status⟩ }

/-- What a call of `virtio_disk_rw` that returns leaves. -/
def returned (s : Disk N β) (p : Fin N) (idx : Chain) : Disk N β :=
  { s with toDriver := (s.forgotten idx).released idx }.wakeFree.setCall p .out

theorem returned_flight :
    (s.returned p idx).Flight q r' idx' ↔ q ≠ p ∧ s.Flight q r' idx' := by
  by_cases hq : q = p
  · subst hq
    simp [returned, setCall, Flight, DiskAt.flight]
  · simp only [returned, setCall_flight_of_ne hq, ne_eq, hq, not_false_eq_true, true_and]
    rw [wakeFree_quiet.flight_iff]
    rfl

theorem returned_chains (hp : s.Flight p r idx) (hs : s.Chains) : (s.returned p idx).Chains := by
  have hothers : ∀ q r' idx', q ≠ p → s.Flight q r' idx' → ∀ i ∈ idx'.toList, i ∉ idx.toList := by
    intro q r' idx' hqp hq i hi hmem
    exact hqp (hs.apart q r' idx' p r idx hq hp i hi hmem)
  constructor
  · intro q r' idx' hq
    exact hs.nodup q r' idx' (returned_flight.mp hq).2
  · intro q r₁ idx₁ q' r₂ idx₂ hq hq'
    exact hs.apart q r₁ idx₁ q' r₂ idx₂ (returned_flight.mp hq).2 (returned_flight.mp hq').2
  · intro i
    have hfree : (s.returned p idx).free i = if i ∈ idx.toList then true else s.free i :=
      Driver.released_free
    rw [hfree]
    constructor
    · intro hi
      split at hi
      next => cases hi
      next hmem =>
        obtain ⟨q, r', idx', hq, hqmem⟩ := (hs.taken i).mp hi
        refine ⟨q, r', idx', returned_flight.mpr ⟨?_, hq⟩, hqmem⟩
        rintro rfl
        rw [(hq.unique hp).2] at hqmem
        exact hmem hqmem
    · rintro ⟨q, r', idx', hq, hmem⟩
      obtain ⟨hqp, hq⟩ := returned_flight.mp hq
      rw [if_neg (hothers q r' idx' hqp hq i hmem)]
      exact (hs.taken i).mpr ⟨q, r', idx', hq, hmem⟩
  · intro q r' idx' hq
    obtain ⟨hqp, hq⟩ := returned_flight.mp hq
    refine (hs.formatted q r' idx' hq).congr rfl ?_
    intro i hi
    exact Driver.released_desc (hothers q r' idx' hqp hq i hi)
  · intro q r' idx' hq
    obtain ⟨hqp, hq⟩ := returned_flight.mp hq
    have hne : idx'.head ≠ idx.head := fun heq => hqp (hs.same_head hq hp heq)
    have hinfo : (s.returned p idx).info idx'.head = s.info idx'.head :=
      Function.update_of_ne hne _ _
    rw [hinfo]
    exact hs.info q r' idx' hq
  · refine setCall_alone ?_ (wakeFree_quiet.alone hs.alone)
    intro b hb
    simp [Uses, setCall] at hb

theorem returned_rings (hp : s.Flight p r idx) (hdone : s.disk r.b = false)
    (h : s.Rings given completed) : (s.returned p idx).Rings given completed := by
  obtain ⟨havail, hused, hnodup, hheads, hstatus⟩ := h
  refine ⟨havail, hused, hnodup, ?_, ?_⟩
  · intro i
    refine (hheads i).trans ?_
    constructor
    · rintro ⟨q, r', idx', hq, hhead, howned⟩
      refine ⟨q, r', idx', returned_flight.mpr ⟨?_, hq⟩, hhead, howned⟩
      rintro rfl
      rw [(hq.unique hp).1, hdone] at howned
      cases howned
    · rintro ⟨q, r', idx', hq, hhead, howned⟩
      exact ⟨q, r', idx', (returned_flight.mp hq).2, hhead, howned⟩
  · intro i hi
    have hinfo : ((s.returned p idx).info i).status = (s.info i).status := by
      by_cases hhead : i = idx.head
      · subst hhead
        simp [returned, forgotten, setCall, wakeFree, Driver.released, Driver.freed]
      · exact congrArg Info.status (Function.update_of_ne hhead _ _)
    rw [hinfo]
    exact hstatus i hi

theorem returned_books (he : ∀ i, e ≠ .complete i) (hp : s.Flight p r idx)
    (hdone : s.disk r.b = false) (h : s.Books past given completed) :
    (s.returned p idx).Books ((s, e) :: past) given completed := by
  refine ⟨returned_chains hp h.chains, returned_rings hp hdone h.rings, ?_, h.panicked⟩
  intro q r' idx' hq
  have hold := (returned_flight.mp hq).2
  rw [done_cons hold he]
  exact h.done q r' idx' hold

/-- From the loop around `b->disk` on: the process sleeps, or its request is done and
it returns. -/
theorem waitFor_cases (h : s.Chains) (hp : s.Flight p r idx) :
    (s.disk r.b = true ∧ s.waitFor p r idx = some (s.setCall p (.asleep r idx))) ∨
      (s.disk r.b = false ∧ s.waitFor p r idx = some (s.returned p idx)) := by
  unfold waitFor
  cases hdisk : s.disk r.b with
  | true => exact Or.inl ⟨rfl, rfl⟩
  | false =>
      refine Or.inr ⟨rfl, ?_⟩
      have hformatted : (s.forgotten idx).Formatted r idx :=
        (h.formatted p r idx hp).congr rfl fun _ _ => rfl
      have htaken : ∀ i ∈ idx.toList, (s.forgotten idx).free i = false := by
        intro i hi
        exact (h.taken i).mpr ⟨p, r, idx, hp, hi⟩
      have hchain := Driver.freeChain_formatted (h.nodup p r idx hp) htaken hformatted
      dsimp only
      rw [show { s.toDriver with
        info := Function.update s.info idx.head ⟨none, (s.info idx.head).status⟩ } =
          s.forgotten idx from rfl, hchain]
      rfl

/-! ### The device -/

theorem fetched_books (h : s.Books past given completed) (hstep : s.fetch = some t)
    (he : ∀ i, e ≠ .complete i) : ∃ given', t.Books ((s, e) :: past) given' completed := by
  simp only [fetch, Option.ite_none_right_eq_some, Option.some.injEq] at hstep
  obtain ⟨hmore, rfl⟩ := hstep
  obtain ⟨havail, hused, hnodup, hheads, hstatus⟩ := h.rings
  have hsome : given ≠ [] := by
    intro hnone
    exact hmore (UInt16.toNat_inj.mp ((havail.empty_iff (by decide)).mpr hnone)).symm
  obtain ⟨i, given', rfl⟩ := List.exists_cons_of_ne_nil hsome
  obtain ⟨hcell, havail⟩ := havail.pop (by decide)
  rw [← cell_index] at hcell
  have hperm : (given' ++ (s.working ++ [i]) ++ completed).Perm
      (i :: given' ++ s.working ++ completed) := by
    simp only [List.append_assoc, List.cons_append]
    exact (List.Perm.append_left given' List.perm_middle).trans List.perm_middle
  refine ⟨given', ⟨h.chains.nodup, h.chains.apart, h.chains.taken, h.chains.formatted,
    h.chains.info, h.chains.alone⟩, ?_, ?_, h.panicked⟩
  · rw [hcell]
    refine ⟨havail, hused, hperm.nodup_iff.mpr hnodup, ?_, hstatus⟩
    intro j
    exact hperm.mem_iff.trans (hheads j)
  · intro p r idx hp
    exact (done_cons hp he).trans (h.done p r idx hp)

/-- The device completes a chain only while it is in flight. -/
theorem Rings.working_flight (h : s.Rings given completed) (hi : i ∈ s.working) :
    ∃ p r idx, s.Flight p r idx ∧ idx.head = i ∧ s.disk r.b = true :=
  (h.heads i).mp (by simp [hi])

/-- The last descriptor of a chain points to the status of its first one. -/
theorem statusAddr_eq (h : s.Formatted r idx) :
    s.statusAddr idx.head = .status idx.head := by
  rw [statusAddr, h.head, h.data, h.status]

theorem completed_books (h : s.Books past given completed) (hstep : s.complete i = some t) :
    t.Books ((s, .complete i) :: past) given (completed ++ [i]) := by
  simp only [complete, Option.ite_none_right_eq_some, Option.some.injEq] at hstep
  obtain ⟨hi, rfl⟩ := hstep
  obtain ⟨p, r, idx, hp, rfl, howned⟩ := h.rings.working_flight hi
  obtain ⟨havail, hused, hnodup, hheads, hstatus⟩ := h.rings
  have hperm : (given ++ s.working.erase idx.head ++ (completed ++ [idx.head])).Perm
      (given ++ s.working ++ completed) := by
    rw [List.append_assoc, List.append_assoc]
    apply List.Perm.append_left
    have hmove : (s.working.erase idx.head ++ (completed ++ [idx.head])).Perm
        (idx.head :: s.working.erase idx.head ++ completed) := by
      rw [← List.append_assoc]
      exact List.perm_append_comm
    exact hmove.trans ((List.perm_cons_erase hi).symm.append_right completed)
  have hnodup' := hperm.nodup_iff.mpr hnodup
  have hnew : idx.head ∉ completed := by
    intro hmem
    have hdisjoint := (List.nodup_append.mp hnodup).2.2
    exact hdisjoint _ (by simp [hi]) _ hmem rfl
  rw [statusAddr_eq (h.chains.formatted p r idx hp)]
  dsimp only
  refine ⟨⟨h.chains.nodup, h.chains.apart, h.chains.taken, ?_, ?_, h.chains.alone⟩,
    ⟨havail, ?_, hnodup', ?_, ?_⟩, ?_, h.panicked⟩
  · intro q r' idx' hq
    exact (h.chains.formatted q r' idx' hq).congr rfl fun _ _ => rfl
  · intro q r' idx' hq
    have hinfo := h.chains.info q r' idx' hq
    by_cases hhead : idx'.head = idx.head
    · simpa [hhead] using hinfo
    · simpa [hhead] using hinfo
  · exact hused.push (by decide) (Rings.room (List.nodup_append.mp hnodup).2.1 hnew)
  · intro j
    exact hperm.mem_iff.trans (hheads j)
  · intro j hj
    by_cases hhead : j = idx.head
    · simp [hhead]
    · have hold : j ∈ completed := by simpa [hhead] using hj
      simpa [hhead] using hstatus j hold
  · intro q r' idx' hq
    have hbooks := h.done q r' idx' hq
    have hdone : Done q ((s, .complete idx.head) :: past) ↔
        idx'.head = idx.head ∨ Done q past := by
      constructor
      · rintro ⟨r'', idx'', hq', heq | hpast⟩
        · obtain ⟨rfl, rfl⟩ := hq'.unique hq
          left
          simpa using heq.symm
        · exact Or.inr hpast
      · rintro (heq | hpast)
        · exact ⟨r', idx', hq, Or.inl (by rw [heq])⟩
        · exact ⟨r', idx', hq, Or.inr hpast⟩
    rw [hdone, hbooks]
    simp only [List.mem_append, List.mem_singleton]
    tauto

theorem Booted.books (h : s.Booted) : s.Books [] [] [] := by
  have hnot : ∀ p r idx, ¬ s.Flight p r idx := by
    intro p r idx hp
    simp [Flight, h.call p, DiskAt.flight] at hp
  refine ⟨⟨?_, ?_, ?_, ?_, ?_, ?_⟩, ⟨?_, ?_, ?_, ?_, ?_⟩, ?_, h.panicked⟩
  · exact fun p r idx hp => absurd hp (hnot p r idx)
  · exact fun p r idx q r' idx' hp => absurd hp (hnot p r idx)
  · simp [h.free, hnot]
  · exact fun p r idx hp => absurd hp (hnot p r idx)
  · exact fun p r idx hp => absurd hp (hnot p r idx)
  · intro p q b hp
    simp [Uses, h.call p] at hp
  · rw [h.fetched, h.availIdx]
    exact .nil (by decide)
  · rw [h.usedIdx, h.usedDev]
    exact .nil (by decide)
  · rw [h.working]
    exact List.nodup_nil
  · simp [h.working, hnot]
  · simp
  · exact fun p r idx hp => absurd hp (hnot p r idx)

/-! ### A chain is given to the device -/

variable [DecidableEq β]

/-- `virtio_disk_rw` with three descriptors, up to its first sleep. -/
def started (s : Disk N β) (p : Fin N) (r : Request β) (idx : Chain) (d : Driver β) : Disk N β :=
  { s with toDriver := d.format r idx }.setCall p (.asleep r idx)

variable {d : Driver β}

theorem started_flight (hp : s.call p = .alloc r) {r' : Request β} {idx' : Chain} :
    (s.started p r idx d).Flight q r' idx' ↔
      (q = p ∧ r' = r ∧ idx' = idx) ∨ s.Flight q r' idx' := by
  by_cases hq : q = p
  · subst hq
    simp [started, setCall, Flight, DiskAt.flight, hp, eq_comm]
  · simp [started, setCall, Flight, hq]

theorem started_chains (hp : s.call p = .alloc r) (htakes : s.Takes idx d) (hs : s.Chains) :
    (s.started p r idx d).Chains := by
  -- the new descriptors are free, and all those in flight are taken
  have hnew : ∀ q r' idx', s.Flight q r' idx' → ∀ i ∈ idx'.toList, i ∉ idx.toList := by
    intro q r' idx' hq i hi hnew
    have htaken := (hs.taken i).mpr ⟨q, r', idx', hq, hi⟩
    rw [htakes.free i hnew] at htaken
    cases htaken
  have hd := htakes.eq
  constructor
  · intro q r' idx' hq
    rcases (started_flight hp).mp hq with ⟨rfl, rfl, rfl⟩ | hold
    · exact htakes.nodup
    · exact hs.nodup q r' idx' hold
  · intro q r₁ idx₁ q' r₂ idx₂ hq hq' i hi hi'
    rcases (started_flight hp).mp hq with ⟨rfl, rfl, rfl⟩ | hold
    · rcases (started_flight hp).mp hq' with ⟨rfl, rfl, rfl⟩ | hq'
      · rfl
      · exact absurd hi (hnew q' r₂ idx₂ hq' i hi')
    · rcases (started_flight hp).mp hq' with ⟨rfl, rfl, rfl⟩ | hold'
      · exact absurd hi' (hnew q r₁ idx₁ hold i hi)
      · exact hs.apart q r₁ idx₁ q' r₂ idx₂ hold hold' i hi hi'
  · intro i
    have hfree : (s.started p r idx d).free i = if i ∈ idx.toList then false else s.free i := by
      subst hd
      rfl
    simp only [hfree, started_flight hp]
    constructor
    · intro hi
      split at hi
      next hmem => exact ⟨p, r, idx, Or.inl ⟨rfl, rfl, rfl⟩, hmem⟩
      next =>
        obtain ⟨q, r', idx', hq, hmem⟩ := (hs.taken i).mp hi
        exact ⟨q, r', idx', Or.inr hq, hmem⟩
    · rintro ⟨q, r', idx', ⟨rfl, rfl, rfl⟩ | hq, hmem⟩
      · rw [if_pos hmem]
      · rw [if_neg (hnew q r' idx' hq i hmem)]
        exact (hs.taken i).mpr ⟨q, r', idx', hq, hmem⟩
  · intro q r' idx' hq
    rcases (started_flight hp).mp hq with ⟨rfl, rfl, rfl⟩ | hold
    · exact Driver.format_formatted htakes.nodup
    · refine Driver.format_other ?_ (hnew q r' idx' hold)
      subst hd
      exact (hs.formatted q r' idx' hold).congr rfl fun _ _ => rfl
  · intro q r' idx' hq
    rcases (started_flight hp).mp hq with ⟨rfl, rfl, rfl⟩ | hold
    · simp [started, setCall, Driver.format]
    · have hne : idx'.head ≠ idx.head := by
        intro heq
        exact hnew q r' idx' hold idx'.head head_mem (heq ▸ head_mem)
      subst hd
      simp only [started, setCall, Driver.format, Function.update_of_ne hne]
      exact hs.info q r' idx' hold
  · refine setCall_alone ?_ hs.alone
    intro b hb
    simpa [Uses, setCall, hp] using hb

theorem started_rings (hp : s.call p = .alloc r) (htakes : s.Takes idx d) (hs : s.Chains)
    (h : s.Rings given completed) :
    (s.started p r idx d).Rings (given ++ [idx.head]) completed := by
  obtain ⟨havail, hused, hnodup, hheads, hstatus⟩ := h
  have hnew : idx.head ∉ given ++ s.working ++ completed := by
    intro hmem
    obtain ⟨q, r', idx', hq, hhead, -⟩ := (hheads idx.head).mp hmem
    have htaken := (hs.taken idx.head).mpr ⟨q, r', idx', hq, hhead ▸ head_mem⟩
    rw [htakes.free idx.head head_mem] at htaken
    cases htaken
  have hother : ∀ q r' idx', s.Flight q r' idx' → r'.b ≠ r.b := by
    intro q r' idx' hq hb
    have hqp : q = p := hs.alone q p r'.b hq.uses (by simp [Uses, hp, hb])
    subst hqp
    rcases hq.cases with hq | hq <;> rw [hp] at hq <;> cases hq
  have hd := htakes.eq
  simp only [List.append_assoc, List.mem_append, not_or] at hnew
  constructor
  · have hroom : given.length < NUM := Rings.room (List.Nodup.of_append_left
      (List.append_assoc given _ _ ▸ hnodup)) hnew.1
    subst hd
    exact havail.push (by decide) hroom
  · subst hd
    exact hused
  · have hperm : (given ++ [idx.head] ++ s.working ++ completed).Perm
        (idx.head :: (given ++ s.working ++ completed)) := by
      simp only [List.append_assoc, List.singleton_append]
      exact List.perm_middle
    rw [show (s.started p r idx d).working = s.working from rfl, hperm.nodup_iff,
      List.nodup_cons]
    exact ⟨by simpa using hnew, hnodup⟩
  · intro i
    have hdisk : (s.started p r idx d).disk = Function.update s.disk r.b true := by
      subst hd
      rfl
    have hmem : i ∈ given ++ [idx.head] ++ s.working ++ completed ↔
        i = idx.head ∨ i ∈ given ++ s.working ++ completed := by
      simp only [List.mem_append, List.mem_singleton]
      tauto
    rw [show (s.started p r idx d).working = s.working from rfl, hmem, hheads i, hdisk]
    constructor
    · rintro (rfl | ⟨q, r', idx', hq, hhead, howned⟩)
      · exact ⟨p, r, idx, (started_flight hp).mpr (Or.inl ⟨rfl, rfl, rfl⟩), rfl,
          Function.update_self _ _ _⟩
      · refine ⟨q, r', idx', (started_flight hp).mpr (Or.inr hq), hhead, ?_⟩
        rw [Function.update_of_ne (hother q r' idx' hq)]
        exact howned
    · rintro ⟨q, r', idx', hq, hhead, howned⟩
      rcases (started_flight hp).mp hq with ⟨rfl, rfl, rfl⟩ | hq
      · exact Or.inl hhead.symm
      · rw [Function.update_of_ne (hother q r' idx' hq)] at howned
        exact Or.inr ⟨q, r', idx', hq, hhead, howned⟩
  · intro i hi
    have hne : i ≠ idx.head := by
      rintro rfl
      exact hnew.2.2 hi
    subst hd
    simp only [started, setCall, Driver.format, Function.update_of_ne hne]
    exact hstatus i hi

theorem started_books (he : ∀ i, e ≠ .complete i) (hp : s.call p = .alloc r)
    (htakes : s.Takes idx d) (h : s.Books past given completed) :
    (s.started p r idx d).Books ((s, e) :: past) (given ++ [idx.head]) completed := by
  refine ⟨started_chains hp htakes h.chains, started_rings hp htakes h.chains h.rings, ?_,
    h.panicked⟩
  have hnot : ∀ r' idx', ¬ s.Flight p r' idx' := by
    intro r' idx' hflight
    rcases hflight.cases with hq | hq <;> rw [hp] at hq <;> cases hq
  have hdisk : (s.started p r idx d).disk = Function.update s.disk r.b true := by
    rw [started, htakes.eq]
    rfl
  intro q r' idx' hq
  rw [hdisk]
  rcases (started_flight hp).mp hq with ⟨rfl, rfl, rfl⟩ | hq
  · -- nothing of `p` was in flight, and its first descriptor was free
    have hold : ¬ Done q ((s, e) :: past) := by
      rintro ⟨r', idx', hflight, -⟩
      exact hnot r' idx' hflight
    have hnew : idx'.head ∉ completed := by
      intro hmem
      obtain ⟨q', r', idx'', hq', hhead, -⟩ := (h.rings.heads idx'.head).mp (by simp [hmem])
      have htaken := (h.chains.taken idx'.head).mpr ⟨q', r', idx'', hq', hhead ▸ head_mem⟩
      rw [htakes.free idx'.head head_mem] at htaken
      cases htaken
    simp [hold, hnew]
  · have hne : r'.b ≠ r.b := by
      intro hb
      have hqp : q = p := h.chains.alone q p r'.b hq.uses (by simp [Uses, hp, hb])
      exact hnot r' idx' (hqp ▸ hq)
    rw [done_cons hq he, Function.update_of_ne hne]
    exact h.done q r' idx' hq

/-! ### The interrupt handler -/

@[simp] theorem wakeBuf_flight : ((s.wakeBuf b).call p).flight = (s.call p).flight := by
  unfold wakeBuf
  dsimp only
  split
  next hp =>
    rw [hp]
    split <;> rfl
  next => rfl

theorem wakeBuf_uses {c : β} : (s.wakeBuf b).Uses p c ↔ s.Uses p c := by
  cases hp : s.call p with
  | asleep r idx =>
      by_cases hb : r.b = b
      · simp [Uses, wakeBuf, hp, hb]
      · simp [Uses, wakeBuf, hp, hb]
  | out | alloc r | noDesc r | await r idx => simp [Uses, wakeBuf, hp]

/-- What a pass of the handler leaves that marks `b` done. -/
def marked (s : Disk N β) (b : β) : Disk N β :=
  { { s with disk := Function.update s.disk b false }.wakeBuf b with usedIdx := s.usedIdx + 1 }

theorem marked_flight : (s.marked b).Flight p r idx ↔ s.Flight p r idx := by
  unfold Flight marked
  rw [wakeBuf_flight]

/-- **The handler** takes a completion of a chain in flight out of the ring, and marks
its buffer. -/
theorem handle_marks (h : s.Books past given completed) (hintr : s.intr = true)
    (hmore : s.usedIdx ≠ s.usedDev) :
    ∃ p r idx rest, completed = idx.head :: rest ∧ s.Flight p r idx ∧ s.disk r.b = true ∧
      s.used (s.usedIdx % UInt16.ofNat NUM).toNat = idx.head ∧ s.handle = some (s.marked r.b) := by
  have hsome : completed ≠ [] := by
    intro hnone
    exact hmore (UInt16.toNat_inj.mp ((h.rings.used.empty_iff (by decide)).mpr hnone)).symm
  obtain ⟨i, rest, rfl⟩ := List.exists_cons_of_ne_nil hsome
  obtain ⟨hcell, -⟩ := h.rings.used.pop (by decide)
  rw [← cell_index] at hcell
  obtain ⟨p, r, idx, hp, rfl, howned⟩ := (h.rings.heads i).mp (by simp)
  refine ⟨p, r, idx, rest, rfl, hp, howned, hcell, ?_⟩
  have hstatus := h.rings.status idx.head List.mem_cons_self
  have hinfo := h.chains.info p r idx hp
  rw [handle, if_pos hintr, if_pos hmore, hcell]
  simp [hstatus, hinfo, marked, wakeBuf]

theorem marked_books {rest : List (Fin NUM)} (h : s.Books past given (idx.head :: rest))
    (hp : s.Flight p r idx) (he : ∀ i, e ≠ .complete i) :
    (s.marked r.b).Books ((s, e) :: past) given rest := by
  obtain ⟨havail, hused, hnodup, hheads, hstatus⟩ := h.rings
  have hdisk : (s.marked r.b).disk = Function.update s.disk r.b false := rfl
  have hother : ∀ q r' idx', s.Flight q r' idx' → (r'.b = r.b ↔ idx'.head = idx.head) := by
    intro q r' idx' hq
    constructor
    · intro hb
      have hqp := h.chains.same_buffer hq hp hb
      rw [(hq.unique (hqp ▸ hp)).2]
    · intro hhead
      have hqp := h.chains.same_head hq hp hhead
      rw [(hq.unique (hqp ▸ hp)).1]
  have hperm : (given ++ s.working ++ idx.head :: rest).Perm
      (idx.head :: (given ++ s.working ++ rest)) := List.perm_middle
  obtain ⟨hnew, hnodup'⟩ := List.nodup_cons.mp (hperm.nodup_iff.mp hnodup)
  refine ⟨⟨?_, ?_, ?_, ?_, ?_, ?_⟩, ⟨havail, ?_, hnodup', ?_, ?_⟩, ?_, h.panicked⟩
  · intro q r' idx' hq
    exact h.chains.nodup q r' idx' (marked_flight.mp hq)
  · intro q r₁ idx₁ q' r₂ idx₂ hq hq'
    exact h.chains.apart q r₁ idx₁ q' r₂ idx₂ (marked_flight.mp hq) (marked_flight.mp hq')
  · intro i
    simp only [marked_flight]
    exact h.chains.taken i
  · intro q r' idx' hq
    exact (h.chains.formatted q r' idx' (marked_flight.mp hq)).congr rfl fun _ _ => rfl
  · intro q r' idx' hq
    exact h.chains.info q r' idx' (marked_flight.mp hq)
  · intro q q' c hq hq'
    exact h.chains.alone q q' c (wakeBuf_uses.mp hq) (wakeBuf_uses.mp hq')
  · exact (hused.pop (by decide)).2
  · intro i
    simp only [marked_flight, hdisk]
    have hmem := (hperm.mem_iff (a := i)).symm.trans (hheads i)
    rw [List.mem_cons] at hmem
    constructor
    · intro hi
      obtain ⟨q, r', idx', hq, rfl, howned⟩ := hmem.mp (Or.inr hi)
      refine ⟨q, r', idx', hq, rfl, ?_⟩
      rw [Function.update_of_ne]
      · exact howned
      · intro hb
        exact hnew ((hother q r' idx' hq).mp hb ▸ hi)
    · rintro ⟨q, r', idx', hq, rfl, howned⟩
      have hb : r'.b ≠ r.b := by
        intro hb
        rw [hb, Function.update_self] at howned
        cases howned
      rw [Function.update_of_ne hb] at howned
      refine (hmem.mpr ⟨q, r', idx', hq, rfl, howned⟩).resolve_left ?_
      intro hhead
      exact hb ((hother q r' idx' hq).mpr hhead)
  · intro i hi
    exact hstatus i (List.mem_cons_of_mem _ hi)
  · intro q r' idx' hq
    have hold := marked_flight.mp hq
    rw [done_cons hold he, h.done q r' idx' hold, hdisk, List.mem_cons]
    by_cases hb : r'.b = r.b
    · have hhead := (hother q r' idx' hold).mp hb
      simp [hb, hhead]
    · have hhead := mt (hother q r' idx' hold).mpr hb
      simp [hb, hhead]

/-! ### Every step keeps the books -/

/-- What a process can do that gets the lock. -/
theorem run_cases (h : s.Chains) (hstep : s.run p = some t) :
    s.Quiet t ∨ (∃ r idx d, s.call p = .alloc r ∧ s.Takes idx d ∧ t = s.started p r idx d) ∨
      ∃ r idx, s.call p = .await r idx ∧ s.disk r.b = false ∧ t = s.returned p idx := by
  simp only [run, Option.ite_none_left_eq_some] at hstep
  obtain ⟨-, hstep⟩ := hstep
  split at hstep
  next r hp =>
    rcases s.alloc3Desc_cases with ⟨idx, d, halloc, htakes⟩ | ⟨d, halloc, hroll⟩
    · rw [halloc] at hstep
      refine Or.inr (Or.inl ⟨r, idx, d, hp, htakes, ?_⟩)
      simp only [waitFor, Driver.format, Function.update_self, ↓reduceIte,
        Option.some.injEq] at hstep
      exact hstep.symm
    · rw [halloc] at hstep
      cases hstep
      left
      have hcall : ∀ u : Disk N β, u.call p = .alloc r → u.Quiet (u.setCall p (.noDesc r)) := by
        intro u hu
        refine setCall_quiet (by simp [hu, DiskAt.flight]) (by simp) (setCall_alone ?_)
        intro b hb
        simpa [Uses, setCall, hu] using hb
      split
      · exact (rollback_quiet hroll).trans
          (wakeFree_quiet.trans (hcall _ (by simp [wakeFree, hp])) rfl) rfl
      · exact (rollback_quiet hroll).trans (hcall _ hp) rfl
  next r idx hp =>
    have hflight : s.Flight p r idx := by simp [Flight, DiskAt.flight, hp]
    rcases waitFor_cases h hflight with ⟨-, hwait⟩ | ⟨hdone, hwait⟩
    · rw [hwait, Option.some.injEq] at hstep
      subst hstep
      refine Or.inl (setCall_quiet hflight.symm (by simp) (setCall_alone ?_))
      intro b hb
      simpa [Uses, setCall, hp] using hb
    · rw [hwait, Option.some.injEq] at hstep
      exact Or.inr (Or.inr ⟨r, idx, hp, hdone, hstep.symm⟩)
  next => cases hstep

/-- **Step lemma.** -/
theorem step_books (h : s.Books past given completed) (hstep : s.step e = some t) :
    ∃ given' completed', t.Books ((s, e) :: past) given' completed' := by
  simp only [step, Option.ite_none_left_eq_some] at hstep
  obtain ⟨-, hstep⟩ := hstep
  cases e with
  | rw p r =>
      simp only [Option.ite_none_right_eq_some, Option.some.injEq] at hstep
      obtain ⟨⟨hp, hb⟩, rfl⟩ := hstep
      exact ⟨_, _, (rw_quiet hp hb).books (by simp) h⟩
  | run p =>
      rcases run_cases h.chains hstep with hquiet | ⟨r, idx, d, hp, htakes, rfl⟩ |
        ⟨r, idx, hp, hdone, rfl⟩
      · exact ⟨_, _, hquiet.books (by simp) h⟩
      · exact ⟨_, _, started_books (by simp) hp htakes h⟩
      · exact ⟨_, _, returned_books (by simp) (by simp [Flight, DiskAt.flight, hp]) hdone h⟩
  | kill p => exact ⟨_, _, (kill_quiet hstep).books (by simp) h⟩
  | intr =>
      simp only [Option.ite_none_left_eq_some, Option.some.injEq] at hstep
      obtain ⟨-, rfl⟩ := hstep
      exact ⟨_, _, (intr_quiet true).books (by simp) h⟩
  | handle =>
      by_cases hintr : s.intr = true
      · by_cases hmore : s.usedIdx = s.usedDev
        · simp only [handle, hintr, hmore, ↓reduceIte, ne_eq, not_true_eq_false,
            Option.some.injEq] at hstep
          subst hstep
          exact ⟨_, _, (intr_quiet false).books (by simp) h⟩
        · obtain ⟨p, r, idx, rest, rfl, hp, -, -, hmarks⟩ := handle_marks h hintr hmore
          rw [hmarks, Option.some.injEq] at hstep
          subst hstep
          exact ⟨_, _, marked_books h hp (by simp)⟩
      · simp [handle, hintr] at hstep
  | fetch =>
      obtain ⟨given', hbooks⟩ := fetched_books (e := .fetch) h hstep (by simp)
      exact ⟨given', _, hbooks⟩
  | complete i => exact ⟨_, _, completed_books h hstep⟩

/-- In every reachable state the books are right. -/
theorem books (run : Run (virtioDisk N β) past s) :
    ∃ given completed, s.Books past given completed := by
  induction run with
  | init h => exact ⟨[], [], Booted.books h⟩
  | step _ hstep ih =>
      obtain ⟨given, completed, h⟩ := ih
      exact step_books h hstep

/-! ### What a step does to the calls -/

/-- A call returns only after its request is done. -/
theorem Books.returns (h : s.Books past given completed) (hstep : s.step e = some t)
    (hp : s.call p ≠ .out) (hout : t.call p = .out) : ∃ r idx, s.Flight p r idx ∧ Done p past := by
  simp only [step, Option.ite_none_left_eq_some] at hstep
  obtain ⟨-, hstep⟩ := hstep
  have hquiet : ¬ s.Quiet t := fun hquiet => hp (hquiet.stays p hout)
  cases e with
  | rw q r =>
      simp only [Option.ite_none_right_eq_some, Option.some.injEq] at hstep
      obtain ⟨⟨hq, hb⟩, rfl⟩ := hstep
      exact absurd (rw_quiet hq hb) hquiet
  | run q =>
      rcases run_cases h.chains hstep with hsame | ⟨r, idx, d, hq, -, rfl⟩ |
        ⟨r, idx, hq, hdone, rfl⟩
      · exact absurd hsame hquiet
      · by_cases hpq : p = q
        · subst hpq
          simp [started, setCall] at hout
        · exact absurd (by simpa [started, setCall, hpq] using hout) hp
      · by_cases hpq : p = q
        · subst hpq
          have hflight : s.Flight p r idx := by simp [Flight, DiskAt.flight, hq]
          exact ⟨r, idx, hflight, (h.done p r idx hflight).mpr (Or.inr hdone)⟩
        · have hfree : s.wakeFree.call p = .out := by
            simpa [returned, setCall, hpq, wakeFree] using hout
          exact absurd (wakeFree_stays hfree) hp
  | kill q => exact absurd (kill_quiet hstep) hquiet
  | intr =>
      simp only [Option.ite_none_left_eq_some, Option.some.injEq] at hstep
      obtain ⟨-, rfl⟩ := hstep
      exact absurd hout hp
  | handle =>
      by_cases hintr : s.intr = true
      · by_cases hmore : s.usedIdx = s.usedDev
        · simp only [handle, hintr, hmore, ↓reduceIte, ne_eq, not_true_eq_false,
            Option.some.injEq] at hstep
          subst hstep
          exact absurd hout hp
        · obtain ⟨q, r, idx, rest, -, -, -, -, hmarks⟩ := handle_marks h hintr hmore
          rw [hmarks, Option.some.injEq] at hstep
          subst hstep
          cases hcall : s.call p with
          | out => exact absurd hcall hp
          | asleep r' idx' =>
              by_cases hb : r'.b = r.b <;> simp [marked, wakeBuf, hcall, hb] at hout
          | alloc r' | noDesc r' | await r' idx' => simp [marked, wakeBuf, hcall] at hout
      · simp [handle, hintr] at hstep
  | fetch =>
      simp only [fetch, Option.ite_none_right_eq_some, Option.some.injEq] at hstep
      obtain ⟨-, rfl⟩ := hstep
      exact absurd hout hp
  | complete i =>
      simp only [complete, Option.ite_none_right_eq_some, Option.some.injEq] at hstep
      obtain ⟨-, rfl⟩ := hstep
      exact absurd hout hp

/-- A process that is not asleep runs as soon as the handler has given up the lock. -/
theorem Books.runs (h : s.Books past given completed) (hintr : s.intr = false)
    (hp : (∃ r, s.call p = .alloc r) ∨ ∃ r idx, s.call p = .await r idx) :
    ∃ t, s.run p = some t := by
  unfold run
  rw [if_neg (by simp [hintr])]
  rcases hp with ⟨r, hp⟩ | ⟨r, idx, hp⟩
  · rw [hp]
    rcases s.alloc3Desc_cases with ⟨idx, d, halloc, -⟩ | ⟨d, halloc, -⟩
    · simp [halloc, waitFor, Driver.format]
    · simp [halloc]
  · rw [hp]
    have hflight : s.Flight p r idx := by simp [Flight, DiskAt.flight, hp]
    rcases waitFor_cases h.chains hflight with ⟨-, hwait⟩ | ⟨-, hwait⟩
    · exact ⟨_, hwait⟩
    · exact ⟨_, hwait⟩

end Disk

open Disk

variable [DecidableEq β] {s : Disk N β} {past : Past (Disk N β) (DiskEvent N β)}

/-- **The descriptors are never mixed up.**  In every reachable state, also after the
indices of the rings have wrapped around: a descriptor is free, or it is in the chain of
exactly one request in flight, which has three of them, formatted for the request;
nothing has panicked; the device has only such chains to complete, once each; a pass of
the handler marks done the buffer whose request was completed; a call returns only
after its own request was completed; and all descriptors are free when nothing is in
flight.  A process that is not asleep gets on. -/
theorem disk_descriptors (run : Run (virtioDisk N β) past s) :
    (∀ i, (s.free i = true ∧ ∀ p r idx, s.Flight p r idx → i ∉ idx.toList) ∨
      (s.free i = false ∧ ∃! x : Fin N × Request β × Chain,
        s.Flight x.1 x.2.1 x.2.2 ∧ i ∈ x.2.2.toList)) ∧
    (∀ p r idx, s.Flight p r idx → idx.toList.Nodup ∧ s.Formatted r idx) ∧
    s.panicked = none ∧
    (s.working.Nodup ∧ ∀ i ∈ s.working, ∃ p r idx,
      s.Flight p r idx ∧ idx.head = i ∧ ¬ Done p past) ∧
    (∀ t, s.step .handle = some t → s.usedIdx ≠ s.usedDev → ∃ p r idx,
      s.Flight p r idx ∧ idx.head = s.used (s.usedIdx % UInt16.ofNat NUM).toNat ∧
      Done p past ∧ s.disk r.b = true ∧ t.disk = Function.update s.disk r.b false) ∧
    (∀ e t p, s.step e = some t → s.call p ≠ .out → t.call p = .out →
      ∃ r idx, s.Flight p r idx ∧ Done p past) ∧
    ((∀ p r idx, ¬ s.Flight p r idx) → ∀ i, s.free i = true) ∧
    ∀ p, s.intr = false → (∃ r, s.call p = .alloc r) ∨ (∃ r idx, s.call p = .await r idx) →
      ∃ t, s.step (.run p) = some t := by
  obtain ⟨given, completed, h⟩ := books run
  refine ⟨?_, ?_, h.panicked, ⟨?_, ?_⟩, ?_, ?_, ?_, ?_⟩
  · intro i
    cases hi : s.free i with
    | true =>
        refine Or.inl ⟨rfl, ?_⟩
        intro p r idx hp hmem
        have htaken := (h.chains.taken i).mpr ⟨p, r, idx, hp, hmem⟩
        rw [hi] at htaken
        cases htaken
    | false =>
        obtain ⟨p, r, idx, hp, hmem⟩ := (h.chains.taken i).mp hi
        refine Or.inr ⟨rfl, ⟨p, r, idx⟩, ⟨hp, hmem⟩, ?_⟩
        rintro ⟨q, r', idx'⟩ ⟨hq, hmem'⟩
        obtain rfl := h.chains.apart q r' idx' p r idx hq hp i hmem' hmem
        obtain ⟨rfl, rfl⟩ := hq.unique hp
        rfl
  · intro p r idx hp
    exact ⟨h.chains.nodup p r idx hp, h.chains.formatted p r idx hp⟩
  · exact (List.nodup_append.mp (List.nodup_append.mp h.rings.nodup).1).2.1
  · intro i hi
    obtain ⟨p, r, idx, hp, rfl, howned⟩ := h.rings.working_flight hi
    refine ⟨p, r, idx, hp, rfl, ?_⟩
    rw [h.done p r idx hp, howned]
    rintro (hmem | hfree)
    · exact (List.nodup_append.mp h.rings.nodup).2.2 _ (by simp [hi]) _ hmem rfl
    · cases hfree
  · intro t hstep hmore
    simp only [step, Option.ite_none_left_eq_some] at hstep
    obtain ⟨-, hstep⟩ := hstep
    have hintr : s.intr = true := by
      by_contra hintr
      simp [handle, hintr] at hstep
    obtain ⟨p, r, idx, rest, hcompleted, hp, howned, hcell, hmarks⟩ := handle_marks h hintr hmore
    rw [hmarks, Option.some.injEq] at hstep
    subst hstep
    refine ⟨p, r, idx, hp, hcell.symm, (h.done p r idx hp).mpr (Or.inl ?_), howned, rfl⟩
    rw [hcompleted]
    exact List.mem_cons_self
  · intro e t p hstep hp hout
    exact h.returns hstep hp hout
  · intro hnone i
    cases hi : s.free i with
    | true => rfl
    | false =>
        obtain ⟨p, r, idx, hp, -⟩ := (h.chains.taken i).mp hi
        exact absurd hp (hnone p r idx)
  · intro p hintr hp
    obtain ⟨t, hrun⟩ := h.runs hintr hp
    exact ⟨t, by rw [step, if_neg (by simp [h.panicked]), hrun]⟩

/-- The driver after `virtio_disk_init`. -/
def freshDisk (N : Nat) : Disk N (Fin 3) where
  desc := fun _ => ⟨.null, 0, 0, 0⟩
  avail := fun _ => 0
  availIdx := 0
  used := fun _ => 0
  usedDev := 0
  free := fun _ => true
  usedIdx := 0
  info := fun _ => ⟨none, 0⟩
  ops := fun _ => ⟨0, 0, 0⟩
  disk := fun _ => false
  fetched := 0
  working := []
  call := fun _ => .out
  intr := false
  panicked := none

/-- Three requests; the third one has to wait for descriptors, and the device completes
the second one first, whose process has returned. -/
theorem disk_descriptors_second_first : ∃ past s, Run (virtioDisk 3 (Fin 3)) past s ∧
    s.call 1 = .out ∧ s.panicked = none := by
  obtain ⟨past, s, run, hcall⟩ := Machine.exists_run_of_trace (M := virtioDisk 3 (Fin 3))
    (s := freshDisk 3)
    ⟨fun _ => rfl, rfl, rfl, rfl, fun _ => rfl, rfl, rfl, fun _ => rfl, rfl, rfl⟩
    [.rw 0 ⟨0, 7, true⟩, .run 0, .rw 1 ⟨1, 8, false⟩, .run 1, .rw 2 ⟨2, 9, false⟩, .run 2,
      .fetch, .fetch, .complete 3, .intr, .handle, .handle, .run 1, .run 2]
    (fun _ s => s.call 1 = .out) (by decide)
  exact ⟨past, s, run, hcall, (disk_descriptors run).2.2.1⟩

end Virtio
