/-
# Block reads and the device

Runs of any number of callers of `blk_read`, interrupts and a device.  A caller
stands between two lock regions of `blk_read`; which caller goes on next is left
open, so the runs include those of every scheduler and every placement of
interrupts.  The device takes posted chains off the available ring, serves them
in any order and publishes them in any order.  A ticket is the number of a post;
tickets and the history of posts are kept beside the machine and no step reads
them.
-/

import Sugimotos.Drivers.VirtioBlk

namespace Sugimotos.Drivers

open Sugimotos.Math

/-- A request as it was posted. -/
structure Post (ι : Type) where
  caller : ι
  slot : Slot
  sector : UInt32
  buf : Nat
  deriving DecidableEq, Repr

/-- Where a caller is in `blk_read`. -/
inductive Phase
  | idle
  | wanting (sector : UInt32) (buf : Nat)
  | holding (slot : Slot) (sector : UInt32) (buf : Nat)
  | ready (slot : Slot) (sector : UInt32) (buf : Nat)
  | waiting (slot : Slot) (sector : UInt32) (buf : Nat) (ticket : Nat)
  deriving DecidableEq, Repr

/-- The slot a caller holds. -/
def Phase.slot : Phase → Option Slot
  | .idle => none
  | .wanting _ _ => none
  | .holding slot _ _ => some slot
  | .ready slot _ _ => some slot
  | .waiting slot _ _ _ => some slot

/-- A chain the device has taken. -/
structure Chain where
  ticket : Nat
  head : UInt16
  deriving DecidableEq, Repr

/-- The device: its position in the available ring, and the chains it has taken and
not yet served, and served and not yet published. -/
structure Device where
  lastAvail : UInt16
  taken : Nat
  pending : List Chain
  served : List Chain

/-- The driver, the device and the callers.  `alone p` says that no other call has
had a posted request with overlapping bytes since `p` posted its own. -/
structure BlkSys (ι : Type) where
  blk : Blk
  device : Device
  phase : ι → Phase
  posts : List (Post ι)
  published : List Nat
  consumed : Nat
  alone : ι → Prop

/-- The 512-byte buffers at two addresses have no byte in common. -/
def disjointBufs (buf buf' : Nat) : Prop := buf + 512 ≤ buf' ∨ buf' + 512 ≤ buf

instance (buf buf' : Nat) : Decidable (disjointBufs buf buf') :=
  inferInstanceAs (Decidable (_ ∨ _))

def BlkSys.init (ι : Type) (mem : Nat → UInt8) : BlkSys ι where
  blk := .init mem
  device := ⟨0, 0, [], []⟩
  phase := fun _ => .idle
  posts := []
  published := []
  consumed := 0
  alone := fun _ => True

/-- The steps of a run. -/
inductive BlkOp (ι : Type)
  | call (p : ι) (sector : UInt32) (buf : Nat)
  | takeSlot (p : ι)
  | fill (p : ι)
  | post (p : ι)
  | check (p : ι)
  /-- `blk_handle_irq`. -/
  | irq
  | devTake
  /-- The device writes the data and the status of a chain.  A status other than zero
  comes with arbitrary data. -/
  | devServe (c : Chain) (status : UInt8) (data : Nat → UInt8)
  | devPublish (c : Chain)

/-- The descriptors of a read request, as the device follows them from the head: the
request, the buffer, and the byte for the status. -/
def deviceChain (b : Blk) (head : UInt16) : Option (Slot × Nat × Slot) :=
  let d0 := b.desc (ringCell virtqNum head)
  let d1 := b.desc (ringCell virtqNum d0.next)
  let d2 := b.desc (ringCell virtqNum d1.next)
  if d0.flags = virtqDescFNext ∧ d1.flags = virtqDescFNext ||| virtqDescFWrite ∧
      d2.flags = virtqDescFWrite ∧ d0.len = 16 ∧ d1.len = 512 ∧ d2.len = 1 then
    match d0.addr, d1.addr, d2.addr with
    | .req r, .buf a, .status t =>
        if (b.slots r).req.type = virtioBlkTIn then some (r, a, t) else none
    | _, _, _ => none
  else none

/-- 512 bytes written to memory. -/
def writeBuf (mem : Nat → UInt8) (buf : Nat) (data : Nat → UInt8) : Nat → UInt8 :=
  fun a => if buf ≤ a ∧ a < buf + 512 then data (a - buf) else mem a

/-- A buffer and the status of a slot written. -/
def Blk.complete (b : Blk) (slot : Slot) (buf : Nat) (status : UInt8) (data : Nat → UInt8) : Blk :=
  { b with mem := writeBuf b.mem buf data }.setSlot slot { b.slots slot with status := status }

/-- The device writes the data and the status of a chain. -/
def Blk.serve (disk : UInt32 → Nat → UInt8) (b : Blk) (head : UInt16) (status : UInt8)
    (data : Nat → UInt8) : Option Blk :=
  match deviceChain b head with
  | none => none
  | some (r, a, t) =>
      some (b.complete t a status (if status = 0 then disk (b.slots r).req.sector else data))

/-- The device publishes a chain in the used ring. -/
def Blk.publish (b : Blk) (head : UInt16) : Blk :=
  { b with
    used :=
      { idx := b.used.idx + 1
        ring := Function.update b.used.ring (ringCell virtqNum b.used.idx) ⟨head.toUInt32, 513⟩ } }

variable {ι : Type}

/-- The used entries are processed up to `used.idx`. -/
def BlkSys.processed (s : BlkSys ι) : BlkSys ι :=
  { s with blk := blkProcessUsedLocked s.blk, consumed := s.published.length }

/-- The requests posted that the device has not yet completed. -/
def BlkSys.Outstanding (s : BlkSys ι) (n : Nat) : Prop :=
  n < s.posts.length ∧ n ∉ s.published

variable [DecidableEq ι] (disk : UInt32 → Nat → UInt8)

/-- The phase of one caller replaced. -/
def BlkSys.setPhase (s : BlkSys ι) (p : ι) (phase : Phase) : BlkSys ι :=
  { s with phase := Function.update s.phase p phase }

/-- Caller `p` and its buffer, against the other posted requests. -/
def BlkSys.postAlone (s : BlkSys ι) (p : ι) (buf : Nat) (q : ι) : Prop :=
  if q = p then
    ∀ q' slot sector buf' n, q' ≠ p → s.phase q' = .waiting slot sector buf' n →
      disjointBufs buf buf'
  else s.alone q ∧
    ∀ slot sector buf' n, s.phase q = .waiting slot sector buf' n → disjointBufs buf buf'

/-- One step, if it can happen. -/
def blkStep (op : BlkOp ι) (s : BlkSys ι) : Option (BlkSys ι) :=
  match op with
  | .call p sector buf =>
      match s.phase p with
      | .idle => if buf = 0 then some s else some (s.setPhase p (.wanting sector buf))
      | _ => none
  | .takeSlot p =>
      match s.phase p with
      | .wanting sector buf =>
          match blkTakeSlot s.blk with
          | (none, b) => some { s with blk := b, consumed := s.published.length }
          | (some slot, b) =>
              some ({ s with blk := b, consumed := s.published.length }.setPhase p
                (.holding slot sector buf))
      | _ => none
  | .fill p =>
      match s.phase p with
      | .holding slot sector buf =>
          some ({ s with blk := blkFillRequest slot sector s.blk }.setPhase p
            (.ready slot sector buf))
      | _ => none
  | .post p =>
      match s.phase p with
      | .ready slot sector buf =>
          let s' : BlkSys ι := { s with
            blk := blkPost slot buf s.blk
            posts := s.posts ++ [⟨p, slot, sector, buf⟩]
            alone := s.postAlone p buf }
          some (s'.setPhase p (.waiting slot sector buf s.posts.length))
      | _ => none
  | .check p =>
      match s.phase p with
      | .waiting slot _ _ _ =>
          match blkCheckDone slot s.blk with
          | (none, b) => some { s with blk := b, consumed := s.published.length }
          | (some _, b) =>
              some ({ s with blk := b, consumed := s.published.length }.setPhase p .idle)
      | _ => none
  | .irq => some s.processed
  | .devTake =>
      if s.device.lastAvail = s.blk.avail.idx then none
      else
        let head := s.blk.avail.ring (ringCell virtqNum s.device.lastAvail)
        some { s with
          device := { s.device with
            lastAvail := s.device.lastAvail + 1
            taken := s.device.taken + 1
            pending := ⟨s.device.taken, head⟩ :: s.device.pending } }
  | .devServe c status data =>
      if c ∈ s.device.pending then
        match s.blk.serve disk c.head status data with
        | none => none
        | some b =>
            some { s with
              blk := b
              device := { s.device with
                pending := s.device.pending.erase c
                served := c :: s.device.served } }
      else none
  | .devPublish c =>
      if c ∈ s.device.served then
        some { s with
          blk := s.blk.publish c.head
          device := { s.device with served := s.device.served.erase c }
          published := s.published ++ [c.ticket] }
      else none

/-- The states of a run. -/
inductive BlkReachable : BlkSys ι → Prop
  | init (mem : Nat → UInt8) : BlkReachable (.init ι mem)
  | step {s s'} (op : BlkOp ι) (hs : BlkReachable s) (h : blkStep disk op s = some s') :
      BlkReachable s'

end Sugimotos.Drivers
