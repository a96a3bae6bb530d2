/-
# The virtio block driver

Model of `drivers/virtio/virtio_blk.c` after `blk_init` has succeeded: the queue
shared with the device, the request slots, and the lock regions of `blk_read` and
`blk_handle_irq`.  A region runs with the lock held and interrupts off, so each is
one function here.  An address given to the device names a field of a request
slot or a byte of a caller's buffer.
-/

import Sugimotos.Math.Ring

namespace Sugimotos.Drivers

open Sugimotos.Math

abbrev virtqNum : Nat := 32
abbrev blkReqMax : Nat := 8
abbrev virtqDescFNext : UInt16 := 1
abbrev virtqDescFWrite : UInt16 := 2
abbrev virtioBlkTIn : UInt32 := 0

/-- The position of a request in `blk_slots`. -/
abbrev Slot := Fin blkReqMax

/-- The addresses `blk_read` puts into descriptors. -/
inductive DmaAddr
  | req (slot : Slot)
  | buf (addr : Nat)
  | status (slot : Slot)
  deriving DecidableEq, Repr

/-- `struct virtq_desc`. -/
structure VirtqDesc where
  addr : DmaAddr
  len : Nat
  flags : UInt16
  next : UInt16
  deriving DecidableEq, Repr

def VirtqDesc.zero : VirtqDesc := ⟨.buf 0, 0, 0, 0⟩

/-- `struct virtq_avail`. -/
structure VirtqAvail where
  idx : UInt16
  ring : Fin virtqNum → UInt16

/-- `struct virtq_used_elem`. -/
structure VirtqUsedElem where
  id : UInt32
  len : UInt32
  deriving DecidableEq, Repr

/-- `struct virtq_used`. -/
structure VirtqUsed where
  idx : UInt16
  ring : Fin virtqNum → VirtqUsedElem

/-- `struct virtio_blk_req`. -/
structure BlkReq where
  type : UInt32
  reserved : UInt32
  sector : UInt32
  deriving DecidableEq, Repr

/-- `struct blk_slot`. -/
structure BlkSlot where
  req : BlkReq
  status : UInt8
  inUse : Bool
  done : Bool
  deriving DecidableEq, Repr

def BlkSlot.zero : BlkSlot := ⟨⟨0, 0, 0⟩, 0, false, false⟩

/-- The variables of the driver and the memory its callers' buffers are in. -/
structure Blk where
  desc : Fin virtqNum → VirtqDesc
  avail : VirtqAvail
  used : VirtqUsed
  slots : Slot → BlkSlot
  usedIdx : UInt16
  mem : Nat → UInt8

/-- The driver as `blk_init` leaves it. -/
def Blk.init (mem : Nat → UInt8) : Blk where
  desc := fun _ => .zero
  avail := ⟨0, fun _ => 0⟩
  used := ⟨0, fun _ => ⟨0, 0⟩⟩
  slots := fun _ => .zero
  usedIdx := 0
  mem := mem

/-- One slot replaced. -/
def Blk.setSlot (b : Blk) (i : Slot) (slot : BlkSlot) : Blk :=
  { b with slots := Function.update b.slots i slot }

/-- `blk_head_for_slot`. -/
def blkHeadForSlot (slotIdx : Slot) : UInt16 := .ofNat (slotIdx.val * 3)

/-- One round of the loop in `blk_process_used_locked`. -/
def processUsed (b : Blk) : Blk :=
  let head := (b.used.ring (ringCell virtqNum b.usedIdx)).id
  let b := { b with usedIdx := b.usedIdx + 1 }
  if head % 3 ≠ 0 then b
  else if h : (head / 3).toNat < blkReqMax then
    let i : Slot := ⟨(head / 3).toNat, h⟩
    if ¬ (b.slots i).inUse then b else b.setSlot i { b.slots i with done := true }
  else b

/-- The loop `while (used_idx != used.idx)`, for at most the given number of rounds. -/
def processLoop : Nat → Blk → Blk
  | 0, b => b
  | left + 1, b => if b.usedIdx = b.used.idx then b else processLoop left (processUsed b)

/-- `blk_process_used_locked`.  Each round brings `used_idx` one closer to `used.idx`. -/
def blkProcessUsedLocked (b : Blk) : Blk :=
  processLoop (b.used.idx - b.usedIdx).toNat b

/-- The first lock region of `blk_read`: the slot it takes, if there is one. -/
def blkTakeSlot (b : Blk) : Option Slot × Blk :=
  let b := blkProcessUsedLocked b
  match (List.finRange blkReqMax).find? fun i => !(b.slots i).inUse with
  | none => (none, b)
  | some i =>
      (some i, b.setSlot i { b.slots i with inUse := true, done := false, status := 0xff })

/-- The request header, written outside the lock. -/
def blkFillRequest (slot : Slot) (sector : UInt32) (b : Blk) : Blk :=
  b.setSlot slot { b.slots slot with req := ⟨virtioBlkTIn, 0, sector⟩ }

/-- One descriptor written. -/
def Blk.setDesc (b : Blk) (d : UInt16) (entry : VirtqDesc) : Blk :=
  { b with desc := Function.update b.desc (ringCell virtqNum d) entry }

/-- The second lock region of `blk_read`: the three descriptors, then the available
ring. -/
def blkPost (slot : Slot) (buf : Nat) (b : Blk) : Blk :=
  let d0 := blkHeadForSlot slot
  let d1 := d0 + 1
  let d2 := d0 + 2
  let b := b.setDesc d0 ⟨.req slot, 16, virtqDescFNext, d1⟩
  let b := b.setDesc d1 ⟨.buf buf, 512, virtqDescFNext ||| virtqDescFWrite, d2⟩
  let b := b.setDesc d2 ⟨.status slot, 1, virtqDescFWrite, 0⟩
  { b with
    avail :=
      { idx := b.avail.idx + 1
        ring := Function.update b.avail.ring (ringCell virtqNum b.avail.idx) d0 } }

/-- The lock region of the wait loop: whether the request is done, and if so whether
the device reported success. -/
def blkCheckDone (slot : Slot) (b : Blk) : Option Bool × Blk :=
  let b := blkProcessUsedLocked b
  if (b.slots slot).done then
    (some (decide ((b.slots slot).status = 0)),
      b.setSlot slot { b.slots slot with done := false, inUse := false })
  else (none, b)

end Sugimotos.Drivers
