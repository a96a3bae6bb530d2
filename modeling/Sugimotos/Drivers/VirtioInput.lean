/-
# The virtio input driver

Model of the event path of `drivers/virtio/virtio_input.c`: the queues as
`vi_init_one_device` sets them up, `vi_fetch_one_event`, the loop of
`virtio_input_handle_irq`, and the devices.  A device takes posted buffers off its
available ring, fills them and publishes them in its used ring, in any order and
between any two turns of the loop in `vi_fetch_one_event`.  Registers and debug
output are left out: a device may look at its available ring at any time.

The lists of buffers posted, events published and events handed out are kept
beside the machine and no step reads them.
-/

import Sugimotos.Math.Ring

namespace Sugimotos.Drivers

open Sugimotos.Math

abbrev viQnum : Nat := 32
abbrev viDescFWrite : UInt16 := 2

/-- `struct virtio_input_event`. -/
structure VirtioInputEvent where
  type : UInt16
  code : UInt16
  value : UInt32
  deriving DecidableEq, Repr

/-- `struct vi_desc`.  The address is that of an element of `vi_events`. -/
structure ViDesc (n : Nat) where
  addr : Fin n × Fin viQnum
  len : UInt32
  flags : UInt16
  next : UInt16
  deriving DecidableEq, Repr

/-- `struct vi_avail`. -/
structure ViAvail where
  idx : UInt16
  ring : Fin viQnum → UInt16

/-- `struct vi_used_elem`. -/
structure ViUsedElem where
  id : UInt32
  len : UInt32
  deriving DecidableEq, Repr

/-- `struct vi_used`. -/
structure ViUsed where
  idx : UInt16
  ring : Fin viQnum → ViUsedElem

/-- The elements of `vi_desc`, `vi_avail`, `vi_used`, `vi_events` and `vi_last_used`
that belong to one device. -/
structure ViQueue (n : Nat) where
  desc : Fin viQnum → ViDesc n
  avail : ViAvail
  used : ViUsed
  events : Fin viQnum → VirtioInputEvent
  lastUsed : UInt16

variable {n : Nat}

/-- `vi_queue_push`. -/
def viQueuePush (id : UInt16) (q : ViQueue n) : ViQueue n :=
  { q with
    avail :=
      { idx := q.avail.idx + 1
        ring := Function.update q.avail.ring (ringCell viQnum q.avail.idx) id } }

/-- The body of the loop in `vi_init_one_device`: descriptor `i` names buffer `i`. -/
def viInitBuffer (dev : Fin n) (q : ViQueue n) (i : Fin viQnum) : ViQueue n :=
  viQueuePush (.ofNat i.val)
    { q with desc := Function.update q.desc i ⟨(dev, i), 8, viDescFWrite, 0⟩ }

/-- The queue as `vi_init_one_device` leaves it for a device it accepts. -/
def viInitOneDevice (dev : Fin n) : ViQueue n :=
  (List.finRange viQnum).foldl (viInitBuffer dev)
    { desc := fun _ => ⟨(dev, 0), 0, 0, 0⟩
      avail := ⟨0, fun _ => 0⟩
      used := ⟨0, fun _ => ⟨0, 0⟩⟩
      events := fun _ => ⟨0, 0, 0⟩
      lastUsed := 0 }

/-- What one turn of the loop in `vi_fetch_one_event` finds at a device. -/
inductive ViFetch
  | empty
  | badId
  | event (id : UInt16) (ev : VirtioInputEvent)
  deriving DecidableEq, Repr

/-- One turn of the loop in `vi_fetch_one_event`. -/
def viFetchDev (q : ViQueue n) : ViFetch × ViQueue n :=
  if q.lastUsed = q.used.idx then (.empty, q)
  else
    let id := (q.used.ring (ringCell viQnum q.lastUsed)).id
    let q := { q with lastUsed := q.lastUsed + 1 }
    if h : id.toNat < viQnum then
      (.event id.toUInt16 (q.events ⟨id.toNat, h⟩), viQueuePush id.toUInt16 q)
    else (.badId, q)

/-- A buffer with the event the device puts there. -/
structure ViFilled where
  id : UInt16
  event : VirtioInputEvent
  deriving DecidableEq, Repr

/-- The device side of a queue: its position in the available ring, the buffers it
has taken, and those it has filled and not yet published. -/
structure ViDevice where
  lastAvail : UInt16
  pending : List UInt16
  filled : List ViFilled

/-- A device with its queue and their history. -/
structure ViLine (n : Nat) where
  queue : ViQueue n
  device : ViDevice
  posts : List UInt16
  taken : Nat
  published : List ViFilled
  handed : List VirtioInputEvent

/-- Where `virtio_input_handle_irq` is: not running, or at a turn of the loop in
`vi_fetch_one_event`. -/
inductive ViPhase
  | idle
  | scanning (turn : Nat)
  deriving DecidableEq, Repr

/-- The driver with `n` devices.  `emptied dev` tells how many events the device had
published when the scan in progress found nothing unread there. -/
structure ViSys (n : Nat) where
  line : Fin n → ViLine n
  rrNext : Nat
  phase : ViPhase
  emptied : Fin n → Option Nat

/-- A device just set up, with all its buffers posted. -/
def ViLine.init (dev : Fin n) : ViLine n where
  queue := viInitOneDevice dev
  device := ⟨0, [], []⟩
  posts := (List.range viQnum).map .ofNat
  taken := 0
  published := []
  handed := []

/-- The state `virtio_input_init` leaves with `n` devices. -/
def ViSys.init (n : Nat) : ViSys n where
  line := ViLine.init
  rrNext := 0
  phase := .idle
  emptied := fun _ => none

/-- One device replaced. -/
def ViSys.setLine (s : ViSys n) (dev : Fin n) (line : ViLine n) : ViSys n :=
  { s with line := Function.update s.line dev line }

/-- The steps of a run. -/
inductive ViOp (n : Nat)
  /-- `virtio_input_handle_irq` is entered. -/
  | irq
  /-- One turn of the loop in `vi_fetch_one_event`, or its end. -/
  | turn
  | devTake (dev : Fin n)
  | devFill (dev : Fin n) (id : UInt16) (ev : VirtioInputEvent)
  | devPublish (dev : Fin n) (c : ViFilled)

/-- The device that a turn looks at. -/
def scanDev (rrNext turn : Nat) (h : turn < n) : Fin n :=
  ⟨(rrNext + turn) % n, Nat.mod_lt _ (by omega)⟩

/-- A turn of the loop in `vi_fetch_one_event`.  With an event the function returns,
`virtio_input_handle_irq` passes the event on and calls it again. -/
def viTurn (s : ViSys n) (turn : Nat) (h : turn < n) : ViSys n :=
  let dev := scanDev s.rrNext turn h
  let l := s.line dev
  match viFetchDev l.queue with
  | (.empty, _) =>
      { s with
        phase := .scanning (turn + 1)
        emptied := Function.update s.emptied dev (some l.published.length) }
  | (.badId, q) => { s.setLine dev { l with queue := q } with phase := .scanning (turn + 1) }
  | (.event id ev, q) =>
      { s.setLine dev { l with queue := q, posts := l.posts ++ [id], handed := l.handed ++ [ev] } with
        rrNext := (dev.val + 1) % n
        phase := .scanning 0
        emptied := fun _ => none }

/-- The device takes the next posted buffer. -/
def viDevTake (l : ViLine n) : Option (ViLine n) :=
  if l.device.lastAvail = l.queue.avail.idx then none
  else
    let id := l.queue.avail.ring (ringCell viQnum l.device.lastAvail)
    some { l with
      device := { l.device with
        lastAvail := l.device.lastAvail + 1
        pending := id :: l.device.pending }
      taken := l.taken + 1 }

/-- An event written to memory. -/
def ViSys.store (s : ViSys n) (addr : Fin n × Fin viQnum) (ev : VirtioInputEvent) : ViSys n :=
  let l := s.line addr.1
  s.setLine addr.1 { l with
    queue := { l.queue with events := Function.update l.queue.events addr.2 ev } }

/-- The device fills a buffer it has taken, at the address in the descriptor. -/
def viDevFill (dev : Fin n) (id : UInt16) (ev : VirtioInputEvent) (s : ViSys n) :
    Option (ViSys n) :=
  if id ∈ (s.line dev).device.pending then
    let s := s.store ((s.line dev).queue.desc (ringCell viQnum id)).addr ev
    let l := s.line dev
    some (s.setLine dev { l with
      device := { l.device with
        pending := l.device.pending.erase id
        filled := ⟨id, ev⟩ :: l.device.filled } })
  else none

/-- The device publishes a buffer it has filled. -/
def viDevPublish (c : ViFilled) (l : ViLine n) : Option (ViLine n) :=
  if c ∈ l.device.filled then
    some { l with
      queue := { l.queue with
        used :=
          { idx := l.queue.used.idx + 1
            ring := Function.update l.queue.used.ring (ringCell viQnum l.queue.used.idx)
              ⟨c.id.toUInt32, 8⟩ } }
      device := { l.device with filled := l.device.filled.erase c }
      published := l.published ++ [c] }
  else none

/-- One step, if it can happen. -/
def viStep (op : ViOp n) (s : ViSys n) : Option (ViSys n) :=
  match op with
  | .irq =>
      match s.phase with
      | .idle => some { s with phase := .scanning 0, emptied := fun _ => none }
      | .scanning _ => none
  | .turn =>
      match s.phase with
      | .idle => none
      | .scanning turn =>
          if h : turn < n then some (viTurn s turn h) else some { s with phase := .idle }
  | .devTake dev => (viDevTake (s.line dev)).map (s.setLine dev)
  | .devFill dev id ev => viDevFill dev id ev s
  | .devPublish dev c => (viDevPublish c (s.line dev)).map (s.setLine dev)

/-- The states of a run. -/
inductive ViReachable : ViSys n → Prop
  | init : ViReachable (.init n)
  | step {s s'} (op : ViOp n) (hs : ViReachable s) (h : viStep op s = some s') : ViReachable s'

/-- The entries of the available ring that the device has not taken. -/
def ViLine.waiting (l : ViLine n) : List UInt16 :=
  ringWindow l.queue.avail.ring l.device.lastAvail l.queue.avail.idx

/-- The buffers posted to a device: in its available ring, or taken from there and
not yet published. -/
def ViLine.posted (l : ViLine n) : List UInt16 :=
  l.waiting ++ l.device.pending ++ l.device.filled.map ViFilled.id

/-- The entries of the used ring that the driver has not read. -/
def ViLine.unread (l : ViLine n) : List ViUsedElem :=
  ringWindow l.queue.used.ring l.queue.lastUsed l.queue.used.idx

/-- The event in the buffer that an entry of the used ring names. -/
def ViLine.eventOf (l : ViLine n) (e : ViUsedElem) : VirtioInputEvent :=
  l.queue.events (Fin.ofNat viQnum e.id.toNat)

/-- No buffer and no event is lost or duplicated at a device. -/
structure ViLine.Kept (l : ViLine n) : Prop where
  /-- The events handed out, and after them the unread ones as they stand in memory,
  are the events published, in the order of the used ring. -/
  events : l.handed ++ l.unread.map l.eventOf = l.published.map ViFilled.event
  /-- Every buffer is in exactly one place. -/
  buffers : (l.posted ++ l.unread.map fun e => e.id.toUInt16).Perm ((List.range viQnum).map .ofNat)

/-- What holds of the driver in one state. -/
structure InputKept (s : ViSys n) : Prop where
  kept : ∀ dev, (s.line dev).Kept
  /-- When `virtio_input_handle_irq` is about to return, the scan it has just made
  found each device with all its published events handed out. -/
  scanned : ∀ turn, s.phase = .scanning turn → n ≤ turn →
    ∀ dev, s.emptied dev = some (s.line dev).handed.length

end Sugimotos.Drivers
