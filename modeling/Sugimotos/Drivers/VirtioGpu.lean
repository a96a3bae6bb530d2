/-
# GPU commands

Model of `vg_submit` in `drivers/virtio/virtio_gpu.c` after initialisation, over
runs of any number of callers and a device.  The kernel is not preemptible: one
caller executes `vg_submit` until it returns or sleeps in the second loop.  All
calls share descriptors 0 and 1 and the head 0; a ticket is the number of a post,
and tickets and histories are kept beside the machine.
-/

import Sugimotos.Math.Ring

namespace Sugimotos.Drivers

open Sugimotos.Math

abbrev vgQnum : Nat := 32
abbrev vgDescFNext : UInt16 := 1
abbrev vgDescFWrite : UInt16 := 2

/-- The bounds of the two wait loops. -/
abbrev vgPollMax : Nat := 20000000
abbrev vgSleepMax : Nat := 100

/-- `struct vg_desc`. -/
structure VgDesc where
  addr : Nat
  len : Nat
  flags : UInt16
  next : UInt16
  deriving DecidableEq, Repr

def VgDesc.zero : VgDesc := ⟨0, 0, 0, 0⟩

/-- `struct vg_used_elem`. -/
structure VgUsedElem where
  id : UInt32
  len : UInt32
  deriving DecidableEq, Repr

/-- The queue and `vg_last_used`. -/
structure Vg where
  desc : Fin vgQnum → VgDesc
  availIdx : UInt16
  availRing : Fin vgQnum → UInt16
  usedIdx : UInt16
  usedRing : Fin vgQnum → VgUsedElem
  lastUsed : UInt16

def Vg.init : Vg := ⟨fun _ => .zero, 0, fun _ => 0, 0, fun _ => ⟨0, 0⟩, 0⟩

/-- The arguments of `vg_submit`, and whether the caller may sleep: `current_proc` is
set and is not the idle process. -/
structure VgReq where
  req : Nat
  reqLen : Nat
  resp : Nat
  respLen : Nat
  sleeps : Bool
  deriving DecidableEq, Repr

/-- The test at the start of `vg_submit`. -/
def VgReq.ok (r : VgReq) : Bool :=
  decide (r.req ≠ 0) && decide (r.reqLen ≠ 0) && decide (r.resp ≠ 0) && decide (r.respLen ≠ 0)

/-- The descriptors of a request. -/
def VgReq.desc0 (r : VgReq) : VgDesc := ⟨r.req, r.reqLen, vgDescFNext, 1⟩

def VgReq.desc1 (r : VgReq) : VgDesc := ⟨r.resp, r.respLen, vgDescFWrite, 0⟩

/-- Descriptors 0 and 1 are written. -/
def vgPrepare (r : VgReq) (vg : Vg) : Vg :=
  { vg with desc := Function.update (Function.update vg.desc 0 r.desc0) 1 r.desc1 }

/-- Head 0 goes into the available ring. -/
def vgPost (vg : Vg) : Vg :=
  { vg with
    availRing := Function.update vg.availRing (ringCell vgQnum vg.availIdx) 0
    availIdx := vg.availIdx + 1 }

/-- The used entry that a call takes for its own carries the expected id. -/
def vgIdOk (vg : Vg) : Bool := decide ((vg.usedRing (ringCell vgQnum vg.lastUsed)).id = 0)

/-- The end of `vg_submit`: whether it returns 0. -/
def vgSucceeds (vg : Vg) : Bool := decide (vg.lastUsed ≠ vg.usedIdx) && vgIdOk vg

/-- Where a caller is in `vg_submit`: the request, the ticket, and the count of the
loop it is in. -/
inductive VgPhase
  | idle
  | prepared (r : VgReq)
  | polling (r : VgReq) (n : Nat) (timeout : Nat)
  | polled (r : VgReq) (n : Nat)
  | retrying (r : VgReq) (n : Nat) (timeout : Nat)
  | asleep (r : VgReq) (n : Nat) (timeout : Nat)
  | final (r : VgReq) (n : Nat)
  deriving DecidableEq, Repr

/-- The request a caller has posted and waits for. -/
def VgPhase.waits : VgPhase → Option (VgReq × Nat)
  | .idle => none
  | .prepared _ => none
  | .polling r n _ => some (r, n)
  | .polled r n => some (r, n)
  | .retrying r n _ => some (r, n)
  | .asleep r n _ => some (r, n)
  | .final r n => some (r, n)

/-- A chain as the device has read it from the descriptors. -/
structure VgChain where
  ticket : Nat
  head : UInt16
  req : Nat
  reqLen : Nat
  resp : Nat
  respLen : Nat
  deriving DecidableEq, Repr

/-- The chain is that of the given request. -/
def VgChain.isFor (c : VgChain) (r : VgReq) : Prop :=
  c.head = 0 ∧ c.req = r.req ∧ c.reqLen = r.reqLen ∧ c.resp = r.resp ∧ c.respLen = r.respLen

/-- The device: the chains it has taken, those whose response it has written, and the
one whose used element it has written but not announced. -/
structure VgDevice where
  lastAvail : UInt16
  taken : Nat
  pending : List VgChain
  responded : List VgChain
  element : Option VgChain

structure VgPost (ι : Type) where
  caller : ι
  req : VgReq
  deriving DecidableEq, Repr

/-- The driver, the device and the callers; `cpu` is the caller that executes.
`written` lists the chains whose response has been written, `completed` the tickets
in the order of the used ring, and `consumed` counts the calls that returned 0. -/
structure VgSys (ι : Type) where
  vg : Vg
  device : VgDevice
  phase : ι → VgPhase
  cpu : Option ι
  posts : List (VgPost ι)
  written : List VgChain
  completed : List Nat
  consumed : Nat

def VgSys.init (ι : Type) : VgSys ι where
  vg := .init
  device := ⟨0, 0, [], [], none⟩
  phase := fun _ => .idle
  cpu := none
  posts := []
  written := []
  completed := []
  consumed := 0

/-- The steps of a run. -/
inductive VgOp (ι : Type)
  | submit (p : ι) (r : VgReq)
  | post (p : ι)
  | poll (p : ι)
  | check (p : ι)
  | retry (p : ι)
  /-- The caller comes back from `waitq_sleep`. -/
  | wake (p : ι)
  | finish (p : ι)
  | devTake
  | devRespond (c : VgChain)
  | devElement (c : VgChain)
  | devIndex

variable {ι : Type} [DecidableEq ι]

/-- Caller `p` goes on to a phase and keeps or gives up the processor. -/
def VgSys.goto (s : VgSys ι) (p : ι) (phase : VgPhase) (cpu : Option ι) : VgSys ι :=
  { s with phase := Function.update s.phase p phase, cpu := cpu }

/-- A step of a caller that executes. -/
def vgCallStep (op : VgOp ι) (s : VgSys ι) : Option (VgSys ι) :=
  match op with
  | .post p =>
      match s.phase p with
      | .prepared r =>
          let s' := { s with vg := vgPost s.vg, posts := s.posts ++ [VgPost.mk p r] }
          some (s'.goto p (.polling r s.posts.length vgPollMax) (some p))
      | _ => none
  | .poll p =>
      match s.phase p with
      | .polling r n 0 => some (s.goto p (.polled r n) (some p))
      | .polling r n (timeout + 1) =>
          if s.vg.lastUsed ≠ s.vg.usedIdx then some (s.goto p (.polled r n) (some p))
          else some (s.goto p (.polling r n timeout) (some p))
      | _ => none
  | .check p =>
      match s.phase p with
      | .polled r n =>
          if s.vg.lastUsed = s.vg.usedIdx ∧ r.sleeps then
            some (s.goto p (.retrying r n vgSleepMax) (some p))
          else some (s.goto p (.final r n) (some p))
      | _ => none
  | .retry p =>
      match s.phase p with
      | .retrying r n timeout =>
          if s.vg.lastUsed = s.vg.usedIdx ∧ 0 < timeout then
            some (s.goto p (.asleep r n (timeout - 1)) none)
          else some (s.goto p (.final r n) (some p))
      | _ => none
  | .finish p =>
      match s.phase p with
      | .final _ _ =>
          if vgSucceeds s.vg then
            let s' := { s with
              vg := { s.vg with lastUsed := s.vg.lastUsed + 1 }
              consumed := s.consumed + 1 }
            some (s'.goto p .idle none)
          else some (s.goto p .idle none)
      | _ => none
  | _ => none

/-- A step of the device. -/
def vgDeviceStep (op : VgOp ι) (s : VgSys ι) : Option (VgSys ι) :=
  match op with
  | .devTake =>
      if s.device.lastAvail = s.vg.availIdx then none
      else
        let head := s.vg.availRing (ringCell vgQnum s.device.lastAvail)
        let d0 := s.vg.desc (ringCell vgQnum head)
        let d1 := s.vg.desc (ringCell vgQnum d0.next)
        let c : VgChain := ⟨s.device.taken, head, d0.addr, d0.len, d1.addr, d1.len⟩
        some { s with
          device := { s.device with
            lastAvail := s.device.lastAvail + 1
            taken := s.device.taken + 1
            pending := c :: s.device.pending } }
  | .devRespond c =>
      if c ∈ s.device.pending then
        some { s with
          device := { s.device with
            pending := s.device.pending.erase c
            responded := c :: s.device.responded }
          written := c :: s.written }
      else none
  | .devElement c =>
      if c ∈ s.device.responded ∧ s.device.element = none then
        let ring := Function.update s.vg.usedRing (ringCell vgQnum s.vg.usedIdx)
          ⟨c.head.toUInt32, .ofNat c.respLen⟩
        some { s with
          vg := { s.vg with usedRing := ring }
          device := { s.device with
            responded := s.device.responded.erase c
            element := some c } }
      else none
  | .devIndex =>
      match s.device.element with
      | none => none
      | some c =>
          some { s with
            vg := { s.vg with usedIdx := s.vg.usedIdx + 1 }
            device := { s.device with element := none }
            completed := s.completed ++ [c.ticket] }
  | _ => none

/-- The caller of an operation of `vg_submit`. -/
def VgOp.caller : VgOp ι → Option ι
  | .post p => some p
  | .poll p => some p
  | .check p => some p
  | .retry p => some p
  | .finish p => some p
  | _ => none

/-- One step, if it can happen. -/
def vgStep (op : VgOp ι) (s : VgSys ι) : Option (VgSys ι) :=
  match op with
  | .submit p r =>
      match s.phase p with
      | .idle =>
          if s.cpu ≠ none then none
          else if ¬ r.ok then some s
          else some ({ s with vg := vgPrepare r s.vg }.goto p (.prepared r) (some p))
      | _ => none
  | .wake p =>
      match s.phase p with
      | .asleep r n timeout =>
          if s.cpu ≠ none then none else some (s.goto p (.retrying r n timeout) (some p))
      | _ => none
  | op =>
      match op.caller with
      | none => vgDeviceStep op s
      | some p => if s.cpu = some p then vgCallStep op s else none

/-- The states of a run whose steps all meet the condition `ok`. -/
inductive VgReachable (ok : VgSys ι → VgOp ι → Prop) : VgSys ι → Prop
  | init : VgReachable ok (.init ι)
  | step {s s'} (op : VgOp ι) (hs : VgReachable ok s) (h : vgStep op s = some s')
      (hok : ok s op) : VgReachable ok s'

/-- A command reports its own completion. -/
structure OwnCompletion (s : VgSys ι) : Prop where
  /-- A call that returns 0 had its very request completed and its response written. -/
  own : ∀ p r n, s.phase p = .final r n → vgSucceeds s.vg = true →
    n ∈ s.completed ∧ s.posts[n]? = some ⟨p, r⟩ ∧ ∃ c ∈ s.written, c.ticket = n ∧ c.isFor r
  /-- When descriptors 0 and 1 have been reused, the device owns no request of a call
  that has returned. -/
  free : ∀ p r, s.phase p = .prepared r → ∀ n t, s.posts[n]? = some t →
    (∀ r', (s.phase t.caller).waits ≠ some (r', n)) → n ∈ s.completed

/-- A call starts only when `vg_last_used` has caught up with `vg_avail.idx`: no
earlier call has given up on its request. -/
def Synced (s : VgSys ι) (op : VgOp ι) : Prop :=
  ∀ p r, op = .submit p r → s.vg.lastUsed = s.vg.availIdx

end Sugimotos.Drivers
