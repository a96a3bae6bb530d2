/-
# The kernel event queue

Model of `kernel/event/event.c`.  The lock makes each call one step.
-/

import Sugimotos.Math.LossyFifo
import Sugimotos.Math.RingQueue
import Mathlib.Data.UInt

namespace Sugimotos.Event

open Sugimotos.Math

abbrev keventQCap : Nat := 128

/-- `struct k_event`. -/
structure KEvent where
  type : UInt32
  a : UInt32
  b : UInt32
  c : UInt32
  d : UInt32
  seq : UInt64
  deriving DecidableEq, Repr

/-- The file's variables. -/
structure Kevents where
  gQ : Nat → KEvent
  gHead : Nat
  gTail : Nat
  gSeq : UInt64

def keventInit : Kevents where
  gQ _ := ⟨0, 0, 0, 0, 0, 0⟩
  gHead := 0
  gTail := 0
  gSeq := 0

def keventPush (type a b c d : UInt32) (s : Kevents) : Int × Kevents :=
  let next := (s.gTail + 1) % keventQCap
  let head := if next = s.gHead then (s.gHead + 1) % keventQCap else s.gHead
  (0,
    { gQ := Function.update s.gQ s.gTail ⟨type, a, b, c, d, s.gSeq⟩
      gHead := head
      gTail := next
      gSeq := s.gSeq + 1 })

/-- `kevent_pop` with the event that `out` points to. -/
def keventPop (out : Option KEvent) (s : Kevents) : Int × Option KEvent × Kevents :=
  match out with
  | none => (-1, none, s)
  | some out =>
      if s.gHead = s.gTail then (0, some out, s)
      else (1, some (s.gQ s.gHead), { s with gHead := (s.gHead + 1) % keventQCap })

/-- The events from `g_head` to `g_tail`. -/
def Kevents.contents (s : Kevents) : List KEvent := ringList s.gQ keventQCap s.gHead s.gTail

/-- Both indices name a cell. -/
structure Kevents.InRing (s : Kevents) : Prop where
  head : s.gHead < keventQCap
  tail : s.gTail < keventQCap

theorem keventInit_inRing : keventInit.InRing := ⟨by decide, by decide⟩

theorem keventPop_inRing {s : Kevents} (h : s.InRing) (out : Option KEvent) :
    (keventPop out s).2.2.InRing := by
  unfold keventPop
  split
  · exact h
  · split
    · exact h
    · exact ⟨ringNext_lt h.head, h.tail⟩

theorem keventPush_inRing {s : Kevents} (h : s.InRing) (type a b c d : UInt32) :
    (keventPush type a b c d s).2.InRing := by
  unfold keventPush
  constructor
  · dsimp only
    split
    · exact ringNext_lt h.head
    · exact h.head
  · exact ringNext_lt h.tail

/-- What a pop returns. -/
theorem keventPop_spec {s : Kevents} (h : s.InRing) (out : KEvent) :
    match s.contents with
    | [] => keventPop (some out) s = (0, some out, s)
    | e :: rest =>
        (keventPop (some out) s).1 = 1 ∧ (keventPop (some out) s).2.1 = some e ∧
          (keventPop (some out) s).2.2.contents = rest := by
  by_cases hempty : s.gHead = s.gTail
  · have hnil : s.contents = [] := (ringList_eq_nil h.head h.tail).mpr hempty
    rw [hnil]
    unfold keventPop
    dsimp only
    rw [if_pos hempty]
  · have hcons : s.contents = s.gQ s.gHead :: ringList s.gQ keventQCap _ s.gTail :=
      ringList_take h.head h.tail hempty
    rw [hcons]
    unfold keventPop
    dsimp only
    rw [if_neg hempty]
    exact ⟨rfl, rfl, rfl⟩

/-- What a push leaves: a full ring first gives up its oldest event. -/
theorem keventPush_spec {s : Kevents} (h : s.InRing) (type a b c d : UInt32) :
    (keventPush type a b c d s).2.contents =
      (if s.contents.length = 127 then s.contents.tail else s.contents) ++
        [⟨type, a, b, c, d, s.gSeq⟩] := by
  have hfull : ringNext keventQCap s.gTail = s.gHead ↔ s.contents.length + 1 = keventQCap :=
    ringNext_eq_head h.head h.tail
  by_cases hnext : ringNext keventQCap s.gTail = s.gHead
  · have hlen : s.contents.length + 1 = 127 + 1 := hfull.mp hnext
    have hne : s.gHead ≠ s.gTail := by
      intro heq
      have hnil : s.contents = [] := (ringList_eq_nil h.head h.tail).mpr heq
      rw [hnil] at hlen
      cases hlen
    have hroom : ringNext keventQCap s.gTail ≠ ringNext keventQCap s.gHead := by
      intro heq
      have hhead := h.head
      have htail := h.tail
      rw [ringNext_eq h.head, ringNext_eq h.tail] at heq
      split_ifs at heq <;> omega
    have htake : s.contents = s.gQ s.gHead :: ringList s.gQ keventQCap _ s.gTail :=
      ringList_take h.head h.tail hne
    have hput := ringList_put (ringNext_lt h.head) h.tail s.gQ hroom
      ⟨type, a, b, c, d, s.gSeq⟩
    rw [if_pos (Nat.succ.inj hlen), htake, List.tail_cons, ← hput]
    unfold keventPush Kevents.contents
    dsimp only
    rw [if_pos (show (s.gTail + 1) % keventQCap = s.gHead from hnext)]
    rfl
  · have hput := ringList_put h.head h.tail s.gQ hnext ⟨type, a, b, c, d, s.gSeq⟩
    have hlen : s.contents.length ≠ 127 := fun hlen => hnext (hfull.mpr (by rw [hlen]))
    rw [if_neg hlen]
    unfold Kevents.contents
    rw [← hput]
    unfold keventPush
    dsimp only
    rw [if_neg (show ¬ (s.gTail + 1) % keventQCap = s.gHead from hnext)]
    rfl

/-! ## Runs -/

inductive KeventOp
  | push (type a b c d : UInt32)
  | pop
  deriving DecidableEq, Repr

/-- The queue after the calls, and the events that the pops delivered. -/
def keventRun (ops : List KeventOp) : Kevents × List KEvent :=
  ops.foldl
    (fun r op =>
      match op with
      | .push type a b c d => ((keventPush type a b c d r.1).2, r.2)
      | .pop =>
          let out := keventPop (some ⟨0, 0, 0, 0, 0, 0⟩) r.1
          if out.1 = 1 then (out.2.2, r.2 ++ out.2.1.toList) else (out.2.2, r.2))
    (keventInit, [])

/-- The values of a push. -/
structure KeventValues where
  type : UInt32
  a : UInt32
  b : UInt32
  c : UInt32
  d : UInt32
  deriving DecidableEq, Repr

/-- The values pushed, in order. -/
def keventPushed (ops : List KeventOp) : List KeventValues :=
  ops.filterMap fun op =>
    match op with
    | .push type a b c d => some ⟨type, a, b, c, d⟩
    | .pop => none

/-- What the queue is for: a FIFO list of capacity 127 that drops its oldest entry. -/
def keventSpec (ops : List KeventOp) : LossyFifo KeventValues :=
  ops.foldl
    (fun f op =>
      match op with
      | .push type a b c d => f.push 127 ⟨type, a, b, c, d⟩
      | .pop => f.pop.2)
    LossyFifo.empty

/-- The event that carries an entry: its number is kept in 64 bits. -/
def keventOf (entry : KeventValues × Nat) : KEvent where
  type := entry.1.type
  a := entry.1.a
  b := entry.1.b
  c := entry.1.c
  d := entry.1.d
  seq := .ofNat entry.2

/-- The ring stands for the list. -/
structure Simulates (r : Kevents × List KEvent) (f : LossyFifo KeventValues) : Prop where
  inRing : r.1.InRing
  contents : r.1.contents = f.held.map keventOf
  seq : r.1.gSeq = .ofNat f.next
  delivered : r.2 = f.delivered.map keventOf

theorem keventRun_concat (ops : List KeventOp) (op : KeventOp) :
    keventRun (ops ++ [op]) =
      match op with
      | .push type a b c d =>
          ((keventPush type a b c d (keventRun ops).1).2, (keventRun ops).2)
      | .pop =>
          let out := keventPop (some ⟨0, 0, 0, 0, 0, 0⟩) (keventRun ops).1
          if out.1 = 1 then (out.2.2, (keventRun ops).2 ++ out.2.1.toList)
          else (out.2.2, (keventRun ops).2) := by
  unfold keventRun
  rw [List.foldl_append]
  rfl

theorem keventSpec_concat (ops : List KeventOp) (op : KeventOp) :
    keventSpec (ops ++ [op]) =
      match op with
      | .push type a b c d => (keventSpec ops).push 127 ⟨type, a, b, c, d⟩
      | .pop => (keventSpec ops).pop.2 := by
  unfold keventSpec
  rw [List.foldl_append]
  rfl

theorem Simulates.push {s : Kevents} {out : List KEvent} {f : LossyFifo KeventValues}
    (h : Simulates (s, out) f) (type a b c d : UInt32) :
    Simulates ((keventPush type a b c d s).2, out) (f.push 127 ⟨type, a, b, c, d⟩) := by
  have hcontents : s.contents = f.held.map keventOf := h.contents
  have hseq : s.gSeq = .ofNat f.next := h.seq
  refine ⟨keventPush_inRing h.inRing type a b c d, ?_, ?_, ?_⟩
  · change (keventPush type a b c d s).2.contents = _
    rw [keventPush_spec h.inRing, hcontents, hseq, LossyFifo.push_held, List.length_map,
      List.map_append, ← List.map_tail]
    split <;> rfl
  · change s.gSeq + 1 = _
    rw [hseq, LossyFifo.push_next]
    exact (UInt64.ofNat_add f.next 1).symm
  · rw [LossyFifo.push_delivered]
    exact h.delivered

theorem Simulates.pop {s : Kevents} {out : List KEvent} {f : LossyFifo KeventValues}
    (h : Simulates (s, out) f) (var : KEvent) :
    Simulates
      (if (keventPop (some var) s).1 = 1 then
        ((keventPop (some var) s).2.2, out ++ (keventPop (some var) s).2.1.toList)
      else ((keventPop (some var) s).2.2, out)) f.pop.2 := by
  have hpop := keventPop_spec h.inRing var
  have hring := keventPop_inRing h.inRing (some var)
  have hcontents : s.contents = f.held.map keventOf := h.contents
  have hdelivered : out = f.delivered.map keventOf := h.delivered
  dsimp only at hpop hring
  rw [hcontents] at hpop
  unfold LossyFifo.pop
  cases hheld : f.held with
  | nil =>
      rw [hheld] at hpop
      change keventPop (some var) s = (0, some var, s) at hpop
      rw [hpop]
      exact h
  | cons e rest =>
      rw [hheld] at hpop
      obtain ⟨hone, hout, hrest⟩ := hpop
      rw [if_pos hone]
      have hseq : (keventPop (some var) s).2.2.gSeq = s.gSeq := by
        unfold keventPop
        dsimp only
        split <;> rfl
      refine ⟨hring, hrest, hseq.trans h.seq, ?_⟩
      rw [hout, hdelivered]
      unfold LossyFifo.delivered
      rw [List.filterMap_append, List.map_append]
      rfl

theorem keventRun_simulates (ops : List KeventOp) : Simulates (keventRun ops) (keventSpec ops) := by
  induction ops using List.reverseRecOn with
  | nil => exact ⟨keventInit_inRing, rfl, rfl, rfl⟩
  | append_singleton ops op ih =>
      rw [keventRun_concat, keventSpec_concat]
      cases op with
      | push type a b c d => exact ih.push type a b c d
      | pop => exact ih.pop _

theorem keventSpec_length (ops : List KeventOp) : (keventSpec ops).held.length ≤ 127 := by
  have hsim := keventRun_simulates ops
  have hlt : (keventRun ops).1.contents.length < keventQCap := by
    unfold Kevents.contents
    rw [length_ringList]
    exact ringCount_lt hsim.inRing.head
  rw [hsim.contents, List.length_map] at hlt
  exact Nat.le_of_lt_succ hlt

theorem keventSpec_accounted (ops : List KeventOp) :
    (keventSpec ops).Accounted (keventPushed ops) := by
  induction ops using List.reverseRecOn with
  | nil => exact LossyFifo.Accounted.empty
  | append_singleton ops op ih =>
      rw [keventSpec_concat]
      unfold keventPushed
      rw [List.filterMap_append]
      cases op with
      | push type a b c d => exact ih.push ⟨type, a, b, c, d⟩
      | pop =>
          rw [List.filterMap_cons_none rfl, List.filterMap_nil, List.append_nil]
          exact ih.pop

/-- The ring is the FIFO list, its pops are the pops of the list, and the numbers of
two events delivered one after the other tell how many were dropped in between. -/
theorem kevent_fifo (ops : List KeventOp) :
    (keventRun ops).1.contents = (keventSpec ops).held.map keventOf ∧
      (keventSpec ops).held.length ≤ 127 ∧
      (∀ out, (keventPop (some out) (keventRun ops).1).1 = 0 ↔ (keventSpec ops).held = []) ∧
      (∀ out oldest rest, (keventSpec ops).held = oldest :: rest →
        (keventPop (some out) (keventRun ops).1).1 = 1 ∧
          (keventPop (some out) (keventRun ops).1).2.1 = some (keventOf oldest)) ∧
      (keventRun ops).2 = (keventSpec ops).delivered.map keventOf ∧
      (keventSpec ops).left.map Departure.entry ++ (keventSpec ops).held =
        (keventPushed ops).zipIdx ∧
      ((keventSpec ops).delivered.map Prod.snd).Pairwise (· < ·) ∧
      ∀ before x mid y after,
        (keventSpec ops).left = before ++ .delivered x :: mid ++ .delivered y :: after →
        (∀ d ∈ mid, d.delivered? = none) → y.2 - x.2 - 1 = mid.length ∧
          (keventOf y).seq - (keventOf x).seq - 1 = .ofNat mid.length := by
  have hsim := keventRun_simulates ops
  have haccounted := keventSpec_accounted ops
  have hpop := fun out => keventPop_spec hsim.inRing out
  rw [hsim.contents] at hpop
  refine ⟨hsim.contents, keventSpec_length ops, fun out => ?_, fun out oldest rest hheld => ?_,
    hsim.delivered, haccounted.entries, haccounted.increasing, ?_⟩
  · have hout := hpop out
    cases hheld : (keventSpec ops).held with
    | nil =>
        rw [hheld] at hout
        have hzero : (keventPop (some out) (keventRun ops).1).1 = 0 := congrArg Prod.fst hout
        exact iff_of_true hzero rfl
    | cons e rest =>
        rw [hheld] at hout
        have hone : (keventPop (some out) (keventRun ops).1).1 = 1 := hout.1
        rw [hone]
        exact iff_of_false (by decide) (List.cons_ne_nil _ _)
  · have hout := hpop out
    rw [hheld] at hout
    exact ⟨hout.1, hout.2.1⟩
  · intro before x mid y after hleft _
    have hgap := haccounted.gap hleft
    constructor
    · omega
    · change UInt64.ofNat y.2 - UInt64.ofNat x.2 - 1 = _
      have hsum : UInt64.ofNat y.2 = UInt64.ofNat mid.length + 1 + UInt64.ofNat x.2 := by
        rw [hgap, UInt64.ofNat_add, UInt64.ofNat_add, UInt64.add_assoc, UInt64.add_comm]
        rfl
      rw [hsum, UInt64.add_sub_cancel, UInt64.add_sub_cancel]

end Sugimotos.Event
