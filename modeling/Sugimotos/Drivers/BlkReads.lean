/-
# Concurrent block reads never cross

The invariant of the queue and its consequences.  A ticket goes from the available
ring to the device, to the used ring, and to the `done` flag of its slot; at any
moment it is in exactly one of these places, and until it has been processed its
caller waits for it and holds its slot.
-/

import Sugimotos.Drivers.BlkQueue
import Mathlib.Data.Fintype.Card
import Mathlib.Data.List.Nodup

namespace Sugimotos.Drivers

open Sugimotos.Math

variable {ι : Type}

/-! ## Descriptors -/

/-- The descriptors and the request header of a slot are those of a posted read. -/
structure ChainOk (b : Blk) (slot : Slot) (sector : UInt32) (buf : Nat) : Prop where
  req : (b.slots slot).req = ⟨virtioBlkTIn, 0, sector⟩
  d0 : b.desc (ringCell virtqNum (blkHeadForSlot slot)) =
    ⟨.req slot, 16, virtqDescFNext, blkHeadForSlot slot + 1⟩
  d1 : b.desc (ringCell virtqNum (blkHeadForSlot slot + 1)) =
    ⟨.buf buf, 512, virtqDescFNext ||| virtqDescFWrite, blkHeadForSlot slot + 2⟩
  d2 : b.desc (ringCell virtqNum (blkHeadForSlot slot + 2)) =
    ⟨.status slot, 1, virtqDescFWrite, 0⟩

theorem ChainOk.deviceChain {b : Blk} {slot : Slot} {sector : UInt32} {buf : Nat}
    (h : ChainOk b slot sector buf) :
    deviceChain b (blkHeadForSlot slot) = some (slot, buf, slot) := by
  unfold Drivers.deviceChain
  simp only [h.d0, h.d1, h.d2, h.req, and_self, if_true]

/-- A function that leaves the descriptors and the header of a slot alone. -/
theorem ChainOk.frame {b b' : Blk} {slot : Slot} {sector : UInt32} {buf : Nat}
    (h : ChainOk b slot sector buf) (hdesc : b'.desc = b.desc)
    (hreq : (b'.slots slot).req = (b.slots slot).req) : ChainOk b' slot sector buf where
  req := hreq.trans h.req
  d0 := by rw [hdesc, h.d0]
  d1 := by rw [hdesc, h.d1]
  d2 := by rw [hdesc, h.d2]

/-- The descriptors of two slots have different places in the table. -/
theorem descCell_ne {i j : Slot} (hij : i ≠ j) (a b : UInt16) (ha : a = 0 ∨ a = 1 ∨ a = 2)
    (hb : b = 0 ∨ b = 1 ∨ b = 2) :
    ringCell virtqNum (blkHeadForSlot i + a) ≠ ringCell virtqNum (blkHeadForSlot j + b) := by
  revert hij
  rcases ha with rfl | rfl | rfl <;> rcases hb with rfl | rfl | rfl <;> revert i j <;> decide

theorem descCell_self (i : Slot) :
    ringCell virtqNum (blkHeadForSlot i) ≠ ringCell virtqNum (blkHeadForSlot i + 1) ∧
      ringCell virtqNum (blkHeadForSlot i) ≠ ringCell virtqNum (blkHeadForSlot i + 2) ∧
      ringCell virtqNum (blkHeadForSlot i + 1) ≠ ringCell virtqNum (blkHeadForSlot i + 2) := by
  revert i
  decide

/-- Posting writes the chain of its slot. -/
theorem blkPost_chain {b : Blk} {slot : Slot} {sector : UInt32} {buf : Nat}
    (hreq : (b.slots slot).req = ⟨virtioBlkTIn, 0, sector⟩) :
    ChainOk (blkPost slot buf b) slot sector buf := by
  obtain ⟨h01, h02, h12⟩ := descCell_self slot
  refine ⟨hreq, ?_, ?_, ?_⟩ <;> simp only [blkPost, Blk.setDesc]
  · rw [Function.update_of_ne h02, Function.update_of_ne h01, Function.update_self]
  · rw [Function.update_of_ne h12, Function.update_self]
  · rw [Function.update_self]

/-- Posting leaves the chains of the other slots alone. -/
theorem ChainOk.blkPost {b : Blk} {slot other : Slot} {sector : UInt32} {buf buf' : Nat}
    (h : ChainOk b slot sector buf) (hne : slot ≠ other) :
    ChainOk (blkPost other buf' b) slot sector buf := by
  have hcell : ∀ a c, (a = 0 ∨ a = 1 ∨ a = 2) → (c = 0 ∨ c = 1 ∨ c = 2) →
      ringCell virtqNum (blkHeadForSlot slot + a) ≠ ringCell virtqNum (blkHeadForSlot other + c) :=
    fun a c => descCell_ne hne a c
  have hkeep : ∀ a, (a = 0 ∨ a = 1 ∨ a = 2) →
      (Drivers.blkPost other buf' b).desc (ringCell virtqNum (blkHeadForSlot slot + a)) =
        b.desc (ringCell virtqNum (blkHeadForSlot slot + a)) := by
    intro a ha
    have h0 := hcell a 0 ha (Or.inl rfl)
    rw [UInt16.add_zero] at h0
    simp only [Drivers.blkPost, Blk.setDesc]
    rw [Function.update_of_ne (hcell a 2 ha (Or.inr (Or.inr rfl))),
      Function.update_of_ne (hcell a 1 ha (Or.inr (Or.inl rfl))), Function.update_of_ne h0]
  have hzero := hkeep 0 (Or.inl rfl)
  rw [UInt16.add_zero] at hzero
  exact ⟨h.req, hzero.trans h.d0, (hkeep 1 (Or.inr (Or.inl rfl))).trans h.d1,
    (hkeep 2 (Or.inr (Or.inr rfl))).trans h.d2⟩

/-! ## The invariant -/

/-- The slot of the request with a given ticket. -/
def BlkSys.slotOf (s : BlkSys ι) (n : Nat) : Slot := ((s.posts[n]?).map Post.slot).getD 0

/-- The head of its chain. -/
def BlkSys.headOf (s : BlkSys ι) (n : Nat) : UInt16 := blkHeadForSlot (s.slotOf n)

theorem BlkSys.slotOf_eq {s : BlkSys ι} {n : Nat} {r : Post ι} (h : s.posts[n]? = some r) :
    s.slotOf n = r.slot := by
  simp [BlkSys.slotOf, h]

/-- A request that has been posted and whose completion has not been processed. -/
def BlkSys.InFlight (s : BlkSys ι) (n : Nat) (r : Post ι) : Prop :=
  s.posts[n]? = some r ∧ n ∉ s.published.take s.consumed

/-- The rings and the device. -/
structure RingInv (s : BlkSys ι) : Prop where
  availIdx : s.blk.avail.idx = .ofNat s.posts.length
  lastAvail : s.device.lastAvail = .ofNat s.device.taken
  takenLe : s.device.taken ≤ s.posts.length
  availRing : Holds s.blk.avail.ring (s.posts.map fun r => blkHeadForSlot r.slot) s.device.taken
  usedNext : s.blk.used.idx = .ofNat s.published.length
  usedIdx : s.blk.usedIdx = .ofNat s.consumed
  consumedLe : s.consumed ≤ s.published.length
  usedRing : Holds s.blk.used.ring
    (s.published.map fun n => ⟨(s.headOf n).toUInt32, 513⟩) s.consumed
  /-- Every chain taken is in exactly one place. -/
  tickets : (s.device.pending.map Chain.ticket ++ s.device.served.map Chain.ticket ++
    s.published).Perm (List.range s.device.taken)
  heads : ∀ c, c ∈ s.device.pending ∨ c ∈ s.device.served → c.head = s.headOf c.ticket

/-- The callers and their slots. -/
structure CallerInv (s : BlkSys ι) : Prop where
  uses : ∀ p slot, (s.phase p).slot = some slot → (s.blk.slots slot).inUse = true
  unique : ∀ p q slot, (s.phase p).slot = some slot → (s.phase q).slot = some slot → p = q
  posted : ∀ p slot sector buf n, s.phase p = .waiting slot sector buf n →
    s.posts[n]? = some ⟨p, slot, sector, buf⟩
  inFlight : ∀ n r, s.InFlight n r → s.phase r.caller = .waiting r.slot r.sector r.buf n
  done : ∀ p slot sector buf n, s.phase p = .waiting slot sector buf n →
    ((s.blk.slots slot).done = true ↔ n ∈ s.published.take s.consumed)
  fresh : ∀ p slot sector buf, s.phase p = .holding slot sector buf ∨
    s.phase p = .ready slot sector buf → (s.blk.slots slot).done = false
  filled : ∀ p slot sector buf, s.phase p = .ready slot sector buf →
    (s.blk.slots slot).req = ⟨virtioBlkTIn, 0, sector⟩
  chain : ∀ p slot sector buf n, s.phase p = .waiting slot sector buf n →
    ChainOk s.blk slot sector buf

/-- The buffers. -/
structure DataInv (disk : UInt32 → Nat → UInt8) (s : BlkSys ι) : Prop where
  data : ∀ p slot sector buf n, s.phase p = .waiting slot sector buf n →
    n ∈ s.device.served.map Chain.ticket ∨ n ∈ s.published → (s.blk.slots slot).status = 0 →
    s.alone p → ∀ i < 512, s.blk.mem (buf + i) = disk sector i
  apart : ∀ p q slot sector buf n slot' sector' buf' n', p ≠ q →
    s.phase p = .waiting slot sector buf n → s.phase q = .waiting slot' sector' buf' n' →
    s.alone p → disjointBufs buf buf'

structure BlkInv (disk : UInt32 → Nat → UInt8) (s : BlkSys ι) : Prop where
  rings : RingInv s
  callers : CallerInv s
  data : DataInv disk s

/-! ## Counting -/

/-- Requests in flight have different slots. -/
theorem CallerInv.slot_inj {s : BlkSys ι} (h : CallerInv s) {m n : Nat} {r t : Post ι}
    (hm : s.InFlight m r) (hn : s.InFlight n t) (hslot : r.slot = t.slot) : m = n := by
  have hr := h.inFlight m r hm
  have ht := h.inFlight n t hn
  have hcaller : r.caller = t.caller := by
    refine h.unique _ _ r.slot ?_ ?_
    · rw [hr]
      rfl
    · rw [ht, hslot]
      rfl
  rw [hcaller, ht] at hr
  injection hr with _ _ _ heq
  exact heq.symm

theorem CallerInv.slots_nodup {s : BlkSys ι} (h : CallerInv s) {ns : List Nat} (hnodup : ns.Nodup)
    (hns : ∀ n ∈ ns, ∃ r, s.InFlight n r) : (ns.map s.slotOf).Nodup := by
  refine List.Nodup.map_on (fun m hm n hn heq => ?_) hnodup
  obtain ⟨r, hr⟩ := hns m hm
  obtain ⟨t, ht⟩ := hns n hn
  rw [BlkSys.slotOf_eq hr.1, BlkSys.slotOf_eq ht.1] at heq
  exact h.slot_inj hr ht heq

/-- At most as many requests are in flight as there are slots. -/
theorem CallerInv.inFlight_le {s : BlkSys ι} (h : CallerInv s) {ns : List Nat} (hnodup : ns.Nodup)
    (hns : ∀ n ∈ ns, ∃ r, s.InFlight n r) : ns.length ≤ blkReqMax := by
  have hle := (h.slots_nodup hnodup hns).length_le_card
  rw [List.length_map, Fintype.card_fin] at hle
  exact hle

theorem RingInv.mem_range {s : BlkSys ι} (h : RingInv s) {n : Nat} :
    n < s.device.taken ↔ n ∈ s.device.pending.map Chain.ticket ∨
      n ∈ s.device.served.map Chain.ticket ∨ n ∈ s.published := by
  rw [← List.mem_range, ← h.tickets.mem_iff, List.mem_append, List.mem_append, or_assoc]

theorem RingInv.tickets_nodup {s : BlkSys ι} (h : RingInv s) :
    (s.device.pending.map Chain.ticket ++ s.device.served.map Chain.ticket ++ s.published).Nodup :=
  h.tickets.nodup_iff.mpr List.nodup_range

theorem RingInv.published_nodup {s : BlkSys ι} (h : RingInv s) : s.published.Nodup :=
  (List.nodup_append.mp h.tickets_nodup).2.1

theorem RingInv.posts_some {s : BlkSys ι} (h : RingInv s) {n : Nat} (hn : n < s.device.taken) :
    ∃ r, s.posts[n]? = some r :=
  ⟨_, List.getElem?_eq_getElem (hn.trans_le h.takenLe)⟩

/-- A request the device has not taken is in flight. -/
theorem RingInv.untaken {s : BlkSys ι} (h : RingInv s) {n : Nat} (hlo : s.device.taken ≤ n)
    (hhi : n < s.posts.length) : ∃ r, s.InFlight n r := by
  refine ⟨s.posts[n], List.getElem?_eq_getElem hhi, fun hmem => ?_⟩
  have hpub := List.mem_of_mem_take hmem
  have hlt := h.mem_range.mpr (Or.inr (Or.inr hpub))
  omega

/-- A published request whose entry has not been processed is in flight. -/
theorem RingInv.unprocessed {s : BlkSys ι} (h : RingInv s) {n : Nat}
    (hn : n ∈ s.published.drop s.consumed) : ∃ r, s.InFlight n r := by
  obtain ⟨r, hr⟩ := h.posts_some (h.mem_range.mpr (Or.inr (Or.inr (List.mem_of_mem_drop hn))))
  refine ⟨r, hr, fun htake => ?_⟩
  have hnodup := h.published_nodup
  rw [← List.take_append_drop s.consumed s.published] at hnodup
  exact (List.nodup_append.mp hnodup).2.2 n htake n hn rfl

theorem BlkInv.avail_room {disk : UInt32 → Nat → UInt8} {s : BlkSys ι} (h : BlkInv disk s) :
    s.posts.length - s.device.taken ≤ blkReqMax := by
  have hle := h.callers.inFlight_le (List.nodup_range' (s := s.device.taken)
    (n := s.posts.length - s.device.taken)) fun n hn => ?_
  · rwa [List.length_range'] at hle
  · rw [List.mem_range'_1] at hn
    exact h.rings.untaken hn.1 (by omega)

theorem BlkInv.used_room {disk : UInt32 → Nat → UInt8} {s : BlkSys ι} (h : BlkInv disk s) :
    s.published.length - s.consumed ≤ blkReqMax := by
  have hnodup : (s.published.drop s.consumed).Nodup :=
    h.rings.published_nodup.sublist (List.drop_sublist ..)
  have hle := h.callers.inFlight_le hnodup fun n hn => h.rings.unprocessed hn
  rwa [List.length_drop] at hle

/-! ## Processing the used ring -/

theorem head_mod (i : Slot) : (blkHeadForSlot i).toUInt32 % 3 = 0 := by
  revert i
  decide

theorem head_div (i : Slot) : ((blkHeadForSlot i).toUInt32 / 3).toNat = i.val := by
  revert i
  decide

/-- An entry for a slot in use marks it done. -/
theorem processUsed_eq {b : Blk} {i : Slot} (huse : (b.slots i).inUse = true)
    (hentry : (b.used.ring (ringCell virtqNum b.usedIdx)).id = (blkHeadForSlot i).toUInt32) :
    processUsed b =
      { b with usedIdx := b.usedIdx + 1 }.setSlot i { b.slots i with done := true } := by
  have hi : (⟨((blkHeadForSlot i).toUInt32 / 3).toNat, by rw [head_div]; exact i.isLt⟩ : Slot) = i :=
    Fin.ext (head_div i)
  unfold processUsed
  simp only [hentry]
  rw [if_neg (by rw [head_mod]; decide), dif_pos (by rw [head_div]; exact i.isLt), hi,
    if_neg (by rw [huse]; decide)]

/-- One used entry processed. -/
def BlkSys.processOne (s : BlkSys ι) : BlkSys ι :=
  { s with blk := processUsed s.blk, consumed := s.consumed + 1 }

/-- The request the next entry belongs to. -/
theorem BlkInv.next {disk : UInt32 → Nat → UInt8} {s : BlkSys ι} (h : BlkInv disk s)
    (hlt : s.consumed < s.published.length) :
    ∃ n r, s.published[s.consumed]? = some n ∧ s.InFlight n r ∧
      s.phase r.caller = .waiting r.slot r.sector r.buf n ∧ processUsed s.blk =
        { s.blk with usedIdx := s.blk.usedIdx + 1 }.setSlot r.slot
          { s.blk.slots r.slot with done := true } := by
  have hget : s.published[s.consumed]? = some s.published[s.consumed] :=
    List.getElem?_eq_getElem hlt
  generalize s.published[s.consumed] = n at hget
  have hmem : n ∈ s.published.drop s.consumed := by
    refine List.mem_of_getElem? (i := 0) ?_
    rw [List.getElem?_drop]
    exact hget
  obtain ⟨r, hr⟩ := h.rings.unprocessed hmem
  have hphase := h.callers.inFlight n r hr
  have huse := h.callers.uses r.caller r.slot (by rw [hphase]; rfl)
  have hentry := h.rings.usedRing s.consumed ⟨(s.headOf n).toUInt32, 513⟩ le_rfl
    (by rw [List.getElem?_map, hget]; rfl)
  refine ⟨n, r, hget, hr, hphase, processUsed_eq huse ?_⟩
  rw [h.rings.usedIdx, ringCell_ofNat (by decide), hentry]
  simp only [BlkSys.headOf, BlkSys.slotOf_eq hr.1]

theorem mem_take_succ {l : List Nat} {k n m : Nat} (hn : l[k]? = some n) :
    m ∈ l.take (k + 1) ↔ m ∈ l.take k ∨ m = n := by
  rw [List.take_add_one, hn, Option.toList_some, List.mem_append, List.mem_singleton]

theorem BlkInv.processOne {disk : UInt32 → Nat → UInt8} {s : BlkSys ι} (h : BlkInv disk s)
    (hlt : s.consumed < s.published.length) : BlkInv disk s.processOne := by
  obtain ⟨n, r, hget, hr, hphase, hblk⟩ := h.next hlt
  have hprocessed : s.processOne.blk = { s.blk with usedIdx := s.blk.usedIdx + 1 }.setSlot r.slot
      { s.blk.slots r.slot with done := true } := hblk
  have hself : s.processOne.blk.slots r.slot = { s.blk.slots r.slot with done := true } := by
    rw [hprocessed]
    exact Function.update_self ..
  have hother : ∀ i, i ≠ r.slot → s.processOne.blk.slots i = s.blk.slots i := by
    intro i hi
    rw [hprocessed]
    exact Function.update_of_ne hi ..
  have hslot : ∀ i, (s.processOne.blk.slots i).inUse = (s.blk.slots i).inUse ∧
      (s.processOne.blk.slots i).req = (s.blk.slots i).req ∧
      (s.processOne.blk.slots i).status = (s.blk.slots i).status := by
    intro i
    by_cases hi : i = r.slot
    · subst hi
      rw [hself]
      exact ⟨rfl, rfl, rfl⟩
    · rw [hother i hi]
      exact ⟨rfl, rfl, rfl⟩
  have hdesc : s.processOne.blk.desc = s.blk.desc := by
    rw [hprocessed]
    rfl
  have hmem : s.processOne.blk.mem = s.blk.mem := by
    rw [hprocessed]
    rfl
  -- the caller of the request is the only one that holds its slot
  have howner : ∀ p, (s.phase p).slot = some r.slot → p = r.caller := fun p hp =>
    h.callers.unique p r.caller r.slot hp (by rw [hphase]; rfl)
  refine ⟨?_, ?_, ?_⟩
  · have hr := h.rings
    refine ⟨?_, hr.lastAvail, hr.takenLe, ?_, ?_, ?_, hlt, ?_, hr.tickets, hr.heads⟩
    · rw [hprocessed]
      exact hr.availIdx
    · rw [hprocessed]
      exact hr.availRing
    · rw [hprocessed]
      exact hr.usedNext
    · rw [hprocessed]
      change s.blk.usedIdx + 1 = _
      rw [hr.usedIdx]
      exact counter_succ _
    · rw [hprocessed]
      exact hr.usedRing.pop
  · have hc := h.callers
    refine ⟨?_, hc.unique, hc.posted, ?_, ?_, ?_, ?_, ?_⟩
    · intro p slot hp
      rw [(hslot slot).1]
      exact hc.uses p slot hp
    · intro m t ht
      exact hc.inFlight m t ⟨ht.1, fun hm => ht.2 ((mem_take_succ hget).mpr (Or.inl hm))⟩
    · intro p slot sector buf m hp
      have hp' : s.phase p = .waiting slot sector buf m := hp
      change _ ↔ m ∈ s.published.take (s.consumed + 1)
      rw [mem_take_succ hget]
      by_cases hs : slot = r.slot
      · subst hs
        have hpr := howner p (by rw [hp']; rfl)
        rw [hpr, hphase] at hp'
        injection hp' with _ _ _ hmn
        rw [hself]
        exact ⟨fun _ => Or.inr hmn.symm, fun _ => rfl⟩
      · rw [hother slot hs, hc.done p slot sector buf m hp']
        refine ⟨Or.inl, fun hm => hm.resolve_right fun hmn => hs ?_⟩
        have hpost := hc.posted p slot sector buf m hp'
        rw [hmn, hr.1] at hpost
        exact (congrArg Post.slot (Option.some.inj hpost)).symm
    · intro p slot sector buf hp
      have hs : slot ≠ r.slot := by
        rintro rfl
        have hpr := howner p (by rcases hp with hp | hp <;> exact congrArg Phase.slot hp)
        subst hpr
        rcases hp with hp | hp <;> exact absurd (hphase.symm.trans hp) nofun
      rw [hother slot hs]
      exact hc.fresh p slot sector buf hp
    · intro p slot sector buf hp
      rw [(hslot slot).2.1]
      exact hc.filled p slot sector buf hp
    · intro p slot sector buf m hp
      exact (hc.chain p slot sector buf m hp).frame hdesc (hslot slot).2.1
  · refine ⟨?_, h.data.apart⟩
    intro p slot sector buf m hp hm hstatus halone
    rw [(hslot slot).2.2] at hstatus
    rw [hmem]
    exact h.data.data p slot sector buf m hp hm hstatus halone

theorem BlkInv.processLoop {disk : UInt32 → Nat → UInt8} (left : Nat) {s : BlkSys ι}
    (h : BlkInv disk s) (hleft : s.published.length - s.consumed = left) :
    BlkInv disk { s with
      blk := Drivers.processLoop left s.blk
      consumed := s.published.length } := by
  induction left generalizing s with
  | zero =>
      have hall : s.consumed = s.published.length := by
        have hle := h.rings.consumedLe
        omega
      unfold Drivers.processLoop
      rw [← hall]
      exact h
  | succ left ih =>
      have hlt : s.consumed < s.published.length := by omega
      have hne : s.blk.usedIdx ≠ s.blk.used.idx := by
        intro heq
        rw [h.rings.usedIdx, h.rings.usedNext] at heq
        have hroom : s.published.length - s.consumed ≤ 8 := h.used_room
        have hsame := (counter_inj hlt.le (by omega)).mp heq
        omega
      unfold Drivers.processLoop
      rw [if_neg hne]
      refine ih (h.processOne hlt) ?_
      change s.published.length - (s.consumed + 1) = left
      omega

/-- `blk_process_used_locked` processes every published entry. -/
theorem BlkInv.processed {disk : UInt32 → Nat → UInt8} {s : BlkSys ι} (h : BlkInv disk s) :
    BlkInv disk s.processed := by
  have hroom : s.published.length - s.consumed ≤ 8 := h.used_room
  have hleft : (s.blk.used.idx - s.blk.usedIdx).toNat = s.published.length - s.consumed := by
    rw [h.rings.usedNext, h.rings.usedIdx]
    exact counter_sub h.rings.consumedLe (by omega)
  have hloop := h.processLoop _ rfl
  rw [← hleft] at hloop
  exact hloop

/-! ## Steps that leave the rings alone -/

/-- The parts of the state the rings' invariant reads are the same. -/
structure SameRings (s s' : BlkSys ι) : Prop where
  avail : s'.blk.avail = s.blk.avail
  used : s'.blk.used = s.blk.used
  usedIdx : s'.blk.usedIdx = s.blk.usedIdx
  device : s'.device = s.device
  posts : s'.posts = s.posts
  published : s'.published = s.published
  consumed : s'.consumed = s.consumed

theorem RingInv.frame {s s' : BlkSys ι} (h : RingInv s) (hsame : SameRings s s') : RingInv s' := by
  have hhead : s'.headOf = s.headOf := by
    funext n
    simp only [BlkSys.headOf, BlkSys.slotOf, hsame.posts]
  obtain ⟨havail, hused, husedIdx, hdevice, hposts, hpublished, hconsumed⟩ := hsame
  constructor
  · rw [havail, hposts]
    exact h.availIdx
  · rw [hdevice]
    exact h.lastAvail
  · rw [hdevice, hposts]
    exact h.takenLe
  · rw [havail, hposts, hdevice]
    exact h.availRing
  · rw [hused, hpublished]
    exact h.usedNext
  · rw [husedIdx, hconsumed]
    exact h.usedIdx
  · rw [hconsumed, hpublished]
    exact h.consumedLe
  · rw [hused, hpublished, hhead, hconsumed]
    exact h.usedRing
  · rw [hdevice, hpublished]
    exact h.tickets
  · rw [hdevice, hhead]
    exact h.heads

/-- A step of caller `p` that touches no slot but `i`. -/
structure LocalStep (p : ι) (i : Option Slot) (s s' : BlkSys ι) : Prop where
  phase : ∀ q, q ≠ p → s'.phase q = s.phase q
  owner : ∀ q, q ≠ p → ∀ j, i = some j → (s.phase q).slot ≠ some j
  slots : ∀ j, i ≠ some j → s'.blk.slots j = s.blk.slots j
  chain : ∀ j, i ≠ some j → ∀ sector buf, ChainOk s.blk j sector buf → ChainOk s'.blk j sector buf
  posts : ∀ (n : Nat) (r : Post ι), s.posts[n]? = some r → s'.posts[n]? = some r
  processed : s'.published.take s'.consumed = s.published.take s.consumed
  inFlight : ∀ n r, s'.InFlight n r → r.caller ≠ p ∧ s.InFlight n r ∨
    s'.phase r.caller = .waiting r.slot r.sector r.buf n

/-- What caller `p` must establish about its own new phase. -/
structure SelfOk (p : ι) (i : Option Slot) (s : BlkSys ι) : Prop where
  slot : ∀ j, (s.phase p).slot = some j → i = some j ∧ (s.blk.slots j).inUse = true
  waiting : ∀ slot sector buf n, s.phase p = .waiting slot sector buf n →
    s.posts[n]? = some ⟨p, slot, sector, buf⟩ ∧
      ((s.blk.slots slot).done = true ↔ n ∈ s.published.take s.consumed) ∧
      ChainOk s.blk slot sector buf
  fresh : ∀ slot sector buf, s.phase p = .holding slot sector buf ∨
    s.phase p = .ready slot sector buf → (s.blk.slots slot).done = false
  filled : ∀ slot sector buf, s.phase p = .ready slot sector buf →
    (s.blk.slots slot).req = ⟨virtioBlkTIn, 0, sector⟩

/-- The slot of another caller is not the one touched. -/
theorem LocalStep.slot_ne {p q : ι} {i : Option Slot} {s s' : BlkSys ι} (h : LocalStep p i s s')
    (hq : q ≠ p) {j : Slot} (hj : (s.phase q).slot = some j) : i ≠ some j :=
  fun hi => h.owner q hq j hi hj

theorem CallerInv.local {p : ι} {i : Option Slot} {s s' : BlkSys ι} (hc : CallerInv s)
    (h : LocalStep p i s s') (hself : SelfOk p i s') : CallerInv s' := by
  -- every clause is about `p` itself, or about a caller whose slot is untouched
  have hkeep : ∀ q j, q ≠ p → (s'.phase q).slot = some j →
      (s.phase q).slot = some j ∧ i ≠ some j ∧ s'.blk.slots j = s.blk.slots j := by
    intro q j hq hj
    rw [h.phase q hq] at hj
    exact ⟨hj, h.slot_ne hq hj, h.slots j (h.slot_ne hq hj)⟩
  constructor
  · intro q j hj
    by_cases hq : q = p
    · subst hq
      exact (hself.slot j hj).2
    · obtain ⟨hold, -, heq⟩ := hkeep q j hq hj
      rw [heq]
      exact hc.uses q j hold
  · intro q q' j hj hj'
    by_cases hq : q = p <;> by_cases hq' : q' = p
    · rw [hq, hq']
    · subst hq
      exact absurd (hself.slot j hj).1 (hkeep q' j hq' hj').2.1
    · subst hq'
      exact absurd (hself.slot j hj').1 (hkeep q j hq hj).2.1
    · exact hc.unique q q' j (hkeep q j hq hj).1 (hkeep q' j hq' hj').1
  · intro q slot sector buf n hp
    by_cases hq : q = p
    · subst hq
      exact (hself.waiting slot sector buf n hp).1
    · rw [h.phase q hq] at hp
      exact h.posts n _ (hc.posted q slot sector buf n hp)
  · intro n r hr
    rcases h.inFlight n r hr with ⟨hne, hold⟩ | hphase
    · rw [h.phase r.caller hne]
      exact hc.inFlight n r hold
    · exact hphase
  · intro q slot sector buf n hp
    by_cases hq : q = p
    · subst hq
      exact (hself.waiting slot sector buf n hp).2.1
    · obtain ⟨-, -, heq⟩ := hkeep q slot hq (congrArg Phase.slot hp)
      rw [h.phase q hq] at hp
      rw [heq, h.processed]
      exact hc.done q slot sector buf n hp
  · intro q slot sector buf hp
    by_cases hq : q = p
    · subst hq
      exact hself.fresh slot sector buf hp
    · obtain ⟨-, -, heq⟩ := hkeep q slot hq
        (by rcases hp with hp | hp <;> exact congrArg Phase.slot hp)
      rw [h.phase q hq] at hp
      rw [heq]
      exact hc.fresh q slot sector buf hp
  · intro q slot sector buf hp
    by_cases hq : q = p
    · subst hq
      exact hself.filled slot sector buf hp
    · obtain ⟨-, -, heq⟩ := hkeep q slot hq (congrArg Phase.slot hp)
      rw [h.phase q hq] at hp
      rw [heq]
      exact hc.filled q slot sector buf hp
  · intro q slot sector buf n hp
    by_cases hq : q = p
    · subst hq
      exact (hself.waiting slot sector buf n hp).2.2
    · obtain ⟨-, hne, -⟩ := hkeep q slot hq (congrArg Phase.slot hp)
      rw [h.phase q hq] at hp
      exact h.chain slot hne sector buf (hc.chain q slot sector buf n hp)

/-- A step of a caller that does not wait afterwards, and writes no buffer. -/
theorem DataInv.local {disk : UInt32 → Nat → UInt8} {p : ι} {i : Option Slot} {s s' : BlkSys ι}
    (hd : DataInv disk s) (h : LocalStep p i s s')
    (hidle : ∀ slot sector buf n, s'.phase p ≠ .waiting slot sector buf n)
    (hmem : s'.blk.mem = s.blk.mem) (hserved : s'.device.served = s.device.served)
    (hpub : s'.published = s.published) (halone : s'.alone = s.alone) : DataInv disk s' := by
  have hother : ∀ q slot sector buf n, s'.phase q = .waiting slot sector buf n →
      s.phase q = .waiting slot sector buf n ∧ s'.blk.slots slot = s.blk.slots slot := by
    intro q slot sector buf n hp
    have hq : q ≠ p := by
      rintro rfl
      exact hidle slot sector buf n hp
    rw [h.phase q hq] at hp
    exact ⟨hp, h.slots slot (h.slot_ne hq (by rw [hp]; rfl))⟩
  constructor
  · intro q slot sector buf n hp hn hstatus hal
    obtain ⟨hp', heq⟩ := hother q slot sector buf n hp
    rw [hserved, hpub] at hn
    rw [heq] at hstatus
    rw [halone] at hal
    rw [hmem]
    exact hd.data q slot sector buf n hp' hn hstatus hal
  · intro q q' slot sector buf n slot' sector' buf' n' hne hp hp' hal
    rw [halone] at hal
    exact hd.apart q q' slot sector buf n slot' sector' buf' n' hne
      (hother q slot sector buf n hp).1 (hother q' slot' sector' buf' n' hp').1 hal

/-! ## The steps of a caller -/

/-- A caller that is not waiting has no request in flight. -/
theorem CallerInv.quiet {s : BlkSys ι} (h : CallerInv s) {p : ι}
    (hp : ∀ slot sector buf n, s.phase p ≠ .waiting slot sector buf n) (n : Nat) (r : Post ι)
    (hr : s.InFlight n r) : r.caller ≠ p := by
  rintro rfl
  exact hp _ _ _ _ (h.inFlight n r hr)

/-- Nobody holds a free slot. -/
theorem CallerInv.unheld {s : BlkSys ι} (h : CallerInv s) {slot : Slot}
    (hfree : (s.blk.slots slot).inUse = false) (q : ι) : (s.phase q).slot ≠ some slot := by
  intro hq
  rw [h.uses q slot hq] at hfree
  cases hfree

variable [DecidableEq ι] {disk : UInt32 → Nat → UInt8}

theorem BlkSys.setPhase_self (s : BlkSys ι) (p : ι) (phase : Phase) :
    (s.setPhase p phase).phase p = phase :=
  Function.update_self ..

theorem BlkSys.setPhase_other (s : BlkSys ι) {p q : ι} (phase : Phase) (h : q ≠ p) :
    (s.setPhase p phase).phase q = s.phase q :=
  Function.update_of_ne h ..

/-- The phase of `p` changes, and perhaps its slot; the history stays. -/
theorem LocalStep.of_setPhase {p : ι} {i : Option Slot} {s : BlkSys ι} {b : Blk} (phase : Phase)
    (howner : ∀ q, q ≠ p → ∀ j, i = some j → (s.phase q).slot ≠ some j)
    (hslots : ∀ j, i ≠ some j → b.slots j = s.blk.slots j) (hdesc : b.desc = s.blk.desc)
    (hquiet : ∀ n r, s.InFlight n r → r.caller ≠ p) :
    LocalStep p i s ({ s with blk := b }.setPhase p phase) where
  phase _ hq := BlkSys.setPhase_other _ _ hq
  owner := howner
  slots := hslots
  chain j hj _ _ h := h.frame hdesc (congrArg BlkSlot.req (hslots j hj))
  posts _ _ hr := hr
  processed := rfl
  inFlight n r hr := Or.inl ⟨hquiet n r hr, hr⟩

theorem BlkInv.call {s : BlkSys ι} (h : BlkInv disk s) {p : ι} (hp : s.phase p = .idle)
    (sector : UInt32) (buf : Nat) : BlkInv disk (s.setPhase p (.wanting sector buf)) := by
  have hlocal : LocalStep p none s (s.setPhase p (.wanting sector buf)) :=
    .of_setPhase _ nofun (fun _ _ => rfl) rfl (h.callers.quiet (by rw [hp]; exact nofun))
  refine ⟨h.rings.frame ⟨rfl, rfl, rfl, rfl, rfl, rfl, rfl⟩, h.callers.local hlocal ?_,
    h.data.local hlocal ?_ rfl rfl rfl rfl⟩
  · constructor <;> rw [BlkSys.setPhase_self] <;> simp [Phase.slot]
  · rw [BlkSys.setPhase_self]
    exact nofun

/-- The slot that is taken is free, and so nobody holds it. -/
theorem blkTakeSlot_some {b b' : Blk} {slot : Slot} (h : blkTakeSlot b = (some slot, b')) :
    ((blkProcessUsedLocked b).slots slot).inUse = false ∧
      b' = (blkProcessUsedLocked b).setSlot slot
        { (blkProcessUsedLocked b).slots slot with inUse := true, done := false, status := 0xff } := by
  unfold blkTakeSlot at h
  dsimp only at h
  split at h
  · cases h
  · rename_i i hfind
    have hi := List.find?_some hfind
    cases h
    exact ⟨by simpa using hi, rfl⟩

theorem blkTakeSlot_none {b b' : Blk} (h : blkTakeSlot b = (none, b')) :
    b' = blkProcessUsedLocked b := by
  unfold blkTakeSlot at h
  dsimp only at h
  split at h
  · cases h
    rfl
  · cases h

theorem BlkInv.takeSlot {s : BlkSys ι} (h : BlkInv disk s) {p : ι} {sector : UInt32} {buf : Nat}
    {slot : Slot} (hp : s.phase p = .wanting sector buf)
    (hfree : (s.blk.slots slot).inUse = false) :
    BlkInv disk ({ s with
      blk := s.blk.setSlot slot
        { s.blk.slots slot with inUse := true, done := false, status := 0xff } }.setPhase p
          (.holding slot sector buf)) := by
  have hlocal := LocalStep.of_setPhase (p := p) (i := some slot) (s := s)
    (b := s.blk.setSlot slot { s.blk.slots slot with inUse := true, done := false, status := 0xff })
    (.holding slot sector buf)
    (fun q _ j hj => by cases hj; exact h.callers.unheld hfree q)
    (fun j hj => Function.update_of_ne (fun heq => hj (congrArg some heq.symm)) ..) rfl
    (h.callers.quiet (by rw [hp]; exact nofun))
  have hself : (s.blk.setSlot slot { s.blk.slots slot with
      inUse := true, done := false, status := 0xff }).slots slot =
        { s.blk.slots slot with inUse := true, done := false, status := 0xff } :=
    Function.update_self ..
  refine ⟨h.rings.frame ⟨rfl, rfl, rfl, rfl, rfl, rfl, rfl⟩, h.callers.local hlocal ?_,
    h.data.local hlocal ?_ rfl rfl rfl rfl⟩
  · constructor <;> rw [BlkSys.setPhase_self]
    · intro j hj
      cases hj
      exact ⟨rfl, congrArg BlkSlot.inUse hself⟩
    · exact nofun
    · intro slot' sector' buf' hphase
      rcases hphase with hphase | hphase
      · cases hphase
        exact congrArg BlkSlot.done hself
      · cases hphase
    · exact nofun
  · rw [BlkSys.setPhase_self]
    exact nofun

theorem BlkInv.fill {s : BlkSys ι} (h : BlkInv disk s) {p : ι} {sector : UInt32} {buf : Nat}
    {slot : Slot} (hp : s.phase p = .holding slot sector buf) :
    BlkInv disk ({ s with blk := blkFillRequest slot sector s.blk }.setPhase p
      (.ready slot sector buf)) := by
  have hslot : (s.phase p).slot = some slot := by rw [hp]; rfl
  have hlocal := LocalStep.of_setPhase (p := p) (i := some slot) (s := s)
    (b := blkFillRequest slot sector s.blk) (.ready slot sector buf)
    (fun q hq j hj hqj => by cases hj; exact hq (h.callers.unique q p slot hqj hslot))
    (fun j hj => Function.update_of_ne (fun heq => hj (congrArg some heq.symm)) ..) rfl
    (h.callers.quiet (by rw [hp]; exact nofun))
  have hself : (blkFillRequest slot sector s.blk).slots slot =
      { s.blk.slots slot with req := ⟨virtioBlkTIn, 0, sector⟩ } := Function.update_self ..
  refine ⟨h.rings.frame ⟨rfl, rfl, rfl, rfl, rfl, rfl, rfl⟩, h.callers.local hlocal ?_,
    h.data.local hlocal ?_ rfl rfl rfl rfl⟩
  · constructor <;> rw [BlkSys.setPhase_self]
    · intro j hj
      cases hj
      exact ⟨rfl, (congrArg BlkSlot.inUse hself).trans (h.callers.uses p slot hslot)⟩
    · exact nofun
    · intro slot' sector' buf' hphase
      rcases hphase with hphase | hphase
      · cases hphase
      · cases hphase
        exact (congrArg BlkSlot.done hself).trans (h.callers.fresh p _ _ _ (Or.inl hp))
    · intro slot' sector' buf' hphase
      cases hphase
      exact congrArg BlkSlot.req hself
  · rw [BlkSys.setPhase_self]
    exact nofun

theorem BlkInv.finish {s : BlkSys ι} (h : BlkInv disk s) {p : ι} {slot : Slot} {sector : UInt32}
    {buf n : Nat} (hp : s.phase p = .waiting slot sector buf n)
    (hdone : (s.blk.slots slot).done = true) :
    BlkInv disk ({ s with
      blk := s.blk.setSlot slot { s.blk.slots slot with done := false, inUse := false } }.setPhase p
        .idle) := by
  have hslot : (s.phase p).slot = some slot := by rw [hp]; rfl
  have hn := (h.callers.done p slot sector buf n hp).mp hdone
  have hlocal := LocalStep.of_setPhase (p := p) (i := some slot) (s := s)
    (b := s.blk.setSlot slot { s.blk.slots slot with done := false, inUse := false })
    .idle
    (fun q hq j hj hqj => by cases hj; exact hq (h.callers.unique q p slot hqj hslot))
    (fun j hj => Function.update_of_ne (fun heq => hj (congrArg some heq.symm)) ..) rfl
    (fun m r hr hcaller => by
      -- the only request of `p` has been processed
      have hm := h.callers.inFlight m r hr
      rw [hcaller, hp] at hm
      injection hm with _ _ _ hnm
      exact hr.2 (hnm ▸ hn))
  refine ⟨h.rings.frame ⟨rfl, rfl, rfl, rfl, rfl, rfl, rfl⟩, h.callers.local hlocal ?_,
    h.data.local hlocal ?_ rfl rfl rfl rfl⟩
  · constructor <;> rw [BlkSys.setPhase_self] <;> simp [Phase.slot]
  · rw [BlkSys.setPhase_self]
    exact nofun

theorem disjointBufs_symm {buf buf' : Nat} (h : disjointBufs buf buf') : disjointBufs buf' buf :=
  h.symm

/-- The state after a post. -/
def BlkSys.posted (s : BlkSys ι) (p : ι) (slot : Slot) (sector : UInt32) (buf : Nat) : BlkSys ι :=
  { s with
    blk := blkPost slot buf s.blk
    posts := s.posts ++ [⟨p, slot, sector, buf⟩]
    alone := s.postAlone p buf }

/-- A ticket that has been taken keeps its slot. -/
theorem RingInv.slotOf_posted {s : BlkSys ι} (h : RingInv s) {n : Nat} (hn : n < s.device.taken)
    (p : ι) (slot : Slot) (sector : UInt32) (buf : Nat) :
    (s.posted p slot sector buf).headOf n = s.headOf n := by
  unfold BlkSys.headOf BlkSys.slotOf BlkSys.posted
  rw [List.getElem?_append_left (hn.trans_le h.takenLe)]

theorem BlkInv.posted_rings {s : BlkSys ι} (h : BlkInv disk s) (p : ι) (slot : Slot)
    (sector : UInt32) (buf : Nat) (phase : Phase) :
    RingInv ((s.posted p slot sector buf).setPhase p phase) := by
  have hr := h.rings
  have hroom : s.posts.length - s.device.taken ≤ 8 := h.avail_room
  have hlt : ∀ n, n ∈ s.device.pending.map Chain.ticket ∨ n ∈ s.device.served.map Chain.ticket ∨
      n ∈ s.published → n < s.device.taken := fun n => hr.mem_range.mpr
  refine ⟨?_, hr.lastAvail, ?_, ?_, hr.usedNext, hr.usedIdx, hr.consumedLe, ?_, hr.tickets, ?_⟩
  · change s.blk.avail.idx + 1 = .ofNat (s.posts ++ [_]).length
    rw [hr.availIdx, counter_succ, List.length_append]
    rfl
  · change s.device.taken ≤ (s.posts ++ [_]).length
    rw [List.length_append]
    exact hr.takenLe.trans (Nat.le_add_right _ _)
  · change Holds (Function.update s.blk.avail.ring (ringCell virtqNum s.blk.avail.idx) _)
      ((s.posts ++ [_]).map _) _
    rw [hr.availIdx, ringCell_ofNat (by decide), List.map_append]
    have hlength : s.posts.length < s.device.taken + 32 := by omega
    have hpush := hr.availRing.push (by rw [List.length_map]; exact hlength) (blkHeadForSlot slot)
    rw [List.length_map] at hpush
    exact hpush
  · have hmap : (s.published.map fun n =>
        (⟨((s.posted p slot sector buf).headOf n).toUInt32, 513⟩ : VirtqUsedElem)) =
          s.published.map fun n => ⟨(s.headOf n).toUInt32, 513⟩ := by
      refine List.map_congr_left fun n hn => ?_
      rw [hr.slotOf_posted (hlt n (Or.inr (Or.inr hn)))]
    change Holds s.blk.used.ring (s.published.map fun n =>
      (⟨((s.posted p slot sector buf).headOf n).toUInt32, 513⟩ : VirtqUsedElem)) s.consumed
    rw [hmap]
    exact hr.usedRing
  · intro c hc
    refine (hr.heads c hc).trans (hr.slotOf_posted (hlt _ ?_) p slot sector buf).symm
    rcases hc with hc | hc
    · exact Or.inl (List.mem_map_of_mem hc)
    · exact Or.inr (Or.inl (List.mem_map_of_mem hc))

theorem BlkInv.post {s : BlkSys ι} (h : BlkInv disk s) {p : ι} {slot : Slot} {sector : UInt32}
    {buf : Nat} (hp : s.phase p = .ready slot sector buf) :
    BlkInv disk ((s.posted p slot sector buf).setPhase p
      (.waiting slot sector buf s.posts.length)) := by
  have hslot : (s.phase p).slot = some slot := by rw [hp]; rfl
  have hquiet := h.callers.quiet (p := p) (by rw [hp]; exact nofun)
  have hnew : s.posts.length ∉ s.published := fun hmem =>
    absurd (h.rings.mem_range.mpr (Or.inr (Or.inr hmem))) (not_lt.mpr h.rings.takenLe)
  have hnewServed : s.posts.length ∉ s.device.served.map Chain.ticket := fun hmem =>
    absurd (h.rings.mem_range.mpr (Or.inr (Or.inl hmem))) (not_lt.mpr h.rings.takenLe)
  have hlast : (s.posts ++ [(⟨p, slot, sector, buf⟩ : Post ι)])[s.posts.length]? =
      some ⟨p, slot, sector, buf⟩ := List.getElem?_concat_length
  have hlocal : LocalStep p (some slot) s ((s.posted p slot sector buf).setPhase p
      (.waiting slot sector buf s.posts.length)) := by
    refine ⟨fun q hq => BlkSys.setPhase_other _ _ hq, fun q hq j hj hqj => ?_, fun j _ => rfl,
      fun j hj sector' buf' hchain => ?_, fun n r hr => ?_, rfl, fun n r hr => ?_⟩
    · cases hj
      exact hq (h.callers.unique q p slot hqj hslot)
    · exact hchain.blkPost fun heq => hj (congrArg some heq.symm)
    · exact (List.getElem?_append_left (List.getElem?_eq_some_iff.mp hr).1).trans hr
    · obtain ⟨hget, hnot⟩ := hr
      change (s.posts ++ [_])[n]? = some r at hget
      rcases Nat.lt_trichotomy n s.posts.length with hlt | rfl | hgt
      · rw [List.getElem?_append_left hlt] at hget
        exact Or.inl ⟨hquiet n r ⟨hget, hnot⟩, hget, hnot⟩
      · rw [hlast] at hget
        cases hget
        exact Or.inr (BlkSys.setPhase_self ..)
      · rw [List.getElem?_eq_none (by simp; omega)] at hget
        cases hget
  refine ⟨h.posted_rings p slot sector buf _, h.callers.local hlocal ?_, ?_⟩
  · constructor <;> rw [BlkSys.setPhase_self]
    · intro j hj
      cases hj
      exact ⟨rfl, h.callers.uses p slot hslot⟩
    · intro slot' sector' buf' n hphase
      cases hphase
      refine ⟨hlast, ?_, blkPost_chain (h.callers.filled p slot sector buf hp)⟩
      have hfresh := h.callers.fresh p slot sector buf (Or.inr hp)
      refine ⟨fun hdone => ?_, fun hmem => absurd (List.mem_of_mem_take hmem) hnew⟩
      have hdone' : (s.blk.slots slot).done = true := hdone
      rw [hfresh] at hdone'
      cases hdone'
    · intro slot' sector' buf' hphase
      rcases hphase with hphase | hphase <;> cases hphase
    · intro _ _ _ hphase
      cases hphase
  · -- the new request is not served, and the buffers of the others are not written
    have hother : ∀ q, q ≠ p → ((s.posted p slot sector buf).setPhase p
        (.waiting slot sector buf s.posts.length)).phase q = s.phase q :=
      fun q hq => BlkSys.setPhase_other _ _ hq
    constructor
    · intro q slot' sector' buf' n hq hn hstatus hal
      by_cases hqp : q = p
      · subst hqp
        rw [BlkSys.setPhase_self] at hq
        cases hq
        rcases hn with hn | hn
        · exact absurd hn hnewServed
        · exact absurd hn hnew
      · rw [hother q hqp] at hq
        have hal' : s.postAlone p buf q := hal
        rw [BlkSys.postAlone, if_neg hqp] at hal'
        exact h.data.data q slot' sector' buf' n hq hn hstatus hal'.1
    · intro q q' slot₁ sector₁ buf₁ n₁ slot₂ sector₂ buf₂ n₂ hne hq hq' hal
      have hal' : s.postAlone p buf q := hal
      by_cases hqp : q = p
      · subst hqp
        rw [BlkSys.setPhase_self] at hq
        cases hq
        rw [hother q' (Ne.symm hne)] at hq'
        rw [BlkSys.postAlone, if_pos rfl] at hal'
        exact hal' q' slot₂ sector₂ buf₂ n₂ (Ne.symm hne) hq'
      · rw [hother q hqp] at hq
        rw [BlkSys.postAlone, if_neg hqp] at hal'
        by_cases hqp' : q' = p
        · subst hqp'
          rw [BlkSys.setPhase_self] at hq'
          cases hq'
          exact disjointBufs_symm (hal'.2 slot₁ sector₁ buf₁ n₁ hq)
        · rw [hother q' hqp'] at hq'
          exact h.data.apart q q' slot₁ sector₁ buf₁ n₁ slot₂ sector₂ buf₂ n₂ hne hq hq' hal'.1

/-! ## The steps of the device -/

omit [DecidableEq ι] in
/-- A step of the device leaves the callers' side alone. -/
theorem CallerInv.frame {s s' : BlkSys ι} (h : CallerInv s) (hphase : s'.phase = s.phase)
    (hposts : s'.posts = s.posts)
    (hprocessed : s'.published.take s'.consumed = s.published.take s.consumed)
    (hdesc : s'.blk.desc = s.blk.desc)
    (hslots : ∀ j, (s'.blk.slots j).inUse = (s.blk.slots j).inUse ∧
      (s'.blk.slots j).done = (s.blk.slots j).done ∧
      (s'.blk.slots j).req = (s.blk.slots j).req) : CallerInv s' := by
  constructor
  · intro p slot hp
    rw [hphase] at hp
    rw [(hslots slot).1]
    exact h.uses p slot hp
  · rw [hphase]
    exact h.unique
  · rw [hphase, hposts]
    exact h.posted
  · intro n r hr
    unfold BlkSys.InFlight at hr
    rw [hposts, hprocessed] at hr
    rw [hphase]
    exact h.inFlight n r hr
  · intro p slot sector buf n hp
    rw [hphase] at hp
    rw [(hslots slot).2.1, hprocessed]
    exact h.done p slot sector buf n hp
  · intro p slot sector buf hp
    rw [hphase] at hp
    rw [(hslots slot).2.1]
    exact h.fresh p slot sector buf hp
  · intro p slot sector buf hp
    rw [hphase] at hp
    rw [(hslots slot).2.2]
    exact h.filled p slot sector buf hp
  · intro p slot sector buf n hp
    rw [hphase] at hp
    exact (h.chain p slot sector buf n hp).frame hdesc (hslots slot).2.2

omit [DecidableEq ι] in
theorem BlkInv.devTake {s : BlkSys ι} (h : BlkInv disk s)
    (hne : s.device.lastAvail ≠ s.blk.avail.idx) :
    BlkInv disk { s with
      device := { s.device with
        lastAvail := s.device.lastAvail + 1
        taken := s.device.taken + 1
        pending := ⟨s.device.taken, s.blk.avail.ring (ringCell virtqNum s.device.lastAvail)⟩ ::
          s.device.pending } } := by
  have hr := h.rings
  have hlt : s.device.taken < s.posts.length := by
    refine lt_of_le_of_ne hr.takenLe fun heq => hne ?_
    rw [hr.lastAvail, hr.availIdx, heq]
  have hget : s.posts[s.device.taken]? = some s.posts[s.device.taken] :=
    List.getElem?_eq_getElem hlt
  refine ⟨?_, h.callers.frame rfl rfl rfl rfl fun _ => ⟨rfl, rfl, rfl⟩, h.data.data, h.data.apart⟩
  refine ⟨hr.availIdx, ?_, hlt, hr.availRing.pop, hr.usedNext, hr.usedIdx, hr.consumedLe,
    hr.usedRing, ?_, ?_⟩
  · change s.device.lastAvail + 1 = _
    rw [hr.lastAvail]
    exact counter_succ _
  · change (s.device.taken :: s.device.pending.map Chain.ticket ++ _ ++ _).Perm
      (List.range (s.device.taken + 1))
    rw [List.range_succ, List.cons_append, List.cons_append]
    exact (hr.tickets.cons _).trans (List.perm_append_singleton _ _).symm
  · intro c hc
    rcases hc with hc | hc
    · rcases List.mem_cons.mp hc with rfl | hc
      · change s.blk.avail.ring (ringCell virtqNum s.device.lastAvail) = s.headOf s.device.taken
        rw [hr.lastAvail, ringCell_ofNat (by decide)]
        refine hr.availRing s.device.taken _ le_rfl ?_
        rw [List.getElem?_map, hget, Option.map_some, BlkSys.headOf, BlkSys.slotOf_eq hget]
      · exact hr.heads c (Or.inl hc)
    · exact hr.heads c (Or.inr hc)

omit [DecidableEq ι] in
/-- The request of a chain that the device has taken and not served. -/
theorem BlkInv.pending {s : BlkSys ι} (h : BlkInv disk s) {c : Chain}
    (hc : c ∈ s.device.pending) :
    ∃ r, s.posts[c.ticket]? = some r ∧ s.phase r.caller = .waiting r.slot r.sector r.buf c.ticket ∧
      c.head = blkHeadForSlot r.slot ∧ ChainOk s.blk r.slot r.sector r.buf := by
  have hmem : c.ticket ∈ s.device.pending.map Chain.ticket := List.mem_map_of_mem hc
  obtain ⟨r, hr⟩ := h.rings.posts_some (h.rings.mem_range.mpr (Or.inl hmem))
  have hunpublished : c.ticket ∉ s.published := fun hpub =>
    (List.nodup_append.mp h.rings.tickets_nodup).2.2 _ (List.mem_append_left _ hmem) _ hpub rfl
  have hphase := h.callers.inFlight c.ticket r
    ⟨hr, fun htake => hunpublished (List.mem_of_mem_take htake)⟩
  refine ⟨r, hr, hphase, ?_, h.callers.chain r.caller r.slot r.sector r.buf c.ticket hphase⟩
  rw [h.rings.heads c (Or.inl hc), BlkSys.headOf, BlkSys.slotOf_eq hr]

omit [DecidableEq ι] in
/-- Serving a chain writes the buffer and the status of its own request. -/
theorem BlkInv.serve_eq {s : BlkSys ι} (h : BlkInv disk s) {c : Chain}
    (hc : c ∈ s.device.pending) {status : UInt8} {data : Nat → UInt8} {b : Blk}
    (hserve : s.blk.serve disk c.head status data = some b) :
    ∃ r : Post ι, s.phase r.caller = .waiting r.slot r.sector r.buf c.ticket ∧
      b = s.blk.complete r.slot r.buf status (if status = 0 then disk r.sector else data) := by
  obtain ⟨r, -, hphase, hhead, hchain⟩ := h.pending hc
  unfold Blk.serve at hserve
  rw [hhead, hchain.deviceChain] at hserve
  refine ⟨r, hphase, ?_⟩
  simp only [hchain.req, Option.some.injEq] at hserve
  exact hserve.symm

theorem writeBuf_inside (mem data : Nat → UInt8) (buf : Nat) {i : Nat} (hi : i < 512) :
    writeBuf mem buf data (buf + i) = data i := by
  unfold writeBuf
  rw [if_pos (by omega), Nat.add_sub_cancel_left]

theorem writeBuf_outside (mem data : Nat → UInt8) {buf buf' : Nat} (h : disjointBufs buf' buf)
    {i : Nat} (hi : i < 512) : writeBuf mem buf data (buf' + i) = mem (buf' + i) := by
  unfold writeBuf
  unfold disjointBufs at h
  rw [if_neg (by omega)]

theorem mem_tickets_cons {c : Chain} {cs : List Chain} {n : Nat} :
    n ∈ (c :: cs).map Chain.ticket ↔ n = c.ticket ∨ n ∈ cs.map Chain.ticket := by
  rw [List.map_cons, List.mem_cons]

omit [DecidableEq ι] in
theorem BlkInv.devServe {s : BlkSys ι} (h : BlkInv disk s) {c : Chain}
    (hc : c ∈ s.device.pending) {status : UInt8} {data : Nat → UInt8} {b : Blk}
    (hserve : s.blk.serve disk c.head status data = some b) :
    BlkInv disk { s with
      blk := b
      device := { s.device with
        pending := s.device.pending.erase c
        served := c :: s.device.served } } := by
  obtain ⟨r, hphase, rfl⟩ := h.serve_eq hc hserve
  have hr := h.rings
  generalize hdata : (if status = 0 then disk r.sector else data) = bytes
  have hself : (s.blk.complete r.slot r.buf status bytes).slots r.slot =
      { s.blk.slots r.slot with status := status } := Function.update_self ..
  have hother : ∀ j, j ≠ r.slot →
      (s.blk.complete r.slot r.buf status bytes).slots j = s.blk.slots j :=
    fun _ hj => Function.update_of_ne hj ..
  refine ⟨?_, h.callers.frame rfl rfl rfl rfl fun j => ?_, ?_⟩
  · refine ⟨hr.availIdx, hr.lastAvail, hr.takenLe, hr.availRing, hr.usedNext, hr.usedIdx,
      hr.consumedLe, hr.usedRing, ?_, fun d hd => ?_⟩
    · have hmove : ((s.device.pending.erase c).map Chain.ticket ++
          (c :: s.device.served).map Chain.ticket).Perm
            (s.device.pending.map Chain.ticket ++ s.device.served.map Chain.ticket) := by
        rw [List.map_cons]
        refine List.perm_middle.trans ?_
        exact ((List.perm_cons_erase hc).map Chain.ticket).symm.append_right _
      exact (hmove.append_right _).trans hr.tickets
    · rcases hd with hd | hd
      · exact hr.heads d (Or.inl (List.mem_of_mem_erase hd))
      · rcases List.mem_cons.mp hd with rfl | hd
        · exact hr.heads d (Or.inl hc)
        · exact hr.heads d (Or.inr hd)
  · by_cases hj : j = r.slot
    · subst hj
      rw [hself]
      exact ⟨rfl, rfl, rfl⟩
    · rw [hother j hj]
      exact ⟨rfl, rfl, rfl⟩
  · refine ⟨?_, h.data.apart⟩
    intro q slot sector buf n hq hn hstatus hal i hi
    change writeBuf s.blk.mem r.buf _ (buf + i) = _
    by_cases hqr : q = r.caller
    · -- the request just served
      subst hqr
      have hq' : s.phase r.caller = .waiting slot sector buf n := hq
      rw [hphase] at hq'
      injection hq' with hslot hsector hbuf hticket
      subst hslot hsector hbuf
      have hzero : status = 0 := (congrArg BlkSlot.status hself).symm.trans hstatus
      rw [if_pos hzero] at hdata
      rw [writeBuf_inside _ _ _ hi, hdata]
    · have hslot : slot ≠ r.slot := by
        rintro rfl
        exact hqr (h.callers.unique q r.caller r.slot (congrArg Phase.slot hq)
          (congrArg Phase.slot hphase))
      have hticket : n ≠ c.ticket := by
        rintro rfl
        have hpost := h.callers.posted q slot sector buf _ hq
        rw [h.callers.posted _ _ _ _ _ hphase] at hpost
        exact hqr (congrArg Post.caller (Option.some.inj hpost)).symm
      have hn' : n ∈ s.device.served.map Chain.ticket ∨ n ∈ s.published :=
        hn.imp_left fun hmem => (mem_tickets_cons.mp hmem).resolve_left hticket
      have hstatus' : (s.blk.slots slot).status = 0 :=
        (congrArg BlkSlot.status (hother slot hslot)).symm.trans hstatus
      have hapart := h.data.apart q r.caller slot sector buf n r.slot r.sector r.buf c.ticket hqr
        hq hphase hal
      rw [writeBuf_outside _ _ hapart hi]
      exact h.data.data q slot sector buf n hq hn' hstatus' hal i hi

omit [DecidableEq ι] in
theorem BlkInv.devPublish {s : BlkSys ι} (h : BlkInv disk s) {c : Chain}
    (hc : c ∈ s.device.served) :
    BlkInv disk { s with
      blk := s.blk.publish c.head
      device := { s.device with served := s.device.served.erase c }
      published := s.published ++ [c.ticket] } := by
  have hr := h.rings
  have hroom : s.published.length - s.consumed ≤ 8 := h.used_room
  have hhead := hr.heads c (Or.inr hc)
  refine ⟨?_, h.callers.frame rfl rfl (List.take_append_of_le_length hr.consumedLe) rfl
    fun _ => ⟨rfl, rfl, rfl⟩, ?_, h.data.apart⟩
  · refine ⟨hr.availIdx, hr.lastAvail, hr.takenLe, hr.availRing, ?_, hr.usedIdx, ?_, ?_, ?_,
      fun d hd => hr.heads d (hd.imp_right List.mem_of_mem_erase)⟩
    · change s.blk.used.idx + 1 = .ofNat (s.published ++ [_]).length
      rw [hr.usedNext, counter_succ, List.length_append]
      rfl
    · change s.consumed ≤ (s.published ++ [_]).length
      rw [List.length_append]
      exact hr.consumedLe.trans (Nat.le_add_right _ _)
    · change Holds (Function.update s.blk.used.ring (ringCell virtqNum s.blk.used.idx) _)
        ((s.published ++ [_]).map _) _
      have hlength : s.published.length < s.consumed + 32 := by omega
      have hpush := hr.usedRing.push (by rw [List.length_map]; exact hlength)
        ⟨(s.headOf c.ticket).toUInt32, 513⟩
      rw [List.length_map] at hpush
      rw [hr.usedNext, ringCell_ofNat (by decide), List.map_append, hhead]
      exact hpush
    · have hmove : (s.device.pending.map Chain.ticket ++ (s.device.served.erase c).map Chain.ticket ++
          (s.published ++ [c.ticket])).Perm (s.device.pending.map Chain.ticket ++
            s.device.served.map Chain.ticket ++ s.published) := by
        have hserved := (List.perm_cons_erase hc).map Chain.ticket
        rw [List.map_cons] at hserved
        rw [← List.append_assoc]
        refine (List.perm_append_singleton _ _).trans ?_
        rw [← List.cons_append]
        refine List.Perm.append_right _ ?_
        exact List.perm_middle.symm.trans (hserved.symm.append_left _)
      exact hmove.trans hr.tickets
  · intro q slot sector buf n hq hn hstatus hal
    refine h.data.data q slot sector buf n hq ?_ hstatus hal
    rcases hn with hn | hn
    · exact Or.inl (List.map_subset _ (List.erase_subset ..) hn)
    · rcases List.mem_append.mp hn with hn | hn
      · exact Or.inr hn
      · rw [List.mem_singleton.mp hn]
        exact Or.inl (List.mem_map_of_mem hc)

/-! ## Runs -/

omit [DecidableEq ι] in
theorem BlkInv.init (mem : Nat → UInt8) : BlkInv disk (.init ι mem) := by
  refine ⟨⟨rfl, rfl, le_rfl, .nil _ _, rfl, rfl, le_rfl, .nil _ _, .refl _, ?_⟩, ?_, ?_⟩
  · rintro c (hc | hc) <;> cases hc
  · constructor
    · exact nofun
    · exact nofun
    · exact nofun
    · exact fun n r hr => by cases hr.1
    · exact nofun
    · rintro p slot sector buf (hp | hp) <;> cases hp
    · exact nofun
    · exact nofun
  · exact ⟨nofun, nofun⟩

theorem BlkInv.step {s s' : BlkSys ι} (h : BlkInv disk s) (op : BlkOp ι)
    (hstep : blkStep disk op s = some s') : BlkInv disk s' := by
  cases op with
  | call p sector buf =>
      simp only [blkStep] at hstep
      split at hstep
      · rename_i hp
        split at hstep
        · cases hstep
          exact h
        · cases hstep
          exact h.call hp sector buf
      · cases hstep
  | takeSlot p =>
      simp only [blkStep] at hstep
      split at hstep
      · rename_i sector buf hp
        split at hstep
        · rename_i b htake
          cases hstep
          rw [blkTakeSlot_none htake]
          exact h.processed
        · rename_i slot b htake
          cases hstep
          obtain ⟨hfree, rfl⟩ := blkTakeSlot_some htake
          exact h.processed.takeSlot hp hfree
      · cases hstep
  | fill p =>
      simp only [blkStep] at hstep
      split at hstep
      · rename_i slot sector buf hp
        cases hstep
        exact h.fill hp
      · cases hstep
  | post p =>
      simp only [blkStep] at hstep
      split at hstep
      · rename_i slot sector buf hp
        cases hstep
        exact h.post hp
      · cases hstep
  | check p =>
      simp only [blkStep] at hstep
      split at hstep
      · rename_i slot sector buf n hp
        unfold blkCheckDone at hstep
        dsimp only at hstep
        by_cases hdone : ((blkProcessUsedLocked s.blk).slots slot).done = true
        · rw [if_pos hdone] at hstep
          cases hstep
          exact h.processed.finish hp hdone
        · rw [if_neg hdone] at hstep
          cases hstep
          exact h.processed
      · cases hstep
  | irq =>
      cases hstep
      exact h.processed
  | devTake =>
      simp only [blkStep] at hstep
      split at hstep
      · cases hstep
      · rename_i hne
        cases hstep
        exact h.devTake hne
  | devServe c status data =>
      simp only [blkStep] at hstep
      split at hstep
      · rename_i hc
        split at hstep
        · cases hstep
        · rename_i b hserve
          cases hstep
          exact h.devServe hc hserve
      · cases hstep
  | devPublish c =>
      simp only [blkStep] at hstep
      split at hstep
      · rename_i hc
        cases hstep
        exact h.devPublish hc
      · cases hstep

theorem BlkReachable.inv {s : BlkSys ι} (h : BlkReachable disk s) : BlkInv disk s := by
  induction h with
  | init mem => exact .init mem
  | step op _ hstep ih => exact ih.step op hstep

/-! ## Reads do not cross -/

/-- Block reads by different callers never cross. -/
structure NeverCross (disk : UInt32 → Nat → UInt8) (s : BlkSys ι) : Prop where
  /-- A read that returns 0 has had its own request completed, and its buffer holds
  the sector unless a concurrent request named some of its bytes. -/
  returns : ∀ p slot sector buf n b, s.phase p = .waiting slot sector buf n →
    blkCheckDone slot s.blk = (some true, b) →
    s.posts[n]? = some ⟨p, slot, sector, buf⟩ ∧ n ∈ s.published ∧
      (s.alone p → ∀ i < 512, b.mem (buf + i) = disk sector i)
  /-- A slot is taken, and its descriptors are written, only while no request on it is
  outstanding. -/
  takes : ∀ slot b, blkTakeSlot s.blk = (some slot, b) → ∀ n, s.Outstanding n → s.slotOf n ≠ slot
  posts : ∀ p slot sector buf, s.phase p = .ready slot sector buf →
    ∀ n, s.Outstanding n → s.slotOf n ≠ slot
  /-- At most `BLK_REQ_MAX` requests are in flight, and every entry that has not been
  consumed is still in its ring. -/
  room : ∀ ns : List Nat, ns.Nodup → (∀ n ∈ ns, s.Outstanding n) → ns.length ≤ blkReqMax
  avail : s.posts.length - s.device.taken ≤ blkReqMax ∧
    Holds s.blk.avail.ring (s.posts.map fun r => blkHeadForSlot r.slot) s.device.taken
  used : s.published.length - s.consumed ≤ blkReqMax ∧
    Holds s.blk.used.ring (s.published.map fun n => ⟨(s.headOf n).toUInt32, 513⟩) s.consumed
  /-- Processing the used ring marks exactly the requests that the device has
  completed. -/
  credit : ∀ p slot sector buf n, s.phase p = .waiting slot sector buf n →
    (((blkProcessUsedLocked s.blk).slots slot).done = true ↔ n ∈ s.published)

/-- A check that finds the request done. -/
theorem blkCheckDone_some {b b' : Blk} {slot : Slot} {ok : Bool}
    (h : blkCheckDone slot b = (some ok, b')) :
    ((blkProcessUsedLocked b).slots slot).done = true ∧
      ok = decide (((blkProcessUsedLocked b).slots slot).status = 0) ∧
      b'.mem = (blkProcessUsedLocked b).mem := by
  unfold blkCheckDone at h
  dsimp only at h
  split at h
  · rename_i hdone
    cases h
    exact ⟨hdone, rfl, rfl⟩
  · cases h

omit [DecidableEq ι] in
/-- An outstanding request is in flight. -/
theorem BlkSys.Outstanding.inFlight {s : BlkSys ι} {n : Nat} (h : s.Outstanding n) :
    s.InFlight n (s.posts.get ⟨n, h.1⟩) :=
  ⟨List.getElem?_eq_getElem h.1, fun hmem => h.2 (List.mem_of_mem_take hmem)⟩

omit [DecidableEq ι] in
/-- The slot of an outstanding request is held by its caller, who waits. -/
theorem BlkInv.outstanding {s : BlkSys ι} (h : BlkInv disk s) {n : Nat} (hn : s.Outstanding n) :
    ∃ p sector buf, s.phase p = .waiting (s.slotOf n) sector buf n := by
  obtain ⟨r, hr⟩ : ∃ r, s.InFlight n r := ⟨_, hn.inFlight⟩
  refine ⟨r.caller, r.sector, r.buf, ?_⟩
  rw [BlkSys.slotOf_eq hr.1]
  exact h.callers.inFlight n r hr

/-- In every state of every run, block reads do not cross. -/
theorem blkReads_neverCross {s : BlkSys ι} (hs : BlkReachable disk s) : NeverCross disk s := by
  have h := hs.inv
  have hproc := h.processed
  have hall : ∀ n, n ∈ s.published.take s.published.length ↔ n ∈ s.published := by
    intro n
    rw [List.take_length]
  constructor
  · intro p slot sector buf n b hp hcheck
    obtain ⟨hdone, hok, hmem⟩ := blkCheckDone_some hcheck
    have hpub := (hall n).mp ((hproc.callers.done p slot sector buf n hp).mp hdone)
    refine ⟨h.callers.posted p slot sector buf n hp, hpub, fun hal i hi => ?_⟩
    rw [hmem]
    exact hproc.data.data p slot sector buf n hp (Or.inr hpub) (of_decide_eq_true hok.symm) hal i hi
  · intro slot b htake n hn hslot
    obtain ⟨hfree, -⟩ := blkTakeSlot_some htake
    obtain ⟨p, sector, buf, hp⟩ := h.outstanding hn
    refine hproc.callers.unheld hfree p ?_
    rw [← hslot]
    exact congrArg Phase.slot hp
  · intro p slot sector buf hp n hn hslot
    obtain ⟨q, sector', buf', hq⟩ := h.outstanding hn
    have hpq : p = q := by
      refine h.callers.unique p q slot (congrArg Phase.slot hp) ?_
      rw [← hslot]
      exact congrArg Phase.slot hq
    subst hpq
    exact absurd (hp.symm.trans hq) nofun
  · exact fun ns hnodup hns => h.callers.inFlight_le hnodup fun n hn => ⟨_, (hns n hn).inFlight⟩
  · exact ⟨h.avail_room, h.rings.availRing⟩
  · exact ⟨h.used_room, h.rings.usedRing⟩
  · intro p slot sector buf n hp
    exact (hproc.callers.done p slot sector buf n hp).trans (hall n)

/-! ## Two callers -/

/-- A list of steps, each of which can happen. -/
def blkRun (disk : UInt32 → Nat → UInt8) : List (BlkOp ι) → BlkSys ι → Option (BlkSys ι)
  | [], s => some s
  | op :: ops, s => (blkStep disk op s).bind (blkRun disk ops)

theorem BlkReachable.run {ops : List (BlkOp ι)} {s s' : BlkSys ι} (hs : BlkReachable disk s)
    (h : blkRun disk ops s = some s') : BlkReachable disk s' := by
  induction ops generalizing s with
  | nil =>
      cases h
      exact hs
  | cons op ops ih =>
      obtain ⟨s₁, hstep, hrun⟩ := Option.bind_eq_some_iff.mp h
      exact ih (hs.step op hstep) hrun

/-- Every byte of a sector is the number of the sector. -/
def stampDisk (sector : UInt32) (_ : Nat) : UInt8 := sector.toUInt8

/-- Two calls post their requests, which the device serves and publishes in order. -/
def twoReads (buf buf' : Nat) : List (BlkOp Bool) :=
  [.call false 1 buf, .takeSlot false, .fill false, .post false,
    .call true 2 buf', .takeSlot true, .fill true, .post true,
    .devTake, .devTake, .devServe ⟨0, 0⟩ 0 (fun _ => 0), .devServe ⟨1, 3⟩ 0 (fun _ => 0),
    .devPublish ⟨0, 0⟩, .devPublish ⟨1, 3⟩]

def twoReadsState (buf buf' : Nat) : Option (BlkSys Bool) :=
  blkRun stampDisk (twoReads buf buf') (.init Bool fun _ => 0)

theorem blkReads_neverCross_two :
    ∃ s, twoReadsState 4096 8192 = some s ∧ NeverCross stampDisk s := by
  have hsome : (twoReadsState 4096 8192).isSome = true := by decide +kernel
  obtain ⟨s, hs⟩ := Option.isSome_iff_exists.mp hsome
  exact ⟨s, hs, blkReads_neverCross ((BlkReachable.init _).run hs)⟩

/-- With one buffer for both calls, the first finds the sector of the second. -/
theorem blkReads_sharedBuffer :
    ¬ ∀ s : BlkSys Bool, BlkReachable stampDisk s → ∀ p slot sector buf n b,
      s.phase p = .waiting slot sector buf n → blkCheckDone slot s.blk = (some true, b) →
        ∀ i < 512, b.mem (buf + i) = stampDisk sector i := by
  intro hall
  have hrun : (twoReadsState 4096 4096).any (fun s =>
      decide (s.phase false = .waiting 0 1 4096 0) &&
        decide ((blkCheckDone 0 s.blk).1 = some true) &&
        decide ((blkCheckDone 0 s.blk).2.mem 4096 = 2)) = true := by
    decide +kernel
  obtain ⟨s, hs, hvals⟩ := (Option.any_eq_true _ _).mp hrun
  simp only [Bool.and_eq_true, decide_eq_true_eq] at hvals
  obtain ⟨⟨hphase, hdone⟩, hbyte⟩ := hvals
  have hcross := hall s ((BlkReachable.init _).run hs) false 0 1 4096 0 _ hphase
    (Prod.ext hdone rfl) 0 (by decide)
  rw [Nat.add_zero, hbyte] at hcross
  exact absurd hcross (by decide)

end Sugimotos.Drivers
