/-
# No input event is lost

The invariant of one device and its queue, and from it that every event the
device publishes is handed out once, in order and with the contents it was written
with.  A buffer is posted, at the device, or published and unread; the rings are
never fuller than the 32 buffers there are.
-/

import Sugimotos.Drivers.VirtioInput

namespace Sugimotos.Drivers

open Sugimotos.Math

variable {n : Nat}

/-- The descriptor of buffer `i` of a device. -/
def viDescFor (dev : Fin n) (i : Fin viQnum) : ViDesc n := ⟨(dev, i), 8, viDescFWrite, 0⟩

/-- The ids of the buffers. -/
def viIds : List UInt16 := (List.range viQnum).map .ofNat

/-- A device, its queue and their history. -/
structure LineInv (dev : Fin n) (l : ViLine n) : Prop where
  desc : ∀ i, l.queue.desc i = viDescFor dev i
  availIdx : l.queue.avail.idx = .ofNat l.posts.length
  lastAvail : l.device.lastAvail = .ofNat l.taken
  takenLe : l.taken ≤ l.posts.length
  availRing : Holds l.queue.avail.ring l.posts l.taken
  usedIdx : l.queue.used.idx = .ofNat l.published.length
  lastUsed : l.queue.lastUsed = .ofNat l.handed.length
  handedLe : l.handed.length ≤ l.published.length
  usedRing : Holds l.queue.used.ring
    (l.published.map fun c => ⟨c.id.toUInt32, 8⟩) l.handed.length
  /-- Every buffer is in exactly one place. -/
  buffers : (l.posts.drop l.taken ++ l.device.pending ++ l.device.filled.map ViFilled.id ++
    (l.published.drop l.handed.length).map ViFilled.id).Perm viIds
  /-- A filled buffer keeps its event until it is handed out. -/
  contents : ∀ c, c ∈ l.device.filled ∨ c ∈ l.published.drop l.handed.length →
    l.queue.events (ringCell viQnum c.id) = c.event
  handed : l.handed = (l.published.take l.handed.length).map ViFilled.event

/-! ## Counting buffers -/

namespace LineInv

variable {dev : Fin n} {l : ViLine n}

theorem counts (h : LineInv dev l) : (l.posts.length - l.taken) + l.device.pending.length +
    l.device.filled.length + (l.published.length - l.handed.length) = 32 := by
  have hlength := h.buffers.length_eq
  simpa [viIds, Nat.add_assoc] using hlength

theorem id_lt (h : LineInv dev l) {id : UInt16}
    (hid : id ∈ l.posts.drop l.taken ++ l.device.pending ++ l.device.filled.map ViFilled.id ++
      (l.published.drop l.handed.length).map ViFilled.id) : id.toNat < 32 := by
  rw [h.buffers.mem_iff] at hid
  obtain ⟨i, hi, rfl⟩ := List.mem_map.mp hid
  have hlt : i < 32 := List.mem_range.mp hi
  rw [UInt16.toNat_ofNat']
  omega

/-- No two of the ids in the four places are the same. -/
theorem ids_nodup (h : LineInv dev l) :
    (l.posts.drop l.taken ++ l.device.pending ++ l.device.filled.map ViFilled.id ++
      (l.published.drop l.handed.length).map ViFilled.id).Nodup := by
  have hids : viIds.Nodup := by decide
  exact h.buffers.nodup_iff.mpr hids

/-- The used ring holds something unread exactly when the counters differ. -/
theorem lastUsed_eq_iff (h : LineInv dev l) :
    l.queue.lastUsed = l.queue.used.idx ↔ l.handed.length = l.published.length := by
  have hcounts := h.counts
  rw [h.lastUsed, h.usedIdx]
  exact counter_inj h.handedLe (by omega)

end LineInv

/-- Buffers with different ids are different elements of `vi_events`. -/
theorem bufferCell_ne {a b : UInt16} (ha : a.toNat < 32) (hb : b.toNat < 32) (hne : a ≠ b) :
    ringCell viQnum a ≠ ringCell viQnum b := by
  intro heq
  have hmod : a.toNat % 32 = b.toNat % 32 := congrArg Fin.val heq
  rw [Nat.mod_eq_of_lt ha, Nat.mod_eq_of_lt hb] at hmod
  exact hne (UInt16.toNat_inj.mp hmod)

/-! ## The driver reads an event -/

/-- The next unread entry. -/
theorem LineInv.next {dev : Fin n} {l : ViLine n} (h : LineInv dev l)
    (hlt : l.handed.length < l.published.length) :
    ∃ c, l.published.drop l.handed.length = c :: l.published.drop (l.handed.length + 1) ∧
      c.id.toNat < 32 ∧
      viFetchDev l.queue = (.event c.id c.event,
        viQueuePush c.id { l.queue with lastUsed := l.queue.lastUsed + 1 }) := by
  have hdrop := List.drop_eq_getElem_cons hlt
  have hget : l.published[l.handed.length]? = some l.published[l.handed.length] :=
    List.getElem?_eq_getElem hlt
  generalize l.published[l.handed.length] = c at hdrop hget
  have hmem : c ∈ l.published.drop l.handed.length := by
    rw [hdrop]
    exact List.mem_cons_self
  have hid : c.id.toNat < 32 :=
    h.id_lt (List.mem_append_right _ (List.mem_map_of_mem hmem))
  have hentry := h.usedRing l.handed.length ⟨c.id.toUInt32, 8⟩ le_rfl
    (by rw [List.getElem?_map, hget]; rfl)
  have hne : l.queue.lastUsed ≠ l.queue.used.idx := by
    intro heq
    rw [h.lastUsed_eq_iff] at heq
    omega
  have hnat : c.id.toUInt32.toNat = c.id.toNat := UInt16.toNat_toUInt32 c.id
  have hback : c.id.toUInt32.toUInt16 = c.id := UInt16.toUInt16_toUInt32 c.id
  refine ⟨c, hdrop, hid, ?_⟩
  unfold viFetchDev
  rw [if_neg hne, h.lastUsed, ringCell_ofNat (by decide), hentry]
  dsimp only
  rw [dif_pos (by rw [hnat]; exact hid), hback]
  have hcell : (⟨c.id.toUInt32.toNat, by rw [hnat]; exact hid⟩ : Fin viQnum) =
      ringCell viQnum c.id := by
    apply Fin.ext
    show c.id.toUInt32.toNat = c.id.toNat % 32
    rw [hnat, Nat.mod_eq_of_lt hid]
  rw [hcell, h.contents c (.inr hmem)]

/-- The event is handed out and its buffer posted again. -/
theorem LineInv.fetch {dev : Fin n} {l : ViLine n} (h : LineInv dev l) {id : UInt16}
    {ev : VirtioInputEvent} {q : ViQueue n} (hfetch : viFetchDev l.queue = (.event id ev, q)) :
    LineInv dev { l with queue := q, posts := l.posts ++ [id], handed := l.handed ++ [ev] } := by
  have hle := h.handedLe
  have hlt : l.handed.length < l.published.length := by
    refine Nat.lt_of_le_of_ne hle fun heq => ?_
    rw [← h.lastUsed_eq_iff] at heq
    unfold viFetchDev at hfetch
    rw [if_pos heq] at hfetch
    cases hfetch
  obtain ⟨c, hdrop, hid, hnext⟩ := h.next hlt
  rw [hnext] at hfetch
  obtain ⟨hev, rfl⟩ := Prod.mk.inj hfetch
  obtain ⟨rfl, rfl⟩ := ViFetch.event.inj hev
  have hcounts := h.counts
  have htaken := h.takenLe
  have hbuffers := h.buffers
  rw [hdrop, List.map_cons] at hbuffers
  refine ⟨h.desc, ?_, h.lastAvail, ?_, ?_, h.usedIdx, ?_, ?_, ?_, ?_, ?_, ?_⟩
  · show l.queue.avail.idx + 1 = _
    rw [h.availIdx, counter_succ, List.length_append, List.length_singleton]
  · show l.taken ≤ (l.posts ++ [c.id]).length
    rw [List.length_append]
    exact htaken.trans (Nat.le_add_right ..)
  · show Holds (Function.update l.queue.avail.ring (ringCell viQnum l.queue.avail.idx) c.id) _ _
    rw [h.availIdx, ringCell_ofNat (by decide)]
    exact h.availRing.push (show l.posts.length < l.taken + 32 by omega) c.id
  · show l.queue.lastUsed + 1 = _
    rw [h.lastUsed, counter_succ, List.length_append, List.length_singleton]
  · rw [List.length_append]
    exact hlt
  · rw [List.length_append]
    exact h.usedRing.pop
  · -- the id moves from the unread entries to the end of the posted ones
    rw [List.length_append, List.length_singleton, List.drop_append_of_le_length htaken]
    refine List.Perm.trans ?_ hbuffers
    rw [List.append_assoc, List.append_assoc, List.append_assoc, List.append_assoc,
      List.append_assoc]
    refine List.Perm.append_left _ ?_
    rw [List.singleton_append, ← List.append_assoc, ← List.append_assoc]
    exact List.perm_middle.symm
  · intro c' hc'
    refine h.contents c' (hc'.imp_right fun hmem => ?_)
    rw [List.length_append, List.length_singleton] at hmem
    rw [hdrop]
    exact List.mem_cons_of_mem _ hmem
  · have hget : l.published[l.handed.length]? = some c := by
      have h0 := congrArg List.head? hdrop
      rw [List.head?_drop] at h0
      exact h0
    rw [List.length_append, List.length_singleton, List.take_add_one, hget, List.map_append,
      ← h.handed]
    rfl

/-! ## The device -/

theorem LineInv.devTake {dev : Fin n} {l l' : ViLine n} (h : LineInv dev l)
    (htake : viDevTake l = some l') : LineInv dev l' ∧ l'.handed = l.handed := by
  unfold viDevTake at htake
  split at htake
  · cases htake
  rename_i hne
  obtain rfl := Option.some.inj htake
  have hcounts := h.counts
  have htaken := h.takenLe
  have hlt : l.taken < l.posts.length := by
    refine Nat.lt_of_le_of_ne h.takenLe fun heq => hne ?_
    rw [h.lastAvail, h.availIdx, heq]
  have hdrop := List.drop_eq_getElem_cons hlt
  have hentry := h.availRing l.taken _ le_rfl (List.getElem?_eq_getElem hlt)
  generalize l.posts[l.taken] = id at hdrop hentry
  have hcell : l.queue.avail.ring (ringCell viQnum l.device.lastAvail) = id := by
    rw [h.lastAvail, ringCell_ofNat (by decide)]
    exact hentry
  refine ⟨⟨h.desc, h.availIdx, ?_, hlt, h.availRing.pop, h.usedIdx, h.lastUsed, h.handedLe,
    h.usedRing, ?_, h.contents, h.handed⟩, rfl⟩
  · show l.device.lastAvail + 1 = _
    rw [h.lastAvail, counter_succ]
  · have hbuffers := h.buffers
    rw [hdrop] at hbuffers
    refine List.Perm.trans ?_ hbuffers
    simp only [hcell]
    refine List.Perm.append_right _ (List.Perm.append_right _ ?_)
    rw [List.cons_append]
    exact List.perm_middle

theorem LineInv.devPublish {dev : Fin n} {l l' : ViLine n} (h : LineInv dev l) {c : ViFilled}
    (hpub : viDevPublish c l = some l') : LineInv dev l' ∧ l'.handed = l.handed := by
  unfold viDevPublish at hpub
  split at hpub
  · rename_i hmem
    obtain rfl := Option.some.inj hpub
    have hcounts := h.counts
    have hle := h.handedLe
    have hpos : 0 < l.device.filled.length := List.length_pos_of_mem hmem
    have hdrop : (l.published ++ [c]).drop l.handed.length =
        l.published.drop l.handed.length ++ [c] := List.drop_append_of_le_length hle
    refine ⟨⟨h.desc, h.availIdx, h.lastAvail, h.takenLe, h.availRing, ?_, h.lastUsed, ?_, ?_, ?_,
      ?_, ?_⟩, rfl⟩
    · show l.queue.used.idx + 1 = _
      rw [h.usedIdx, counter_succ, List.length_append, List.length_singleton]
    · show l.handed.length ≤ (l.published ++ [c]).length
      rw [List.length_append]
      exact hle.trans (Nat.le_add_right ..)
    · show Holds (Function.update l.queue.used.ring (ringCell viQnum l.queue.used.idx) _) _ _
      rw [h.usedIdx, ringCell_ofNat (by decide), List.map_append]
      have hroom : (l.published.map fun c => (⟨c.id.toUInt32, 8⟩ : ViUsedElem)).length <
          l.handed.length + 32 := by
        rw [List.length_map]
        omega
      have hpush := h.usedRing.push hroom ⟨c.id.toUInt32, 8⟩
      rw [List.length_map] at hpush
      exact hpush
    · -- the id moves from the filled buffers to the end of the unread ones
      refine List.Perm.trans ?_ h.buffers
      simp only [hdrop, List.map_append, List.map_cons, List.map_nil]
      have hfilled : (c.id :: (l.device.filled.erase c).map ViFilled.id).Perm
          (l.device.filled.map ViFilled.id) := (List.perm_cons_erase hmem).symm.map ViFilled.id
      rw [List.append_assoc, List.append_assoc (l.posts.drop l.taken ++ l.device.pending)]
      refine List.Perm.append_left _ (List.Perm.trans ?_ (hfilled.append_right _))
      rw [← List.append_assoc]
      exact List.perm_append_singleton ..
    · intro c' hc'
      rw [hdrop] at hc'
      refine h.contents c' ?_
      rcases hc' with hc' | hc'
      · exact .inl (List.mem_of_mem_erase hc')
      · rcases List.mem_append.mp hc' with hold | hnew
        · exact .inr hold
        · rw [List.mem_singleton.mp hnew]
          exact .inl hmem
    · rw [List.take_append_of_le_length hle]
      exact h.handed
  · cases hpub

/-- A buffer at the device is neither filled nor unread, so writing it changes no
event that is. -/
theorem LineInv.devFill {dev : Fin n} {l : ViLine n} (h : LineInv dev l) {id : UInt16}
    (hmem : id ∈ l.device.pending) (ev : VirtioInputEvent) :
    LineInv dev { l with
      queue := { l.queue with
        events := Function.update l.queue.events (ringCell viQnum id) ev }
      device := { l.device with
        pending := l.device.pending.erase id
        filled := ⟨id, ev⟩ :: l.device.filled } } := by
  have hnodup := h.ids_nodup
  have hother : ∀ c, c ∈ l.device.filled ∨ c ∈ l.published.drop l.handed.length →
      ringCell viQnum c.id ≠ ringCell viQnum id := by
    intro c hc
    have hcid : c.id ∈ l.device.filled.map ViFilled.id ++
        (l.published.drop l.handed.length).map ViFilled.id := by
      rw [List.mem_append]
      exact hc.imp List.mem_map_of_mem List.mem_map_of_mem
    rw [List.append_assoc] at hnodup
    have hdisjoint := (List.nodup_append.mp hnodup).2.2
    have hne : c.id ≠ id := fun heq =>
      hdisjoint id (List.mem_append_right _ hmem) c.id hcid heq.symm
    refine bufferCell_ne ?_ ?_ hne
    · refine h.id_lt ?_
      rw [List.append_assoc]
      exact List.mem_append_right _ hcid
    · exact h.id_lt (List.mem_append_left _ (List.mem_append_left _ (List.mem_append_right _ hmem)))
  refine ⟨h.desc, h.availIdx, h.lastAvail, h.takenLe, h.availRing, h.usedIdx, h.lastUsed,
    h.handedLe, h.usedRing, ?_, ?_, h.handed⟩
  · refine List.Perm.trans ?_ h.buffers
    refine List.Perm.append_right _ ?_
    rw [List.append_assoc, List.append_assoc]
    refine List.Perm.append_left _ ?_
    show (l.device.pending.erase id ++ id :: l.device.filled.map ViFilled.id).Perm _
    refine List.perm_middle.trans ?_
    rw [← List.cons_append]
    exact (List.perm_cons_erase hmem).symm.append_right _
  · intro c hc
    show Function.update l.queue.events (ringCell viQnum id) ev (ringCell viQnum c.id) = _
    rcases hc with hc | hc
    · rcases List.mem_cons.mp hc with rfl | hc
      · exact Function.update_self ..
      · rw [Function.update_of_ne (hother c (.inl hc))]
        exact h.contents c (.inl hc)
    · rw [Function.update_of_ne (hother c (.inr hc))]
      exact h.contents c (.inr hc)

/-! ## All devices -/

/-- The devices looked at so far in this scan had nothing left to read. -/
structure ViInv (s : ViSys n) : Prop where
  line : ∀ dev, LineInv dev (s.line dev)
  scan : ∀ turn, s.phase = .scanning turn → ∀ j (h : j < n), j < turn →
    s.emptied (scanDev s.rrNext j h) = some (s.line (scanDev s.rrNext j h)).handed.length

/-- A step of one device that hands nothing out. -/
theorem ViInv.setLine {s : ViSys n} (h : ViInv s) {dev : Fin n} {l : ViLine n}
    (hl : LineInv dev l) (hhanded : l.handed = (s.line dev).handed) : ViInv (s.setLine dev l) := by
  have hlength : ∀ d, ((s.setLine dev l).line d).handed = (s.line d).handed := by
    intro d
    by_cases hd : d = dev
    · subst hd
      simp only [ViSys.setLine, Function.update_self]
      exact hhanded
    · simp only [ViSys.setLine, Function.update_of_ne hd]
  refine ⟨fun d => ?_, fun turn hturn j hj hlt => ?_⟩
  · by_cases hd : d = dev
    · subst hd
      simp only [ViSys.setLine, Function.update_self]
      exact hl
    · simp only [ViSys.setLine, Function.update_of_ne hd]
      exact h.line d
  · rw [hlength]
    exact h.scan turn hturn j hj hlt

theorem ViInv.turn {s : ViSys n} (h : ViInv s) {turn : Nat} (hphase : s.phase = .scanning turn)
    (hlt : turn < n) : ViInv (viTurn s turn hlt) := by
  have hline := h.line (scanDev s.rrNext turn hlt)
  unfold viTurn
  dsimp only
  by_cases hempty : (s.line (scanDev s.rrNext turn hlt)).handed.length =
      (s.line (scanDev s.rrNext turn hlt)).published.length
  · have hfetch : viFetchDev (s.line (scanDev s.rrNext turn hlt)).queue =
        (.empty, (s.line (scanDev s.rrNext turn hlt)).queue) := by
      unfold viFetchDev
      rw [if_pos (hline.lastUsed_eq_iff.mpr hempty)]
    rw [hfetch]
    refine ⟨h.line, fun turn' hturn' j hj hlt' => ?_⟩
    obtain rfl := ViPhase.scanning.inj hturn'
    dsimp only
    by_cases hdev : scanDev s.rrNext j hj = scanDev s.rrNext turn hlt
    · rw [hdev, Function.update_self, hempty]
    · rw [Function.update_of_ne hdev]
      refine h.scan turn hphase j hj (Nat.lt_of_le_of_ne (Nat.le_of_lt_succ hlt') ?_)
      rintro rfl
      exact hdev rfl
  · obtain ⟨c, -, -, hfetch⟩ := hline.next (Nat.lt_of_le_of_ne hline.handedLe hempty)
    have hnew := hline.fetch hfetch
    rw [hfetch]
    refine ⟨fun d => ?_, fun turn' hturn' j hj hlt' => ?_⟩
    · by_cases hd : d = scanDev s.rrNext turn hlt
      · subst hd
        simp only [ViSys.setLine, Function.update_self]
        exact hnew
      · simp only [ViSys.setLine, Function.update_of_ne hd]
        exact h.line d
    · obtain rfl := ViPhase.scanning.inj hturn'
      exact absurd hlt' (Nat.not_lt_zero j)

theorem ViInv.devFill {s s' : ViSys n} (h : ViInv s) {dev : Fin n} {id : UInt16}
    {ev : VirtioInputEvent} (hfill : viDevFill dev id ev s = some s') : ViInv s' := by
  unfold viDevFill at hfill
  split at hfill
  · rename_i hmem
    obtain rfl := Option.some.inj hfill
    have haddr : ((s.line dev).queue.desc (ringCell viQnum id)).addr = (dev, ringCell viQnum id) := by
      rw [(h.line dev).desc]
      rfl
    have hinv := h.setLine ((h.line dev).devFill hmem ev) rfl
    simp only [ViSys.setLine, ViSys.store, haddr, Function.update_self, Function.update_idem] at hinv ⊢
    exact hinv
  · cases hfill

/-! ## The start -/

/-- The loop of `vi_init_one_device`, from a queue with some buffers posted. -/
theorem viInitBuffers (dev : Fin n) (todo : List (Fin viQnum)) {q : ViQueue n}
    (posts : List UInt16) (hroom : posts.length + todo.length ≤ viQnum)
    (hidx : q.avail.idx = .ofNat posts.length) (hring : Holds q.avail.ring posts 0) :
    let q' := todo.foldl (viInitBuffer dev) q
    let posts' := posts ++ todo.map fun i => .ofNat i.val
    q'.avail.idx = .ofNat posts'.length ∧ Holds q'.avail.ring posts' 0 ∧
      (∀ i, q'.desc i = if i ∈ todo then viDescFor dev i else q.desc i) ∧
      q'.used = q.used ∧ q'.events = q.events ∧ q'.lastUsed = q.lastUsed := by
  induction todo generalizing q posts with
  | nil =>
      simp only [List.foldl_nil, List.map_nil, List.append_nil]
      exact ⟨hidx, hring, fun i => (if_neg List.not_mem_nil).symm, trivial, trivial, trivial⟩
  | cons i rest ih =>
      rw [List.length_cons] at hroom
      have hidx' : (viInitBuffer dev q i).avail.idx =
          .ofNat (posts ++ [UInt16.ofNat i.val]).length := by
        show q.avail.idx + 1 = _
        rw [hidx, counter_succ, List.length_append, List.length_singleton]
      have hring' : Holds (viInitBuffer dev q i).avail.ring (posts ++ [UInt16.ofNat i.val]) 0 := by
        show Holds (Function.update q.avail.ring (ringCell viQnum q.avail.idx) _) _ _
        rw [hidx, ringCell_ofNat (by decide)]
        exact hring.push (by omega) _
      obtain ⟨hi, hr, hdesc, hrest⟩ := ih (posts ++ [UInt16.ofNat i.val])
        (by rw [List.length_append, List.length_singleton]; omega) hidx' hring'
      rw [List.append_assoc] at hi hr
      refine ⟨hi, hr, fun j => ?_, hrest⟩
      rw [List.foldl_cons, hdesc]
      by_cases hmem : j ∈ rest
      · rw [if_pos hmem, if_pos (List.mem_cons_of_mem _ hmem)]
      · rw [if_neg hmem]
        show Function.update q.desc i ⟨(dev, i), 8, viDescFWrite, 0⟩ j = _
        by_cases hji : j = i
        · subst hji
          rw [Function.update_self, if_pos List.mem_cons_self]
          rfl
        · rw [Function.update_of_ne hji, if_neg (List.not_mem_cons_of_ne_of_not_mem hji hmem)]

/-- A device starts with all its buffers posted. -/
theorem LineInv.init (dev : Fin n) : LineInv dev (.init dev) := by
  have hposts : (List.finRange viQnum).map (fun i => UInt16.ofNat i.val) = viIds := by decide
  obtain ⟨hidx, hring, hdesc, hused, -, hlast⟩ := viInitBuffers dev (List.finRange viQnum)
    (q := { desc := fun _ => ⟨(dev, 0), 0, 0, 0⟩
            avail := ⟨0, fun _ => 0⟩
            used := ⟨0, fun _ => ⟨0, 0⟩⟩
            events := fun _ => ⟨0, 0, 0⟩
            lastUsed := 0 })
    [] (by simp) rfl (Holds.nil _ _)
  rw [List.nil_append, hposts] at hidx hring
  refine ⟨?_, hidx, rfl, Nat.zero_le _, hring, ?_, ?_, le_rfl, Holds.nil _ _, ?_, ?_, rfl⟩
  · intro i
    exact (hdesc i).trans (if_pos (List.mem_finRange i))
  · exact congrArg ViUsed.idx hused
  · exact hlast
  · simp [ViLine.init, viIds]
  · intro c hc
    simp [ViLine.init] at hc

theorem ViInv.init : ViInv (ViSys.init n) :=
  ⟨LineInv.init, fun _ hturn => by cases hturn⟩

/-! ## Runs -/

theorem ViInv.step {s s' : ViSys n} (h : ViInv s) {op : ViOp n} (hstep : viStep op s = some s') :
    ViInv s' := by
  cases op with
  | irq =>
      simp only [viStep] at hstep
      split at hstep
      · obtain rfl := Option.some.inj hstep
        refine ⟨h.line, fun turn hturn j hj hlt => ?_⟩
        obtain rfl := ViPhase.scanning.inj hturn
        exact absurd hlt (Nat.not_lt_zero j)
      · cases hstep
  | turn =>
      simp only [viStep] at hstep
      split at hstep
      · cases hstep
      · rename_i turn hphase
        split at hstep
        · rename_i hlt
          obtain rfl := Option.some.inj hstep
          exact h.turn hphase hlt
        · obtain rfl := Option.some.inj hstep
          exact ⟨h.line, fun _ hturn => by cases hturn⟩
  | devTake dev =>
      obtain ⟨l, htake, rfl⟩ := Option.map_eq_some_iff.mp hstep
      obtain ⟨hl, hhanded⟩ := (h.line dev).devTake htake
      exact h.setLine hl hhanded
  | devFill dev id ev => exact h.devFill hstep
  | devPublish dev c =>
      obtain ⟨l, hpub, rfl⟩ := Option.map_eq_some_iff.mp hstep
      obtain ⟨hl, hhanded⟩ := (h.line dev).devPublish hpub
      exact h.setLine hl hhanded

theorem ViReachable.inv {s : ViSys n} (h : ViReachable s) : ViInv s := by
  induction h with
  | init => exact ViInv.init
  | step op _ hstep ih => exact ih.step hstep

/-! ## What the rings show -/

theorem LineInv.unread_eq {dev : Fin n} {l : ViLine n} (h : LineInv dev l) :
    l.unread = (l.published.drop l.handed.length).map fun c => ⟨c.id.toUInt32, 8⟩ := by
  have hcounts := h.counts
  have hwindow := h.usedRing.window (by decide) (by rw [List.length_map]; exact h.handedLe)
    (by rw [List.length_map]; omega)
  rw [List.length_map, ← List.map_drop] at hwindow
  unfold ViLine.unread
  rw [h.lastUsed, h.usedIdx]
  exact hwindow

theorem LineInv.waiting_eq {dev : Fin n} {l : ViLine n} (h : LineInv dev l) :
    l.waiting = l.posts.drop l.taken := by
  have hcounts := h.counts
  unfold ViLine.waiting
  rw [h.lastAvail, h.availIdx]
  exact h.availRing.window (by decide) h.takenLe (by omega)

theorem LineInv.kept {dev : Fin n} {l : ViLine n} (h : LineInv dev l) : l.Kept := by
  have hevent : ∀ c ∈ l.published.drop l.handed.length,
      l.eventOf ⟨c.id.toUInt32, 8⟩ = c.event := by
    intro c hc
    unfold ViLine.eventOf
    rw [UInt16.toNat_toUInt32]
    exact h.contents c (.inr hc)
  refine ⟨?_, ?_⟩
  · rw [h.unread_eq, List.map_map]
    calc l.handed ++ (l.published.drop l.handed.length).map (l.eventOf ∘ fun c => ⟨c.id.toUInt32, 8⟩)
        = (l.published.take l.handed.length).map ViFilled.event ++
            (l.published.drop l.handed.length).map ViFilled.event := by
          rw [← h.handed]
          exact congrArg _ (List.map_congr_left hevent)
      _ = l.published.map ViFilled.event := by rw [← List.map_append, List.take_append_drop]
  · rw [h.unread_eq, List.map_map]
    unfold ViLine.posted
    rw [h.waiting_eq]
    have hids : (fun e : ViUsedElem => e.id.toUInt16) ∘
        (fun c : ViFilled => (⟨c.id.toUInt32, 8⟩ : ViUsedElem)) = ViFilled.id := by
      funext c
      exact UInt16.toUInt16_toUInt32 c.id
    rw [hids]
    exact h.buffers

/-- `n` turns in a row look at every device. -/
theorem scanDev_surjective (rrNext : Nat) (dev : Fin n) :
    ∃ j, ∃ h : j < n, scanDev rrNext j h = dev := by
  have hdev := dev.isLt
  have hrr := Nat.mod_lt rrNext (Nat.lt_of_le_of_lt (Nat.zero_le _) hdev)
  have hdiv := Nat.div_add_mod rrNext n
  by_cases hle : rrNext % n ≤ dev.val
  · refine ⟨dev.val - rrNext % n, by omega, Fin.ext ?_⟩
    show (rrNext + (dev.val - rrNext % n)) % n = dev.val
    have hsum : rrNext + (dev.val - rrNext % n) = n * (rrNext / n) + dev.val := by omega
    rw [hsum, Nat.mul_add_mod, Nat.mod_eq_of_lt hdev]
  · refine ⟨dev.val + n - rrNext % n, by omega, Fin.ext ?_⟩
    show (rrNext + (dev.val + n - rrNext % n)) % n = dev.val
    have hsum : rrNext + (dev.val + n - rrNext % n) = n * (rrNext / n) + (dev.val + n) := by omega
    rw [hsum, Nat.mul_add_mod, Nat.add_mod_right, Nat.mod_eq_of_lt hdev]

/-- In every run, with any number of devices, no event and no buffer is lost or
duplicated, and the handler returns only when it has handed out everything it
found. -/
theorem input_events_kept {s : ViSys n} (hs : ViReachable s) : InputKept s where
  kept dev := (hs.inv.line dev).kept
  scanned turn hphase hturn dev := by
    obtain ⟨j, hj, rfl⟩ := scanDev_surjective s.rrNext dev
    exact hs.inv.scan turn hphase j hj (Nat.lt_of_lt_of_le hj hturn)

/-- A list of steps, one after the other; `none` if one cannot happen. -/
def viRun (ops : List (ViOp n)) (s : ViSys n) : Option (ViSys n) :=
  ops.foldlM (fun s op => viStep op s) s

theorem ViReachable.run {ops : List (ViOp n)} {s s' : ViSys n} (hs : ViReachable s)
    (h : viRun ops s = some s') : ViReachable s' := by
  induction ops generalizing s with
  | nil =>
      obtain rfl := Option.some.inj h
      exact hs
  | cons op ops ih =>
      unfold viRun at h
      rw [List.foldlM_cons] at h
      obtain ⟨s₁, hstep, hrest⟩ := Option.bind_eq_some_iff.mp h
      exact ih (hs.step op hstep) hrest

/-- A keyboard and a mouse.  The keyboard publishes its second buffer first, and the
mouse publishes while the handler is scanning. -/
def twoDeviceOps : List (ViOp 2) :=
  [.devTake 0, .devTake 0, .devFill 0 1 ⟨1, 30, 1⟩, .devPublish 0 ⟨1, ⟨1, 30, 1⟩⟩, .irq, .turn,
    .devTake 1, .devFill 1 0 ⟨2, 0, 5⟩, .devFill 0 0 ⟨1, 30, 0⟩, .devPublish 1 ⟨0, ⟨2, 0, 5⟩⟩, .turn,
    .devPublish 0 ⟨0, ⟨1, 30, 0⟩⟩, .turn, .turn, .turn]

theorem input_events_kept_two :
    ∃ s, viRun twoDeviceOps (.init 2) = some s ∧ s.phase = .scanning 2 ∧ InputKept s := by
  have hrun : (viRun twoDeviceOps (.init 2)).map (fun s => s.phase) = some (.scanning 2) := by
    decide +kernel
  obtain ⟨s, hs, hphase⟩ := Option.map_eq_some_iff.mp hrun
  exact ⟨s, hs, hphase, input_events_kept (ViReachable.init.run hs)⟩

end Sugimotos.Drivers
