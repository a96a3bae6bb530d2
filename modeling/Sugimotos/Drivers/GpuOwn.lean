/-
# A GPU command reports its own completion

As long as no call starts behind, at most one request is not accounted for: the one
of the call in progress, or of the call that timed out and after which nobody may
start.  So a used entry that a call finds can only be its own.
-/

import Sugimotos.Drivers.VirtioGpu

namespace Sugimotos.Drivers

open Sugimotos.Math

variable {ι : Type}

/-- The tickets of the chains that the device has. -/
def VgDevice.tickets (d : VgDevice) : List Nat :=
  d.pending.map VgChain.ticket ++ d.responded.map VgChain.ticket ++
    d.element.toList.map VgChain.ticket

/-- The descriptors are those of a request. -/
def Vg.holds (vg : Vg) (r : VgReq) : Prop := vg.desc 0 = r.desc0 ∧ vg.desc 1 = r.desc1

/-- What holds in every run in which no call starts behind. -/
structure VgInv (s : VgSys ι) : Prop where
  availIdx : s.vg.availIdx = .ofNat s.posts.length
  lastUsed : s.vg.lastUsed = .ofNat s.consumed
  usedIdx : s.vg.usedIdx = .ofNat s.completed.length
  lastAvail : s.device.lastAvail = .ofNat s.device.taken
  heads : ∀ i, s.vg.availRing i = 0
  takenLe : s.device.taken ≤ s.posts.length
  /-- At most one request has not been accounted for. -/
  behind : s.posts.length ≤ s.consumed + 1
  consumedLe : s.consumed ≤ s.completed.length
  tickets : (s.device.tickets ++ s.completed).Perm (List.range s.device.taken)
  prepared : ∀ p r, s.phase p = .prepared r →
    s.cpu = some p ∧ s.posts.length = s.consumed ∧ s.vg.holds r
  waits : ∀ p r n, (s.phase p).waits = some (r, n) →
    s.posts[n]? = some ⟨p, r⟩ ∧ n + 1 = s.posts.length ∧ s.posts.length = s.consumed + 1
  desc : s.posts.length = s.consumed + 1 →
    ∀ t, s.posts[s.consumed]? = some t → s.vg.holds t.req
  chains : ∀ c, c ∈ s.device.pending ∨ c ∈ s.device.responded ∨ s.device.element = some c →
    ∃ t, s.posts[c.ticket]? = some t ∧ c.isFor t.req
  written : ∀ n, n ∈ s.device.responded.map VgChain.ticket ∨
    n ∈ s.device.element.toList.map VgChain.ticket ∨ n ∈ s.completed →
      ∃ c ∈ s.written, c.ticket = n ∧ ∃ t, s.posts[n]? = some t ∧ c.isFor t.req

theorem VgInv.completedLe {s : VgSys ι} (h : VgInv s) : s.completed.length ≤ s.device.taken := by
  have hlength := h.tickets.length_eq
  rw [List.length_append, List.length_range] at hlength
  omega

/-- When as many requests have been completed as posted, each of them has. -/
theorem VgInv.all_completed {s : VgSys ι} (h : VgInv s) (hall : s.posts.length ≤ s.completed.length)
    {n : Nat} (hn : n < s.posts.length) : n ∈ s.completed := by
  have hcompleted := h.completedLe
  have htaken := h.takenLe
  have hlength := h.tickets.length_eq
  rw [List.length_append, List.length_range] at hlength
  have hnone : s.device.tickets = [] := List.eq_nil_of_length_eq_zero (by omega)
  have hmem : n ∈ List.range s.device.taken := List.mem_range.mpr (by omega)
  rw [← h.tickets.mem_iff, hnone, List.nil_append] at hmem
  exact hmem

/-- A used entry that is there belongs to the request that is not accounted for. -/
theorem VgInv.used_new {s : VgSys ι} (h : VgInv s) (hne : s.vg.lastUsed ≠ s.vg.usedIdx) :
    s.posts.length = s.consumed + 1 ∧ s.completed.length = s.consumed + 1 := by
  have hlt : s.consumed ≠ s.completed.length := by
    intro heq
    rw [h.lastUsed, h.usedIdx, heq] at hne
    exact hne rfl
  have hcompleted := h.completedLe
  have htaken := h.takenLe
  have hbehind := h.behind
  have hconsumed := h.consumedLe
  omega

/-- Nobody waits, and every request is accounted for, when a call starts in step. -/
theorem VgInv.synced {s : VgSys ι} (h : VgInv s) (hsync : s.vg.lastUsed = s.vg.availIdx) :
    s.posts.length = s.consumed := by
  have hcompleted := h.completedLe
  have htaken := h.takenLe
  have hbehind := h.behind
  have hconsumed := h.consumedLe
  rw [h.lastUsed, h.availIdx] at hsync
  exact ((counter_inj (by omega) (by omega)).mp hsync).symm

theorem vgPrepare_holds (r : VgReq) (vg : Vg) : (vgPrepare r vg).holds r := by
  have hfirst : (vgPrepare r vg).desc 0 = r.desc0 := by
    simp only [vgPrepare]
    rw [Function.update_of_ne (by decide), Function.update_self]
  have hsecond : (vgPrepare r vg).desc 1 = r.desc1 := by
    simp only [vgPrepare]
    rw [Function.update_self]
  exact ⟨hfirst, hsecond⟩

variable [DecidableEq ι]

theorem VgSys.goto_self (s : VgSys ι) (p : ι) (phase : VgPhase) (cpu : Option ι) :
    (s.goto p phase cpu).phase p = phase :=
  Function.update_self ..

theorem VgSys.goto_other (s : VgSys ι) {p q : ι} (phase : VgPhase) (cpu : Option ι) (h : q ≠ p) :
    (s.goto p phase cpu).phase q = s.phase q :=
  Function.update_of_ne h ..

omit [DecidableEq ι] in
/-- The waiting callers are the same one. -/
theorem VgInv.waits_unique {s : VgSys ι} (h : VgInv s) {p q : ι} {r t : VgReq} {m n : Nat}
    (hp : (s.phase p).waits = some (r, m)) (hq : (s.phase q).waits = some (t, n)) : p = q := by
  obtain ⟨hgetp, hm, -⟩ := h.waits p r m hp
  obtain ⟨hgetq, hn, -⟩ := h.waits q t n hq
  have hmn : m = n := by omega
  rw [hmn, hgetq] at hgetp
  exact (congrArg VgPost.caller (Option.some.inj hgetp)).symm

/-- The caller that executes goes on waiting for the same request. -/
theorem VgInv.goto_waits {s : VgSys ι} (h : VgInv s) {p : ι} {phase : VgPhase} {cpu : Option ι}
    (hcpu : s.cpu = some p ∨ s.cpu = none) (hprepared : ∀ r, phase ≠ .prepared r)
    (hwaits : phase.waits = none ∨ phase.waits = (s.phase p).waits) :
    VgInv (s.goto p phase cpu) := by
  refine ⟨h.availIdx, h.lastUsed, h.usedIdx, h.lastAvail, h.heads, h.takenLe, h.behind,
    h.consumedLe, h.tickets, fun q r hq => ?_, fun q r n hq => ?_, h.desc, h.chains, h.written⟩
  · by_cases hqp : q = p
    · subst hqp
      rw [VgSys.goto_self] at hq
      exact absurd hq (hprepared r)
    · rw [VgSys.goto_other _ _ _ hqp] at hq
      -- another caller that has only prepared would have the processor
      have hother := (h.prepared q r hq).1
      rcases hcpu with hcpu | hcpu <;> rw [hcpu] at hother
      · exact absurd (Option.some.inj hother).symm hqp
      · cases hother
  · by_cases hqp : q = p
    · subst hqp
      rw [VgSys.goto_self] at hq
      rcases hwaits with hnone | hsame
      · rw [hnone] at hq
        cases hq
      · rw [hsame] at hq
        exact h.waits q r n hq
    · rw [VgSys.goto_other _ _ _ hqp] at hq
      exact h.waits q r n hq

theorem VgInv.submit {s : VgSys ι} (h : VgInv s) {p : ι} (r : VgReq) (hcpu : s.cpu = none)
    (hsync : s.vg.lastUsed = s.vg.availIdx) :
    VgInv ({ s with vg := vgPrepare r s.vg }.goto p (.prepared r) (some p)) := by
  have hall := h.synced hsync
  refine ⟨h.availIdx, h.lastUsed, h.usedIdx, h.lastAvail, h.heads, h.takenLe, h.behind,
    h.consumedLe, h.tickets, fun q t hq => ?_, fun q t n hq => ?_, fun hlast => ?_, h.chains,
    h.written⟩
  · by_cases hqp : q = p
    · subst hqp
      rw [VgSys.goto_self] at hq
      cases hq
      exact ⟨rfl, hall, vgPrepare_holds r s.vg⟩
    · rw [VgSys.goto_other _ _ _ hqp] at hq
      have hother := (h.prepared q t hq).1
      rw [hcpu] at hother
      cases hother
  · by_cases hqp : q = p
    · subst hqp
      rw [VgSys.goto_self] at hq
      cases hq
    · rw [VgSys.goto_other _ _ _ hqp] at hq
      exact h.waits q t n hq
  · have hlast' : s.posts.length = s.consumed + 1 := hlast
    omega

theorem VgInv.post {s : VgSys ι} (h : VgInv s) {p : ι} {r : VgReq} (hp : s.phase p = .prepared r) :
    VgInv ({ s with vg := vgPost s.vg, posts := s.posts ++ [VgPost.mk p r] }.goto p
      (.polling r s.posts.length vgPollMax) (some p)) := by
  obtain ⟨hcpu, hall, hholds⟩ := h.prepared p r hp
  have hlength : (s.posts ++ [VgPost.mk p r]).length = s.posts.length + 1 := List.length_append
  have hkeep : ∀ (n : Nat) (t : VgPost ι), s.posts[n]? = some t →
      (s.posts ++ [VgPost.mk p r])[n]? = some t := fun n t hn =>
    (List.getElem?_append_left (List.getElem?_eq_some_iff.mp hn).1).trans hn
  have hlast : (s.posts ++ [VgPost.mk p r])[s.posts.length]? = some ⟨p, r⟩ :=
    List.getElem?_concat_length
  refine ⟨?_, h.lastUsed, h.usedIdx, h.lastAvail, fun i => ?_, ?_, ?_, h.consumedLe, h.tickets,
    fun q t hq => ?_, fun q t n hq => ?_, fun _ t ht => ?_, fun c hc => ?_, fun n hn => ?_⟩
  · change s.vg.availIdx + 1 = .ofNat (s.posts ++ [_]).length
    rw [h.availIdx, counter_succ, hlength]
  · change Function.update s.vg.availRing _ 0 i = 0
    by_cases hi : i = ringCell vgQnum s.vg.availIdx
    · subst hi
      exact Function.update_self ..
    · rw [Function.update_of_ne hi]
      exact h.heads i
  · exact h.takenLe.trans (hlength ▸ Nat.le_succ _)
  · change (s.posts ++ [_]).length ≤ s.consumed + 1
    rw [hlength, hall]
  · by_cases hqp : q = p
    · subst hqp
      rw [VgSys.goto_self] at hq
      cases hq
    · rw [VgSys.goto_other _ _ _ hqp] at hq
      have hother := (h.prepared q t hq).1
      rw [hcpu] at hother
      exact absurd (Option.some.inj hother).symm hqp
  · by_cases hqp : q = p
    · subst hqp
      rw [VgSys.goto_self] at hq
      cases hq
      exact ⟨hlast, hlength.symm, by rw [← hall]; exact hlength⟩
    · rw [VgSys.goto_other _ _ _ hqp] at hq
      have hwaits := (h.waits q t n hq).2.2
      omega
  · change (s.posts ++ [_])[s.consumed]? = some t at ht
    rw [← hall, hlast] at ht
    cases ht
    exact hholds
  · obtain ⟨t, ht, hfor⟩ := h.chains c hc
    exact ⟨t, hkeep _ t ht, hfor⟩
  · obtain ⟨c, hc, hticket, t, ht, hfor⟩ := h.written n hn
    exact ⟨c, hc, hticket, t, hkeep _ t ht, hfor⟩

/-- A call that returns 0 accounts for its own request. -/
theorem VgInv.succeed {s : VgSys ι} (h : VgInv s) {p : ι} {r : VgReq} {n : Nat}
    (hp : s.phase p = .final r n) (hok : vgSucceeds s.vg = true) (hcpu : s.cpu = some p) :
    VgInv ({ s with
      vg := { s.vg with lastUsed := s.vg.lastUsed + 1 }
      consumed := s.consumed + 1 }.goto p .idle none) := by
  have hne : s.vg.lastUsed ≠ s.vg.usedIdx := of_decide_eq_true (Bool.and_eq_true_iff.mp hok).1
  obtain ⟨hposts, hcompleted⟩ := h.used_new hne
  refine ⟨h.availIdx, ?_, h.usedIdx, h.lastAvail, h.heads, h.takenLe, ?_, hcompleted.ge, h.tickets,
    fun q t hq => ?_, fun q t m hq => ?_, fun hlast => ?_, h.chains, h.written⟩
  · change s.vg.lastUsed + 1 = .ofNat (s.consumed + 1)
    rw [h.lastUsed, counter_succ]
  · change s.posts.length ≤ s.consumed + 1 + 1
    omega
  · by_cases hqp : q = p
    · subst hqp
      rw [VgSys.goto_self] at hq
      cases hq
    · rw [VgSys.goto_other _ _ _ hqp] at hq
      have hother := (h.prepared q t hq).1
      rw [hcpu] at hother
      exact absurd (Option.some.inj hother).symm hqp
  · by_cases hqp : q = p
    · subst hqp
      rw [VgSys.goto_self] at hq
      cases hq
    · rw [VgSys.goto_other _ _ _ hqp] at hq
      refine absurd (h.waits_unique hq (q := p) (t := r) (n := n) ?_) hqp
      rw [hp]
      rfl
  · have hlast' : s.posts.length = s.consumed + 1 + 1 := hlast
    omega

/-! ## The device -/

omit [DecidableEq ι] in
/-- The chain that the device takes is the last one posted, read from descriptors that
nobody has reused. -/
theorem VgInv.taken_chain {s : VgSys ι} (h : VgInv s) (hne : s.device.lastAvail ≠ s.vg.availIdx) :
    ∃ t, s.posts[s.device.taken]? = some t ∧ s.vg.holds t.req ∧
      s.posts.length = s.device.taken + 1 := by
  have htaken : s.device.taken ≠ s.posts.length := by
    intro heq
    rw [h.lastAvail, h.availIdx, heq] at hne
    exact hne rfl
  have htakenLe := h.takenLe
  have hcompleted := h.completedLe
  have hconsumed := h.consumedLe
  have hbehind := h.behind
  have hall : s.posts.length = s.consumed + 1 := by omega
  have hsame : s.device.taken = s.consumed := by omega
  have hlt : s.consumed < s.posts.length := by omega
  have hget := List.getElem?_eq_getElem hlt
  refine ⟨s.posts[s.consumed], ?_, h.desc hall _ hget, by omega⟩
  rw [hsame]
  exact hget

omit [DecidableEq ι] in
theorem VgInv.devTake {s s' : VgSys ι} (h : VgInv s) (hs : vgDeviceStep .devTake s = some s') :
    VgInv s' := by
  simp only [vgDeviceStep] at hs
  split at hs
  · cases hs
  · rename_i hne
    obtain ⟨t, ht, hholds, hlength⟩ := h.taken_chain hne
    -- the head is 0, and descriptor 0 leads to descriptor 1
    have hhead : s.vg.availRing (ringCell vgQnum s.device.lastAvail) = 0 := h.heads _
    have hfirst : s.vg.desc (ringCell vgQnum 0) = t.req.desc0 := hholds.1
    have hsecond : s.vg.desc (ringCell vgQnum t.req.desc0.next) = t.req.desc1 := hholds.2
    rw [hhead, hfirst, hsecond] at hs
    cases hs
    refine ⟨h.availIdx, h.lastUsed, h.usedIdx, ?_, h.heads, hlength.ge, h.behind, h.consumedLe,
      ?_, h.prepared, h.waits, h.desc, fun c hc => ?_, h.written⟩
    · change s.device.lastAvail + 1 = .ofNat (s.device.taken + 1)
      rw [h.lastAvail, counter_succ]
    · rw [List.range_succ]
      exact ((List.perm_append_singleton _ _).symm.trans
        (List.Perm.append_right _ h.tickets)).trans (List.Perm.refl _)
    · rcases hc with hc | hc
      · rcases List.mem_cons.mp hc with rfl | hc
        · exact ⟨t, ht, rfl, rfl, rfl, rfl, rfl⟩
        · exact h.chains c (.inl hc)
      · exact h.chains c (.inr hc)

omit [DecidableEq ι] in
theorem VgInv.devRespond {s s' : VgSys ι} (h : VgInv s) {c : VgChain}
    (hs : vgDeviceStep (.devRespond c) s = some s') : VgInv s' := by
  simp only [vgDeviceStep] at hs
  split at hs
  · rename_i hc
    cases hs
    have hmoved : s.device.pending.Perm (c :: s.device.pending.erase c) :=
      List.perm_cons_erase hc
    refine ⟨h.availIdx, h.lastUsed, h.usedIdx, h.lastAvail, h.heads, h.takenLe, h.behind,
      h.consumedLe, ?_, h.prepared, h.waits, h.desc, fun d hd => ?_, fun n hn => ?_⟩
    · refine List.Perm.trans (List.Perm.append_right _ ?_) h.tickets
      refine List.Perm.append_right _ ?_
      refine List.perm_middle.trans ?_
      rw [← List.cons_append]
      exact List.Perm.append_right _ (hmoved.map VgChain.ticket).symm
    · refine h.chains d ?_
      rcases hd with hd | hd | hd
      · exact .inl (List.mem_of_mem_erase hd)
      · rcases List.mem_cons.mp hd with rfl | hd
        · exact .inl hc
        · exact .inr (.inl hd)
      · exact .inr (.inr hd)
    · have hnew : n = c.ticket ∨ (n ∈ s.device.responded.map VgChain.ticket ∨
          n ∈ s.device.element.toList.map VgChain.ticket ∨ n ∈ s.completed) := by
        rcases hn with hn | hn
        · rw [List.map_cons, List.mem_cons] at hn
          exact hn.imp_right .inl
        · exact .inr (.inr hn)
      rcases hnew with rfl | hn
      · obtain ⟨t, ht, hfor⟩ := h.chains c (.inl hc)
        exact ⟨c, List.mem_cons_self, rfl, t, ht, hfor⟩
      · obtain ⟨d, hd, hticket, hfor⟩ := h.written n hn
        exact ⟨d, List.mem_cons_of_mem _ hd, hticket, hfor⟩
  · cases hs

omit [DecidableEq ι] in
theorem VgInv.devElement {s s' : VgSys ι} (h : VgInv s) {c : VgChain}
    (hs : vgDeviceStep (.devElement c) s = some s') : VgInv s' := by
  simp only [vgDeviceStep] at hs
  split at hs
  · rename_i hc
    obtain ⟨hc, hnone⟩ := hc
    cases hs
    have hmoved : s.device.responded.Perm (c :: s.device.responded.erase c) :=
      List.perm_cons_erase hc
    refine ⟨h.availIdx, h.lastUsed, h.usedIdx, h.lastAvail, h.heads, h.takenLe, h.behind,
      h.consumedLe, ?_, h.prepared, h.waits, h.desc, fun d hd => ?_, fun n hn => ?_⟩
    · refine List.Perm.trans (List.Perm.append_right _ ?_) h.tickets
      simp only [VgDevice.tickets, hnone, Option.toList_none, List.map_nil, List.append_nil,
        Option.toList_some, List.map_cons]
      rw [List.append_assoc]
      refine List.Perm.append_left _ ?_
      exact (List.perm_append_singleton _ _).trans (hmoved.map VgChain.ticket).symm
    · refine h.chains d ?_
      rcases hd with hd | hd | hd
      · exact .inl hd
      · exact .inr (.inl (List.mem_of_mem_erase hd))
      · cases hd
        exact .inr (.inl hc)
    · refine h.written n ?_
      rcases hn with hn | hn | hn
      · exact .inl (hmoved.map VgChain.ticket |>.mem_iff.mpr (List.mem_cons_of_mem _ hn))
      · rcases List.mem_singleton.mp hn with rfl
        exact .inl (List.mem_map_of_mem hc)
      · exact .inr (.inr hn)
  · cases hs

omit [DecidableEq ι] in
theorem VgInv.devIndex {s s' : VgSys ι} (h : VgInv s) (hs : vgDeviceStep .devIndex s = some s') :
    VgInv s' := by
  simp only [vgDeviceStep] at hs
  cases helement : s.device.element with
  | none =>
      rw [helement] at hs
      cases hs
  | some c =>
      rw [helement] at hs
      cases hs
      have hlength : (s.completed ++ [c.ticket]).length = s.completed.length + 1 :=
        List.length_append
      refine ⟨h.availIdx, h.lastUsed, ?_, h.lastAvail, h.heads, h.takenLe, h.behind,
        h.consumedLe.trans (hlength ▸ Nat.le_succ _), ?_, h.prepared, h.waits, h.desc,
        fun d hd => ?_, fun n hn => ?_⟩
      · change s.vg.usedIdx + 1 = .ofNat (s.completed ++ [c.ticket]).length
        rw [h.usedIdx, counter_succ, hlength]
      · refine List.Perm.trans ?_ h.tickets
        simp only [VgDevice.tickets, helement, Option.toList_none, List.map_nil, List.append_nil,
          Option.toList_some, List.map_cons]
        rw [List.append_assoc _ [c.ticket]]
        exact List.Perm.append_left _ (List.perm_append_comm)
      · refine h.chains d ?_
        rcases hd with hd | hd | hd
        · exact .inl hd
        · exact .inr (.inl hd)
        · cases hd
      · refine h.written n ?_
        rcases hn with hn | hn | hn
        · exact .inl hn
        · cases hn
        · rcases List.mem_append.mp hn with hn | hn
          · exact .inr (.inr hn)
          · rcases List.mem_singleton.mp hn with rfl
            exact .inr (.inl (by rw [helement]; exact List.mem_singleton_self _))

/-! ## Runs -/

omit [DecidableEq ι] in
theorem VgInv.init : VgInv (VgSys.init ι) where
  availIdx := rfl
  lastUsed := rfl
  usedIdx := rfl
  lastAvail := rfl
  heads _ := rfl
  takenLe := Nat.le_refl _
  behind := Nat.zero_le _
  consumedLe := Nat.le_refl _
  tickets := List.Perm.refl _
  prepared _ _ h := nomatch h
  waits _ _ _ h := nomatch h
  desc h := nomatch h
  chains _ h := by
    rcases h with h | h | h
    · cases h
    · cases h
    · cases h
  written _ h := by
    rcases h with h | h | h
    · cases h
    · cases h
    · cases h

theorem vgStep_call {op : VgOp ι} {p : ι} (h : op.caller = some p) (s : VgSys ι) :
    vgStep op s = if s.cpu = some p then vgCallStep op s else none := by
  cases op <;> cases h <;> rfl

/-- A step of the caller that executes keeps the invariant. -/
theorem VgInv.call {s s' : VgSys ι} (h : VgInv s) {op : VgOp ι} {p : ι}
    (hcaller : op.caller = some p) (hs : vgStep op s = some s') : VgInv s' := by
  rw [vgStep_call hcaller] at hs
  obtain ⟨hcpu, hs⟩ := Option.ite_none_right_eq_some.mp hs
  cases op <;> cases hcaller <;> simp only [vgCallStep] at hs
  case post =>
    split at hs
    · rename_i hp
      cases hs
      exact h.post hp
    · cases hs
  case poll =>
    split at hs
    · rename_i hp
      cases hs
      exact h.goto_waits (.inl hcpu) nofun (.inr (by rw [hp]; rfl))
    · rename_i hp
      split at hs <;> cases hs
      · exact h.goto_waits (.inl hcpu) nofun (.inr (by rw [hp]; rfl))
      · exact h.goto_waits (.inl hcpu) nofun (.inr (by rw [hp]; rfl))
    · cases hs
  case check =>
    split at hs
    · rename_i hp
      split at hs <;> cases hs
      · exact h.goto_waits (.inl hcpu) nofun (.inr (by rw [hp]; rfl))
      · exact h.goto_waits (.inl hcpu) nofun (.inr (by rw [hp]; rfl))
    · cases hs
  case retry =>
    split at hs
    · rename_i hp
      split at hs <;> cases hs
      · exact h.goto_waits (.inl hcpu) nofun (.inr (by rw [hp]; rfl))
      · exact h.goto_waits (.inl hcpu) nofun (.inr (by rw [hp]; rfl))
    · cases hs
  case finish =>
    split at hs
    · rename_i hp
      split at hs <;> cases hs
      · rename_i hok
        exact h.succeed hp hok hcpu
      · exact h.goto_waits (.inl hcpu) nofun (.inl rfl)
    · cases hs

theorem VgInv.step {s s' : VgSys ι} (h : VgInv s) {op : VgOp ι} (hsync : Synced s op)
    (hs : vgStep op s = some s') : VgInv s' := by
  cases op with
  | submit p r =>
      simp only [vgStep] at hs
      split at hs
      · split at hs
        · cases hs
        · rename_i hcpu
          split at hs
          · cases hs
            exact h
          · cases hs
            exact h.submit r (not_not.mp hcpu) (hsync p r rfl)
      · cases hs
  | wake p =>
      simp only [vgStep] at hs
      split at hs
      · rename_i hp
        split at hs
        · cases hs
        · rename_i hcpu
          cases hs
          exact h.goto_waits (.inr (not_not.mp hcpu)) nofun (.inr (by rw [hp]; rfl))
      · cases hs
  | post p => exact h.call rfl hs
  | poll p => exact h.call rfl hs
  | check p => exact h.call rfl hs
  | retry p => exact h.call rfl hs
  | finish p => exact h.call rfl hs
  | devTake => exact h.devTake hs
  | devRespond c => exact h.devRespond hs
  | devElement c => exact h.devElement hs
  | devIndex => exact h.devIndex hs

theorem VgReachable.inv {s : VgSys ι} (h : VgReachable Synced s) : VgInv s := by
  induction h with
  | init => exact VgInv.init
  | step op _ hs hsync ih => exact ih.step hsync hs

/-- As long as no call starts while `vg_last_used` is behind `vg_avail.idx`, a command
reports its own completion and descriptors are reused only when nobody owns them. -/
theorem ownCompletion_of_synced {s : VgSys ι} (h : VgReachable Synced s) : OwnCompletion s := by
  have hinv := h.inv
  refine ⟨fun p r n hp hok => ?_, fun p r hp n t hn _ => ?_⟩
  · have hne : s.vg.lastUsed ≠ s.vg.usedIdx := of_decide_eq_true (Bool.and_eq_true_iff.mp hok).1
    obtain ⟨hposts, hcompleted⟩ := hinv.used_new hne
    have hwaits : (s.phase p).waits = some (r, n) := by
      rw [hp]
      rfl
    obtain ⟨hget, hlast, -⟩ := hinv.waits p r n hwaits
    have hmem : n ∈ s.completed := hinv.all_completed (by omega) (by omega)
    obtain ⟨c, hc, hticket, t, ht, hfor⟩ := hinv.written n (.inr (.inr hmem))
    rw [hget] at ht
    cases ht
    exact ⟨hmem, hget, c, hc, hticket, hfor⟩
  · have hall := (hinv.prepared p r hp).2.1
    have hconsumed := hinv.consumedLe
    exact hinv.all_completed (by omega) (List.getElem?_eq_some_iff.mp hn).1

/-! ## A call that gives up -/

/-- A list of steps, each of which can happen and passes the check. -/
def vgRun (check : VgSys ι → VgOp ι → Bool) : List (VgOp ι) → VgSys ι → Option (VgSys ι)
  | [], s => some s
  | op :: ops, s => if check s op then (vgStep op s).bind (vgRun check ops) else none

theorem VgReachable.run {ok : VgSys ι → VgOp ι → Prop} {check : VgSys ι → VgOp ι → Bool}
    (hcheck : ∀ s op, check s op = true → ok s op) {ops : List (VgOp ι)} {s s' : VgSys ι}
    (hs : VgReachable ok s) (h : vgRun check ops s = some s') : VgReachable ok s' := by
  induction ops generalizing s with
  | nil =>
      cases h
      exact hs
  | cons op ops ih =>
      unfold vgRun at h
      split at h
      · rename_i hpass
        obtain ⟨s₁, hstep, hrun⟩ := Option.bind_eq_some_iff.mp h
        exact ih (hs.step op hstep (hcheck s op hpass)) hrun
      · cases h

/-- `Synced`, computed. -/
def synced (s : VgSys ι) : VgOp ι → Bool
  | .submit _ _ => decide (s.vg.lastUsed = s.vg.availIdx)
  | _ => true

omit [DecidableEq ι] in
theorem synced_sound (s : VgSys ι) (op : VgOp ι) (h : synced s op = true) : Synced s op := by
  rintro p r rfl
  exact of_decide_eq_true h

/-- The requests of a transfer and of a flush, from a caller that may not sleep. -/
def vgTransfer : VgReq := ⟨4096, 56, 8192, 24, false⟩

def vgFlush : VgReq := ⟨12288, 48, 16384, 24, false⟩

/-- The device completes the transfer. -/
def vgServe : List (VgOp Bool) :=
  let c : VgChain := ⟨0, 0, 4096, 56, 8192, 24⟩
  [.devTake, .devRespond c, .devElement c, .devIndex]

theorem ownCompletion_of_synced_prompt :
    ∃ s, vgRun synced ([.submit false vgTransfer, .post false] ++ vgServe ++
      [.poll false, .check false]) (.init Bool) = some s ∧ OwnCompletion s := by
  have hsome : (vgRun synced ([.submit false vgTransfer, .post false] ++ vgServe ++
      [.poll false, .check false]) (.init Bool)).isSome = true := by
    decide +kernel
  obtain ⟨s, hs⟩ := Option.isSome_iff_exists.mp hsome
  exact ⟨s, hs, ownCompletion_of_synced (VgReachable.init.run synced_sound hs)⟩

/-- A caller polls in vain until its count is used up. -/
theorem VgReachable.polls {s : VgSys ι} {p : ι} {r : VgReq} {n : Nat}
    (hnone : s.vg.lastUsed = s.vg.usedIdx) (k : Nat)
    (h : VgReachable (fun _ _ => True) (s.goto p (.polling r n k) (some p))) :
    VgReachable (fun _ _ => True) (s.goto p (.polling r n 0) (some p)) := by
  induction k with
  | zero => exact h
  | succ k ih =>
      refine ih (h.step (.poll p) ?_ trivial)
      have hself := VgSys.goto_self s p (.polling r n (k + 1)) (some p)
      have hsame : (s.goto p (.polling r n (k + 1)) (some p)).goto p (.polling r n k) (some p) =
          s.goto p (.polling r n k) (some p) := by
        simp only [VgSys.goto, Function.update_idem]
      have hcpu : (s.goto p (.polling r n (k + 1)) (some p)).cpu = some p := rfl
      rw [vgStep_call (p := p) rfl, if_pos hcpu]
      simp only [vgCallStep]
      rw [hself]
      change (if s.vg.lastUsed ≠ s.vg.usedIdx then _ else _) = _
      rw [if_neg (not_not.mpr hnone), hsame]

/-- The transfer is posted. -/
def vgPosted : VgSys Bool :=
  { VgSys.init Bool with
    vg := vgPost (vgPrepare vgTransfer .init)
    posts := [⟨false, vgTransfer⟩] }

theorem vgPosted_reachable : VgReachable (fun _ _ => True)
    (vgPosted.goto false (.polling vgTransfer 0 vgPollMax) (some false)) := by
  have hsubmit : VgReachable (fun _ _ => True)
      ({ VgSys.init Bool with vg := vgPrepare vgTransfer .init }.goto false
        (.prepared vgTransfer) (some false)) :=
    VgReachable.init.step (.submit false vgTransfer) rfl trivial
  refine hsubmit.step (.post false) ?_ trivial
  change some (VgSys.goto (VgSys.goto vgPosted _ _ _) _ _ _) = _
  simp only [VgSys.goto, Function.update_idem]
  rfl

/-- The transfer times out before the device completes it; the flush that follows takes
that completion for its own. -/
theorem ownCompletion_fails :
    ¬ ∀ s : VgSys Bool, VgReachable (fun _ _ => True) s → OwnCompletion s := by
  intro hall
  have htimeout := vgPosted_reachable.polls rfl vgPollMax
  have hrun : (vgRun (fun _ _ => true)
      ([.poll false, .check false, .finish false] ++ vgServe ++
        [.submit false vgFlush, .post false, .poll false, .check false])
      (vgPosted.goto false (.polling vgTransfer 0 0) (some false))).any (fun s =>
        decide (s.phase false = .final vgFlush 1) && vgSucceeds s.vg &&
          decide (1 ∉ s.completed)) = true := by
    decide +kernel
  obtain ⟨s, hs, hvals⟩ := (Option.any_eq_true _ _).mp hrun
  simp only [Bool.and_eq_true, decide_eq_true_eq, and_assoc] at hvals
  obtain ⟨hphase, hok, hmissing⟩ := hvals
  have hown := hall s (htimeout.run (fun _ _ _ => trivial) hs)
  exact hmissing (hown.own false vgFlush 1 hphase hok).1

end Sugimotos.Drivers
