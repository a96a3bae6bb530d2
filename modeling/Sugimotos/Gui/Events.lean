/-
# Window events

The event ring of a window under `wm_queue_event` and `wm_poll_event`, compared with
a mailbox that keeps, for every entry, the calls that went into it.
-/

import Sugimotos.Gui.Wm
import Sugimotos.Math.RingQueue

namespace Sugimotos.Gui

open Sugimotos.Math

/-- `wm_poll_event` on a window. -/
def WmWindow.pollEvent (w : WmWindow) : Option WmEvent × WmWindow :=
  if w.evHead = w.evTail then (none, w)
  else (some (w.evRing w.evHead), { w with evHead := (w.evHead + 1) % wmEventRingSize })

/-- The events in the ring of a window. -/
def WmWindow.events (w : WmWindow) : List WmEvent :=
  ringList w.evRing wmEventRingSize w.evHead w.evTail

/-- Both indices name a cell. -/
structure WmWindow.InRing (w : WmWindow) : Prop where
  head : w.evHead < wmEventRingSize
  tail : w.evTail < wmEventRingSize

/-- The ring has no room for one more entry. -/
def WmWindow.Full (w : WmWindow) : Prop := (w.evTail + 1) % wmEventRingSize = w.evHead

instance (w : WmWindow) : Decidable w.Full := inferInstanceAs (Decidable (_ = _))

theorem WmWindow.InRing.full_iff {w : WmWindow} (h : w.InRing) :
    w.Full ↔ w.events.length = 255 := by
  have hfull : w.Full ↔ w.events.length + 1 = 255 + 1 := ringNext_eq_head h.head h.tail
  rw [hfull]
  exact Nat.add_right_cancel_iff

theorem WmWindow.InRing.events_eq_nil {w : WmWindow} (h : w.InRing) :
    w.events = [] ↔ w.evHead = w.evTail :=
  ringList_eq_nil h.head h.tail

theorem pollEvent_spec {w : WmWindow} (h : w.InRing) :
    match w.events with
    | [] => w.pollEvent = (none, w)
    | e :: rest => w.pollEvent.1 = some e ∧ w.pollEvent.2.events = rest ∧
        w.pollEvent.2.InRing ∧ w.pollEvent.2.id = w.id ∧
        w.pollEvent.2.evOverflowLatched = w.evOverflowLatched := by
  by_cases hempty : w.evHead = w.evTail
  · rw [h.events_eq_nil.mpr hempty]
    exact if_pos hempty
  · have hcons : w.events = w.evRing w.evHead :: ringList w.evRing wmEventRingSize _ w.evTail :=
      ringList_take h.head h.tail hempty
    rw [hcons]
    unfold WmWindow.pollEvent
    rw [if_neg hempty]
    exact ⟨rfl, rfl, ⟨ringNext_lt h.head, h.tail⟩, rfl, rfl⟩

/-- Whether a new event is merged into the newest entry of the ring. -/
def WmEvent.Joins (prev : WmEvent) (type windowId : UInt32) : Prop :=
  (type = wmEvPointerMove ∧ prev.type = wmEvPointerMove ∨
    type = wmEvWheel ∧ prev.type = wmEvWheel) ∧ prev.windowId = windowId

/-- The four ways out of `wm_queue_event`. -/
inductive QueueCase (w : WmWindow) (type windowId a b c d : UInt32) (tick : UInt64) :
    WmWindow × UInt64 → Prop
  | merged {w' : WmWindow} {l : List WmEvent} {prev : WmEvent} (hin : w'.InRing)
      (hevents : w.events = l ++ [prev]) (hjoins : prev.Joins type windowId)
      (hevents' : w'.events = l ++
        [⟨prev.type, prev.windowId, tick, if type = wmEvWheel then prev.a + a else a, b, c, d⟩])
      (hid : w'.id = w.id) (hlatch : w'.evOverflowLatched = w.evOverflowLatched) :
      QueueCase w type windowId a b c d tick (w', tick + 1)
  | appended {w' : WmWindow} (hin : w'.InRing)
      (hjoins : ∀ prev, w.events.getLast? = some prev → ¬ prev.Joins type windowId)
      (hroom : ¬ w.Full) (hevents' : w'.events = w.events ++ [⟨type, windowId, tick, a, b, c, d⟩])
      (hid : w'.id = w.id) (hlatch : w'.evOverflowLatched = w.evOverflowLatched) :
      QueueCase w type windowId a b c d tick (w', tick + 1)
  | marked {w' : WmWindow} {marker : WmEvent} (hin : w'.InRing)
      (hjoins : ∀ prev, w.events.getLast? = some prev → ¬ prev.Joins type windowId)
      (hfull : w.Full) (hlatch : w.evOverflowLatched = false)
      (hevents' : w'.events = w.events.tail ++ [marker])
      (hmarker : marker.type = wmEvOverflow ∧
        marker.windowId = UInt32.ofNat (w.id % 2 ^ 32).toNat ∧ marker.timestampMs = tick)
      (hid : w'.id = w.id)
      (hlatch' : w'.evOverflowLatched = true) :
      QueueCase w type windowId a b c d tick (w', tick + 1)
  | refused (hjoins : ∀ prev, w.events.getLast? = some prev → ¬ prev.Joins type windowId)
      (hfull : w.Full) (hlatch : w.evOverflowLatched = true) :
      QueueCase w type windowId a b c d tick (w, tick)

theorem queueEvent_case {w : WmWindow} (h : w.InRing) (type windowId a b c d : UInt32)
    (tick : UInt64) :
    QueueCase w type windowId a b c d tick (w.queueEvent type windowId a b c d tick) := by
  have hlast : ∀ x, w.evHead ≠ w.evTail → ∃ l, w.events = l ++ [w.evRing _] ∧ _ = l ++ [x] :=
    fun x hne => ringList_last h.head h.tail hne x
  unfold WmWindow.queueEvent
  dsimp only
  split
  · rename_i hmove
    obtain ⟨hne, htype, hprev, hwindow⟩ := hmove
    obtain ⟨l, hl, hl'⟩ := hlast _ hne
    refine .merged ⟨h.head, h.tail⟩ hl ⟨Or.inl ⟨htype, hprev⟩, hwindow⟩ ?_ rfl rfl
    rw [if_neg (by rw [htype]; decide)]
    exact hl'
  rename_i hmove
  split
  · rename_i hwheel
    obtain ⟨hne, htype, hprev, hwindow⟩ := hwheel
    obtain ⟨l, hl, hl'⟩ := hlast _ hne
    refine .merged ⟨h.head, h.tail⟩ hl ⟨Or.inr ⟨htype, hprev⟩, hwindow⟩ ?_ rfl rfl
    rw [if_pos htype]
    exact hl'
  rename_i hwheel
  have hjoins : ∀ prev, w.events.getLast? = some prev → ¬ prev.Joins type windowId := by
    intro prev hprev hjoin
    have hne : w.evHead ≠ w.evTail := by
      intro heq
      rw [h.events_eq_nil.mpr heq] at hprev
      cases hprev
    obtain ⟨l, hl, -⟩ := hlast prev hne
    rw [hl, List.getLast?_append, List.getLast?_singleton, Option.some_or] at hprev
    cases hprev
    obtain ⟨⟨htype, hp⟩ | ⟨htype, hp⟩, hwindow⟩ := hjoin
    · exact hmove ⟨hne, htype, hp, hwindow⟩
    · exact hwheel ⟨hne, htype, hp, hwindow⟩
  split
  · rename_i hnext
    have hfull : w.Full := hnext
    split
    · rename_i hlatch
      exact .refused hjoins hfull hlatch
    · rename_i hlatch
      have hne : w.evHead ≠ w.evTail := by
        intro heq
        have hlen := h.full_iff.mp hfull
        rw [h.events_eq_nil.mpr heq] at hlen
        cases hlen
      have hroom : ringNext wmEventRingSize w.evTail ≠ ringNext wmEventRingSize w.evHead := by
        intro heq
        have hhead := h.head
        have htail := h.tail
        rw [ringNext_eq h.head, ringNext_eq h.tail] at heq
        split_ifs at heq <;> omega
      have htake : w.events = w.evRing w.evHead :: ringList w.evRing wmEventRingSize _ w.evTail :=
        ringList_take h.head h.tail hne
      have hput := ringList_put (ringNext_lt h.head) h.tail w.evRing hroom
        { w.evRing w.evTail with
          type := wmEvOverflow
          windowId := UInt32.ofNat (w.id % 2 ^ 32).toNat
          timestampMs := tick }
      have htail : w.events.tail =
          ringList w.evRing wmEventRingSize (ringNext wmEventRingSize w.evHead) w.evTail := by
        rw [htake, List.tail_cons]
      rw [← htail] at hput
      exact .marked ⟨ringNext_lt h.head, ringNext_lt h.tail⟩ hjoins hfull
        (Bool.eq_false_iff.mpr hlatch) hput ⟨rfl, rfl, rfl⟩ rfl rfl
  · rename_i hnext
    exact .appended ⟨h.head, ringNext_lt h.tail⟩ hjoins hnext
      (ringList_put h.head h.tail _ hnext _) rfl rfl

/-! ## The mailbox -/

/-- A call of `wm_queue_event` on a window: its number, its arguments, the tick it is
given and how many events had been delivered. -/
structure WmCall where
  index : Nat
  type : UInt32
  windowId : UInt32
  a : UInt32
  b : UInt32
  c : UInt32
  d : UInt32
  tick : Nat
  taken : Nat
  deriving DecidableEq, Repr

/-- Two calls in a row of one kind that can be one event. -/
def WmCall.Joins (prev call : WmCall) : Prop :=
  (call.type = wmEvPointerMove ∧ prev.type = wmEvPointerMove ∨
    call.type = wmEvWheel ∧ prev.type = wmEvWheel) ∧ prev.windowId = call.windowId

instance (prev call : WmCall) : Decidable (prev.Joins call) :=
  inferInstanceAs (Decidable ((_ ∧ _ ∨ _ ∧ _) ∧ _))

/-- What an entry of the ring stands for: a run of calls, or that some were lost. -/
inductive WmItem
  | merged (earlier : List WmCall) (last : WmCall)
  | overflow (tick : Nat)
  deriving DecidableEq, Repr

namespace WmItem

def calls : WmItem → List WmCall
  | merged earlier last => earlier ++ [last]
  | overflow _ => []

def tick : WmItem → Nat
  | merged _ last => last.tick
  | overflow tick => tick

/-- Whether a call continues the run. -/
def Joins (call : WmCall) : WmItem → Prop
  | merged _ last => last.Joins call
  | overflow _ => False

instance (call : WmCall) (item : WmItem) : Decidable (item.Joins call) :=
  match item with
  | merged _ last => inferInstanceAs (Decidable (last.Joins call))
  | overflow _ => inferInstanceAs (Decidable False)

def add (call : WmCall) : WmItem → WmItem
  | merged earlier last => merged (earlier ++ [last]) call
  | overflow tick => overflow tick

end WmItem

/-- The sum of what wheel calls turn the wheel. -/
def wheelSum (calls : List WmCall) : UInt32 := calls.foldl (fun sum call => sum + call.a) 0

/-- The event of an item on the window with this number. -/
def WmItem.Shows (id : Int) (item : WmItem) (ev : WmEvent) : Prop :=
  match item with
  | .merged earlier last =>
      ev = ⟨last.type, last.windowId, .ofNat last.tick,
        if last.type = wmEvWheel then wheelSum (earlier ++ [last]) else last.a,
        last.b, last.c, last.d⟩
  | .overflow tick =>
      ev.type = wmEvOverflow ∧ ev.windowId = UInt32.ofNat (id % 2 ^ 32).toNat ∧
        ev.timestampMs = .ofNat tick

/-- The items delivered and the items waiting, with all calls so far. -/
structure Mailbox where
  delivered : List WmItem
  held : List WmItem
  latched : Bool
  calls : List WmCall
  tick : Nat

namespace Mailbox

def empty (tick : Nat) : Mailbox := ⟨[], [], false, [], tick⟩

def nextCall (type windowId a b c d : UInt32) (m : Mailbox) : WmCall :=
  ⟨m.calls.length, type, windowId, a, b, c, d, m.tick, m.delivered.length⟩

/-- A call that starts a run of its own.  In a full mailbox it is lost; the first time,
the oldest item makes room for an overflow. -/
def append (call : WmCall) (m : Mailbox) : Mailbox :=
  if m.held.length = 255 then
    if m.latched then m
    else
      { m with
        held := m.held.tail ++ [.overflow call.tick]
        latched := true
        tick := m.tick + 1 }
  else { m with held := m.held ++ [.merged [] call], tick := m.tick + 1 }

def queue (type windowId a b c d : UInt32) (m : Mailbox) : Mailbox :=
  let call := m.nextCall type windowId a b c d
  let m := { m with calls := m.calls ++ [call] }
  match m.held.getLast? with
  | none => m.append call
  | some item =>
      if item.Joins call then
        { m with held := m.held.dropLast ++ [item.add call], tick := m.tick + 1 }
      else m.append call

def poll (m : Mailbox) : Mailbox :=
  match m.held with
  | [] => m
  | item :: rest => { m with delivered := m.delivered ++ [item], held := rest }

end Mailbox

/-! ## Runs -/

/-- What happens to a window, or elsewhere to another window that gets an event. -/
inductive EventOp
  | queue (type windowId a b c d : UInt32)
  | poll
  | elsewhere
  deriving DecidableEq, Repr

/-- A window with the tick counter and the events that polls have delivered. -/
structure Channel where
  win : WmWindow
  tick : UInt64
  out : List WmEvent

def Channel.exec (c : Channel) : EventOp → Channel
  | .queue type windowId a b cc d =>
      let r := c.win.queueEvent type windowId a b cc d c.tick
      { c with win := r.1, tick := r.2 }
  | .poll =>
      let r := c.win.pollEvent
      { c with win := r.2, out := c.out ++ r.1.toList }
  | .elsewhere => { c with tick := c.tick + 1 }

/-- A window as `wm_create` leaves its ring. -/
def Channel.opened (id : Int) (tick : UInt64) : Channel :=
  ⟨{ WmWindow.zero with used := true, id := id, visible := true, focusable := true }, tick, []⟩

def Channel.run (c : Channel) (ops : List EventOp) : Channel := ops.foldl Channel.exec c

def Mailbox.exec (m : Mailbox) : EventOp → Mailbox
  | .queue type windowId a b c d => m.queue type windowId a b c d
  | .poll => m.poll
  | .elsewhere => { m with tick := m.tick + 1 }

def Mailbox.run (m : Mailbox) (ops : List EventOp) : Mailbox := ops.foldl Mailbox.exec m

/-- The window does what the mailbox does. -/
structure Mirrors (id : Int) (c : Channel) (m : Mailbox) : Prop where
  inRing : c.win.InRing
  number : c.win.id = id
  tick : c.tick = .ofNat m.tick
  latched : c.win.evOverflowLatched = m.latched
  held : List.Forall₂ (WmItem.Shows id) m.held c.win.events
  delivered : List.Forall₂ (WmItem.Shows id) m.delivered c.out

theorem Shows.joins_iff {id : Int} {item : WmItem} {ev : WmEvent} {call : WmCall}
    (h : item.Shows id ev) : ev.Joins call.type call.windowId ↔ item.Joins call := by
  cases item with
  | merged earlier last =>
      cases h
      exact Iff.rfl
  | overflow tick =>
      have htype : ev.type = wmEvOverflow := h.1
      constructor
      · rintro ⟨⟨-, hmove⟩ | ⟨-, hwheel⟩, -⟩
        · rw [htype] at hmove
          cases hmove
        · rw [htype] at hwheel
          cases hwheel
      · exact False.elim

theorem wheelSum_concat (calls : List WmCall) (call : WmCall) :
    wheelSum (calls ++ [call]) = wheelSum calls + call.a := by
  unfold wheelSum
  rw [List.foldl_append]
  rfl

/-- The entry after a call was merged into it. -/
theorem Shows.add {id : Int} {item : WmItem} {ev : WmEvent} {call : WmCall} (h : item.Shows id ev)
    (hjoins : item.Joins call) :
    (item.add call).Shows id
      ⟨ev.type, ev.windowId, .ofNat call.tick, if call.type = wmEvWheel then ev.a + call.a else call.a,
        call.b, call.c, call.d⟩ := by
  cases item with
  | overflow tick => exact hjoins.elim
  | merged earlier last =>
      cases h
      obtain ⟨hkind, hwindow⟩ := hjoins
      have htype : last.type = call.type := by
        rcases hkind with ⟨hcall, hlast⟩ | ⟨hcall, hlast⟩
        · rw [hcall, hlast]
        · rw [hcall, hlast]
      unfold WmItem.add WmItem.Shows
      dsimp only
      rw [wheelSum_concat (earlier ++ [last]), htype, hwindow]
      split <;> rfl

theorem forall₂_concat {α β : Type} {R : α → β → Prop} {l : List α} {m : List β} {x : α} {y : β}
    (h : List.Forall₂ R l m) (hxy : R x y) : List.Forall₂ R (l ++ [x]) (m ++ [y]) :=
  List.rel_append h (.cons hxy .nil)

/-- The last two of two related lists. -/
theorem forall₂_last {α β : Type} {R : α → β → Prop} {l : List α} {m : List β} {y : β}
    (h : List.Forall₂ R l (m ++ [y])) : ∃ l' x, l = l' ++ [x] ∧ List.Forall₂ R l' m ∧ R x y := by
  have hleft := List.forall₂_take_append l m [y] h
  have hright := List.forall₂_drop_append l m [y] h
  cases hdrop : l.drop m.length with
  | nil =>
      rw [hdrop] at hright
      cases hright
  | cons x rest =>
      rw [hdrop] at hright
      cases hright with
      | cons hxy hrest =>
          cases hrest
          refine ⟨l.take m.length, x, ?_, hleft, hxy⟩
          rw [← hdrop, List.take_append_drop]

/-- The relation between the newest entries. -/
theorem forall₂_getLast {α β : Type} {R : α → β → Prop} {l : List α} {m : List β} {x : α}
    (h : List.Forall₂ R l m) (hx : l.getLast? = some x) : ∃ y, m.getLast? = some y ∧ R x y := by
  obtain ⟨l', rfl⟩ := List.getLast?_eq_some_iff.mp hx
  obtain ⟨m', y, rfl, -, hyx⟩ := forall₂_last h.flip
  exact ⟨y, by rw [List.getLast?_append, List.getLast?_singleton, Option.some_or], hyx⟩

namespace Mailbox

theorem queue_merge {m : Mailbox} {type windowId a b c d : UInt32} {l : List WmItem} {item : WmItem}
    (hheld : m.held = l ++ [item]) (hjoins : item.Joins (m.nextCall type windowId a b c d)) :
    m.queue type windowId a b c d =
      { m with
        held := l ++ [item.add (m.nextCall type windowId a b c d)]
        calls := m.calls ++ [m.nextCall type windowId a b c d]
        tick := m.tick + 1 } := by
  have hlast : m.held.getLast? = some item := List.getLast?_eq_some_iff.mpr ⟨l, hheld⟩
  unfold queue
  dsimp only
  rw [hlast]
  dsimp only
  rw [if_pos hjoins, hheld, List.dropLast_concat]

theorem queue_append {m : Mailbox} {type windowId a b c d : UInt32}
    (hjoins : ∀ item, m.held.getLast? = some item →
      ¬ item.Joins (m.nextCall type windowId a b c d)) :
    m.queue type windowId a b c d =
      append (m.nextCall type windowId a b c d)
        { m with calls := m.calls ++ [m.nextCall type windowId a b c d] } := by
  unfold queue
  dsimp only
  split
  · rfl
  · rename_i item hitem
    exact if_neg (hjoins item hitem)

end Mailbox

theorem Mirrors.full_iff {id : Int} {c : Channel} {m : Mailbox} (h : Mirrors id c m) :
    c.win.Full ↔ m.held.length = 255 := by
  rw [h.inRing.full_iff, h.held.length_eq]

theorem Mirrors.queue {id : Int} {c : Channel} {m : Mailbox} (h : Mirrors id c m)
    (type windowId a b cc d : UInt32) :
    Mirrors id (c.exec (.queue type windowId a b cc d)) (m.queue type windowId a b cc d) := by
  have hcase := queueEvent_case h.inRing type windowId a b cc d c.tick
  have hnext : c.tick + 1 = .ofNat (m.tick + 1) := by
    rw [h.tick]
    exact (UInt64.ofNat_add m.tick 1).symm
  have happend : (∀ prev, c.win.events.getLast? = some prev → ¬ prev.Joins type windowId) →
      ∀ item, m.held.getLast? = some item →
        ¬ item.Joins (m.nextCall type windowId a b cc d) := by
    intro hjoins item hitem hjoin
    obtain ⟨prev, hprev, hshows⟩ := forall₂_getLast h.held hitem
    exact hjoins prev hprev (Shows.joins_iff hshows |>.mpr hjoin)
  unfold Channel.exec
  dsimp only
  generalize c.win.queueEvent type windowId a b cc d c.tick = r at hcase
  cases hcase with
  | merged hin hevents hjoins hevents' hid hlatch =>
      have hheld := h.held
      rw [hevents] at hheld
      obtain ⟨l, item, hl, hrest, hshows⟩ := forall₂_last hheld
      have hjoin : item.Joins (m.nextCall type windowId a b cc d) := (Shows.joins_iff hshows).mp hjoins
      rw [Mailbox.queue_merge hl hjoin]
      refine ⟨hin, hid.trans h.number, hnext, hlatch.trans h.latched, ?_, h.delivered⟩
      dsimp only
      rw [hevents', h.tick]
      exact forall₂_concat hrest (Shows.add hshows hjoin)
  | appended hin hjoins hroom hevents' hid hlatch =>
      rw [Mailbox.queue_append (happend hjoins)]
      unfold Mailbox.append
      rw [if_neg fun hlen => hroom (h.full_iff.mpr hlen)]
      refine ⟨hin, hid.trans h.number, hnext, hlatch.trans h.latched, ?_, h.delivered⟩
      dsimp only
      rw [hevents', h.tick]
      refine forall₂_concat h.held ?_
      unfold WmItem.Shows Mailbox.nextCall
      dsimp only
      split
      · rw [List.nil_append, wheelSum, List.foldl_cons, List.foldl_nil, UInt32.zero_add]
      · rfl
  | marked hin hjoins hfull hlatch hevents' hmarker hid hlatch' =>
      rw [Mailbox.queue_append (happend hjoins)]
      unfold Mailbox.append
      rw [if_pos (h.full_iff.mp hfull), if_neg (by rw [← h.latched, hlatch]; decide)]
      refine ⟨hin, hid.trans h.number, hnext, hlatch', ?_, h.delivered⟩
      dsimp only
      rw [hevents']
      have htail := List.forall₂_drop 1 h.held
      rw [List.drop_one, List.drop_one] at htail
      refine forall₂_concat htail ?_
      rw [h.number, h.tick] at hmarker
      exact hmarker
  | refused hjoins hfull hlatch =>
      rw [Mailbox.queue_append (happend hjoins)]
      unfold Mailbox.append
      rw [if_pos (h.full_iff.mp hfull), if_pos (by rw [← h.latched, hlatch])]
      exact ⟨h.inRing, h.number, h.tick, h.latched, h.held, h.delivered⟩

theorem Mirrors.poll {id : Int} {c : Channel} {m : Mailbox} (h : Mirrors id c m) :
    Mirrors id (c.exec .poll) m.poll := by
  have hpoll := pollEvent_spec h.inRing
  have hheld := h.held
  unfold Channel.exec Mailbox.poll
  dsimp only
  cases hevents : c.win.events with
  | nil =>
      rw [hevents] at hpoll hheld
      change c.win.pollEvent = (none, c.win) at hpoll
      cases hm : m.held with
      | cons item rest =>
          rw [hm] at hheld
          cases hheld
      | nil =>
          rw [hpoll]
          dsimp only
          rw [Option.toList_none, List.append_nil]
          exact h
  | cons ev events =>
      rw [hevents] at hpoll hheld
      obtain ⟨hev, hrest, hin, hid, hlatch⟩ := hpoll
      cases hm : m.held with
      | nil =>
          rw [hm] at hheld
          cases hheld
      | cons item rest =>
          rw [hm] at hheld
          cases hheld with
          | cons hshows hothers =>
              refine ⟨hin, hid.trans h.number, h.tick, hlatch.trans h.latched, ?_, ?_⟩
              · rw [hrest]
                exact hothers
              · rw [hev]
                exact forall₂_concat h.delivered hshows

theorem Mirrors.exec {id : Int} {c : Channel} {m : Mailbox} (h : Mirrors id c m) (op : EventOp) :
    Mirrors id (c.exec op) (m.exec op) := by
  cases op with
  | queue type windowId a b cc d => exact h.queue type windowId a b cc d
  | poll => exact h.poll
  | elsewhere =>
      refine ⟨h.inRing, h.number, ?_, h.latched, h.held, h.delivered⟩
      change c.tick + 1 = _
      rw [h.tick]
      exact (UInt64.ofNat_add m.tick 1).symm

theorem Mirrors.run {id : Int} {c : Channel} {m : Mailbox} (h : Mirrors id c m)
    (ops : List EventOp) : Mirrors id (c.run ops) (m.run ops) := by
  induction ops generalizing c m with
  | nil => exact h
  | cons op ops ih => exact ih (h.exec op)

theorem Mirrors.opened (id : Int) (tick : UInt64) :
    Mirrors id (Channel.opened id tick) (Mailbox.empty tick.toNat) := by
  have hin : (Channel.opened id tick).win.InRing := ⟨Nat.zero_lt_succ 255, Nat.zero_lt_succ 255⟩
  refine ⟨hin, rfl, (UInt64.ofNat_toNat).symm, rfl, ?_, .nil⟩
  rw [hin.events_eq_nil.mpr rfl]
  exact .nil

/-- The events delivered stay as they are. -/
theorem Channel.out_prefix (c : Channel) (ops : List EventOp) : c.out <+: (c.run ops).out := by
  induction ops generalizing c with
  | nil => exact List.prefix_refl _
  | cons op ops ih =>
      refine List.IsPrefix.trans ?_ (ih (c.exec op))
      cases op with
      | queue type windowId a b cc d => exact List.prefix_refl _
      | poll => exact List.prefix_append ..
      | elsewhere => exact List.prefix_refl _

/-! ## A ring that never is full -/

/-- A run of calls: each continues the one before, which is not delivered yet when the
item has `n` before it. -/
def WmItem.IsRun (n : Nat) : WmItem → Prop
  | merged earlier last =>
      (earlier ++ [last]).IsChain fun prev call => prev.Joins call ∧ call.taken ≤ n
  | overflow _ => False

/-- The items are maximal runs: a call that could continue a run starts another one
only when that run has been delivered. -/
structure Coalesced (items : List WmItem) : Prop where
  run : ∀ {n : Nat} {item : WmItem}, items[n]? = some item → item.IsRun n
  maximal : ∀ {n : Nat} {item next : WmItem}, items[n]? = some item →
    items[n + 1]? = some next → ∀ {call : WmCall}, next.calls.head? = some call →
      item.Joins call → n < call.taken

theorem getElem?_concat_some {α : Type} {l : List α} {x y : α} {n : Nat} :
    (l ++ [x])[n]? = some y ↔ l[n]? = some y ∨ n = l.length ∧ y = x := by
  rcases Nat.lt_trichotomy n l.length with hlt | rfl | hgt
  · rw [List.getElem?_append_left hlt]
    exact ⟨Or.inl, fun h => h.elim id fun heq => absurd heq.1 hlt.ne⟩
  · rw [List.getElem?_concat_length, List.getElem?_eq_none (le_refl _)]
    constructor
    · intro h
      exact Or.inr ⟨rfl, (Option.some.inj h).symm⟩
    · rintro (h | ⟨-, rfl⟩)
      · cases h
      · rfl
  · rw [List.getElem?_eq_none (by rw [List.length_append, List.length_singleton]; omega),
      List.getElem?_eq_none hgt.le]
    constructor
    · nofun
    · rintro (h | ⟨heq, -⟩)
      · cases h
      · omega

theorem Coalesced.nil : Coalesced [] := ⟨nofun, nofun⟩

theorem Coalesced.snoc {items : List WmItem} {call : WmCall} (h : Coalesced items)
    (htaken : ∀ item, items.getLast? = some item → item.Joins call →
      items.length - 1 < call.taken) : Coalesced (items ++ [.merged [] call]) := by
  constructor
  · intro n item hitem
    rcases getElem?_concat_some.mp hitem with hold | ⟨rfl, rfl⟩
    · exact h.run hold
    · exact List.isChain_singleton _
  · intro n item next hitem hnext c hc hjoins
    rcases getElem?_concat_some.mp hnext with hold | ⟨hn, rfl⟩
    · rcases getElem?_concat_some.mp hitem with hold' | ⟨rfl, -⟩
      · exact h.maximal hold' hold hc hjoins
      · rw [List.getElem?_eq_none (Nat.le_succ _)] at hold
        cases hold
    · rcases getElem?_concat_some.mp hitem with hold' | ⟨rfl, -⟩
      · cases hc
        have hlast : items.getLast? = some item := by
          rw [List.getLast?_eq_getElem?, ← hn]
          exact hold'
        have hlt := htaken item hlast hjoins
        omega
      · omega

theorem Coalesced.add {items : List WmItem} {item : WmItem} {call : WmCall}
    (h : Coalesced (items ++ [item])) (hjoins : item.Joins call)
    (htaken : call.taken ≤ items.length) : Coalesced (items ++ [item.add call]) := by
  have hitem := h.run (getElem?_concat_some.mpr (Or.inr ⟨rfl, rfl⟩))
  cases item with
  | overflow tick => exact hitem.elim
  | merged earlier last =>
      constructor
      · intro n other hother
        rcases getElem?_concat_some.mp hother with hold | ⟨rfl, rfl⟩
        · exact h.run (getElem?_concat_some.mpr (Or.inl hold))
        · refine List.IsChain.append hitem (List.isChain_singleton _) ?_
          intro prev hprev next hnext
          rw [List.getLast?_append, List.getLast?_singleton, Option.some_or] at hprev
          cases hprev
          cases hnext
          exact ⟨hjoins, htaken⟩
      · intro n other next hother hnext c hc hjoin
        rcases getElem?_concat_some.mp hother with hold | ⟨rfl, rfl⟩
        · rcases getElem?_concat_some.mp hnext with hold' | ⟨hn, rfl⟩
          · exact h.maximal (getElem?_concat_some.mpr (Or.inl hold))
              (getElem?_concat_some.mpr (Or.inl hold')) hc hjoin
          · refine h.maximal (getElem?_concat_some.mpr (Or.inl hold))
              (getElem?_concat_some.mpr (Or.inr ⟨hn, rfl⟩)) ?_ hjoin
            -- the run still begins with the same call
            cases earlier with
            | nil => exact hc
            | cons first rest => exact hc
        · rw [List.getElem?_eq_none (by rw [List.length_append, List.length_singleton])] at hnext
          cases hnext

/-- What holds of a mailbox that never was full. -/
structure Mailbox.Complete (m : Mailbox) : Prop where
  flat : (m.delivered ++ m.held).flatMap WmItem.calls = m.calls
  coalesced : Coalesced (m.delivered ++ m.held)
  ticks : (m.calls.map WmCall.tick).Pairwise (· < ·)
  tick_lt : ∀ call ∈ m.calls, call.tick < m.tick

theorem Mailbox.Complete.empty (tick : Nat) : (Mailbox.empty tick).Complete :=
  ⟨rfl, Coalesced.nil, .nil, nofun⟩

theorem Mailbox.Complete.queue {m : Mailbox} (h : m.Complete) (hroom : m.held.length ≠ 255)
    (type windowId a b c d : UInt32) : (m.queue type windowId a b c d).Complete := by
  have hticks : ((m.calls ++ [m.nextCall type windowId a b c d]).map WmCall.tick).Pairwise
      (· < ·) := by
    rw [List.map_append, List.map_singleton, List.pairwise_append]
    refine ⟨h.ticks, List.pairwise_singleton _ _, ?_⟩
    intro t ht t' ht'
    obtain ⟨call, hcall, rfl⟩ := List.mem_map.mp ht
    cases List.mem_singleton.mp ht'
    exact h.tick_lt call hcall
  have hlt : ∀ call ∈ m.calls ++ [m.nextCall type windowId a b c d], call.tick < m.tick + 1 := by
    intro call hcall
    rcases List.mem_append.mp hcall with hold | hnew
    · exact (h.tick_lt call hold).trans (Nat.lt_succ_self _)
    · cases List.mem_singleton.mp hnew
      exact Nat.lt_succ_self _
  by_cases hjoins : ∃ l item, m.held = l ++ [item] ∧
      item.Joins (m.nextCall type windowId a b c d)
  · obtain ⟨l, item, hheld, hjoin⟩ := hjoins
    rw [Mailbox.queue_merge hheld hjoin]
    have hitems : m.delivered ++ m.held = (m.delivered ++ l) ++ [item] := by
      rw [hheld, List.append_assoc]
    refine ⟨?_, ?_, hticks, hlt⟩
    · dsimp only
      rw [← h.flat, hitems, ← List.append_assoc]
      generalize m.delivered ++ l = items
      rw [List.flatMap_append, List.flatMap_append, List.append_assoc, List.flatMap_singleton,
        List.flatMap_singleton]
      cases item with
      | merged earlier last => rfl
      | overflow tick => exact hjoin.elim
    · dsimp only
      rw [← List.append_assoc]
      have hold := h.coalesced
      rw [hitems] at hold
      refine hold.add hjoin ?_
      rw [List.length_append]
      exact Nat.le_add_right ..
  · have hno : ∀ item, m.held.getLast? = some item →
        ¬ item.Joins (m.nextCall type windowId a b c d) := by
      intro item hitem hjoin
      obtain ⟨l, hl⟩ := List.getLast?_eq_some_iff.mp hitem
      exact hjoins ⟨l, item, hl, hjoin⟩
    rw [Mailbox.queue_append hno]
    unfold Mailbox.append
    rw [if_neg hroom]
    refine ⟨?_, ?_, hticks, hlt⟩
    · dsimp only
      rw [← List.append_assoc, List.flatMap_append, h.flat]
      rfl
    · dsimp only
      rw [← List.append_assoc]
      refine h.coalesced.snoc ?_
      intro item hitem hjoin
      change _ < m.delivered.length
      cases hheld : m.held.getLast? with
      | some last =>
          rw [List.getLast?_append, hheld, Option.some_or] at hitem
          cases hitem
          exact absurd hjoin (hno _ hheld)
      | none =>
          rw [List.getLast?_eq_none_iff.mp hheld, List.append_nil] at hitem ⊢
          have hpos := List.length_pos_of_mem (List.mem_of_getLast? hitem)
          omega

theorem Mailbox.poll_items (m : Mailbox) :
    m.poll.delivered ++ m.poll.held = m.delivered ++ m.held := by
  unfold Mailbox.poll
  split
  · rfl
  · rename_i item rest hheld
    rw [hheld, List.append_assoc]
    rfl

theorem Mailbox.Complete.exec {m : Mailbox} (h : m.Complete) (hroom : m.held.length ≠ 255)
    (op : EventOp) : (m.exec op).Complete := by
  cases op with
  | queue type windowId a b c d => exact h.queue hroom type windowId a b c d
  | poll =>
      have hcalls : m.poll.calls = m.calls ∧ m.poll.tick = m.tick := by
        unfold Mailbox.poll
        split <;> exact ⟨rfl, rfl⟩
      change m.poll.Complete
      refine ⟨?_, ?_, ?_, ?_⟩
      · rw [m.poll_items, hcalls.1]
        exact h.flat
      · rw [m.poll_items]
        exact h.coalesced
      · rw [hcalls.1]
        exact h.ticks
      · rw [hcalls.1, hcalls.2]
        exact h.tick_lt
  | elsewhere =>
      exact ⟨h.flat, h.coalesced, h.ticks, fun call hcall => (h.tick_lt call hcall).trans
        (Nat.lt_succ_self _)⟩

/-- The calls of `wm_queue_event` among the operations. -/
def EventOp.isQueue : EventOp → Bool
  | .queue .. => true
  | _ => false

def WmCall.op (call : WmCall) : EventOp :=
  .queue call.type call.windowId call.a call.b call.c call.d

theorem Mailbox.queue_calls (m : Mailbox) (type windowId a b c d : UInt32) :
    (m.queue type windowId a b c d).calls =
      m.calls ++ [m.nextCall type windowId a b c d] := by
  unfold Mailbox.queue Mailbox.append
  dsimp only
  split
  · split
    · split <;> rfl
    · rfl
  · split
    · rfl
    · split
      · split <;> rfl
      · rfl

/-- The mailbox records all calls. -/
theorem Mailbox.run_calls (m : Mailbox) (ops : List EventOp) :
    (m.run ops).calls.map WmCall.op = m.calls.map WmCall.op ++ ops.filter EventOp.isQueue := by
  induction ops generalizing m with
  | nil => rw [List.filter_nil, List.append_nil]; rfl
  | cons op ops ih =>
      refine (ih (m.exec op)).trans ?_
      cases op with
      | queue type windowId a b c d =>
          change ((m.queue type windowId a b c d).calls.map _) ++ _ = _
          rw [Mailbox.queue_calls, List.map_append, List.append_assoc, List.filter_cons_of_pos rfl]
          rfl
      | poll =>
          have hcalls : m.poll.calls = m.calls := by
            unfold Mailbox.poll
            split <;> rfl
          change (m.poll.calls.map _) ++ _ = _
          rw [hcalls, List.filter_cons_of_neg (by decide)]
      | elsewhere => rw [List.filter_cons_of_neg (by decide)]; rfl

theorem Mailbox.run_concat (m : Mailbox) (ops : List EventOp) (op : EventOp) :
    m.run (ops ++ [op]) = (m.run ops).exec op := by
  unfold Mailbox.run
  rw [List.foldl_append]
  rfl

theorem items_ticks {items : List WmItem}
    (h : ∀ {n : Nat} {item : WmItem}, items[n]? = some item → item.IsRun n) :
    (items.map WmItem.tick).Sublist ((items.flatMap WmItem.calls).map WmCall.tick) := by
  have hrun : ∀ item ∈ items, ∃ earlier last, item = .merged earlier last := by
    intro item hitem
    obtain ⟨n, hn⟩ := List.mem_iff_getElem?.mp hitem
    cases item with
    | merged earlier last => exact ⟨earlier, last, rfl⟩
    | overflow tick => exact (h hn).elim
  clear h
  induction items with
  | nil => exact .slnil
  | cons item rest ih =>
      obtain ⟨earlier, last, rfl⟩ := hrun item (List.mem_cons_self ..)
      have hrest := ih fun other hother => hrun other (List.mem_cons_of_mem _ hother)
      rw [List.flatMap_cons, List.map_append, List.map_cons]
      change List.Sublist ([last.tick] ++ rest.map WmItem.tick) _
      refine List.Sublist.append ?_ hrest
      unfold WmItem.calls
      rw [List.map_append]
      exact List.sublist_append_right ..

/-- While the ring is never full, what polls deliver and what waits are the maximal
runs of the calls, each as one event with the tick of its last call. -/
theorem wm_events_coalesced (id : Int) (tick : UInt64) (ops : List EventOp)
    (hroom : ∀ before ∈ ops.inits, ¬ ((Channel.opened id tick).run before).win.Full) :
    let c := (Channel.opened id tick).run ops
    let m := (Mailbox.empty tick.toNat).run ops
    m.calls.map WmCall.op = ops.filter EventOp.isQueue ∧
      (m.delivered ++ m.held).flatMap WmItem.calls = m.calls ∧
      Coalesced (m.delivered ++ m.held) ∧
      List.Forall₂ (WmItem.Shows id) m.delivered c.out ∧
      List.Forall₂ (WmItem.Shows id) m.held c.win.events ∧
      (m.delivered.map WmItem.tick).Pairwise (· < ·) ∧
      ∀ more, c.out <+: (c.run more).out := by
  have hmirrors := (Mirrors.opened id tick).run ops
  have hcomplete : ((Mailbox.empty tick.toNat).run ops).Complete := by
    induction ops using List.reverseRecOn with
    | nil => exact Mailbox.Complete.empty tick.toNat
    | append_singleton ops op ih =>
        have hbefore : ∀ before ∈ ops.inits, before ∈ (ops ++ [op]).inits := by
          intro before hin
          rw [List.mem_inits] at hin ⊢
          exact hin.trans (List.prefix_append ..)
        have hold := (Mirrors.opened id tick).run ops
        rw [Mailbox.run_concat]
        refine (ih (fun before hin => hroom before (hbefore before hin)) hold).exec ?_ op
        intro hlen
        exact hroom ops (hbefore ops ((List.mem_inits ..).mpr (List.prefix_refl _)))
          (hold.full_iff.mpr hlen)
  refine ⟨?_, hcomplete.flat, hcomplete.coalesced, hmirrors.delivered, hmirrors.held, ?_,
    Channel.out_prefix _⟩
  · rw [Mailbox.run_calls]
    rfl
  · have hsub := items_ticks hcomplete.coalesced.run
    rw [hcomplete.flat, List.map_append] at hsub
    exact (hcomplete.ticks.sublist hsub).sublist (List.sublist_append_left ..)

/-- Two turns of the wheel before a poll, and one after it. -/
def wheelOps : List EventOp :=
  [.queue wmEvWheel 1 2 0 0 0, .queue wmEvWheel 1 3 7 0 0, .poll, .queue wmEvWheel 1 4 0 0 0]

theorem wm_events_coalesced_wheel :
    ((Channel.opened 1 0).run wheelOps).out = [⟨wmEvWheel, 1, 1, 5, 7, 0, 0⟩] ∧
      Coalesced (((Mailbox.empty 0).run wheelOps).delivered ++
        ((Mailbox.empty 0).run wheelOps).held) := by
  have h := wm_events_coalesced 1 0 wheelOps (by decide +kernel)
  exact ⟨by decide +kernel, h.2.2.1⟩

theorem Mailbox.held_length_le (m : Mailbox) (ops : List EventOp) :
    (m.run ops).held.length ≤ m.held.length + ops.countP EventOp.isQueue := by
  induction ops generalizing m with
  | nil => exact le_refl _
  | cons op ops ih =>
      refine (ih (m.exec op)).trans ?_
      rw [List.countP_cons, Nat.add_comm (ops.countP _), ← Nat.add_assoc]
      refine Nat.add_le_add_right ?_ _
      cases op with
      | queue type windowId a b c d =>
          change (m.queue type windowId a b c d).held.length ≤ m.held.length + 1
          unfold Mailbox.queue Mailbox.append
          dsimp only
          split
          · split
            · split
              · exact Nat.le_succ _
              · dsimp only
                rw [List.length_append, List.length_tail, List.length_singleton]
                omega
            · dsimp only
              rw [List.length_append, List.length_singleton]
          · split
            · dsimp only
              rw [List.length_append, List.length_dropLast, List.length_singleton]
              omega
            · split
              · split
                · exact Nat.le_succ _
                · dsimp only
                  rw [List.length_append, List.length_tail, List.length_singleton]
                  omega
              · dsimp only
                rw [List.length_append, List.length_singleton]
      | poll =>
          change m.poll.held.length ≤ m.held.length + 0
          unfold Mailbox.poll
          split
          · exact le_refl _
          · rename_i item rest hheld
            rw [hheld]
            exact Nat.le_succ _
      | elsewhere => exact le_refl _

theorem Channel.run_elsewhere (c : Channel) (n : Nat) :
    c.run (List.replicate n .elsewhere) = { c with tick := c.tick + .ofNat n } := by
  induction n generalizing c with
  | zero =>
      change c = { c with tick := c.tick + 0 }
      rw [UInt64.add_zero]
  | succ n ih =>
      rw [List.replicate_succ]
      refine (ih (c.exec .elsewhere)).trans ?_
      unfold Channel.exec
      dsimp only
      rw [UInt64.add_assoc, Nat.add_comm n, UInt64.ofNat_add]
      rfl

/-- A focus event that is delivered at once. -/
def focusOps : List EventOp := [.queue wmEvFocusIn 1 0 0 0 0, .poll]

/-- The tick counter of 64 bits comes round. -/
theorem wm_events_tick_wraps : ¬ ∀ (id : Int) (tick : UInt64) (ops : List EventOp),
    (∀ before ∈ ops.inits, ¬ ((Channel.opened id tick).run before).win.Full) →
    (((Channel.opened id tick).run ops).out.map WmEvent.timestampMs).Pairwise (· < ·) := by
  intro hall
  have hout := hall 1 0 (focusOps ++ (List.replicate (2 ^ 64 - 1) .elsewhere ++ focusOps)) ?_
  · have hrun : ∀ c : Channel, c.run (focusOps ++
        (List.replicate (2 ^ 64 - 1) EventOp.elsewhere ++ focusOps)) =
        ((c.run focusOps).run (List.replicate (2 ^ 64 - 1) .elsewhere)).run focusOps := by
      intro c
      unfold Channel.run
      rw [List.foldl_append, List.foldl_append]
    rw [hrun, Channel.run_elsewhere] at hout
    revert hout
    decide +kernel
  · intro before hbefore hfull
    have hmirrors := (Mirrors.opened 1 0).run before
    have hlen := hmirrors.full_iff.mp hfull
    have hle := (Mailbox.empty (0 : UInt64).toNat).held_length_le before
    have hcount : before.countP EventOp.isQueue ≤ _ :=
      ((List.mem_inits ..).mp hbefore).sublist.countP_le
    rw [List.countP_append, List.countP_append, List.countP_replicate] at hcount
    rw [hlen] at hle
    have htwo : focusOps.countP EventOp.isQueue = 1 := by decide
    rw [htwo] at hcount
    change 255 ≤ 0 + before.countP EventOp.isQueue at hle
    change before.countP EventOp.isQueue ≤ 1 + (0 + 1) at hcount
    omega

end Sugimotos.Gui
