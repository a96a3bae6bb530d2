/-
# Reports of lost window events

When the event ring of a window overflows, one overflow event tells the reader.  Here
is when every stretch between two moments with an empty ring that loses an event
also delivers such a report.
-/

import Sugimotos.Gui.Events

namespace Sugimotos.Gui

/-- Whether the event of an item is an overflow event. -/
def WmItem.Reports : WmItem → Prop
  | .merged _ last => last.type = wmEvOverflow
  | .overflow _ => True

theorem Shows.reports_iff {id : Int} {item : WmItem} {ev : WmEvent} (h : item.Shows id ev) :
    ev.type = wmEvOverflow ↔ item.Reports := by
  cases item with
  | merged earlier last =>
      cases h
      exact Iff.rfl
  | overflow tick => exact iff_of_true h.1 trivial

/-! ## Operations along a run -/

/-- Somewhere along the run an operation meets a state in which `P` holds of it. -/
def Channel.Meets (P : Channel → EventOp → Prop) (c : Channel) (ops : List EventOp) : Prop :=
  ∃ before op after, ops = before ++ op :: after ∧ P (c.run before) op

/-- A call that cannot be merged finds the ring full. -/
def Channel.Refuses (c : Channel) : EventOp → Prop
  | .queue type windowId _ _ _ _ =>
      c.win.Full ∧ ∀ prev, c.win.events.getLast? = some prev → ¬ prev.Joins type windowId
  | _ => False

/-- A caller queues an overflow event of its own, and there is room. -/
def Channel.TakesOverflow (c : Channel) : EventOp → Prop
  | .queue type _ _ _ _ _ => type = wmEvOverflow ∧ ¬ c.win.Full
  | _ => False

theorem Channel.meets_nil {P : Channel → EventOp → Prop} {c : Channel} : ¬ c.Meets P [] := by
  rintro ⟨before, op, after, heq, -⟩
  cases before <;> cases heq

theorem Channel.meets_concat {P : Channel → EventOp → Prop} {c : Channel} {ops : List EventOp}
    {op : EventOp} : c.Meets P (ops ++ [op]) ↔ c.Meets P ops ∨ P (c.run ops) op := by
  constructor
  · rintro ⟨before, op', after, heq, hP⟩
    obtain rfl | ⟨after, last, rfl⟩ := List.eq_nil_or_concat after
    · obtain ⟨rfl, hop⟩ := List.append_inj' heq rfl
      cases hop
      exact Or.inr hP
    · rw [List.concat_eq_append, ← List.cons_append, ← List.append_assoc] at heq
      obtain ⟨rfl, hop⟩ := List.append_inj' heq rfl
      exact Or.inl ⟨before, op', after, rfl, hP⟩
  · rintro (⟨before, op', after, rfl, hP⟩ | hP)
    · refine ⟨before, op', after ++ [op], ?_, hP⟩
      rw [List.append_assoc]
      rfl
    · exact ⟨ops, op, [], rfl, hP⟩

/-! ## The mailbox since some moment -/

/-- The items delivered after the first `d`, and those that wait. -/
def Mailbox.since (d : Nat) (m : Mailbox) : List WmItem := m.delivered.drop d ++ m.held

/-- The four ways of a call. -/
theorem Mailbox.queue_cases (m : Mailbox) (type windowId a b c d : UInt32) :
    (∃ l item, m.held = l ++ [item] ∧ item.Joins (m.nextCall type windowId a b c d) ∧
        m.queue type windowId a b c d =
          { m with
            held := l ++ [item.add (m.nextCall type windowId a b c d)]
            calls := m.calls ++ [m.nextCall type windowId a b c d]
            tick := m.tick + 1 }) ∨
      (∀ item, m.held.getLast? = some item → ¬ item.Joins (m.nextCall type windowId a b c d)) ∧
        (m.held.length ≠ 255 ∧ m.queue type windowId a b c d =
            { m with
              held := m.held ++ [.merged [] (m.nextCall type windowId a b c d)]
              calls := m.calls ++ [m.nextCall type windowId a b c d]
              tick := m.tick + 1 } ∨
          m.held.length = 255 ∧ m.latched = false ∧ m.queue type windowId a b c d =
            { m with
              held := m.held.tail ++ [.overflow m.tick]
              latched := true
              calls := m.calls ++ [m.nextCall type windowId a b c d]
              tick := m.tick + 1 } ∨
          m.held.length = 255 ∧ m.latched = true ∧ m.queue type windowId a b c d =
            { m with calls := m.calls ++ [m.nextCall type windowId a b c d] }) := by
  by_cases hjoins : ∃ l item, m.held = l ++ [item] ∧
      item.Joins (m.nextCall type windowId a b c d)
  · obtain ⟨l, item, hheld, hjoin⟩ := hjoins
    exact Or.inl ⟨l, item, hheld, hjoin, Mailbox.queue_merge hheld hjoin⟩
  · have hno : ∀ item, m.held.getLast? = some item →
        ¬ item.Joins (m.nextCall type windowId a b c d) := by
      intro item hitem hjoin
      obtain ⟨l, hl⟩ := List.getLast?_eq_some_iff.mp hitem
      exact hjoins ⟨l, item, hl, hjoin⟩
    refine Or.inr ⟨hno, ?_⟩
    rw [Mailbox.queue_append hno]
    unfold Mailbox.append
    dsimp only
    by_cases hfull : m.held.length = 255
    · rw [if_pos hfull]
      cases hlatch : m.latched with
      | false => exact Or.inr (Or.inl ⟨hfull, rfl, rfl⟩)
      | true => exact Or.inr (Or.inr ⟨hfull, rfl, rfl⟩)
    · rw [if_neg hfull]
      exact Or.inl ⟨hfull, rfl⟩

/-- Calls are numbered in order. -/
def Mailbox.Numbered (m : Mailbox) : Prop := ∀ call ∈ m.calls, call.index < m.calls.length

theorem Mailbox.Numbered.exec {m : Mailbox} (h : m.Numbered) (op : EventOp) :
    (m.exec op).Numbered := by
  cases op with
  | queue type windowId a b c d =>
      intro call hcall
      change call ∈ (m.queue type windowId a b c d).calls at hcall
      change call.index < (m.queue type windowId a b c d).calls.length
      rw [Mailbox.queue_calls] at hcall ⊢
      rw [List.length_append, List.length_singleton]
      rcases List.mem_append.mp hcall with hold | hnew
      · exact (h call hold).trans (Nat.lt_succ_self _)
      · cases List.mem_singleton.mp hnew
        exact Nat.lt_succ_self _
  | poll =>
      change m.poll.Numbered
      unfold Mailbox.poll
      split
      · exact h
      · exact h
  | elsewhere => exact h

theorem Mailbox.Numbered.run {m : Mailbox} (h : m.Numbered) (ops : List EventOp) :
    (m.run ops).Numbered := by
  induction ops generalizing m with
  | nil => exact h
  | cons op ops ih => exact ih (h.exec op)

theorem Mailbox.since_poll {m : Mailbox} {d : Nat} (hd : d ≤ m.delivered.length) :
    m.poll.since d = m.since d := by
  unfold Mailbox.poll Mailbox.since
  split
  · rfl
  · rename_i item rest hheld
    dsimp only
    rw [List.drop_append_of_le_length hd, hheld, List.append_assoc]
    rfl

theorem Mailbox.poll_same (m : Mailbox) :
    m.poll.calls = m.calls ∧ m.poll.latched = m.latched ∧
      m.delivered.length ≤ m.poll.delivered.length := by
  unfold Mailbox.poll
  split
  · exact ⟨rfl, rfl, le_refl _⟩
  · refine ⟨rfl, rfl, ?_⟩
    dsimp only
    rw [List.length_append]
    exact Nat.le_add_right ..

/-- A call counts as lost when no item has it. -/
def Mailbox.Loses (n d : Nat) (m : Mailbox) : Prop :=
  ∃ call ∈ m.calls.drop n, ∀ item ∈ m.since d, call ∉ item.calls

theorem WmItem.add_calls {item : WmItem} {call : WmCall} (h : item.Joins call) :
    (item.add call).calls = item.calls ++ [call] := by
  cases item with
  | merged earlier last => rfl
  | overflow tick => exact h.elim

theorem WmItem.add_reports {item : WmItem} {call : WmCall} (h : item.Joins call) :
    (item.add call).Reports ↔ item.Reports := by
  cases item with
  | merged earlier last =>
      change call.type = wmEvOverflow ↔ last.type = wmEvOverflow
      obtain ⟨⟨hcall, hlast⟩ | ⟨hcall, hlast⟩, -⟩ := h
      · rw [hcall, hlast]
      · rw [hcall, hlast]
  | overflow tick => exact h.elim

/-- A call that goes into an item changes nothing about the others. -/
theorem Mailbox.loses_iff {m m' : Mailbox} {n d : Nat} {call : WmCall} (hnumbered : m.Numbered)
    (hn : n ≤ m.calls.length) (hindex : call.index = m.calls.length)
    (hcalls : m'.calls = m.calls ++ [call]) (hitem : ∃ item ∈ m'.since d, call ∈ item.calls)
    (hsame : ∀ other, other ≠ call →
      ((∀ item ∈ m'.since d, other ∉ item.calls) ↔ ∀ item ∈ m.since d, other ∉ item.calls)) :
    m'.Loses n d ↔ m.Loses n d := by
  unfold Loses
  rw [hcalls, List.drop_append_of_le_length hn]
  constructor
  · rintro ⟨other, hother, hlost⟩
    rcases List.mem_append.mp hother with hold | hnew
    · have hne : other ≠ call := by
        rintro rfl
        exact absurd (hnumbered _ (List.mem_of_mem_drop hold)) (by rw [hindex]; omega)
      exact ⟨other, hold, (hsame other hne).mp hlost⟩
    · cases List.mem_singleton.mp hnew
      obtain ⟨item, hmem, hin⟩ := hitem
      exact absurd hin (hlost item hmem)
  · rintro ⟨other, hold, hlost⟩
    have hne : other ≠ call := by
      rintro rfl
      exact absurd (hnumbered _ (List.mem_of_mem_drop hold)) (by rw [hindex]; omega)
    exact ⟨other, List.mem_append_left _ hold, (hsame other hne).mpr hlost⟩

section Merge

variable {m : Mailbox} {n d : Nat} {l : List WmItem} {item : WmItem} {call : WmCall} {tick : Nat}

theorem Mailbox.since_concat (hheld : m.held = l ++ [item]) :
    m.since d = (m.delivered.drop d ++ l) ++ [item] := by
  unfold since
  rw [hheld, List.append_assoc]

theorem Mailbox.loses_merge (hnumbered : m.Numbered) (hn : n ≤ m.calls.length)
    (hindex : call.index = m.calls.length) (hheld : m.held = l ++ [item]) (hjoins : item.Joins call) :
    ({ m with held := l ++ [item.add call], calls := m.calls ++ [call], tick := tick } :
      Mailbox).Loses n d ↔ m.Loses n d := by
  have hcalls := WmItem.add_calls hjoins
  have hsince := since_concat (d := d) hheld
  have hsince' : ({ m with
      held := l ++ [item.add call], calls := m.calls ++ [call], tick := tick } :
        Mailbox).since d = (m.delivered.drop d ++ l) ++ [item.add call] := since_concat rfl
  generalize m.delivered.drop d ++ l = before at hsince hsince'
  refine loses_iff hnumbered hn hindex rfl ⟨item.add call, ?_, ?_⟩ ?_
  · rw [hsince']
    exact List.mem_append_right _ (List.mem_singleton_self _)
  · rw [hcalls]
    exact List.mem_append_right _ (List.mem_singleton_self _)
  · intro other hne
    rw [hsince, hsince', List.forall_mem_append, List.forall_mem_append, List.forall_mem_singleton,
      List.forall_mem_singleton, hcalls, List.mem_append, not_or]
    have hnot : other ∉ [call] := fun hin => hne (List.mem_singleton.mp hin)
    exact and_congr_right fun _ => and_iff_left hnot

theorem Mailbox.loses_start (hnumbered : m.Numbered) (hn : n ≤ m.calls.length)
    (hindex : call.index = m.calls.length) :
    ({ m with held := m.held ++ [.merged [] call], calls := m.calls ++ [call], tick := tick } :
      Mailbox).Loses n d ↔ m.Loses n d := by
  have hsince : ({ m with
      held := m.held ++ [.merged [] call], calls := m.calls ++ [call], tick := tick } :
        Mailbox).since d = m.since d ++ [.merged [] call] := (List.append_assoc ..).symm
  refine loses_iff hnumbered hn hindex rfl ⟨.merged [] call, ?_, List.mem_singleton_self _⟩ ?_
  · rw [hsince]
    exact List.mem_append_right _ (List.mem_singleton_self _)
  · intro other hne
    rw [hsince, List.forall_mem_append, List.forall_mem_singleton]
    exact and_iff_left fun hin => hne (List.mem_singleton.mp hin)

end Merge

/-! ## A stretch that begins with the latch clear -/

/-- Since the stretch began nothing was lost, or an overflow waits or was delivered. -/
structure Mailbox.Told (n d : Nat) (m : Mailbox) : Prop where
  calls : n ≤ m.calls.length
  delivered : d ≤ m.delivered.length
  told : m.latched = false ∧ ¬ m.Loses n d ∨ m.latched = true ∧ ∃ tick, .overflow tick ∈ m.since d

theorem Mailbox.Told.queue {m : Mailbox} {n d : Nat} (h : m.Told n d) (hnumbered : m.Numbered)
    (type windowId a b c dd : UInt32) : (m.queue type windowId a b c dd).Told n d := by
  have hcalls : n ≤ (m.queue type windowId a b c dd).calls.length := by
    rw [Mailbox.queue_calls, List.length_append]
    exact h.calls.trans (Nat.le_add_right ..)
  rcases m.queue_cases type windowId a b c dd with
    ⟨l, item, hheld, hjoins, heq⟩ | ⟨-, ⟨-, heq⟩ | ⟨-, -, heq⟩ | ⟨-, hlatch, heq⟩⟩
  · rw [heq] at hcalls ⊢
    refine ⟨hcalls, h.delivered, h.told.imp ?_ ?_⟩
    · rintro ⟨hlatch, hkept⟩
      exact ⟨hlatch, fun hloses => hkept ((loses_merge hnumbered h.calls rfl hheld hjoins).mp hloses)⟩
    · rintro ⟨hlatch, tick, hin⟩
      refine ⟨hlatch, tick, ?_⟩
      rw [since_concat hheld] at hin
      rw [since_concat rfl]
      rcases List.mem_append.mp hin with hold | hlast
      · exact List.mem_append_left _ hold
      · cases List.mem_singleton.mp hlast
        exact hjoins.elim
  · rw [heq] at hcalls ⊢
    refine ⟨hcalls, h.delivered, h.told.imp ?_ ?_⟩
    · rintro ⟨hlatch, hkept⟩
      exact ⟨hlatch, fun hloses => hkept ((loses_start hnumbered h.calls rfl).mp hloses)⟩
    · rintro ⟨hlatch, tick, hin⟩
      refine ⟨hlatch, tick, ?_⟩
      unfold since at hin ⊢
      dsimp only
      rw [← List.append_assoc]
      exact List.mem_append_left _ hin
  · rw [heq] at hcalls ⊢
    refine ⟨hcalls, h.delivered, Or.inr ⟨rfl, m.tick, ?_⟩⟩
    unfold since
    dsimp only
    rw [← List.append_assoc]
    exact List.mem_append_right _ (List.mem_singleton_self _)
  · rw [heq] at hcalls ⊢
    refine ⟨hcalls, h.delivered, Or.inr ⟨hlatch, ?_⟩⟩
    rcases h.told with ⟨hclear, -⟩ | ⟨-, htold⟩
    · rw [hlatch] at hclear
      cases hclear
    · exact htold

theorem Mailbox.loses_congr {m m' : Mailbox} {n d : Nat} (hcalls : m'.calls = m.calls)
    (hsince : m'.since d = m.since d) : m'.Loses n d ↔ m.Loses n d := by
  unfold Loses
  rw [hcalls, hsince]

theorem Mailbox.Told.exec {m : Mailbox} {n d : Nat} (h : m.Told n d) (hnumbered : m.Numbered)
    (op : EventOp) : (m.exec op).Told n d := by
  cases op with
  | queue type windowId a b c dd => exact h.queue hnumbered type windowId a b c dd
  | poll =>
      obtain ⟨hcalls, hlatch, hlen⟩ := m.poll_same
      have hsince := m.since_poll h.delivered
      change m.poll.Told n d
      refine ⟨hcalls ▸ h.calls, h.delivered.trans hlen, ?_⟩
      rw [hlatch, hsince, loses_congr hcalls hsince]
      exact h.told
  | elsewhere => exact ⟨h.calls, h.delivered, h.told⟩

theorem Mailbox.Told.run {m : Mailbox} {n d : Nat} (h : m.Told n d) (hnumbered : m.Numbered)
    (ops : List EventOp) : (m.run ops).Told n d := by
  induction ops generalizing m with
  | nil => exact h
  | cons op ops ih => exact ih (h.exec hnumbered op) (hnumbered.exec op)

/-! ## A stretch that begins with the latch set -/

/-- Since the stretch began something was lost exactly if `lost`, and an overflow event
waits or was delivered exactly if `told`. -/
structure Mailbox.Silent (n d : Nat) (lost told : Prop) (m : Mailbox) : Prop where
  calls : n ≤ m.calls.length
  delivered : d ≤ m.delivered.length
  latched : m.latched = true
  known : ∀ item ∈ m.since d, ∀ call ∈ item.calls, call.index < m.calls.length
  lost : m.Loses n d ↔ lost
  told : (∃ item ∈ m.since d, item.Reports) ↔ told

theorem exists_mem_concat {α : Type} {P : α → Prop} {l : List α} {x : α} :
    (∃ y ∈ l ++ [x], P y) ↔ (∃ y ∈ l, P y) ∨ P x := by
  constructor
  · rintro ⟨y, hy, hP⟩
    rcases List.mem_append.mp hy with hold | hlast
    · exact Or.inl ⟨y, hold, hP⟩
    · cases List.mem_singleton.mp hlast
      exact Or.inr hP
  · rintro (⟨y, hy, hP⟩ | hP)
    · exact ⟨y, List.mem_append_left _ hy, hP⟩
    · exact ⟨x, List.mem_append_right _ (List.mem_singleton_self _), hP⟩

/-- The mailbox has no room for a call of its own. -/
def Mailbox.Refuses (m : Mailbox) : EventOp → Prop
  | .queue type windowId a b c d => m.held.length = 255 ∧
      ∀ item, m.held.getLast? = some item → ¬ item.Joins (m.nextCall type windowId a b c d)
  | _ => False

def Mailbox.TakesOverflow (m : Mailbox) : EventOp → Prop
  | .queue type _ _ _ _ _ => type = wmEvOverflow ∧ m.held.length ≠ 255
  | _ => False

theorem Mailbox.Silent.queue {m : Mailbox} {n d : Nat} {lost told : Prop}
    (h : m.Silent n d lost told) (hnumbered : m.Numbered) (type windowId a b c dd : UInt32) :
    (m.queue type windowId a b c dd).Silent n d
      (lost ∨ m.Refuses (.queue type windowId a b c dd))
      (told ∨ m.TakesOverflow (.queue type windowId a b c dd)) := by
  have hcalls : n ≤ (m.queue type windowId a b c dd).calls.length := by
    rw [Mailbox.queue_calls, List.length_append]
    exact h.calls.trans (Nat.le_add_right ..)
  have hknown : ∀ item ∈ m.since d, ∀ call ∈ item.calls,
      call.index < (m.calls ++ [m.nextCall type windowId a b c dd]).length := by
    intro item hitem call hcall
    rw [List.length_append]
    exact (h.known item hitem call hcall).trans (Nat.lt_succ_self _)
  have hnew : (m.nextCall type windowId a b c dd).index <
      (m.calls ++ [m.nextCall type windowId a b c dd]).length := by
    rw [List.length_append]
    exact Nat.lt_succ_self _
  rcases m.queue_cases type windowId a b c dd with
    ⟨l, item, hheld, hjoins, heq⟩ | ⟨hno, ⟨hroom, heq⟩ | ⟨-, hclear, -⟩ | ⟨hfull, -, heq⟩⟩
  · -- merged: neither lost nor an overflow event
    have hlast : m.held.getLast? = some item := List.getLast?_eq_some_iff.mpr ⟨l, hheld⟩
    have hadd := WmItem.add_calls hjoins
    have hsince := since_concat (d := d) hheld
    have htype : ¬ m.TakesOverflow (.queue type windowId a b c dd) := by
      rintro ⟨rfl, -⟩
      cases item with
      | overflow tick => exact hjoins.elim
      | merged earlier last =>
          obtain ⟨⟨hcall, -⟩ | ⟨hcall, -⟩, -⟩ := hjoins
          · cases hcall
          · cases hcall
    rw [heq] at hcalls ⊢
    refine ⟨hcalls, h.delivered, h.latched, ?_, ?_, ?_⟩
    · rw [since_concat rfl]
      rw [hsince] at hknown
      intro other hother call hcall
      rcases List.mem_append.mp hother with hold | hadded
      · exact hknown other (List.mem_append_left _ hold) call hcall
      · cases List.mem_singleton.mp hadded
        rw [hadd] at hcall
        rcases List.mem_append.mp hcall with hold | hlastcall
        · exact hknown item (List.mem_append_right _ (List.mem_singleton_self _)) call hold
        · cases List.mem_singleton.mp hlastcall
          exact hnew
    · rw [loses_merge hnumbered h.calls rfl hheld hjoins, h.lost]
      exact (or_iff_left fun hrefuses => hrefuses.2 item hlast hjoins).symm
    · rw [or_iff_left htype, ← h.told, since_concat rfl, hsince]
      generalize m.delivered.drop d ++ l = before
      rw [exists_mem_concat, exists_mem_concat, WmItem.add_reports hjoins]
  · -- a new item
    have hsince : ∀ tick, ({ m with
        held := m.held ++ [.merged [] (m.nextCall type windowId a b c dd)],
        calls := m.calls ++ [m.nextCall type windowId a b c dd], tick := tick } :
          Mailbox).since d = m.since d ++ [.merged [] (m.nextCall type windowId a b c dd)] :=
      fun _ => (List.append_assoc ..).symm
    rw [heq] at hcalls ⊢
    refine ⟨hcalls, h.delivered, h.latched, ?_, ?_, ?_⟩
    · rw [hsince]
      intro other hother call hcall
      rcases List.mem_append.mp hother with hold | hadded
      · exact hknown other hold call hcall
      · cases List.mem_singleton.mp hadded
        cases List.mem_singleton.mp hcall
        exact hnew
    · rw [loses_start hnumbered h.calls rfl, h.lost]
      exact (or_iff_left fun hrefuses => hroom hrefuses.1).symm
    · rw [hsince, exists_mem_concat, h.told]
      exact or_congr_right (and_iff_left hroom).symm
  · rw [h.latched] at hclear
    cases hclear
  · -- refused: no item has the call
    rw [heq] at hcalls ⊢
    refine ⟨hcalls, h.delivered, h.latched, hknown, ?_, ?_⟩
    · refine iff_of_true ?_ (Or.inr ⟨hfull, hno⟩)
      refine ⟨m.nextCall type windowId a b c dd, ?_, ?_⟩
      · rw [List.drop_append_of_le_length h.calls]
        exact List.mem_append_right _ (List.mem_singleton_self _)
      · intro item hitem hin
        exact absurd (h.known item hitem _ hin) (Nat.lt_irrefl _)
    · exact h.told.trans (or_iff_left fun htakes => htakes.2 hfull).symm

theorem Mailbox.Silent.exec {m : Mailbox} {n d : Nat} {lost told : Prop}
    (h : m.Silent n d lost told) (hnumbered : m.Numbered) (op : EventOp) :
    (m.exec op).Silent n d (lost ∨ m.Refuses op) (told ∨ m.TakesOverflow op) := by
  cases op with
  | queue type windowId a b c dd => exact h.queue hnumbered type windowId a b c dd
  | poll =>
      obtain ⟨hcalls, hlatch, hlen⟩ := m.poll_same
      have hsince := m.since_poll h.delivered
      change m.poll.Silent n d (lost ∨ False) (told ∨ False)
      rw [or_false, or_false]
      refine ⟨hcalls ▸ h.calls, h.delivered.trans hlen, hlatch.trans h.latched, ?_, ?_, ?_⟩
      · rw [hsince, hcalls]
        exact h.known
      · rw [loses_congr hcalls hsince]
        exact h.lost
      · rw [hsince]
        exact h.told
  | elsewhere =>
      change Mailbox.Silent n d (lost ∨ False) (told ∨ False) _
      rw [or_false, or_false]
      exact ⟨h.calls, h.delivered, h.latched, h.known, h.lost, h.told⟩

/-! ## Back to the ring -/

theorem Mirrors.refuses_iff {id : Int} {c : Channel} {m : Mailbox} (h : Mirrors id c m)
    (op : EventOp) : c.Refuses op ↔ m.Refuses op := by
  cases op with
  | poll => exact Iff.rfl
  | elsewhere => exact Iff.rfl
  | queue type windowId a b cc d =>
      refine and_congr h.full_iff ⟨fun hno item hitem hjoin => ?_, fun hno prev hprev hjoin => ?_⟩
      · obtain ⟨prev, hprev, hshows⟩ := forall₂_getLast h.held hitem
        exact hno prev hprev (Shows.joins_iff hshows |>.mpr hjoin)
      · obtain ⟨item, hitem, hshows⟩ := forall₂_getLast h.held.flip hprev
        exact hno item hitem ((Shows.joins_iff hshows).mp hjoin)

theorem Mirrors.takesOverflow_iff {id : Int} {c : Channel} {m : Mailbox} (h : Mirrors id c m)
    (op : EventOp) : c.TakesOverflow op ↔ m.TakesOverflow op := by
  cases op with
  | poll => exact Iff.rfl
  | elsewhere => exact Iff.rfl
  | queue type windowId a b cc d => exact and_congr_right fun _ => not_congr h.full_iff

theorem Mailbox.Silent.run {id : Int} {c : Channel} {m : Mailbox} {n d : Nat}
    (hmirrors : Mirrors id c m) (h : m.Silent n d False False) (hnumbered : m.Numbered)
    (ops : List EventOp) :
    (m.run ops).Silent n d (c.Meets Channel.Refuses ops) (c.Meets Channel.TakesOverflow ops) := by
  induction ops using List.reverseRecOn with
  | nil =>
      rw [iff_false_intro (Channel.meets_nil (P := Channel.Refuses)),
        iff_false_intro (Channel.meets_nil (P := Channel.TakesOverflow))]
      exact h
  | append_singleton ops op ih =>
      have hstep := ih.exec (hnumbered.run ops) op
      have hrun := hmirrors.run ops
      rw [Mailbox.run_concat, Channel.meets_concat, Channel.meets_concat, hrun.refuses_iff,
        hrun.takesOverflow_iff]
      exact hstep

theorem Mailbox.since_self {m : Mailbox} (h : m.held = []) :
    m.since m.delivered.length = [] ∧ ¬ m.Loses m.calls.length m.delivered.length := by
  constructor
  · unfold since
    rw [h, List.drop_length]
    rfl
  · rintro ⟨call, hcall, -⟩
    rw [List.drop_length] at hcall
    cases hcall

theorem Mirrors.held_nil {id : Int} {c : Channel} {m : Mailbox} (h : Mirrors id c m)
    (hempty : c.win.evHead = c.win.evTail) : m.held = [] := by
  have hheld := h.held
  rw [h.inRing.events_eq_nil.mpr hempty] at hheld
  cases hm : m.held with
  | nil => rfl
  | cons item rest =>
      rw [hm] at hheld
      cases hheld

/-- The reports among the items delivered are the overflow events delivered. -/
theorem reports_delivered {id : Int} {items : List WmItem} {events : List WmEvent}
    (h : List.Forall₂ (WmItem.Shows id) items events) :
    (∃ ev ∈ events, ev.type = wmEvOverflow) ↔ ∃ item ∈ items, item.Reports := by
  induction h with
  | nil => exact ⟨fun h => absurd h (by simp), fun h => absurd h (by simp)⟩
  | cons hshows _ ih =>
      simp only [List.mem_cons, exists_eq_or_imp]
      exact or_congr (Shows.reports_iff hshows) ih

/-- Between two moments with an empty ring, a loss of a call comes with a report exactly
if the latch was clear at the first moment, or no call was refused, or a caller queued an
overflow event itself. -/
theorem wm_overflow_reported {id : Int} {tick : UInt64} {before ops : List EventOp}
    {c₀ c : Channel} {m₀ m : Mailbox} (hc₀ : c₀ = (Channel.opened id tick).run before)
    (hc : c = c₀.run ops) (hm₀ : m₀ = (Mailbox.empty tick.toNat).run before) (hm : m = m₀.run ops)
    (hempty₀ : c₀.win.evHead = c₀.win.evTail) (hempty : c.win.evHead = c.win.evTail) :
    m.calls.map WmCall.op = (before ++ ops).filter EventOp.isQueue ∧
      List.Forall₂ (WmItem.Shows id) m.delivered c.out ∧
      (((∃ call ∈ m.calls.drop m₀.calls.length,
            ∀ item ∈ m.delivered.drop m₀.delivered.length, call ∉ item.calls) →
          ∃ ev ∈ c.out.drop c₀.out.length, ev.type = wmEvOverflow) ↔
        c₀.win.evOverflowLatched = false ∨ ¬ c₀.Meets Channel.Refuses ops ∨
          c₀.Meets Channel.TakesOverflow ops) := by
  have hmirrors₀ : Mirrors id c₀ m₀ := by
    rw [hc₀, hm₀]
    exact (Mirrors.opened id tick).run before
  have hmirrors : Mirrors id c m := by
    rw [hc, hm]
    exact hmirrors₀.run ops
  have hnumbered : m₀.Numbered := by
    rw [hm₀]
    exact Mailbox.Numbered.run (by nofun) before
  have hheld₀ := hmirrors₀.held_nil hempty₀
  have hheld := hmirrors.held_nil hempty
  obtain ⟨hsince₀, hkept₀⟩ := Mailbox.since_self hheld₀
  refine ⟨?_, hmirrors.delivered, ?_⟩
  · rw [hm, Mailbox.run_calls, hm₀, Mailbox.run_calls, List.filter_append]
    rfl
  have hsince : m.since m₀.delivered.length = m.delivered.drop m₀.delivered.length := by
    unfold Mailbox.since
    rw [hheld, List.append_nil]
  have hreports : (∃ ev ∈ c.out.drop c₀.out.length, ev.type = wmEvOverflow) ↔
      ∃ item ∈ m.since m₀.delivered.length, item.Reports := by
    rw [hsince, ← hmirrors₀.delivered.length_eq]
    exact reports_delivered (List.forall₂_drop _ hmirrors.delivered)
  have hloses : (∃ call ∈ m.calls.drop m₀.calls.length,
      ∀ item ∈ m.delivered.drop m₀.delivered.length, call ∉ item.calls) ↔
        m.Loses m₀.calls.length m₀.delivered.length := by
    unfold Mailbox.Loses
    rw [hsince]
  rw [hreports, hloses, hmirrors₀.latched]
  cases hlatch : m₀.latched with
  | false =>
      have htold : m.Told m₀.calls.length m₀.delivered.length := by
        rw [hm]
        exact Mailbox.Told.run ⟨le_refl _, le_refl _, Or.inl ⟨hlatch, hkept₀⟩⟩ hnumbered ops
      refine iff_of_true (fun hlost => ?_) (Or.inl rfl)
      rcases htold.told with ⟨-, hkept⟩ | ⟨-, overflowTick, hin⟩
      · exact absurd hlost hkept
      · exact ⟨_, hin, trivial⟩
  | true =>
      have hsilent : m.Silent m₀.calls.length m₀.delivered.length
          (c₀.Meets Channel.Refuses ops) (c₀.Meets Channel.TakesOverflow ops) := by
        rw [hm]
        refine Mailbox.Silent.run hmirrors₀ ⟨le_refl _, le_refl _, hlatch, ?_,
          iff_false_intro hkept₀, ?_⟩ hnumbered ops
        · rw [hsince₀]
          nofun
        · rw [hsince₀]
          exact ⟨fun h => absurd h (by simp), False.elim⟩
      rw [hsilent.lost, hsilent.told]
      simp only [Bool.true_eq_false, false_or]
      exact imp_iff_not_or

/-! ## Two floods -/

/-- The call of `wm_queue_event` for a focus event of window 1. -/
abbrev focusOp : EventOp := .queue wmEvFocusIn 1 0 0 0 0

/-- One event more than the ring holds, and then polls until the ring is empty. -/
def floodOps : List EventOp :=
  List.replicate 255 focusOp ++ focusOp :: List.replicate 255 .poll

theorem focus_not_joins (m : Mailbox) (item : WmItem) :
    ¬ item.Joins (m.nextCall wmEvFocusIn 1 0 0 0 0) := by
  cases item with
  | overflow tick => exact id
  | merged earlier last =>
      rintro ⟨⟨hmove, -⟩ | ⟨hwheel, -⟩, -⟩
      · cases hmove
      · cases hwheel

theorem Mailbox.run_focus (n : Nat) {m : Mailbox} (hroom : m.held.length + n ≤ 255) :
    (m.run (List.replicate n focusOp)).held.length = m.held.length + n := by
  induction n generalizing m with
  | zero => rfl
  | succ n ih =>
      rcases m.queue_cases wmEvFocusIn 1 0 0 0 0 with
        ⟨l, item, -, hjoins, -⟩ | ⟨-, ⟨-, heq⟩ | ⟨hfull, -, -⟩ | ⟨hfull, -, -⟩⟩
      · exact absurd hjoins (focus_not_joins m item)
      · have hlen : (m.exec focusOp).held.length = m.held.length + 1 := by
          change (m.queue wmEvFocusIn 1 0 0 0 0).held.length = _
          rw [heq, List.length_append, List.length_singleton]
        have hrest := ih (m := m.exec focusOp) (by rw [hlen]; omega)
        rw [List.replicate_succ]
        refine hrest.trans ?_
        rw [hlen]
        omega
      · omega
      · omega

theorem Mailbox.run_polls (n : Nat) (m : Mailbox) :
    (m.run (List.replicate n .poll)).held = m.held.drop n ∧
      (m.run (List.replicate n .poll)).latched = m.latched := by
  induction n generalizing m with
  | zero => exact ⟨rfl, rfl⟩
  | succ n ih =>
      obtain ⟨hheld, hlatch⟩ := ih m.poll
      rw [List.replicate_succ]
      refine ⟨hheld.trans ?_, hlatch.trans m.poll_same.2.1⟩
      unfold Mailbox.poll
      cases hm : m.held with
      | nil =>
          dsimp only
          rw [hm, List.drop_nil, List.drop_nil]
      | cons item rest => rfl

/-- A flood leaves the mailbox empty and the latch set. -/
theorem Mailbox.run_flood {m : Mailbox} (h : m.held = []) :
    (m.run floodOps).held = [] ∧ (m.run floodOps).latched = true := by
  have hfill := m.run_focus 255 (by rw [h]; exact le_refl _)
  have hlatched : ((m.run (List.replicate 255 focusOp)).exec focusOp).held.length = 255 ∧
      ((m.run (List.replicate 255 focusOp)).exec focusOp).latched = true := by
    rw [h] at hfill
    generalize m.run (List.replicate 255 focusOp) = full at hfill
    change full.held.length = 255 at hfill
    rcases full.queue_cases wmEvFocusIn 1 0 0 0 0 with
      ⟨l, item, -, hjoins, -⟩ | ⟨-, ⟨hroom, -⟩ | ⟨-, -, heq⟩ | ⟨-, hlatch, heq⟩⟩
    · exact absurd hjoins (focus_not_joins full item)
    · exact absurd hfill hroom
    · change (full.queue wmEvFocusIn 1 0 0 0 0).held.length = 255 ∧ _ = true
      change _ ∧ (full.queue wmEvFocusIn 1 0 0 0 0).latched = true
      rw [heq, List.length_append, List.length_tail, hfill]
      exact ⟨rfl, rfl⟩
    · change (full.queue wmEvFocusIn 1 0 0 0 0).held.length = 255 ∧ _ = true
      change _ ∧ (full.queue wmEvFocusIn 1 0 0 0 0).latched = true
      rw [heq]
      exact ⟨hfill, hlatch⟩
  have hrun : m.run floodOps =
      ((m.run (List.replicate 255 focusOp)).exec focusOp).run (List.replicate 255 .poll) := by
    unfold floodOps Mailbox.run
    rw [List.foldl_append, List.foldl_cons]
  rw [hrun]
  obtain ⟨hheld, hlatch⟩ := Mailbox.run_polls 255 ((m.run (List.replicate 255 focusOp)).exec focusOp)
  refine ⟨hheld.trans ?_, hlatch.trans hlatched.2⟩
  rw [List.drop_eq_nil_iff, hlatched.1]

theorem Mirrors.empty_of_held {id : Int} {c : Channel} {m : Mailbox} (h : Mirrors id c m)
    (hheld : m.held = []) : c.win.evHead = c.win.evTail := by
  apply h.inRing.events_eq_nil.mp
  have hevents := h.held
  rw [hheld] at hevents
  cases hw : c.win.events with
  | nil => rfl
  | cons ev rest =>
      rw [hw] at hevents
      cases hevents

theorem wm_overflow_reported_first :
    List.Forall₂ (WmItem.Shows 1) ((Mailbox.empty 0).run floodOps).delivered
      ((Channel.opened 1 0).run floodOps).out ∧
    ((∃ call ∈ ((Mailbox.empty 0).run floodOps).calls.drop 0,
        ∀ item ∈ ((Mailbox.empty 0).run floodOps).delivered.drop 0, call ∉ item.calls) →
      ∃ ev ∈ ((Channel.opened 1 0).run floodOps).out.drop 0, ev.type = wmEvOverflow) := by
  have hempty := ((Mirrors.opened 1 0).run floodOps).empty_of_held (Mailbox.run_flood rfl).1
  have h := wm_overflow_reported (show Channel.opened 1 0 = (Channel.opened 1 0).run [] from rfl) rfl
    (show Mailbox.empty 0 = (Mailbox.empty (0 : UInt64).toNat).run [] from rfl) rfl rfl hempty
  exact ⟨h.2.1, h.2.2.mpr (Or.inl rfl)⟩

/-- The second flood loses an event and says nothing. -/
theorem wm_overflow_silent : ¬ ∀ (id : Int) (tick : UInt64) (before ops : List EventOp)
    (c₀ c : Channel) (m₀ m : Mailbox), c₀ = (Channel.opened id tick).run before →
    c = c₀.run ops → m₀ = (Mailbox.empty tick.toNat).run before → m = m₀.run ops →
    c₀.win.evHead = c₀.win.evTail → c.win.evHead = c.win.evTail →
    (∃ call ∈ m.calls.drop m₀.calls.length,
      ∀ item ∈ m.delivered.drop m₀.delivered.length, call ∉ item.calls) →
    ∃ ev ∈ c.out.drop c₀.out.length, ev.type = wmEvOverflow := by
  intro hall
  obtain ⟨c₀, hc₀⟩ : ∃ c₀, c₀ = (Channel.opened 1 0).run floodOps := ⟨_, rfl⟩
  obtain ⟨m₀, hm₀⟩ : ∃ m₀, m₀ = (Mailbox.empty (0 : UInt64).toNat).run floodOps := ⟨_, rfl⟩
  have hmirrors₀ : Mirrors 1 c₀ m₀ := by
    rw [hc₀, hm₀]
    exact (Mirrors.opened 1 0).run floodOps
  obtain ⟨hheld₀, hlatch₀⟩ : m₀.held = [] ∧ m₀.latched = true := by
    rw [hm₀]
    exact Mailbox.run_flood rfl
  obtain ⟨hheld, -⟩ := Mailbox.run_flood hheld₀
  have hmirrors := hmirrors₀.run floodOps
  have hnumbered : m₀.Numbered := by
    rw [hm₀]
    exact Mailbox.Numbered.run (by nofun) floodOps
  obtain ⟨hsince₀, hkept₀⟩ := Mailbox.since_self hheld₀
  have hsilent := Mailbox.Silent.run hmirrors₀
    ⟨le_refl _, le_refl _, hlatch₀, by rw [hsince₀]; nofun, iff_false_intro hkept₀,
      by rw [hsince₀]; exact ⟨fun h => absurd h (by simp), False.elim⟩⟩ hnumbered floodOps
  have hsince : (m₀.run floodOps).since m₀.delivered.length =
      (m₀.run floodOps).delivered.drop m₀.delivered.length := by
    unfold Mailbox.since
    rw [hheld, List.append_nil]
  have hrefused : c₀.Meets Channel.Refuses floodOps := by
    refine ⟨List.replicate 255 focusOp, focusOp, List.replicate 255 .poll, rfl, ?_⟩
    rw [(hmirrors₀.run (List.replicate 255 focusOp)).refuses_iff]
    refine ⟨?_, fun item _ => focus_not_joins _ item⟩
    have hfill := m₀.run_focus 255 (by rw [hheld₀]; exact le_refl _)
    rw [hheld₀] at hfill
    exact hfill
  have hquiet : ¬ c₀.Meets Channel.TakesOverflow floodOps := by
    rintro ⟨before, op, after, heq, htakes⟩
    have hop : op ∈ floodOps := by
      rw [heq]
      exact List.mem_append_right _ (List.mem_cons_self ..)
    have hkind : op = focusOp ∨ op = .poll := by
      unfold floodOps at hop
      rw [List.mem_append, List.mem_cons] at hop
      rcases hop with hfocus | hfocus | hpoll
      · exact Or.inl (List.eq_of_mem_replicate hfocus)
      · exact Or.inl hfocus
      · exact Or.inr (List.eq_of_mem_replicate hpoll)
    rcases hkind with rfl | rfl
    · cases htakes.1
    · exact htakes
  have hout := hall 1 0 floodOps floodOps c₀ _ m₀ _ hc₀ rfl hm₀ rfl
    (hmirrors₀.empty_of_held hheld₀) (hmirrors.empty_of_held hheld)
  have hlost := hsilent.lost.mpr hrefused
  unfold Mailbox.Loses at hlost
  rw [hsince] at hlost
  have hreport := hout hlost
  rw [← hmirrors₀.delivered.length_eq,
    reports_delivered (List.forall₂_drop _ hmirrors.delivered), ← hsince] at hreport
  exact hquiet (hsilent.told.mp hreport)

end Sugimotos.Gui
