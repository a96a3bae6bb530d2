/-
# Queues that drop the oldest entry

A queue with room for `cap` entries, in which an entry that finds no room makes the
oldest one leave.  Entries are numbered as they come, so the numbers of those taken
tell how many were dropped in between.
-/

import Mathlib.Data.List.Basic
import Mathlib.Data.List.Range

namespace Sugimotos.Math

universe u v

variable {α : Type u} {cap : Nat}

/-- How an entry left, with its number. -/
inductive Departure (α : Type u)
  | delivered (entry : α × Nat)
  | dropped (entry : α × Nat)
  deriving DecidableEq

namespace Departure

def entry : Departure α → α × Nat
  | delivered entry | dropped entry => entry

def delivered? : Departure α → Option (α × Nat)
  | delivered entry => some entry
  | dropped _ => none

end Departure

/-- What a queue holds, the oldest entry first, and what has left it. -/
structure LossyFifo (α : Type u) where
  held : List (α × Nat)
  left : List (Departure α)
  next : Nat

namespace LossyFifo

def empty : LossyFifo α := ⟨[], [], 0⟩

def dropOldest (f : LossyFifo α) : LossyFifo α :=
  match f.held with
  | [] => f
  | oldest :: rest => { f with held := rest, left := f.left ++ [.dropped oldest] }

def push (cap : Nat) (x : α) (f : LossyFifo α) : LossyFifo α :=
  let f := if f.held.length = cap then f.dropOldest else f
  { f with held := f.held ++ [(x, f.next)], next := f.next + 1 }

def pop (f : LossyFifo α) : Option (α × Nat) × LossyFifo α :=
  match f.held with
  | [] => (none, f)
  | oldest :: rest =>
      (some oldest, { f with held := rest, left := f.left ++ [.delivered oldest] })

/-- The entries taken so far. -/
def delivered (f : LossyFifo α) : List (α × Nat) := f.left.filterMap Departure.delivered?

/-- Every entry that has come is held or has left, in order. -/
structure Accounted (f : LossyFifo α) (pushed : List α) : Prop where
  entries : f.left.map Departure.entry ++ f.held = pushed.zipIdx
  next : f.next = pushed.length

variable {f : LossyFifo α} {pushed : List α}

theorem Accounted.empty : Accounted (empty : LossyFifo α) [] := ⟨rfl, rfl⟩

theorem Accounted.dropOldest (h : f.Accounted pushed) : f.dropOldest.Accounted pushed := by
  unfold LossyFifo.dropOldest
  split
  · exact h
  · rename_i oldest rest hheld
    refine ⟨?_, h.next⟩
    dsimp only
    rw [List.map_append, List.append_assoc, ← h.entries, hheld]
    rfl

theorem Accounted.push (h : f.Accounted pushed) (x : α) :
    (f.push cap x).Accounted (pushed ++ [x]) := by
  have hroom : (if f.held.length = cap then f.dropOldest else f).Accounted pushed := by
    split
    · exact h.dropOldest
    · exact h
  unfold LossyFifo.push
  generalize (if f.held.length = cap then f.dropOldest else f) = g at hroom
  constructor
  · dsimp only
    rw [← List.append_assoc, hroom.entries, hroom.next, List.zipIdx_append]
    simp
  · dsimp only
    rw [hroom.next, List.length_append, List.length_singleton]

theorem Accounted.pop (h : f.Accounted pushed) : f.pop.2.Accounted pushed := by
  unfold LossyFifo.pop
  split
  · exact h
  · rename_i oldest rest hheld
    refine ⟨?_, h.next⟩
    dsimp only
    rw [List.map_append, List.append_assoc, ← h.entries, hheld]
    rfl

/-- The entry that left in place `p` has the number `p`. -/
theorem Accounted.number (h : f.Accounted pushed) {p : Nat} {d : Departure α}
    (hp : f.left[p]? = some d) : d.entry.2 = p := by
  have hentry : pushed.zipIdx[p]? = some d.entry := by
    rw [← h.entries, List.getElem?_append_left, List.getElem?_map, hp]
    · rfl
    · rw [List.length_map]
      exact (List.getElem?_eq_some_iff.mp hp).1
  rw [List.getElem?_zipIdx, Nat.zero_add, Option.map_eq_some_iff] at hentry
  obtain ⟨x, -, hx⟩ := hentry
  rw [← hx]

/-- The numbers of the entries taken increase. -/
theorem Accounted.increasing (h : f.Accounted pushed) :
    (f.delivered.map Prod.snd).Pairwise (· < ·) := by
  have hleft : (f.left.map Departure.entry).Pairwise fun d e => d.2 < e.2 := by
    rw [List.pairwise_map, List.pairwise_iff_getElem]
    intro p q hp hq hlt
    rw [h.number (List.getElem?_eq_getElem hp), h.number (List.getElem?_eq_getElem hq)]
    exact hlt
  unfold delivered
  rw [List.pairwise_map, List.pairwise_filterMap]
  rw [List.pairwise_map] at hleft
  apply hleft.imp
  intro d e hlt x hx y hy
  cases d <;> cases hx
  cases e <;> cases hy
  exact hlt

/-- Between two entries taken one after the other, the numbers skip those dropped. -/
theorem Accounted.gap (h : f.Accounted pushed) {before mid after : List (Departure α)}
    {x y : α × Nat}
    (hleft : f.left = before ++ .delivered x :: mid ++ .delivered y :: after) :
    y.2 = x.2 + mid.length + 1 := by
  have hx : f.left[before.length]? = some (.delivered x) := by
    rw [hleft, List.append_assoc, List.getElem?_append_right (le_refl _)]
    simp
  have hy : f.left[before.length + mid.length + 1]? = some (.delivered y) := by
    rw [hleft, List.getElem?_append_right (by simp; omega)]
    simp [Nat.add_assoc]
  have hnx := h.number hx
  have hny := h.number hy
  change x.2 = _ at hnx
  change y.2 = _ at hny
  rw [hnx, hny]

/-! ## What a push leaves -/

theorem dropOldest_held (f : LossyFifo α) : f.dropOldest.held = f.held.tail := by
  unfold dropOldest
  split
  · rename_i hnil
    rw [hnil]
    rfl
  · rename_i oldest rest hcons
    rw [hcons]
    rfl

theorem dropOldest_next (f : LossyFifo α) : f.dropOldest.next = f.next := by
  unfold dropOldest
  split <;> rfl

theorem dropOldest_delivered (f : LossyFifo α) : f.dropOldest.delivered = f.delivered := by
  unfold dropOldest
  split
  · rfl
  · unfold delivered
    rw [List.filterMap_append]
    exact List.append_nil _

theorem push_held (f : LossyFifo α) (x : α) :
    (f.push cap x).held =
      (if f.held.length = cap then f.held.tail else f.held) ++ [(x, f.next)] := by
  unfold push
  split
  · dsimp only
    rw [dropOldest_held, dropOldest_next]
  · rfl

theorem push_next (f : LossyFifo α) (x : α) : (f.push cap x).next = f.next + 1 := by
  unfold push
  split
  · dsimp only
    rw [dropOldest_next]
  · rfl

theorem push_delivered (f : LossyFifo α) (x : α) : (f.push cap x).delivered = f.delivered := by
  unfold push
  split
  · exact f.dropOldest_delivered
  · rfl

end LossyFifo

end Sugimotos.Math
