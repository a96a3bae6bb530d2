/-
# Rings with a cell kept free

A queue in `size` cells between a head and a tail that count modulo `size`.  It is
empty when they meet, and full when one more entry would make them meet.  What it
holds is a list, and each operation on the cells is one on the list.
-/

import Mathlib.Data.List.Basic
import Mathlib.Logic.Function.Basic
import Mathlib.Tactic.SplitIfs
import Mathlib.Algebra.Order.Group.Nat

namespace Sugimotos.Math

universe u

variable {α : Type u} {cells : Nat → α} {size head tail : Nat}

/-- The next index. -/
def ringNext (size idx : Nat) : Nat := (idx + 1) % size

/-- The index before. -/
def ringPrev (size idx : Nat) : Nat := (idx + size - 1) % size

/-- The number of entries. -/
def ringCount (size head tail : Nat) : Nat := (tail + size - head) % size

/-- The entries, the oldest first. -/
def ringList (cells : Nat → α) (size head tail : Nat) : List α :=
  (List.range (ringCount size head tail)).map fun j => cells ((head + j) % size)

theorem length_ringList (cells : Nat → α) (size head tail : Nat) :
    (ringList cells size head tail).length = ringCount size head tail := by
  unfold ringList
  rw [List.length_map, List.length_range]

theorem ringNext_lt (hhead : head < size) : ringNext size head < size :=
  Nat.mod_lt _ (Nat.zero_lt_of_lt hhead)

theorem ringNext_eq (hhead : head < size) :
    ringNext size head = if head + 1 = size then 0 else head + 1 := by
  unfold ringNext
  split
  · rename_i hwrap
    rw [hwrap, Nat.mod_self]
  · exact Nat.mod_eq_of_lt (by omega)

theorem ringPrev_eq (hhead : head < size) :
    ringPrev size head = if head = 0 then size - 1 else head - 1 := by
  unfold ringPrev
  split
  · rename_i hzero
    rw [hzero, Nat.zero_add]
    exact Nat.mod_eq_of_lt (by omega)
  · rw [show head + size - 1 = head - 1 + size by omega, Nat.add_mod_right]
    exact Nat.mod_eq_of_lt (by omega)

theorem ringCount_eq (hhead : head < size) (htail : tail < size) :
    ringCount size head tail = if head ≤ tail then tail - head else tail + size - head := by
  unfold ringCount
  split
  · rw [show tail + size - head = tail - head + size by omega, Nat.add_mod_right]
    exact Nat.mod_eq_of_lt (by omega)
  · exact Nat.mod_eq_of_lt (by omega)

theorem ringIndex_eq {j : Nat} (hhead : head < size) (hj : j < size) :
    (head + j) % size = if head + j < size then head + j else head + j - size := by
  split
  · rename_i hlt
    exact Nat.mod_eq_of_lt hlt
  · rw [Nat.mod_eq_sub_mod (by omega)]
    exact Nat.mod_eq_of_lt (by omega)

theorem ringCount_lt (hhead : head < size) : ringCount size head tail < size :=
  Nat.mod_lt _ (Nat.zero_lt_of_lt hhead)

section Bounds

variable (hhead : head < size) (htail : tail < size)

include hhead htail

theorem ringList_eq_nil : ringList cells size head tail = [] ↔ head = tail := by
  rw [← List.length_eq_zero_iff, length_ringList, ringCount_eq hhead htail]
  split <;> omega

/-- The ring is full when one cell is left. -/
theorem ringNext_eq_head :
    ringNext size tail = head ↔ (ringList cells size head tail).length + 1 = size := by
  rw [length_ringList, ringCount_eq hhead htail, ringNext_eq htail]
  split <;> split <;> omega

/-- Writing the cell at the tail and moving the tail on appends an entry. -/
theorem ringList_put (cells : Nat → α) (hroom : ringNext size tail ≠ head) (x : α) :
    ringList (Function.update cells tail x) size head (ringNext size tail) =
      ringList cells size head tail ++ [x] := by
  have hcount : ringCount size head (ringNext size tail) = ringCount size head tail + 1 := by
    rw [ringCount_eq hhead (ringNext_lt htail), ringCount_eq hhead htail]
    rw [ringNext_eq htail] at hroom ⊢
    split_ifs at hroom ⊢ <;> omega
  have hlast : (head + ringCount size head tail) % size = tail := by
    rw [ringIndex_eq hhead (ringCount_lt hhead), ringCount_eq hhead htail]
    split <;> split <;> omega
  unfold ringList
  rw [hcount, List.range_succ, List.map_append, List.map_singleton, hlast, Function.update_self]
  congr 1
  apply List.map_congr_left
  intro j hj
  have hlt := List.mem_range.mp hj
  apply Function.update_of_ne
  rw [ringIndex_eq hhead (hlt.trans (ringCount_lt hhead))]
  rw [ringCount_eq hhead htail] at hlt
  split at hlt <;> split <;> omega

/-- Moving the head on gives up the oldest entry. -/
theorem ringList_take (hsome : head ≠ tail) :
    ringList cells size head tail = cells head :: ringList cells size (ringNext size head) tail := by
  have hcount : ringCount size head tail = ringCount size (ringNext size head) tail + 1 := by
    rw [ringCount_eq (ringNext_lt hhead) htail, ringCount_eq hhead htail, ringNext_eq hhead]
    split <;> split <;> split <;> omega
  unfold ringList
  rw [hcount, List.range_succ_eq_map, List.map_cons, Nat.add_zero, Nat.mod_eq_of_lt hhead,
    List.map_map]
  congr 1
  apply List.map_congr_left
  intro j _
  unfold ringNext
  rw [Function.comp_apply, Nat.mod_add_mod, Nat.add_assoc, Nat.add_comm 1 j]

/-- The cell before the tail holds the newest entry. -/
theorem ringList_last (hsome : head ≠ tail) (x : α) :
    ∃ l, ringList cells size head tail = l ++ [cells (ringPrev size tail)] ∧
      ringList (Function.update cells (ringPrev size tail) x) size head tail = l ++ [x] := by
  obtain ⟨n, hn⟩ : ∃ n, ringCount size head tail = n + 1 := by
    rw [ringCount_eq hhead htail]
    split
    · exact ⟨tail - head - 1, by omega⟩
    · exact ⟨tail + size - head - 1, by omega⟩
  have hlt : n + 1 < size := by
    rw [← hn]
    exact ringCount_lt hhead
  have hlast : (head + n) % size = ringPrev size tail := by
    rw [ringCount_eq hhead htail] at hn
    rw [ringIndex_eq hhead (by omega), ringPrev_eq htail]
    split at hn <;> split <;> split <;> omega
  refine ⟨(List.range n).map fun j => cells ((head + j) % size), ?_, ?_⟩
  · unfold ringList
    rw [hn, List.range_succ, List.map_append, List.map_singleton, hlast]
  · unfold ringList
    rw [hn, List.range_succ, List.map_append, List.map_singleton, hlast, Function.update_self]
    congr 1
    apply List.map_congr_left
    intro j hj
    have hjn := List.mem_range.mp hj
    apply Function.update_of_ne
    rw [← hlast, ringIndex_eq hhead (by omega), ringIndex_eq hhead (by omega)]
    split <;> split <;> omega

end Bounds

end Sugimotos.Math
