/-
# Rings with free-running indices

A ring of `size` cells written through a 16-bit index that is never reset, where
`size` divides 2^16.  The list of all entries ever written is the history; the
entries from position `lo` on are the ones not yet read.  A ring that has never
held more than `size` of them still has each in its cell.
-/

import Mathlib.Data.UInt
import Mathlib.Data.List.Basic
import Mathlib.Logic.Function.Basic
import Mathlib.Algebra.Order.Group.Nat

namespace Sugimotos.Math

universe u

/-! ## The sizes of the tables here, so that an index is written as a numeral -/

instance neZero_eight : NeZero 8 := ⟨by decide⟩

instance neZero_thirtyTwo : NeZero 32 := ⟨by decide⟩

/-! ## Cells -/

variable {α : Type u} {size : Nat} [NeZero size]

/-- The cell an index names. -/
def ringCell (size : Nat) [NeZero size] (idx : UInt16) : Fin size :=
  Fin.ofNat size idx.toNat

theorem ringCell_ofNat (hsize : size ∣ 65536) (n : Nat) :
    ringCell size (.ofNat n) = Fin.ofNat size n := by
  apply Fin.ext
  simp only [ringCell, Fin.ofNat, UInt16.toNat_ofNat']
  exact Nat.mod_mod_of_dvd n hsize

/-- Two positions less than `size` apart have different cells. -/
theorem ringCell_ne {m n : Nat} (hlt : m < n) (hnear : n - m < size) :
    Fin.ofNat size m ≠ Fin.ofNat size n := by
  intro heq
  have hmod : m % size = n % size := congrArg Fin.val heq
  have hdvd : size ∣ n - m := (Nat.modEq_iff_dvd' hlt.le).mp hmod
  exact absurd (Nat.le_of_dvd (by omega) hdvd) (by omega)

/-- The 16-bit counters of two positions are equal only if the positions are. -/
theorem counter_inj {m n : Nat} (hle : m ≤ n) (hnear : n - m < 65536) :
    (UInt16.ofNat m = UInt16.ofNat n) ↔ m = n := by
  constructor
  · intro heq
    have hmod : m % 65536 = n % 65536 := by
      have h := congrArg UInt16.toNat heq
      simpa only [UInt16.toNat_ofNat'] using h
    omega
  · intro heq
    rw [heq]

/-- How far a counter is ahead of another. -/
theorem counter_sub {m n : Nat} (hle : m ≤ n) (hnear : n - m < 65536) :
    (UInt16.ofNat n - UInt16.ofNat m).toNat = n - m := by
  simp only [UInt16.toNat_sub, UInt16.toNat_ofNat']
  omega

theorem counter_add (m n : Nat) : UInt16.ofNat m + UInt16.ofNat n = UInt16.ofNat (m + n) := by
  apply UInt16.toNat_inj.mp
  simp

theorem counter_succ (n : Nat) : UInt16.ofNat n + 1 = UInt16.ofNat (n + 1) := by
  apply UInt16.toNat_inj.mp
  simp

/-- The entries of the history from position `lo` on are in their cells. -/
def Holds (ring : Fin size → α) (history : List α) (lo : Nat) : Prop :=
  ∀ n x, lo ≤ n → history[n]? = some x → ring (Fin.ofNat size n) = x

theorem Holds.nil (ring : Fin size → α) (lo : Nat) : Holds ring [] lo := by
  intro n x _ hx
  cases hx

/-- Writing the next cell keeps the unread entries, if there was room for one more. -/
theorem Holds.push {ring : Fin size → α} {history : List α} {lo : Nat} (h : Holds ring history lo)
    (hroom : history.length < lo + size) (x : α) :
    Holds (Function.update ring (Fin.ofNat size history.length) x) (history ++ [x]) lo := by
  intro n y hn hy
  rcases Nat.lt_trichotomy n history.length with hlt | heq | hgt
  · rw [List.getElem?_append_left hlt] at hy
    rw [Function.update_of_ne (ringCell_ne hlt (by omega))]
    exact h n y hn hy
  · subst heq
    rw [List.getElem?_concat_length] at hy
    rw [Function.update_self]
    exact Option.some.inj hy
  · rw [List.getElem?_eq_none (by simp; omega)] at hy
    cases hy

/-- The entries from index `lo` up to index `hi`, in the order they were written. -/
def ringWindow (ring : Fin size → α) (lo hi : UInt16) : List α :=
  (List.range (hi - lo).toNat).map fun j => ring (ringCell size (lo + .ofNat j))

/-- The window up to the next cell to be written shows the unread entries. -/
theorem Holds.window {ring : Fin size → α} {history : List α} {lo : Nat} (h : Holds ring history lo)
    (hsize : size ∣ 65536) (hle : lo ≤ history.length) (hnear : history.length - lo < 65536) :
    ringWindow ring (.ofNat lo) (.ofNat history.length) = history.drop lo := by
  unfold ringWindow
  rw [counter_sub hle hnear]
  apply List.ext_getElem
  · rw [List.length_map, List.length_range, List.length_drop]
  · intro j hj _
    rw [List.length_map, List.length_range] at hj
    rw [List.getElem_map, List.getElem_range, counter_add, ringCell_ofNat hsize,
      List.getElem_drop]
    exact h (lo + j) _ (Nat.le_add_right ..) (List.getElem?_eq_getElem (by omega))

/-- Reading an entry gives it up. -/
theorem Holds.pop {ring : Fin size → α} {history : List α} {lo : Nat} (h : Holds ring history lo) :
    Holds ring history (lo + 1) :=
  fun n x hn hx => h n x (Nat.le_of_succ_le hn) hx

end Sugimotos.Math
