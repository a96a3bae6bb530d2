/-
# Registers kept in memory

A list of registers is written to memory, each at an address of its own, and read back
later.  What lies between the two is free to change every register and all other memory.
-/

import Mathlib.Logic.Function.Basic

namespace Sugimotos.Math

universe u v w

variable {R : Type u} {A : Type v} {V : Type w}

section Write

variable [DecidableEq A]

/-- The memory after the registers of a list have been written, the first one first. -/
def spill (addr : R → A) (file : R → V) : List R → (A → V) → A → V
  | [], mem => mem
  | r :: rs, mem => spill addr file rs (Function.update mem (addr r) (file r))

variable {addr : R → A} {file : R → V} {rs : List R} {mem : A → V}

theorem spill_other {a : A} (h : ∀ r ∈ rs, addr r ≠ a) : spill addr file rs mem a = mem a := by
  induction rs generalizing mem with
  | nil => rfl
  | cons r rs ih =>
      have hne : a ≠ addr r := (h r List.mem_cons_self).symm
      rw [spill, ih fun s hs => h s (List.mem_cons_of_mem r hs), Function.update_of_ne hne]

/-- Registers with different addresses are all found where they were written. -/
theorem spill_at {r : R} (hinj : ∀ s ∈ rs, ∀ t ∈ rs, addr s = addr t → s = t) (hr : r ∈ rs) :
    spill addr file rs mem (addr r) = file r := by
  induction rs generalizing mem with
  | nil => cases hr
  | cons s rs ih =>
      have hrest : ∀ s ∈ rs, ∀ t ∈ rs, addr s = addr t → s = t := fun s hs t ht =>
        hinj s (List.mem_cons_of_mem _ hs) t (List.mem_cons_of_mem _ ht)
      by_cases hin : r ∈ rs
      · exact ih hrest hin
      · have heq : r = s := (List.mem_cons.mp hr).resolve_right hin
        have hother : ∀ t ∈ rs, addr t ≠ addr r := by
          intro t ht hsame
          exact hin (hinj t (List.mem_cons_of_mem _ ht) r hr hsame ▸ ht)
        rw [spill, spill_other hother, heq, Function.update_self]

theorem spill_append (rs ss : List R) (mem : A → V) :
    spill addr file (rs ++ ss) mem = spill addr file ss (spill addr file rs mem) := by
  induction rs generalizing mem with
  | nil => rfl
  | cons r rs ih => exact ih _

/-- Only the registers of the list matter. -/
theorem spill_congr {file' : R → V} (h : ∀ r ∈ rs, file' r = file r) :
    spill addr file' rs mem = spill addr file rs mem := by
  induction rs generalizing mem with
  | nil => rfl
  | cons r rs ih =>
      rw [spill, spill, h r List.mem_cons_self, ih fun s hs => h s (List.mem_cons_of_mem r hs)]

end Write

section Read

variable [DecidableEq R]

/-- The registers after those of a list have been read, the first one first. -/
def fill (addr : R → A) (mem : A → V) : List R → (R → V) → R → V
  | [], file => file
  | r :: rs, file => fill addr mem rs (Function.update file r (mem (addr r)))

variable {addr : R → A} {file : R → V} {rs : List R} {mem : A → V}

theorem fill_other {r : R} (h : r ∉ rs) : fill addr mem rs file r = file r := by
  induction rs generalizing file with
  | nil => rfl
  | cons s rs ih =>
      have hne : r ≠ s := fun heq => h (heq ▸ List.mem_cons_self)
      rw [fill, ih fun hin => h (List.mem_cons_of_mem s hin), Function.update_of_ne hne]

theorem fill_at {r : R} (h : r ∈ rs) : fill addr mem rs file r = mem (addr r) := by
  induction rs generalizing file with
  | nil => cases h
  | cons s rs ih =>
      by_cases hin : r ∈ rs
      · exact ih hin
      · have heq : r = s := (List.mem_cons.mp h).resolve_right hin
        rw [fill, fill_other hin, heq, Function.update_self]

end Read

end Sugimotos.Math
