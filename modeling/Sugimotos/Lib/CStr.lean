/-
# Strings in a buffer

A string is a stretch of characters with a zero behind it.
-/

import Mathlib.Data.UInt
import Mathlib.Data.List.Basic

namespace Sugimotos.Lib

/-- The bytes from some address on. -/
abbrev Buf : Type := Nat → UInt8

/-- The string of these characters lies at `line`. -/
structure IsString (buf : Buf) (line : Nat) (cs : List UInt8) : Prop where
  chars : ∀ i, i < cs.length → cs[i]? = some (buf (line + i))
  stop : buf (line + cs.length) = 0

/-- None of the characters ends a string. -/
def NoNul (cs : List UInt8) : Prop := ∀ c ∈ cs, c ≠ 0

instance (cs : List UInt8) : Decidable (NoNul cs) := inferInstanceAs (Decidable (∀ c ∈ cs, c ≠ 0))

section

variable {buf : Buf} {line : Nat} {front cs : List UInt8}

theorem IsString.head {c : UInt8} (h : IsString buf line (c :: cs)) : buf line = c := by
  have hat := h.chars 0 (Nat.succ_pos _)
  exact (Option.some.inj hat).symm

theorem IsString.drop (h : IsString buf line (front ++ cs)) :
    IsString buf (line + front.length) cs := by
  constructor
  · intro i hi
    have hat := h.chars (front.length + i) (by rw [List.length_append]; omega)
    rw [List.getElem?_append_right (Nat.le_add_right _ _), Nat.add_sub_cancel_left, ← Nat.add_assoc]
      at hat
    exact hat
  · have hstop := h.stop
    rw [List.length_append, ← Nat.add_assoc] at hstop
    exact hstop

theorem IsString.tail {c : UInt8} (h : IsString buf line (c :: cs)) :
    IsString buf (line + 1) cs :=
  @IsString.drop buf line [c] cs h

theorem IsString.congr {buf' : Buf} (h : IsString buf line cs)
    (hsame : ∀ n, line ≤ n → buf' n = buf n) : IsString buf' line cs := by
  constructor
  · intro i hi
    rw [hsame _ (Nat.le_add_right _ _)]
    exact h.chars i hi
  · rw [hsame _ (Nat.le_add_right _ _)]
    exact h.stop

end

/-- The loops that compare two strings, as they are written in several places of the source:
whether both end where one does, or a character differs before that. -/
def strEq : Nat → Buf → Buf → Nat → Option Bool
  | 0, _, _, _ => none
  | turns + 1, a, b, i =>
      if a i ≠ 0 ∧ b i ≠ 0 then
        if a i ≠ b i then some false else strEq turns a b (i + 1)
      else some (decide (a i = 0) && decide (b i = 0))

theorem strEq_spec {turns i : Nat} {a b : Buf} {as bs : List UInt8} (hturns : as.length < turns)
    (ha : IsString a i as) (hb : IsString b i bs) (hasnul : NoNul as) (hbsnul : NoNul bs) :
    strEq turns a b i = some (decide (as = bs)) := by
  induction as generalizing turns i bs with
  | nil =>
      obtain ⟨turns, rfl⟩ := Nat.exists_eq_succ_of_ne_zero (Nat.ne_of_gt hturns)
      have hstop : a i = 0 := ha.stop
      rw [strEq, if_neg fun h => h.1 hstop]
      cases bs with
      | nil =>
          have hstop' : b i = 0 := hb.stop
          rw [decide_eq_true hstop, decide_eq_true hstop']
          rfl
      | cons d bs =>
          have hne : b i ≠ 0 := by
            rw [hb.head]
            exact hbsnul d List.mem_cons_self
          rw [decide_eq_true hstop, decide_eq_false hne]
          rfl
  | cons c as ih =>
      obtain ⟨turns, rfl⟩ := Nat.exists_eq_succ_of_ne_zero (Nat.ne_of_gt (Nat.zero_lt_of_lt hturns))
      have hne : a i ≠ 0 := by
        rw [ha.head]
        exact hasnul c List.mem_cons_self
      rw [strEq]
      cases bs with
      | nil =>
          have hstop : b i = 0 := hb.stop
          rw [if_neg fun h => h.2 hstop, decide_eq_false hne]
          rfl
      | cons d bs =>
          have hne' : b i ≠ 0 := by
            rw [hb.head]
            exact hbsnul d List.mem_cons_self
          rw [if_pos ⟨hne, hne'⟩, ha.head, hb.head]
          by_cases heq : c = d
          · have hrest := ih (Nat.lt_of_succ_lt_succ hturns) ha.tail hb.tail
              (fun x hx => hasnul x (List.mem_cons_of_mem c hx))
              (fun x hx => hbsnul x (List.mem_cons_of_mem d hx))
            rw [if_neg (not_not.mpr heq), hrest, heq]
            simp only [List.cons.injEq, true_and]
          · rw [if_pos heq, decide_eq_false fun h => heq (List.cons.inj h).1]

end Sugimotos.Lib
