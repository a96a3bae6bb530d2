/-
# Digits from the top

The digits of a number without leading zeros, and how to come by them with a divisor that
starts at a power of the base and loses one factor a turn.
-/

import Mathlib.Data.Nat.Digits.Lemmas

namespace Sugimotos.Math

variable {b : Nat}

/-- The digits of a number, the highest first. -/
def canonicalDigits (b n : Nat) : List Nat := if n = 0 then [0] else (b.digits n).reverse

/-- There is a digit, and none but the only one is a leading zero. -/
theorem canonicalDigits_head (b n : Nat) :
    ∃ d ds, canonicalDigits b n = d :: ds ∧ (d = 0 → ds = []) := by
  unfold canonicalDigits
  by_cases hn : n = 0
  · exact ⟨0, [], if_pos hn, fun _ => rfl⟩
  · rw [if_neg hn]
    have hne : b.digits n ≠ [] := Nat.digits_ne_nil_iff_ne_zero.mpr hn
    refine ⟨(b.digits n).getLast hne, (b.digits n).dropLast.reverse, ?_, ?_⟩
    · rw [← List.reverse_concat, List.dropLast_append_getLast]
    · intro hzero
      exact absurd hzero (Nat.getLast_digit_ne_zero b hn)

theorem canonicalDigits_value (b n : Nat) : Nat.ofDigits b (canonicalDigits b n).reverse = n := by
  unfold canonicalDigits
  by_cases hn : n = 0
  · rw [if_pos hn, hn]
    simp
  · rw [if_neg hn, List.reverse_reverse, Nat.ofDigits_digits]

theorem canonicalDigits_lt (hb : 1 < b) {n d : Nat} (hd : d ∈ canonicalDigits b n) : d < b := by
  unfold canonicalDigits at hd
  by_cases hn : n = 0
  · rw [if_pos hn, List.mem_singleton] at hd
    omega
  · rw [if_neg hn, List.mem_reverse] at hd
    exact Nat.digits_lt_base hb hd

/-- The last digit, and the digits of the rest. -/
theorem canonicalDigits_snoc (hb : 1 < b) {n : Nat} (hn : b ≤ n) :
    canonicalDigits b n = canonicalDigits b (n / b) ++ [n % b] := by
  have hpos : n ≠ 0 := by omega
  have hrest : n / b ≠ 0 := (Nat.div_pos hn (by omega)).ne'
  unfold canonicalDigits
  rw [if_neg hpos, if_neg hrest, Nat.digits_def' hb (Nat.pos_of_ne_zero hpos), List.reverse_cons]

theorem canonicalDigits_single {n : Nat} (hn : n < b) : canonicalDigits b n = [n] := by
  unfold canonicalDigits
  by_cases hzero : n = 0
  · rw [if_pos hzero, hzero]
  · rw [if_neg hzero, Nat.digits_of_lt b n hzero hn]
    rfl

/-- The digits by a divisor of `k + 1` of them. -/
def topDown (b : Nat) : Nat → Nat → List Nat
  | 0, n => [n]
  | k + 1, n => n / b ^ (k + 1) :: topDown b k (n % b ^ (k + 1))

theorem topDown_snoc (k n : Nat) : topDown b (k + 1) n = topDown b k (n / b) ++ [n % b] := by
  induction k generalizing n with
  | zero =>
      rw [topDown, topDown, topDown, zero_add, pow_one]
      rfl
  | succ k ih =>
      have hdigit : n / b / b ^ (k + 1) = n / b ^ (k + 2) := by
        rw [Nat.div_div_eq_div_mul, pow_succ' b (k + 1)]
      have hrest : n % b ^ (k + 2) / b = n / b % b ^ (k + 1) := by
        rw [pow_succ' b (k + 1), Nat.mod_mul_right_div_self]
      have hlast : n % b ^ (k + 2) % b = n % b := by
        rw [pow_succ' b (k + 1), Nat.mod_mul_right_mod]
      rw [topDown, ih, hrest, hlast, topDown, hdigit]
      rfl

/-- A divisor of as many digits as the number has. -/
theorem topDown_eq (hb : 1 < b) {k n : Nat} (hn : n < b ^ (k + 1)) (hk : k = 0 ∨ b ^ k ≤ n) :
    topDown b k n = canonicalDigits b n := by
  induction k generalizing n with
  | zero =>
      rw [zero_add, pow_one] at hn
      rw [topDown, canonicalDigits_single hn]
  | succ k ih =>
      have hle : b ^ (k + 1) ≤ n := hk.resolve_left (Nat.succ_ne_zero k)
      have hbase : b ≤ n := (Nat.le_self_pow (Nat.succ_ne_zero k) b).trans hle
      have hdiv : n / b < b ^ (k + 1) := by
        rw [Nat.div_lt_iff_lt_mul (by omega), ← pow_succ]
        exact hn
      have hlow : k = 0 ∨ b ^ k ≤ n / b := by
        right
        rw [Nat.le_div_iff_mul_le (by omega), ← pow_succ]
        exact hle
      rw [topDown_snoc, ih hdiv hlow, canonicalDigits_snoc hb hbase]

end Sugimotos.Math
