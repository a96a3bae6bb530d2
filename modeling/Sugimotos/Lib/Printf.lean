/-
# printf

Model of `lib/printf.c`.  What is printed is the list of the characters given to
`putchar`.  An argument is a word or the characters of a string; a conversion that finds
none, or one of the other kind, is undefined.
-/

import Sugimotos.Math.Digits
import Mathlib.Data.UInt

namespace Sugimotos.Lib

open Sugimotos.Math

/-- The byte of a character. -/
abbrev char (c : Char) : UInt8 := .ofNat c.toNat

/-- The loop that looks for the divisor of the first digit.  A divisor that is multiplied
is at most a tenth of the number, so the product does not wrap. -/
def growDivisor (magnitude divisor : UInt32) : UInt32 :=
  if magnitude / divisor > 9 then growDivisor magnitude (divisor * 10) else divisor
termination_by magnitude.toNat - divisor.toNat
decreasing_by
  rename_i hmore
  have hm := magnitude.toNat_lt
  have hten : 9 < magnitude.toNat / divisor.toNat := by
    rw [← UInt32.toNat_div]
    exact UInt32.lt_iff_toNat_lt.mp hmore
  have hpos : 0 < divisor.toNat := by
    by_contra hzero
    rw [Nat.eq_zero_of_not_pos hzero, Nat.div_zero] at hten
    omega
  have hle : 10 * divisor.toNat ≤ magnitude.toNat := (Nat.le_div_iff_mul_le hpos).mp hten
  have hmul : (divisor * 10).toNat = divisor.toNat * 10 := by
    rw [UInt32.toNat_mul, show (10 : UInt32).toNat = 10 from rfl]
    omega
  omega

/-- The loop that prints the digits. -/
def printDigits (magnitude divisor : UInt32) : List UInt8 :=
  if divisor > 0 then
    (48 + magnitude / divisor).toUInt8 :: printDigits (magnitude % divisor) (divisor / 10)
  else []
termination_by divisor.toNat
decreasing_by
  rename_i hpos
  rw [UInt32.toNat_div, show (10 : UInt32).toNat = 10 from rfl]
  have := UInt32.lt_iff_toNat_lt.mp hpos
  omega

/-- The conversion `%d`. -/
def printDecimal (value : Int32) : List UInt8 :=
  let magnitude := value.toUInt32
  if value < 0 then char '-' :: printDigits (-magnitude) (growDivisor (-magnitude) 1)
  else printDigits magnitude (growDivisor magnitude 1)

/-- The conversion `%x`, with all eight digits. -/
def printHex (value : UInt32) : List UInt8 :=
  (List.range 8).map fun i =>
    let nibble := (value >>> (.ofNat ((7 - i) * 4))) &&& 0xf
    "0123456789abcdef".toList.map char |>.getD nibble.toNat 0

/-- An argument of `printf`. -/
inductive VArg
  | word (v : UInt32)
  | string (s : List UInt8)

/-- `printf`, on the characters of the format. -/
def printf : List UInt8 → List VArg → Option (List UInt8)
  | [], _ => some []
  | c :: fmt, vargs =>
      if c = char '%' then
        match fmt with
        | [] => some [char '%']
        | conv :: fmt =>
            if conv = char '%' then (printf fmt vargs).map (char '%' :: ·)
            else if conv = char 's' then
              match vargs with
              | .string s :: vargs => (printf fmt vargs).map (s ++ ·)
              | _ => none
            else if conv = char 'd' then
              match vargs with
              | .word v :: vargs => (printf fmt vargs).map (printDecimal v.toInt32 ++ ·)
              | _ => none
            else if conv = char 'x' then
              match vargs with
              | .word v :: vargs => (printf fmt vargs).map (printHex v ++ ·)
              | _ => none
            else printf fmt vargs
      else (printf fmt vargs).map (c :: ·)

/-! ## Decimal numbers -/

/-- The canonical decimal representation. -/
def decimal (v : Int) : List UInt8 :=
  let digits := (canonicalDigits 10 v.natAbs).map fun d => .ofNat (48 + d)
  if v < 0 then char '-' :: digits else digits

/-- The canonical representation is an optional sign and digits without a leading zero,
whose value is the number's. -/
structure IsDecimal (v : Int) (out : List UInt8) : Prop where
  digits : ∃ ds : List Nat, (∀ d ∈ ds, d < 10) ∧
    out = (if v < 0 then [char '-'] else []) ++ ds.map (fun d => .ofNat (48 + d)) ∧
    (∃ d rest, ds = d :: rest ∧ (d = 0 → rest = [])) ∧ Nat.ofDigits 10 ds.reverse = v.natAbs

theorem decimal_isDecimal (v : Int) : IsDecimal v (decimal v) := by
  refine ⟨canonicalDigits 10 v.natAbs, fun d hd => canonicalDigits_lt (by decide) hd, ?_,
    canonicalDigits_head 10 v.natAbs, canonicalDigits_value 10 v.natAbs⟩
  unfold decimal
  split <;> rfl

/-! ## What `%d` prints -/

/-- The divisor that is found is a power of ten, with one digit above it. -/
theorem growDivisor_spec (magnitude : UInt32) (k : Nat) (divisor : UInt32)
    (hdiv : divisor.toNat = 10 ^ k) (hlow : k = 0 ∨ 10 ^ k ≤ magnitude.toNat) :
    ∃ j, (growDivisor magnitude divisor).toNat = 10 ^ j ∧ magnitude.toNat < 10 ^ (j + 1) ∧
      (j = 0 ∨ 10 ^ j ≤ magnitude.toNat) := by
  induction divisor using growDivisor.induct magnitude generalizing k with
  | case1 divisor hmore ih =>
      have hm := magnitude.toNat_lt
      have hten : 9 < magnitude.toNat / 10 ^ k := by
        rw [← hdiv, ← UInt32.toNat_div]
        exact UInt32.lt_iff_toNat_lt.mp hmore
      have hle : 10 ^ (k + 1) ≤ magnitude.toNat := by
        rw [pow_succ']
        exact (Nat.le_div_iff_mul_le (Nat.pow_pos (by decide))).mp hten
      have hmul : (divisor * 10).toNat = 10 ^ (k + 1) := by
        rw [UInt32.toNat_mul, hdiv, show (10 : UInt32).toNat = 10 from rfl, ← pow_succ]
        exact Nat.mod_eq_of_lt (by omega)
      rw [growDivisor, if_pos hmore]
      exact ih (k + 1) hmul (Or.inr hle)
  | case2 divisor hdone =>
      rw [growDivisor, if_neg hdone]
      refine ⟨k, hdiv, ?_, hlow⟩
      have hle : magnitude.toNat / 10 ^ k ≤ 9 := by
        rw [← hdiv, ← UInt32.toNat_div]
        exact Nat.le_of_not_lt fun hlt => hdone (UInt32.lt_iff_toNat_lt.mpr hlt)
      rw [pow_succ', ← Nat.div_lt_iff_lt_mul (Nat.pow_pos (by decide))]
      exact Nat.lt_succ_of_le hle

theorem printDigits_step (magnitude : UInt32) {divisor : UInt32} (hpos : 0 < divisor.toNat) :
    printDigits magnitude divisor =
      .ofNat (48 + magnitude.toNat / divisor.toNat) ::
        printDigits (magnitude % divisor) (divisor / 10) := by
  have hdigit : (48 + magnitude / divisor).toUInt8 =
      .ofNat (48 + magnitude.toNat / divisor.toNat) := by
    apply UInt8.toNat_inj.mp
    rw [UInt32.toNat_toUInt8, UInt32.toNat_add, UInt32.toNat_div, UInt8.toNat_ofNat',
      show (48 : UInt32).toNat = 48 from rfl]
    omega
  have hgt : divisor > 0 := UInt32.lt_iff_toNat_lt.mpr hpos
  rw [printDigits, if_pos hgt, hdigit]

theorem toNat_div_ten (divisor : UInt32) : (divisor / 10).toNat = divisor.toNat / 10 := by
  rw [UInt32.toNat_div]
  rfl

/-- With a power of ten that leaves one digit, the digits are those from the top. -/
theorem printDigits_eq (k : Nat) (magnitude divisor : UInt32) (hdiv : divisor.toNat = 10 ^ k) :
    printDigits magnitude divisor =
      (topDown 10 k magnitude.toNat).map fun d => .ofNat (48 + d) := by
  induction k generalizing magnitude divisor with
  | zero =>
      have hend : ¬ divisor / 10 > 0 := by
        intro hgt
        have hlt := UInt32.lt_iff_toNat_lt.mp hgt
        rw [toNat_div_ten, hdiv] at hlt
        exact absurd hlt (by decide)
      rw [printDigits_step magnitude (by rw [hdiv]; exact Nat.one_pos), hdiv, printDigits,
        if_neg hend, pow_zero, Nat.div_one]
      rfl
  | succ k ih =>
      have hnext : (divisor / 10).toNat = 10 ^ k := by
        rw [toNat_div_ten, hdiv, pow_succ, Nat.mul_div_cancel _ (by decide)]
      rw [printDigits_step magnitude (by rw [hdiv]; exact Nat.pow_pos (by decide)),
        ih _ _ hnext, UInt32.toNat_mod, hdiv]
      rfl

/-- Any magnitude is printed as its digits. -/
theorem printMagnitude_eq (magnitude : UInt32) :
    printDigits magnitude (growDivisor magnitude 1) =
      (canonicalDigits 10 magnitude.toNat).map fun d => .ofNat (48 + d) := by
  obtain ⟨j, hdiv, hlt, hlow⟩ := growDivisor_spec magnitude 0 1 rfl (Or.inl rfl)
  rw [printDigits_eq j magnitude _ hdiv, topDown_eq (by decide) hlt hlow]

/-- The value of a signed word. -/
theorem toInt_eq_toNat (value : Int32) : value.toInt =
    if 2 * value.toUInt32.toNat < 2 ^ 32 then (value.toUInt32.toNat : Int)
    else value.toUInt32.toNat - 2 ^ 32 :=
  BitVec.toInt_eq_toNat_cond value.toBitVec

/-- The magnitude of a negative number, that of the least one included. -/
theorem toNat_neg_toUInt32 {value : Int32} (hneg : value.toInt < 0) :
    (-value.toUInt32).toNat = value.toInt.natAbs := by
  have hlt := value.toUInt32.toNat_lt
  have hint := toInt_eq_toNat value
  have hsize : UInt32.size = 2 ^ 32 := rfl
  rw [UInt32.toNat_neg, hsize]
  split at hint <;> omega

theorem toNat_toUInt32 {value : Int32} (hpos : ¬ value.toInt < 0) :
    value.toUInt32.toNat = value.toInt.natAbs := by
  have hint := toInt_eq_toNat value
  have hlt := value.toUInt32.toNat_lt
  split at hint <;> omega

/-- `%d` prints the canonical representation of every number. -/
theorem printDecimal_eq (value : Int32) : printDecimal value = decimal value.toInt := by
  have hsign : value < 0 ↔ value.toInt < 0 := Int32.lt_iff_toInt_lt
  unfold printDecimal decimal
  dsimp only
  by_cases hneg : value < 0
  · have hlow := hsign.mp hneg
    rw [if_pos hneg, if_pos hlow, printMagnitude_eq, toNat_neg_toUInt32 hlow]
  · have hlow : ¬ value.toInt < 0 := fun h => hneg (hsign.mpr h)
    rw [if_neg hneg, if_neg hlow, printMagnitude_eq, toNat_toUInt32 hlow]

theorem printf_decimal (fmt : List UInt8) (v : Int32) (vargs : List VArg) :
    printf (char '%' :: char 'd' :: fmt) (.word v.toUInt32 :: vargs) =
      (printf fmt vargs).map (decimal v.toInt ++ ·) := by
  rw [printf, if_pos rfl, if_neg (by decide), if_neg (by decide), if_pos rfl,
    Int32.toInt32_toUInt32, printDecimal_eq]

end Sugimotos.Lib
