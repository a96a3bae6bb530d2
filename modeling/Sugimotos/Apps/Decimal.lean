/-
# Decimal numbers of the shell

Model of `put_dec` and `append_dec` in `kernel/apps/user_util.c`.  Both collect the digits
from the last to the first and print them the other way round; `put_dec` divides the
signed number, and `append_dec` an unsigned copy of it.
-/

import Sugimotos.Lib.Printf

namespace Sugimotos.Apps

open Sugimotos.Lib Sugimotos.Math

/-! ## put_dec -/

theorem toInt_div_ten (v : Int32) : (v / 10).toInt = v.toInt.tdiv 10 :=
  Int32.toInt_div_of_ne_right v 10 (by decide)

/-- The loop over `buf`, whose last entry stands first. -/
def putDecDigits (v : Int32) (buf : List UInt8) : List UInt8 :=
  if v > 0 then putDecDigits (v / 10) ((48 + v % 10).toUInt32.toUInt8 :: buf) else buf
termination_by v.toInt.toNat
decreasing_by
  rename_i hpos
  have hlt : 0 < v.toInt := Int32.lt_iff_toInt_lt.mp hpos
  rw [toInt_div_ten, Int.tdiv_eq_ediv_of_nonneg hlt.le]
  omega

/-- `put_dec`: the characters given to `u_putchar`. -/
def putDec (v : Int32) : List UInt8 :=
  let sign := if v < 0 then [char '-'] else []
  let v := if v < 0 then -v else v
  if v = 0 then sign ++ [char '0'] else sign ++ putDecDigits v []

/-! ## append_dec -/

abbrev wmTextMax : Nat := 4096

/-- `g_textbuf`, with the position that is passed on. -/
structure TextBuf where
  bytes : Nat → UInt8
  pos : Nat

/-- `append_char`. -/
def appendChar (t : TextBuf) (c : UInt8) : TextBuf :=
  if t.pos < wmTextMax - 1 then
    ⟨Function.update (Function.update t.bytes t.pos c) (t.pos + 1) 0, t.pos + 1⟩
  else t

/-- The loop over `buf`, whose last entry stands first. -/
def appendDecDigits (uv : UInt32) (buf : List UInt8) : List UInt8 :=
  if uv > 0 then appendDecDigits (uv / 10) ((48 + uv % 10).toUInt8 :: buf) else buf
termination_by uv.toNat
decreasing_by
  rename_i hpos
  have hlt := UInt32.lt_iff_toNat_lt.mp hpos
  rw [toNat_div_ten]
  have hzero : (0 : UInt32).toNat = 0 := rfl
  omega

/-- `append_dec`. -/
def appendDec (v : Int32) (t : TextBuf) : TextBuf :=
  let t := if v < 0 then appendChar t (char '-') else t
  let v := if v < 0 then -v else v
  if v = 0 then appendChar t (char '0') else (appendDecDigits v.toUInt32 []).foldl appendChar t

/-- The characters were appended, and a zero behind them. -/
structure Appended (cs : List UInt8) (t u : TextBuf) : Prop where
  pos : u.pos = t.pos + cs.length
  chars : ∀ i, i < cs.length → cs[i]? = some (u.bytes (t.pos + i))
  stop : cs ≠ [] → u.bytes u.pos = 0
  rest : ∀ n, n < t.pos ∨ t.pos + cs.length < n ∨ cs = [] → u.bytes n = t.bytes n

/-! ## Digits from the bottom -/

/-- The digits of a number as characters. -/
def digitChars (n : Nat) : List UInt8 := (Nat.digits 10 n).reverse.map fun d => .ofNat (48 + d)

theorem digitChars_zero : digitChars 0 = [] := by
  simp [digitChars]

theorem digitChars_pos {n : Nat} (hn : 0 < n) (buf : List UInt8) :
    digitChars n ++ buf = digitChars (n / 10) ++ .ofNat (48 + n % 10) :: buf := by
  unfold digitChars
  rw [Nat.digits_def' (by decide) hn, List.reverse_cons, List.map_append, List.append_assoc]
  rfl

/-- The canonical representation of a positive number has all its digits. -/
theorem canonicalDigits_chars {n : Nat} (hn : n ≠ 0) :
    ((canonicalDigits 10 n).map fun d => UInt8.ofNat (48 + d)) = digitChars n := by
  unfold canonicalDigits digitChars
  rw [if_neg hn]

theorem digit_signed {v : Int32} (hpos : 0 ≤ v.toInt) :
    (48 + v % 10).toUInt32.toUInt8 = .ofNat (48 + v.toInt.toNat % 10) := by
  have hmod : (v % 10).toInt = v.toInt % 10 := by
    rw [Int32.toInt_mod, show (10 : Int32).toInt = 10 from rfl, Int.tmod_eq_emod_of_nonneg hpos]
  have hdigit : (v % 10).toUInt32.toNat = v.toInt.toNat % 10 := by
    rw [toNat_toUInt32 (by omega), hmod]
    omega
  apply UInt8.toNat_inj.mp
  rw [UInt32.toNat_toUInt8, Int32.toUInt32_add, UInt32.toNat_add, hdigit, UInt8.toNat_ofNat',
    show (48 : Int32).toUInt32.toNat = 48 from rfl]
  omega

theorem putDecDigits_eq (v : Int32) (buf : List UInt8) (hpos : 0 ≤ v.toInt) :
    putDecDigits v buf = digitChars v.toInt.toNat ++ buf := by
  induction v, buf using putDecDigits.induct with
  | case1 v buf hgt ih =>
      have hlt : 0 < v.toInt := Int32.lt_iff_toInt_lt.mp hgt
      have hdiv : (v / 10).toInt = v.toInt / 10 := by
        rw [toInt_div_ten, Int.tdiv_eq_ediv_of_nonneg hlt.le]
      have hquot : (v / 10).toInt.toNat = v.toInt.toNat / 10 := by
        rw [hdiv]
        omega
      have hnat : 0 < v.toInt.toNat := by omega
      rw [putDecDigits, if_pos hgt, ih (by omega), digitChars_pos hnat, hquot, digit_signed hlt.le]
  | case2 v buf hle =>
      have hzero : v.toInt = 0 := by
        have hnot : ¬ 0 < v.toInt := fun h => hle (Int32.lt_iff_toInt_lt.mpr h)
        omega
      rw [putDecDigits, if_neg hle, hzero, Int.toNat_zero, digitChars_zero]
      rfl

theorem appendDecDigits_eq (uv : UInt32) (buf : List UInt8) :
    appendDecDigits uv buf = digitChars uv.toNat ++ buf := by
  induction uv, buf using appendDecDigits.induct with
  | case1 uv buf hgt ih =>
      have hlt : 0 < uv.toNat := UInt32.lt_iff_toNat_lt.mp hgt
      have hdigit : (48 + uv % 10).toUInt8 = .ofNat (48 + uv.toNat % 10) := by
        apply UInt8.toNat_inj.mp
        rw [UInt32.toNat_toUInt8, UInt32.toNat_add, UInt32.toNat_mod, UInt8.toNat_ofNat',
          show (48 : UInt32).toNat = 48 from rfl, show (10 : UInt32).toNat = 10 from rfl]
        omega
      rw [appendDecDigits, if_pos hgt, ih, digitChars_pos hlt, toNat_div_ten, hdigit]
  | case2 uv buf hle =>
      have hzero : uv.toNat = 0 := by
        have hnot : ¬ 0 < uv.toNat := fun h => hle (UInt32.lt_iff_toNat_lt.mpr h)
        omega
      rw [appendDecDigits, if_neg hle, hzero, digitChars_zero]
      rfl

theorem digitChars_length {n : Nat} (hn : n < 2 ^ 32) : (digitChars n).length ≤ 10 := by
  unfold digitChars
  rw [List.length_map, List.length_reverse, Nat.digits_length_le_iff (by decide)]
  omega

/-- The sixteen characters of `buf` are enough in both loops. -/
theorem buf_fits (v : Int32) (uv : UInt32) :
    (putDecDigits v []).length ≤ 10 ∧ (appendDecDigits uv []).length ≤ 10 := by
  constructor
  · by_cases hpos : 0 ≤ v.toInt
    · have hlt := v.toInt_lt
      rw [putDecDigits_eq v [] hpos, List.append_nil]
      exact digitChars_length (by omega)
    · have hle : ¬ v > 0 := fun h => hpos (Int32.lt_iff_toInt_lt.mp h).le
      rw [putDecDigits, if_neg hle]
      exact Nat.zero_le 10
  · rw [appendDecDigits_eq, List.append_nil]
    exact digitChars_length uv.toNat_lt

/-! ## Appending -/

theorem Appended.nil (t : TextBuf) : Appended [] t t :=
  ⟨rfl, nofun, fun h => absurd rfl h, fun _ _ => rfl⟩

theorem Appended.char {t : TextBuf} (hroom : t.pos + 1 ≤ wmTextMax - 1) (c : UInt8) :
    Appended [c] t (appendChar t c) := by
  unfold appendChar
  rw [if_pos (Nat.lt_of_succ_le hroom)]
  refine ⟨rfl, fun i hi => ?_, fun _ => Function.update_self .., fun n hn => ?_⟩
  · have hzero : i = 0 := Nat.lt_one_iff.mp hi
    rw [hzero]
    show some c = some (Function.update (Function.update t.bytes t.pos c) (t.pos + 1) 0 t.pos)
    rw [Function.update_of_ne (Nat.ne_of_lt (Nat.lt_succ_self _)), Function.update_self]
  · have hout : n ≠ t.pos + 1 ∧ n ≠ t.pos := by
      rcases hn with hlow | hhigh | hnil
      · omega
      · rw [List.length_singleton] at hhigh
        omega
      · cases hnil
    show Function.update (Function.update t.bytes t.pos c) (t.pos + 1) 0 n = t.bytes n
    rw [Function.update_of_ne hout.1, Function.update_of_ne hout.2]

theorem Appended.append {cs ds : List UInt8} {t u v : TextBuf} (h : Appended cs t u)
    (h' : Appended ds u v) : Appended (cs ++ ds) t v := by
  have hpos : u.pos = t.pos + cs.length := h.pos
  constructor
  · rw [h'.pos, hpos, List.length_append, Nat.add_assoc]
  · intro i hi
    rw [List.length_append] at hi
    by_cases hfirst : i < cs.length
    · rw [List.getElem?_append_left hfirst, h.chars i hfirst, h'.rest _ (Or.inl (by omega))]
    · have hlast := h'.chars (i - cs.length) (by omega)
      rw [List.getElem?_append_right (Nat.le_of_not_lt hfirst), hlast, hpos]
      congr 2
      omega
  · intro hne
    by_cases hds : ds = []
    · subst hds
      have hend : v.pos = u.pos := h'.pos
      rw [List.append_nil] at hne
      rw [hend, h'.rest _ (Or.inr (Or.inr rfl))]
      exact h.stop hne
    · exact h'.stop hds
  · intro n hn
    rw [List.length_append, List.append_eq_nil_iff] at hn
    rcases hn with hlow | hhigh | ⟨hcs, hds⟩
    · rw [h'.rest n (Or.inl (by omega)), h.rest n (Or.inl hlow)]
    · rw [h'.rest n (Or.inr (Or.inl (by omega))), h.rest n (Or.inr (Or.inl (by omega)))]
    · rw [h'.rest n (Or.inr (Or.inr hds)), h.rest n (Or.inr (Or.inr hcs))]

/-- Characters appended one by one. -/
theorem appendChars (cs : List UInt8) (t : TextBuf) (hroom : t.pos + cs.length ≤ wmTextMax - 1) :
    Appended cs t (cs.foldl appendChar t) := by
  induction cs generalizing t with
  | nil => exact Appended.nil t
  | cons c cs ih =>
      rw [List.length_cons] at hroom
      have hfirst : Appended [c] t (appendChar t c) := Appended.char (by omega) c
      have hpos : (appendChar t c).pos = t.pos + 1 := hfirst.pos
      exact hfirst.append (ih (appendChar t c) (by omega))

/-! ## The three printers -/

theorem decimal_zero : decimal 0 = [char '0'] := rfl

/-- A number other than zero, as its sign and digits. -/
theorem decimal_digits {v : Int} (hv : v ≠ 0) :
    decimal v = (if v < 0 then [char '-'] else []) ++ digitChars v.natAbs := by
  have hdigits := canonicalDigits_chars (n := v.natAbs) (by omega)
  unfold decimal
  dsimp only
  rw [hdigits]
  split <;> rfl

theorem toInt_ne_zero {v : Int32} (hv : v ≠ 0) : v.toInt ≠ 0 := by
  intro hzero
  exact hv (Int32.toInt_inj.mp hzero)

/-- The negated number, unless it is the least one, which negation leaves as it is. -/
theorem toInt_neg {v : Int32} (hleast : v ≠ Int32.minValue) : (-v).toInt = -v.toInt := by
  have hlow := v.le_toInt
  have hhigh := v.toInt_lt
  have hne : v.toInt ≠ -2 ^ 31 := fun h => hleast (Int32.toInt_inj.mp h)
  rw [Int32.toInt_neg]
  apply Int.bmod_eq_of_le <;> omega

/-- `put_dec` prints the canonical representation of every number but the least. -/
theorem putDec_eq {v : Int32} (hleast : v ≠ Int32.minValue) : putDec v = decimal v.toInt := by
  have hsign : v < 0 ↔ v.toInt < 0 := Int32.lt_iff_toInt_lt
  unfold putDec
  dsimp only
  by_cases hneg : v < 0
  · have hlow := hsign.mp hneg
    have hint := toInt_neg hleast
    have hne : -v ≠ 0 := by
      intro hzero
      rw [hzero, Int32.toInt_zero] at hint
      omega
    have habs : (-v).toInt.toNat = v.toInt.natAbs := by omega
    rw [if_pos hneg, if_pos hneg, if_neg hne, putDecDigits_eq _ _ (by omega),
      decimal_digits hlow.ne, if_pos hlow, habs, List.append_nil]
  · have hlow : ¬ v.toInt < 0 := fun h => hneg (hsign.mpr h)
    rw [if_neg hneg, if_neg hneg]
    by_cases hzero : v = 0
    · rw [if_pos hzero, hzero]
      exact decimal_zero.symm
    · have habs : v.toInt.toNat = v.toInt.natAbs := by omega
      rw [if_neg hzero, putDecDigits_eq _ _ (by omega), decimal_digits (toInt_ne_zero hzero),
        if_neg hlow, habs, List.append_nil]

/-- Of the least number `put_dec` prints the sign only. -/
theorem putDec_least : putDec Int32.minValue = [char '-'] := by
  have hneg : Int32.minValue < 0 := by decide
  have hsame : -Int32.minValue = Int32.minValue := by decide
  have hne : ¬ Int32.minValue = 0 := by decide
  have hloop : putDecDigits Int32.minValue [] = [] := by
    rw [putDecDigits, if_neg (by decide)]
  unfold putDec
  dsimp only
  rw [if_pos hneg, if_pos hneg, hsame, if_neg hne, hloop]
  rfl

/-- `append_dec` appends the canonical representation of every number. -/
theorem appendDec_eq (v : Int32) (t : TextBuf)
    (hroom : t.pos + (decimal v.toInt).length ≤ wmTextMax - 1) :
    Appended (decimal v.toInt) t (appendDec v t) := by
  have hsign : v < 0 ↔ v.toInt < 0 := Int32.lt_iff_toInt_lt
  unfold appendDec
  dsimp only
  by_cases hneg : v < 0
  · have hlow := hsign.mp hneg
    have hne : -v ≠ 0 := by
      intro hzero
      have hv : v = 0 := by rw [← Int32.neg_neg (a := v), hzero, Int32.neg_zero]
      rw [hv, Int32.toInt_zero] at hlow
      exact Int.lt_irrefl 0 hlow
    have habs : (-v).toUInt32.toNat = v.toInt.natAbs := by
      rw [Int32.toUInt32_neg, toNat_neg_toUInt32 hlow]
    rw [decimal_digits hlow.ne, if_pos hlow] at hroom ⊢
    rw [List.length_append, List.length_singleton] at hroom
    have hfirst : Appended [char '-'] t (appendChar t (char '-')) := Appended.char (by omega) _
    have hpos : (appendChar t (char '-')).pos = t.pos + 1 := hfirst.pos
    rw [if_pos hneg, if_pos hneg, if_neg hne, appendDecDigits_eq, List.append_nil, habs]
    exact hfirst.append (appendChars _ _ (by omega))
  · have hlow : ¬ v.toInt < 0 := fun h => hneg (hsign.mpr h)
    rw [if_neg hneg, if_neg hneg]
    by_cases hzero : v = 0
    · rw [if_pos hzero]
      rw [hzero, Int32.toInt_zero, decimal_zero] at hroom ⊢
      exact Appended.char hroom _
    · rw [decimal_digits (toInt_ne_zero hzero), if_neg hlow, List.nil_append] at hroom ⊢
      rw [if_neg hzero, appendDecDigits_eq, List.append_nil, toNat_toUInt32 hlow]
      exact appendChars _ _ hroom

/-- The three printers write the canonical representation of the number. -/
structure PrintersAgree (v : Int32) : Prop where
  printf : ∀ fmt vargs, Lib.printf (char '%' :: char 'd' :: fmt) (.word v.toUInt32 :: vargs) =
    (Lib.printf fmt vargs).map (decimal v.toInt ++ ·)
  putDec : putDec v = decimal v.toInt
  appendDec : ∀ t : TextBuf, t.pos + (decimal v.toInt).length ≤ wmTextMax - 1 →
    Appended (decimal v.toInt) t (appendDec v t)

/-- The canonical representation is what the three print, of every number but the least. -/
theorem printers_agree_iff (v : Int32) :
    IsDecimal v.toInt (decimal v.toInt) ∧ (PrintersAgree v ↔ v ≠ Int32.minValue) := by
  refine ⟨decimal_isDecimal v.toInt, ?_, ?_⟩
  · rintro hagree rfl
    have hput := hagree.putDec
    rw [putDec_least] at hput
    exact absurd hput (by decide)
  · intro hleast
    exact ⟨fun fmt vargs => printf_decimal fmt v vargs, putDec_eq hleast, appendDec_eq v⟩

/-- Of the least number the shell prints nothing but a sign. -/
theorem printers_differ : ¬ ∀ v : Int32, PrintersAgree v := by
  intro hall
  have hput := (hall Int32.minValue).putDec
  rw [putDec_least] at hput
  exact absurd hput (by decide)

end Sugimotos.Apps
