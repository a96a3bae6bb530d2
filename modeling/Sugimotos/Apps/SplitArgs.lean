/-
# Splitting a line into arguments

Model of `split_args` in `kernel/apps/user_util.c`.  The line is a buffer of bytes, and a
pointer into it the number of bytes in front.  Separators are overwritten when the next
argument is looked for, so the one behind the last argument stays when no more are wanted.
-/

import Sugimotos.Lib.CStr
import Sugimotos.Math.Tokens
import Mathlib.Logic.Function.Basic

namespace Sugimotos.Apps

open Sugimotos.Lib Sugimotos.Math

/-- Space, tab, newline and carriage return. -/
def isSeparator (c : UInt8) : Bool := c = 32 || c = 9 || c = 10 || c = 13

/-- The loop that overwrites separators.  A bound that is too small gives nothing. -/
def skipSeparators : Nat → Buf → Nat → Option (Buf × Nat)
  | 0, _, _ => none
  | turns + 1, buf, line =>
      if buf line ≠ 0 ∧ isSeparator (buf line) then
        skipSeparators turns (Function.update buf line 0) (line + 1)
      else some (buf, line)

/-- The loop that looks for the end of an argument. -/
def skipToken : Nat → Buf → Nat → Option Nat
  | 0, _, _ => none
  | turns + 1, buf, line =>
      if buf line ≠ 0 ∧ ¬ isSeparator (buf line) then skipToken turns buf (line + 1) else some line

/-- The outer loop, with the arguments found so far. -/
def splitArgsLoop (maxArgs : Nat) : Nat → Buf → Nat → List Nat → Option (Buf × List Nat)
  | 0, _, _, _ => none
  | turns + 1, buf, line, argv =>
      if buf line ≠ 0 ∧ argv.length < maxArgs then
        match skipSeparators (turns + 1) buf line with
        | none => none
        | some (buf, line) =>
            if buf line = 0 then some (buf, argv)
            else
              match skipToken (turns + 1) buf line with
              | none => none
              | some next => splitArgsLoop maxArgs turns buf next (argv ++ [line])
      else some (buf, argv)

/-- `split_args`: the buffer afterwards, and the arguments, which are as many as the
function returns. -/
def splitArgs (turns : Nat) (buf : Buf) (maxArgs : Nat) : Option (Buf × List Nat) :=
  splitArgsLoop maxArgs turns buf 0 []

/-- The arguments are the tokens, in order and up to the number wanted, each a string in the
buffer. -/
structure Tokenises (cs : List UInt8) (maxArgs : Nat) (r : Buf × List Nat) : Prop where
  count : r.2.length = min (tokens isSeparator cs).length maxArgs
  argv : ∀ i w, i < r.2.length → (tokens isSeparator cs)[i]? = some w →
    ∃ p, r.2[i]? = some p ∧ IsString r.1 p w

/-- Fewer arguments than are wanted, or as many and nothing behind the last. -/
def SplitFits (cs : List UInt8) (maxArgs : Nat) : Prop :=
  (tokens isSeparator cs).length < maxArgs ∨
    (tokens isSeparator cs).length = maxArgs ∧ EndsInToken isSeparator cs

/-! ## The inner loops -/

section Parts

variable {buf : Buf} {line : Nat} {seps w rest cs : List UInt8}

/-- The buffer with a stretch of zeros. -/
def cleared (buf : Buf) (line n : Nat) : Buf := fun m => if line ≤ m ∧ m < line + n then 0 else buf m

theorem cleared_succ (buf : Buf) (line n : Nat) :
    cleared (Function.update buf line 0) (line + 1) n = cleared buf line (n + 1) := by
  funext m
  unfold cleared
  by_cases hm : m = line
  · rw [hm, Function.update_self, ite_self, if_pos (by omega)]
  · rw [Function.update_of_ne hm]
    by_cases hin : line + 1 ≤ m ∧ m < line + 1 + n
    · rw [if_pos hin, if_pos (by omega)]
    · rw [if_neg hin, if_neg (by omega)]

/-- The separators in front are cleared, up to the end of the line or a token. -/
theorem skipSeparators_spec {turns : Nat} (hturns : seps.length < turns)
    (h : IsString buf line (seps ++ cs)) (hnul : NoNul (seps ++ cs))
    (hseps : ∀ c ∈ seps, isSeparator c = true) (hcs : ∀ c ∈ cs.head?, isSeparator c = false) :
    skipSeparators turns buf line = some (cleared buf line seps.length, line + seps.length) := by
  induction seps generalizing turns buf line with
  | nil =>
      obtain ⟨turns, rfl⟩ := Nat.exists_eq_succ_of_ne_zero (Nat.ne_of_gt hturns)
      have hstop : ¬ (buf line ≠ 0 ∧ isSeparator (buf line)) := by
        cases cs with
        | nil => exact fun hboth => hboth.1 h.stop
        | cons c cs =>
            rw [IsString.head h, hcs c rfl]
            exact fun hboth => Bool.false_ne_true hboth.2
      have hnone : cleared buf line 0 = buf := by
        funext m
        exact if_neg (by omega)
      rw [skipSeparators, if_neg hstop, List.length_nil, hnone, Nat.add_zero]
  | cons c seps ih =>
      obtain ⟨turns, rfl⟩ := Nat.exists_eq_succ_of_ne_zero (Nat.ne_of_gt (Nat.zero_lt_of_lt hturns))
      have hc : buf line = c := IsString.head h
      have hgo : buf line ≠ 0 ∧ isSeparator (buf line) := by
        rw [hc]
        exact ⟨hnul c List.mem_cons_self, hseps c List.mem_cons_self⟩
      have htail : IsString (Function.update buf line 0) (line + 1) (seps ++ cs) := by
        refine (IsString.tail h).congr fun n hn => ?_
        exact Function.update_of_ne (by omega) _ _
      rw [skipSeparators, if_pos hgo, ih (Nat.lt_of_succ_lt_succ hturns) htail
        (fun d hd => hnul d (List.mem_cons_of_mem c hd))
        (fun d hd => hseps d (List.mem_cons_of_mem c hd)), cleared_succ, List.length_cons]
      congr 2
      omega

/-- The end of the token is found. -/
theorem skipToken_spec {turns : Nat} (hturns : w.length < turns) (h : IsString buf line (w ++ rest))
    (hnul : NoNul (w ++ rest)) (hw : ∀ c ∈ w, isSeparator c = false)
    (hrest : ∀ c ∈ rest.head?, isSeparator c = true) :
    skipToken turns buf line = some (line + w.length) := by
  induction w generalizing turns line with
  | nil =>
      obtain ⟨turns, rfl⟩ := Nat.exists_eq_succ_of_ne_zero (Nat.ne_of_gt hturns)
      have hstop : ¬ (buf line ≠ 0 ∧ ¬ isSeparator (buf line)) := by
        cases rest with
        | nil => exact fun hboth => hboth.1 h.stop
        | cons c rest =>
            rw [IsString.head h]
            exact fun hboth => hboth.2 (hrest c rfl)
      rw [skipToken, if_neg hstop, List.length_nil, Nat.add_zero]
  | cons c w ih =>
      obtain ⟨turns, rfl⟩ := Nat.exists_eq_succ_of_ne_zero (Nat.ne_of_gt (Nat.zero_lt_of_lt hturns))
      have hc : buf line = c := IsString.head h
      have hgo : buf line ≠ 0 ∧ ¬ isSeparator (buf line) := by
        rw [hc, hw c List.mem_cons_self]
        exact ⟨hnul c List.mem_cons_self, Bool.false_ne_true⟩
      rw [skipToken, if_pos hgo, ih (Nat.lt_of_succ_lt_succ hturns) (IsString.tail h)
        (fun d hd => hnul d (List.mem_cons_of_mem c hd))
        (fun d hd => hw d (List.mem_cons_of_mem c hd)), List.length_cons]
      congr 1
      omega

end Parts

/-! ## The outer loop -/

/-- The token `i` is the last that is wanted, and something follows it. -/
def Cut (cs : List UInt8) (limit i : Nat) : Prop :=
  i + 1 = limit ∧ ¬ ((tokens isSeparator cs).length = i + 1 ∧ EndsInToken isSeparator cs)

/-- What the loop makes of the rest `cs` of a line when `limit` more arguments are wanted:
the buffer afterwards and the arguments found. -/
structure Loop (cs : List UInt8) (limit : Nat) (buf : Buf) (line : Nat) (buf' : Buf)
    (argv : List Nat) : Prop where
  count : argv.length = min (tokens isSeparator cs).length limit
  before : ∀ n, n < line → buf' n = buf n
  same : limit = 0 ∨ cs = [] → buf' = buf
  /-- A separator in front is overwritten, and so ends the argument before it. -/
  head : 0 < limit → ∀ c ∈ cs.head?, isSeparator c = true → buf' line = 0
  argv : ∀ i w, i < argv.length → (tokens isSeparator cs)[i]? = some w →
    ∃ p, argv[i]? = some p ∧ (∀ j, j < w.length → w[j]? = some (buf' (p + j))) ∧
      (buf' (p + w.length) = 0 ↔ ¬ Cut cs limit i)

theorem Loop.none {cs : List UInt8} {limit : Nat} {buf : Buf} {line : Nat}
    (h : limit = 0 ∨ cs = []) : Loop cs limit buf line buf [] := by
  constructor
  · cases h with
    | inl hzero => rw [hzero, Nat.min_zero, List.length_nil]
    | inr hnil => rw [hnil, tokens_nil, List.length_nil, List.length_nil, Nat.zero_min]
  · exact fun _ _ => rfl
  · exact fun _ => rfl
  · intro hpos c hc
    cases h with
    | inl hzero => omega
    | inr hnil =>
        rw [hnil] at hc
        cases hc
  · intro i w hi
    exact absurd hi (Nat.not_lt_zero i)

/-- Nothing but separators is left. -/
theorem Loop.seps {cs : List UInt8} {limit : Nat} (buf : Buf) (line : Nat) (hne : cs ≠ [])
    (hpos : limit ≠ 0) (hseps : ∀ c ∈ cs, isSeparator c = true) :
    Loop cs limit buf line (cleared buf line cs.length) [] := by
  have hlength := List.length_pos_iff.mpr hne
  have htokens : tokens isSeparator cs = [] := by
    have hall := tokens_seps hseps []
    rwa [List.append_nil, tokens_nil] at hall
  constructor
  · rw [htokens, List.length_nil, List.length_nil, Nat.zero_min]
  · exact fun n hn => if_neg (by omega)
  · rintro (hzero | hnil)
    · exact absurd hzero hpos
    · exact absurd hnil hne
  · exact fun _ _ _ _ => if_pos (by omega)
  · intro i w hi
    exact absurd hi (Nat.not_lt_zero i)

section Token

variable {seps w after : List UInt8} {limit line : Nat} {buf buf' : Buf} {argv : List Nat}

theorem cut_first (h : Parts isSeparator seps w after) (hafter : after ≠ []) :
    Cut (seps ++ (w ++ after)) limit 0 ↔ limit = 1 := by
  unfold Cut
  rw [h.tokens_eq, h.endsInToken_iff, or_iff_right hafter, List.length_cons, Nat.zero_add]
  constructor
  · exact fun hcut => hcut.1.symm
  · intro hone
    refine ⟨hone.symm, fun hboth => ?_⟩
    have hnone : tokens isSeparator after = [] := List.length_eq_zero_iff.mp (by omega)
    exact not_endsInToken hnone hboth.2

theorem cut_next (h : Parts isSeparator seps w after) {i : Nat}
    (hi : i < (tokens isSeparator after).length) :
    Cut (seps ++ (w ++ after)) (limit + 1) (i + 1) ↔ Cut after limit i := by
  have hafter : after ≠ [] := by
    rintro rfl
    exact absurd hi (Nat.not_lt_zero i)
  unfold Cut
  rw [h.tokens_eq, h.endsInToken_iff, or_iff_right hafter, List.length_cons,
    Nat.add_right_cancel_iff, Nat.add_right_cancel_iff]

/-- One argument more, in front of those of the rest. -/
theorem Loop.token (h : Parts isSeparator seps w after)
    (hbuf : IsString buf line (seps ++ (w ++ after))) (hnul : NoNul (seps ++ (w ++ after)))
    (hrest : Loop after limit (cleared buf line seps.length) (line + seps.length + w.length) buf' argv) :
    Loop (seps ++ (w ++ after)) (limit + 1) buf line buf' ((line + seps.length) :: argv) := by
  have hword := (IsString.drop hbuf)
  have hwpos := List.length_pos_iff.mpr h.ne
  have hclear : ∀ n, line + seps.length ≤ n → cleared buf line seps.length n = buf n :=
    fun n hn => if_neg (by omega)
  constructor
  · rw [h.tokens_eq, List.length_cons, List.length_cons, hrest.count]
    omega
  · intro n hn
    rw [hrest.before n (by omega)]
    exact if_neg (by omega)
  · intro hnone
    cases hnone with
    | inl hzero => cases hzero
    | inr hnil =>
        have hwnil := List.append_eq_nil_iff.mp (List.append_eq_nil_iff.mp hnil).2
        exact absurd hwnil.1 h.ne
  · intro _ c hc hsep
    cases hseps : seps with
    | nil =>
        -- The line begins with the token, which begins with no separator.
        obtain ⟨d, w', rfl⟩ := List.exists_cons_of_ne_nil h.ne
        rw [hseps] at hc
        have hd : d = c := Option.some.inj hc
        rw [← hd, h.word d List.mem_cons_self] at hsep
        cases hsep
    | cons d seps' =>
        rw [hrest.before line (by omega), hseps, List.length_cons]
        exact if_pos (by omega)
  · intro i v hi hv
    rw [h.tokens_eq] at hv
    cases i with
    | zero =>
        have hvw : w = v := Option.some.inj hv
        subst hvw
        refine ⟨line + seps.length, rfl, ?_, ?_⟩
        · intro j hj
          have hat := hword.chars j (by rw [List.length_append]; omega)
          rw [List.getElem?_append_left hj] at hat
          rw [hrest.before _ (by omega), hclear _ (by omega)]
          exact hat
        · have hend : IsString buf (line + seps.length + w.length) after := IsString.drop hword
          cases h.after with
          | inl hnil =>
              rw [hrest.same (Or.inr hnil), hclear _ (by omega)]
              rw [hnil] at hend
              refine iff_of_true hend.stop fun hcut => hcut.2 ⟨?_, h.endsInToken_iff.mpr (Or.inl hnil)⟩
              rw [h.tokens_eq, hnil, tokens_nil]
              rfl
          | inr hsep =>
              obtain ⟨c, rest, rfl, hc⟩ := hsep
              rw [cut_first h (List.cons_ne_nil c rest)]
              by_cases hlimit : limit = 0
              · have hcnul : c ≠ 0 := hnul c (by simp)
                rw [hrest.same (Or.inl hlimit), hclear _ (by omega), IsString.head hend]
                exact iff_of_false hcnul fun hne => hne (by omega)
              · exact iff_of_true (hrest.head (Nat.pos_of_ne_zero hlimit) c rfl hc) (by omega)
    | succ i =>
        have hi' : i < argv.length := Nat.lt_of_succ_lt_succ hi
        obtain ⟨p, hp, hchars, hstop⟩ := hrest.argv i v hi' hv
        refine ⟨p, hp, hchars, ?_⟩
        rw [hstop, cut_next h]
        rw [hrest.count] at hi'
        omega

end Token

theorem splitArgsLoop_spec (maxArgs : Nat) {turns limit line : Nat} {cs : List UInt8} {buf : Buf}
    {argv : List Nat} (hturns : cs.length < turns) (hbuf : IsString buf line cs) (hnul : NoNul cs)
    (hlimit : argv.length + limit = maxArgs) :
    ∃ buf' more, splitArgsLoop maxArgs turns buf line argv = some (buf', argv ++ more) ∧
      Loop cs limit buf line buf' more := by
  induction turns generalizing cs limit line buf argv with
  | zero => exact absurd hturns (Nat.not_lt_zero _)
  | succ turns ih =>
      rw [splitArgsLoop]
      by_cases hnone : limit = 0 ∨ cs = []
      · have hstop : ¬ (buf line ≠ 0 ∧ argv.length < maxArgs) := by
          rintro ⟨hne, hlt⟩
          cases hnone with
          | inl hzero => omega
          | inr hnil =>
              rw [hnil] at hbuf
              exact hne hbuf.stop
        refine ⟨buf, [], ?_, Loop.none hnone⟩
        rw [if_neg hstop, List.append_nil]
      · obtain ⟨hpos, hcs⟩ := not_or.mp hnone
        have hgo : buf line ≠ 0 ∧ argv.length < maxArgs := by
          obtain ⟨c, cs', rfl⟩ := List.exists_cons_of_ne_nil hcs
          rw [IsString.head hbuf]
          exact ⟨hnul c List.mem_cons_self, by omega⟩
        rw [if_pos hgo]
        cases tokens_cases isSeparator cs with
        | inl hseps =>
            rw [← List.append_nil cs] at hbuf
            have hstop : cleared buf line cs.length (line + cs.length) = 0 := by
              have hend := (IsString.drop hbuf).stop
              unfold cleared
              rw [if_neg (by omega)]
              exact hend
            have hskip := skipSeparators_spec hturns hbuf (by rwa [List.append_nil]) hseps nofun
            refine ⟨cleared buf line cs.length, [], ?_, Loop.seps buf line hcs hpos hseps⟩
            rw [hskip]
            dsimp only
            rw [if_pos hstop, List.append_nil]
        | inr hparts =>
            obtain ⟨seps, w, after, rfl, hparts⟩ := hparts
            obtain ⟨limit, rfl⟩ := Nat.exists_eq_succ_of_ne_zero hpos
            have hlengths : seps.length + (w.length + after.length) < turns + 1 := by
              rw [List.length_append, List.length_append] at hturns
              exact hturns
            have hwpos := List.length_pos_iff.mpr hparts.ne
            obtain ⟨c, w', hw⟩ := List.exists_cons_of_ne_nil hparts.ne
            have hword : IsString (cleared buf line seps.length) (line + seps.length) (w ++ after) :=
              (IsString.drop hbuf).congr fun n hn => if_neg (by omega)
            have hwordNul : NoNul (w ++ after) := fun d hd => hnul d (List.mem_append_right seps hd)
            have hfront : seps.length < turns + 1 := by omega
            have hmiddle : w.length < turns + 1 := by omega
            have hbehind : after.length < turns := by omega
            have hleft : (argv ++ [line + seps.length]).length + limit = maxArgs := by
              rw [List.length_append, List.length_singleton]
              omega
            have hskip := skipSeparators_spec hfront hbuf hnul hparts.seps
              (by
                rw [hw]
                intro d hd
                rw [← Option.some.inj hd]
                exact hparts.word c (hw ▸ List.mem_cons_self))
            have htoken := skipToken_spec hmiddle hword hwordNul hparts.word
              (by
                intro d hd
                cases hparts.after with
                | inl hnil =>
                    rw [hnil] at hd
                    cases hd
                | inr hsep =>
                    obtain ⟨e, rest, rfl, he⟩ := hsep
                    rwa [← Option.some.inj hd])
            have hfirst : cleared buf line seps.length (line + seps.length) ≠ 0 := by
              rw [hw] at hword
              rw [IsString.head hword]
              exact hwordNul c (by rw [hw]; exact List.mem_cons_self)
            obtain ⟨buf', more, hloop, hspec⟩ := ih hbehind (IsString.drop hword)
              (fun d hd => hwordNul d (List.mem_append_right w hd)) hleft
            refine ⟨buf', (line + seps.length) :: more, ?_, Loop.token hparts hbuf hnul hspec⟩
            rw [hskip]
            dsimp only
            rw [if_neg hfirst, htoken]
            dsimp only
            rw [hloop, List.append_assoc]
            rfl

/-! ## When the line is split into its tokens -/

/-- The only argument that can be wrong is the last one that is wanted. -/
theorem Loop.tokenises_iff {cs : List UInt8} {maxArgs : Nat} {buf buf' : Buf} {argv : List Nat}
    (h : Loop cs maxArgs buf 0 buf' argv) (hmax : 1 ≤ maxArgs) :
    Tokenises cs maxArgs (buf', argv) ↔ SplitFits cs maxArgs := by
  have hcount := h.count
  constructor
  · intro htokenises
    by_contra hfits
    obtain ⟨hmany, hends⟩ := not_or.mp hfits
    have hlast : maxArgs - 1 < (tokens isSeparator cs).length := by omega
    obtain ⟨p, hp, hstring⟩ := htokenises.argv (maxArgs - 1) _ (by dsimp only; omega)
      (List.getElem?_eq_getElem hlast)
    obtain ⟨q, hq, -, hstop⟩ := h.argv (maxArgs - 1) _ (by omega) (List.getElem?_eq_getElem hlast)
    have hsame : q = p := Option.some.inj (hq.symm.trans hp)
    subst hsame
    refine hstop.mp hstring.stop ⟨by omega, fun hboth => hends ⟨by omega, hboth.2⟩⟩
  · intro hfits
    refine ⟨hcount, fun i w hi hw => ?_⟩
    obtain ⟨p, hp, hchars, hstop⟩ := h.argv i w hi hw
    refine ⟨p, hp, hchars, hstop.mpr ?_⟩
    rintro ⟨hlast, hcut⟩
    cases hfits with
    | inl hfew =>
        have hlt : i < (tokens isSeparator cs).length := (List.getElem?_eq_some_iff.mp hw).1
        omega
    | inr hall => exact hcut ⟨by omega, hall.2⟩

theorem splitArgs_spec {cs : List UInt8} {buf : Buf} {maxArgs turns : Nat} (hnul : NoNul cs)
    (hbuf : IsString buf 0 cs) (hmax : 1 ≤ maxArgs) (hturns : cs.length < turns) :
    ∃ r, splitArgs turns buf maxArgs = some r ∧
      (Tokenises cs maxArgs r ↔ SplitFits cs maxArgs) := by
  have hnone : ([] : List Nat).length + maxArgs = maxArgs := Nat.zero_add maxArgs
  obtain ⟨buf', argv, hloop, hspec⟩ := splitArgsLoop_spec maxArgs hturns hbuf hnul hnone
  exact ⟨(buf', argv), hloop, hspec.tokenises_iff hmax⟩

/-- On every line `split_args` returns, within as many turns as the line has characters and
one more, and it splits the line into its tokens exactly when nothing follows the last
argument that is wanted. -/
theorem split_args_iff {cs : List UInt8} {buf : Buf} {maxArgs turns : Nat} (hnul : NoNul cs)
    (hbuf : IsString buf 0 cs) (hmax : 1 ≤ maxArgs) (hturns : cs.length < turns) :
    ∃ r, splitArgs turns buf maxArgs = some r ∧
      (Tokenises cs maxArgs r ↔ SplitFits cs maxArgs) :=
  splitArgs_spec hnul hbuf hmax hturns

/-- The line with these characters. -/
def lineOf (cs : List UInt8) : Buf := fun n => cs.getD n 0

theorem lineOf_isString (cs : List UInt8) : IsString (lineOf cs) 0 cs := by
  constructor
  · intro i hi
    rw [lineOf, Nat.zero_add, List.getD_eq_getElem?_getD, List.getElem?_eq_getElem hi]
    rfl
  · rw [lineOf, Nat.zero_add, List.getD_eq_getElem?_getD, List.getElem?_eq_none (Nat.le_refl _)]
    rfl

/-- Two words with a space between them and one at the end, and room for twelve arguments. -/
theorem split_args_words : ∃ r, splitArgs 5 (lineOf [97, 32, 98, 32]) 12 = some r ∧
    Tokenises [97, 32, 98, 32] 12 r := by
  have hturns : ([97, 32, 98, 32] : List UInt8).length < 5 := by decide
  obtain ⟨r, hr, htokenises⟩ := split_args_iff (by decide +kernel) (lineOf_isString [97, 32, 98, 32])
    (show 1 ≤ 12 by decide) hturns
  exact ⟨r, hr, htokenises.mpr (.inl (by decide))⟩

/-- With room for one argument the first word and the rest of the line are one. -/
theorem split_args_joins : ¬ ∀ (cs : List UInt8) (buf : Buf) (maxArgs : Nat), NoNul cs →
    IsString buf 0 cs → 1 ≤ maxArgs → ∀ turns, cs.length < turns →
      ∃ r, splitArgs turns buf maxArgs = some r ∧ Tokenises cs maxArgs r := by
  intro hall
  obtain ⟨r, hr, htokenises⟩ := hall [97, 32, 98] (lineOf [97, 32, 98]) 1 (by decide +kernel)
    (lineOf_isString _) (by decide) 4 (by decide)
  have hshort : ([97, 32, 98] : List UInt8).length < 4 := by decide
  obtain ⟨r', hr', hiff⟩ := splitArgs_spec (by decide +kernel) (lineOf_isString [97, 32, 98])
    (Nat.le_refl 1) hshort
  rw [hr] at hr'
  obtain rfl := Option.some.inj hr'
  have htokens : (tokens isSeparator [97, 32, 98]).length = 2 := by decide
  cases hiff.mp htokenises with
  | inl hfew =>
      rw [htokens] at hfew
      omega
  | inr hall =>
      rw [htokens] at hall
      exact absurd hall.1 (by decide)

end Sugimotos.Apps
