/-
# The arguments of a line

Which strings `split_args` hands out, whatever the line: its tokens, but the last one that is
wanted goes on to the end of the line.
-/

import Sugimotos.Apps.Shell

namespace Sugimotos.Apps

open Sugimotos.Lib Sugimotos.Math

/-- What is left of a line behind the separators in front. -/
def skipSeps (cs : Line) : Line := cs.dropWhile isSeparator

/-- The first token of a line that begins with one, and the rest. -/
def firstToken (cs : Line) : Line := cs.takeWhile fun c => !isSeparator c
def afterToken (cs : Line) : Line := cs.dropWhile fun c => !isSeparator c

/-- The arguments of a line when `limit` are wanted. -/
def arguments : Nat → Line → List Line
  | 0, _ => []
  | limit + 1, cs =>
      if skipSeps cs = [] then []
      else if limit = 0 then [skipSeps cs]
      else firstToken (skipSeps cs) :: arguments limit (afterToken (skipSeps cs))

/-- The strings at these places of a buffer. -/
def Strings (buf : Buf) (argv : List Nat) (args : List Line) : Prop :=
  List.Forall₂ (fun p w => IsString buf p w) argv args

section

variable {cs : Line} {limit line : Nat} {buf buf' : Buf} {argv : List Nat}

/-- What the outer loop makes of the rest of a line. -/
structure Hands (cs : Line) (limit : Nat) (buf : Buf) (line : Nat) (buf' : Buf) (argv : List Nat) :
    Prop where
  strings : Strings buf' argv (arguments limit cs)
  before : ∀ n, n < line → buf' n = buf n
  same : limit = 0 ∨ cs = [] → buf' = buf
  /-- A separator in front is overwritten, and so ends the argument before it. -/
  head : limit ≠ 0 → ∀ c ∈ cs.head?, isSeparator c = true → buf' line = 0

theorem Hands.none (h : limit = 0 ∨ cs = []) : Hands cs limit buf line buf [] where
  strings := by
    have hnone : arguments limit cs = [] := by
      cases h with
      | inl hzero => rw [hzero, arguments]
      | inr hnil =>
          rw [hnil]
          cases limit <;> rfl
    rw [hnone]
    exact .nil
  before _ _ := rfl
  same _ := rfl
  head hpos c hc := by
    cases h with
    | inl hzero => exact absurd hzero hpos
    | inr hnil =>
        rw [hnil] at hc
        cases hc

theorem skipSeps_append {seps rest : Line} (hseps : ∀ c ∈ seps, isSeparator c = true)
    (hrest : ∀ c ∈ rest.head?, isSeparator c = false) : skipSeps (seps ++ rest) = rest := by
  unfold skipSeps
  rw [List.dropWhile_append_of_pos hseps]
  cases rest with
  | nil => rfl
  | cons c rest => exact List.dropWhile_cons_of_neg (by rw [hrest c rfl]; exact Bool.false_ne_true)

/-- Nothing but separators is left. -/
theorem Hands.seps (buf : Buf) (line : Nat) (hne : cs ≠ []) (hpos : limit ≠ 0)
    (hseps : ∀ c ∈ cs, isSeparator c = true) :
    Hands cs limit buf line (cleared buf line cs.length) [] where
  strings := by
    have hskip : skipSeps cs = [] := List.dropWhile_eq_nil_iff.mpr hseps
    have hnone : arguments limit cs = [] := by
      cases limit with
      | zero => rfl
      | succ limit => rw [arguments, if_pos hskip]
    rw [hnone]
    exact .nil
  before n hn := if_neg (by omega)
  same h := by
    cases h with
    | inl hzero => exact absurd hzero hpos
    | inr hnil => exact absurd hnil hne
  head _ _ _ _ := if_pos (by have hlen := List.length_pos_iff.mpr hne; omega)

section Token

variable {seps w after : Line}

theorem Parts.skip (h : Parts isSeparator seps w after) : skipSeps (seps ++ (w ++ after)) = w ++ after := by
  apply skipSeps_append h.seps
  obtain ⟨c, w', rfl⟩ := List.exists_cons_of_ne_nil h.ne
  intro d hd
  obtain rfl : c = d := Option.some.inj hd
  exact h.word c List.mem_cons_self

theorem Parts.first (h : Parts isSeparator seps w after) : firstToken (w ++ after) = w := by
  unfold firstToken
  rw [List.takeWhile_append_of_pos fun c hc => by rw [h.word c hc]; rfl]
  cases h.after with
  | inl hnil => rw [hnil, List.takeWhile_nil, List.append_nil]
  | inr hsep =>
      obtain ⟨c, rest, rfl, hc⟩ := hsep
      rw [List.takeWhile_cons_of_neg (by rw [hc]; exact Bool.false_ne_true), List.append_nil]

theorem Parts.rest (h : Parts isSeparator seps w after) : afterToken (w ++ after) = after := by
  unfold afterToken
  rw [List.dropWhile_append_of_pos fun c hc => by rw [h.word c hc]; rfl]
  cases h.after with
  | inl hnil => rw [hnil, List.dropWhile_nil]
  | inr hsep =>
      obtain ⟨c, rest, rfl, hc⟩ := hsep
      exact List.dropWhile_cons_of_neg (by rw [hc]; exact Bool.false_ne_true)

/-- One argument more, in front of those of the rest. -/
theorem Hands.token (h : Parts isSeparator seps w after)
    (hbuf : IsString buf line (seps ++ (w ++ after)))
    (hrest : Hands after limit (cleared buf line seps.length) (line + seps.length + w.length) buf' argv) :
    Hands (seps ++ (w ++ after)) (limit + 1) buf line buf' ((line + seps.length) :: argv) := by
  have hword : IsString buf (line + seps.length) (w ++ after) := IsString.drop hbuf
  have hwpos := List.length_pos_iff.mpr h.ne
  have hwne : w ++ after ≠ [] := fun hnil => h.ne (List.append_eq_nil_iff.mp hnil).1
  have hclear : ∀ n, line + seps.length ≤ n → cleared buf line seps.length n = buf n :=
    fun n hn => if_neg (by omega)
  -- The characters of the token are where they were.
  have hchars : ∀ j, j < w.length → w[j]? = some (buf' (line + seps.length + j)) := by
    intro j hj
    have hat := hword.chars j (by rw [List.length_append]; omega)
    rw [List.getElem?_append_left hj] at hat
    rw [hrest.before _ (by omega), hclear _ (by omega)]
    exact hat
  have hend : IsString buf (line + seps.length + w.length) after := IsString.drop hword
  constructor
  · rw [arguments, Parts.skip h, if_neg hwne]
    by_cases hlimit : limit = 0
    · -- The last argument that is wanted goes on to the end of the line.
      have hsame := hrest.same (Or.inl hlimit)
      have hargv : argv = [] := by
        have hstrings := hrest.strings
        rw [hlimit] at hstrings
        cases hstrings
        rfl
      rw [if_pos hlimit, hargv]
      refine .cons (IsString.congr hword fun n hn => ?_) .nil
      rw [hsame]
      exact hclear n hn
    · rw [if_neg hlimit, Parts.first h, Parts.rest h]
      refine .cons ⟨hchars, ?_⟩ hrest.strings
      cases h.after with
      | inl hnil =>
          rw [hrest.same (Or.inr hnil), hclear _ (by omega)]
          rw [hnil] at hend
          exact hend.stop
      | inr hsep =>
          obtain ⟨c, rest, rfl, hc⟩ := hsep
          exact hrest.head hlimit c rfl hc
  · intro n hn
    rw [hrest.before n (by omega)]
    exact if_neg (by omega)
  · intro hnone
    cases hnone with
    | inl hzero => exact absurd hzero (Nat.succ_ne_zero limit)
    | inr hnil => exact absurd (List.append_eq_nil_iff.mp hnil).2 hwne
  · intro _ c hc hsep
    cases hseps : seps with
    | nil =>
        -- The line begins with the token, which begins with no separator.
        obtain ⟨d, w', rfl⟩ := List.exists_cons_of_ne_nil h.ne
        rw [hseps] at hc
        obtain rfl : d = c := Option.some.inj hc
        rw [h.word d List.mem_cons_self] at hsep
        cases hsep
    | cons d seps' =>
        rw [hrest.before line (by omega), hseps, List.length_cons]
        exact if_pos (by omega)

end Token

theorem splitArgsLoop_hands (maxArgs : Nat) {turns : Nat} {argv : List Nat} (hturns : cs.length < turns)
    (hbuf : IsString buf line cs) (hnul : NoNul cs) (hlimit : argv.length + limit = maxArgs) :
    ∃ buf' more, splitArgsLoop maxArgs turns buf line argv = some (buf', argv ++ more) ∧
      Hands cs limit buf line buf' more := by
  induction turns generalizing cs limit line buf argv with
  | zero => exact absurd hturns (Nat.not_lt_zero _)
  | succ turns ih =>
      rw [splitArgsLoop]
      by_cases hnone : limit = 0 ∨ cs = []
      · have hstop : ¬ (buf line ≠ 0 ∧ argv.length < maxArgs) := by
          intro hboth
          cases hnone with
          | inl hzero => omega
          | inr hnil =>
              rw [hnil] at hbuf
              exact hboth.1 hbuf.stop
        refine ⟨buf, [], ?_, Hands.none hnone⟩
        rw [if_neg hstop, List.append_nil]
      · obtain ⟨hpos, hcs⟩ := not_or.mp hnone
        have hgo : buf line ≠ 0 ∧ argv.length < maxArgs := by
          obtain ⟨c, cs', rfl⟩ := List.exists_cons_of_ne_nil hcs
          rw [IsString.head hbuf]
          exact ⟨hnul c List.mem_cons_self, by omega⟩
        rw [if_pos hgo]
        cases tokens_cases isSeparator cs with
        | inl hseps =>
            rw [← List.append_nil cs] at hbuf
            have hstop : cleared buf line cs.length (line + cs.length) = 0 := by
              have hend := (IsString.drop hbuf).stop
              unfold cleared
              rw [if_neg (by omega)]
              exact hend
            have hskip := skipSeparators_spec hturns hbuf (by rwa [List.append_nil]) hseps
              fun c hc => absurd hc (Option.not_mem_none c)
            rw [hskip]
            refine ⟨cleared buf line cs.length, [], ?_, Hands.seps buf line hcs hpos hseps⟩
            dsimp only
            rw [if_pos hstop, List.append_nil]
        | inr hparts =>
            obtain ⟨seps, w, after, rfl, hparts⟩ := hparts
            obtain ⟨limit, rfl⟩ := Nat.exists_eq_succ_of_ne_zero hpos
            have hwpos := List.length_pos_iff.mpr hparts.ne
            rw [List.length_append, List.length_append] at hturns
            have hhead : ∀ c ∈ (w ++ after).head?, isSeparator c = false := by
              obtain ⟨c, w', rfl⟩ := List.exists_cons_of_ne_nil hparts.ne
              intro d hd
              obtain rfl : c = d := Option.some.inj hd
              exact hparts.word c List.mem_cons_self
            have hskip := skipSeparators_spec (by omega : seps.length < turns + 1) hbuf hnul hparts.seps hhead
            have hstring : IsString (cleared buf line seps.length) (line + seps.length) (w ++ after) :=
              IsString.congr (IsString.drop hbuf) fun n hn => if_neg (by omega)
            have hnulw : NoNul (w ++ after) := fun c hc => hnul c (List.mem_append_right seps hc)
            have hne : cleared buf line seps.length (line + seps.length) ≠ 0 := by
              obtain ⟨c, w', rfl⟩ := List.exists_cons_of_ne_nil hparts.ne
              rw [IsString.head hstring]
              exact hnulw c List.mem_cons_self
            have hafter : ∀ c ∈ after.head?, isSeparator c = true := by
              intro c hc
              cases hparts.after with
              | inl hnil =>
                  rw [hnil] at hc
                  cases hc
              | inr hsep =>
                  obtain ⟨d, rest, rfl, hd⟩ := hsep
                  obtain rfl : d = c := Option.some.inj hc
                  exact hd
            have htoken := skipToken_spec (by omega : w.length < turns + 1) hstring hnulw hparts.word hafter
            rw [hskip]
            dsimp only
            rw [if_neg hne, htoken]
            dsimp only
            obtain ⟨buf', more, hloop, hmore⟩ := @ih after limit (line + seps.length + w.length)
              (cleared buf line seps.length) (argv ++ [line + seps.length]) (by omega)
              (IsString.drop hstring) (fun c hc => hnulw c (List.mem_append_right w hc))
              (by rw [List.length_append, List.length_singleton]; omega)
            refine ⟨buf', (line + seps.length) :: more, ?_, Hands.token hparts hbuf hmore⟩
            rw [hloop, List.append_assoc, List.singleton_append]

/-! ## Reading them -/

/-- A string in a buffer is read back. -/
theorem stringAt_eq {max p : Nat} (h : IsString buf p cs) (hnul : NoNul cs) (hlen : cs.length < max) :
    stringAt max buf p = cs := by
  have hread : ∀ n, cs.length < n →
      ((List.range n).map fun k => buf (p + k)).takeWhile (· ≠ 0) = cs := by
    clear hlen
    induction cs generalizing p with
    | nil =>
        intro n hn
        obtain ⟨n, rfl⟩ := Nat.exists_eq_succ_of_ne_zero (Nat.ne_of_gt hn)
        have hstop : buf p = 0 := h.stop
        rw [List.range_succ_eq_map, List.map_cons, Nat.add_zero, hstop,
          List.takeWhile_cons_of_neg (by decide)]
    | cons c cs ih =>
        intro n hn
        obtain ⟨n, rfl⟩ := Nat.exists_eq_succ_of_ne_zero (Nat.ne_of_gt (Nat.zero_lt_of_lt hn))
        have hrest := ih h.tail (fun d hd => hnul d (List.mem_cons_of_mem c hd)) n
          (Nat.lt_of_succ_lt_succ hn)
        rw [List.range_succ_eq_map, List.map_cons, Nat.add_zero, IsString.head h,
          List.takeWhile_cons_of_pos (by simpa using hnul c List.mem_cons_self), List.map_map]
        congr 1
        rw [← hrest]
        congr 1
        apply List.map_congr_left
        intro k _
        exact congrArg buf (by omega)
  exact hread max hlen

/-- The characters of every argument come from the line. -/
theorem arguments_mem {arg : Line} (h : arg ∈ arguments limit cs) : ∀ c ∈ arg, c ∈ cs := by
  induction limit generalizing cs with
  | zero => exact absurd h List.not_mem_nil
  | succ limit ih =>
      have hskip : ∀ c ∈ skipSeps cs, c ∈ cs := fun c hc => (List.dropWhile_suffix _).subset hc
      rw [arguments] at h
      split at h
      · exact absurd h List.not_mem_nil
      · split at h
        · rw [List.mem_singleton.mp h]
          exact hskip
        · cases List.mem_cons.mp h with
          | inl hfirst =>
              intro c hc
              rw [hfirst] at hc
              exact hskip c ((List.takeWhile_prefix _).subset hc)
          | inr hmem =>
              intro c hc
              exact hskip c ((List.dropWhile_suffix _).subset (ih hmem c hc))

theorem arguments_length {arg : Line} (h : arg ∈ arguments limit cs) : arg.length ≤ cs.length := by
  induction limit generalizing cs with
  | zero => exact absurd h List.not_mem_nil
  | succ limit ih =>
      have hskip : (skipSeps cs).length ≤ cs.length := (List.dropWhile_suffix _).length_le
      rw [arguments] at h
      split at h
      · exact absurd h List.not_mem_nil
      · split at h
        · rw [List.mem_singleton.mp h]
          exact hskip
        · cases List.mem_cons.mp h with
          | inl hfirst =>
              rw [hfirst]
              exact ((List.takeWhile_prefix _).length_le).trans hskip
          | inr hmem => exact (ih hmem).trans (((List.dropWhile_suffix _).length_le).trans hskip)

/-- The strings that the shell passes to its commands are the arguments of the line. -/
theorem splitArgs_arguments {turns maxArgs : Nat} (hbuf : IsString buf 0 cs) (hnul : NoNul cs)
    (hlen : cs.length < shellMaxLine) (hturns : shellMaxLine < turns) :
    ∃ buf' argv, splitArgs turns buf maxArgs = some (buf', argv) ∧
      argv.map (stringAt shellMaxLine buf') = arguments maxArgs cs := by
  obtain ⟨buf', argv, hloop, hhands⟩ := @splitArgsLoop_hands cs maxArgs 0 buf maxArgs turns []
    (by omega) hbuf hnul (Nat.zero_add maxArgs)
  refine ⟨buf', argv, hloop, ?_⟩
  have hread : ∀ args : List Line, (∀ arg ∈ args, NoNul arg ∧ arg.length < shellMaxLine) →
      ∀ argv : List Nat, Strings buf' argv args → argv.map (stringAt shellMaxLine buf') = args := by
    intro args hargs argv hstrings
    induction hstrings with
    | nil => rfl
    | cons hfirst _ ih =>
        obtain ⟨hfnul, hflen⟩ := hargs _ List.mem_cons_self
        rw [List.map_cons, stringAt_eq hfirst hfnul hflen,
          ih fun arg harg => hargs arg (List.mem_cons_of_mem _ harg)]
  exact hread _ (fun arg harg => ⟨fun c hc => hnul c (arguments_mem harg c hc),
    (arguments_length harg).trans_lt hlen⟩) argv hhands.strings

end

end Sugimotos.Apps
