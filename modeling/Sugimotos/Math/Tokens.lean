/-
# Tokens of a list

The tokens of a list are its maximal runs of elements that are no separators.
-/

import Mathlib.Data.List.Basic
import Mathlib.Data.List.TakeWhile

namespace Sugimotos.Math

universe u

variable {α : Type u} {p : α → Bool}

/-- The maximal runs of elements that do not satisfy `p`. -/
def tokens (p : α → Bool) (l : List α) : List (List α) := (l.splitOnP p).filter fun w => !w.isEmpty

/-- The list ends in a token. -/
def EndsInToken (p : α → Bool) (l : List α) : Prop := ∃ c, l.getLast? = some c ∧ p c = false

theorem tokens_nil : tokens p [] = [] := rfl

theorem tokens_sep {c : α} (hc : p c = true) (l : List α) : tokens p (c :: l) = tokens p l := by
  have hsplit := @List.splitOnP_append_cons_of_forall_mem _ p [] (by simp) c hc l
  unfold tokens
  rw [← List.nil_append (c :: l), hsplit, List.filter_cons_of_neg (by simp)]

theorem tokens_seps {seps : List α} (hseps : ∀ c ∈ seps, p c = true) (l : List α) :
    tokens p (seps ++ l) = tokens p l := by
  induction seps with
  | nil => rfl
  | cons c seps ih =>
      rw [List.cons_append, tokens_sep (hseps c List.mem_cons_self)]
      exact ih fun d hd => hseps d (List.mem_cons_of_mem c hd)

theorem tokens_single {w : List α} (hne : w ≠ []) (hw : ∀ c ∈ w, p c = false) :
    tokens p w = [w] := by
  unfold tokens
  rw [List.splitOnP_eq_singleton hw, List.filter_cons_of_pos (by simpa using hne), List.filter_nil]

theorem tokens_word {w : List α} (hne : w ≠ []) (hw : ∀ c ∈ w, p c = false) {c : α}
    (hc : p c = true) (l : List α) : tokens p (w ++ c :: l) = w :: tokens p (c :: l) := by
  rw [tokens_sep hc]
  unfold tokens
  rw [List.splitOnP_append_cons_of_forall_mem hw c hc l,
    List.filter_cons_of_pos (by simpa using hne)]

/-- Separators, a token, and what follows it: nothing, or a separator first. -/
structure Parts (p : α → Bool) (seps w after : List α) : Prop where
  seps : ∀ c ∈ seps, p c = true
  ne : w ≠ []
  word : ∀ c ∈ w, p c = false
  after : after = [] ∨ ∃ c rest, after = c :: rest ∧ p c = true

/-- Every list consists of separators, or of separators, a token and the rest. -/
theorem tokens_cases (p : α → Bool) (l : List α) :
    (∀ c ∈ l, p c = true) ∨ ∃ seps w after, l = seps ++ (w ++ after) ∧ Parts p seps w after := by
  cases hrest : l.dropWhile p with
  | nil =>
      left
      exact List.dropWhile_eq_nil_iff.mp hrest
  | cons c rest =>
      right
      have hc : p c = false := by
        have hhead := List.head?_dropWhile_not p l
        rw [hrest] at hhead
        exact hhead
      refine ⟨l.takeWhile p, (l.dropWhile p).takeWhile (fun d => !p d),
        (l.dropWhile p).dropWhile (fun d => !p d), ?_, ?_, ?_, ?_, ?_⟩
      · rw [List.takeWhile_append_dropWhile, List.takeWhile_append_dropWhile]
      · intro d hd
        exact List.mem_takeWhile_imp hd
      · rw [hrest, List.takeWhile_cons_of_pos (by simpa using hc)]
        exact List.cons_ne_nil _ _
      · intro d hd
        have hword := List.mem_takeWhile_imp hd
        simpa using hword
      · cases hafter : (l.dropWhile p).dropWhile fun d => !p d with
        | nil => exact Or.inl rfl
        | cons d after =>
            have hhead := List.head?_dropWhile_not (fun d => !p d) (l.dropWhile p)
            rw [hafter] at hhead
            exact Or.inr ⟨d, after, rfl, by simpa using hhead⟩

namespace Parts

variable {seps w after : List α}

theorem tokens_eq (h : Parts p seps w after) :
    tokens p (seps ++ (w ++ after)) = w :: tokens p after := by
  rw [tokens_seps h.seps]
  cases h.after with
  | inl hnil => rw [hnil, List.append_nil, tokens_single h.ne h.word, tokens_nil]
  | inr hsep =>
      obtain ⟨c, rest, rfl, hc⟩ := hsep
      exact tokens_word h.ne h.word hc rest

theorem endsInToken_iff (h : Parts p seps w after) :
    EndsInToken p (seps ++ (w ++ after)) ↔ after = [] ∨ EndsInToken p after := by
  unfold EndsInToken
  cases hlast : after.getLast? with
  | none =>
      have hnil : after = [] := List.getLast?_eq_none_iff.mp hlast
      have hne := h.ne
      refine iff_of_true ⟨w.getLast hne, ?_, h.word _ (List.getLast_mem hne)⟩ (Or.inl hnil)
      rw [hnil, List.append_nil, List.getLast?_append, List.getLast?_eq_some_getLast hne]
      rfl
  | some c =>
      have hne : after ≠ [] := by
        rintro rfl
        cases hlast
      rw [List.getLast?_append, List.getLast?_append, hlast, or_iff_right hne]
      rfl

end Parts

/-- A list without tokens does not end in one. -/
theorem not_endsInToken {l : List α} (h : tokens p l = []) : ¬ EndsInToken p l := by
  rintro ⟨c, hlast, hc⟩
  cases tokens_cases p l with
  | inl hseps =>
      rw [hseps c (List.mem_of_getLast? hlast)] at hc
      cases hc
  | inr hparts =>
      obtain ⟨seps, w, after, rfl, hparts⟩ := hparts
      rw [hparts.tokens_eq] at h
      cases h

end Sugimotos.Math
