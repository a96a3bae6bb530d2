/-
# Recent entries

Entries that come one after the other, where one equal to the entry before it is left
out, and a walk through a list of them that goes from the front to the back and returns.
-/

import Mathlib.Data.List.Destutter

namespace Sugimotos.Math

universe u v w

variable {α : Type u}

section Distinct

variable [DecidableEq α]

/-- An entry is left out where it is equal to the last. -/
def pushDistinct (l : List α) (a : α) : List α := if l.getLast? = some a then l else l ++ [a]

theorem pushDistinct_cons (a b : α) (l : List α) (c : α) :
    pushDistinct (a :: b :: l) c = a :: pushDistinct (b :: l) c := by
  unfold pushDistinct
  rw [List.getLast?_cons_cons]
  by_cases hlast : (b :: l).getLast? = some c
  · rw [if_pos hlast, if_pos hlast]
  · rw [if_neg hlast, if_neg hlast, List.cons_append]

theorem destutter'_concat (a : α) (l : List α) (c : α) :
    List.destutter' (· ≠ ·) a (l ++ [c]) = pushDistinct (List.destutter' (· ≠ ·) a l) c := by
  induction l generalizing a with
  | nil =>
      rw [List.nil_append, List.destutter'_nil]
      unfold pushDistinct
      rw [List.getLast?_singleton]
      by_cases heq : a = c
      · rw [List.destutter'_cons_neg _ (not_not.mpr heq), if_pos (congrArg some heq),
          List.destutter'_nil]
      · rw [List.destutter'_cons_pos _ heq, if_neg fun h => heq (Option.some.inj h),
          List.destutter'_nil, List.singleton_append]
  | cons b l ih =>
      rw [List.cons_append]
      by_cases heq : a = b
      · rw [List.destutter'_cons_neg _ (not_not.mpr heq),
          List.destutter'_cons_neg _ (not_not.mpr heq), ih]
      · rw [List.destutter'_cons_pos _ heq, List.destutter'_cons_pos _ heq, ih]
        cases hrest : List.destutter' (· ≠ ·) b l with
        | nil => exact absurd hrest (List.destutter'_ne_nil l _)
        | cons d rest => exact (pushDistinct_cons a d rest c).symm

theorem destutter_concat (l : List α) (c : α) :
    (l ++ [c]).destutter (· ≠ ·) = pushDistinct (l.destutter (· ≠ ·)) c := by
  cases l with
  | nil => rfl
  | cons a l => exact destutter'_concat a l c

end Distinct

/-! ## Replies -/

section Replies

variable {σ : Type u} {τ : Type v} {ι ρ : Type w}

/-- Every input meets a state that it fits. -/
def EachFits (step : σ → ι → σ) (fits : σ → ι → Prop) : σ → List ι → Prop
  | _, [] => True
  | s, i :: is => fits s i ∧ EachFits step fits (step s i) is

instance EachFits.decidable (step : σ → ι → σ) (fits : σ → ι → Prop)
    [∀ s i, Decidable (fits s i)] : ∀ s is, Decidable (EachFits step fits s is)
  | _, [] => isTrue trivial
  | s, i :: is => @instDecidableAnd _ _ _ (EachFits.decidable step fits (step s i) is)

/-- What a machine replies to the inputs, one after the other. -/
def replies (step : σ → ι → ρ × σ) : σ → List ι → List ρ
  | _, [] => []
  | s, i :: is => (step s i).1 :: replies step (step s i).2 is

theorem replies_append (step : σ → ι → ρ × σ) (s : σ) (is js : List ι) :
    replies step s (is ++ js) =
      replies step s is ++ replies step (is.foldl (fun s i => (step s i).2) s) js := by
  induction is generalizing s with
  | nil => rfl
  | cons i is ih =>
      rw [List.cons_append, replies, replies, ih, List.cons_append]
      rfl

/-- Two machines that go in lockstep give the same replies. -/
theorem replies_eq {step : σ → ι → ρ × σ} {step' : τ → ι → ρ × τ} {fits : σ → ι → Prop}
    (R : σ → τ → Prop)
    (hstep : ∀ s t i, R s t → fits s i →
      (step s i).1 = (step' t i).1 ∧ R (step s i).2 (step' t i).2)
    {s : σ} {t : τ} (hst : R s t) {is : List ι}
    (hfits : EachFits (fun s i => (step s i).2) fits s is) :
    replies step s is = replies step' t is := by
  induction is generalizing s t with
  | nil => rfl
  | cons i is ih =>
      obtain ⟨hreply, hnext⟩ := hstep s t i hst hfits.1
      rw [replies, replies, hreply, ih hnext hfits.2]

end Replies

/-! ## Walks -/

/-- How many entries lie in front of the one shown, if one is, and what is shown in front
of the first. -/
structure Walk (α : Type u) where
  depth : Option Nat
  held : α

namespace Walk

variable {l : List α} {held : α}

/-- One entry back, staying at the last.  What is shown now is held when the walk begins. -/
def back (l : List α) (now : α) (w : Walk α) : Option α × Walk α :=
  if l.length = 0 then (none, w)
  else
    match w.depth with
    | none => (l[0]?, ⟨some 0, now⟩)
    | some d => (l[min (d + 1) (l.length - 1)]?, ⟨some (min (d + 1) (l.length - 1)), w.held⟩)

/-- One entry to the front, and from the first to what was held. -/
def forth (l : List α) (w : Walk α) : Option α × Walk α :=
  match w.depth with
  | none => (none, w)
  | some 0 => (some w.held, ⟨none, w.held⟩)
  | some (d + 1) => (l[d]?, ⟨some d, w.held⟩)

/-- A step of a walk. -/
inductive Move (α : Type u) where
  | back (now : α)
  | forth

/-- What a step shows, and the walk after it. -/
def step (l : List α) (w : Walk α) : Move α → Option α × Walk α
  | .back now => w.back l now
  | .forth => w.forth l

theorem back_of_empty (hlen : l.length = 0) (now : α) (w : Walk α) : w.back l now = (none, w) :=
  if_pos hlen

theorem back_start (hlen : l.length ≠ 0) (now : α) {w : Walk α} (hdepth : w.depth = none) :
    w.back l now = (l[0]?, ⟨some 0, now⟩) := by
  simp only [back, if_neg hlen, hdepth]

theorem back_shown (hlen : l.length ≠ 0) (now : α) {w : Walk α} {d : Nat}
    (hdepth : w.depth = some d) : w.back l now =
      (l[min (d + 1) (l.length - 1)]?, ⟨some (min (d + 1) (l.length - 1)), w.held⟩) := by
  simp only [back, if_neg hlen, hdepth]

theorem forth_idle {w : Walk α} (hdepth : w.depth = none) : w.forth l = (none, w) := by
  simp only [forth, hdepth]

theorem forth_first {w : Walk α} (hdepth : w.depth = some 0) :
    w.forth l = (some w.held, ⟨none, w.held⟩) := by
  simp only [forth, hdepth]

theorem forth_shown {w : Walk α} {d : Nat} (hdepth : w.depth = some (d + 1)) :
    w.forth l = (l[d]?, ⟨some d, w.held⟩) := by
  simp only [forth, hdepth]

/-- Steps back show one entry after the other, and then the last again. -/
theorem replies_back (hne : l ≠ []) (now : α) {d : Nat} (hd : d < l.length) (k : Nat) :
    replies (step l) ⟨some d, held⟩ (List.replicate k (.back now)) =
      (List.range k).map fun i => l[min (d + 1 + i) (l.length - 1)]? := by
  induction k generalizing d with
  | zero => rfl
  | succ k ih =>
      have hlen : l.length ≠ 0 := fun h => hne (List.length_eq_zero_iff.mp h)
      have hback : step l ⟨some d, held⟩ (.back now) =
          (l[min (d + 1) (l.length - 1)]?, ⟨some (min (d + 1) (l.length - 1)), held⟩) :=
        back_shown hlen now rfl
      rw [List.replicate_succ, replies, hback, ih (by omega), List.range_succ_eq_map,
        List.map_cons, List.map_map, Nat.add_zero]
      congr 1
      apply List.map_congr_left
      intro i _
      have hmin : min (min (d + 1) (l.length - 1) + 1 + i) (l.length - 1) =
          min (d + 1 + (i + 1)) (l.length - 1) := by omega
      exact congrArg (l[·]?) hmin

/-- Steps to the front show the entries in front, then what was held, and then nothing. -/
theorem replies_forth {d : Nat} :
    replies (step l) ⟨some d, held⟩ (List.replicate (d + 1) .forth) =
      (List.range d).reverse.map (l[·]?) ++ [some held] := by
  induction d with
  | zero => rfl
  | succ d ih =>
      have hforth : step l ⟨some (d + 1), held⟩ .forth = (l[d]?, ⟨some d, held⟩) := rfl
      rw [List.replicate_succ, replies, hforth, ih, List.range_succ, List.reverse_append,
        List.reverse_singleton, List.singleton_append, List.map_cons, List.cons_append]

/-- From the start, steps back show one entry after the other, and then the last again. -/
theorem replies_start (hne : l ≠ []) (now : α) (k : Nat) :
    replies (step l) ⟨none, held⟩ (List.replicate k (.back now)) =
      (List.range k).map fun i => l[min i (l.length - 1)]? := by
  cases k with
  | zero => rfl
  | succ k =>
      have hlen : l.length ≠ 0 := fun h => hne (List.length_eq_zero_iff.mp h)
      have hback : step l ⟨none, held⟩ (.back now) = (l[0]?, ⟨some 0, now⟩) :=
        back_start hlen now rfl
      rw [List.replicate_succ, replies, hback, replies_back hne now (Nat.pos_of_ne_zero hlen),
        List.range_succ_eq_map, List.map_cons, List.map_map, Nat.zero_min]
      congr 1
      apply List.map_congr_left
      intro i _
      have hi : 0 + 1 + i = i + 1 := by omega
      exact congrArg (fun n => l[min n (l.length - 1)]?) hi

/-- Where as many steps back lead as there are entries for. -/
theorem foldl_back (now : α) {d : Nat} (hd : d < l.length) :
    (List.replicate (d + 1) (.back now)).foldl (fun w move => (step l w move).2) ⟨none, held⟩ =
      ⟨some d, now⟩ := by
  have hlen : l.length ≠ 0 := Nat.ne_of_gt (Nat.zero_lt_of_lt hd)
  induction d with
  | zero => exact congrArg Prod.snd (back_start hlen now rfl)
  | succ d ih =>
      have hmin : min (d + 1) (l.length - 1) = d + 1 := by omega
      have hback : (step l ⟨some d, now⟩ (.back now)).2 = ⟨some (min (d + 1) (l.length - 1)), now⟩ :=
        congrArg Prod.snd (back_shown hlen now rfl)
      rw [List.replicate_succ', List.foldl_append, ih (Nat.lt_of_succ_lt hd), List.foldl_cons,
        List.foldl_nil, hback, hmin]

/-- Back and then to the front as often, to what was shown when the walk began. -/
theorem replies_turn (now : α) {d : Nat} (hd : d < l.length) :
    replies (step l) ⟨none, held⟩
        (List.replicate (d + 1) (.back now) ++ List.replicate (d + 1) .forth) =
      (List.range (d + 1)).map (l[·]?) ++ ((List.range d).reverse.map (l[·]?) ++ [some now]) := by
  have hne : l ≠ [] := List.ne_nil_of_length_pos (Nat.zero_lt_of_lt hd)
  have hfront : (List.range (d + 1)).map (fun i => l[min i (l.length - 1)]?) =
      (List.range (d + 1)).map (l[·]?) := by
    apply List.map_congr_left
    intro i hi
    have hlt : i < d + 1 := List.mem_range.mp hi
    have hmin : min i (l.length - 1) = i := by omega
    rw [hmin]
  rw [replies_append, foldl_back now hd, replies_start hne, replies_forth, hfront]

end Walk

end Sugimotos.Math
