/-
# Selection sort by a key

An array of `n` cells is sorted by exchanging, for each `i` in turn, the cell `i`
with the first of the cells from `i` on whose key is least.  The result is a
rearrangement of the array in which no key is greater than a later one.
-/

import Mathlib.Logic.Equiv.Basic
import Mathlib.GroupTheory.Perm.Basic
import Mathlib.Data.List.Range
import Mathlib.Data.List.Nodup
import Mathlib.Data.List.GetD
import Mathlib.Order.Basic

namespace Sugimotos.Math

universe u v

variable {ι : Type u} {κ : Type v} [LinearOrder κ] (key : ι → κ)

/-- The first position of a least key among the cells `i .. n`. -/
def scanBest (order : Nat → ι) (n i : Nat) : Nat :=
  (List.range' (i + 1) (n - (i + 1))).foldl
    (fun best j => if key (order j) < key (order best) then j else best) i

/-- Cell `i` is exchanged with the best one from there on. -/
def selectStep (n : Nat) (order : Nat → ι) (i : Nat) : Nat → ι :=
  order ∘ Equiv.swap i (scanBest key order n i)

/-- All `n` exchanges. -/
def selectionSort (order : Nat → ι) (n : Nat) : Nat → ι :=
  (List.range n).foldl (selectStep key n) order

/-- The sort of a list, as an array of its length. -/
def sortedBy [Inhabited ι] (l : List ι) : List ι :=
  (List.range l.length).map (selectionSort key (fun j => l.getD j default) l.length)

theorem scan_spec (order : Nat → ι) (l : List Nat) (start : Nat) :
    let best := l.foldl (fun best j => if key (order j) < key (order best) then j else best) start
    (best = start ∨ best ∈ l) ∧ key (order best) ≤ key (order start) ∧
      ∀ j ∈ l, key (order best) ≤ key (order j) := by
  induction l generalizing start with
  | nil => exact ⟨Or.inl rfl, le_refl _, fun j hj => absurd hj List.not_mem_nil⟩
  | cons head tail ih =>
      rw [List.foldl_cons]
      by_cases hless : key (order head) < key (order start)
      · rw [if_pos hless]
        obtain ⟨hmem, hstart, htail⟩ := ih head
        refine ⟨Or.inr ?_, hstart.trans hless.le, ?_⟩
        · cases hmem with
          | inl heq => exact List.mem_cons.mpr (Or.inl heq)
          | inr hin => exact List.mem_cons_of_mem _ hin
        · intro j hj
          cases List.mem_cons.mp hj with
          | inl heq => exact heq ▸ hstart
          | inr hin => exact htail j hin
      · rw [if_neg hless]
        obtain ⟨hmem, hstart, htail⟩ := ih start
        refine ⟨hmem.imp_right (List.mem_cons_of_mem _), hstart, ?_⟩
        intro j hj
        cases List.mem_cons.mp hj with
        | inl heq => exact heq ▸ hstart.trans (not_lt.mp hless)
        | inr hin => exact htail j hin

theorem scanBest_bounds (order : Nat → ι) {n i : Nat} (hi : i < n) :
    i ≤ scanBest key order n i ∧ scanBest key order n i < n := by
  have hmem := (scan_spec key order (List.range' (i + 1) (n - (i + 1))) i).1
  change scanBest key order n i = i ∨ scanBest key order n i ∈ _ at hmem
  rw [List.mem_range'_1] at hmem
  omega

theorem scanBest_le (order : Nat → ι) {n i j : Nat} (hij : i ≤ j) (hj : j < n) :
    key (order (scanBest key order n i)) ≤ key (order j) := by
  obtain ⟨-, hstart, htail⟩ :=
    scan_spec key order (List.range' (i + 1) (n - (i + 1))) i
  by_cases heq : j = i
  · rw [heq]
    exact hstart
  · exact htail j (List.mem_range'_1.mpr (by omega))

/-- After `i` exchanges: a rearrangement whose first `i` cells are in their places. -/
structure Selected (key : ι → κ) (start order : Nat → ι) (n i : Nat) : Prop where
  perm : ∃ σ : Equiv.Perm Nat, (∀ j, n ≤ j → σ j = j) ∧ order = start ∘ σ
  placed : ∀ a b, a < i → a ≤ b → b < n → key (order a) ≤ key (order b)

theorem Selected.start (order : Nat → ι) (n : Nat) : Selected key order order n 0 :=
  ⟨⟨1, fun _ _ => rfl, rfl⟩, fun _ _ h => absurd h (Nat.not_lt_zero _)⟩

variable {key} in
theorem Selected.step {start order : Nat → ι} {n i : Nat} (h : Selected key start order n i)
    (hi : i < n) : Selected key start (selectStep key n order i) n (i + 1) := by
  obtain ⟨hlow, hhigh⟩ := scanBest_bounds key order hi
  set best := scanBest key order n i with hbest
  constructor
  · obtain ⟨σ, hfix, horder⟩ := h.perm
    refine ⟨σ * Equiv.swap i best, ?_, ?_⟩
    · intro j hj
      rw [Equiv.Perm.mul_apply, Equiv.swap_apply_of_ne_of_ne (by omega) (by omega), hfix j hj]
    · rw [selectStep, ← hbest, horder]
      rfl
  · -- The exchange moves cells from `i` on only, so earlier ones stay least.
    have hswap : ∀ b, i ≤ b → b < n → i ≤ Equiv.swap i best b ∧ Equiv.swap i best b < n := by
      intro b hib hbn
      by_cases hbi : b = i
      · rw [hbi, Equiv.swap_apply_left]
        exact ⟨hlow, hhigh⟩
      · by_cases hbb : b = best
        · rw [hbb, Equiv.swap_apply_right]
          exact ⟨le_refl _, hi⟩
        · rw [Equiv.swap_apply_of_ne_of_ne hbi hbb]
          exact ⟨hib, hbn⟩
    intro a b ha hab hb
    change key (order (Equiv.swap i best a)) ≤ key (order (Equiv.swap i best b))
    by_cases hai : a = i
    · subst hai
      rw [Equiv.swap_apply_left]
      exact scanBest_le key order (hswap b hab hb).1 (hswap b hab hb).2
    · have halt : a < i := by omega
      rw [Equiv.swap_apply_of_ne_of_ne (by omega) (by omega)]
      by_cases hbi : b < i
      · rw [Equiv.swap_apply_of_ne_of_ne (by omega) (by omega)]
        exact h.placed a b halt hab hb
      · obtain ⟨hfrom, hto⟩ := hswap b (by omega) hb
        exact h.placed a _ halt (by omega) hto

theorem selectionSort_selected (order : Nat → ι) (n : Nat) :
    Selected key order (selectionSort key order n) n n := by
  have hrun : ∀ i, i ≤ n →
      Selected key order ((List.range i).foldl (selectStep key n) order) n i := by
    intro i hi
    induction i with
    | zero => exact Selected.start key order n
    | succ i ih =>
        rw [List.range_succ, List.foldl_append]
        exact (ih (by omega)).step (by omega)
  exact hrun n le_rfl

variable [Inhabited ι]

theorem sortedBy_perm (l : List ι) : (sortedBy key l).Perm l := by
  obtain ⟨σ, hfix, horder⟩ :=
    (selectionSort_selected key (fun j => l.getD j default) l.length).perm
  have hrange : ((List.range l.length).map σ).Perm (List.range l.length) := by
    apply (List.perm_ext_iff_of_nodup (List.nodup_range.map σ.injective) List.nodup_range).mpr
    intro j
    rw [List.mem_map, List.mem_range]
    constructor
    · rintro ⟨m, hm, rfl⟩
      by_contra hge
      have hsame : σ (σ m) = σ m := hfix (σ m) (by omega)
      have heq : σ m = m := σ.injective hsame
      rw [List.mem_range] at hm
      omega
    · intro hj
      refine ⟨σ.symm j, List.mem_range.mpr ?_, σ.apply_symm_apply j⟩
      by_contra hge
      have hsame := hfix (σ.symm j) (by omega)
      rw [σ.apply_symm_apply] at hsame
      omega
  have hself : (List.range l.length).map (fun j => l.getD j default) = l := by
    apply List.ext_getElem
    · rw [List.length_map, List.length_range]
    · intro j hj hl
      rw [List.getElem_map, List.getElem_range, List.getD_eq_getElem _ _ hl]
  have hmap := hrange.map (fun j => l.getD j default)
  rw [List.map_map, hself] at hmap
  rw [sortedBy, horder]
  exact hmap

theorem sortedBy_pairwise (l : List ι) :
    (sortedBy key l).Pairwise (fun i j => key i ≤ key j) := by
  rw [sortedBy, List.pairwise_map]
  apply List.Pairwise.imp_of_mem ?_ List.pairwise_lt_range
  intro a b ha hb hab
  rw [List.mem_range] at ha hb
  exact (selectionSort_selected key _ _).placed a b ha hab.le hb

end Sugimotos.Math
