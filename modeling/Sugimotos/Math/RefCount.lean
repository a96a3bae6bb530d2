/-
# Counting references

A finite set of sites, each of which refers to at most one resource.  `refs` is
the number of sites that refer to a given resource.  The lemmas say how this
number moves when one site changes, and what a small number implies.
-/

import Mathlib.Data.Fintype.Card
import Mathlib.Data.Finset.Card

namespace Sugimotos.Math

universe u v w

variable {S : Type u} {R : Type v} [Fintype S] [DecidableEq R]

/-- The number of sites that refer to `r`. -/
def refs (target : S → Option R) (r : R) : Nat :=
  (Finset.univ.filter fun site => target site = some r).card

theorem refs_congr {target target' : S → Option R} {r : R}
    (h : ∀ site, target' site = some r ↔ target site = some r) :
    refs target' r = refs target r := by
  unfold refs
  congr 1
  ext site
  simp only [Finset.mem_filter, Finset.mem_univ, true_and]
  exact h site

/-- The references of some sites, seen among those of more. -/
theorem refs_le_of_injective {T : Type w} [Fintype T] {target : S → Option R}
    {target' : T → Option R} {r : R} (f : S → T) (hf : Function.Injective f)
    (h : ∀ site, target site = some r → target' (f site) = some r) :
    refs target r ≤ refs target' r := by
  apply Finset.card_le_card_of_injOn f
  · intro site hsite
    simp only [Finset.coe_filter, Finset.mem_univ, true_and, Set.mem_ofPred_eq] at hsite ⊢
    exact h site hsite
  · exact hf.injOn

theorem refs_eq_zero {target : S → Option R} {r : R} :
    refs target r = 0 ↔ ∀ site, target site ≠ some r := by
  unfold refs
  rw [Finset.card_eq_zero, Finset.filter_eq_empty_iff]
  simp

theorem refs_pos {target : S → Option R} {r : R} {site : S} (h : target site = some r) :
    0 < refs target r := by
  rw [Nat.pos_iff_ne_zero]
  intro hzero
  exact refs_eq_zero.mp hzero site h

/-- Changing one site moves its reference from the old resource to the new one. -/
theorem refs_change [DecidableEq S] {target target' : S → Option R} {site : S}
    (h : ∀ other, other ≠ site → target' other = target other) (r : R) :
    refs target' r + (if target site = some r then 1 else 0) =
      refs target r + (if target' site = some r then 1 else 0) := by
  -- Both counts agree away from `site`.
  have hsplit : ∀ t : S → Option R, refs t r =
      (Finset.univ.filter fun other => other ≠ site ∧ t other = some r).card +
        (if t site = some r then 1 else 0) := by
    intro t
    have hunion : (Finset.univ.filter fun other => t other = some r) =
        (Finset.univ.filter fun other => other ≠ site ∧ t other = some r) ∪
          (if t site = some r then {site} else ∅) := by
      ext other
      by_cases hother : other = site
      · subst hother
        by_cases ht : t other = some r <;> simp [ht]
      · by_cases ht : t site = some r <;> simp [ht, hother]
    have hdisjoint : Disjoint
        (Finset.univ.filter fun other => other ≠ site ∧ t other = some r)
        (if t site = some r then ({site} : Finset S) else ∅) := by
      rw [Finset.disjoint_left]
      intro other hother
      simp only [Finset.mem_filter, Finset.mem_univ, true_and] at hother
      by_cases ht : t site = some r <;> simp [ht, hother.1]
    unfold refs
    rw [hunion, Finset.card_union_of_disjoint hdisjoint]
    by_cases ht : t site = some r <;> simp [ht]
  have hsame : (Finset.univ.filter fun other => other ≠ site ∧ target' other = some r) =
      (Finset.univ.filter fun other => other ≠ site ∧ target other = some r) := by
    ext other
    simp only [Finset.mem_filter, Finset.mem_univ, true_and]
    constructor
    · rintro ⟨hne, ht⟩
      exact ⟨hne, by rw [← h other hne]; exact ht⟩
    · rintro ⟨hne, ht⟩
      exact ⟨hne, by rw [h other hne]; exact ht⟩
  rw [hsplit target', hsplit target, hsame]
  omega

/-- A resource with at most one reference has only one referring site. -/
theorem site_unique_of_refs_le_one {target : S → Option R} {r : R} (h : refs target r ≤ 1)
    {first second : S} (hfirst : target first = some r) (hsecond : target second = some r) :
    first = second := by
  unfold refs at h
  rw [Finset.card_le_one] at h
  exact h first (by simp [hfirst]) second (by simp [hsecond])

/-- The references to `r` are bounded by any type they inject into. -/
theorem refs_le_card {T : Type w} [Fintype T] {target : S → Option R} {r : R} (f : S → T)
    (hf : ∀ first second, target first = some r → target second = some r →
      f first = f second → first = second) : refs target r ≤ Fintype.card T := by
  unfold refs
  rw [← Finset.card_univ]
  apply Finset.card_le_card_of_injOn f
  · intro site _
    simp
  · intro first hfirst second hsecond heq
    simp only [Finset.coe_filter, Finset.mem_univ, true_and, Set.mem_ofPred_eq] at hfirst hsecond
    exact hf first second hfirst hsecond heq

end Sugimotos.Math
