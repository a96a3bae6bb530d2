/-
# The first greatest element of a list

A loop that remembers the best element so far and takes a new one only if it is
strictly better.  It ends with the first of the greatest among the candidates.
-/

import Mathlib.Data.List.Induction
import Mathlib.Data.List.Pairwise
import Mathlib.Order.Lattice

namespace Sugimotos.Math

universe u v

variable {ι : Type u} {κ : Type v} [LinearOrder κ]

/-- The best candidate, and its key; `floor` is the key of none. -/
def scanGreatest (candidate : ι → Bool) (key : ι → κ) (floor : κ) (l : List ι) : Option ι × κ :=
  l.foldl (fun best i =>
    if candidate i then if key i > best.2 then (some i, key i) else best else best) (none, floor)

variable {candidate : ι → Bool} {key : ι → κ} {floor : κ}

theorem scanGreatest_concat (l : List ι) (i : ι) :
    scanGreatest candidate key floor (l ++ [i]) =
      if candidate i then
        if key i > (scanGreatest candidate key floor l).2 then (some i, key i)
        else scanGreatest candidate key floor l
      else scanGreatest candidate key floor l := by
  rw [scanGreatest, List.foldl_append]
  rfl

/-- The element is a candidate, greater than those before it and no less than those after. -/
structure FirstGreatest (candidate : ι → Bool) (key : ι → κ) (l : List ι) (i : ι) : Prop where
  isCandidate : candidate i = true
  split : ∃ before after, l = before ++ i :: after ∧
    (∀ j ∈ before, candidate j = true → key j < key i) ∧
      ∀ j ∈ after, candidate j = true → key j ≤ key i

theorem FirstGreatest.le {l : List ι} {i j : ι} (h : FirstGreatest candidate key l i) (hj : j ∈ l)
    (hcandidate : candidate j = true) : key j ≤ key i := by
  obtain ⟨before, after, rfl, hbefore, hafter⟩ := h.split
  cases List.mem_append.mp hj with
  | inl hin => exact (hbefore j hin hcandidate).le
  | inr hin =>
      cases List.mem_cons.mp hin with
      | inl heq => rw [heq]
      | inr htail => exact hafter j htail hcandidate

/-- Nothing when there is no candidate, otherwise the first greatest and its key. -/
theorem scanGreatest_spec (hfloor : ∀ i, candidate i = true → floor < key i) (l : List ι) :
    (scanGreatest candidate key floor l = (none, floor) ∧ ∀ j ∈ l, candidate j = false) ∨
      ∃ i, scanGreatest candidate key floor l = (some i, key i) ∧
        FirstGreatest candidate key l i := by
  induction l using List.reverseRecOn with
  | nil => exact Or.inl ⟨rfl, fun j hj => absurd hj List.not_mem_nil⟩
  | append_singleton l i ih =>
      rw [scanGreatest_concat]
      by_cases hi : candidate i = true
      · rw [if_pos hi]
        cases ih with
        | inl hnone =>
            right
            rw [hnone.1, if_pos (hfloor i hi)]
            refine ⟨i, rfl, hi, l, [], rfl, ?_, fun j hj => absurd hj List.not_mem_nil⟩
            intro j hj hcandidate
            rw [hnone.2 j hj] at hcandidate
            cases hcandidate
        | inr hsome =>
            right
            obtain ⟨b, hb, hgreatest⟩ := hsome
            rw [hb]
            by_cases hbetter : key i > key b
            · rw [if_pos hbetter]
              refine ⟨i, rfl, hi, l, [], rfl, ?_, fun j hj => absurd hj List.not_mem_nil⟩
              intro j hj hcandidate
              exact (hgreatest.le hj hcandidate).trans_lt hbetter
            · rw [if_neg hbetter]
              obtain ⟨before, after, rfl, hbefore, hafter⟩ := hgreatest.split
              refine ⟨b, rfl, hgreatest.isCandidate, before, after ++ [i], ?_, hbefore, ?_⟩
              · rw [List.append_assoc, List.cons_append]
              · intro j hj hcandidate
                cases List.mem_append.mp hj with
                | inl hin => exact hafter j hin hcandidate
                | inr hlast =>
                    rw [List.mem_singleton.mp hlast]
                    exact not_lt.mp hbetter
      · rw [if_neg hi]
        cases ih with
        | inl hnone =>
            refine Or.inl ⟨hnone.1, ?_⟩
            intro j hj
            cases List.mem_append.mp hj with
            | inl hin => exact hnone.2 j hin
            | inr hlast =>
                rw [List.mem_singleton.mp hlast]
                exact Bool.eq_false_iff.mpr hi
        | inr hsome =>
            obtain ⟨b, hb, hgreatest⟩ := hsome
            obtain ⟨before, after, rfl, hbefore, hafter⟩ := hgreatest.split
            refine Or.inr ⟨b, hb, hgreatest.isCandidate, before, after ++ [i], ?_, hbefore, ?_⟩
            · rw [List.append_assoc, List.cons_append]
            · intro j hj hcandidate
              cases List.mem_append.mp hj with
              | inl hin => exact hafter j hin hcandidate
              | inr hlast =>
                  rw [List.mem_singleton.mp hlast] at hcandidate
                  exact absurd hcandidate hi

/-- When no two candidates have the same key, the scan finds the last of the candidates
sorted by key. -/
theorem scanGreatest_eq_getLast (hfloor : ∀ i, candidate i = true → floor < key i)
    {l sorted : List ι} (hsorted : sorted.Pairwise fun i j => key i ≤ key j)
    (hmem : ∀ i, i ∈ sorted ↔ i ∈ l ∧ candidate i = true)
    (hinj : ∀ i ∈ sorted, ∀ j ∈ sorted, key i = key j → i = j) :
    (scanGreatest candidate key floor l).1 = sorted.getLast? := by
  cases scanGreatest_spec hfloor l with
  | inl hnone =>
      have hempty : sorted = [] := by
        apply List.eq_nil_iff_forall_not_mem.mpr
        intro i hi
        obtain ⟨hl, hcandidate⟩ := (hmem i).mp hi
        rw [hnone.2 i hl] at hcandidate
        cases hcandidate
      rw [hnone.1, hempty]
      rfl
  | inr hsome =>
      obtain ⟨i, hscan, hgreatest⟩ := hsome
      have hi : i ∈ sorted := by
        obtain ⟨before, after, hl, -⟩ := hgreatest.split
        apply (hmem i).mpr
        rw [hl]
        exact ⟨List.mem_append_right before List.mem_cons_self, hgreatest.isCandidate⟩
      have hne : sorted ≠ [] := List.ne_nil_of_mem hi
      have hlast : sorted.getLast hne ∈ sorted := List.getLast_mem hne
      have hle : key (sorted.getLast hne) ≤ key i :=
        hgreatest.le ((hmem _).mp hlast).1 ((hmem _).mp hlast).2
      have hge : key i ≤ key (sorted.getLast hne) :=
        hsorted.rel_getLast_of_rel_getLast_getLast hi le_rfl
      have heq : i = sorted.getLast hne := hinj i hi _ hlast (le_antisymm hge hle)
      rw [hscan, List.getLast?_eq_some_getLast hne, ← heq]

end Sugimotos.Math
