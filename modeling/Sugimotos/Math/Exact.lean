/-
# Computations that stop exactly when

A computation in `Option` either returns a value or stops.  `Exact` says when it stops, and what
the value is like otherwise.  The rules put the condition of a computation together from those
of its parts.
-/

import Mathlib.Logic.Basic

namespace Sugimotos.Math

universe u

/-- `m` returns a value, which satisfies `Q`, exactly if `C` holds. -/
structure Exact {α : Type u} (m : Option α) (C : Prop) (Q : α → Prop) : Prop where
  returns : C → ∃ a, m = some a ∧ Q a
  stops : ¬ C → m = none

namespace Exact

variable {α β : Type u} {m m' : Option α} {f : α → Option β} {C C' D : Prop} {P Q : α → Prop}
  {R : β → Prop}

theorem some {a : α} (h : Q a) : Exact (some a) True Q := ⟨fun _ => ⟨a, rfl, h⟩, fun h => absurd trivial h⟩

theorem bind (h : Exact m C P) (hf : C → ∀ a, P a → Exact (f a) D R) :
    Exact (m >>= f) (C ∧ D) R := by
  constructor
  · rintro ⟨hc, hd⟩
    obtain ⟨a, rfl, ha⟩ := h.returns hc
    exact (hf hc a ha).returns hd
  · intro hno
    by_cases hc : C
    · obtain ⟨a, rfl, ha⟩ := h.returns hc
      exact (hf hc a ha).stops fun hd => hno ⟨hc, hd⟩
    · rw [h.stops hc]
      rfl

theorem congr (h : Exact m C Q) (hc : C' ↔ C) : Exact m C' Q :=
  ⟨fun h' => h.returns (hc.mp h'), fun h' => h.stops fun hC => h' (hc.mpr hC)⟩

/-- A part that does not stop. -/
theorem bind_of {a : α} (ha : m = Option.some a) (hf : Exact (f a) D R) : Exact (m >>= f) D R := by
  rw [ha]
  exact hf

theorem isSome_iff (h : Exact m C Q) : m.isSome = true ↔ C := by
  constructor
  · intro hsome
    refine Classical.byContradiction fun hno => ?_
    rw [h.stops hno] at hsome
    cases hsome
  · intro hc
    obtain ⟨a, rfl, -⟩ := h.returns hc
    rfl

theorem of_eq_some (h : Exact m C Q) {a : α} (hm : m = Option.some a) : C ∧ Q a := by
  have hc := h.isSome_iff.mp (by rw [hm]; rfl)
  obtain ⟨a', ha', hq⟩ := h.returns hc
  cases hm.symm.trans ha'
  exact ⟨hc, hq⟩

end Exact

/-- What `m` returns, `m'` returns, too. -/
def Grows {α : Type u} (m m' : Option α) : Prop := ∀ a, m = some a → m' = some a

namespace Grows

variable {α β : Type u} {m m' n n' : Option α} {f f' : α → Option β}

theorem refl (m : Option α) : Grows m m := fun _ h => h

theorem bind (h : Grows m m') (hf : ∀ a, Grows (f a) (f' a)) : Grows (m >>= f) (m' >>= f') := by
  intro b hb
  obtain ⟨a, ha, hrest⟩ := Option.bind_eq_some_iff.mp hb
  exact Option.bind_eq_some_iff.mpr ⟨a, h a ha, hf a b hrest⟩

theorem ite {c : Prop} [Decidable c] (hm : Grows m m') (hn : Grows n n') :
    Grows (if c then m else n) (if c then m' else n') := by
  by_cases hc : c
  · rwa [if_pos hc, if_pos hc]
  · rwa [if_neg hc, if_neg hc]

theorem foldlM {σ : Type u} {f f' : σ → β → Option σ} (hf : ∀ s b, Grows (f s b) (f' s b)) (s : σ)
    (l : List β) : Grows (l.foldlM f s) (l.foldlM f' s) := by
  induction l generalizing s with
  | nil => exact refl _
  | cons b l ih => exact (hf s b).bind ih

end Grows

end Sugimotos.Math
