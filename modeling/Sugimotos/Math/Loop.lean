/-
# Loops that return

A turn of a loop either goes on with a new state or returns a value.  `Returns` says
that the loop comes to its end; it has no bound on the number of turns.  A run with
such a bound finds the value as soon as the bound is large enough.
-/

import Mathlib.Logic.Basic

namespace Sugimotos.Math

universe u v

variable {σ : Type u} {ρ : Type v}

/-- From state `s` the loop returns `r`. -/
inductive Returns (turn : σ → σ ⊕ ρ) : σ → ρ → Prop
  | stop {s r} (h : turn s = .inr r) : Returns turn s r
  | next {s s' r} (h : turn s = .inl s') (hrest : Returns turn s' r) : Returns turn s r

namespace Returns

variable {turn : σ → σ ⊕ ρ} {s : σ} {r : ρ}

/-- What every turn keeps holds at the end. -/
theorem rule {Inv : σ → Prop} {Q : ρ → Prop} (h : Returns turn s r) (hstart : Inv s)
    (hnext : ∀ s s', Inv s → turn s = .inl s' → Inv s')
    (hstop : ∀ s r, Inv s → turn s = .inr r → Q r) : Q r := by
  induction h with
  | stop hlast => exact hstop _ _ hstart hlast
  | next hturn _ ih => exact ih (hnext _ _ hstart hturn)

/-- A bounded run whose bound is no less than the rank of its state, which falls at
every turn. -/
theorem of_bounded {run : Nat → σ → ρ} (Inv : σ → Prop) (rank : σ → Nat)
    (hzero : ∀ s, Inv s → rank s = 0 → turn s = .inr (run 0 s))
    (hsucc : ∀ n s, run (n + 1) s = Sum.elim (run n) id (turn s))
    (hnext : ∀ s s', Inv s → turn s = .inl s' → Inv s' ∧ rank s' < rank s) {n : Nat}
    (hstart : Inv s) (hn : rank s ≤ n) : Returns turn s (run n s) := by
  induction n generalizing s with
  | zero => exact stop (hzero s hstart (Nat.le_zero.mp hn))
  | succ n ih =>
      rw [hsucc]
      cases hturn : turn s with
      | inl s' =>
          obtain ⟨hinv, hlt⟩ := hnext s s' hstart hturn
          exact next hturn (ih hinv (Nat.le_of_lt_succ (Nat.lt_of_lt_of_le hlt hn)))
      | inr r => exact stop hturn

end Returns

end Sugimotos.Math
