/-
# Outcomes of computations that may stop

A computation in `Except ε` either returns a value or stops for good.  `Outcome`
states both halves of its specification at once: what a returned value
satisfies, and what must have been the case for the computation to stop for the
given reason.  If the second half never holds, the computation returns.
-/

import Mathlib.Logic.Basic

namespace Sugimotos.Math

universe u v

/-- `m` returns a value satisfying `Q`, or stops for a reason satisfying `E`. -/
def Outcome {ε : Type u} {α : Type v} (m : Except ε α) (Q : α → Prop) (E : ε → Prop) : Prop :=
  match m with
  | .ok a => Q a
  | .error e => E e

namespace Outcome

variable {ε : Type u} {α β : Type v}

@[simp]
theorem ok_iff {a : α} {Q : α → Prop} {E : ε → Prop} :
    Outcome (.ok a : Except ε α) Q E ↔ Q a := Iff.rfl

@[simp]
theorem error_iff {e : ε} {Q : α → Prop} {E : ε → Prop} :
    Outcome (.error e : Except ε α) Q E ↔ E e := Iff.rfl

theorem mono {m : Except ε α} {P Q : α → Prop} {E F : ε → Prop} (h : Outcome m P E)
    (hvalue : ∀ a, P a → Q a) (hstop : ∀ e, E e → F e) : Outcome m Q F := by
  cases m with
  | ok a => exact hvalue a h
  | error e => exact hstop e h

theorem imp {m : Except ε α} {P Q : α → Prop} {E : ε → Prop} (h : Outcome m P E)
    (hvalue : ∀ a, P a → Q a) : Outcome m Q E :=
  h.mono hvalue fun _ => id

/-- Sequencing: the continuation is specified on the values the first part can
return. -/
theorem bind {m : Except ε α} {f : α → Except ε β} {P : α → Prop} {Q : β → Prop} {E : ε → Prop}
    (h : Outcome m P E) (hf : ∀ a, P a → Outcome (f a) Q E) :
    Outcome (m >>= f) Q E := by
  cases m with
  | ok a => exact hf a h
  | error e => exact h

theorem of_eq_ok {m : Except ε α} {Q : α → Prop} {E : ε → Prop} {a : α}
    (h : Outcome m Q E) (hm : m = .ok a) : Q a := by
  subst hm
  exact h

theorem exists_ok {m : Except ε α} {Q : α → Prop} (h : Outcome m Q fun _ => False) :
    ∃ a, m = .ok a ∧ Q a := by
  cases m with
  | ok a => exact ⟨a, rfl, h⟩
  | error e => exact h.elim

/-- A loop over a list keeps an invariant of the items that remain. -/
theorem foldlM {body : β → α → Except ε β} {Inv : List α → β → Prop} {E : ε → Prop}
    (items : List α) (s : β) (hstart : Inv items s)
    (hbody : ∀ item rest t, Inv (item :: rest) t → Outcome (body t item) (Inv rest) E) :
    Outcome (items.foldlM body s) (Inv []) E := by
  induction items generalizing s with
  | nil => exact hstart
  | cons item rest ih =>
      rw [List.foldlM_cons]
      exact (hbody item rest s hstart).bind fun t ht => ih t ht

end Outcome

end Sugimotos.Math
