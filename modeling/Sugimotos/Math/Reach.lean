/-
# Blocks read up to the first that is missed

Blocks of entries are read one after the other, until one is missed or enough entries
have been found.
-/

import Mathlib.Data.List.TakeDrop

namespace Sugimotos.Math

universe u

variable {α : Type u} {missed : Nat → Bool}

/-- The entries of the blocks in front of the first that is missed; the blocks count from
`b` on. -/
def reached (missed : Nat → Bool) : Nat → List (List α) → List α
  | _, [] => []
  | b, l :: rest => if missed b then [] else l ++ reached missed (b + 1) rest

theorem reached_initial (b : Nat) (blocks : List (List α)) :
    reached missed b blocks <+: blocks.flatten := by
  induction blocks generalizing b with
  | nil => exact List.prefix_rfl
  | cons l rest ih =>
      rw [reached, List.flatten_cons]
      cases missed b with
      | true => exact List.nil_prefix
      | false => exact (List.prefix_append_right_inj l).mpr (ih (b + 1))

/-- Every block that is missed comes after enough entries or has none behind its start. -/
def MissesNone (missed : Nat → Bool) (limit b : Nat) (blocks : List (List α)) : Prop :=
  ∀ j, j < blocks.length → missed (b + j) = true →
    limit ≤ (blocks.take j).flatten.length ∨ (blocks.drop j).flatten = []

theorem missesNone_cons {limit b : Nat} {l : List α} {rest : List (List α)}
    (hread : missed b = false) :
    MissesNone missed limit b (l :: rest) ↔ MissesNone missed (limit - l.length) (b + 1) rest := by
  constructor
  · intro h j hj hmissed
    have hlater := h (j + 1) (Nat.succ_lt_succ hj) (by rwa [← Nat.add_assoc, Nat.add_right_comm])
    rw [List.take_succ_cons, List.flatten_cons, List.length_append, List.drop_succ_cons] at hlater
    exact hlater.imp_left fun hle => Nat.sub_le_iff_le_add'.mpr hle
  · intro h j hj hmissed
    cases j with
    | zero =>
        rw [Nat.add_zero, hread] at hmissed
        cases hmissed
    | succ j =>
        have hlater := h j (Nat.lt_of_succ_lt_succ hj) (by rwa [Nat.add_right_comm])
        rw [List.take_succ_cons, List.flatten_cons, List.length_append, List.drop_succ_cons]
        exact hlater.imp_left fun hle => Nat.sub_le_iff_le_add'.mp hle

theorem missesNone_missed {limit b : Nat} {l : List α} {rest : List (List α)}
    (hmissed : missed b = true) :
    MissesNone missed limit b (l :: rest) ↔ limit = 0 ∨ (l :: rest).flatten = [] := by
  constructor
  · intro h
    have hfirst := h 0 (Nat.succ_pos _) (by rwa [Nat.add_zero])
    rw [List.take_zero, List.drop_zero, List.flatten_nil, List.length_nil] at hfirst
    exact hfirst.imp_left Nat.le_zero.mp
  · rintro (hzero | hnil) j hj -
    · exact Or.inl (hzero ▸ Nat.zero_le _)
    · right
      apply List.flatten_eq_nil_iff.mpr
      intro k hk
      exact List.flatten_eq_nil_iff.mp hnil k (List.mem_of_mem_drop hk)

/-- The first entries are all found exactly when no block is missed that has one of them,
nor one in front of such a block. -/
theorem reached_take_iff (limit b : Nat) (blocks : List (List α)) :
    (reached missed b blocks).take limit = blocks.flatten.take limit ↔
      MissesNone missed limit b blocks := by
  induction blocks generalizing limit b with
  | nil => exact iff_of_true rfl fun j hj => absurd hj (Nat.not_lt_zero j)
  | cons l rest ih =>
      cases hmissed : missed b with
      | true =>
          rw [missesNone_missed hmissed, reached, if_pos hmissed, List.take_nil, eq_comm,
            List.take_eq_nil_iff]
      | false =>
          have hread : ¬ missed b = true := by
            rw [hmissed]
            exact Bool.false_ne_true
          rw [missesNone_cons hmissed, reached, if_neg hread, List.flatten_cons, List.take_append,
            List.take_append, ← ih]
          exact List.append_right_inj _

end Sugimotos.Math
