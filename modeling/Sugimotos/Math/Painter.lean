/-
# Painting over a canvas

A program that draws paints over a canvas: where it draws, a point gets a colour
that does not depend on what was there, and elsewhere the point stays.  What it
draws is its layer.  Drawing twice puts the later layer over the earlier one, so a
loop leaves at each point the colour of the last of its turns that draws there.
-/

import Mathlib.Data.Option.Basic
import Mathlib.Data.List.Basic
import Mathlib.Data.List.Pairwise
import Mathlib.Data.List.Induction
import Mathlib.Order.Lattice

namespace Sugimotos.Math

universe u v w z

variable {σ : Type u} {ι : Type v} {α : Type w} {τ : Type z}

/-- Running `f` draws exactly `layer` on the canvas that `view` shows. -/
def Paints (view : σ → ι → α) (f : σ → σ) (layer : ι → Option α) : Prop :=
  ∀ s q, view (f s) q = (layer q).getD (view s q)

/-- What the last of `l` that draws at `q` draws there. -/
def topmost (l : List τ) (layer : τ → ι → Option α) (q : ι) : Option α :=
  l.foldl (fun below t => (layer t q).or below) none

variable {view : σ → ι → α}

theorem Paints.skip : Paints view (fun s => s) (fun _ => none) :=
  fun _ _ => rfl

theorem Paints.congr {f : σ → σ} {a b : ι → Option α} (h : Paints view f a)
    (hab : ∀ q, a q = b q) : Paints view f b := by
  intro s q
  rw [h s q, hab q]

theorem Paints.comp {f g : σ → σ} {a b : ι → Option α} (hf : Paints view f a)
    (hg : Paints view g b) : Paints view (fun s => g (f s)) (fun q => (b q).or (a q)) := by
  intro s q
  rw [hg, hf]
  change (b q).getD ((a q).getD (view s q)) = ((b q).or (a q)).getD (view s q)
  cases b q with
  | none => rfl
  | some colour => rfl

theorem Paints.ite {f g : σ → σ} {a b : ι → Option α} (c : Prop) [Decidable c]
    (hf : Paints view f a) (hg : Paints view g b) :
    Paints view (fun s => if c then f s else g s) (fun q => if c then a q else b q) := by
  by_cases hc : c
  · simp only [if_pos hc]
    exact hf
  · simp only [if_neg hc]
    exact hg

theorem foldl_over (l : List τ) (layer : τ → ι → Option α) (q : ι) (below : Option α) :
    l.foldl (fun below t => (layer t q).or below) below = (topmost l layer q).or below := by
  induction l generalizing below with
  | nil => rfl
  | cons head tail ih =>
      rw [topmost, List.foldl_cons, List.foldl_cons, ih, ih ((layer head q).or none),
        Option.or_none, Option.or_assoc]

theorem topmost_cons (head : τ) (tail : List τ) (layer : τ → ι → Option α) (q : ι) :
    topmost (head :: tail) layer q = (topmost tail layer q).or (layer head q) := by
  rw [topmost, List.foldl_cons, foldl_over, Option.or_none]

/-- The last that draws at `q` is found by leaving out those that do not. -/
theorem topmost_eq_getLast {l : List τ} {layer : τ → ι → Option α} {draws : τ → Bool} {q : ι}
    {colour : τ → α} (h : ∀ t ∈ l, layer t q = if draws t then some (colour t) else none) :
    topmost l layer q = (l.filter draws).getLast?.map colour := by
  induction l using List.reverseRecOn with
  | nil => rfl
  | append_singleton l t ih =>
      have htail := ih fun u hu => h u (List.mem_append_left [t] hu)
      have hlast : topmost (l ++ [t]) layer q = (layer t q).or (topmost l layer q) := by
        rw [topmost, List.foldl_append]
        rfl
      rw [hlast, htail, h t (List.mem_append_right l (List.mem_singleton.mpr rfl)),
        List.filter_append]
      by_cases hdraws : draws t = true
      · rw [if_pos hdraws, List.filter_cons_of_pos hdraws, List.filter_nil, List.getLast?_concat]
        rfl
      · rw [if_neg hdraws, List.filter_cons_of_neg hdraws, List.filter_nil, List.append_nil,
          Option.none_or]

theorem Paints.foldl {f : τ → σ → σ} {layer : τ → ι → Option α} {l : List τ}
    (h : ∀ t ∈ l, Paints view (f t) (layer t)) :
    Paints view (fun s => l.foldl (fun s t => f t s) s) (topmost l layer) := by
  induction l with
  | nil => exact Paints.skip
  | cons head tail ih =>
      have htail := ih fun t ht => h t (List.mem_cons_of_mem _ ht)
      exact ((h head List.mem_cons_self).comp htail).congr fun q =>
        (topmost_cons head tail layer q).symm

theorem topmost_eq_none {l : List τ} {layer : τ → ι → Option α} {q : ι}
    (h : ∀ t ∈ l, layer t q = none) : topmost l layer q = none := by
  induction l with
  | nil => rfl
  | cons head tail ih =>
      rw [topmost_cons, ih fun t ht => h t (List.mem_cons_of_mem _ ht),
        h head List.mem_cons_self]
      rfl

/-- When all that draw at `q` agree, it has their colour. -/
theorem topmost_eq_some {l : List τ} {layer : τ → ι → Option α} {q : ι} {c : α}
    (hagree : ∀ t ∈ l, ∀ d, layer t q = some d → d = c) {t : τ} (ht : t ∈ l)
    (hc : layer t q = some c) : topmost l layer q = some c := by
  induction l generalizing t with
  | nil => exact absurd ht List.not_mem_nil
  | cons head tail ih =>
      rw [topmost_cons]
      have htail := fun u hu => hagree u (List.mem_cons_of_mem head hu)
      by_cases hdraws : ∀ u ∈ tail, layer u q = none
      · rw [topmost_eq_none hdraws, Option.none_or]
        cases List.mem_cons.mp ht with
        | inl heq => exact heq ▸ hc
        | inr hin =>
            rw [hdraws t hin] at hc
            cases hc
      · push Not at hdraws
        obtain ⟨u, hu, hne⟩ := hdraws
        obtain ⟨d, hd⟩ := Option.ne_none_iff_exists'.mp hne
        rw [htail u hu d hd] at hd
        rw [ih htail hu hd]
        rfl

/-- When each draws nothing or the same at `q`. -/
theorem topmost_eq {l : List τ} {layer : τ → ι → Option α} {q : ι} {o : Option α}
    (hagree : ∀ t ∈ l, layer t q = none ∨ layer t q = o)
    (hdraws : o ≠ none → ∃ t ∈ l, layer t q = o) : topmost l layer q = o := by
  cases o with
  | none => exact topmost_eq_none fun t ht => (hagree t ht).elim id id
  | some c =>
      obtain ⟨t, ht, hc⟩ := hdraws (Option.some_ne_none c)
      apply topmost_eq_some ?_ ht hc
      intro u hu d hd
      cases hagree u hu with
      | inl hnone =>
          rw [hnone] at hd
          cases hd
      | inr hsame =>
          rw [hsame] at hd
          exact (Option.some.inj hd).symm

/-- A loop of which every turn draws nothing or a part of `whole`, and all of it together. -/
theorem Paints.loop {f : τ → σ → σ} {layer : τ → ι → Option α} {l : List τ} {whole : ι → Option α}
    (h : ∀ t ∈ l, Paints view (f t) (layer t))
    (hagree : ∀ q, ∀ t ∈ l, layer t q = none ∨ layer t q = whole q)
    (hdraws : ∀ q, whole q ≠ none → ∃ t ∈ l, layer t q = whole q) :
    Paints view (fun s => l.foldl (fun s t => f t s) s) whole :=
  (Paints.foldl h).congr fun q => topmost_eq (hagree q) (hdraws q)

/-- In a list sorted by a key, the one drawn last at `q` is the greatest of those that
draw there. -/
theorem topmost_eq_greatest {κ : Type*} [LinearOrder κ] {key : τ → κ} {l : List τ}
    {layer : τ → ι → Option α} {q : ι} {c : α} (hsorted : l.Pairwise (fun s t => key s ≤ key t))
    {t : τ} (ht : t ∈ l) (hc : layer t q = some c)
    (htop : ∀ u ∈ l, u ≠ t → layer u q ≠ none → key u < key t) : topmost l layer q = some c := by
  induction l with
  | nil => exact absurd ht List.not_mem_nil
  | cons head tail ih =>
      rw [List.pairwise_cons] at hsorted
      rw [topmost_cons]
      by_cases hin : t ∈ tail
      · rw [ih hsorted.2 hin fun u hu => htop u (List.mem_cons_of_mem _ hu)]
        rfl
      · have heq : t = head := (List.mem_cons.mp ht).resolve_right hin
        subst heq
        have hnone : ∀ u ∈ tail, layer u q = none := by
          intro u hu
          by_contra hne
          have hut : u ≠ t := fun h => hin (h ▸ hu)
          exact absurd (hsorted.1 u hu)
            (not_le.mpr (htop u (List.mem_cons_of_mem _ hu) hut hne))
        rw [topmost_eq_none hnone, Option.none_or]
        exact hc

end Sugimotos.Math
