/-
# Copying a string

Model of `strncpy` in `lib/string.c`, over a memory of bytes whose addresses wrap.  The
first loop stores the byte that ends the source before it looks at it, and leaves without
counting it; the second loop stores as many bytes as are still to count.
-/

import Mathlib.Data.UInt
import Mathlib.Order.Basic

namespace Sugimotos.Lib

/-- A memory of bytes. -/
abbrev Mem : Type := UInt32 → UInt8

/-- A byte stored at an address. -/
def Mem.store (m : Mem) (p : UInt32) (c : UInt8) : Mem := fun a => if a = p then c else m a

/-- The second loop of `strncpy`. -/
def strncpyPad : Nat → UInt32 → Mem → Mem
  | 0, _, m => m
  | n + 1, p, m => strncpyPad n (p + 1) (m.store p 0)

/-- The first loop of `strncpy`, and what follows it. -/
def strncpyCopy : Nat → UInt32 → UInt32 → Mem → Mem
  | 0, _, _, m => m
  | n + 1, p, src, m =>
      let c := m src
      let m := m.store p c
      if c = 0 then strncpyPad (n + 1) (p + 1) m else strncpyCopy n (p + 1) (src + 1) m

/-- `strncpy`: the memory afterwards. -/
def strncpy (dst src n : UInt32) (m : Mem) : Mem := strncpyCopy n.toNat dst src m

/-- A string of `len` characters lies at `src`. -/
structure CString (m : Mem) (src : UInt32) (len : Nat) : Prop where
  fits : len < 2 ^ 32
  stop : m (src + .ofNat len) = 0
  chars : ∀ i, i < len → m (src + .ofNat i) ≠ 0

/-- How far an address is behind another. -/
def offset (a p : UInt32) : Nat := (a - p).toNat

/-- The `n` bytes are the characters of the source, then zeros, and no other byte changes. -/
def CopiesExactly (dst src n : UInt32) (len : Nat) (m : Mem) : Prop :=
  ∀ a, strncpy dst src n m a =
    if offset a dst < n.toNat then
      if offset a dst < len then m (src + .ofNat (offset a dst)) else 0
    else m a

/-! ## Addresses -/

theorem offset_lt (a p : UInt32) : offset a p < 2 ^ 32 := (a - p).toNat_lt

theorem offset_self (p : UInt32) : offset p p = 0 := by
  unfold offset
  rw [sub_self]
  rfl

theorem offset_add {n : Nat} (hn : n < 2 ^ 32) (p : UInt32) : offset (p + .ofNat n) p = n := by
  unfold offset
  rw [add_sub_cancel_left]
  exact UInt32.toNat_ofNat_of_lt' hn

theorem add_offset (a p : UInt32) : p + .ofNat (offset a p) = a := by
  unfold offset
  rw [UInt32.ofNat_toNat, add_sub_cancel]

theorem offset_eq_iff {a p : UInt32} {n : Nat} (hn : n < 2 ^ 32) :
    offset a p = n ↔ a = p + .ofNat n := by
  constructor
  · intro h
    rw [← h, add_offset]
  · intro h
    rw [h, offset_add hn]

theorem offset_succ {a p : UInt32} (hne : a ≠ p) : offset a p = offset a (p + 1) + 1 := by
  have ha := a.toNat_lt
  have hp := p.toNat_lt
  have hdiff : a.toNat ≠ p.toNat := fun h => hne (UInt32.toNat_inj.mp h)
  have hone : (1 : UInt32).toNat = 1 := rfl
  simp only [offset, UInt32.toNat_sub, UInt32.toNat_add, hone]
  omega

/-- Where a byte of the source lies in the destination, by how far the two are apart. -/
theorem offset_source (dst src : UInt32) {k : Nat} (hk : k < 2 ^ 32) :
    offset (src + .ofNat k) dst =
      if offset dst src ≤ k then k - offset dst src else k + 2 ^ 32 - offset dst src := by
  have hs := src.toNat_lt
  have hd := dst.toNat_lt
  have hnat : (UInt32.ofNat k).toNat = k := UInt32.toNat_ofNat_of_lt' hk
  simp only [offset, UInt32.toNat_sub, UInt32.toNat_add, hnat]
  split <;> omega

theorem offset_behind {a p : UInt32} {k : Nat} (hk : k < 2 ^ 32) (hle : k ≤ offset a p) :
    offset a (p + .ofNat k) = offset a p - k := by
  have ha := a.toNat_lt
  have hp := p.toNat_lt
  have hnat : (UInt32.ofNat k).toNat = k := UInt32.toNat_ofNat_of_lt' hk
  simp only [offset, UInt32.toNat_sub, UInt32.toNat_add, hnat] at hle ⊢
  omega

theorem offset_before {a p : UInt32} {k : Nat} (hk : k < 2 ^ 32) (hlt : offset a p < k) :
    offset a (p + .ofNat k) = offset a p + 2 ^ 32 - k := by
  have ha := a.toNat_lt
  have hp := p.toNat_lt
  have hnat : (UInt32.ofNat k).toNat = k := UInt32.toNat_ofNat_of_lt' hk
  simp only [offset, UInt32.toNat_sub, UInt32.toNat_add, hnat] at hlt ⊢
  omega

/-! ## The second loop -/

theorem strncpyPad_eq (n : Nat) (hn : n < 2 ^ 32) (p : UInt32) (m : Mem) (a : UInt32) :
    strncpyPad n p m a = if offset a p < n then 0 else m a := by
  induction n generalizing p m with
  | zero => rfl
  | succ n ih =>
      rw [strncpyPad, ih (by omega)]
      unfold Mem.store
      by_cases ha : a = p
      · rw [ha, offset_self, if_pos rfl, if_pos (Nat.succ_pos n)]
        exact ite_self 0
      · rw [offset_succ ha, if_neg ha]
        simp only [Nat.add_lt_add_iff_right]

/-! ## The first loop -/

section Copy

variable (dst src : UInt32) (m : Mem)

/-- The byte that the turn `j` of the first loop reads.  Where the destination begins
behind the source, the loop comes to read what it wrote, and so repeats itself. -/
def copied (j : Nat) : UInt8 := m (src + .ofNat (j % offset dst src))

/-- The memory after `k` turns. -/
def copiedMem (k : Nat) : Mem := fun a => if offset a dst < k then copied dst src m (offset a dst) else m a

theorem copiedMem_read {k : Nat} (hk : k < 2 ^ 32) :
    copiedMem dst src m k (src + .ofNat k) = copied dst src m k := by
  have hlt := offset_lt dst src
  unfold copiedMem
  rw [offset_source dst src hk]
  by_cases hover : offset dst src ≤ k
  · rw [if_pos hover]
    by_cases hzero : offset dst src = 0
    · rw [hzero, Nat.sub_zero, if_neg (Nat.lt_irrefl k), copied, hzero, Nat.mod_zero]
    · rw [if_pos (by omega), copied, copied, Nat.mod_eq_sub_mod hover]
  · rw [if_neg hover, if_neg (by omega), copied, Nat.mod_eq_of_lt (Nat.lt_of_not_le hover)]

theorem copiedMem_store {k : Nat} (hk : k < 2 ^ 32) :
    (copiedMem dst src m k).store (dst + .ofNat k) (copied dst src m k) =
      copiedMem dst src m (k + 1) := by
  funext a
  unfold Mem.store copiedMem
  by_cases ha : a = dst + .ofNat k
  · rw [if_pos ha, ha, offset_add hk, if_pos (Nat.lt_succ_self k)]
  · have hoff : offset a dst ≠ k := fun h => ha ((offset_eq_iff hk).mp h)
    rw [if_neg ha]
    by_cases hbelow : offset a dst < k
    · rw [if_pos hbelow, if_pos (by omega)]
    · rw [if_neg hbelow, if_neg (by omega)]

/-- As long as no byte read is zero, the turns are counted. -/
theorem strncpyCopy_run {n k : Nat} (hn : n + k < 2 ^ 32)
    (hchars : ∀ j, j < k → copied dst src m j ≠ 0) :
    strncpyCopy (n + k) dst src m =
      strncpyCopy n (dst + .ofNat k) (src + .ofNat k) (copiedMem dst src m k) := by
  induction k generalizing n with
  | zero =>
      have hstart : copiedMem dst src m 0 = m := rfl
      have hzero : UInt32.ofNat 0 = 0 := rfl
      simp only [hstart, hzero, add_zero]
  | succ k ih =>
      have hnext : ∀ p : UInt32, p + .ofNat k + 1 = p + .ofNat (k + 1) := by
        intro p
        rw [add_assoc, UInt32.ofNat_add]
        rfl
      rw [show n + (k + 1) = n + 1 + k by omega,
        ih (by omega) fun j hj => hchars j (Nat.lt_succ_of_lt hj), strncpyCopy]
      rw [copiedMem_read dst src m (by omega), if_neg (hchars k (Nat.lt_succ_self k)),
        copiedMem_store dst src m (by omega), hnext, hnext]

/-- No byte read is zero: exactly `n` bytes are stored. -/
theorem strncpyCopy_full {n : Nat} (hn : n < 2 ^ 32)
    (hchars : ∀ j, j < n → copied dst src m j ≠ 0) :
    strncpyCopy n dst src m = copiedMem dst src m n := by
  have hrun := strncpyCopy_run (n := 0) dst src m (by omega) hchars
  rw [Nat.zero_add] at hrun
  rw [hrun, strncpyCopy]

/-- The first zero is read before `n` bytes were stored: one byte more is. -/
theorem strncpyCopy_short {n len : Nat} (hn : n < 2 ^ 32) (hlen : len < n)
    (hchars : ∀ j, j < len → copied dst src m j ≠ 0) (hstop : copied dst src m len = 0)
    (a : UInt32) :
    strncpyCopy n dst src m a =
      if offset a dst < len then copied dst src m (offset a dst)
      else if offset a dst ≤ n then 0 else m a := by
  obtain ⟨rest, rfl⟩ := Nat.exists_eq_add_of_lt hlen
  have hrun := strncpyCopy_run (n := rest + 1) dst src m (by omega) hchars
  rw [show len + rest + 1 = rest + 1 + len by omega, hrun, strncpyCopy]
  rw [copiedMem_read dst src m (by omega), if_pos hstop, copiedMem_store dst src m (by omega),
    strncpyPad_eq _ (by omega)]
  have hnext : dst + .ofNat len + 1 = dst + .ofNat (len + 1) := by
    rw [add_assoc, UInt32.ofNat_add]
    rfl
  rw [hnext]
  have hlt := offset_lt a dst
  unfold copiedMem
  by_cases hbelow : offset a dst < len
  · have hbehind := offset_before (a := a) (p := dst) (k := len + 1) (by omega) (by omega)
    rw [if_neg (by omega), if_pos (by omega), if_pos hbelow]
  · rw [if_neg hbelow]
    by_cases hat : offset a dst = len
    · have hbehind := offset_before (a := a) (p := dst) (k := len + 1) (by omega) (by omega)
      rw [if_neg (by omega), if_pos (by omega), if_pos (by omega), hat, hstop]
    · -- The bytes behind the first zero are those of the second loop.
      rw [offset_behind (by omega) (show len + 1 ≤ offset a dst by omega)]
      by_cases hin : offset a dst ≤ rest + 1 + len
      · rw [if_pos (by omega), if_pos hin]
      · rw [if_neg (by omega), if_neg (by omega), if_neg hin]

end Copy

/-! ## When the copy is exact -/

/-- The source is read before it is overwritten, or repeats what it is overwritten with;
and when it has fewer than `n` characters its end is not overwritten, and the byte behind
the `n` bytes is zero already. -/
structure StrncpyFits (dst src n : UInt32) (len : Nat) (m : Mem) : Prop where
  chars : ∀ i, i < n.toNat → i < len → m (src + .ofNat (i % offset dst src)) = m (src + .ofNat i)
  short : len < n.toNat →
    (offset dst src = 0 ∨ len < offset dst src) ∧ m (dst + .ofNat n.toNat) = 0

section Exact

variable {dst src n : UInt32} {len : Nat} {m : Mem}

theorem copied_eq (hout : offset dst src = 0 ∨ len < offset dst src) {j : Nat} (hj : j ≤ len) :
    copied dst src m j = m (src + .ofNat j) := by
  unfold copied
  cases hout with
  | inl hzero => rw [hzero, Nat.mod_zero]
  | inr hlt => rw [Nat.mod_eq_of_lt (hj.trans_lt hlt)]

/-- As many characters as are asked for. -/
theorem copies_long (hlen : n.toNat ≤ len)
    (hchars : ∀ j, j < n.toNat → copied dst src m j ≠ 0) :
    CopiesExactly dst src n len m ↔ StrncpyFits dst src n len m := by
  have hn := n.toNat_lt
  have hresult : strncpy dst src n m = copiedMem dst src m n.toNat :=
    strncpyCopy_full dst src m hn hchars
  constructor
  · intro hexact
    refine ⟨fun i hi hil => ?_, fun hshort => absurd hlen (Nat.not_le.mpr hshort)⟩
    have hat := hexact (dst + .ofNat i)
    rw [hresult, copiedMem, offset_add (by omega), if_pos hi, if_pos hi, if_pos hil] at hat
    exact hat
  · intro hfits a
    rw [hresult, copiedMem]
    by_cases hin : offset a dst < n.toNat
    · rw [if_pos hin, if_pos hin, if_pos (hin.trans_le hlen)]
      exact hfits.chars _ hin (hin.trans_le hlen)
    · rw [if_neg hin, if_neg hin]

variable (h : CString m src len)
include h

/-- A destination that begins in the source makes the copy go on without end. -/
theorem CString.copied_ne_zero (hpos : offset dst src ≠ 0) (hin : offset dst src ≤ len) (j : Nat) :
    copied dst src m j ≠ 0 :=
  h.chars _ ((Nat.mod_lt j (Nat.pos_of_ne_zero hpos)).trans_le hin)

/-- Fewer characters than are asked for, none of them overwritten. -/
theorem CString.copies_short (hlen : len < n.toNat)
    (hout : offset dst src = 0 ∨ len < offset dst src) :
    CopiesExactly dst src n len m ↔ StrncpyFits dst src n len m := by
  have hn := n.toNat_lt
  have hchars : ∀ j, j < len → copied dst src m j ≠ 0 := by
    intro j hj
    rw [copied_eq hout hj.le]
    exact h.chars j hj
  have hstop : copied dst src m len = 0 := by
    rw [copied_eq hout le_rfl]
    exact h.stop
  have hresult := strncpyCopy_short dst src m hn hlen hchars hstop
  constructor
  · intro hexact
    refine ⟨fun i _ hil => copied_eq hout hil.le, fun _ => ⟨hout, ?_⟩⟩
    have hat := hexact (dst + .ofNat n.toNat)
    rw [strncpy, hresult, offset_add hn, if_neg (Nat.not_lt.mpr hlen.le), if_pos le_rfl,
      if_neg (Nat.lt_irrefl _)] at hat
    exact hat.symm
  · intro hfits a
    rw [strncpy, hresult]
    by_cases hbelow : offset a dst < len
    · rw [if_pos hbelow, if_pos (hbelow.trans hlen), if_pos hbelow, copied_eq hout hbelow.le]
    · rw [if_neg hbelow, if_neg hbelow]
      by_cases hlast : offset a dst = n.toNat
      · have ha := (offset_eq_iff hn).mp hlast
        rw [if_pos hlast.le, if_neg hlast.not_lt, ha]
        exact (hfits.short hlen).2.symm
      · by_cases hin : offset a dst < n.toNat
        · rw [if_pos hin.le, if_pos hin]
        · rw [if_neg (by omega), if_neg hin]

/-- `strncpy` stores its `n` bytes and no other exactly when the source fits. -/
theorem CString.copiesExactly_iff :
    CopiesExactly dst src n len m ↔ StrncpyFits dst src n len m := by
  by_cases hout : offset dst src = 0 ∨ len < offset dst src
  · by_cases hlen : len < n.toNat
    · exact h.copies_short hlen hout
    · apply copies_long (Nat.le_of_not_lt hlen)
      intro j hj
      rw [copied_eq hout (by omega)]
      exact h.chars j (by omega)
  · have hchars : ∀ j, copied dst src m j ≠ 0 :=
      h.copied_ne_zero (fun hzero => hout (.inl hzero)) (Nat.le_of_not_lt fun hlt => hout (.inr hlt))
    by_cases hlen : len < n.toNat
    · -- The copy runs into the end of the source, where a zero is expected.
      refine iff_of_false (fun hexact => ?_) fun hfits => hout (hfits.short hlen).1
      have hat := hexact (dst + .ofNat len)
      have hresult : strncpy dst src n m = copiedMem dst src m n.toNat :=
        strncpyCopy_full dst src m n.toNat_lt fun j _ => hchars j
      rw [hresult, copiedMem, offset_add h.fits, if_pos hlen, if_pos hlen,
        if_neg (Nat.lt_irrefl len)] at hat
      exact hchars len hat
    · exact copies_long (Nat.le_of_not_lt hlen) fun j _ => hchars j

end Exact

end Sugimotos.Lib
