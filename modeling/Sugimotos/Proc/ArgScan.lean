/-
# Argument vectors in a view of memory

A view gives the byte at an address, or nothing where no read is allowed.  Here
the argument vector that `proc_user_exec_argv_ok` walks is a function of such a
view, together with the addresses it depends on.
-/

import Sugimotos.Mm.Layout

namespace Sugimotos.Proc

open Sugimotos.Mm

/-- What can be read at each address. -/
abbrev View := Nat → Option UInt8

namespace View

/-- The addresses of the word at `va`. -/
def wordAddrs (va : Nat) : List Nat := [va, u32 (va + 1), u32 (va + 2), u32 (va + 3)]

/-- The value of four bytes, lowest first. -/
def leWord (b0 b1 b2 b3 : UInt8) : Nat :=
  b0.toNat + 256 * b1.toNat + 65536 * b2.toNat + 16777216 * b3.toNat

/-- The word at `va`. -/
def word (read : View) (va : Nat) : Option Nat := do
  let b0 ← read va
  let b1 ← read (u32 (va + 1))
  let b2 ← read (u32 (va + 2))
  let b3 ← read (u32 (va + 3))
  return leWord b0 b1 b2 b3

/-- The string at `addr` from offset `t` on, if it ends within `left` bytes. -/
def cstr (read : View) (addr : Nat) : Nat → Nat → Option (List UInt8)
  | 0, _ => none
  | left + 1, t =>
      match read (u32 (addr + t)) with
      | none => none
      | some byte => if byte = 0 then some [] else (cstr read addr left (t + 1)).map (byte :: ·)

/-- The addresses `cstr` looks at. -/
def cstrAddrs (read : View) (addr : Nat) : Nat → Nat → List Nat
  | 0, _ => []
  | left + 1, t =>
      u32 (addr + t) ::
        match read (u32 (addr + t)) with
        | none => []
        | some byte => if byte = 0 then [] else cstrAddrs read addr left (t + 1)

/-- The strings of the argument vector from argument `i` on, if it ends within
`left` words and each string within 128 bytes. -/
def args (read : View) (argvPtr : Nat) : Nat → Nat → Option (List (List UInt8))
  | 0, _ => none
  | left + 1, i =>
      match read.word (u32 (argvPtr + i * 4)) with
      | none => none
      | some argp =>
          if argp = 0 then some []
          else
            match read.cstr argp 128 0 with
            | none => none
            | some arg => (args read argvPtr left (i + 1)).map (arg :: ·)

/-- The addresses `args` looks at: the words of the vector and the bytes of its
strings, the NULs included. -/
def argAddrs (read : View) (argvPtr : Nat) : Nat → Nat → List Nat
  | 0, _ => []
  | left + 1, i =>
      wordAddrs (u32 (argvPtr + i * 4)) ++
        match read.word (u32 (argvPtr + i * 4)) with
        | none => []
        | some argp =>
            if argp = 0 then []
            else read.cstrAddrs argp 128 0 ++ argAddrs read argvPtr left (i + 1)

/-- The arguments `proc_exec` accepts at `argvPtr`. -/
def argv (read : View) (argvPtr : Nat) : Option (List (List UInt8)) :=
  if argvPtr = 0 then some [] else read.args argvPtr 32 0

/-- The addresses the arguments at `argvPtr` occupy. -/
def argvAddrs (read : View) (argvPtr : Nat) : List Nat :=
  if argvPtr = 0 then [] else read.argAddrs argvPtr 32 0

theorem leWord_lt (b0 b1 b2 b3 : UInt8) : leWord b0 b1 b2 b3 < 4294967296 := by
  have h0 := b0.toNat_lt
  have h1 := b1.toNat_lt
  have h2 := b2.toNat_lt
  have h3 := b3.toNat_lt
  unfold leWord
  omega

theorem word_eq_some {read : View} {va w : Nat} : read.word va = some w ↔
    ∃ b0 b1 b2 b3, read va = some b0 ∧ read (u32 (va + 1)) = some b1 ∧
      read (u32 (va + 2)) = some b2 ∧ read (u32 (va + 3)) = some b3 ∧ leWord b0 b1 b2 b3 = w := by
  unfold word
  simp only [bind, Option.bind_eq_some_iff, pure, Option.some.injEq]
  constructor
  · rintro ⟨b0, h0, b1, h1, b2, h2, b3, h3, rfl⟩
    exact ⟨b0, b1, b2, b3, h0, h1, h2, h3, rfl⟩
  · rintro ⟨b0, b1, b2, b3, h0, h1, h2, h3, rfl⟩
    exact ⟨b0, h0, b1, h1, b2, h2, b3, h3, rfl⟩

theorem args_length {read : View} {argvPtr left i : Nat} {l : List (List UInt8)}
    (h : read.args argvPtr left i = some l) : l.length ≤ left := by
  induction left generalizing i l with
  | zero => cases h
  | succ left ih =>
      unfold args at h
      split at h
      · cases h
      · split at h
        · cases h
          exact Nat.zero_le _
        · split at h
          · cases h
          · obtain ⟨l', hl', rfl⟩ := Option.map_eq_some_iff.mp h
            exact Nat.succ_le_succ (ih hl')

theorem argv_length {read : View} {argvPtr : Nat} {l : List (List UInt8)}
    (h : read.argv argvPtr = some l) : l.length ≤ 32 := by
  unfold argv at h
  split at h
  · cases h
    exact Nat.zero_le _
  · exact args_length h

/-! ## Only the addresses looked at matter -/

section Congr

variable {read read' : View} {va addr argvPtr left t i : Nat}

theorem word_congr (h : ∀ a ∈ wordAddrs va, read' a = read a) : read'.word va = read.word va := by
  unfold wordAddrs at h
  simp only [List.mem_cons, List.not_mem_nil, or_false, forall_eq_or_imp, forall_eq] at h
  obtain ⟨h0, h1, h2, h3⟩ := h
  unfold word
  rw [h0, h1, h2, h3]

theorem cstr_congr (h : ∀ a ∈ read.cstrAddrs addr left t, read' a = read a) :
    read'.cstr addr left t = read.cstr addr left t := by
  induction left generalizing t with
  | zero => rfl
  | succ left ih =>
      unfold cstrAddrs at h
      unfold cstr
      rw [h _ (List.mem_cons_self ..)]
      cases hread : read (u32 (addr + t)) with
      | none => rfl
      | some byte =>
          rw [hread] at h
          dsimp only at h ⊢
          split
          · rfl
          · rename_i hbyte
            rw [if_neg hbyte] at h
            rw [ih fun a ha => h a (List.mem_cons_of_mem _ ha)]

theorem args_congr (h : ∀ a ∈ read.argAddrs argvPtr left i, read' a = read a) :
    read'.args argvPtr left i = read.args argvPtr left i := by
  induction left generalizing i with
  | zero => rfl
  | succ left ih =>
      unfold argAddrs at h
      unfold args
      rw [word_congr fun a ha => h a (List.mem_append_left _ ha)]
      cases hword : read.word (u32 (argvPtr + i * 4)) with
      | none => rfl
      | some argp =>
          rw [hword] at h
          dsimp only at h ⊢
          split
          · rfl
          · rename_i hargp
            rw [if_neg hargp] at h
            have hrest : ∀ a ∈ read.cstrAddrs argp 128 0 ++ read.argAddrs argvPtr left (i + 1),
                read' a = read a := fun a ha => h a (List.mem_append_right _ ha)
            rw [cstr_congr fun a ha => hrest a (List.mem_append_left _ ha),
              ih fun a ha => hrest a (List.mem_append_right _ ha)]

theorem argv_congr (h : ∀ a ∈ read.argvAddrs argvPtr, read' a = read a) :
    read'.argv argvPtr = read.argv argvPtr := by
  unfold argvAddrs at h
  unfold argv
  split
  · rfl
  · rename_i hptr
    rw [if_neg hptr] at h
    exact args_congr h

end Congr

/-! ## A smaller view that still gives arguments -/

section Smaller

variable {read read' : View} {va addr argvPtr left t i : Nat}

theorem word_smaller (hsub : ∀ a, read' a = none ∨ read' a = read a) {w : Nat}
    (h : read'.word va = some w) :
    read.word va = some w ∧ ∀ a ∈ wordAddrs va, read' a ≠ none := by
  have hread : ∀ a ∈ wordAddrs va, read' a ≠ none := by
    unfold word at h
    unfold wordAddrs
    simp only [List.mem_cons, List.not_mem_nil, or_false, forall_eq_or_imp, forall_eq]
    refine ⟨?_, ?_, ?_, ?_⟩ <;> intro hnone <;> rw [hnone] at h <;> simp at h
  refine ⟨?_, hread⟩
  rw [← h]
  exact word_congr fun a ha => ((hsub a).resolve_left (hread a ha)).symm

theorem cstr_smaller (hsub : ∀ a, read' a = none ∨ read' a = read a) {s : List UInt8}
    (h : read'.cstr addr left t = some s) :
    ∀ a ∈ read.cstrAddrs addr left t, read' a ≠ none := by
  induction left generalizing t s with
  | zero => cases h
  | succ left ih =>
      unfold cstr at h
      cases hread : read' (u32 (addr + t)) with
      | none =>
          rw [hread] at h
          cases h
      | some byte =>
          have hsame : read (u32 (addr + t)) = some byte := by
            rw [← hread]
            exact ((hsub _).resolve_left (by rw [hread]; nofun)).symm
          rw [hread] at h
          unfold cstrAddrs
          rw [hsame]
          intro a ha
          rcases List.mem_cons.mp ha with rfl | ha
          · rw [hread]
            nofun
          · dsimp only at h ha
            split at ha
            · cases ha
            · rename_i hbyte
              rw [if_neg hbyte] at h
              obtain ⟨s', hs', -⟩ := Option.map_eq_some_iff.mp h
              exact ih hs' a ha

theorem args_smaller (hsub : ∀ a, read' a = none ∨ read' a = read a) {l : List (List UInt8)}
    (h : read'.args argvPtr left i = some l) :
    ∀ a ∈ read.argAddrs argvPtr left i, read' a ≠ none := by
  induction left generalizing i l with
  | zero => cases h
  | succ left ih =>
      unfold args at h
      cases hword' : read'.word (u32 (argvPtr + i * 4)) with
      | none =>
          rw [hword'] at h
          cases h
      | some argp =>
          obtain ⟨hword, haddrs⟩ := word_smaller hsub hword'
          rw [hword'] at h
          unfold argAddrs
          rw [hword]
          intro a ha
          rcases List.mem_append.mp ha with ha | ha
          · exact haddrs a ha
          · dsimp only at h ha
            split at ha
            · cases ha
            · rename_i hargp
              rw [if_neg hargp] at h
              cases hcstr : read'.cstr argp 128 0 with
              | none =>
                  rw [hcstr] at h
                  cases h
              | some s =>
                  rw [hcstr] at h
                  obtain ⟨l', hl', -⟩ := Option.map_eq_some_iff.mp h
                  rcases List.mem_append.mp ha with ha | ha
                  · exact cstr_smaller hsub hcstr a ha
                  · exact ih hl' a ha

theorem argv_smaller (hsub : ∀ a, read' a = none ∨ read' a = read a) {l : List (List UInt8)}
    (h : read'.argv argvPtr = some l) : ∀ a ∈ read.argvAddrs argvPtr, read' a ≠ none := by
  unfold argv at h
  unfold argvAddrs
  split
  · nofun
  · rename_i hptr
    rw [if_neg hptr] at h
    exact args_smaller hsub h

end Smaller

end View

end Sugimotos.Proc
