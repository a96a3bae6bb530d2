/-
# Titles and texts

What `strncpy` stores into a window.  A string that is shorter than its field ends with
one zero more than the field has room for: behind the title that is the first byte of the
text, and behind the text it is the lowest byte of `has_image`.
-/

import Sugimotos.Gui.Images
import Sugimotos.Lib.Strncpy

namespace Sugimotos.Gui

open Sugimotos.Lib (Mem CString CopiesExactly StrncpyFits offset copied)

/-! ## The bytes stored -/

/-- The byte `e` that `strncpy` stores, counted from the destination on. -/
theorem strncpy_getElem? (text : List UInt8) (n e : Nat) :
    (strncpy text n)[e]? =
      if e < text.length then if e < n then text[e]? else none
      else if text.length < n ∧ e ≤ n then some 0 else none := by
  induction n generalizing text e with
  | zero =>
      have hnone : strncpy text 0 = [] := by cases text <;> rfl
      rw [hnone, List.getElem?_nil, if_neg (Nat.not_lt_zero e)]
      split
      · rfl
      · rw [if_neg fun h => Nat.not_lt_zero _ h.1]
  | succ n ih =>
      cases text with
      | nil =>
          rw [strncpy, List.length_nil, if_neg (Nat.not_lt_zero e)]
          cases e with
          | zero => rw [if_pos ⟨Nat.succ_pos n, Nat.zero_le _⟩, List.getElem?_cons_zero]
          | succ e =>
              rw [List.getElem?_cons_succ, List.getElem?_replicate]
              simp only [Nat.zero_le, true_and, Nat.lt_succ_iff, Nat.succ_le_succ_iff]
      | cons c text =>
          cases e with
          | zero => rfl
          | succ e =>
              rw [strncpy, List.getElem?_cons_succ, List.getElem?_cons_succ, ih]
              simp only [List.length_cons, Nat.add_lt_add_iff_right, Nat.add_le_add_iff_right]

/-- In memory the string is stored byte by byte, and nothing else changes. -/
theorem strncpy_stores {m : Mem} {dst src n : UInt32} {text : List UInt8}
    (h : CString m src text.length)
    (htext : ∀ i, i < text.length → text[i]? = some (m (src + .ofNat i)))
    (hout : offset dst src = 0 ∨ text.length < offset dst src) (a : UInt32) :
    Lib.strncpy dst src n m a = (strncpy text n.toNat)[offset a dst]?.getD (m a) := by
  have hn := n.toNat_lt
  have hchars : ∀ j, j < text.length → copied dst src m j ≠ 0 := by
    intro j hj
    rw [Lib.copied_eq hout hj.le]
    exact h.chars j hj
  rw [strncpy_getElem?, Lib.strncpy]
  by_cases hlen : text.length < n.toNat
  · have hstop : copied dst src m text.length = 0 := by
      rw [Lib.copied_eq hout le_rfl]
      exact h.stop
    rw [Lib.strncpyCopy_short dst src m hn hlen hchars hstop]
    by_cases hbelow : offset a dst < text.length
    · rw [if_pos hbelow, if_pos hbelow, if_pos (hbelow.trans hlen), htext _ hbelow,
        Lib.copied_eq hout hbelow.le]
      rfl
    · rw [if_neg hbelow, if_neg hbelow]
      by_cases hin : offset a dst ≤ n.toNat
      · rw [if_pos hin, if_pos ⟨hlen, hin⟩]
        rfl
      · rw [if_neg hin, if_neg fun hboth => hin hboth.2]
        rfl
  · have hle := Nat.le_of_not_lt hlen
    rw [Lib.strncpyCopy_full dst src m hn fun j hj => hchars j (hj.trans_le hle), Lib.copiedMem]
    by_cases hin : offset a dst < n.toNat
    · have hbelow := hin.trans_le hle
      rw [if_pos hin, if_pos hbelow, if_pos hin, htext _ hbelow, Lib.copied_eq hout hbelow.le]
      rfl
    · rw [if_neg hin, if_neg hin]
      split
      · rfl
      · rw [if_neg fun hboth => hlen hboth.1]
        rfl

/-! ## What a call does to a window -/

theorem windows_ite {c : Prop} [Decidable c] {s t : Wm} (h : t.windows = s.windows) :
    (if c then s else t).windows = s.windows := by
  split
  · rfl
  · exact h

theorem wmMarkDirtyRect_windows (x y w h : Int) (s : Wm) :
    (wmMarkDirtyRect x y w h s).windows = s.windows := by
  unfold wmMarkDirtyRect
  apply windows_ite
  apply windows_ite
  apply windows_ite
  cases s.dirty <;> rfl

theorem wmMarkDirtyWindow_windows (win : Option Slot) (s : Wm) :
    (wmMarkDirtyWindow win s).windows = s.windows := by
  unfold wmMarkDirtyWindow
  cases win with
  | none => rfl
  | some i =>
      dsimp only
      split
      · exact wmMarkDirtyRect_windows ..
      · rfl

/-- The windows differ in title and text at most. -/
def WmWindow.SameButText (v w : WmWindow) : Prop :=
  { v with title := w.title, text := w.text } = w

/-- What `wm_create` makes of a window besides its title and text. -/
def createdWindow (s : Wm) (w h : Int) : WmWindow :=
  { WmWindow.zero with
    used := true
    id := s.nextId
    visible := true
    focusable := true
    w := w
    h := h
    x := wmCreateX s s.nextId w
    y := wmCreateY s s.nextId h
    z := s.nextZ }

/-- The copies of `wm_create` reach title and text only. -/
def CreatesExactly (title : Option (List UInt8)) (w h : Int) (s : Wm) : Prop :=
  ∀ i, (wmCreate title w h s).2.windows i = s.windows i ∨
    (¬ (s.windows i).used ∧
      ((wmCreate title w h s).2.windows i).SameButText (createdWindow s w h))

/-- `wm_set_text` changes the text of the window and nothing else. -/
def SetsTextExactly (id : Int) (text : List UInt8) (s : Wm) : Prop :=
  ∀ i, ((wmSetText id text s).2.windows i).SameButText
    { s.windows i with text := ((wmSetText id text s).2.windows i).text }

/-- The text fills its field, or the lowest byte of `has_image` is zero. -/
def TextFits (text : List UInt8) (win : WmWindow) : Prop :=
  wmTextMax ≤ text.length ∨ win.hasImage % 256 = 0

/-- The byte behind the text is stored when the text is shorter than its field. -/
theorem strncpy_over (text : List UInt8) :
    (strncpy text wmTextMax)[wmTextMax]? = if text.length < wmTextMax then some 0 else none := by
  rw [strncpy_getElem?]
  by_cases hlen : text.length < wmTextMax
  · rw [if_neg (Nat.not_lt.mpr hlen.le), if_pos ⟨hlen, le_rfl⟩, if_pos hlen]
  · rw [if_neg fun hboth : text.length < wmTextMax ∧ _ => hlen hboth.1, if_neg (Nat.lt_irrefl _),
      if_neg hlen]
    exact ite_self none

theorem storeText_hasImage_eq (text : List UInt8) (win : WmWindow) :
    (win.storeText (strncpy text wmTextMax)).hasImage = win.hasImage ↔ TextFits text win := by
  unfold WmWindow.storeText TextFits
  dsimp only
  rw [strncpy_over]
  by_cases hlen : text.length < wmTextMax
  · rw [if_pos hlen, or_iff_right (Nat.not_le.mpr hlen)]
    show win.hasImage - win.hasImage % 256 + 0 = win.hasImage ↔ _
    omega
  · rw [if_neg hlen]
    exact iff_of_true rfl (Or.inl (Nat.le_of_not_lt hlen))

theorem storeText_sameButText (bytes : List UInt8) (win : WmWindow) :
    (win.storeText bytes).SameButText { win with text := (win.storeText bytes).text } ↔
      (win.storeText bytes).hasImage = win.hasImage := by
  unfold WmWindow.SameButText
  constructor
  · intro hsame
    have hhas := congrArg WmWindow.hasImage hsame
    exact hhas
  · intro hhas
    have hstored : win.storeText bytes =
        { win with text := (win.storeText bytes).text, hasImage := (win.storeText bytes).hasImage } := rfl
    rw [hstored, hhas]

/-- What is stored behind the title does not reach past the text. -/
theorem storeTitle_hasImage (title : List UInt8) (win : WmWindow) :
    (win.storeTitle (strncpy title wmTitleMax)).hasImage = win.hasImage := by
  have hnone : ((strncpy title wmTitleMax).drop wmTitleMax)[wmTextMax]? = none := by
    have hfar : ¬ wmTitleMax + wmTextMax ≤ wmTitleMax := by decide
    have hlast : ¬ (title.length < wmTitleMax ∧ wmTitleMax + wmTextMax ≤ wmTitleMax) :=
      fun hboth => hfar hboth.2
    rw [List.getElem?_drop, strncpy_getElem?, if_neg hlast, if_neg fun hlt => hfar (Nat.le_of_lt hlt)]
    exact ite_self none
  unfold WmWindow.storeTitle WmWindow.storeText
  dsimp only
  rw [hnone]

/-- `wm_create` clears the window first: what a copy stores too much is zero already, or is
overwritten by the next copy. -/
theorem createsExactly (title : Option (List UInt8)) (w h : Int) (s : Wm) :
    CreatesExactly title w h s := by
  intro i
  unfold wmCreate
  cases hfree : (List.finRange wmMaxWindows).find? fun i => !(s.windows i).used with
  | none => exact Or.inl rfl
  | some slot =>
      dsimp only
      rw [wmMarkDirtyTaskbar, wmMarkDirtyRect_windows, wmMarkDirtyWindow_windows]
      by_cases hi : i = slot
      · right
        have hunused := List.find?_some hfree
        subst hi
        refine ⟨by simpa using hunused, ?_⟩
        have htitled := storeTitle_hasImage (title.getD (cString "window")) (createdWindow s w h)
        have hfits : TextFits (cString "(empty)")
            ((createdWindow s w h).storeTitle (strncpy (title.getD (cString "window")) wmTitleMax)) := by
          right
          rw [htitled]
          rfl
        have hhas := (storeText_hasImage_eq _ _).mpr hfits
        rw [htitled] at hhas
        simp only [Wm.setWindow, Function.update_self]
        exact congrArg (fun v => { createdWindow s w h with hasImage := v }) hhas
      · left
        simp only [Wm.setWindow, Function.update_of_ne hi]

theorem setsTextExactly_iff (id : Int) (text : List UInt8) (s : Wm) :
    SetsTextExactly id text s ↔ ∀ i, wmFind s id = some i → TextFits text (s.windows i) := by
  unfold SetsTextExactly wmSetText
  cases hfind : wmFind s id with
  | none => exact iff_of_true (fun i => rfl) nofun
  | some slot =>
      dsimp only
      rw [wmMarkDirtyWindow_windows]
      have hslot := storeText_sameButText (strncpy text wmTextMax) (s.windows slot)
      rw [storeText_hasImage_eq] at hslot
      constructor
      · intro hexact i hi
        cases hi
        have hat := hexact slot
        simp only [Wm.modify, Wm.setWindow, Function.update_self] at hat
        exact hslot.mp hat
      · intro hfits i
        by_cases hi : i = slot
        · subst hi
          simp only [Wm.modify, Wm.setWindow, Function.update_self]
          exact hslot.mpr (hfits i rfl)
        · simp only [Wm.modify, Wm.setWindow, Function.update_of_ne hi]
          rfl

/-! ## When only the text changes -/

/-- `strncpy` is exact exactly when the source fits; `wm_create` changes nothing behind
title and text; and `wm_set_text` changes nothing but the text exactly when the text fills
its field or `has_image` has a zero byte in the way. -/
theorem strncpy_exact_iff {m : Mem} {src : UInt32} {len : Nat} (hsrc : CString m src len)
    (dst n : UInt32) (title : Option (List UInt8)) (w h id : Int) (text : List UInt8) (s : Wm) :
    (CopiesExactly dst src n len m ↔ StrncpyFits dst src n len m) ∧
      CreatesExactly title w h s ∧
      (SetsTextExactly id text s ↔ ∀ i, wmFind s id = some i → TextFits text (s.windows i)) :=
  ⟨hsrc.copiesExactly_iff, createsExactly title w h s, setsTextExactly_iff id text s⟩

/-- A memory with an `a` at address 0, ones from address 8 on and zeros elsewhere. -/
def oneChar : Mem := fun a => if a = 0 then 97 else if 8 ≤ a then 1 else 0

theorem oneChar_cString : CString oneChar 0 1 := by
  refine ⟨by decide, by decide, fun i hi => ?_⟩
  rw [Nat.lt_one_iff.mp hi]
  decide

/-- A memory with an `a` at address 0, ones from address 8 to 10 and zeros elsewhere. -/
def threeOnes : Mem := fun a => if a = 0 then 97 else if 8 ≤ a ∧ a ≤ 10 then 1 else 0

theorem threeOnes_cString : CString threeOnes 0 1 := by
  refine ⟨by decide, by decide, fun i hi => ?_⟩
  rw [Nat.lt_one_iff.mp hi]
  decide

/-- One character is copied into three bytes, and two of them are cleared. -/
theorem strncpy_exact_padded : CopiesExactly 8 0 3 1 threeOnes ∧
    Lib.strncpy 8 0 3 threeOnes 8 = 97 ∧ Lib.strncpy 8 0 3 threeOnes 10 = 0 := by
  have hexact : CopiesExactly 8 0 3 1 threeOnes := by
    refine (strncpy_exact_iff threeOnes_cString 8 3 none 0 0 0 [] Wm.boot).1.mpr ⟨?_, ?_⟩
    · intro i _ hi
      rw [Nat.lt_one_iff.mp hi]
      decide
    · exact fun _ => ⟨.inr (by decide), by decide⟩
  refine ⟨hexact, (hexact 8).trans (by decide), (hexact 10).trans (by decide)⟩

/-- One window, which has an image. -/
def oneImage : Wm := Wm.boot.modify 0 fun win => { win with used := true, id := 1, hasImage := 1 }

/-- One character is copied into two bytes, and the third one is cleared; a text is set,
and the window's image is gone. -/
theorem strncpy_overruns :
    (¬ ∀ (m : Mem) (dst src n : UInt32) (len : Nat), CString m src len →
      CopiesExactly dst src n len m) ∧
    ¬ ∀ id text s, SetsTextExactly id text s := by
  constructor
  · intro hall
    have hat := hall oneChar 8 0 2 1 oneChar_cString 10
    exact absurd hat (by decide)
  · intro hall
    have hfits := (setsTextExactly_iff 1 [97] oneImage).mp (hall 1 [97] oneImage) 0 (by decide)
    unfold TextFits at hfits
    exact absurd hfits (by decide)

end Sugimotos.Gui
