/-
# What the window manager marks

Marking changes the dirty rectangle alone, never gives up a point, and takes in every
point of the screen in the rectangle it is called with, when that rectangle is one of
`int`s.  Queueing an event changes the event ring alone.
-/

import Sugimotos.Gui.Wm

namespace Sugimotos.Gui

open Sugimotos.Math

theorem s32_eq {v : Int} (hlow : -2 ^ 31 ≤ v) (hhigh : v < 2 ^ 31) : s32 v = v := by
  rw [s32, Int.bmod_eq_of_le (by omega) (by omega)]

/-- The point lies in the rectangle that is to be drawn again. -/
def Wm.InDirty (s : Wm) (x y : Int) : Prop :=
  ∃ r, s.dirty = some r ∧ r.x0 ≤ x ∧ x < r.x1 ∧ r.y0 ≤ y ∧ y < r.y1

/-- The point lies on the screen. -/
def Wm.OnScreen (s : Wm) (x y : Int) : Prop :=
  0 ≤ x ∧ x < s.screenW ∧ 0 ≤ y ∧ y < s.screenH

/-- The window without its title, text and events. -/
def WmWindow.look (w : WmWindow) : WmWindow :=
  { w with
    title := WmWindow.zero.title
    text := WmWindow.zero.text
    evRing := WmWindow.zero.evRing
    evHead := 0
    evTail := 0
    evOverflowLatched := false }

/-- What does not depend on title, text and events is equal in windows that look equal. -/
theorem WmWindow.eq_of_look {α : Type} (f : WmWindow → α) (hf : ∀ w, f w.look = f w)
    {v w : WmWindow} (h : v.look = w.look) : f v = f w := by
  rw [← hf v, ← hf w, h]

/-- From `s` to `s'` the dirty rectangle grew, by the screen's points in `R` at least,
and nothing else changed that is ever drawn. -/
structure Marks (s s' : Wm) (R : Int → Int → Prop) : Prop where
  look : ∀ i, (s'.windows i).look = (s.windows i).look
  rest : s' = { s with windows := s'.windows, dirty := s'.dirty, eventTick := s'.eventTick }
  keeps : ∀ x y, s.InDirty x y → s'.InDirty x y
  covers : ∀ x y, s.OnScreen x y → R x y → s'.InDirty x y

/-- No point in particular. -/
abbrev Nowhere : Int → Int → Prop := fun _ _ => False

theorem Marks.refl (s : Wm) : Marks s s Nowhere :=
  ⟨fun _ => rfl, rfl, fun _ _ h => h, fun _ _ _ h => h.elim⟩

theorem Marks.onScreen {s s' : Wm} {R : Int → Int → Prop} (h : Marks s s' R) {x y : Int} :
    s'.OnScreen x y ↔ s.OnScreen x y := by
  rw [h.rest]
  rfl

theorem Marks.trans {s t u : Wm} {R T : Int → Int → Prop} (h : Marks s t R) (h' : Marks t u T) :
    Marks s u (fun x y => R x y ∨ T x y) := by
  constructor
  · intro i
    rw [h'.look, h.look]
  · have hrest := h'.rest
    rw [h.rest] at hrest
    exact hrest
  · intro x y hin
    exact h'.keeps x y (h.keeps x y hin)
  · intro x y hon hR
    cases hR with
    | inl hR => exact h'.keeps x y (h.covers x y hon hR)
    | inr hT => exact h'.covers x y (h.onScreen.mpr hon) hT

theorem Marks.mono {s t : Wm} {R T : Int → Int → Prop} (h : Marks s t R)
    (hT : ∀ x y, T x y → R x y) : Marks s t T :=
  ⟨h.look, h.rest, h.keeps, fun x y hon ht => h.covers x y hon (hT x y ht)⟩

/-- A new rectangle that contains the old one. -/
theorem Marks.of_dirty {s : Wm} {d : Option WmRect} {R : Int → Int → Prop}
    (hkeeps : ∀ x y, s.InDirty x y → { s with dirty := d }.InDirty x y)
    (hcovers : ∀ x y, s.OnScreen x y → R x y → { s with dirty := d }.InDirty x y) :
    Marks s { s with dirty := d } R :=
  ⟨fun _ => rfl, rfl, hkeeps, hcovers⟩

theorem WmRect.union_spec (d r : WmRect) :
    (d.union r).x0 ≤ d.x0 ∧ (d.union r).x0 ≤ r.x0 ∧ (d.union r).y0 ≤ d.y0 ∧ (d.union r).y0 ≤ r.y0 ∧
      d.x1 ≤ (d.union r).x1 ∧ r.x1 ≤ (d.union r).x1 ∧ d.y1 ≤ (d.union r).y1 ∧
        r.y1 ≤ (d.union r).y1 := by
  simp only [WmRect.union]
  split_ifs <;> omega

/-- `R` when the right and lower edges are `int`s. -/
theorem wmMarkDirtyRect_marks (x y w h : Int) (s : Wm) :
    Marks s (wmMarkDirtyRect x y w h s) fun px py =>
      s32 (x + w) = x + w ∧ s32 (y + h) = y + h ∧ x ≤ px ∧ px < x + w ∧ y ≤ py ∧ py < y + h := by
  -- On every early exit the rectangle has no point on the screen.
  have hnone : (∀ px py, s.OnScreen px py → s32 (x + w) = x + w → s32 (y + h) = y + h →
      x ≤ px → px < x + w → y ≤ py → py < y + h → False) →
        Marks s s fun px py => s32 (x + w) = x + w ∧ s32 (y + h) = y + h ∧
          x ≤ px ∧ px < x + w ∧ y ≤ py ∧ py < y + h := by
    intro hempty
    refine ⟨fun _ => rfl, rfl, fun _ _ h => h, ?_⟩
    intro px py hon hR
    exact (hempty px py hon hR.1 hR.2.1 hR.2.2.1 hR.2.2.2.1 hR.2.2.2.2.1 hR.2.2.2.2.2).elim
  unfold wmMarkDirtyRect
  by_cases hsize : w ≤ 0 ∨ h ≤ 0
  · rw [if_pos hsize]
    apply hnone
    intros
    omega
  rw [if_neg hsize]
  by_cases hoff : s32 (x + w) ≤ 0 ∨ s32 (y + h) ≤ 0 ∨ x ≥ s.screenW ∨ y ≥ s.screenH
  · simp only [if_pos hoff]
    apply hnone
    intro px py hon
    unfold Wm.OnScreen at hon
    omega
  simp only [if_neg hoff]
  set x0 := if x < 0 then 0 else x with hx0
  set y0 := if y < 0 then 0 else y with hy0
  set x1 := if s32 (x + w) > s.screenW then s.screenW else s32 (x + w) with hx1
  set y1 := if s32 (y + h) > s.screenH then s.screenH else s32 (y + h) with hy1
  have hclip : ∀ px py, s.OnScreen px py → s32 (x + w) = x + w → s32 (y + h) = y + h →
      x ≤ px → px < x + w → y ≤ py → py < y + h → x0 ≤ px ∧ px < x1 ∧ y0 ≤ py ∧ py < y1 := by
    intro px py hon hxw hyh
    unfold Wm.OnScreen at hon
    rw [hx0, hy0, hx1, hy1, hxw, hyh]
    split_ifs <;> omega
  by_cases hempty : x0 ≥ x1 ∨ y0 ≥ y1
  · rw [if_pos hempty]
    apply hnone
    intro px py hon hxw hyh h1 h2 h3 h4
    have := hclip px py hon hxw hyh h1 h2 h3 h4
    omega
  rw [if_neg hempty]
  cases hdirty : s.dirty with
  | none =>
      apply Marks.of_dirty
      · rintro px py ⟨r, hr, -⟩
        rw [hdirty] at hr
        cases hr
      · rintro px py hon ⟨hxw, hyh, h1, h2, h3, h4⟩
        exact ⟨_, rfl, hclip px py hon hxw hyh h1 h2 h3 h4⟩
  | some d =>
      have hunion := WmRect.union_spec d ⟨x0, y0, x1, y1⟩
      simp only at hunion
      apply Marks.of_dirty
      · rintro px py ⟨r, hr, hin⟩
        rw [hdirty] at hr
        cases hr
        refine ⟨_, rfl, ?_⟩
        omega
      · rintro px py hon ⟨hxw, hyh, h1, h2, h3, h4⟩
        have := hclip px py hon hxw hyh h1 h2 h3 h4
        refine ⟨_, rfl, ?_⟩
        omega

/-- The window's box, and the margin marked around it, have `int` edges. -/
structure WmWindow.BoxOk (w : WmWindow) : Prop where
  left : -2 ^ 31 + 4 ≤ w.x ∧ w.x < 2 ^ 31
  right : w.x + w.w + 4 < 2 ^ 31
  width : -2 ^ 31 ≤ w.w ∧ w.w + 8 < 2 ^ 31
  across : -2 ^ 31 ≤ w.x + w.w
  top : -2 ^ 31 + 4 ≤ w.y ∧ w.y < 2 ^ 31
  bottom : w.y + w.h + 4 < 2 ^ 31
  height : -2 ^ 31 ≤ w.h ∧ w.h + 8 < 2 ^ 31
  down : -2 ^ 31 ≤ w.y + w.h

/-- The window's box contains the point. -/
def WmWindow.Covers (w : WmWindow) (x y : Int) : Prop :=
  w.x ≤ x ∧ x < w.x + w.w ∧ w.y ≤ y ∧ y < w.y + w.h

theorem wmMarkDirtyWindow_keeps (win : Option Slot) (s : Wm) :
    Marks s (wmMarkDirtyWindow win s) Nowhere := by
  cases win with
  | none => exact Marks.refl s
  | some i =>
      simp only [wmMarkDirtyWindow]
      by_cases hused : (s.windows i).used
      · rw [if_pos hused]
        exact (wmMarkDirtyRect_marks ..).mono fun _ _ h => h.elim
      · rw [if_neg hused]
        exact Marks.refl s

theorem wmMarkDirtyWindow_marks {i : Slot} {s : Wm} (hused : (s.windows i).used)
    (hbox : (s.windows i).BoxOk) :
    Marks s (wmMarkDirtyWindow (some i) s) (s.windows i).Covers := by
  obtain ⟨hleft, hright, hwidth, hacross, htop, hbottom, hheight, hdown⟩ := hbox
  simp only [wmMarkDirtyWindow, if_pos hused]
  rw [wmMarkDirtyWindowBox, s32_eq (by omega) (by omega), s32_eq (by omega) (by omega),
    s32_eq (by omega) (by omega), s32_eq (by omega) (by omega)]
  apply (wmMarkDirtyRect_marks _ _ _ _ s).mono
  intro x y hcovers
  unfold WmWindow.Covers at hcovers
  rw [s32_eq (by omega) (by omega), s32_eq (by omega) (by omega)]
  omega

theorem wmMarkDirtyTaskbar_keeps (s : Wm) : Marks s (wmMarkDirtyTaskbar s) Nowhere :=
  (wmMarkDirtyRect_marks ..).mono fun _ _ h => h.elim

/-- The whole screen, when the rectangle so far was on it. -/
theorem wmMarkDirtyFull_inDirty (s : Wm) {x y : Int} (hon : s.OnScreen x y) :
    (wmMarkDirtyFull s).InDirty x y :=
  ⟨_, rfl, hon⟩

/-! ## Events -/

theorem WmWindow.queueEvent_look (w : WmWindow) (type windowId a b c d : UInt32) (tick : UInt64) :
    (w.queueEvent type windowId a b c d tick).1.look = w.look := by
  unfold WmWindow.queueEvent
  simp only
  split_ifs <;> rfl

theorem setWindow_look {s : Wm} {i : Slot} {w : WmWindow} (h : w.look = (s.windows i).look)
    (j : Slot) : ((s.setWindow i w).windows j).look = (s.windows j).look := by
  change (Function.update s.windows i w j).look = _
  by_cases hij : j = i
  · subst hij
    rw [Function.update_self, h]
  · rw [Function.update_of_ne hij]

/-- Only event fields change. -/
theorem Marks.of_look {s : Wm} {i : Slot} {w : WmWindow} (h : w.look = (s.windows i).look)
    (tick : UInt64) : Marks s { s.setWindow i w with eventTick := tick } Nowhere :=
  ⟨setWindow_look h, rfl, fun _ _ h => h, fun _ _ _ h => h.elim⟩

theorem wmQueueEvent_keeps (win : Option Slot) (type windowId a b c d : UInt32) (s : Wm) :
    Marks s (wmQueueEvent win type windowId a b c d s) Nowhere := by
  cases win with
  | none => exact Marks.refl s
  | some i =>
      simp only [wmQueueEvent]
      by_cases hused : (s.windows i).used
      · rw [if_pos hused]
        exact Marks.of_look ((s.windows i).queueEvent_look ..) _
      · rw [if_neg hused]
        exact Marks.refl s

theorem wmQueueFocus_keeps (type : UInt32) (win : Option Slot) (s : Wm) :
    Marks s (wmQueueFocus type win s) Nowhere := by
  cases win with
  | none => exact Marks.refl s
  | some i =>
      rw [wmQueueFocus]
      exact wmQueueEvent_keeps ..

theorem wmPollEvent_keeps (id : Int) (s : Wm) : Marks s (wmPollEvent id s).2 Nowhere := by
  unfold wmPollEvent
  cases wmFind s id with
  | none => exact Marks.refl s
  | some i =>
      by_cases hempty : (s.windows i).evHead = (s.windows i).evTail
      · simp only [if_pos hempty]
        exact Marks.refl s
      · simp only [if_neg hempty]
        let w := s.windows i
        exact @Marks.of_look s i { w with evHead := (w.evHead + 1) % wmEventRingSize } rfl
          s.eventTick

/-! ## Focus -/

/-- The window in slot `i` is in use, marking it is exact, and it contains the point. -/
def Wm.Boxed (s : Wm) (i : Slot) (x y : Int) : Prop :=
  (s.windows i).used ∧ (s.windows i).BoxOk ∧ (s.windows i).Covers x y

theorem WmWindow.BoxOk.congr {v w : WmWindow} (hbox : w.BoxOk)
    (h : v.x = w.x ∧ v.y = w.y ∧ v.w = w.w ∧ v.h = w.h) : v.BoxOk := by
  obtain ⟨hx, hy, hw, hh⟩ := h
  obtain ⟨hleft, hright, hwidth, hacross, htop, hbottom, hheight, hdown⟩ := hbox
  rw [← hx] at hleft hright hacross
  rw [← hw] at hright hwidth hacross
  rw [← hy] at htop hbottom hdown
  rw [← hh] at hbottom hheight hdown
  exact ⟨hleft, hright, hwidth, hacross, htop, hbottom, hheight, hdown⟩

theorem WmWindow.BoxOk.of_look {v w : WmWindow} (h : v.look = w.look) (hbox : w.BoxOk) :
    v.BoxOk := by
  have hpred := WmWindow.eq_of_look (fun w => (w.x, w.y, w.w, w.h)) (fun _ => rfl) h
  simp only [Prod.mk.injEq] at hpred
  exact hbox.congr hpred

theorem Wm.Boxed.of_look {s t : Wm} {i : Slot} (h : (t.windows i).look = (s.windows i).look)
    {x y : Int} (hin : s.Boxed i x y) : t.Boxed i x y := by
  have hpred := WmWindow.eq_of_look (fun w => (w.used, w.x, w.y, w.w, w.h)) (fun _ => rfl) h
  simp only [Prod.mk.injEq] at hpred
  obtain ⟨hused, hx, hy, hw, hh⟩ := hpred
  obtain ⟨huse, hbox, hcovers⟩ := hin
  refine ⟨hused ▸ huse, hbox.of_look h, ?_⟩
  unfold WmWindow.Covers at *
  rw [hx, hy, hw, hh]
  exact hcovers

/-- Marking covers the window that is named, if there is one. -/
theorem wmMarkDirtyWindow_boxed (win : Option Slot) (s : Wm) :
    Marks s (wmMarkDirtyWindow win s) fun x y => ∃ i, win = some i ∧ s.Boxed i x y := by
  refine ⟨(wmMarkDirtyWindow_keeps win s).look, (wmMarkDirtyWindow_keeps win s).rest,
    (wmMarkDirtyWindow_keeps win s).keeps, ?_⟩
  rintro x y hon ⟨i, rfl, hused, hbox, hcovers⟩
  exact (wmMarkDirtyWindow_marks hused hbox).covers x y hon hcovers

/-- Either nothing changes, or the focus moves and both windows are marked. -/
theorem wmSetFocusInternal_spec (id : Int) (s : Wm) :
    ((wmSetFocusInternal id s).2 = s ∧
      (s.focusId = id ∨ (id > 0 ∧ ∀ i, wmFind s id = some i →
        (s.windows i).focusable = false ∨ (s.windows i).visible = false))) ∨
    (s.focusId ≠ id ∧ Marks { s with focusId := id } (wmSetFocusInternal id s).2 fun x y =>
      ∃ i, (wmFind s s.focusId = some i ∨ wmFind s id = some i) ∧ s.Boxed i x y) := by
  unfold wmSetFocusInternal
  by_cases hsame : s.focusId = id
  · rw [if_pos hsame]
    exact Or.inl ⟨rfl, Or.inl hsame⟩
  rw [if_neg hsame]
  set oldw := wmFind s s.focusId
  set neww := wmFind s id with hneww
  simp only
  split_ifs with hrefused
  · refine Or.inl ⟨rfl, Or.inr ⟨hrefused.1, ?_⟩⟩
    intro i hi
    have hnot := hrefused.2
    rw [hi] at hnot
    simpa using hnot
  · refine Or.inr ⟨hsame, ?_⟩
    have hquiet := (((wmQueueFocus_keeps wmEvFocusOut oldw { s with focusId := id }).trans
      (wmQueueFocus_keeps wmEvFocusIn neww _)).trans (wmMarkDirtyTaskbar_keeps _))
    have hold := hquiet.trans (wmMarkDirtyWindow_boxed oldw _)
    apply (hold.trans (wmMarkDirtyWindow_boxed neww _)).mono
    rintro x y ⟨i, hi, hboxed⟩
    cases hi with
    | inl hi =>
        exact Or.inl (Or.inr ⟨i, hi, Wm.Boxed.of_look (hquiet.look i) hboxed⟩)
    | inr hi =>
        exact Or.inr ⟨i, hi, Wm.Boxed.of_look (hold.look i) hboxed⟩

/-! ## Finding a window -/

theorem wmFind_some {s : Wm} {id : Int} {i : Slot} (h : wmFind s id = some i) :
    (s.windows i).used ∧ (s.windows i).id = id := by
  have hfound := List.find?_some h
  rw [Bool.and_eq_true, decide_eq_true_iff] at hfound
  exact hfound

theorem wmFind_none {s : Wm} {id : Int} (h : wmFind s id = none) (i : Slot)
    (hused : (s.windows i).used) : (s.windows i).id ≠ id := by
  intro hid
  have hnot := List.find?_eq_none.mp h i (List.mem_finRange i)
  rw [Bool.and_eq_true, decide_eq_true_iff] at hnot
  exact hnot ⟨hused, hid⟩

end Sugimotos.Gui
