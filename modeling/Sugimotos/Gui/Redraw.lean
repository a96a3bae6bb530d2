/-
# Drawing what is dirty draws everything

Every point of the screen is to be drawn again or already has the colour of a full
redraw.  A call keeps this when the points it marks are all that it changes.  Two calls
change more: raising the window that already has the focus, and taking a window's image
away, mark nothing.
-/

import Sugimotos.Gui.Look

namespace Sugimotos.Gui

open Sugimotos.Math

/-- How windows are numbered and placed. -/
structure Wm.Placed (s : Wm) : Prop where
  ready : s.gpuReady = true
  running : s.stopped = false
  screen : 0 < s.screenW ∧ s.screenW < 2 ^ 31 ∧ s.screenH < 2 ^ 31
  counters : 0 < s.nextId ∧ 0 < s.nextZ
  boxes : ∀ i, (s.windows i).used → (s.windows i).BoxOk
  shown : ∀ i, (s.windows i).used → (s.windows i).visible ∧ (s.windows i).focusable
  ids : ∀ i j, (s.windows i).used → (s.windows j).used →
    (s.windows i).id = (s.windows j).id → i = j
  idRange : ∀ i, (s.windows i).used → 0 < (s.windows i).id ∧ (s.windows i).id < s.nextId
  stacked : s.Stacked
  zRange : ∀ i, (s.windows i).used → (s.windows i).z < s.nextZ

/-- A point of the screen is to be drawn again or has its colour. -/
def Wm.Fresh (s : Wm) : Prop :=
  ∀ q : Nat, (q : Int) / s.screenW < s.screenH → ¬ s.InDirty (q % s.screenW) (q / s.screenW) →
    s.Shows (q % s.screenW) (q / s.screenW) (s.fb q)

structure RedrawInv (s : Wm) : Prop where
  placed : s.Placed
  images : WmImagesInv s
  fresh : s.Fresh

theorem RedrawInv.drawable {s : Wm} (hplaced : s.Placed) (himages : WmImagesInv s) : s.Drawable :=
  ⟨hplaced.screen.1, hplaced.screen.2, hplaced.boxes, hplaced.stacked, himages⟩

/-! ## Points that stay as they are -/

/-- The point keeps its colour from `s` to `t`. -/
def Still (s t : Wm) (x y : Int) : Prop := ∀ c, s.Shows x y c → t.Shows x y c

theorem Still.trans {s t u : Wm} {x y : Int} (h : Still s t x y) (h' : Still t u x y) :
    Still s u x y :=
  fun c hc => h' c (h c hc)

/-- The same cursor, and the same windows at the point with their heights and colours. -/
theorem Still.of_seen {s t : Wm} {x y : Int}
    (hcursor : t.cursorX = s.cursorX ∧ t.cursorY = s.cursorY)
    (hseen : ∀ i, t.Seen i x y ↔ s.Seen i x y)
    (hsame : ∀ i, s.Seen i x y → (t.windows i).z = (s.windows i).z ∧
      t.windowColor (t.windows i) x y = s.windowColor (s.windows i) x y) : Still s t x y := by
  intro c hc
  apply hc.transfer
  · unfold Wm.UnderCursor
    rw [hcursor.1, hcursor.2]
  · intro i hi
    refine ⟨⟨(hseen i).mpr hi.1, ?_⟩, (hsame i hi.1).2⟩
    intro j hj
    rw [hseen] at hj
    rw [(hsame j hj).1, (hsame i hi.1).1]
    exact hi.2 j hj
  · intro hnone i hi
    exact hnone i ((hseen i).mp hi)

theorem seen_of_look {s t : Wm} {i : Slot} (h : (t.windows i).look = (s.windows i).look)
    (x y : Int) : t.Seen i x y ↔ s.Seen i x y := by
  have hpred := WmWindow.eq_of_look (fun w => (w.used, w.visible, w.x, w.y, w.w, w.h))
    (fun _ => rfl) h
  simp only [Prod.mk.injEq] at hpred
  obtain ⟨hused, hvisible, hx, hy, hw, hh⟩ := hpred
  unfold Wm.Seen WmWindow.Covers
  rw [hused, hvisible, hx, hy, hw, hh]

/-- The colour depends on the look, the focus and the image. -/
theorem windowColor_of_look {s t : Wm} {v w : WmWindow} (h : v.look = w.look)
    (hfocus : t.focusId = s.focusId) (himages : t.images = s.images) (x y : Int) :
    t.windowColor v x y = s.windowColor w x y := by
  have hlook : t.windowColor v x y = t.windowColor w x y :=
    WmWindow.eq_of_look (fun w => t.windowColor w x y) (fun _ => rfl) h
  rw [hlook]
  unfold Wm.windowColor Wm.imageWord wmColor
  rw [hfocus, himages]

theorem Marks.still {s t : Wm} {R : Int → Int → Prop} (h : Marks s t R) (x y : Int) :
    Still s t x y := by
  apply Still.of_seen
  · rw [h.rest]
    exact ⟨rfl, rfl⟩
  · intro i
    exact seen_of_look (h.look i) x y
  · intro i _
    refine ⟨WmWindow.eq_of_look WmWindow.z (fun _ => rfl) (h.look i), ?_⟩
    apply windowColor_of_look (h.look i)
    · rw [h.rest]
    · rw [h.rest]

/-- Only window `i` changes, and it is not seen at the point. -/
theorem Still.of_unseen {s t : Wm} {i : Slot} {x y : Int}
    (hcursor : t.cursorX = s.cursorX ∧ t.cursorY = s.cursorY)
    (hother : ∀ j, j ≠ i → t.windows j = s.windows j)
    (hcolor : ∀ j, j ≠ i → s.Seen j x y →
      t.windowColor (s.windows j) x y = s.windowColor (s.windows j) x y)
    (hs : ¬ s.Seen i x y) (ht : ¬ t.Seen i x y) : Still s t x y := by
  apply Still.of_seen hcursor
  · intro j
    by_cases hj : j = i
    · rw [hj]
      exact iff_of_false ht hs
    · unfold Wm.Seen
      rw [hother j hj]
  · intro j hseen
    have hj : j ≠ i := fun heq => hs (heq ▸ hseen)
    rw [hother j hj]
    exact ⟨rfl, hcolor j hj hseen⟩

/-- Freshness goes on when the points that are not marked keep their colour. -/
theorem Wm.Fresh.of_still {s t : Wm} (h : s.Fresh)
    (hscreen : t.screenW = s.screenW ∧ t.screenH = s.screenH) (hfb : t.fb = s.fb)
    (hwidth : 0 < s.screenW) (hkeeps : ∀ x y, s.InDirty x y → t.InDirty x y)
    (hstill : ∀ x y, s.OnScreen x y → ¬ t.InDirty x y → Still s t x y) : t.Fresh := by
  intro q hrow hclean
  rw [hscreen.1, hscreen.2] at *
  rw [hfb]
  have hon : s.OnScreen (q % s.screenW) (q / s.screenW) :=
    ⟨Int.emod_nonneg _ hwidth.ne', Int.emod_lt_of_pos _ hwidth,
      Int.ediv_nonneg (by omega) hwidth.le, hrow⟩
  exact hstill _ _ hon hclean _ (h q hrow (fun hdirty => hclean (hkeeps _ _ hdirty)))

/-! ## Placement -/

/-- Placement is about numbers, boxes and heights. -/
theorem Wm.Placed.of_marks {s t : Wm} {R : Int → Int → Prop} (h : s.Placed) (hmarks : Marks s t R) :
    t.Placed := by
  have hpred : ∀ i, ((t.windows i).used, (t.windows i).visible, (t.windows i).focusable,
      (t.windows i).id, (t.windows i).z) = ((s.windows i).used, (s.windows i).visible,
      (s.windows i).focusable, (s.windows i).id, (s.windows i).z) := fun i =>
    WmWindow.eq_of_look (fun w => (w.used, w.visible, w.focusable, w.id, w.z)) (fun _ => rfl)
      (hmarks.look i)
  simp only [Prod.mk.injEq] at hpred
  have hrest : t.gpuReady = s.gpuReady ∧ t.stopped = s.stopped ∧ t.screenW = s.screenW ∧
      t.screenH = s.screenH ∧ t.nextId = s.nextId ∧ t.nextZ = s.nextZ := by
    rw [hmarks.rest]
    exact ⟨rfl, rfl, rfl, rfl, rfl, rfl⟩
  obtain ⟨hready, hstopped, hwidth, hheight, hnextId, hnextZ⟩ := hrest
  constructor
  · rw [hready]
    exact h.ready
  · rw [hstopped]
    exact h.running
  · rw [hwidth, hheight]
    exact h.screen
  · rw [hnextId, hnextZ]
    exact h.counters
  · intro i hused
    rw [(hpred i).1] at hused
    exact (h.boxes i hused).of_look (hmarks.look i)
  · intro i hused
    rw [(hpred i).1] at hused
    rw [(hpred i).2.1, (hpred i).2.2.1]
    exact h.shown i hused
  · intro i j hi hj hid
    rw [(hpred i).1] at hi
    rw [(hpred j).1] at hj
    rw [(hpred i).2.2.2.1, (hpred j).2.2.2.1] at hid
    exact h.ids i j hi hj hid
  · intro i hused
    rw [(hpred i).1] at hused
    rw [(hpred i).2.2.2.1, hnextId]
    exact h.idRange i hused
  · intro i j hi hj hz
    rw [(hpred i).1] at hi
    rw [(hpred j).1] at hj
    rw [(hpred i).2.2.2.2, (hpred j).2.2.2.2] at hz
    exact h.stacked i j hi hj hz
  · intro i hused
    rw [(hpred i).1] at hused
    rw [(hpred i).2.2.2.2, hnextZ]
    exact h.zRange i hused

/-- The screen, its contents and the cursor are the same. -/
structure SameScreen (s t : Wm) : Prop where
  ready : t.gpuReady = s.gpuReady
  stopped : t.stopped = s.stopped
  size : t.screenW = s.screenW ∧ t.screenH = s.screenH
  cursor : t.cursorX = s.cursorX ∧ t.cursorY = s.cursorY
  fb : t.fb = s.fb

/-- One window is replaced, and the counters do not go down. -/
theorem Wm.Placed.replace {s t : Wm} (h : s.Placed) (hscreen : SameScreen s t) (i : Slot)
    (hother : ∀ j, j ≠ i → t.windows j = s.windows j)
    (hcounters : s.nextId ≤ t.nextId ∧ s.nextZ ≤ t.nextZ)
    (hbox : (t.windows i).used →
      (t.windows i).BoxOk ∧ (t.windows i).visible ∧ (t.windows i).focusable)
    (hid : (t.windows i).used → (0 < (t.windows i).id ∧ (t.windows i).id < t.nextId) ∧
      ∀ j, j ≠ i → (s.windows j).used → (s.windows j).id ≠ (t.windows i).id)
    (hz : (t.windows i).used → (t.windows i).z < t.nextZ ∧
      ∀ j, j ≠ i → (s.windows j).used → (s.windows j).z ≠ (t.windows i).z) : t.Placed := by
  constructor
  · rw [hscreen.ready]
    exact h.ready
  · rw [hscreen.stopped]
    exact h.running
  · rw [hscreen.size.1, hscreen.size.2]
    exact h.screen
  · have hpos := h.counters
    omega
  · intro j hj
    by_cases hji : j = i
    · subst hji
      exact (hbox hj).1
    · rw [hother j hji] at *
      exact h.boxes j hj
  · intro j hj
    by_cases hji : j = i
    · subst hji
      exact (hbox hj).2
    · rw [hother j hji] at *
      exact h.shown j hj
  · intro j k hj hk heq
    by_cases hji : j = i
    · by_cases hki : k = i
      · rw [hji, hki]
      · subst hji
        rw [hother k hki] at hk heq
        exact absurd heq.symm ((hid hj).2 k hki hk)
    · by_cases hki : k = i
      · subst hki
        rw [hother j hji] at hj heq
        exact absurd heq ((hid hk).2 j hji hj)
      · rw [hother j hji] at hj heq
        rw [hother k hki] at hk heq
        exact h.ids j k hj hk heq
  · intro j hj
    by_cases hji : j = i
    · subst hji
      exact (hid hj).1
    · rw [hother j hji] at *
      have hrange := h.idRange j hj
      omega
  · intro j k hj hk heq
    by_cases hji : j = i
    · by_cases hki : k = i
      · rw [hji, hki]
      · subst hji
        rw [hother k hki] at hk heq
        exact absurd heq.symm ((hz hj).2 k hki hk)
    · by_cases hki : k = i
      · subst hki
        rw [hother j hji] at hj heq
        exact absurd heq ((hz hk).2 j hji hj)
      · rw [hother j hji] at hj heq
        rw [hother k hki] at hk heq
        exact h.stacked j k hj hk heq
  · intro j hj
    by_cases hji : j = i
    · subst hji
      exact (hz hj).1
    · rw [hother j hji] at *
      have hrange := h.zRange j hj
      omega

/-- A window keeps its number and its height, and its box stays in order. -/
theorem Wm.Placed.edit {s t : Wm} (h : s.Placed) (hscreen : SameScreen s t) (i : Slot)
    (hother : ∀ j, j ≠ i → t.windows j = s.windows j)
    (hcounters : t.nextId = s.nextId ∧ t.nextZ = s.nextZ)
    (hsame : (t.windows i).used → (s.windows i).used ∧ (t.windows i).BoxOk ∧
      (t.windows i).visible = (s.windows i).visible ∧
      (t.windows i).focusable = (s.windows i).focusable ∧
      (t.windows i).id = (s.windows i).id ∧ (t.windows i).z = (s.windows i).z) : t.Placed := by
  apply h.replace hscreen i hother ⟨hcounters.1.ge, hcounters.2.ge⟩
  · intro hused
    obtain ⟨huse, hbox, hvisible, hfocusable, -⟩ := hsame hused
    rw [hvisible, hfocusable]
    exact ⟨hbox, h.shown i huse⟩
  · intro hused
    obtain ⟨huse, -, -, -, hid, -⟩ := hsame hused
    rw [hid, hcounters.1]
    exact ⟨h.idRange i huse, fun j hji hj heq => hji (h.ids j i hj huse heq)⟩
  · intro hused
    obtain ⟨huse, -, -, -, -, hz⟩ := hsame hused
    rw [hz, hcounters.2]
    exact ⟨h.zRange i huse, fun j hji hj heq => hji (h.stacked j i hj huse heq)⟩

theorem modify_self (s : Wm) (i : Slot) (f : WmWindow → WmWindow) :
    (s.modify i f).windows i = f (s.windows i) :=
  Function.update_self ..

theorem modify_other (s : Wm) {i j : Slot} (f : WmWindow → WmWindow) (hj : j ≠ i) :
    (s.modify i f).windows j = s.windows j :=
  Function.update_of_ne hj ..

theorem modify_sameScreen (s : Wm) (i : Slot) (f : WmWindow → WmWindow) :
    SameScreen s (s.modify i f) :=
  ⟨rfl, rfl, ⟨rfl, rfl⟩, ⟨rfl, rfl⟩, rfl⟩

theorem Still.modify {s : Wm} {i : Slot} {f : WmWindow → WmWindow} {x y : Int}
    (hs : ¬ s.Seen i x y) (ht : ¬ (s.modify i f).Seen i x y) : Still s (s.modify i f) x y :=
  Still.of_unseen (modify_sameScreen s i f).cursor (fun _ hj => modify_other s f hj)
    (fun _ _ _ => rfl) hs ht

theorem Marks.sameScreen {s t : Wm} {R : Int → Int → Prop} (h : Marks s t R) : SameScreen s t := by
  rw [h.rest]
  exact ⟨rfl, rfl, ⟨rfl, rfl⟩, ⟨rfl, rfl⟩, rfl⟩

/-! ## The calls -/

/-- A window that is not seen where nothing was marked. -/
theorem not_seen {s t : Wm} {i : Slot} {x y : Int} (hbox : (s.windows i).used → (s.windows i).BoxOk)
    {R : Int → Int → Prop} (hmarks : Marks s t R) (hR : ∀ x y, s.Boxed i x y → R x y)
    (hon : s.OnScreen x y) (hclean : ¬ t.InDirty x y) : ¬ s.Seen i x y := by
  intro hseen
  exact hclean (hmarks.covers x y hon (hR x y ⟨hseen.1, hbox hseen.1, hseen.2.2⟩))

/-- The window is marked, changed in its box or text, and marked again. -/
theorem RedrawInv.change {s : Wm} (h : RedrawInv s) {i : Slot}
    {f : WmWindow → WmWindow}
    (hf : ∀ w, (f w).used = w.used ∧ (f w).visible = w.visible ∧ (f w).focusable = w.focusable ∧
      (f w).id = w.id ∧ (f w).z = w.z)
    (hbox : ∀ w, w.look = (s.windows i).look → (f w).BoxOk)
    (himages : WmImagesInv
      (wmMarkDirtyWindow (some i) ((wmMarkDirtyWindow (some i) s).modify i f))) :
    RedrawInv (wmMarkDirtyWindow (some i) ((wmMarkDirtyWindow (some i) s).modify i f)) := by
  have hbefore := wmMarkDirtyWindow_boxed (some i) s
  set r := wmMarkDirtyWindow (some i) s
  have hplaced := h.placed.of_marks hbefore
  have hself := modify_self r i f
  have hedited : (r.modify i f).Placed := by
    apply hplaced.edit (modify_sameScreen r i f) i (fun j hj => modify_other r f hj) ⟨rfl, rfl⟩
    intro huse
    rw [hself] at *
    obtain ⟨hu, hv, hfo, hid, hz⟩ := hf (r.windows i)
    exact ⟨hu ▸ huse, hbox _ (hbefore.look i), hv, hfo, hid, hz⟩
  have hafter := wmMarkDirtyWindow_boxed (some i) (r.modify i f)
  refine ⟨hedited.of_marks hafter, himages, ?_⟩
  apply h.fresh.of_still (t := wmMarkDirtyWindow (some i) (r.modify i f))
  · exact ⟨hafter.sameScreen.size.1.trans hbefore.sameScreen.size.1,
      hafter.sameScreen.size.2.trans hbefore.sameScreen.size.2⟩
  · exact hafter.sameScreen.fb.trans hbefore.sameScreen.fb
  · exact h.placed.screen.1
  · intro x y hin
    exact hafter.keeps x y (hbefore.keeps x y hin)
  · intro x y hon hclean
    have hclean' : ¬ r.InDirty x y := fun hin => hclean (hafter.keeps x y hin)
    have hold : ¬ s.Seen i x y :=
      not_seen (h.placed.boxes i) hbefore (fun _ _ hin => ⟨i, rfl, hin⟩) hon hclean'
    have hnew : ¬ (r.modify i f).Seen i x y :=
      not_seen (hedited.boxes i) hafter (fun _ _ hin => ⟨i, rfl, hin⟩) (hbefore.onScreen.mpr hon)
        hclean
    rw [← seen_of_look (hbefore.look i)] at hold
    exact ((hbefore.still x y).trans (Still.modify hold hnew)).trans (hafter.still x y)

/-- The box that a call gives a window. -/
def boxWindow (x y w h : Int) : WmWindow := { WmWindow.zero with x := x, y := y, w := w, h := h }

/-- Either every slot is taken, or a free one gets the window, which is marked. -/
theorem wmCreate_spec (title : Option (List UInt8)) (w h : Int) (s : Wm) :
    (wmCreate title w h s).2 = s ∨ ∃ slot win, ¬ (s.windows slot).used ∧
      (win.used ∧ win.visible ∧ win.focusable ∧ win.id = s.nextId ∧ win.z = s.nextZ ∧
        win.x = wmCreateX s s.nextId w ∧ win.y = wmCreateY s s.nextId h ∧ win.w = w ∧ win.h = h ∧
        win.imagePixels = none) ∧
      (wmCreate title w h s).2 = wmMarkDirtyTaskbar (wmMarkDirtyWindow (some slot)
        { s.setWindow slot win with nextId := s32 (s.nextId + 1), nextZ := s32 (s.nextZ + 1) }) := by
  unfold wmCreate
  cases hfind : (List.finRange wmMaxWindows).find? fun i => !(s.windows i).used with
  | none => exact Or.inl rfl
  | some slot =>
      have hfree := List.find?_some hfind
      rw [Bool.not_eq_true'] at hfree
      refine Or.inr ⟨slot, _, ?_, ?_, rfl⟩
      · rw [hfree]
        exact Bool.false_ne_true
      · exact ⟨rfl, rfl, rfl, rfl, rfl, rfl, rfl, rfl, rfl, rfl⟩

theorem RedrawInv.create {s : Wm} (h : RedrawInv s) {title : Option (List UInt8)} {w ht : Int}
    (hcounters : s.nextId + 1 < 2 ^ 31 ∧ s.nextZ + 1 < 2 ^ 31)
    (hbox : (boxWindow (wmCreateX s s.nextId w) (wmCreateY s s.nextId ht) w ht).BoxOk) :
    RedrawInv (wmCreate title w ht s).2 := by
  have himages := h.images.create title w ht
  cases wmCreate_spec title w ht s with
  | inl hfull =>
      rw [hfull]
      exact h
  | inr hnew =>
      obtain ⟨slot, win, hfree, hwin, heq⟩ := hnew
      obtain ⟨hused, hvisible, hfocusable, hid, hz, hx, hy, hw, hh, -⟩ := hwin
      rw [heq] at himages ⊢
      have hpos := h.placed.counters
      have hnextId : s32 (s.nextId + 1) = s.nextId + 1 := s32_eq (by omega) (by omega)
      have hnextZ : s32 (s.nextZ + 1) = s.nextZ + 1 := s32_eq (by omega) (by omega)
      set t : Wm := { s.setWindow slot win with
        nextId := s32 (s.nextId + 1), nextZ := s32 (s.nextZ + 1) } with ht'
      have hself : t.windows slot = win := Function.update_self ..
      have hother : ∀ j, j ≠ slot → t.windows j = s.windows j :=
        fun j hj => Function.update_of_ne hj ..
      have hcount : t.nextId = s.nextId + 1 ∧ t.nextZ = s.nextZ + 1 := ⟨hnextId, hnextZ⟩
      have hscreen : SameScreen s t := ⟨rfl, rfl, ⟨rfl, rfl⟩, ⟨rfl, rfl⟩, rfl⟩
      have hplaced : t.Placed := by
        apply h.placed.replace hscreen slot hother (by omega)
        · intro _
          rw [hself]
          exact ⟨hbox.congr ⟨hx, hy, hw, hh⟩, hvisible, hfocusable⟩
        · intro _
          rw [hself, hid]
          refine ⟨by omega, ?_⟩
          intro j _ hj
          have hrange := h.placed.idRange j hj
          omega
        · intro _
          rw [hself, hz]
          refine ⟨by omega, ?_⟩
          intro j _ hj
          have hrange := h.placed.zRange j hj
          omega
      have hmarks := (wmMarkDirtyWindow_boxed (some slot) t).trans (wmMarkDirtyTaskbar_keeps _)
      refine ⟨hplaced.of_marks hmarks, himages, ?_⟩
      apply h.fresh.of_still hmarks.sameScreen.size hmarks.sameScreen.fb h.placed.screen.1
        hmarks.keeps
      intro x y hon hclean
      have hs : ¬ s.Seen slot x y := fun hseen => hfree hseen.1
      have hnot : ¬ t.Seen slot x y :=
        not_seen (hplaced.boxes slot) hmarks (fun _ _ hin => Or.inl ⟨slot, rfl, hin⟩) hon hclean
      have hedit : Still s t x y :=
        Still.of_unseen ⟨rfl, rfl⟩ hother (fun _ _ _ => rfl) hs hnot
      exact hedit.trans (hmarks.still x y)

theorem RedrawInv.setText {s : Wm} (h : RedrawInv s) (id : Int) (text : List UInt8) :
    RedrawInv (wmSetText id text s).2 := by
  have himages := h.images.setText id text
  unfold wmSetText at *
  cases hfind : wmFind s id with
  | none => exact h
  | some i =>
      simp only [hfind] at himages ⊢
      obtain ⟨hused, -⟩ := wmFind_some hfind
      set f : WmWindow → WmWindow := fun win => win.storeText (strncpy text wmTextMax)
      have hself := modify_self s i f
      have hplaced : (s.modify i f).Placed := by
        apply h.placed.edit (modify_sameScreen s i f) i (fun j hj => modify_other s f hj) ⟨rfl, rfl⟩
        intro _
        rw [hself]
        exact ⟨hused, (h.placed.boxes i hused).congr ⟨rfl, rfl, rfl, rfl⟩, rfl, rfl, rfl, rfl⟩
      have hmarks := wmMarkDirtyWindow_boxed (some i) (s.modify i f)
      refine ⟨hplaced.of_marks hmarks, himages, ?_⟩
      apply h.fresh.of_still hmarks.sameScreen.size hmarks.sameScreen.fb h.placed.screen.1
        hmarks.keeps
      intro x y hon hclean
      have hnew : ¬ (s.modify i f).Seen i x y :=
        not_seen (hplaced.boxes i) hmarks (fun _ _ hin => ⟨i, rfl, hin⟩) hon hclean
      have hold : ¬ s.Seen i x y := by
        intro hseen
        apply hnew
        unfold Wm.Seen
        rw [hself]
        exact hseen
      exact (Still.modify hold hnew).trans (hmarks.still x y)

/-! ## Focus -/

/-- The state in which `wm_focus` has raised the window. -/
def Wm.raised (s : Wm) (i : Slot) : Wm :=
  { s.modify i fun win => { win with z := s.nextZ } with nextZ := s32 (s.nextZ + 1) }

theorem wmFocus_some {s : Wm} {id : Int} {i : Slot} (h : wmFind s id = some i) :
    (wmFocus id s).2 = (wmSetFocusInternal id (s.raised i)).2 := by
  simp only [wmFocus, h]
  rfl

theorem raised_other (s : Wm) {i j : Slot} (hj : j ≠ i) :
    (s.raised i).windows j = s.windows j :=
  Function.update_of_ne hj ..

theorem raised_self (s : Wm) (i : Slot) :
    (s.raised i).windows i = { s.windows i with z := s.nextZ } :=
  Function.update_self ..

theorem raised_sameScreen (s : Wm) (i : Slot) : SameScreen s (s.raised i) :=
  ⟨rfl, rfl, ⟨rfl, rfl⟩, ⟨rfl, rfl⟩, rfl⟩

theorem Wm.Placed.raised {s : Wm} (h : s.Placed) (i : Slot) (hz : s.nextZ + 1 < 2 ^ 31) :
    (s.raised i).Placed ∧ (s.raised i).nextZ = s.nextZ + 1 := by
  have hpos := h.counters
  have hnextZ : (s.raised i).nextZ = s.nextZ + 1 := s32_eq (by omega) (by omega)
  refine ⟨?_, hnextZ⟩
  have hcounters : s.nextId ≤ (s.raised i).nextId ∧ s.nextZ ≤ (s.raised i).nextZ :=
    ⟨le_refl _, by omega⟩
  apply h.replace (raised_sameScreen s i) i (fun j hj => raised_other s hj) hcounters
  · intro hused
    rw [raised_self] at hused ⊢
    exact ⟨(h.boxes i hused).congr ⟨rfl, rfl, rfl, rfl⟩, h.shown i hused⟩
  · intro hused
    rw [raised_self] at hused ⊢
    exact ⟨h.idRange i hused, fun j hji hj heq => hji (h.ids j i hj hused heq)⟩
  · intro hused
    rw [raised_self, hnextZ]
    refine ⟨Int.lt_succ _, ?_⟩
    intro j _ hj
    exact (h.zRange j hj).ne

theorem Wm.Placed.focused {s : Wm} (h : s.Placed) (id : Int) :
    { s with focusId := id }.Placed :=
  ⟨h.ready, h.running, h.screen, h.counters, h.boxes, h.shown, h.ids, h.idRange, h.stacked,
    h.zRange⟩

theorem wmSetFocusInternal_placed {s : Wm} (h : s.Placed) (id : Int) :
    (wmSetFocusInternal id s).2.Placed ∧ (wmSetFocusInternal id s).2.nextZ = s.nextZ := by
  cases wmSetFocusInternal_spec id s with
  | inl hsame =>
      rw [hsame.1]
      exact ⟨h, rfl⟩
  | inr hmoved =>
      refine ⟨(h.focused id).of_marks hmoved.2, ?_⟩
      rw [hmoved.2.rest]

theorem wmFocus_placed {s : Wm} (h : s.Placed) (id : Int) (hz : s.nextZ + 1 < 2 ^ 31) :
    (wmFocus id s).2.Placed ∧ (wmFocus id s).2.nextZ ≤ s.nextZ + 1 := by
  cases hfind : wmFind s id with
  | none =>
      simp only [wmFocus, hfind]
      exact ⟨h, by omega⟩
  | some i =>
      obtain ⟨hraised, hnextZ⟩ := h.raised i hz
      obtain ⟨hplaced, hkept⟩ := wmSetFocusInternal_placed hraised id
      rw [wmFocus_some hfind]
      exact ⟨hplaced, by omega⟩

/-- No other window covers a clean point of the window `i` that is on the screen. -/
def Wm.Uncovered (s : Wm) (i : Slot) : Prop :=
  ∀ x y, s.OnScreen x y → ¬ s.InDirty x y → s.Seen i x y → s.Top i x y

/-- Raising a window changes nothing at a point where it is on top or not seen. -/
theorem raised_still {s : Wm} (h : s.Placed) {i : Slot} {x y : Int}
    (htop : s.Seen i x y → s.Top i x y) : Still s (s.raised i) x y := by
  have hseen : ∀ j, (s.raised i).Seen j x y ↔ s.Seen j x y := by
    intro j
    by_cases hj : j = i
    · rw [hj]
      unfold Wm.Seen
      rw [raised_self]
      rfl
    · unfold Wm.Seen
      rw [raised_other s hj]
  have hcursor : (s.raised i).UnderCursor x y ↔ s.UnderCursor x y := Iff.rfl
  intro c hc
  apply hc.transfer hcursor
  · intro j hj
    have hcolor : (s.raised i).windowColor ((s.raised i).windows j) x y =
        s.windowColor (s.windows j) x y := by
      by_cases hji : j = i
      · rw [hji, raised_self]
        rfl
      · rw [raised_other s hji]
        rfl
    refine ⟨⟨(hseen j).mpr hj.1, ?_⟩, hcolor⟩
    intro k hk
    rw [hseen] at hk
    by_cases hki : k = i
    · -- The raised window is seen here, so it is the one on top already.
      have hji : j = i := hj.unique h.stacked (htop (hki ▸ hk))
      rw [hki, hji]
    · rw [raised_other s hki]
      by_cases hji : j = i
      · rw [hji, raised_self]
        exact (h.zRange k hk.1).le
      · rw [raised_other s hji]
        exact hj.2 k hk
  · intro hnone j hj
    exact hnone j ((hseen j).mp hj)

/-- The colour of a window that neither has nor gets the focus. -/
theorem windowColor_refocus {s t : Wm} {w : WmWindow} (himages : t.images = s.images)
    (hs : w.id ≠ s.focusId) (ht : w.id ≠ t.focusId) (x y : Int) :
    t.windowColor w x y = s.windowColor w x y := by
  unfold Wm.windowColor Wm.imageWord wmColor
  rw [himages, if_neg hs, if_neg ht]

/-- The focus moves between windows that are not seen here. -/
theorem Still.refocus {s : Wm} {id x y : Int}
    (h : ∀ i, s.Seen i x y → (s.windows i).id ≠ s.focusId ∧ (s.windows i).id ≠ id) :
    Still s { s with focusId := id } x y := by
  have hcolor : ∀ i, s.Seen i x y → { s with focusId := id }.windowColor (s.windows i) x y =
      s.windowColor (s.windows i) x y :=
    fun i hi => @windowColor_refocus s { s with focusId := id } (s.windows i) rfl (h i hi).1
      (h i hi).2 x y
  exact @Still.of_seen s { s with focusId := id } x y ⟨rfl, rfl⟩ (fun _ => Iff.rfl)
    fun i hi => ⟨rfl, hcolor i hi⟩

theorem RedrawInv.focus {s : Wm} (h : RedrawInv s) {id : Int}
    (hok : ∀ i, wmFind s id = some i →
      s.nextZ + 1 < 2 ^ 31 ∧ (s.focusId = id → s.Uncovered i)) :
    RedrawInv (wmFocus id s).2 := by
  have himages := h.images.of_same (wmFocus_sameImages id s)
  cases hfind : wmFind s id with
  | none =>
      simp only [wmFocus, hfind]
      exact h
  | some i =>
      obtain ⟨hz, huncovered⟩ := hok i hfind
      have hplaced := (wmFocus_placed h.placed id hz).1
      obtain ⟨hraised, -⟩ := h.placed.raised i hz
      obtain ⟨hused, hid⟩ := wmFind_some hfind
      rw [wmFocus_some hfind] at himages hplaced ⊢
      refine ⟨hplaced, himages, ?_⟩
      -- The raised window is found, and it takes the focus.
      have hself : ((s.raised i).windows i).used ∧ ((s.raised i).windows i).id = id := by
        rw [raised_self]
        exact ⟨hused, hid⟩
      have hfound : ∃ k, wmFind (s.raised i) id = some k := by
        cases hk : wmFind (s.raised i) id with
        | none => exact absurd hself.2 (wmFind_none hk i hself.1)
        | some k => exact ⟨k, rfl⟩
      cases wmSetFocusInternal_spec id (s.raised i) with
      | inl hsame =>
          have hfocus : s.focusId = id := by
            cases hsame.2 with
            | inl heq => exact heq
            | inr hrefused =>
                obtain ⟨k, hk⟩ := hfound
                have hshown := hraised.shown k (wmFind_some hk).1
                cases hrefused.2 k hk with
                | inl hno =>
                    rw [hno] at hshown
                    exact absurd hshown.2 Bool.false_ne_true
                | inr hno =>
                    rw [hno] at hshown
                    exact absurd hshown.1 Bool.false_ne_true
          rw [hsame.1]
          have hkeeps : ∀ x y, s.InDirty x y → (s.raised i).InDirty x y := fun _ _ hin => hin
          apply h.fresh.of_still (raised_sameScreen s i).size (raised_sameScreen s i).fb
            h.placed.screen.1 hkeeps
          intro x y hon hclean
          exact raised_still h.placed (huncovered hfocus x y hon hclean)
      | inr hmoved =>
          obtain ⟨-, hmarks⟩ := hmoved
          apply h.fresh.of_still hmarks.sameScreen.size hmarks.sameScreen.fb h.placed.screen.1
            hmarks.keeps
          intro x y hon hclean
          have hunseen : ∀ k, (s.raised i).Seen k x y →
              ¬ (wmFind (s.raised i) s.focusId = some k ∨ wmFind (s.raised i) id = some k) := by
            intro k hk hfocused
            exact hclean (hmarks.covers x y hon
              ⟨k, hfocused, hk.1, hraised.boxes k hk.1, hk.2.2⟩)
          -- A seen window is neither the old nor the new one, as numbers are unique.
          have hids : ∀ k, (s.raised i).Seen k x y →
              ((s.raised i).windows k).id ≠ s.focusId ∧ ((s.raised i).windows k).id ≠ id := by
            intro k hk
            constructor
            · intro heq
              cases hold : wmFind (s.raised i) s.focusId with
              | none => exact wmFind_none hold k hk.1 heq
              | some m =>
                  have hm := wmFind_some hold
                  have hkm := hraised.ids k m hk.1 hm.1 (heq.trans hm.2.symm)
                  exact hunseen k hk (Or.inl (hkm ▸ hold))
            · intro heq
              obtain ⟨m, hm⟩ := hfound
              have hkm := hraised.ids k m hk.1 (wmFind_some hm).1
                (heq.trans (wmFind_some hm).2.symm)
              exact hunseen k hk (Or.inr (hkm ▸ hm))
          have hlift : Still s (s.raised i) x y := by
            apply raised_still h.placed
            intro hseen
            have hseen' : (s.raised i).Seen i x y := by
              unfold Wm.Seen at *
              rw [raised_self]
              exact hseen
            exact absurd hself.2 (hids i hseen').2
          exact (hlift.trans (Still.refocus hids)).trans (hmarks.still x y)

/-! ## Closing -/

theorem RedrawInv.close {s : Wm} (h : RedrawInv s) (id : Int) : RedrawInv (wmClose id s).2 := by
  have himages := h.images.close id
  unfold wmClose at *
  cases hfind : wmFind s id with
  | none => exact h
  | some i =>
      simp only [hfind] at himages ⊢
      obtain ⟨hused, hid⟩ := wmFind_some hfind
      have hbefore := wmMarkDirtyWindow_boxed (some i) s
      set r := wmMarkDirtyWindow (some i) s
      have hplaced := h.placed.of_marks hbefore
      obtain ⟨frees, heq⟩ := wmWindowFreeImage_eq i r
      rw [heq] at himages ⊢
      set closed : Wm := ({ r with frees := frees }.modify i WmWindow.withoutImage).modify i
        fun win => { win with used := false }
      have hself : (closed.windows i).used = false := by
        rw [modify_self]
      have hother : ∀ j, j ≠ i → closed.windows j = r.windows j := by
        intro j hj
        rw [modify_other _ _ hj, modify_other _ _ hj]
      have hscreen : SameScreen r closed := ⟨rfl, rfl, ⟨rfl, rfl⟩, ⟨rfl, rfl⟩, rfl⟩
      have hclosed : closed.Placed := by
        apply hplaced.edit hscreen i hother ⟨rfl, rfl⟩
        intro huse
        rw [hself] at huse
        cases huse
      have hkeeps : ∀ x y, r.InDirty x y → closed.InDirty x y := fun _ _ hin => hin
      have hrstill : ∀ x y, s.OnScreen x y → ¬ r.InDirty x y → Still s closed x y := by
        intro x y hon hclean
        have hold : ¬ s.Seen i x y :=
          not_seen (h.placed.boxes i) hbefore (fun _ _ hin => ⟨i, rfl, hin⟩) hon hclean
        rw [← seen_of_look (hbefore.look i)] at hold
        have hnot : ¬ closed.Seen i x y := by
          intro hseen
          have hu := hseen.1
          rw [hself] at hu
          cases hu
        have hedit : Still r closed x y :=
          Still.of_unseen ⟨rfl, rfl⟩ hother (fun _ _ _ => rfl) hold hnot
        exact (hbefore.still x y).trans hedit
      have hfresh : closed.Fresh :=
        h.fresh.of_still hbefore.sameScreen.size hbefore.sameScreen.fb h.placed.screen.1
          hbefore.keeps hrstill
      by_cases hfocus : closed.focusId = id
      · rw [if_pos hfocus] at himages ⊢
        have hmarks := wmMarkDirtyTaskbar_keeps { closed with focusId := 0 }
        refine ⟨(hclosed.focused 0).of_marks hmarks, himages, ?_⟩
        apply hfresh.of_still hmarks.sameScreen.size hmarks.sameScreen.fb hclosed.screen.1
          hmarks.keeps
        intro x y _ _
        -- No window that is left had the focus, and none is numbered zero.
        have hrefocus : Still closed { closed with focusId := 0 } x y := by
          apply Still.refocus
          intro j hseen
          have hj : j ≠ i := by
            intro heq
            have hu := hseen.1
            rw [heq, hself] at hu
            cases hu
          have hjr := hother j hj
          have hrange := hclosed.idRange j hseen.1
          refine ⟨?_, by omega⟩
          rw [hfocus, hjr]
          intro hjid
          have hju : (r.windows j).used := hjr ▸ hseen.1
          have hri : (r.windows i).used ∧ (r.windows i).id = id := by
            have hpred := WmWindow.eq_of_look (fun w => (w.used, w.id)) (fun _ => rfl)
              (hbefore.look i)
            simp only [Prod.mk.injEq] at hpred
            rw [hpred.1, hpred.2]
            exact ⟨hused, hid⟩
          exact hj (hplaced.ids j i hju hri.1 (hjid.trans hri.2.symm))
        exact hrefocus.trans (hmarks.still x y)
      · rw [if_neg hfocus] at himages ⊢
        have hmarks := wmMarkDirtyTaskbar_keeps closed
        refine ⟨hclosed.of_marks hmarks, himages, ?_⟩
        apply hfresh.of_still hmarks.sameScreen.size hmarks.sameScreen.fb hclosed.screen.1
          hmarks.keeps
        intro x y _ _
        exact hmarks.still x y

/-! ## Images -/

/-- No clean point of the screen where the window is on top shows its image. -/
def Wm.ImageHidden (s : Wm) (i : Slot) : Prop :=
  ∀ x y, s.OnScreen x y → ¬ s.InDirty x y → s.Top i x y → ¬ (s.windows i).ShowsImage x y

/-- Nothing is marked when an image is taken away. -/
theorem RedrawInv.freeImage {s : Wm} (h : RedrawInv s) {i : Slot} (hhidden : s.ImageHidden i) :
    RedrawInv (wmWindowFreeImage i s) := by
  have himages := h.images.freeImage i
  obtain ⟨frees, heq⟩ := wmWindowFreeImage_eq i s
  rw [heq] at himages ⊢
  set t : Wm := { s with frees := frees }.modify i WmWindow.withoutImage
  have hself : t.windows i = (s.windows i).withoutImage := Function.update_self ..
  have hother : ∀ j, j ≠ i → t.windows j = s.windows j := fun j hj => Function.update_of_ne hj ..
  have hscreen : SameScreen s t := ⟨rfl, rfl, ⟨rfl, rfl⟩, ⟨rfl, rfl⟩, rfl⟩
  have hseen : ∀ j x y, t.Seen j x y ↔ s.Seen j x y := by
    intro j x y
    unfold Wm.Seen
    by_cases hj : j = i
    · rw [hj, hself]
      rfl
    · rw [hother j hj]
  have hz : ∀ j, (t.windows j).z = (s.windows j).z := by
    intro j
    by_cases hj : j = i
    · rw [hj, hself]
      rfl
    · rw [hother j hj]
  refine ⟨?_, himages, ?_⟩
  · apply h.placed.edit hscreen i hother ⟨rfl, rfl⟩
    intro hused
    rw [hself] at *
    exact ⟨hused, (h.placed.boxes i hused).congr ⟨rfl, rfl, rfl, rfl⟩, rfl, rfl, rfl, rfl⟩
  · have hkeeps : ∀ x y, s.InDirty x y → t.InDirty x y := fun _ _ hin => hin
    apply h.fresh.of_still hscreen.size hscreen.fb h.placed.screen.1 hkeeps
    intro x y hon hclean c hc
    have hcursor : t.UnderCursor x y ↔ s.UnderCursor x y := Iff.rfl
    apply hc.transfer hcursor
    · intro j hj
      refine ⟨⟨(hseen j x y).mpr hj.1, ?_⟩, ?_⟩
      · intro k hk
        rw [hz, hz]
        exact hj.2 k ((hseen k x y).mp hk)
      · by_cases hji : j = i
        · -- Without an image as with one that does not reach here, it is the plain colour.
          subst hji
          rw [hself]
          have hgone : ¬ (s.windows j).withoutImage.ShowsImage x y := fun hshows =>
            hshows.2.1 rfl
          rw [Wm.windowColor, Wm.windowColor, if_neg hgone, if_neg (hhidden x y hon hclean hj)]
          rfl
        · rw [hother j hji]
          rfl
    · intro hnone j hj
      exact hnone j ((hseen j x y).mp hj)

/-- Window `i` changes in its image fields, and nothing else does but the images. -/
structure ImageOnly (i : Slot) (s t : Wm) : Prop where
  other : ∀ j, j ≠ i → t.windows j = s.windows j
  own : (t.windows i).withoutImage = (s.windows i).withoutImage
  rest : t = { s with
    windows := t.windows
    images := t.images
    copies := t.copies
    frees := t.frees
    stopped := t.stopped }

theorem ImageOnly.refl (i : Slot) (s : Wm) : ImageOnly i s s := ⟨fun _ _ => rfl, rfl, rfl⟩

theorem ImageOnly.trans {i : Slot} {s t u : Wm} (h : ImageOnly i s t) (h' : ImageOnly i t u) :
    ImageOnly i s u := by
  refine ⟨fun j hj => (h'.other j hj).trans (h.other j hj), h'.own.trans h.own, ?_⟩
  have hrest := h'.rest
  rw [h.rest] at hrest
  exact hrest

theorem ImageOnly.modify (i : Slot) (s : Wm) {f : WmWindow → WmWindow}
    (hf : ∀ w, (f w).withoutImage = w.withoutImage) : ImageOnly i s (s.modify i f) := by
  refine ⟨fun j hj => modify_other s f hj, ?_, rfl⟩
  rw [modify_self, hf]

theorem wmWindowFreeImage_only (i : Slot) (s : Wm) : ImageOnly i s (wmWindowFreeImage i s) := by
  obtain ⟨frees, heq⟩ := wmWindowFreeImage_eq i s
  rw [heq]
  have hfrees : ImageOnly i s { s with frees := frees } := ⟨fun _ _ => rfl, rfl, rfl⟩
  exact hfrees.trans (ImageOnly.modify i _ fun _ => rfl)

theorem wmAllocImage_only (i : Slot) (bytes : Nat) (memory : Option (Nat → UInt32)) (s : Wm) :
    ImageOnly i s (wmAllocImage bytes memory s).2 := by
  unfold wmAllocImage
  by_cases hpages : wmImagePages bytes = 0
  · rw [if_pos hpages]
    exact ImageOnly.refl i s
  · rw [if_neg hpages]
    cases memory with
    | none => exact ImageOnly.refl i s
    | some words => exact ⟨fun _ _ => rfl, rfl, rfl⟩

theorem wmImageBuffer_only (i : Slot) (bytes : Nat) (memory : Option (Nat → UInt32)) (s : Wm) :
    ImageOnly i s (wmImageBuffer i bytes memory s) := by
  unfold wmImageBuffer
  by_cases hreuse : (s.windows i).reuses bytes
  · rw [if_pos hreuse]
    exact ImageOnly.refl i s
  · rw [if_neg hreuse]
    exact ((wmWindowFreeImage_only i s).trans (wmAllocImage_only i bytes memory _)).trans
      (ImageOnly.modify i _ fun _ => rfl)

theorem wmCopyImage_only (i : Slot) (dst : Option Nat) (pixels : Nat → UInt32) (bytes : Nat)
    (s : Wm) : ImageOnly i s (wmCopyImage dst pixels bytes s) := by
  refine ⟨fun j _ => ?_, ?_, ?_⟩
  · rw [wmCopyImage_windows]
  · rw [wmCopyImage_windows]
  · unfold wmCopyImage
    cases dst with
    | none =>
        by_cases hzero : bytes = 0
        · simp only [if_pos hzero]
        · simp only [if_neg hzero]
    | some n => rfl

/-- What is allocated already stays where it is. -/
theorem wmImageBuffer_images (i : Slot) (bytes : Nat) (memory : Option (Nat → UInt32)) (s : Wm)
    {n : Nat} {image : WmImage} (h : s.images[n]? = some image) :
    (wmImageBuffer i bytes memory s).images[n]? = some image := by
  have hfree : (wmWindowFreeImage i s).images = s.images := by
    obtain ⟨frees, heq⟩ := wmWindowFreeImage_eq i s
    rw [heq]
    rfl
  unfold wmImageBuffer
  by_cases hreuse : (s.windows i).reuses bytes
  · rw [if_pos hreuse]
    exact h
  rw [if_neg hreuse]
  change (wmAllocImage bytes memory (wmWindowFreeImage i s)).2.images[n]? = some image
  unfold wmAllocImage
  by_cases hpages : wmImagePages bytes = 0
  · rw [if_pos hpages, hfree]
    exact h
  · rw [if_neg hpages]
    cases memory with
    | none =>
        simp only
        rw [hfree]
        exact h
    | some words =>
        simp only
        rw [hfree]
        exact getElem?_append_old h _

/-- The copy stores in the window's own buffer, or stops the machine. -/
theorem wmCopyImage_images {dst : Option Nat} (pixels : Nat → UInt32) (bytes : Nat) (s : Wm)
    {n : Nat} (hn : dst ≠ some n) :
    (wmCopyImage dst pixels bytes s).images[n]? = s.images[n]? := by
  unfold wmCopyImage
  cases dst with
  | none =>
      simp only
      split_ifs <;> rfl
  | some m =>
      have hmn : m ≠ n := fun heq => hn (congrArg some heq)
      simp only
      rw [List.getElem?_modify]
      simp only [if_neg hmn]
      exact id_map s.images[n]?

/-- Without a buffer for the bytes the machine stops. -/
theorem wmSetImage_stops {s : Wm} {id : Int} {i : Slot} (hfind : wmFind s id = some i)
    (pixels : Nat → UInt32) (w h : Int) {memory : Option (Nat → UInt32)}
    (hnone : ¬ (wmImageSize w h = 0 ∨ (s.windows i).reuses (wmImageSize w h) ∨
      (wmImagePages (wmImageSize w h) ≠ 0 ∧ memory.isSome))) :
    (wmSetImage id (some pixels) w h memory s).2.stopped = true := by
  push Not at hnone
  obtain ⟨hbytes, hreuse, halloc⟩ := hnone
  have hbuffer : ((wmImageBuffer i (wmImageSize w h) memory s).windows i).imagePixels = none := by
    unfold wmImageBuffer
    rw [if_neg hreuse]
    simp only
    rw [modify_self]
    change (wmAllocImage (wmImageSize w h) memory (wmWindowFreeImage i s)).1 = none
    unfold wmAllocImage
    by_cases hpages : wmImagePages (wmImageSize w h) = 0
    · rw [if_pos hpages]
    · rw [if_neg hpages]
      cases memory with
      | none => rfl
      | some words => exact absurd rfl (halloc hpages)
  unfold wmSetImage
  simp only [hfind, hbuffer, wmCopyImage, if_neg hbytes, if_true]

theorem RedrawInv.setImage {s : Wm} (h : RedrawInv s) {id : Int} (pixels : Nat → UInt32)
    {w ht : Int} {memory : Option (Nat → UInt32)}
    (hnowrap : ∀ i, wmFind s id = some i → 0 < w → 0 < ht → w * ht * 4 < 2 ^ 32) :
    RedrawInv (wmSetImage id (some pixels) w ht memory s).2 ∨
      (wmSetImage id (some pixels) w ht memory s).2.stopped = true := by
  cases hfind : wmFind s id with
  | none =>
      left
      simp only [wmSetImage, hfind]
      exact h
  | some i =>
      by_cases hroom : wmImageSize w ht = 0 ∨ (s.windows i).reuses (wmImageSize w ht) ∨
          (wmImagePages (wmImageSize w ht) ≠ 0 ∧ memory.isSome)
      swap
      · exact Or.inr (wmSetImage_stops hfind pixels w ht hroom)
      obtain ⟨hused, -⟩ := wmFind_some hfind
      have hfits : WmOp.ImageOk s (.setImage id (some pixels) w ht memory) := by
        intro j hj
        rw [hfind] at hj
        cases hj
        exact ⟨hnowrap i hfind, hroom⟩
      have himages := h.images.setImage hfits
      have hlive := (h.images.imageBuffer (wmImageSize_lt w ht) hroom).1
      simp only [wmSetImage, hfind] at himages ⊢
      set t := wmImageBuffer i (wmImageSize w ht) memory s with ht'
      have honly := (wmImageBuffer_only i (wmImageSize w ht) memory s).trans
        (wmCopyImage_only i (t.windows i).imagePixels pixels (wmImageSize w ht) t)
      have hwords : ∀ j n, j ≠ i → (s.windows j).imagePixels = some n →
          (wmCopyImage (t.windows i).imagePixels pixels (wmImageSize w ht) t).images[n]? =
            s.images[n]? := by
        intro j n hj hn
        obtain ⟨image, hget, -⟩ := (h.images.windows j).size n hn
        have hkept := wmImageBuffer_images i (wmImageSize w ht) memory s hget
        rw [wmCopyImage_images pixels (wmImageSize w ht) t ?_, ht', hkept, hget]
        intro hown
        have hjn : (t.windows j).imagePixels = some n := by
          rw [(wmImageBuffer_only i (wmImageSize w ht) memory s).other j hj]
          exact hn
        exact hj (hlive.apart j i n hjn hown)
      set u := wmCopyImage (t.windows i).imagePixels pixels (wmImageSize w ht) t
      by_cases hstop : u.stopped = true
      · right
        rw [if_pos hstop]
        exact hstop
      left
      rw [if_neg hstop] at himages ⊢
      set f : WmWindow → WmWindow := fun win => { win with imageW := w, imageH := ht, hasImage := 1 }
      have hset := honly.trans (ImageOnly.modify i u (f := f) fun _ => rfl)
      set v := u.modify i f
      have hstopped : v.stopped = s.stopped := by
        rw [h.placed.running]
        exact Bool.eq_false_iff.mpr hstop
      have hscreen : SameScreen s v := by
        refine ⟨?_, hstopped, ?_, ?_, ?_⟩
        · rw [hset.rest]
        · rw [hset.rest]
          exact ⟨rfl, rfl⟩
        · rw [hset.rest]
          exact ⟨rfl, rfl⟩
        · rw [hset.rest]
      have hplain : ∀ {α : Type} (g : WmWindow → α), (∀ w, g w.withoutImage = g w) →
          g (v.windows i) = g (s.windows i) := by
        intro α g hg
        rw [← hg (v.windows i), hset.own, hg]
      have hpred := hplain (fun w => (w.used, w.visible, w.focusable, w.id, w.z, w.x, w.y, w.w, w.h))
        fun _ => rfl
      simp only [Prod.mk.injEq] at hpred
      obtain ⟨huse, hvis, hfoc, hid, hz, hx, hy, hw, hh⟩ := hpred
      have hplaced : v.Placed := by
        apply h.placed.edit hscreen i hset.other
        · rw [hset.rest]
          exact ⟨rfl, rfl⟩
        · intro _
          exact ⟨hused, (h.placed.boxes i hused).congr ⟨hx, hy, hw, hh⟩, hvis, hfoc, hid, hz⟩
      have hmarks := wmMarkDirtyWindow_boxed (some i) v
      refine ⟨hplaced.of_marks hmarks, himages, ?_⟩
      have hkeeps : ∀ x y, s.InDirty x y → v.InDirty x y := by
        intro x y hin
        rw [hset.rest]
        exact hin
      have hon' : ∀ x y, s.OnScreen x y → v.OnScreen x y := by
        intro x y hon
        rw [hset.rest]
        exact hon
      apply h.fresh.of_still (t := wmMarkDirtyWindow (some i) v)
      · exact ⟨hmarks.sameScreen.size.1.trans hscreen.size.1,
          hmarks.sameScreen.size.2.trans hscreen.size.2⟩
      · exact hmarks.sameScreen.fb.trans hscreen.fb
      · exact h.placed.screen.1
      · exact fun x y hin => hmarks.keeps x y (hkeeps x y hin)
      · intro x y hon hclean
        have hnew : ¬ v.Seen i x y :=
          not_seen (hplaced.boxes i) hmarks (fun _ _ hin => ⟨i, rfl, hin⟩) (hon' x y hon) hclean
        have hold : ¬ s.Seen i x y := by
          intro hseen
          apply hnew
          unfold Wm.Seen WmWindow.Covers at *
          rw [huse, hvis, hx, hy, hw, hh]
          exact hseen
        have hedit : Still s v x y := by
          apply Still.of_unseen hscreen.cursor hset.other ?_ hold hnew
          intro j hj _
          have hfocus : v.focusId = s.focusId := by
            rw [hset.rest]
          have hword : v.imageWord (s.windows j) x y = s.imageWord (s.windows j) x y := by
            unfold Wm.imageWord
            cases hn : (s.windows j).imagePixels with
            | none => rfl
            | some n =>
                have hsame : v.images[n]? = s.images[n]? := hwords j n hj hn
                rw [Option.bind_some, Option.bind_some, hsame]
          unfold Wm.windowColor wmColor
          rw [hword, hfocus]
        exact hedit.trans (hmarks.still x y)

/-! ## Input -/

/-- The cursor may be anywhere. -/
theorem Wm.Placed.pointed {s : Wm} (h : s.Placed) (x y : Int) :
    { s with cursorX := x, cursorY := y }.Placed :=
  ⟨h.ready, h.running, h.screen, h.counters, h.boxes, h.shown, h.ids, h.idRange, h.stacked,
    h.zRange⟩

/-- Placed windows, as long as the counter of heights does not overflow. -/
theorem wmPollOne_placed {r : Wm × Bool} (h : r.1.Placed) (ev : WmInput) {left : Int}
    (hleft : 0 ≤ left) (hz : r.1.nextZ + (left + 1) < 2 ^ 31) :
    (wmPollOne r ev).1.Placed ∧ (wmPollOne r ev).1.nextZ + left < 2 ^ 31 := by
  cases wmPollOne_spec r ev with
  | inl hsame =>
      rw [hsame]
      exact ⟨h, by omega⟩
  | inr hchanged =>
      cases hchanged.2 with
      | inl hcursor =>
          obtain ⟨x, y, heq⟩ := hcursor
          rw [heq]
          refine ⟨h.pointed x y, ?_⟩
          change r.1.nextZ + left < 2 ^ 31
          omega
      | inr hfocus =>
          obtain ⟨id, heq⟩ := hfocus
          obtain ⟨hplaced, hnextZ⟩ := wmFocus_placed h id (by omega)
          rw [heq]
          exact ⟨hplaced, by omega⟩

theorem wmPollEvents_placed {events : List WmInput} {r : Wm × Bool} (h : r.1.Placed)
    (hz : r.1.nextZ + events.length < 2 ^ 31) : (events.foldl wmPollOne r).1.Placed := by
  induction events generalizing r with
  | nil => exact h
  | cons ev events ih =>
      rw [List.length_cons] at hz
      push_cast at hz
      obtain ⟨hplaced, hnext⟩ := wmPollOne_placed h ev (Int.natCast_nonneg events.length) hz
      exact ih hplaced hnext

/-- The flag stays set, and the state is the same while it is not. -/
theorem wmPollEvents_unchanged {events : List WmInput} {r : Wm × Bool}
    (h : (events.foldl wmPollOne r).2 = false) : events.foldl wmPollOne r = r := by
  have hsticky : ∀ (events : List WmInput) (r : Wm × Bool), r.2 = true →
      (events.foldl wmPollOne r).2 = true := by
    intro events r hr
    induction events generalizing r with
    | nil => exact hr
    | cons ev events ih =>
        apply ih
        cases wmPollOne_spec r ev with
        | inl hsame =>
            rw [hsame]
            exact hr
        | inr hchanged => exact hchanged.1
  induction events generalizing r with
  | nil => rfl
  | cons ev events ih =>
      rw [List.foldl_cons] at h ⊢
      cases wmPollOne_spec r ev with
      | inl hsame =>
          rw [hsame] at h ⊢
          exact ih h
      | inr hchanged =>
          rw [hsticky events _ hchanged.1] at h
          cases h

/-- Marking the whole screen leaves nothing to show. -/
theorem Wm.Placed.markFull {s : Wm} (h : s.Placed) :
    (wmMarkDirtyFull s).Placed ∧ (wmMarkDirtyFull s).Fresh := by
  refine ⟨⟨h.ready, h.running, h.screen, h.counters, h.boxes, h.shown, h.ids, h.idRange, h.stacked,
    h.zRange⟩, ?_⟩
  intro q hrow hclean
  have hwidth := h.screen.1
  have hon : s.OnScreen (q % s.screenW) (q / s.screenW) :=
    ⟨Int.emod_nonneg _ hwidth.ne', Int.emod_lt_of_pos _ hwidth,
      Int.ediv_nonneg (by omega) hwidth.le, hrow⟩
  exact absurd (wmMarkDirtyFull_inDirty s hon) hclean

theorem RedrawInv.pollMouseInput {s : Wm} (h : RedrawInv s) {events : List WmInput}
    (hz : s.nextZ + events.length < 2 ^ 31) : RedrawInv (wmPollMouseInput events s) := by
  have himages := h.images.of_same (wmPollMouseInput_sameImages events s)
  have hplaced := wmPollEvents_placed (r := (s, false)) h.placed hz
  simp only [wmPollMouseInput] at himages ⊢
  cases hchanged : (events.foldl wmPollOne (s, false)).2 with
  | true =>
      rw [hchanged, if_pos rfl] at himages
      rw [if_pos rfl]
      exact ⟨hplaced.markFull.1, himages, hplaced.markFull.2⟩
  | false =>
      rw [if_neg Bool.false_ne_true, wmPollEvents_unchanged hchanged]
      exact h

theorem RedrawInv.cursorMove {s : Wm} (h : RedrawInv s) (dx dy : Int) :
    RedrawInv (wmCursorMove dx dy s) := by
  have hplaced := h.placed.pointed (s32 (s.cursorX + dx)) (s32 (s.cursorY + dy))
  exact ⟨hplaced.markFull.1, h.images.of_same ⟨fun _ => rfl, rfl, rfl, rfl, rfl, rfl⟩,
    hplaced.markFull.2⟩

/-! ## Rendering -/

/-- Numbering the windows of a list upwards from `n + 1`. -/
theorem repack_loop (l : List Slot) (n : Nat) (hnodup : l.Nodup) (s : Wm) :
    let t := (l.zipIdx n).foldl
      (fun (s : Wm) p => s.modify p.1 fun win => { win with z := p.2 + 1 }) s
    (∀ i, i ∉ l → t.windows i = s.windows i) ∧
      (∀ k (hk : k < l.length), t.windows l[k] = { s.windows l[k] with z := (n + k : Nat) + 1 }) ∧
      t = { s with windows := t.windows } := by
  induction l generalizing n s with
  | nil => exact ⟨fun _ _ => rfl, fun k hk => absurd hk (Nat.not_lt_zero k), rfl⟩
  | cons head tail ih =>
      rw [List.nodup_cons] at hnodup
      rw [List.zipIdx_cons, List.foldl_cons]
      set r := s.modify head fun win => { win with z := (n : Int) + 1 }
      obtain ⟨hout, hin, hrest⟩ := ih (n + 1) hnodup.2 r
      refine ⟨?_, ?_, ?_⟩
      · intro i hi
        rw [List.mem_cons, not_or] at hi
        rw [hout i hi.2]
        exact modify_other s _ hi.1
      · intro k hk
        cases k with
        | zero =>
            rw [List.getElem_cons_zero, hout head hnodup.1]
            exact modify_self s head _
        | succ k =>
            rw [List.length_cons] at hk
            rw [List.getElem_cons_succ, hin k (by omega)]
            have hne : tail[k] ≠ head := fun heq => hnodup.1 (heq ▸ List.getElem_mem _)
            have hkept : r.windows tail[k] = s.windows tail[k] := modify_other s _ hne
            have hnumber : n + 1 + k = n + (k + 1) := by omega
            rw [hkept, hnumber]
      · have hstart : r = { s with windows := r.windows } := rfl
        rw [hstart] at hrest
        exact hrest

theorem wmOrder_nodup (s : Wm) (p : WmWindow → Bool) : (wmOrder s p).Nodup :=
  (sortedBy_perm _ _).nodup_iff.mpr ((List.nodup_finRange wmMaxWindows).filter _)

/-- Repacking gives the used windows the heights `1 .. n` in the order they had. -/
theorem wmRepackZ_spec (s : Wm) :
    (∀ i, (s.windows i).used = false → (wmRepackZ s).windows i = s.windows i) ∧
      (∀ k (hk : k < (wmOrder s WmWindow.used).length),
        (wmRepackZ s).windows (wmOrder s WmWindow.used)[k] =
          { s.windows (wmOrder s WmWindow.used)[k] with z := (k : Int) + 1 }) ∧
      wmRepackZ s = { s with
        windows := (wmRepackZ s).windows
        nextZ := (wmOrder s WmWindow.used).length + 1 } := by
  obtain ⟨hout, hin, hrest⟩ :=
    repack_loop (wmOrder s WmWindow.used) 0 (wmOrder_nodup s WmWindow.used) s
  refine ⟨?_, ?_, ?_⟩
  · intro i hused
    apply hout i
    intro hmem
    rw [mem_wmOrder, hused] at hmem
    cases hmem
  · intro k hk
    have hk' := hin k hk
    rw [Nat.zero_add] at hk'
    exact hk'
  · unfold wmRepackZ
    simp only
    rw [hrest]

/-- A used window has a place in the order, which is its new height less one. -/
theorem repacked_used {s : Wm} {i : Slot} (hused : (s.windows i).used) :
    ∃ k, ∃ hk : k < (wmOrder s WmWindow.used).length, (wmOrder s WmWindow.used)[k] = i ∧
      (wmRepackZ s).windows i = { s.windows i with z := (k : Int) + 1 } := by
  obtain ⟨k, hk, heq⟩ := List.getElem_of_mem (mem_wmOrder.mpr hused)
  refine ⟨k, hk, heq, ?_⟩
  have hspec := (wmRepackZ_spec s).2.1 k hk
  rw [heq] at hspec
  exact hspec

/-- Only heights change, and used windows stay used. -/
theorem repacked_same (s : Wm) (i : Slot) :
    ∃ z, (wmRepackZ s).windows i = { s.windows i with z := z } := by
  cases hused : (s.windows i).used with
  | true =>
      obtain ⟨k, -, -, heq⟩ := repacked_used hused
      exact ⟨_, heq⟩
  | false => exact ⟨(s.windows i).z, (wmRepackZ_spec s).1 i hused⟩

/-- The stacking stays: a window below another stays below it. -/
theorem repacked_le {s : Wm} (h : s.Stacked) {i j : Slot} (hi : (s.windows i).used)
    (hj : (s.windows j).used) (hle : (s.windows i).z ≤ (s.windows j).z) :
    ((wmRepackZ s).windows i).z ≤ ((wmRepackZ s).windows j).z := by
  obtain ⟨a, ha, hai, hnewi⟩ := repacked_used hi
  obtain ⟨b, hb, hbj, hnewj⟩ := repacked_used hj
  rw [hnewi, hnewj]
  by_contra hgt
  have hba : b < a := by
    simp only [not_le] at hgt
    omega
  have hsorted := List.pairwise_iff_getElem.mp (sortedBy_pairwise (fun i => (s.windows i).z)
    ((List.finRange wmMaxWindows).filter fun i => (s.windows i).used)) b a hb ha hba
  change (s.windows (wmOrder s WmWindow.used)[b]).z ≤
    (s.windows (wmOrder s WmWindow.used)[a]).z at hsorted
  rw [hai, hbj] at hsorted
  have heq : i = j := h i j hi hj (le_antisymm hle hsorted)
  have hab : (wmOrder s WmWindow.used)[a] = (wmOrder s WmWindow.used)[b] := by
    rw [hai, hbj, heq]
  have hindex := (wmOrder_nodup s WmWindow.used).getElem_inj_iff.mp hab
  omega

theorem repacked_sameScreen (s : Wm) : SameScreen s (wmRepackZ s) := by
  rw [(wmRepackZ_spec s).2.2]
  exact ⟨rfl, rfl, ⟨rfl, rfl⟩, ⟨rfl, rfl⟩, rfl⟩

theorem Wm.Placed.repack {s : Wm} (h : s.Placed) : (wmRepackZ s).Placed := by
  have hscreen := repacked_sameScreen s
  have hnextId : (wmRepackZ s).nextId = s.nextId := by
    rw [(wmRepackZ_spec s).2.2]
  have hnextZ : (wmRepackZ s).nextZ = (wmOrder s WmWindow.used).length + 1 := by
    rw [(wmRepackZ_spec s).2.2]
  have hused : ∀ i, ((wmRepackZ s).windows i).used = (s.windows i).used := by
    intro i
    obtain ⟨z, heq⟩ := repacked_same s i
    rw [heq]
  constructor
  · rw [hscreen.ready]
    exact h.ready
  · rw [hscreen.stopped]
    exact h.running
  · rw [hscreen.size.1, hscreen.size.2]
    exact h.screen
  · rw [hnextId, hnextZ]
    exact ⟨h.counters.1, by omega⟩
  · intro i hi
    rw [hused] at hi
    obtain ⟨z, heq⟩ := repacked_same s i
    rw [heq]
    exact (h.boxes i hi).congr ⟨rfl, rfl, rfl, rfl⟩
  · intro i hi
    rw [hused] at hi
    obtain ⟨z, heq⟩ := repacked_same s i
    rw [heq]
    exact h.shown i hi
  · intro i j hi hj hid
    rw [hused] at hi hj
    obtain ⟨y, hyi⟩ := repacked_same s i
    obtain ⟨z, hzj⟩ := repacked_same s j
    rw [hyi, hzj] at hid
    exact h.ids i j hi hj hid
  · intro i hi
    rw [hused] at hi
    obtain ⟨z, heq⟩ := repacked_same s i
    rw [heq, hnextId]
    exact h.idRange i hi
  · intro i j hi hj hz
    rw [hused] at hi hj
    obtain ⟨a, ha, hai, hnewi⟩ := repacked_used hi
    obtain ⟨b, hb, hbj, hnewj⟩ := repacked_used hj
    rw [hnewi, hnewj] at hz
    simp only [add_left_inj, Nat.cast_inj] at hz
    subst hz
    exact hai.symm.trans hbj
  · intro i hi
    rw [hused] at hi
    obtain ⟨a, ha, -, hnewi⟩ := repacked_used hi
    rw [hnewi, hnextZ]
    simp only
    omega

theorem repacked_still {s : Wm} (h : s.Placed) (x y : Int) : Still s (wmRepackZ s) x y := by
  have hseen : ∀ i, (wmRepackZ s).Seen i x y ↔ s.Seen i x y := by
    intro i
    obtain ⟨z, heq⟩ := repacked_same s i
    unfold Wm.Seen
    rw [heq]
    rfl
  intro c hc
  apply hc.transfer
  · unfold Wm.UnderCursor
    rw [(repacked_sameScreen s).cursor.1, (repacked_sameScreen s).cursor.2]
  · intro i hi
    refine ⟨⟨(hseen i).mpr hi.1, ?_⟩, ?_⟩
    · intro j hj
      rw [hseen] at hj
      exact repacked_le h.stacked hj.1 hi.1.1 (hi.2 j hj)
    · obtain ⟨z, heq⟩ := repacked_same s i
      rw [heq, (wmRepackZ_spec s).2.2]
      rfl
  · intro hnone i hi
    exact hnone i ((hseen i).mp hi)

theorem RedrawInv.repack {s : Wm} (h : RedrawInv s) : RedrawInv (wmRepackZ s) := by
  refine ⟨h.placed.repack, h.images.of_same (wmRepackZ_sameImages s), ?_⟩
  apply h.fresh.of_still (repacked_sameScreen s).size (repacked_sameScreen s).fb h.placed.screen.1
  · intro x y hin
    rw [(wmRepackZ_spec s).2.2]
    exact hin
  · intro x y _ _
    exact repacked_still h.placed x y

/-- Everything is drawn: no point is left to be drawn again. -/
theorem RedrawInv.renderGpu {s : Wm} (h : RedrawInv s) (wild : Nat → Int → UInt32)
    (himages : WmImagesInv (wmRenderGpu wild s)) :
    RedrawInv (wmRenderGpu wild s) ∧ (wmRenderGpu wild s).dirty = none := by
  unfold wmRenderGpu at *
  cases hdirty : s.dirty with
  | none => exact ⟨h, hdirty⟩
  | some clip =>
      rw [hdirty] at himages
      simp only at himages ⊢
      refine ⟨⟨⟨h.placed.ready, h.placed.running, h.placed.screen, h.placed.counters,
        h.placed.boxes, h.placed.shown, h.placed.ids, h.placed.idRange, h.placed.stacked,
        h.placed.zRange⟩, himages, ?_⟩, trivial⟩
      set t : Wm := { s with
        fb := (wmPaint (some clip) wild s ⟨s.fb, s.reads⟩).fb
        reads := (wmPaint (some clip) wild s ⟨s.fb, s.reads⟩).reads
        dirty := none }
      have hdrawable := RedrawInv.drawable h.placed h.images
      have hsame : ∀ x y, Still s t x y := by
        intro x y
        exact @Still.of_seen s t x y ⟨rfl, rfl⟩ (fun _ => Iff.rfl) fun _ _ => ⟨rfl, rfl⟩
      intro q hrow _
      apply hsame
      cases hclip : clipped (some clip) (q % s.screenW) (q / s.screenW) with
      | false => exact wmPaint_shows hdrawable _ wild _ hrow hclip
      | true =>
          have hkept : t.fb q = s.fb q := wmPaint_clipped hdrawable wild _ hclip
          rw [hkept]
          apply h.fresh q hrow
          rintro ⟨r, hr, hin⟩
          rw [hdirty] at hr
          cases hr
          simp only [clipped, Bool.or_eq_true, decide_eq_true_iff] at hclip
          omega

theorem RedrawInv.render {s : Wm} (h : RedrawInv s) (wild : Nat → Int → UInt32) :
    RedrawInv (wmRender wild s) ∧ (wmRender wild s).dirty = none := by
  have himages := h.images.render wild
  have hrepacked := h.repack
  unfold wmRender at *
  simp only [hrepacked.placed.ready, if_true] at himages ⊢
  exact hrepacked.renderGpu wild himages

/-! ## Runs -/

/-- When a call marks all that it changes. -/
def WmOp.MarksAll (s : Wm) : WmOp → Prop
  | .create _ w h => (∃ i, (s.windows i).used = false) →
      (s.nextId + 1 < 2 ^ 31 ∧ s.nextZ + 1 < 2 ^ 31) ∧
        (boxWindow (wmCreateX s s.nextId w) (wmCreateY s s.nextId h) w h).BoxOk
  | .move id x y => ∀ i, wmFind s id = some i →
      (boxWindow x y (s.windows i).w (s.windows i).h).BoxOk
  | .resize id w h => ∀ i, wmFind s id = some i →
      (boxWindow (s.windows i).x (s.windows i).y w h).BoxOk
  | .focus id => ∀ i, wmFind s id = some i →
      s.nextZ + 1 < 2 ^ 31 ∧ (s.focusId = id → s.Uncovered i)
  | .setImage id none _ _ _ => ∀ i, wmFind s id = some i → s.ImageHidden i
  | .setImage id (some _) w h _ => ∀ i, wmFind s id = some i → 0 < w → 0 < h → w * h * 4 < 2 ^ 32
  | .pollMouseInput events => s.nextZ + events.length < 2 ^ 31
  | _ => True

theorem RedrawInv.step {s : Wm} (h : RedrawInv s) {op : WmOp} (hok : op.MarksAll s) :
    RedrawInv (s.step op) ∨ (s.step op).stopped = true := by
  have hrunning : ¬ s.stopped = true := Bool.eq_false_iff.mp h.placed.running
  unfold Wm.step
  rw [if_neg hrunning]
  cases op with
  | create title w ht =>
      left
      by_cases hfree : ∃ i, (s.windows i).used = false
      · exact h.create (hok hfree).1 (hok hfree).2
      · have hsame : (wmCreate title w ht s).2 = s := by
          cases wmCreate_spec title w ht s with
          | inl hfull => exact hfull
          | inr hnew =>
              obtain ⟨slot, -, hslot, -⟩ := hnew
              exact absurd ⟨slot, Bool.eq_false_iff.mpr hslot⟩ hfree
        change RedrawInv (wmCreate title w ht s).2
        rw [hsame]
        exact h
  | move id x y =>
      left
      simp only [Wm.exec, wmMove]
      cases hfind : wmFind s id with
      | none => exact h
      | some i =>
          refine h.change (fun w => ⟨rfl, rfl, rfl, rfl, rfl⟩) ?_ (h.images.change i fun _ => rfl)
          intro w hlook
          have hw : w.w = (s.windows i).w := WmWindow.eq_of_look WmWindow.w (fun _ => rfl) hlook
          have hh : w.h = (s.windows i).h := WmWindow.eq_of_look WmWindow.h (fun _ => rfl) hlook
          exact (hok i hfind).congr ⟨rfl, rfl, hw, hh⟩
  | resize id w ht =>
      left
      simp only [Wm.exec, wmResize]
      cases hfind : wmFind s id with
      | none => exact h
      | some i =>
          refine h.change (fun w => ⟨rfl, rfl, rfl, rfl, rfl⟩) ?_ (h.images.change i fun _ => rfl)
          intro w hlook
          have hx : w.x = (s.windows i).x := WmWindow.eq_of_look WmWindow.x (fun _ => rfl) hlook
          have hy : w.y = (s.windows i).y := WmWindow.eq_of_look WmWindow.y (fun _ => rfl) hlook
          exact (hok i hfind).congr ⟨hx, hy, rfl, rfl⟩
  | focus id => exact Or.inl (h.focus hok)
  | close id => exact Or.inl (h.close id)
  | setText id text => exact Or.inl (h.setText id text)
  | setImage id pixels w ht memory =>
      cases pixels with
      | some pixels => exact h.setImage pixels hok
      | none =>
          left
          simp only [Wm.exec, wmSetImage]
          cases hfind : wmFind s id with
          | none => exact h
          | some i => exact h.freeImage (hok i hfind)
  | cursorMove dx dy => exact Or.inl (h.cursorMove dx dy)
  | pollMouseInput events => exact Or.inl (h.pollMouseInput hok)
  | pollEvent id =>
      left
      have hmarks := wmPollEvent_keeps id s
      refine ⟨h.placed.of_marks hmarks, h.images.of_same hmarks.sameImages, ?_⟩
      apply h.fresh.of_still hmarks.sameScreen.size hmarks.sameScreen.fb h.placed.screen.1
        hmarks.keeps
      intro x y _ _
      exact hmarks.still x y
  | render wild => exact Or.inl (h.render wild).1

theorem stopped_run {s : Wm} (h : s.stopped = true) (ops : List WmOp) : s.run ops = s := by
  induction ops with
  | nil => rfl
  | cons op ops ih =>
      have hstep : s.step op = s := if_pos h
      rw [Wm.run, List.foldl_cons, hstep]
      exact ih

theorem RedrawInv.run {s : Wm} (h : RedrawInv s) {ops : List WmOp}
    (hok : s.Along (fun s op => op.MarksAll s) ops) :
    RedrawInv (s.run ops) ∨ (s.run ops).stopped = true := by
  induction ops generalizing s with
  | nil => exact Or.inl h
  | cons op ops ih =>
      cases h.step hok.1 with
      | inl hinv => exact ih hinv hok.2
      | inr hstop =>
          right
          change ((s.step op).run ops).stopped = true
          rw [stopped_run hstop]
          exact hstop

theorem RedrawInv.start {width height : Int} (hwidth : 0 < width ∧ width ≤ 1024)
    (hheight : 0 < height ∧ height ≤ 768) : RedrawInv (wmInit (some (width, height)) Wm.boot) := by
  set s := wmInit (some (width, height)) Wm.boot with hs
  have hwindows : ∀ i, (s.windows i).used = false := fun _ => rfl
  have hno : ∀ i, (s.windows i).used ≠ true := fun i => Bool.eq_false_iff.mp (hwindows i)
  have hplaced : s.Placed := by
    refine ⟨rfl, rfl, ?_, ?_, ?_, ?_, ?_, ?_, ?_, ?_⟩
    · change 0 < width ∧ width < 2 ^ 31 ∧ height < 2 ^ 31
      omega
    · exact ⟨Int.one_pos, Int.one_pos⟩
    · exact fun i hi => absurd hi (hno i)
    · exact fun i hi => absurd hi (hno i)
    · exact fun i _ hi => absurd hi (hno i)
    · exact fun i hi => absurd hi (hno i)
    · exact fun i _ hi => absurd hi (hno i)
    · exact fun i hi => absurd hi (hno i)
  exact ⟨hplaced, WmImagesInv.start _, hplaced.markFull.2⟩

/-- What painting everything, with no clip rectangle, would leave in the back buffer. -/
def wmFullRedraw (wild : Nat → Int → UInt32) (s : Wm) : Nat → UInt32 :=
  (wmPaint none wild s ⟨s.fb, []⟩).fb

theorem run_concat (s : Wm) (ops : List WmOp) (op : WmOp) :
    s.run (ops ++ [op]) = (s.run ops).step op := by
  rw [Wm.run, List.foldl_append]
  rfl

/-- Rendering the dirty rectangle is a full redraw, in every run whose calls mark all that
they change. -/
theorem wm_render_full {width height : Int} (hwidth : 0 < width ∧ width ≤ 1024)
    (hheight : 0 < height ∧ height ≤ 768) (ops : List WmOp) (wild wild' : Nat → Int → UInt32)
    (hok : (wmInit (some (width, height)) Wm.boot).Along (fun s op => op.MarksAll s) ops)
    (hrunning : ((wmInit (some (width, height)) Wm.boot).run
      (ops ++ [.render wild])).stopped = false) :
    let s := (wmInit (some (width, height)) Wm.boot).run (ops ++ [.render wild])
    ∀ q : Nat, (q : Int) < s.screenW * s.screenH → s.fb q = wmFullRedraw wild' s q := by
  rw [run_concat] at hrunning ⊢
  cases (RedrawInv.start hwidth hheight).run hok with
  | inr hstop =>
      rw [Wm.step, if_pos hstop, hstop] at hrunning
      cases hrunning
  | inl hinv =>
      have hgo := Bool.eq_false_iff.mp hinv.placed.running
      rw [Wm.step, if_neg hgo]
      obtain ⟨hdone, hclean⟩ := hinv.render wild
      change ∀ q : Nat, (q : Int) < (wmRender wild _).screenW * (wmRender wild _).screenH →
        (wmRender wild _).fb q = wmFullRedraw wild' (wmRender wild _) q
      set s := wmRender wild ((wmInit (some (width, height)) Wm.boot).run ops)
      intro q hq
      have hrow : (q : Int) / s.screenW < s.screenH := by
        apply Int.ediv_lt_of_lt_mul hdone.placed.screen.1
        rw [mul_comm]
        exact hq
      have hnot : ¬ s.InDirty (q % s.screenW) (q / s.screenW) := by
        rintro ⟨r, hr, -⟩
        rw [hclean] at hr
        cases hr
      have hshown := hdone.fresh q hrow hnot
      have hfull := wmPaint_shows (RedrawInv.drawable hdone.placed hdone.images) none
        wild' ⟨s.fb, []⟩ hrow rfl
      exact hshown.unique hdone.placed.stacked hfull

theorem wm_render_full_one :
    let s := (wmInit (some (2, 2)) Wm.boot).run
      ([.create none 2 1, .focus 1] ++ [.render fun _ _ => 0])
    ∀ q : Nat, (q : Int) < s.screenW * s.screenH → s.fb q = wmFullRedraw (fun _ _ => 0) s q := by
  apply wm_render_full (by decide) (by decide)
  · refine ⟨fun _ => ⟨by decide, ?_⟩, ?_, trivial⟩
    · constructor <;> decide
    · intro i hi
      refine ⟨by decide, ?_⟩
      intro hfocus
      exact absurd hfocus (by decide)
  · decide +kernel

/-- A window's image is drawn and then taken away. -/
def wmImageGone : List WmOp :=
  [.create none 2 1, .setImage 1 (some fun _ => 5) 2 1 (some fun _ => 0), .render fun _ _ => 0,
    .setImage 1 none 0 0 none]

theorem wm_render_stale : ¬ ∀ (width height : Int), 0 < width ∧ width ≤ 1024 →
    0 < height ∧ height ≤ 768 → ∀ (ops : List WmOp) (wild wild' : Nat → Int → UInt32),
      ((wmInit (some (width, height)) Wm.boot).run (ops ++ [.render wild])).stopped = false →
      let s := (wmInit (some (width, height)) Wm.boot).run (ops ++ [.render wild])
      ∀ q : Nat, (q : Int) < s.screenW * s.screenH → s.fb q = wmFullRedraw wild' s q := by
  intro hall
  have hstale := hall 2 2 (by decide) (by decide) wmImageGone (fun _ _ => 0) (fun _ _ => 0)
    (by decide +kernel) 0 (by decide +kernel)
  have hdiffers : ((wmInit (some (2, 2)) Wm.boot).run
      (wmImageGone ++ [.render fun _ _ => 0])).fb 0 ≠ wmFullRedraw (fun _ _ => 0)
        ((wmInit (some (2, 2)) Wm.boot).run (wmImageGone ++ [.render fun _ _ => 0])) 0 := by
    decide +kernel
  exact hdiffers hstale

end Sugimotos.Gui
