/-
# What the screen shows

Said without painting: the cursor lies over everything, below it is the window with
the greatest `z` of those that contain the point, and the desktop shows where there is
none.  Painting puts exactly that at every point of the screen that is not clipped,
and leaves the others alone.
-/

import Sugimotos.Gui.Images
import Sugimotos.Math.Painter
import Mathlib.Data.Finset.Max
import Mathlib.Data.Fintype.Basic

namespace Sugimotos.Gui

open Sugimotos.Math

abbrev opaquePixel (color : UInt32) : UInt32 := 0xff000000 ||| color

/-- A used and visible window contains the point. -/
def Wm.Seen (s : Wm) (i : Slot) (x y : Int) : Prop :=
  (s.windows i).used ∧ (s.windows i).visible ∧ (s.windows i).Covers x y

/-- No window that contains the point lies above this one. -/
def Wm.Top (s : Wm) (i : Slot) (x y : Int) : Prop :=
  s.Seen i x y ∧ ∀ j, s.Seen j x y → (s.windows j).z ≤ (s.windows i).z

/-- The window's image reaches the point, if the window does. -/
def WmWindow.ShowsImage (w : WmWindow) (x y : Int) : Prop :=
  w.hasImage ≠ 0 ∧ w.imagePixels ≠ none ∧ x - w.x < w.imageW ∧ y - w.y < w.imageH

instance (w : WmWindow) (x y : Int) : Decidable (w.ShowsImage x y) := by
  unfold WmWindow.ShowsImage
  infer_instance

/-- The word of the window's image at the point. -/
def Wm.imageWord (s : Wm) (w : WmWindow) (x y : Int) : UInt32 :=
  match w.imagePixels.bind (s.images[·]?) with
  | none => 0
  | some image => image.words ((y - w.y) * w.imageW + (x - w.x)).toNat

/-- The colour of a window at a point in it. -/
def Wm.windowColor (s : Wm) (w : WmWindow) (x y : Int) : UInt32 :=
  if w.ShowsImage x y then opaquePixel (s.imageWord w x y) else opaquePixel (wmColor s w)

def Wm.UnderCursor (s : Wm) (x y : Int) : Prop :=
  s.cursorX ≤ x ∧ x < s32 (s.cursorX + 8) ∧ s.cursorY ≤ y ∧ y < s32 (s.cursorY + 8)

/-- What a full redraw has at the point. -/
inductive Wm.Shows (s : Wm) (x y : Int) : UInt32 → Prop
  | cursor (h : s.UnderCursor x y) : Shows s x y (opaquePixel 0x00ffffff)
  | window (h : ¬ s.UnderCursor x y) {i : Slot} (hi : s.Top i x y) :
      Shows s x y (s.windowColor (s.windows i) x y)
  | desktop (h : ¬ s.UnderCursor x y) (hi : ∀ i, ¬ s.Seen i x y) :
      Shows s x y (opaquePixel 0x00162236)

/-- Used windows have numbers and heights of their own. -/
def Wm.Stacked (s : Wm) : Prop :=
  ∀ i j, (s.windows i).used → (s.windows j).used → (s.windows i).z = (s.windows j).z → i = j

theorem Wm.Top.unique {s : Wm} (h : s.Stacked) {i j : Slot} {x y : Int} (hi : s.Top i x y)
    (hj : s.Top j x y) : i = j :=
  h i j hi.1.1 hj.1.1 (le_antisymm (hj.2 i hi.1) (hi.2 j hj.1))

theorem Wm.Shows.unique {s : Wm} (h : s.Stacked) {x y : Int} {c d : UInt32} (hc : s.Shows x y c)
    (hd : s.Shows x y d) : c = d := by
  cases hc with
  | cursor hcursor =>
      cases hd with
      | cursor => rfl
      | window hnot => exact absurd hcursor hnot
      | desktop hnot => exact absurd hcursor hnot
  | window hnot hi =>
      cases hd with
      | cursor hcursor => exact absurd hcursor hnot
      | window _ hj => rw [hi.unique h hj]
      | desktop _ hnone => exact absurd hi.1 (hnone _)
  | desktop hnot hnone =>
      cases hd with
      | cursor hcursor => exact absurd hcursor hnot
      | window _ hi => exact absurd hi.1 (hnone _)
      | desktop => rfl

/-- A point keeps its colour when the window on top stays there with its colour, or
when there is none. -/
theorem Wm.Shows.transfer {s t : Wm} {x y : Int} {c : UInt32} (h : s.Shows x y c)
    (hcursor : t.UnderCursor x y ↔ s.UnderCursor x y)
    (htop : ∀ i, s.Top i x y → t.Top i x y ∧
      t.windowColor (t.windows i) x y = s.windowColor (s.windows i) x y)
    (hnone : (∀ i, ¬ s.Seen i x y) → ∀ i, ¬ t.Seen i x y) : t.Shows x y c := by
  cases h with
  | cursor hin => exact Shows.cursor (hcursor.mpr hin)
  | window hnot hi =>
      rw [← (htop _ hi).2]
      exact Shows.window (mt hcursor.mp hnot) (htop _ hi).1
  | desktop hnot hno => exact Shows.desktop (mt hcursor.mp hnot) (hnone hno)

/-! ## Pixels of the back buffer -/

/-- The cell of the point in column `x` of row `y`. -/
theorem cell_index {width x y : Int} (hx : 0 ≤ x ∧ x < width) (hy : 0 ≤ y) (q : Nat) :
    q = (y * width + x).toNat ↔ x = q % width ∧ y = q / width := by
  have hrow : 0 ≤ y * width := mul_nonneg hy (by omega)
  constructor
  · intro hq
    have hcell : (q : Int) = x + y * width := by omega
    rw [hcell, Int.add_mul_emod_self_right, Int.add_mul_ediv_right _ _ (by omega),
      Int.emod_eq_of_lt hx.1 hx.2, Int.ediv_eq_zero_of_lt hx.1 hx.2]
    exact ⟨rfl, by omega⟩
  · rintro ⟨rfl, rfl⟩
    have hsplit := Int.mul_ediv_add_emod q width
    rw [mul_comm] at hsplit
    omega

theorem WmCanvas.put_paints (n : Nat) (pixel : UInt32) :
    Paints WmCanvas.fb (fun c => c.put n pixel) fun q => if q = n then some pixel else none := by
  intro c q
  change Function.update c.fb n pixel q = (if q = n then some pixel else none).getD (c.fb q)
  by_cases hq : q = n
  · rw [hq, Function.update_self, if_pos rfl]
    rfl
  · rw [Function.update_of_ne hq, if_neg hq]
    rfl

/-- What is drawn of a rectangle in row `yy`. -/
def rowLayer (clip : Option WmRect) (fbW fbH x w : Int) (color : UInt32) (yy : Int) (q : Nat) :
    Option UInt32 :=
  if (yy = q / fbW ∧ yy < fbH) ∧ (x ≤ q % fbW ∧ q % fbW < s32 (x + w)) ∧
      clipped clip (q % fbW) (q / fbW) = false then some (opaquePixel color) else none

/-- What filling a rectangle draws. -/
def fillLayer (clip : Option WmRect) (fbW fbH x y w h : Int) (color : UInt32) (q : Nat) :
    Option UInt32 :=
  if (y ≤ q / fbW ∧ q / fbW < s32 (y + h) ∧ q / fbW < fbH) ∧
      (x ≤ q % fbW ∧ q % fbW < s32 (x + w)) ∧
      clipped clip (q % fbW) (q / fbW) = false then some (opaquePixel color) else none

section Fill

variable (clip : Option WmRect) {fbW : Int} (hfbW : 0 < fbW) (fbH x y w h : Int) (color : UInt32)
include hfbW

/-- A pixel of row `yy`, where the row is on the screen. -/
theorem fill_cell_paints {yy : Int} (hyy : 0 ≤ yy) (xx : Int) :
    Paints WmCanvas.fb
      (fun c => if xx < 0 ∨ xx ≥ fbW then c else
        if clipped clip xx yy then c else c.put (yy * fbW + xx).toNat (opaquePixel color))
      (fun q => if (xx = q % fbW ∧ yy = q / fbW) ∧ clipped clip (q % fbW) (q / fbW) = false then
        some (opaquePixel color) else none) := by
  apply (Paints.ite _ Paints.skip (Paints.ite _ Paints.skip (WmCanvas.put_paints _ _))).congr
  intro q
  have hlow := Int.emod_nonneg (q : Int) hfbW.ne'
  have hhigh := Int.emod_lt_of_pos (q : Int) hfbW
  by_cases hoff : xx < 0 ∨ xx ≥ fbW
  · rw [if_pos hoff, if_neg]
    omega
  rw [if_neg hoff]
  by_cases hcell : xx = q % fbW ∧ yy = q / fbW
  · have hq := (cell_index (by omega) hyy q).mpr hcell
    rw [if_pos hq, ← hcell.1, ← hcell.2]
    cases hclip : clipped clip xx yy with
    | true => simp
    | false => simp
  · have hq : ¬ q = (yy * fbW + xx).toNat := fun hq =>
      hcell ((cell_index (by omega) hyy q).mp hq)
    rw [if_neg hq, ite_self, if_neg]
    exact fun h => hcell h.1

theorem fill_row_paints (yy : Int) :
    Paints WmCanvas.fb
      (fun c => if yy < 0 ∨ yy ≥ fbH then c else
        (span x (s32 (x + w))).foldl (fun c xx => if xx < 0 ∨ xx ≥ fbW then c else
          if clipped clip xx yy then c else c.put (yy * fbW + xx).toNat (opaquePixel color)) c)
      (rowLayer clip fbW fbH x w color yy) := by
  by_cases hoff : yy < 0 ∨ yy ≥ fbH
  · simp only [if_pos hoff]
    apply Paints.skip.congr
    intro q
    have hrow : 0 ≤ (q : Int) / fbW := Int.ediv_nonneg (by omega) hfbW.le
    rw [rowLayer, if_neg]
    omega
  simp only [if_neg hoff]
  apply Paints.loop (fun xx _ => fill_cell_paints clip hfbW color (by omega) xx)
  · intro q xx hxx
    rw [mem_span] at hxx
    by_cases hcell : (xx = q % fbW ∧ yy = q / fbW) ∧ clipped clip (q % fbW) (q / fbW) = false
    · right
      rw [if_pos hcell, rowLayer, if_pos]
      exact ⟨⟨hcell.1.2, by omega⟩, hcell.1.1 ▸ hxx, hcell.2⟩
    · left
      exact if_neg hcell
  · intro q hdrawn
    have hin : (yy = q / fbW ∧ yy < fbH) ∧ (x ≤ q % fbW ∧ q % fbW < s32 (x + w)) ∧
        clipped clip (q % fbW) (q / fbW) = false := by
      by_contra hout
      exact hdrawn (if_neg hout)
    refine ⟨q % fbW, mem_span.mpr hin.2.1, ?_⟩
    rw [rowLayer, if_pos hin, if_pos ⟨⟨rfl, hin.1.1⟩, hin.2.2⟩]

theorem wmGpuFillRect_paints :
    Paints WmCanvas.fb (wmGpuFillRect clip fbW fbH x y w h color)
      (fillLayer clip fbW fbH x y w h color) := by
  apply Paints.loop (fun yy _ => fill_row_paints clip hfbW fbH x w color yy)
  · intro q yy hyy
    rw [mem_span] at hyy
    by_cases hrow : (yy = q / fbW ∧ yy < fbH) ∧ (x ≤ q % fbW ∧ q % fbW < s32 (x + w)) ∧
        clipped clip (q % fbW) (q / fbW) = false
    · right
      rw [rowLayer, if_pos hrow, fillLayer, if_pos]
      exact ⟨by omega, hrow.2⟩
    · left
      exact if_neg hrow
  · intro q hdrawn
    have hin : (y ≤ q / fbW ∧ q / fbW < s32 (y + h) ∧ q / fbW < fbH) ∧
        (x ≤ q % fbW ∧ q % fbW < s32 (x + w)) ∧ clipped clip (q % fbW) (q / fbW) = false := by
      by_contra hout
      exact hdrawn (if_neg hout)
    refine ⟨q / fbW, mem_span.mpr ⟨hin.1.1, hin.1.2.1⟩, ?_⟩
    rw [fillLayer, if_pos hin, rowLayer, if_pos ⟨⟨rfl, hin.1.2.2⟩, hin.2⟩]

end Fill

/-- The pixel that the image loops write in their turn for `yy` and `xx`. -/
def blitPixel (wild : Nat → Int → UInt32) (s : Wm) (w : WmWindow) (image : Nat) (yy xx : Int) :
    UInt32 :=
  let index := s32 (s32 (yy * w.imageW) + xx)
  opaquePixel (WmImage.word s.images[image]? index (wild image index))

/-- What is drawn of an image in its row `yy`. -/
def blitRowLayer (clip : Option WmRect) (wild : Nat → Int → UInt32) (s : Wm) (w : WmWindow)
    (image : Nat) (yy : Int) (q : Nat) : Option UInt32 :=
  let x : Int := q % s.screenW
  let y : Int := q / s.screenW
  if (w.y + yy = y ∧ y < s.screenH) ∧ (0 ≤ x - w.x ∧ x - w.x < min w.imageW w.w) ∧
      clipped clip x y = false then some (blitPixel wild s w image yy (x - w.x)) else none

/-- What copying an image draws. -/
def blitLayer (clip : Option WmRect) (wild : Nat → Int → UInt32) (s : Wm) (w : WmWindow)
    (image : Nat) (q : Nat) : Option UInt32 :=
  let x : Int := q % s.screenW
  let y : Int := q / s.screenW
  if (0 ≤ y - w.y ∧ y - w.y < min w.imageH w.h ∧ y < s.screenH) ∧
      (0 ≤ x - w.x ∧ x - w.x < min w.imageW w.w) ∧ clipped clip x y = false then
    some (blitPixel wild s w image (y - w.y) (x - w.x)) else none

section Blit

variable (clip : Option WmRect) (wild : Nat → Int → UInt32) {s : Wm} (hwidth : 0 < s.screenW)
  {w : WmWindow} (hbox : w.BoxOk) (image : Nat)
include hwidth hbox

/-- One turn of the image loops. -/
theorem blit_cell_paints {yy xx : Int} (hyy : 0 ≤ yy ∧ yy < w.h) (hxx : 0 ≤ xx ∧ xx < w.w) :
    Paints WmCanvas.fb
      (fun c =>
        let dx := s32 (w.x + xx)
        let dy := s32 (w.y + yy)
        if 0 ≤ dx ∧ dx < s.screenW ∧ 0 ≤ dy ∧ dy < s.screenH then
          if clipped clip dx dy then c else
            let index := s32 (s32 (yy * w.imageW) + xx)
            { c with reads := ⟨image, index⟩ :: c.reads }.put (dy * s.screenW + dx).toNat
              (0xff000000 ||| WmImage.word s.images[image]? index (wild image index))
        else c)
      (fun q => if (xx = (q : Int) % s.screenW - w.x ∧ w.y + yy = q / s.screenW ∧
          q / s.screenW < s.screenH) ∧
          clipped clip (q % s.screenW) (q / s.screenW) = false then
        some (blitPixel wild s w image yy xx) else none) := by
  obtain ⟨hleft, hright, hw, hacross, htop, hbottom, hh, hdown⟩ := hbox
  have hdx : s32 (w.x + xx) = w.x + xx := s32_eq (by omega) (by omega)
  have hdy : s32 (w.y + yy) = w.y + yy := s32_eq (by omega) (by omega)
  simp only [hdx, hdy]
  have hput : ∀ n, Paints WmCanvas.fb
      (fun c => { c with
        reads := ⟨image, s32 (s32 (yy * w.imageW) + xx)⟩ :: c.reads }.put n
          (blitPixel wild s w image yy xx)) _ :=
    fun n c q => WmCanvas.put_paints n (blitPixel wild s w image yy xx) _ q
  apply (Paints.ite _ (Paints.ite _ Paints.skip (hput _)) Paints.skip).congr
  intro q
  have hlow := Int.emod_nonneg (q : Int) hwidth.ne'
  have hhigh := Int.emod_lt_of_pos (q : Int) hwidth
  have hrow : 0 ≤ (q : Int) / s.screenW := Int.ediv_nonneg (by omega) hwidth.le
  by_cases hon : 0 ≤ w.x + xx ∧ w.x + xx < s.screenW ∧ 0 ≤ w.y + yy ∧ w.y + yy < s.screenH
  · rw [if_pos hon]
    by_cases hcell : w.x + xx = q % s.screenW ∧ w.y + yy = q / s.screenW
    · have hq := (cell_index (by omega) hon.2.2.1 q).mpr hcell
      rw [if_pos hq, ← hcell.1, ← hcell.2]
      cases hclip : clipped clip (w.x + xx) (w.y + yy) with
      | true => simp
      | false =>
          rw [if_neg (by decide), if_pos]
          exact ⟨⟨by omega, rfl, by omega⟩, rfl⟩
    · have hq : ¬ q = ((w.y + yy) * s.screenW + (w.x + xx)).toNat := fun hq =>
        hcell ((cell_index (by omega) hon.2.2.1 q).mp hq)
      rw [if_neg hq, ite_self, if_neg]
      rintro ⟨⟨hx, hy, -⟩, -⟩
      exact hcell ⟨by omega, hy⟩
  · rw [if_neg hon, if_neg]
    omega

/-- One row of the image. -/
theorem blit_row_paints {yy : Int} (hyy : 0 ≤ yy ∧ yy < w.h) :
    Paints WmCanvas.fb
      (fun c => (span 0 (min w.imageW w.w)).foldl (fun c xx =>
        let dx := s32 (w.x + xx)
        let dy := s32 (w.y + yy)
        if 0 ≤ dx ∧ dx < s.screenW ∧ 0 ≤ dy ∧ dy < s.screenH then
          if clipped clip dx dy then c else
            let index := s32 (s32 (yy * w.imageW) + xx)
            { c with reads := ⟨image, index⟩ :: c.reads }.put (dy * s.screenW + dx).toNat
              (0xff000000 ||| WmImage.word s.images[image]? index (wild image index))
        else c) c)
      (blitRowLayer clip wild s w image yy) := by
  have hcells : ∀ xx ∈ span 0 (min w.imageW w.w), 0 ≤ xx ∧ xx < min w.imageW w.w :=
    fun xx hxx => mem_span.mp hxx
  apply Paints.loop (fun xx hxx => blit_cell_paints clip wild hwidth hbox image hyy
    ⟨(hcells xx hxx).1, (hcells xx hxx).2.trans_le (min_le_right _ _)⟩)
  · intro q xx hxx
    by_cases hcell : (xx = (q : Int) % s.screenW - w.x ∧ w.y + yy = q / s.screenW ∧
        q / s.screenW < s.screenH) ∧ clipped clip (q % s.screenW) (q / s.screenW) = false
    · right
      rw [if_pos hcell, blitRowLayer, if_pos ⟨hcell.1.2, hcell.1.1 ▸ hcells xx hxx, hcell.2⟩,
        hcell.1.1]
    · left
      exact if_neg hcell
  · intro q hdrawn
    have hin : (w.y + yy = q / s.screenW ∧ q / s.screenW < s.screenH) ∧
        (0 ≤ (q : Int) % s.screenW - w.x ∧ q % s.screenW - w.x < min w.imageW w.w) ∧
        clipped clip (q % s.screenW) (q / s.screenW) = false := by
      by_contra hout
      exact hdrawn (if_neg hout)
    refine ⟨q % s.screenW - w.x, mem_span.mpr hin.2.1, ?_⟩
    rw [blitRowLayer, if_pos hin, if_pos ⟨⟨rfl, hin.1⟩, hin.2.2⟩]

theorem wmBlit_paints :
    Paints WmCanvas.fb (wmBlit clip wild s w image) (blitLayer clip wild s w image) := by
  have hrows : ∀ yy ∈ span 0 (min w.imageH w.h), 0 ≤ yy ∧ yy < min w.imageH w.h :=
    fun yy hyy => mem_span.mp hyy
  apply Paints.loop (fun yy hyy => blit_row_paints clip wild hwidth hbox image
    ⟨(hrows yy hyy).1, (hrows yy hyy).2.trans_le (min_le_right _ _)⟩)
  · intro q yy hyy
    by_cases hrow : (w.y + yy = q / s.screenW ∧ (q : Int) / s.screenW < s.screenH) ∧
        (0 ≤ (q : Int) % s.screenW - w.x ∧ q % s.screenW - w.x < min w.imageW w.w) ∧
        clipped clip (q % s.screenW) (q / s.screenW) = false
    · right
      have hyy' : yy = q / s.screenW - w.y := by omega
      have hspan := hrows yy hyy
      rw [hyy'] at hspan
      rw [blitRowLayer, if_pos hrow, blitLayer, if_pos ⟨⟨hspan.1, hspan.2, hrow.1.2⟩, hrow.2⟩, hyy']
    · left
      exact if_neg hrow
  · intro q hdrawn
    have hin : (0 ≤ (q : Int) / s.screenW - w.y ∧ q / s.screenW - w.y < min w.imageH w.h ∧
        q / s.screenW < s.screenH) ∧
        (0 ≤ (q : Int) % s.screenW - w.x ∧ q % s.screenW - w.x < min w.imageW w.w) ∧
        clipped clip (q % s.screenW) (q / s.screenW) = false := by
      by_contra hout
      exact hdrawn (if_neg hout)
    refine ⟨q / s.screenW - w.y, mem_span.mpr ⟨hin.1.1, hin.1.2.1⟩, ?_⟩
    rw [blitLayer, if_pos hin, blitRowLayer, if_pos ⟨⟨by omega, hin.1.2.2⟩, hin.2⟩]

end Blit

/-! ## The whole screen -/

/-- What drawing relies on. -/
structure Wm.Drawable (s : Wm) : Prop where
  width : 0 < s.screenW
  limits : s.screenW < 2 ^ 31 ∧ s.screenH < 2 ^ 31
  boxes : ∀ i, (s.windows i).used → (s.windows i).BoxOk
  stacked : s.Stacked
  images : WmImagesInv s

/-- What drawing a window draws. -/
def windowLayer (clip : Option WmRect) (wild : Nat → Int → UInt32) (s : Wm) (i : Slot) (q : Nat) :
    Option UInt32 :=
  let w := s.windows i
  let fill := fillLayer clip s.screenW s.screenH w.x w.y w.w w.h (wmColor s w) q
  match w.imagePixels with
  | none => fill
  | some image => if w.hasImage ≠ 0 then (blitLayer clip wild s w image q).or fill else fill

theorem wmPaintWindow_paints {s : Wm} (h : s.Drawable) (clip : Option WmRect)
    (wild : Nat → Int → UInt32) {i : Slot} (hused : (s.windows i).used) :
    Paints WmCanvas.fb (wmPaintWindow clip wild s i) (windowLayer clip wild s i) := by
  have hfill := wmGpuFillRect_paints clip h.width s.screenH (s.windows i).x (s.windows i).y
    (s.windows i).w (s.windows i).h (wmColor s (s.windows i))
  unfold wmPaintWindow windowLayer
  cases himage : (s.windows i).imagePixels with
  | none =>
      simp only [himage]
      exact hfill
  | some image =>
      simp only [himage]
      by_cases hhas : (s.windows i).hasImage ≠ 0
      · simp only [if_pos hhas]
        exact hfill.comp (wmBlit_paints clip wild h.width (h.boxes i hused) image)
      · simp only [if_neg hhas]
        exact hfill

/-- Inside the image, the word read is the image's word at the point. -/
theorem blitPixel_eq {s : Wm} (h : WmImagesInv s) (wild : Nat → Int → UInt32) {i : Slot}
    {image : Nat} {x y : Int} (himage : (s.windows i).imagePixels = some image)
    (hshows : (s.windows i).ShowsImage x y) (hx : 0 ≤ x - (s.windows i).x)
    (hy : 0 ≤ y - (s.windows i).y) :
    blitPixel wild s (s.windows i) image (y - (s.windows i).y) (x - (s.windows i).x) =
      opaquePixel (s.imageWord (s.windows i) x y) := by
  obtain ⟨hhas, -, hxw, hyh⟩ := hshows
  obtain ⟨buffer, hget, hbytes, -⟩ := (h.windows i).size image himage
  have hin := List.mem_of_getElem? hget
  have hroom := h.safe.buffers buffer hin
  obtain ⟨hindex, hlow, hhigh⟩ := image_index (hbytes ▸ (h.pages buffer hin).2)
    ((h.windows i).shown image himage hhas (by omega) (by omega)) ⟨hx, hxw⟩ ⟨hy, hyh⟩
  unfold blitPixel Wm.imageWord
  simp only [hindex, himage, Option.bind_some, hget]
  rw [WmImage.word, if_pos]
  refine ⟨hlow, ?_⟩
  have hcast : ((pageSize * buffer.pages : Nat) : Int) = pageSize * buffer.pages := by
    push_cast
    rfl
  omega

/-- Where it is not clipped, a window draws its colour at the points it contains. -/
theorem windowLayer_eq {s : Wm} (h : s.Drawable) (clip : Option WmRect)
    (wild : Nat → Int → UInt32) {i : Slot} (hused : (s.windows i).used) {q : Nat}
    (hrow : (q : Int) / s.screenW < s.screenH)
    (hclip : clipped clip (q % s.screenW) (q / s.screenW) = false) :
    ((s.windows i).Covers (q % s.screenW) (q / s.screenW) →
      windowLayer clip wild s i q =
        some (s.windowColor (s.windows i) (q % s.screenW) (q / s.screenW))) ∧
    (¬ (s.windows i).Covers (q % s.screenW) (q / s.screenW) →
      windowLayer clip wild s i q = none) := by
  obtain ⟨hleft, hright, hw, hacross, htop, hbottom, hh, hdown⟩ := h.boxes i hused
  have hxw : s32 ((s.windows i).x + (s.windows i).w) = (s.windows i).x + (s.windows i).w :=
    s32_eq (by omega) (by omega)
  have hyh : s32 ((s.windows i).y + (s.windows i).h) = (s.windows i).y + (s.windows i).h :=
    s32_eq (by omega) (by omega)
  set x : Int := q % s.screenW with hx
  set y : Int := q / s.screenW with hy
  constructor
  · intro hcovers
    unfold WmWindow.Covers at hcovers
    have hfill : fillLayer clip s.screenW s.screenH (s.windows i).x (s.windows i).y
        (s.windows i).w (s.windows i).h (wmColor s (s.windows i)) q =
          some (opaquePixel (wmColor s (s.windows i))) := by
      rw [fillLayer, if_pos]
      rw [← hx, ← hy, hxw, hyh]
      exact ⟨by omega, by omega, hclip⟩
    simp only [windowLayer, Wm.windowColor, hfill]
    cases himage : (s.windows i).imagePixels with
    | none =>
        rw [if_neg]
        intro hshows
        exact hshows.2.1 himage
    | some image =>
        simp only
        by_cases hshows : (s.windows i).ShowsImage x y
        · have hblit : blitLayer clip wild s (s.windows i) image q =
              some (opaquePixel (s.imageWord (s.windows i) x y)) := by
            rw [← blitPixel_eq h.images wild himage hshows (by omega) (by omega)]
            have hlast := hshows.2.2
            rw [blitLayer, ← hx, ← hy, if_pos]
            exact ⟨by omega, by omega, hclip⟩
          rw [if_pos hshows.1, if_pos hshows, hblit]
          rfl
        · rw [if_neg hshows]
          by_cases hhas : (s.windows i).hasImage ≠ 0
          · have hblit : blitLayer clip wild s (s.windows i) image q = none := by
              rw [blitLayer, ← hx, ← hy, if_neg]
              rintro ⟨hy', hx', -⟩
              apply hshows
              exact ⟨hhas, by rw [himage]; exact Option.some_ne_none _, by omega, by omega⟩
            rw [if_pos hhas, hblit]
            rfl
          · rw [if_neg hhas]
  · intro hcovers
    unfold WmWindow.Covers at hcovers
    have hfill : fillLayer clip s.screenW s.screenH (s.windows i).x (s.windows i).y
        (s.windows i).w (s.windows i).h (wmColor s (s.windows i)) q = none := by
      rw [fillLayer, if_neg]
      rw [← hx, ← hy, hxw, hyh]
      omega
    simp only [windowLayer, hfill]
    cases (s.windows i).imagePixels with
    | none => rfl
    | some image =>
        have hblit : blitLayer clip wild s (s.windows i) image q = none := by
          rw [blitLayer, ← hx, ← hy, if_neg]
          omega
        simp only [hblit, Option.or_none, ite_self]

/-- Nothing is drawn where it is clipped. -/
theorem fillLayer_clipped {clip : Option WmRect} {fbW : Int} (fbH x y w h : Int) (color : UInt32)
    {q : Nat} (hclip : clipped clip (q % fbW) (q / fbW) = true) :
    fillLayer clip fbW fbH x y w h color q = none := by
  rw [fillLayer, if_neg]
  rintro ⟨-, -, hnot⟩
  rw [hclip] at hnot
  cases hnot

theorem windowLayer_clipped {clip : Option WmRect} (wild : Nat → Int → UInt32) (s : Wm) (i : Slot)
    {q : Nat} (hclip : clipped clip (q % s.screenW) (q / s.screenW) = true) :
    windowLayer clip wild s i q = none := by
  have hblit : ∀ image, blitLayer clip wild s (s.windows i) image q = none := by
    intro image
    rw [blitLayer, if_neg]
    rintro ⟨-, -, hnot⟩
    rw [hclip] at hnot
    cases hnot
  simp only [windowLayer, fillLayer_clipped _ _ _ _ _ _ hclip]
  cases (s.windows i).imagePixels with
  | none => rfl
  | some image => simp only [hblit, Option.or_none, ite_self]

theorem mem_wmOrder {s : Wm} {p : WmWindow → Bool} {i : Slot} :
    i ∈ wmOrder s p ↔ p (s.windows i) = true := by
  rw [wmOrder, (sortedBy_perm _ _).mem_iff, List.mem_filter]
  exact ⟨fun h => h.2, fun h => ⟨List.mem_finRange i, h⟩⟩

/-- The windows together draw the topmost one, and nothing where there is none. -/
theorem windows_topmost {s : Wm} (h : s.Drawable) (clip : Option WmRect)
    (wild : Nat → Int → UInt32) {q : Nat} (hrow : (q : Int) / s.screenW < s.screenH)
    (hclip : clipped clip (q % s.screenW) (q / s.screenW) = false) :
    (∃ i, s.Top i (q % s.screenW) (q / s.screenW) ∧
      topmost (wmOrder s fun w => w.used && w.visible) (windowLayer clip wild s) q =
        some (s.windowColor (s.windows i) (q % s.screenW) (q / s.screenW))) ∨
    ((∀ i, ¬ s.Seen i (q % s.screenW) (q / s.screenW)) ∧
      topmost (wmOrder s fun w => w.used && w.visible) (windowLayer clip wild s) q = none) := by
  classical
  set x : Int := q % s.screenW
  set y : Int := q / s.screenW
  have hmem : ∀ i, i ∈ wmOrder s (fun w => w.used && w.visible) ↔
      (s.windows i).used ∧ (s.windows i).visible := by
    intro i
    rw [mem_wmOrder, Bool.and_eq_true]
  by_cases hseen : ∃ i, s.Seen i x y
  · left
    obtain ⟨i, hi, htop⟩ := Finset.exists_max_image
      (Finset.univ.filter fun i => s.Seen i x y) (fun i => (s.windows i).z)
      (by
        obtain ⟨i, hi⟩ := hseen
        exact ⟨i, Finset.mem_filter.mpr ⟨Finset.mem_univ i, hi⟩⟩)
    have hsi := (Finset.mem_filter.mp hi).2
    have hall : ∀ j, s.Seen j x y → (s.windows j).z ≤ (s.windows i).z :=
      fun j hj => htop j (Finset.mem_filter.mpr ⟨Finset.mem_univ j, hj⟩)
    refine ⟨i, ⟨hsi, hall⟩, ?_⟩
    apply topmost_eq_greatest (sortedBy_pairwise _ _) ((hmem i).mpr ⟨hsi.1, hsi.2.1⟩)
    · exact (windowLayer_eq h clip wild hsi.1 hrow hclip).1 hsi.2.2
    · intro j hj hji hdraws
      have hju := (hmem j).mp hj
      have hcovers : (s.windows j).Covers x y := by
        by_contra hnot
        exact hdraws ((windowLayer_eq h clip wild hju.1 hrow hclip).2 hnot)
      apply lt_of_le_of_ne (hall j ⟨hju.1, hju.2, hcovers⟩)
      intro heq
      exact hji (h.stacked j i hju.1 hsi.1 heq)
  · right
    push Not at hseen
    refine ⟨hseen, topmost_eq_none ?_⟩
    intro i hi
    have hiu := (hmem i).mp hi
    apply (windowLayer_eq h clip wild hiu.1 hrow hclip).2
    intro hcovers
    exact hseen i ⟨hiu.1, hiu.2, hcovers⟩

/-- The cursor over the windows over the desktop. -/
def paintLayer (clip : Option WmRect) (wild : Nat → Int → UInt32) (s : Wm) (q : Nat) :
    Option UInt32 :=
  (fillLayer clip s.screenW s.screenH s.cursorX s.cursorY 8 8 0x00ffffff q).or
    ((topmost (wmOrder s fun w => w.used && w.visible) (windowLayer clip wild s) q).or
      (fillLayer clip s.screenW s.screenH 0 0 s.screenW s.screenH 0x00162236 q))

theorem wmPaint_paints {s : Wm} (h : s.Drawable) (clip : Option WmRect)
    (wild : Nat → Int → UInt32) :
    Paints WmCanvas.fb (wmPaint clip wild s) (paintLayer clip wild s) := by
  have hdesktop := wmGpuFillRect_paints clip h.width s.screenH 0 0 s.screenW s.screenH 0x00162236
  have hwindows : Paints WmCanvas.fb
      (fun c => (wmOrder s fun w => w.used && w.visible).foldl
        (fun c i => wmPaintWindow clip wild s i c) c) _ :=
    Paints.foldl fun i hi => wmPaintWindow_paints h clip wild
      ((Bool.and_eq_true _ _).mp (mem_wmOrder.mp hi)).1
  exact (hdesktop.comp hwindows).comp
    (wmGpuFillRect_paints clip h.width s.screenH s.cursorX s.cursorY 8 8 0x00ffffff)

theorem wmPaint_clipped {s : Wm} (h : s.Drawable) {clip : Option WmRect}
    (wild : Nat → Int → UInt32) (c : WmCanvas) {q : Nat}
    (hclip : clipped clip (q % s.screenW) (q / s.screenW) = true) :
    (wmPaint clip wild s c).fb q = c.fb q := by
  rw [wmPaint_paints h clip wild c q, paintLayer, fillLayer_clipped _ _ _ _ _ _ hclip,
    fillLayer_clipped _ _ _ _ _ _ hclip,
    topmost_eq_none fun i _ => windowLayer_clipped wild s i hclip]
  rfl

/-- Painting puts the right colour at every point that is not clipped. -/
theorem wmPaint_shows {s : Wm} (h : s.Drawable) (clip : Option WmRect)
    (wild : Nat → Int → UInt32) (c : WmCanvas) {q : Nat}
    (hrow : (q : Int) / s.screenW < s.screenH)
    (hclip : clipped clip (q % s.screenW) (q / s.screenW) = false) :
    s.Shows (q % s.screenW) (q / s.screenW) ((wmPaint clip wild s c).fb q) := by
  have hwindows := windows_topmost h clip wild hrow hclip
  have hlow := Int.emod_nonneg (q : Int) h.width.ne'
  have hhigh := Int.emod_lt_of_pos (q : Int) h.width
  have hdown : 0 ≤ (q : Int) / s.screenW := Int.ediv_nonneg (by omega) h.width.le
  have hwidth : s32 (0 + s.screenW) = s.screenW := by
    rw [zero_add, s32_eq (by omega) h.limits.1]
  have hheight : s32 (0 + s.screenH) = s.screenH := by
    rw [zero_add, s32_eq (by omega) h.limits.2]
  have hdesktop : fillLayer clip s.screenW s.screenH 0 0 s.screenW s.screenH 0x00162236 q =
      some (opaquePixel 0x00162236) := by
    rw [fillLayer, if_pos]
    rw [hwidth, hheight]
    exact ⟨by omega, by omega, hclip⟩
  rw [wmPaint_paints h clip wild c q, paintLayer, hdesktop]
  by_cases hcursor : s.UnderCursor (q % s.screenW) (q / s.screenW)
  · have hwhite : fillLayer clip s.screenW s.screenH s.cursorX s.cursorY 8 8 0x00ffffff q =
        some (opaquePixel 0x00ffffff) := by
      unfold Wm.UnderCursor at hcursor
      rw [fillLayer, if_pos]
      exact ⟨by omega, by omega, hclip⟩
    rw [hwhite]
    exact Wm.Shows.cursor hcursor
  · have hclear : fillLayer clip s.screenW s.screenH s.cursorX s.cursorY 8 8 0x00ffffff q =
        none := by
      unfold Wm.UnderCursor at hcursor
      rw [fillLayer, if_neg]
      omega
    rw [hclear, Option.none_or]
    cases hwindows with
    | inl hsome =>
        obtain ⟨i, htop, hcolor⟩ := hsome
        rw [hcolor]
        exact Wm.Shows.window hcursor htop
    | inr hnone =>
        rw [hnone.2]
        exact Wm.Shows.desktop hcursor hnone.1

end Sugimotos.Gui
