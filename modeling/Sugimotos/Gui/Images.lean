/-
# Window images stay in their buffers

A window that has a buffer is the only one that has it, the buffer has not been
released, and it was allocated with the size the window remembers.  Four fields have
to fit together for that: a window shows no more pixels than its buffer holds.  A size
that wraps breaks the last part, and a failed allocation leaves a null pointer that is
copied to, so a call with either is left out.
-/

import Sugimotos.Gui.Dirty
import Mathlib.Algebra.Order.Ring.Int
import Mathlib.Tactic.Ring

namespace Sugimotos.Gui

open Sugimotos.Math

/-- Every read and every copy so far was inside an image, and every image is released at most once
and whole. -/
structure WmImagesSafe (s : Wm) : Prop where
  reads : ∀ r ∈ s.reads, ∃ image, s.images[r.image]? = some image ∧
    0 ≤ r.index ∧ 4 * r.index + 4 ≤ image.bytes
  copies : ∀ c ∈ s.copies, 0 < c.bytes →
    ∃ n image, c.image = some n ∧ s.images[n]? = some image ∧ c.bytes ≤ image.bytes
  buffers : ∀ image ∈ s.images, image.bytes ≤ pageSize * image.pages
  freedOnce : (s.frees.map WmFree.image).Nodup
  freedWhole : ∀ f ∈ s.frees, ∃ image, s.images[f.image]? = some image ∧ f.pages = image.pages

/-- The image fields of a window fit the allocation they name. -/
structure ImageOk (s : Wm) (w : WmWindow) : Prop where
  live : ∀ n, w.imagePixels = some n → n ∉ s.frees.map WmFree.image
  size : ∀ n, w.imagePixels = some n →
    ∃ image, s.images[n]? = some image ∧ image.bytes = w.imageBytes ∧ 0 < w.imageBytes
  shown : ∀ n, w.imagePixels = some n → w.hasImage ≠ 0 → 0 < w.imageW → 0 < w.imageH →
    w.imageW * w.imageH * 4 ≤ w.imageBytes

/-- What holds in every run whose image calls are in order. -/
structure WmImagesInv (s : Wm) : Prop where
  safe : WmImagesSafe s
  windows : ∀ i, ImageOk s (s.windows i)
  apart : ∀ i j n, (s.windows i).imagePixels = some n → (s.windows j).imagePixels = some n → i = j
  pages : ∀ image ∈ s.images, image.pages = wmImagePages image.bytes ∧ image.bytes < 2 ^ 32

theorem ImageOk.none {s : Wm} {w : WmWindow} (h : w.imagePixels = none) : ImageOk s w := by
  constructor <;> intro n hn <;> rw [h] at hn <;> cases hn

/-- The image fields of a window. -/
def WmWindow.image (w : WmWindow) : Int × Int × Int × Option Nat × Nat :=
  (w.hasImage, w.imageW, w.imageH, w.imagePixels, w.imageBytes)

theorem ImageOk.of_image {s : Wm} {v w : WmWindow} (h : ImageOk s w) (himage : v.image = w.image) :
    ImageOk s v := by
  obtain ⟨hhas, hw, hh, hpixels, hbytes⟩ := by
    simpa only [WmWindow.image, Prod.mk.injEq] using himage
  constructor
  · rw [hpixels]
    exact h.live
  · rw [hpixels, hbytes]
    exact h.size
  · rw [hpixels, hhas, hw, hh, hbytes]
    exact h.shown

/-- Nothing about images changes from `s` to `s'`. -/
structure SameImages (s s' : Wm) : Prop where
  image : ∀ i, (s'.windows i).image = (s.windows i).image
  images : s'.images = s.images
  copies : s'.copies = s.copies
  frees : s'.frees = s.frees
  reads : s'.reads = s.reads
  stopped : s'.stopped = s.stopped

theorem SameImages.refl (s : Wm) : SameImages s s := ⟨fun _ => rfl, rfl, rfl, rfl, rfl, rfl⟩

theorem SameImages.trans {s t u : Wm} (h : SameImages s t) (h' : SameImages t u) :
    SameImages s u :=
  ⟨fun i => (h'.image i).trans (h.image i), h'.images.trans h.images, h'.copies.trans h.copies,
    h'.frees.trans h.frees, h'.reads.trans h.reads, h'.stopped.trans h.stopped⟩

theorem Marks.sameImages {s s' : Wm} {R : Int → Int → Prop} (h : Marks s s' R) :
    SameImages s s' := by
  refine ⟨?_, ?_, ?_, ?_, ?_, ?_⟩
  · intro i
    exact WmWindow.eq_of_look WmWindow.image (fun _ => rfl) (h.look i)
  all_goals rw [h.rest]

/-- A window changed elsewhere than in its image. -/
theorem SameImages.setWindow {s : Wm} {i : Slot} {w : WmWindow}
    (h : w.image = (s.windows i).image) : SameImages s (s.setWindow i w) := by
  refine ⟨?_, rfl, rfl, rfl, rfl, rfl⟩
  intro j
  change (Function.update s.windows i w j).image = _
  by_cases hij : j = i
  · subst hij
    rw [Function.update_self, h]
  · rw [Function.update_of_ne hij]

theorem SameImages.modify (s : Wm) (i : Slot) {f : WmWindow → WmWindow}
    (h : ∀ w, (f w).image = w.image) : SameImages s (s.modify i f) :=
  SameImages.setWindow (h _)

theorem WmImagesInv.of_same {s s' : Wm} (h : WmImagesInv s) (hsame : SameImages s s') :
    WmImagesInv s' := by
  obtain ⟨himage, himages, hcopies, hfrees, hreads, -⟩ := hsame
  have hpixels : ∀ i, (s'.windows i).imagePixels = (s.windows i).imagePixels := by
    intro i
    exact congrArg (fun p => p.2.2.2.1) (himage i)
  have hok : ∀ w, ImageOk s w → ImageOk s' w := by
    intro w hw
    refine ⟨?_, ?_, hw.shown⟩
    · rw [hfrees]
      exact hw.live
    · rw [himages]
      exact hw.size
  constructor
  · constructor
    · rw [hreads, himages]
      exact h.safe.reads
    · rw [hcopies, himages]
      exact h.safe.copies
    · rw [himages]
      exact h.safe.buffers
    · rw [hfrees]
      exact h.safe.freedOnce
    · rw [hfrees, himages]
      exact h.safe.freedWhole
  · intro i
    exact hok _ ((h.windows i).of_image (himage i))
  · intro i j n
    rw [hpixels, hpixels]
    exact h.apart i j n
  · rw [himages]
    exact h.pages

/-- One window is replaced by another whose image is in order and not another's. -/
theorem WmImagesInv.setWindow {s : Wm} (h : WmImagesInv s) {i : Slot} {w : WmWindow}
    (hw : ImageOk s w)
    (hapart : ∀ j n, j ≠ i → w.imagePixels = some n → (s.windows j).imagePixels ≠ some n) :
    WmImagesInv (s.setWindow i w) := by
  have hself : (s.setWindow i w).windows i = w := Function.update_self ..
  have hother : ∀ j, j ≠ i → (s.setWindow i w).windows j = s.windows j :=
    fun j hj => Function.update_of_ne hj ..
  refine ⟨⟨h.safe.reads, h.safe.copies, h.safe.buffers, h.safe.freedOnce, h.safe.freedWhole⟩,
    ?_, ?_, h.pages⟩
  · intro j
    by_cases hj : j = i
    · rw [hj, hself]
      exact ⟨hw.live, hw.size, hw.shown⟩
    · rw [hother j hj]
      exact ⟨(h.windows j).live, (h.windows j).size, (h.windows j).shown⟩
  · intro j k n hjn hkn
    by_cases hj : j = i
    · by_cases hk : k = i
      · rw [hj, hk]
      · rw [hj, hself] at hjn
        rw [hother k hk] at hkn
        exact absurd hkn (hapart k n hk hjn)
    · by_cases hk : k = i
      · rw [hk, hself] at hkn
        rw [hother j hj] at hjn
        exact absurd hjn (hapart j n hj hkn)
      · rw [hother j hj] at hjn
        rw [hother k hk] at hkn
        exact h.apart j k n hjn hkn

/-- The same buffer stays with its window. -/
theorem WmImagesInv.setWindow_keep {s : Wm} (h : WmImagesInv s) {i : Slot} {w : WmWindow}
    (hw : ImageOk s w) (hpixels : w.imagePixels = none ∨ w.imagePixels = (s.windows i).imagePixels) :
    WmImagesInv (s.setWindow i w) := by
  apply h.setWindow hw
  intro j n hj hn hjn
  cases hpixels with
  | inl hnone =>
      rw [hnone] at hn
      cases hn
  | inr hsame =>
      rw [hsame] at hn
      exact hj (h.apart j i n hjn hn)

/-! ## Releasing and allocating -/

theorem wmWindowFreeImage_none {i : Slot} {s : Wm} (h : (s.windows i).imagePixels = none) :
    wmWindowFreeImage i s = s.modify i WmWindow.withoutImage := by
  simp only [wmWindowFreeImage, h]

theorem wmWindowFreeImage_some {i : Slot} {s : Wm} {n : Nat}
    (h : (s.windows i).imagePixels = some n) (hpos : 0 < (s.windows i).imageBytes) :
    wmWindowFreeImage i s =
      { s with frees := ⟨n, wmImagePages (s.windows i).imageBytes⟩ :: s.frees }.modify i
        WmWindow.withoutImage := by
  simp only [wmWindowFreeImage, h, gt_iff_lt, hpos, if_true]

/-- Whatever is released, only the window and the list of releases change. -/
theorem wmWindowFreeImage_eq (i : Slot) (s : Wm) :
    ∃ frees, wmWindowFreeImage i s =
      { s with frees := frees }.modify i WmWindow.withoutImage := by
  cases hpixels : (s.windows i).imagePixels with
  | none => exact ⟨s.frees, wmWindowFreeImage_none hpixels⟩
  | some n =>
      by_cases hpos : 0 < (s.windows i).imageBytes
      · exact ⟨_, wmWindowFreeImage_some hpixels hpos⟩
      · refine ⟨s.frees, ?_⟩
        simp only [wmWindowFreeImage, hpixels, gt_iff_lt, if_neg hpos]

theorem wmWindowFreeImage_self (i : Slot) (s : Wm) :
    (wmWindowFreeImage i s).windows i = (s.windows i).withoutImage := by
  obtain ⟨frees, heq⟩ := wmWindowFreeImage_eq i s
  rw [heq]
  exact Function.update_self ..

/-- The buffer is released whole, and its window gives it up. -/
theorem WmImagesInv.freeImage {s : Wm} (h : WmImagesInv s) (i : Slot) :
    WmImagesInv (wmWindowFreeImage i s) := by
  cases hpixels : (s.windows i).imagePixels with
  | none =>
      rw [wmWindowFreeImage_none hpixels]
      exact h.setWindow_keep (ImageOk.none rfl) (Or.inl rfl)
  | some n =>
      obtain ⟨image, hget, hbytes, hpos⟩ := (h.windows i).size n hpixels
      rw [wmWindowFreeImage_some hpixels hpos]
      set t : Wm := { s with frees := ⟨n, wmImagePages (s.windows i).imageBytes⟩ :: s.frees }
      have hself : (t.modify i WmWindow.withoutImage).windows i = (s.windows i).withoutImage :=
        Function.update_self ..
      have hother : ∀ j, j ≠ i → (t.modify i WmWindow.withoutImage).windows j = s.windows j :=
        fun j hj => Function.update_of_ne hj ..
      constructor
      · refine ⟨h.safe.reads, h.safe.copies, h.safe.buffers, ?_, ?_⟩
        · change (n :: s.frees.map WmFree.image).Nodup
          rw [List.nodup_cons]
          exact ⟨(h.windows i).live n hpixels, h.safe.freedOnce⟩
        · intro f hf
          cases List.mem_cons.mp hf with
          | inl heq =>
              rw [heq]
              refine ⟨image, hget, ?_⟩
              rw [(h.pages image (List.mem_of_getElem? hget)).1, hbytes]
          | inr hold => exact h.safe.freedWhole f hold
      · intro j
        by_cases hj : j = i
        · rw [hj, hself]
          exact ImageOk.none rfl
        · rw [hother j hj]
          refine ⟨?_, (h.windows j).size, (h.windows j).shown⟩
          intro m hm hmem
          cases List.mem_cons.mp hmem with
          | inl heq =>
              rw [heq] at hm
              exact hj (h.apart j i n hm hpixels)
          | inr hold => exact (h.windows j).live m hm hold
      · intro j k m hjm hkm
        by_cases hj : j = i
        · rw [hj, hself] at hjm
          cases hjm
        · by_cases hk : k = i
          · rw [hk, hself] at hkm
            cases hkm
          · rw [hother j hj] at hjm
            rw [hother k hk] at hkm
            exact h.apart j k m hjm hkm
      · exact h.pages

/-- Pages that hold the bytes asked for. -/
theorem wmImagePages_enough {bytes : Nat} (hlt : bytes < 2 ^ 32) (hpages : wmImagePages bytes ≠ 0) :
    bytes ≤ pageSize * wmImagePages bytes := by
  simp only [wmImagePages, pageSize] at *
  omega

theorem wmImageSize_lt (w h : Int) : wmImageSize w h < 2 ^ 32 := by
  have hlow := Int.emod_nonneg (w * h * 4) (b := 2 ^ 32) (by decide)
  have hhigh := Int.emod_lt_of_pos (w * h * 4) (b := 2 ^ 32) (by decide)
  rw [wmImageSize]
  omega

/-- The allocations keep their sizes, and new ones have room for theirs. -/
theorem WmImagesInv.withImages {s : Wm} (h : WmImagesInv s) {images : List WmImage}
    (hold : ∀ (n : Nat) (image : WmImage), s.images[n]? = some image → ∃ image' : WmImage,
      images[n]? = some image' ∧ image'.bytes = image.bytes ∧ image'.pages = image.pages)
    (hall : ∀ image ∈ images, (image.pages = wmImagePages image.bytes ∧ image.bytes < 2 ^ 32) ∧
      image.bytes ≤ pageSize * image.pages) :
    WmImagesInv { s with images := images } := by
  constructor
  · refine ⟨?_, ?_, fun image hmem => (hall image hmem).2, h.safe.freedOnce, ?_⟩
    · intro r hr
      obtain ⟨image, hget, hindex⟩ := h.safe.reads r hr
      obtain ⟨image', hget', hbytes, -⟩ := hold _ _ hget
      exact ⟨image', hget', hbytes ▸ hindex⟩
    · intro c hc hpos
      obtain ⟨n, image, hdst, hget, hle⟩ := h.safe.copies c hc hpos
      obtain ⟨image', hget', hbytes, -⟩ := hold _ _ hget
      exact ⟨n, image', hdst, hget', hbytes ▸ hle⟩
    · intro f hf
      obtain ⟨image, hget, hwhole⟩ := h.safe.freedWhole f hf
      obtain ⟨image', hget', -, hpages⟩ := hold _ _ hget
      exact ⟨image', hget', hwhole.trans hpages.symm⟩
  · intro i
    refine ⟨(h.windows i).live, ?_, (h.windows i).shown⟩
    intro n hn
    obtain ⟨image, hget, hsize, hpos⟩ := (h.windows i).size n hn
    obtain ⟨image', hget', hbytes, -⟩ := hold _ _ hget
    exact ⟨image', hget', hbytes.trans hsize, hpos⟩
  · exact h.apart
  · exact fun image hmem => (hall image hmem).1

theorem getElem?_append_old {α : Type} {l : List α} {n : Nat} {a : α} (h : l[n]? = some a)
    (l' : List α) : (l ++ l')[n]? = some a := by
  rw [List.getElem?_append_left (List.getElem?_eq_some_iff.mp h).1, h]

/-- A new allocation, which no window has. -/
theorem WmImagesInv.addImage {s : Wm} (h : WmImagesInv s) {bytes : Nat} (hlt : bytes < 2 ^ 32)
    (hpages : wmImagePages bytes ≠ 0) (words : Nat → UInt32) :
    WmImagesInv { s with images := s.images ++ [⟨bytes, wmImagePages bytes, words⟩] } := by
  apply h.withImages
  · intro n image hget
    exact ⟨image, getElem?_append_old hget _, rfl, rfl⟩
  · intro image hmem
    cases List.mem_append.mp hmem with
    | inl hin => exact ⟨h.pages image hin, h.safe.buffers image hin⟩
    | inr hnew =>
        rw [List.mem_singleton.mp hnew]
        exact ⟨⟨rfl, hlt⟩, wmImagePages_enough hlt hpages⟩

/-! ## Copying -/

theorem getElem?_modify_store {images : List WmImage} {m n : Nat} {image : WmImage}
    (h : images[n]? = some image) (pixels : Nat → UInt32) (bytes : Nat) :
    (images.modify m fun image => image.store pixels bytes)[n]? =
      some (if m = n then image.store pixels bytes else image) := by
  rw [List.getElem?_modify, h]
  rfl

/-- Copying within an allocation. -/
theorem WmImagesInv.store {s : Wm} (h : WmImagesInv s) (n : Nat) (pixels : Nat → UInt32)
    (bytes : Nat) :
    WmImagesInv { s with images := s.images.modify n fun image => image.store pixels bytes } := by
  apply h.withImages
  · intro m image hget
    refine ⟨_, getElem?_modify_store hget pixels bytes, ?_⟩
    split_ifs <;> exact ⟨rfl, rfl⟩
  · intro image hmem
    obtain ⟨m, hget⟩ := List.mem_iff_getElem?.mp hmem
    rw [List.getElem?_modify] at hget
    obtain ⟨image', hget', heq⟩ := Option.map_eq_some_iff.mp hget
    have hin := List.mem_of_getElem? hget'
    rw [← heq]
    split_ifs
    · exact ⟨h.pages image' hin, h.safe.buffers image' hin⟩
    · exact ⟨h.pages image' hin, h.safe.buffers image' hin⟩

theorem WmImagesInv.copyImage {s : Wm} (h : WmImagesInv s) {dst : Option Nat}
    {pixels : Nat → UInt32} {bytes : Nat}
    (hfits : 0 < bytes → ∃ n image, dst = some n ∧ s.images[n]? = some image ∧ bytes ≤ image.bytes) :
    WmImagesInv (wmCopyImage dst pixels bytes s) := by
  have hlog : WmImagesInv { s with copies := ⟨dst, bytes⟩ :: s.copies } := by
    refine ⟨⟨h.safe.reads, ?_, h.safe.buffers, h.safe.freedOnce, h.safe.freedWhole⟩,
      fun i => ⟨(h.windows i).live, (h.windows i).size, (h.windows i).shown⟩, h.apart, h.pages⟩
    intro c hc hpos
    cases List.mem_cons.mp hc with
    | inl heq =>
        rw [heq] at hpos ⊢
        exact hfits hpos
    | inr hold => exact h.safe.copies c hold hpos
  cases dst with
  | none =>
      have hzero : bytes = 0 := by
        by_contra hne
        obtain ⟨n, image, hdst, -⟩ := hfits (by omega)
        cases hdst
      rw [wmCopyImage]
      simp only [if_pos hzero]
      exact hlog
  | some n => exact hlog.store n pixels bytes

/-! ## Reading -/

theorem mem_span {a b v : Int} : v ∈ span a b ↔ a ≤ v ∧ v < b := by
  rw [span, List.mem_map]
  constructor
  · rintro ⟨n, hn, rfl⟩
    rw [List.mem_range] at hn
    omega
  · intro h
    exact ⟨(v - a).toNat, List.mem_range.mpr (by omega), by omega⟩

/-- A rectangle is filled without reading an image. -/
theorem wmGpuFillRect_reads (clip : Option WmRect) (fbW fbH x y w h : Int) (color : UInt32)
    (c : WmCanvas) : (wmGpuFillRect clip fbW fbH x y w h color c).reads = c.reads := by
  unfold wmGpuFillRect
  refine List.foldlRecOn (motive := fun d : WmCanvas => d.reads = c.reads) _ _ rfl ?_
  intro d hd yy _
  split_ifs
  · exact hd
  · refine List.foldlRecOn (motive := fun d : WmCanvas => d.reads = c.reads) _ _ hd ?_
    intro e he xx _
    split_ifs
    · exact he
    · exact he
    · exact he

/-- The word is in the image's buffer. -/
def ReadOk (s : Wm) (r : WmRead) : Prop :=
  ∃ image, s.images[r.image]? = some image ∧ 0 ≤ r.index ∧ 4 * r.index + 4 ≤ image.bytes

/-- A pixel of an image of `w` by `h` words is one of them, and its index is an `int`. -/
theorem image_index {w h xx yy : Int} {bytes : Nat} (hlt : bytes < 2 ^ 32)
    (hsize : w * h * 4 ≤ bytes) (hx : 0 ≤ xx ∧ xx < w) (hy : 0 ≤ yy ∧ yy < h) :
    s32 (s32 (yy * w) + xx) = yy * w + xx ∧ 0 ≤ yy * w + xx ∧ 4 * (yy * w + xx) + 4 ≤ bytes := by
  have hrow : 0 ≤ yy * w := mul_nonneg hy.1 (by omega)
  have hrows : yy * w + w ≤ w * h := by
    calc yy * w + w = (yy + 1) * w := by ring
      _ ≤ h * w := mul_le_mul_of_nonneg_right (by omega) (by omega)
      _ = w * h := mul_comm h w
  have hinner : s32 (yy * w) = yy * w := s32_eq (by omega) (by omega)
  rw [hinner, s32_eq (by omega) (by omega)]
  exact ⟨rfl, by omega, by omega⟩

/-- Drawing reads only words of the windows' buffers. -/
theorem wmPaint_reads {s : Wm} (h : WmImagesInv s)
    (clip : Option WmRect) (wild : Nat → Int → UInt32) {c : WmCanvas}
    (hc : ∀ r ∈ c.reads, ReadOk s r) : ∀ r ∈ (wmPaint clip wild s c).reads, ReadOk s r := by
  unfold wmPaint
  simp only [wmGpuFillRect_reads]
  refine List.foldlRecOn (motive := fun d : WmCanvas => ∀ r ∈ d.reads, ReadOk s r) _ _ ?_ ?_
  · rw [wmGpuFillRect_reads]
    exact hc
  intro d hd i _
  unfold wmPaintWindow
  cases hpixels : (s.windows i).imagePixels with
  | none =>
      simp only [hpixels, wmGpuFillRect_reads]
      exact hd
  | some n =>
      simp only [hpixels]
      split_ifs with hhas
      · obtain ⟨image, hget, hbytes, hpos⟩ := (h.windows i).size n hpixels
        have hshown := (h.windows i).shown n hpixels hhas
        have hlt := (h.pages image (List.mem_of_getElem? hget)).2
        unfold wmBlit
        refine List.foldlRecOn (motive := fun d : WmCanvas => ∀ r ∈ d.reads, ReadOk s r) _ _ ?_ ?_
        · rw [wmGpuFillRect_reads]
          exact hd
        intro e he yy hyy
        refine List.foldlRecOn (motive := fun d : WmCanvas => ∀ r ∈ d.reads, ReadOk s r) _ _ he ?_
        intro f hf xx hxx
        rw [mem_span, lt_min_iff] at hyy hxx
        simp only
        split_ifs
        · exact hf
        · intro r hr
          cases List.mem_cons.mp hr with
          | inl heq =>
              obtain ⟨hindex, hlow, hhigh⟩ := image_index (hbytes ▸ hlt)
                (hshown (by omega) (by omega)) ⟨hxx.1, hxx.2.1⟩ ⟨hyy.1, hyy.2.1⟩
              refine ⟨image, heq ▸ hget, ?_⟩
              rw [heq, hbytes]
              simp only [hindex]
              exact ⟨hlow, hhigh⟩
          | inr hold => exact hf r hold
        · exact hf
      · rw [wmGpuFillRect_reads]
        exact hd

/-! ## The calls -/

/-- The byte after the last one, when the copy runs on, ends the string once more. -/
theorem strncpy_last (src : List UInt8) (n : Nat) :
    (strncpy src n)[n]? = none ∨ (strncpy src n)[n]? = some 0 := by
  induction n generalizing src with
  | zero =>
      left
      cases src <;> rfl
  | succ n ih =>
      cases src with
      | nil =>
          right
          rw [strncpy, List.getElem?_cons_succ, List.getElem?_replicate, if_pos (Nat.lt_succ_self n)]
      | cons c src =>
          rw [strncpy, List.getElem?_cons_succ]
          exact ih src

/-- Setting a text keeps `has_image` or clears its lowest byte. -/
theorem storeText_hasImage (w : WmWindow) (text : List UInt8) :
    (w.storeText (strncpy text wmTextMax)).hasImage = w.hasImage ∨
      (w.storeText (strncpy text wmTextMax)).hasImage = setLowByte w.hasImage 0 := by
  unfold WmWindow.storeText
  cases strncpy_last text wmTextMax with
  | inl hnone =>
      left
      simp only [hnone]
  | inr hzero =>
      right
      simp only [hzero]

theorem wmRepackZ_sameImages (s : Wm) : SameImages s (wmRepackZ s) := by
  have hloop : SameImages s ((wmOrder s WmWindow.used).zipIdx.foldl
      (fun (s : Wm) p => s.modify p.1 fun win => { win with z := p.2 + 1 }) s) := by
    refine List.foldlRecOn (motive := fun t : Wm => SameImages s t) _ _ (SameImages.refl s) ?_
    intro t ht p _
    exact ht.trans (SameImages.modify t p.1 fun _ => rfl)
  exact hloop.trans ⟨fun _ => rfl, rfl, rfl, rfl, rfl, rfl⟩

theorem wmSetFocusInternal_sameImages (id : Int) (s : Wm) :
    SameImages s (wmSetFocusInternal id s).2 := by
  cases wmSetFocusInternal_spec id s with
  | inl hsame =>
      rw [hsame.1]
      exact SameImages.refl s
  | inr hmoved =>
      have hfocus : SameImages s { s with focusId := id } := ⟨fun _ => rfl, rfl, rfl, rfl, rfl, rfl⟩
      exact hfocus.trans hmoved.2.sameImages

theorem wmFocus_sameImages (id : Int) (s : Wm) : SameImages s (wmFocus id s).2 := by
  unfold wmFocus
  cases wmFind s id with
  | none => exact SameImages.refl s
  | some i =>
      have hraise := SameImages.modify s i (fun _ => rfl) (f := fun win => { win with z := s.nextZ })
      have hcount : SameImages s { s.modify i fun win => { win with z := s.nextZ } with
          nextZ := s32 (s.nextZ + 1) } := hraise.trans ⟨fun _ => rfl, rfl, rfl, rfl, rfl, rfl⟩
      exact hcount.trans (wmSetFocusInternal_sameImages id _)

theorem wmMarkDirtyFull_sameImages (s : Wm) : SameImages s (wmMarkDirtyFull s) :=
  ⟨fun _ => rfl, rfl, rfl, rfl, rfl, rfl⟩

/-- An event is ignored, moves the cursor, or may move the focus. -/
theorem wmPollOne_spec (r : Wm × Bool) (ev : WmInput) :
    wmPollOne r ev = r ∨ ((wmPollOne r ev).2 = true ∧
      ((∃ x y, (wmPollOne r ev).1 = { r.1 with cursorX := x, cursorY := y }) ∨
        ∃ id, (wmPollOne r ev).1 = (wmFocus id r.1).2)) := by
  have hnokey : viEvRel ≠ viEvKey := by decide
  unfold wmPollOne
  by_cases hrel : ev.type = viEvRel
  · simp only [hrel, if_true, hnokey, false_and, if_false]
    by_cases hx : ev.code = viRelX
    · right
      have hy : viRelX ≠ viRelY := by decide
      simp only [hx, if_true, hy, if_false]
      exact ⟨trivial, Or.inl ⟨_, r.1.cursorY, rfl⟩⟩
    · simp only [if_neg hx]
      by_cases hy : ev.code = viRelY
      · right
        simp only [if_pos hy]
        exact ⟨trivial, Or.inl ⟨r.1.cursorX, _, rfl⟩⟩
      · left
        simp only [if_neg hy]
  · simp only [if_neg hrel]
    by_cases hkey : ev.type = viEvKey ∧ ev.code = viBtnLeft
    · right
      have hidle : r.1 = { r.1 with cursorX := r.1.cursorX, cursorY := r.1.cursorY } := rfl
      simp only [if_pos hkey]
      by_cases hdown : ev.value ≠ 0
      · simp only [if_pos hdown]
        cases wmTopAt r.1 r.1.cursorX r.1.cursorY 0 with
        | none => exact ⟨rfl, Or.inl ⟨_, _, hidle⟩⟩
        | some i => exact ⟨rfl, Or.inr ⟨_, rfl⟩⟩
      · simp only [if_neg hdown]
        exact ⟨trivial, Or.inl ⟨_, _, hidle⟩⟩
    · left
      simp only [if_neg hkey]

theorem wmPollOne_sameImages (r : Wm × Bool) (ev : WmInput) :
    SameImages r.1 (wmPollOne r ev).1 := by
  cases wmPollOne_spec r ev with
  | inl hsame =>
      rw [hsame]
      exact SameImages.refl r.1
  | inr hchanged =>
      cases hchanged.2 with
      | inl hcursor =>
          obtain ⟨x, y, heq⟩ := hcursor
          rw [heq]
          exact ⟨fun _ => rfl, rfl, rfl, rfl, rfl, rfl⟩
      | inr hfocus =>
          obtain ⟨id, heq⟩ := hfocus
          rw [heq]
          exact wmFocus_sameImages id r.1

theorem wmPollMouseInput_sameImages (events : List WmInput) (s : Wm) :
    SameImages s (wmPollMouseInput events s) := by
  have hloop : SameImages s (events.foldl wmPollOne (s, false)).1 := by
    refine List.foldlRecOn (motive := fun r : Wm × Bool => SameImages s r.1) _ _
      (SameImages.refl s) ?_
    intro r hr ev _
    exact hr.trans (wmPollOne_sameImages r ev)
  rw [wmPollMouseInput]
  split_ifs
  · exact hloop.trans (wmMarkDirtyFull_sameImages _)
  · exact hloop

theorem WmImagesInv.create {s : Wm} (h : WmImagesInv s) (title : Option (List UInt8)) (w ht : Int) :
    WmImagesInv (wmCreate title w ht s).2 := by
  unfold wmCreate
  cases (List.finRange wmMaxWindows).find? fun i => !(s.windows i).used with
  | none => exact h
  | some slot =>
      apply WmImagesInv.of_same ?_ (wmMarkDirtyTaskbar_keeps _).sameImages
      apply WmImagesInv.of_same ?_ (wmMarkDirtyWindow_keeps (some slot) _).sameImages
      have hset : ∀ win : WmWindow, win.imagePixels = none → WmImagesInv (s.setWindow slot win) :=
        fun win hnone => h.setWindow_keep (ImageOk.none hnone) (Or.inl hnone)
      refine WmImagesInv.of_same (hset _ ?_) ⟨fun _ => rfl, rfl, rfl, rfl, rfl, rfl⟩
      rfl

/-- A window changed between two marks, elsewhere than in its image. -/
theorem WmImagesInv.change {s : Wm} (h : WmImagesInv s) (i : Slot) {f : WmWindow → WmWindow}
    (hf : ∀ w, (f w).image = w.image) :
    WmImagesInv (wmMarkDirtyWindow (some i) ((wmMarkDirtyWindow (some i) s).modify i f)) := by
  have hbefore := (wmMarkDirtyWindow_keeps (some i) s).sameImages
  have hset := hbefore.trans (SameImages.modify (wmMarkDirtyWindow (some i) s) i hf)
  exact h.of_same (hset.trans (wmMarkDirtyWindow_keeps (some i) _).sameImages)

theorem WmImagesInv.close {s : Wm} (h : WmImagesInv s) (id : Int) :
    WmImagesInv (wmClose id s).2 := by
  unfold wmClose
  cases wmFind s id with
  | none => exact h
  | some i =>
      have hmarked := h.of_same (wmMarkDirtyWindow_keeps (some i) s).sameImages
      have hfreed := hmarked.freeImage i
      simp only
      set t := wmWindowFreeImage i (wmMarkDirtyWindow (some i) s)
      have hunused : WmImagesInv (t.modify i fun win => { win with used := false }) :=
        hfreed.of_same (SameImages.modify t i fun _ => rfl)
      apply WmImagesInv.of_same ?_ (wmMarkDirtyTaskbar_keeps _).sameImages
      split_ifs
      · exact hunused.of_same ⟨fun _ => rfl, rfl, rfl, rfl, rfl, rfl⟩
      · exact hunused

theorem WmImagesInv.setText {s : Wm} (h : WmImagesInv s) (id : Int) (text : List UInt8) :
    WmImagesInv (wmSetText id text s).2 := by
  unfold wmSetText
  cases wmFind s id with
  | none => exact h
  | some i =>
      apply WmImagesInv.of_same ?_ (wmMarkDirtyWindow_keeps (some i) _).sameImages
      refine h.setWindow_keep ⟨(h.windows i).live, (h.windows i).size, ?_⟩ (Or.inr rfl)
      intro n hn hhas
      apply (h.windows i).shown n hn
      intro hzero
      cases storeText_hasImage (s.windows i) text with
      | inl hkept => exact hhas (hkept.trans hzero)
      | inr hcleared =>
          rw [hzero] at hcleared
          exact hhas hcleared

/-- A window without a buffer gets the one allocated, if there is one. -/
theorem WmImagesInv.allocate {s : Wm} (h : WmImagesInv s) {i : Slot} {bytes : Nat}
    (hlt : bytes < 2 ^ 32) (hhas : (s.windows i).hasImage = 0) (memory : Option (Nat → UInt32)) :
    WmImagesInv ((wmAllocImage bytes memory s).2.modify i fun win =>
      { win with imagePixels := (wmAllocImage bytes memory s).1, imageBytes := bytes }) := by
  have hnone : WmImagesInv (s.modify i fun win =>
      { win with imagePixels := none, imageBytes := bytes }) :=
    h.setWindow_keep (ImageOk.none rfl) (Or.inl rfl)
  unfold wmAllocImage
  by_cases hpages : wmImagePages bytes = 0
  · simp only [if_pos hpages]
    exact hnone
  simp only [if_neg hpages]
  cases memory with
  | none => exact hnone
  | some words =>
      -- No other window, and no release, knows the number of the new allocation.
      have hknown : ∀ n image, s.images[n]? = some image → n ≠ s.images.length := by
        intro n image hget
        have hlen := (List.getElem?_eq_some_iff.mp hget).1
        omega
      apply (h.addImage hlt hpages words).setWindow
      · constructor
        · intro n hn hmem
          cases hn
          obtain ⟨f, hf, hfn⟩ := List.mem_map.mp hmem
          obtain ⟨image, hget, -⟩ := h.safe.freedWhole f hf
          exact hknown _ _ hget hfn
        · intro n hn
          cases hn
          refine ⟨_, List.getElem?_concat_length, rfl, ?_⟩
          by_contra hzero
          have hbytes : bytes = 0 := Nat.eq_zero_of_not_pos hzero
          rw [hbytes] at hpages
          exact hpages rfl
        · intro n hn hshown
          exact absurd hhas hshown
      · intro j n _ hn hjn
        cases hn
        obtain ⟨image, hget, -⟩ := (h.windows j).size _ hjn
        exact hknown _ _ hget rfl

/-- The buffer holds the bytes that will be copied, when there are any. -/
theorem WmImagesInv.imageBuffer {s : Wm} (h : WmImagesInv s) {i : Slot} {bytes : Nat}
    (hlt : bytes < 2 ^ 32) {memory : Option (Nat → UInt32)}
    (hroom : bytes = 0 ∨ (s.windows i).reuses bytes ∨
      (wmImagePages bytes ≠ 0 ∧ memory.isSome)) :
    WmImagesInv (wmImageBuffer i bytes memory s) ∧
      (0 < bytes → ((wmImageBuffer i bytes memory s).windows i).imagePixels ≠ none) ∧
      (((wmImageBuffer i bytes memory s).windows i).imagePixels ≠ none →
        bytes ≤ ((wmImageBuffer i bytes memory s).windows i).imageBytes) := by
  unfold wmImageBuffer
  by_cases hreuse : (s.windows i).reuses bytes
  · rw [if_pos hreuse]
    rw [WmWindow.reuses, Bool.and_eq_true, Bool.not_eq_true', decide_eq_false_iff_not] at hreuse
    refine ⟨h, ?_, ?_⟩
    · intro _ hnone
      rw [hnone] at hreuse
      cases hreuse.1
    · intro _
      exact not_lt.mp hreuse.2
  rw [if_neg hreuse]
  have hfreed := h.freeImage i
  have hself := wmWindowFreeImage_self i s
  set t := wmWindowFreeImage i s
  have hbuffer : ∀ r : Option Nat × Wm,
      (r.2.modify i fun win => { win with imagePixels := r.1, imageBytes := bytes }).windows i =
        { r.2.windows i with imagePixels := r.1, imageBytes := bytes } :=
    fun r => Function.update_self ..
  simp only
  refine ⟨hfreed.allocate hlt ?_ memory, ?_, ?_⟩
  · rw [hself]
    rfl
  · intro hpos
    rw [hbuffer]
    have hnew : wmImagePages bytes ≠ 0 ∧ memory.isSome := by
      cases hroom with
      | inl hzero => exact absurd hzero (by omega)
      | inr hrest => exact hrest.resolve_left hreuse
    obtain ⟨words, hwords⟩ := Option.isSome_iff_exists.mp hnew.2
    simp only [wmAllocImage, if_neg hnew.1, hwords]
    exact Option.some_ne_none _
  · intro _
    rw [hbuffer]

/-- The size of an image does not wrap, and the bytes to copy find a buffer. -/
def ImageFits (s : Wm) (i : Slot) (w h : Int) (memory : Option (Nat → UInt32)) : Prop :=
  (0 < w → 0 < h → w * h * 4 < 2 ^ 32) ∧
    (wmImageSize w h = 0 ∨ (s.windows i).reuses (wmImageSize w h) ∨
      (wmImagePages (wmImageSize w h) ≠ 0 ∧ memory.isSome))

/-- When a call keeps images in their buffers. -/
def WmOp.ImageOk (s : Wm) : WmOp → Prop
  | .setImage id (some _) w h memory => ∀ i, wmFind s id = some i → ImageFits s i w h memory
  | _ => True

theorem wmCopyImage_windows (dst : Option Nat) (pixels : Nat → UInt32) (bytes : Nat) (s : Wm) :
    (wmCopyImage dst pixels bytes s).windows = s.windows := by
  unfold wmCopyImage
  cases dst with
  | none =>
      simp only
      split_ifs <;> rfl
  | some n => rfl

theorem WmImagesInv.setImage {s : Wm} (h : WmImagesInv s) {id : Int}
    {pixels : Option (Nat → UInt32)} {w ht : Int} {memory : Option (Nat → UInt32)}
    (hok : WmOp.ImageOk s (.setImage id pixels w ht memory)) :
    WmImagesInv (wmSetImage id pixels w ht memory s).2 := by
  unfold wmSetImage
  cases hfind : wmFind s id with
  | none => exact h
  | some i =>
      cases pixels with
      | none => exact h.freeImage i
      | some pixels =>
          obtain ⟨hnowrap, hroom⟩ := hok i hfind
          have hlt := wmImageSize_lt w ht
          obtain ⟨hbuffer, hthere, hlarge⟩ := h.imageBuffer hlt hroom
          simp only
          set t := wmImageBuffer i (wmImageSize w ht) memory s
          have hcopied : WmImagesInv
              (wmCopyImage (t.windows i).imagePixels pixels (wmImageSize w ht) t) := by
            apply hbuffer.copyImage
            intro hpos
            obtain ⟨n, hn⟩ := Option.ne_none_iff_exists'.mp (hthere hpos)
            obtain ⟨image, hget, hbytes, -⟩ := (hbuffer.windows i).size n hn
            exact ⟨n, image, hn, hget, hbytes ▸ hlarge (hthere hpos)⟩
          have hwindows := wmCopyImage_windows (t.windows i).imagePixels pixels (wmImageSize w ht) t
          set u := wmCopyImage (t.windows i).imagePixels pixels (wmImageSize w ht) t
          split_ifs
          · exact hcopied
          · apply WmImagesInv.of_same ?_ (wmMarkDirtyWindow_keeps (some i) _).sameImages
            refine hcopied.setWindow_keep
              ⟨(hcopied.windows i).live, (hcopied.windows i).size, ?_⟩ (Or.inr rfl)
            intro n hn _ hw hht
            have hsome : (t.windows i).imagePixels ≠ none := by
              rw [← hwindows]
              intro hnone
              change (u.windows i).imagePixels = some n at hn
              rw [hnone] at hn
              cases hn
            have hle := hlarge hsome
            have hfit := hnowrap hw hht
            have hprod : 0 < w * ht := mul_pos hw hht
            change w * ht * 4 ≤ ((u.windows i).imageBytes : Int)
            rw [hwindows]
            rw [wmImageSize, Int.emod_eq_of_lt (by omega) hfit] at hle
            omega

theorem WmImagesInv.render {s : Wm} (h : WmImagesInv s) (wild : Nat → Int → UInt32) :
    WmImagesInv (wmRender wild s) := by
  have hrepacked := h.of_same (wmRepackZ_sameImages s)
  unfold wmRender wmRenderGpu
  set t := wmRepackZ s
  simp only
  split_ifs
  · cases t.dirty with
    | none => exact hrepacked
    | some clip =>
        refine ⟨⟨?_, hrepacked.safe.copies, hrepacked.safe.buffers, hrepacked.safe.freedOnce,
          hrepacked.safe.freedWhole⟩, fun i => ⟨(hrepacked.windows i).live,
          (hrepacked.windows i).size, (hrepacked.windows i).shown⟩, hrepacked.apart,
          hrepacked.pages⟩
        exact wmPaint_reads hrepacked (some clip) wild hrepacked.safe.reads
  · exact hrepacked

theorem WmImagesInv.step {s : Wm} (h : WmImagesInv s) {op : WmOp} (hok : op.ImageOk s) :
    WmImagesInv (s.step op) := by
  unfold Wm.step
  split_ifs
  · exact h
  cases op with
  | create title w ht => exact h.create title w ht
  | move id x y =>
      simp only [Wm.exec, wmMove]
      cases wmFind s id with
      | none => exact h
      | some i => exact h.change i fun _ => rfl
  | resize id w ht =>
      simp only [Wm.exec, wmResize]
      cases wmFind s id with
      | none => exact h
      | some i => exact h.change i fun _ => rfl
  | focus id => exact h.of_same (wmFocus_sameImages id s)
  | close id => exact h.close id
  | setText id text => exact h.setText id text
  | setImage id pixels w ht memory => exact h.setImage hok
  | cursorMove dx dy => exact h.of_same ⟨fun _ => rfl, rfl, rfl, rfl, rfl, rfl⟩
  | pollMouseInput events => exact h.of_same (wmPollMouseInput_sameImages events s)
  | pollEvent id => exact h.of_same (wmPollEvent_keeps id s).sameImages
  | render wild => exact h.render wild

theorem WmImagesInv.start (gpu : Option (Int × Int)) : WmImagesInv (wmInit gpu Wm.boot) := by
  have hwindows : (wmInit gpu Wm.boot).windows = fun _ => WmWindow.zero := by
    cases gpu <;> rfl
  have hempty : (wmInit gpu Wm.boot).images = [] ∧ (wmInit gpu Wm.boot).copies = [] ∧
      (wmInit gpu Wm.boot).frees = [] ∧ (wmInit gpu Wm.boot).reads = [] := by
    cases gpu <;> exact ⟨rfl, rfl, rfl, rfl⟩
  obtain ⟨himages, hcopies, hfrees, hreads⟩ := hempty
  constructor
  · constructor
    · rw [hreads]
      exact fun _ hr => absurd hr List.not_mem_nil
    · rw [hcopies]
      exact fun _ hc => absurd hc List.not_mem_nil
    · rw [himages]
      exact fun _ himage => absurd himage List.not_mem_nil
    · rw [hfrees]
      exact List.nodup_nil
    · rw [hfrees]
      exact fun _ hf => absurd hf List.not_mem_nil
  · intro i
    rw [hwindows]
    exact ImageOk.none rfl
  · intro i j n hi
    rw [hwindows] at hi
    cases hi
  · rw [himages]
    exact fun _ himage => absurd himage List.not_mem_nil

/-- Every call of a run meets a condition on it and on the state it starts in. -/
def Wm.Along (ok : Wm → WmOp → Prop) : Wm → List WmOp → Prop
  | _, [] => True
  | s, op :: ops => ok s op ∧ Wm.Along ok (s.step op) ops

theorem WmImagesInv.run {s : Wm} (h : WmImagesInv s) {ops : List WmOp}
    (hok : s.Along (fun s op => op.ImageOk s) ops) : WmImagesInv (s.run ops) := by
  induction ops generalizing s with
  | nil => exact h
  | cons op ops ih => exact ih (h.step hok.1) hok.2

/-- Images stay in their buffers in every run in which no size wraps and every copy
finds its buffer. -/
theorem wm_images_safe (gpu : Option (Int × Int)) (ops : List WmOp)
    (hok : (wmInit gpu Wm.boot).Along (fun s op => op.ImageOk s) ops) :
    WmImagesSafe ((wmInit gpu Wm.boot).run ops) :=
  ((WmImagesInv.start gpu).run hok).safe

theorem wm_images_safe_two : WmImagesSafe ((wmInit (some (2, 2)) Wm.boot).run
    [.create none 2 1, .setImage 1 (some fun n => n.toUInt32) 2 1 (some fun _ => 0),
      .render fun _ _ => 0]) := by
  apply wm_images_safe
  refine ⟨trivial, ?_, trivial, trivial⟩
  intro i _
  exact ⟨by decide, Or.inr (Or.inr ⟨by decide, rfl⟩)⟩

/-- A window two pixels wide with an image of 2^30 + 1 words in a row, for which one
word is allocated. -/
def wmWrappedSize : List WmOp :=
  [.create none 2 1, .setImage 1 (some fun n => n.toUInt32) (2 ^ 30 + 1) 1 (some fun _ => 0),
    .render fun _ _ => 0]

theorem wm_images_wrapped : ¬ ∀ (gpu : Option (Int × Int)) (ops : List WmOp),
    WmImagesSafe ((wmInit gpu Wm.boot).run ops) := by
  intro hall
  have hread : ⟨0, 1⟩ ∈ ((wmInit (some (2, 2)) Wm.boot).run wmWrappedSize).reads := by
    decide +kernel
  have hsizes : ((wmInit (some (2, 2)) Wm.boot).run wmWrappedSize).images.map WmImage.bytes =
      [4] := by
    decide +kernel
  obtain ⟨image, hget, -, hle⟩ := (hall (some (2, 2)) wmWrappedSize).reads _ hread
  have hbytes := congrArg (·[0]?) hsizes
  simp only [List.getElem?_map, hget, Option.map_some, List.getElem?_cons_zero,
    Option.some.injEq] at hbytes
  rw [hbytes] at hle
  exact absurd hle (by decide)

end Sugimotos.Gui
