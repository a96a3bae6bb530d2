/-
# The window manager

Model of `kernel/gui/wm.c`.  A C `int` is an `Int` that wraps
where the source adds or multiplies.  The window that a pointer names is its slot.

An image lives in an allocation of its own, named by its position in the list of all
allocations; what `alloc_pages` answers, and what the memory it hands out holds, is
part of the call.  A copy to the null pointer stops the machine.  The lists of copies,
releases and reads are kept beside the machine and no function reads them.
-/

import Sugimotos.Math.Ring
import Sugimotos.Math.SelectionSort
import Mathlib.Data.List.FinRange
import Mathlib.Logic.Function.Basic
import Mathlib.Data.UInt

namespace Sugimotos.Gui

open Sugimotos.Math

abbrev wmTextScreenW : Int := 80
abbrev wmTextScreenH : Int := 25
abbrev wmMaxWindows : Nat := 8
abbrev wmTitleMax : Nat := 24
abbrev wmTextMax : Nat := 4096
abbrev wmEventRingSize : Nat := 256
abbrev wmTaskbarPx : Int := 28
abbrev pageSize : Nat := 4096

abbrev wmEvFocusIn : UInt32 := 1
abbrev wmEvFocusOut : UInt32 := 2
abbrev wmEvPointerMove : UInt32 := 3
abbrev wmEvOverflow : UInt32 := 5
abbrev wmEvWheel : UInt32 := 6

abbrev viEvKey : UInt16 := 1
abbrev viEvRel : UInt16 := 2
abbrev viRelX : UInt16 := 0
abbrev viRelY : UInt16 := 1
abbrev viBtnLeft : UInt16 := 272

/-- The value of a C `int` after the arithmetic wrapped. -/
def s32 (v : Int) : Int := v.bmod (2 ^ 32)

/-- `struct virtio_input_event`. -/
structure WmInput where
  type : UInt16
  code : UInt16
  value : UInt32
  deriving DecidableEq, Repr

/-- `struct wm_event`. -/
structure WmEvent where
  type : UInt32
  windowId : UInt32
  timestampMs : UInt64
  a : UInt32
  b : UInt32
  c : UInt32
  d : UInt32
  deriving DecidableEq, Repr, Inhabited

/-- `struct wm_window`.  `imagePixels` is the allocation that the pointer points to. -/
structure WmWindow where
  used : Bool
  id : Int
  visible : Bool
  focusable : Bool
  x : Int
  y : Int
  w : Int
  h : Int
  z : Int
  title : Nat → UInt8
  text : Nat → UInt8
  hasImage : Int
  imageW : Int
  imageH : Int
  imagePixels : Option Nat
  imageBytes : Nat
  evRing : Nat → WmEvent
  evHead : Nat
  evTail : Nat
  evOverflowLatched : Bool

/-- A window filled with zero bytes. -/
def WmWindow.zero : WmWindow where
  used := false
  id := 0
  visible := false
  focusable := false
  x := 0
  y := 0
  w := 0
  h := 0
  z := 0
  title _ := 0
  text _ := 0
  hasImage := 0
  imageW := 0
  imageH := 0
  imagePixels := none
  imageBytes := 0
  evRing _ := ⟨0, 0, 0, 0, 0, 0, 0⟩
  evHead := 0
  evTail := 0
  evOverflowLatched := false

/-- The points with `x0 ≤ x < x1` and `y0 ≤ y < y1`. -/
structure WmRect where
  x0 : Int
  y0 : Int
  x1 : Int
  y1 : Int
  deriving DecidableEq, Repr

/-- An allocation for an image: the size asked for, its pages and its words. -/
structure WmImage where
  bytes : Nat
  pages : Nat
  words : Nat → UInt32

/-- A `memcpy` of `wm_set_image`. -/
structure WmCopy where
  image : Option Nat
  bytes : Nat
  deriving DecidableEq, Repr

/-- A `free_pages` of `wm_window_free_image`. -/
structure WmFree where
  image : Nat
  pages : Nat
  deriving DecidableEq, Repr

/-- A read of `image_pixels[index]` in `wm_render_gpu`. -/
structure WmRead where
  image : Nat
  index : Int
  deriving DecidableEq, Repr

abbrev Slot : Type := Fin wmMaxWindows

/-- The file's variables, with the back buffer of the GPU driver and the images.
`dirty` is the rectangle while `wm_dirty_valid` is set. -/
structure Wm where
  windows : Slot → WmWindow
  nextId : Int
  nextZ : Int
  screenW : Int
  screenH : Int
  cursorX : Int
  cursorY : Int
  focusId : Int
  eventTick : UInt64
  gpuReady : Bool
  dirty : Option WmRect
  fb : Nat → UInt32
  images : List WmImage
  copies : List WmCopy
  frees : List WmFree
  reads : List WmRead
  stopped : Bool

def Wm.setWindow (s : Wm) (i : Slot) (win : WmWindow) : Wm :=
  { s with windows := Function.update s.windows i win }

def Wm.modify (s : Wm) (i : Slot) (f : WmWindow → WmWindow) : Wm :=
  s.setWindow i (f (s.windows i))

/-- The variables before the first call. -/
def Wm.boot : Wm where
  windows _ := WmWindow.zero
  nextId := 1
  nextZ := 1
  screenW := wmTextScreenW
  screenH := wmTextScreenH
  cursorX := 0
  cursorY := 0
  focusId := 0
  eventTick := 0
  gpuReady := false
  dirty := none
  fb _ := 0
  images := []
  copies := []
  frees := []
  reads := []
  stopped := false

/-! ## What has to be drawn again -/

/-- The smallest rectangle around both. -/
def WmRect.union (d r : WmRect) : WmRect where
  x0 := if r.x0 < d.x0 then r.x0 else d.x0
  y0 := if r.y0 < d.y0 then r.y0 else d.y0
  x1 := if r.x1 > d.x1 then r.x1 else d.x1
  y1 := if r.y1 > d.y1 then r.y1 else d.y1

def wmMarkDirtyRect (x y w h : Int) (s : Wm) : Wm :=
  if w ≤ 0 ∨ h ≤ 0 then s else
    let x1 := s32 (x + w)
    let y1 := s32 (y + h)
    if x1 ≤ 0 ∨ y1 ≤ 0 ∨ x ≥ s.screenW ∨ y ≥ s.screenH then s else
      let x0 := if x < 0 then 0 else x
      let y0 := if y < 0 then 0 else y
      let x1 := if x1 > s.screenW then s.screenW else x1
      let y1 := if y1 > s.screenH then s.screenH else y1
      if x0 ≥ x1 ∨ y0 ≥ y1 then s else
        match s.dirty with
        | none => { s with dirty := some ⟨x0, y0, x1, y1⟩ }
        | some d => { s with dirty := some (d.union ⟨x0, y0, x1, y1⟩) }

def wmMarkDirtyWindowBox (x y w h : Int) (s : Wm) : Wm :=
  wmMarkDirtyRect (s32 (x - 4)) (s32 (y - 4)) (s32 (w + 8)) (s32 (h + 8)) s

def wmMarkDirtyWindow (win : Option Slot) (s : Wm) : Wm :=
  match win with
  | none => s
  | some i =>
      let w := s.windows i
      if w.used then wmMarkDirtyWindowBox w.x w.y w.w w.h s else s

def wmUsableH (s : Wm) : Int :=
  if s.gpuReady then
    let h := s.screenH - wmTaskbarPx
    if h > 1 then h else 1
  else wmTextScreenH - 1

def wmMarkDirtyTaskbar (s : Wm) : Wm :=
  let y0 := wmUsableH s
  let y0 := if y0 < 0 then 0 else y0
  wmMarkDirtyRect 0 y0 s.screenW (s.screenH - y0) s

def wmMarkDirtyFull (s : Wm) : Wm :=
  { s with dirty := some ⟨0, 0, s.screenW, s.screenH⟩ }

/-! ## Windows -/

/-- `(bytes + PAGE_SIZE - 1) / PAGE_SIZE` on 32-bit words. -/
def wmImagePages (bytes : Nat) : Nat :=
  (bytes + pageSize - 1) % 2 ^ 32 / pageSize

def WmWindow.withoutImage (win : WmWindow) : WmWindow :=
  { win with imagePixels := none, imageBytes := 0, hasImage := 0, imageW := 0, imageH := 0 }

def wmWindowFreeImage (i : Slot) (s : Wm) : Wm :=
  let win := s.windows i
  let s :=
    match win.imagePixels with
    | some image =>
        if win.imageBytes > 0 then
          { s with frees := ⟨image, wmImagePages win.imageBytes⟩ :: s.frees }
        else s
    | none => s
  s.modify i WmWindow.withoutImage

def viU32ToS32 (v : UInt32) : Int := s32 v.toNat

def wmFind (s : Wm) (id : Int) : Option Slot :=
  (List.finRange wmMaxWindows).find? fun i => (s.windows i).used && (s.windows i).id = id

/-- `wm_queue_event` on a window that is in use, with the tick counter. -/
def WmWindow.queueEvent (w : WmWindow) (type windowId a b c d : UInt32) (tick : UInt64) :
    WmWindow × UInt64 :=
  let last := (w.evTail + wmEventRingSize - 1) % wmEventRingSize
  let prev := w.evRing last
  if w.evHead ≠ w.evTail ∧ type = wmEvPointerMove ∧ prev.type = wmEvPointerMove ∧
      prev.windowId = windowId then
    let ev := { prev with timestampMs := tick, a := a, b := b, c := c, d := d }
    ({ w with evRing := Function.update w.evRing last ev }, tick + 1)
  else if w.evHead ≠ w.evTail ∧ type = wmEvWheel ∧ prev.type = wmEvWheel ∧
      prev.windowId = windowId then
    let ev := { prev with timestampMs := tick, a := prev.a + a, b := b, c := c, d := d }
    ({ w with evRing := Function.update w.evRing last ev }, tick + 1)
  else
    let next := (w.evTail + 1) % wmEventRingSize
    if next = w.evHead then
      if w.evOverflowLatched then (w, tick)
      else
        let ev :=
          { w.evRing w.evTail with
            type := wmEvOverflow
            windowId := UInt32.ofNat (w.id % 2 ^ 32).toNat
            timestampMs := tick }
        ({ w with
            evOverflowLatched := true
            evRing := Function.update w.evRing w.evTail ev
            evTail := next
            evHead := if next = w.evHead then (w.evHead + 1) % wmEventRingSize else w.evHead },
          tick + 1)
    else
      ({ w with
          evRing := Function.update w.evRing w.evTail ⟨type, windowId, tick, a, b, c, d⟩
          evTail := next }, tick + 1)

def wmQueueEvent (win : Option Slot) (type windowId a b c d : UInt32) (s : Wm) : Wm :=
  match win with
  | none => s
  | some i =>
      if (s.windows i).used then
        let r := (s.windows i).queueEvent type windowId a b c d s.eventTick
        { s.setWindow i r.1 with eventTick := r.2 }
      else s

/-- The focus event for a window, whose number is cast to an unsigned word. -/
def wmQueueFocus (type : UInt32) (win : Option Slot) (s : Wm) : Wm :=
  match win with
  | none => s
  | some i => wmQueueEvent win type (UInt32.ofNat ((s.windows i).id % 2 ^ 32).toNat) 0 0 0 0 s

def wmSetFocusInternal (id : Int) (s : Wm) : Int × Wm :=
  if s.focusId = id then (0, s) else
    let oldw := wmFind s s.focusId
    let neww := wmFind s id
    let refused : Bool :=
      match neww with
      | none => true
      | some i => !(s.windows i).focusable || !(s.windows i).visible
    if id > 0 ∧ refused then (-1, s) else
      let s := { s with focusId := id }
      let s := wmQueueFocus wmEvFocusOut oldw s
      let s := wmQueueFocus wmEvFocusIn neww s
      let s := wmMarkDirtyTaskbar s
      let s := wmMarkDirtyWindow oldw s
      (0, wmMarkDirtyWindow neww s)

/-- Whether the point is in the window's rectangle. -/
def WmWindow.hit (w : WmWindow) (x y : Int) : Bool :=
  !(x < w.x || y < w.y || x ≥ s32 (w.x + w.w) || y ≥ s32 (w.y + w.h))

def wmTopAt (s : Wm) (x y ignoreId : Int) : Option Slot :=
  ((List.finRange wmMaxWindows).foldl
    (fun (r : Option Slot × Int) i =>
      let w := s.windows i
      if !w.used || !w.visible || w.id = ignoreId then r else
        if !w.hit x y then r else
          if w.z > r.2 then (some i, w.z) else r)
    (none, -1)).1

/-- The slots that satisfy `p`, sorted by `z`. -/
def wmOrder (s : Wm) (p : WmWindow → Bool) : List Slot :=
  sortedBy (fun i => (s.windows i).z) ((List.finRange wmMaxWindows).filter fun i => p (s.windows i))

def wmRepackZ (s : Wm) : Wm :=
  let order := wmOrder s WmWindow.used
  let s := order.zipIdx.foldl
    (fun (s : Wm) p => s.modify p.1 fun win => { win with z := p.2 + 1 }) s
  { s with nextZ := order.length + 1 }

/-- `wm_init`.  When `virtio_gpu_init` succeeds it has cleared the back buffer of a
screen of this size. -/
def wmInit (gpu : Option (Int × Int)) (s : Wm) : Wm :=
  let s := { s with windows := fun _ => WmWindow.zero, nextId := 1, nextZ := 1 }
  let s :=
    match gpu with
    | some (width, height) =>
        { s with gpuReady := true, screenW := width, screenH := height, fb := fun _ => 0 }
    | none =>
        { s with gpuReady := false, screenW := wmTextScreenW, screenH := wmTextScreenH }
  let s :=
    { s with
      cursorX := s.screenW.tdiv 2
      cursorY := (wmUsableH s).tdiv 2
      dirty := none }
  wmMarkDirtyFull s

/-- The bytes that `strncpy(dst, src, n)` stores from `dst` on.  The byte that ends
`src` is stored and not counted. -/
def strncpy : List UInt8 → Nat → List UInt8
  | _, 0 => []
  | [], n + 1 => 0 :: List.replicate (n + 1) 0
  | c :: src, n + 1 => c :: strncpy src n

/-- The characters of a string constant. -/
def cString (s : String) : List UInt8 := s.toList.map fun c => UInt8.ofNat c.toNat

/-- A byte stored over the lowest byte of a word. -/
def setLowByte (v : Int) (b : UInt8) : Int := v - v % 256 + b.toNat

/-- Bytes stored from the start of `text` on, which `has_image` follows. -/
def WmWindow.storeText (win : WmWindow) (bytes : List UInt8) : WmWindow :=
  { win with
    text := fun n => if n < wmTextMax then bytes.getD n (win.text n) else win.text n
    hasImage :=
      match bytes[wmTextMax]? with
      | none => win.hasImage
      | some b => setLowByte win.hasImage b }

/-- Bytes stored from the start of `title` on, which `text` follows. -/
def WmWindow.storeTitle (win : WmWindow) (bytes : List UInt8) : WmWindow :=
  { win with title := fun n => if n < wmTitleMax then bytes.getD n (win.title n) else win.title n }
    |>.storeText (bytes.drop wmTitleMax)

/-- `int` remainder, which by zero leaves the dividend. -/
def remw (a b : Int) : Int := a.tmod b

/-- Where `wm_create` puts a window with this number. -/
def wmCreateX (s : Wm) (id w : Int) : Int := remw (s32 (id * 37)) (s32 (s32 (s.screenW - w) + 1))

def wmCreateY (s : Wm) (id h : Int) : Int := remw (s32 (id * 2)) (s32 (s32 (wmUsableH s - h) + 1))

def wmCreate (title : Option (List UInt8)) (w h : Int) (s : Wm) : Int × Wm :=
  match (List.finRange wmMaxWindows).find? fun i => !(s.windows i).used with
  | none => (-1, s)
  | some slot =>
      let win : WmWindow :=
        { WmWindow.zero with
          used := true
          id := s.nextId
          visible := true
          focusable := true
          w := w
          h := h
          x := wmCreateX s s.nextId w
          y := wmCreateY s s.nextId h
          z := s.nextZ }
      let win := win.storeTitle (strncpy (title.getD (cString "window")) wmTitleMax)
      let win := win.storeText (strncpy (cString "(empty)") wmTextMax)
      let s := { s.setWindow slot win with nextId := s32 (s.nextId + 1), nextZ := s32 (s.nextZ + 1) }
      let s := wmMarkDirtyWindow (some slot) s
      (win.id, wmMarkDirtyTaskbar s)

def wmMove (id x y : Int) (s : Wm) : Int × Wm :=
  match wmFind s id with
  | none => (-1, s)
  | some i =>
      let s := wmMarkDirtyWindow (some i) s
      let s := s.modify i fun win => { win with x := x, y := y }
      (0, wmMarkDirtyWindow (some i) s)

def wmResize (id w h : Int) (s : Wm) : Int × Wm :=
  match wmFind s id with
  | none => (-1, s)
  | some i =>
      let s := wmMarkDirtyWindow (some i) s
      let s := s.modify i fun win => { win with w := w, h := h }
      (0, wmMarkDirtyWindow (some i) s)

def wmFocus (id : Int) (s : Wm) : Int × Wm :=
  match wmFind s id with
  | none => (-1, s)
  | some i =>
      let s := { s.modify i fun win => { win with z := s.nextZ } with nextZ := s32 (s.nextZ + 1) }
      wmSetFocusInternal id s

def wmClose (id : Int) (s : Wm) : Int × Wm :=
  match wmFind s id with
  | none => (-1, s)
  | some i =>
      let s := wmMarkDirtyWindow (some i) s
      let s := wmWindowFreeImage i s
      let s := s.modify i fun win => { win with used := false }
      let s := if s.focusId = id then { s with focusId := 0 } else s
      (0, wmMarkDirtyTaskbar s)

def wmSetText (id : Int) (text : List UInt8) (s : Wm) : Int × Wm :=
  match wmFind s id with
  | none => (-1, s)
  | some i =>
      let s := s.modify i fun win => win.storeText (strncpy text wmTextMax)
      (0, wmMarkDirtyWindow (some i) s)

/-- `uint32_t bytes = w * h * 4`. -/
def wmImageSize (w h : Int) : Nat := (w * h * 4 % 2 ^ 32).toNat

/-- Whether the buffer that a window has is used again for `bytes` bytes. -/
def WmWindow.reuses (win : WmWindow) (bytes : Nat) : Bool :=
  win.imagePixels.isSome && !(win.imageBytes < bytes)

/-- `alloc_pages` for `bytes` bytes.  It refuses zero pages; otherwise `memory` says
whether it succeeds and what the pages hold. -/
def wmAllocImage (bytes : Nat) (memory : Option (Nat → UInt32)) (s : Wm) : Option Nat × Wm :=
  if wmImagePages bytes = 0 then (none, s) else
    match memory with
    | none => (none, s)
    | some words =>
        (some s.images.length,
          { s with images := s.images ++ [⟨bytes, wmImagePages bytes, words⟩] })

/-- The words of an image after `bytes` bytes of `pixels` were copied to its start. -/
def WmImage.store (image : WmImage) (pixels : Nat → UInt32) (bytes : Nat) : WmImage :=
  { image with words := fun n => if 4 * n < bytes then pixels n else image.words n }

/-- The `memcpy` of `wm_set_image`. -/
def wmCopyImage (image : Option Nat) (pixels : Nat → UInt32) (bytes : Nat) (s : Wm) : Wm :=
  let s := { s with copies := ⟨image, bytes⟩ :: s.copies }
  match image with
  | none => if bytes = 0 then s else { s with stopped := true }
  | some n => { s with images := s.images.modify n fun image => image.store pixels bytes }

/-- The buffer for `bytes` bytes: the one the window has, or else a new one. -/
def wmImageBuffer (i : Slot) (bytes : Nat) (memory : Option (Nat → UInt32)) (s : Wm) : Wm :=
  if (s.windows i).reuses bytes then s
  else
    let s := wmWindowFreeImage i s
    let r := wmAllocImage bytes memory s
    r.2.modify i fun win => { win with imagePixels := r.1, imageBytes := bytes }

def wmSetImage (id : Int) (pixels : Option (Nat → UInt32)) (w h : Int)
    (memory : Option (Nat → UInt32)) (s : Wm) : Int × Wm :=
  match wmFind s id with
  | none => (-1, s)
  | some i =>
      match pixels with
      | none => (0, wmWindowFreeImage i s)
      | some pixels =>
          let bytes := wmImageSize w h
          let s := wmImageBuffer i bytes memory s
          let s := wmCopyImage (s.windows i).imagePixels pixels bytes s
          if s.stopped then (0, s)
          else
            let s := s.modify i fun win => { win with imageW := w, imageH := h, hasImage := 1 }
            (0, wmMarkDirtyWindow (some i) s)

/-! ## Drawing -/

/-- The back buffer, and the image words read so far. -/
structure WmCanvas where
  fb : Nat → UInt32
  reads : List WmRead

def WmCanvas.put (c : WmCanvas) (n : Nat) (pixel : UInt32) : WmCanvas :=
  { c with fb := Function.update c.fb n pixel }

/-- The values of a loop `for (v = a; v < b; v++)`. -/
def span (a b : Int) : List Int := (List.range (b - a).toNat).map fun n : Nat => a + n

/-- Whether a clip rectangle is set and leaves the point out. -/
def clipped (clip : Option WmRect) (x y : Int) : Bool :=
  match clip with
  | none => false
  | some r => x < r.x0 || y < r.y0 || x ≥ r.x1 || y ≥ r.y1

def wmGpuFillRect (clip : Option WmRect) (fbW fbH x y w h : Int) (color : UInt32) (c : WmCanvas) :
    WmCanvas :=
  (span y (s32 (y + h))).foldl (fun c yy =>
    if yy < 0 ∨ yy ≥ fbH then c else
      (span x (s32 (x + w))).foldl (fun c xx =>
        if xx < 0 ∨ xx ≥ fbW then c else
          if clipped clip xx yy then c else
            c.put (yy * fbW + xx).toNat (0xff000000 ||| color)) c) c

/-- The word at `index` of an image; `wild` is what lies outside the allocation. -/
def WmImage.word (image : Option WmImage) (index : Int) (wild : UInt32) : UInt32 :=
  match image with
  | none => wild
  | some image =>
      if 0 ≤ index ∧ 4 * index + 4 ≤ pageSize * image.pages then image.words index.toNat else wild

/-- The loops that copy a window's image to the back buffer. -/
def wmBlit (clip : Option WmRect) (wild : Nat → Int → UInt32) (s : Wm) (w : WmWindow) (image : Nat)
    (c : WmCanvas) : WmCanvas :=
  (span 0 (min w.imageH w.h)).foldl (fun c yy =>
    (span 0 (min w.imageW w.w)).foldl (fun c xx =>
      let dx := s32 (w.x + xx)
      let dy := s32 (w.y + yy)
      if 0 ≤ dx ∧ dx < s.screenW ∧ 0 ≤ dy ∧ dy < s.screenH then
        if clipped clip dx dy then c else
          let index := s32 (s32 (yy * w.imageW) + xx)
          { c with reads := ⟨image, index⟩ :: c.reads }.put (dy * s.screenW + dx).toNat
            (0xff000000 ||| WmImage.word s.images[image]? index (wild image index))
      else c) c) c

def wmColor (s : Wm) (w : WmWindow) : UInt32 :=
  if w.id = s.focusId then 0x003b4d63 else 0x00242a33

def wmPaintWindow (clip : Option WmRect) (wild : Nat → Int → UInt32) (s : Wm) (i : Slot)
    (c : WmCanvas) : WmCanvas :=
  let w := s.windows i
  let c := wmGpuFillRect clip s.screenW s.screenH w.x w.y w.w w.h (wmColor s w) c
  match w.imagePixels with
  | none => c
  | some image => if w.hasImage ≠ 0 then wmBlit clip wild s w image c else c

/-- Everything that `wm_render_gpu` draws, with the clip rectangle it is given. -/
def wmPaint (clip : Option WmRect) (wild : Nat → Int → UInt32) (s : Wm) (c : WmCanvas) : WmCanvas :=
  let c := wmGpuFillRect clip s.screenW s.screenH 0 0 s.screenW s.screenH 0x00162236 c
  let order := wmOrder s fun w => w.used && w.visible
  let c := order.foldl (fun c i => wmPaintWindow clip wild s i c) c
  wmGpuFillRect clip s.screenW s.screenH s.cursorX s.cursorY 8 8 0x00ffffff c

def wmRenderGpu (wild : Nat → Int → UInt32) (s : Wm) : Wm :=
  match s.dirty with
  | none => s
  | some clip =>
      let c := wmPaint (some clip) wild s ⟨s.fb, s.reads⟩
      { s with fb := c.fb, reads := c.reads, dirty := none }

def wmRender (wild : Nat → Int → UInt32) (s : Wm) : Wm :=
  let s := wmRepackZ s
  if s.gpuReady then wmRenderGpu wild s else s

/-! ## Input -/

/-- One turn of the loop in `wm_poll_mouse_input`, with `changed`. -/
def wmPollOne (r : Wm × Bool) (ev : WmInput) : Wm × Bool :=
  let r :=
    if ev.type = viEvRel then
      let r := if ev.code = viRelX then
        ({ r.1 with cursorX := s32 (r.1.cursorX + viU32ToS32 ev.value) }, true) else r
      if ev.code = viRelY then
        ({ r.1 with cursorY := s32 (r.1.cursorY + viU32ToS32 ev.value) }, true) else r
    else r
  if ev.type = viEvKey ∧ ev.code = viBtnLeft then
    if ev.value ≠ 0 then
      match wmTopAt r.1 r.1.cursorX r.1.cursorY 0 with
      | none => (r.1, true)
      | some i => ((wmFocus (r.1.windows i).id r.1).2, true)
    else (r.1, true)
  else r

def wmPollMouseInput (events : List WmInput) (s : Wm) : Wm :=
  let r := events.foldl wmPollOne (s, false)
  if r.2 then wmMarkDirtyFull r.1 else r.1

def wmPollEvent (windowId : Int) (s : Wm) : Option WmEvent × Wm :=
  match wmFind s windowId with
  | none => (none, s)
  | some i =>
      let w := s.windows i
      if w.evHead = w.evTail then (none, s)
      else (some (w.evRing w.evHead),
        s.modify i fun win => { win with evHead := (win.evHead + 1) % wmEventRingSize })

def wmCursorMove (dx dy : Int) (s : Wm) : Wm :=
  wmMarkDirtyFull { s with cursorX := s32 (s.cursorX + dx), cursorY := s32 (s.cursorY + dy) }

/-! ## Runs -/

/-- A call, with what the outside world answers during it: the input events, the
outcome of `alloc_pages`, the words outside the images. -/
inductive WmOp
  | create (title : Option (List UInt8)) (w h : Int)
  | move (id x y : Int)
  | resize (id w h : Int)
  | focus (id : Int)
  | close (id : Int)
  | setText (id : Int) (text : List UInt8)
  | setImage (id : Int) (pixels : Option (Nat → UInt32)) (w h : Int)
      (memory : Option (Nat → UInt32))
  | cursorMove (dx dy : Int)
  | pollMouseInput (events : List WmInput)
  | pollEvent (id : Int)
  | render (wild : Nat → Int → UInt32)

def Wm.exec (s : Wm) : WmOp → Wm
  | .create title w h => (wmCreate title w h s).2
  | .move id x y => (wmMove id x y s).2
  | .resize id w h => (wmResize id w h s).2
  | .focus id => (wmFocus id s).2
  | .close id => (wmClose id s).2
  | .setText id text => (wmSetText id text s).2
  | .setImage id pixels w h memory => (wmSetImage id pixels w h memory s).2
  | .cursorMove dx dy => wmCursorMove dx dy s
  | .pollMouseInput events => wmPollMouseInput events s
  | .pollEvent id => (wmPollEvent id s).2
  | .render wild => wmRender wild s

/-- A stopped machine stays as it is. -/
def Wm.step (s : Wm) (op : WmOp) : Wm := if s.stopped then s else s.exec op

def Wm.run (s : Wm) (ops : List WmOp) : Wm := ops.foldl Wm.step s

end Sugimotos.Gui
