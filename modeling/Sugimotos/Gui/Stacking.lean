/-
# Pointing at what is painted on top

The window under a point is looked for by a maximum scan, and windows are painted in an
order found by a sort.  The two agree because no two windows have the same height.  A
call raises the next height by one at most, so heights stay apart until the counter
wraps.
-/

import Sugimotos.Gui.Redraw
import Sugimotos.Math.Scan
import Mathlib.Data.Int.Interval

namespace Sugimotos.Gui

open Sugimotos.Math

/-- The loops of `wm_gpu_fill_rect` come to the point. -/
def WmWindow.fills (w : WmWindow) (x y : Int) : Bool :=
  y ∈ span w.y (s32 (w.y + w.h)) && x ∈ span w.x (s32 (w.x + w.w))

/-- The last of the windows that `wm_render_gpu` paints over the point. -/
def Wm.paintedLast (s : Wm) (x y : Int) : Option Slot :=
  ((wmOrder s fun w => w.used && w.visible).filter fun i => (s.windows i).fills x y).getLast?

def Wm.usedCount (s : Wm) : Nat := (Finset.univ.filter fun i => (s.windows i).used).card

/-- The calls that place and stack windows. -/
def WmOp.Stacks : WmOp → Prop
  | .create .. => True
  | .move .. => True
  | .resize .. => True
  | .focus _ => True
  | .close _ => True
  | .render _ => True
  | _ => False

/-! ## Numbers and heights -/

/-- Windows have positive numbers and heights, these below the next and no two the same,
and no images.  `id` and `z` are the counters had they not wrapped. -/
structure Wm.Ranked (s : Wm) (id z : Int) : Prop where
  nextId : s.nextId = s32 id
  nextZ : s.nextZ = s32 z
  positive : 0 < id ∧ 0 < z
  running : s.stopped = false
  plain : ∀ i, (s.windows i).imagePixels = none
  ids : ∀ i, (s.windows i).used → 0 < (s.windows i).id
  heights : ∀ i, (s.windows i).used → 0 < (s.windows i).z ∧ (s.windows i).z < z
  stacked : s.Stacked

theorem Wm.Ranked.congr {s t : Wm} {id z : Int} (h : s.Ranked id z) (hwindows : t.windows = s.windows)
    (hcounters : t.nextId = s.nextId ∧ t.nextZ = s.nextZ) (hstopped : t.stopped = s.stopped) :
    t.Ranked id z := by
  constructor
  · rw [hcounters.1]
    exact h.nextId
  · rw [hcounters.2]
    exact h.nextZ
  · exact h.positive
  · rw [hstopped]
    exact h.running
  · rw [hwindows]
    exact h.plain
  · rw [hwindows]
    exact h.ids
  · rw [hwindows]
    exact h.heights
  · unfold Wm.Stacked
    rw [hwindows]
    exact h.stacked

theorem Wm.Ranked.of_marks {s t : Wm} {id z : Int} {R : Int → Int → Prop} (h : s.Ranked id z)
    (hmarks : Marks s t R) : t.Ranked id z := by
  have hpred : ∀ i, ((t.windows i).used, (t.windows i).id, (t.windows i).z,
      (t.windows i).imagePixels) = ((s.windows i).used, (s.windows i).id, (s.windows i).z,
      (s.windows i).imagePixels) := fun i =>
    WmWindow.eq_of_look (fun w => (w.used, w.id, w.z, w.imagePixels)) (fun _ => rfl)
      (hmarks.look i)
  simp only [Prod.mk.injEq] at hpred
  have hrest : t.nextId = s.nextId ∧ t.nextZ = s.nextZ ∧ t.stopped = s.stopped := by
    rw [hmarks.rest]
    exact ⟨rfl, rfl, rfl⟩
  obtain ⟨hnextId, hnextZ, hstopped⟩ := hrest
  constructor
  · rw [hnextId]
    exact h.nextId
  · rw [hnextZ]
    exact h.nextZ
  · exact h.positive
  · rw [hstopped]
    exact h.running
  · intro i
    rw [(hpred i).2.2.2]
    exact h.plain i
  · intro i hused
    rw [(hpred i).1] at hused
    rw [(hpred i).2.1]
    exact h.ids i hused
  · intro i hused
    rw [(hpred i).1] at hused
    rw [(hpred i).2.2.1]
    exact h.heights i hused
  · intro i j hi hj hz
    rw [(hpred i).1] at hi
    rw [(hpred j).1] at hj
    rw [(hpred i).2.2.1, (hpred j).2.2.1] at hz
    exact h.stacked i j hi hj hz

/-- One window is replaced, and the counters do not go down. -/
theorem Wm.Ranked.replace {s t : Wm} {id z id' z' : Int} (h : s.Ranked id z) (i : Slot)
    (hother : ∀ j, j ≠ i → t.windows j = s.windows j)
    (hcounters : t.nextId = s32 id' ∧ t.nextZ = s32 z') (hle : id ≤ id' ∧ z ≤ z')
    (hstopped : t.stopped = s.stopped) (hplain : (t.windows i).imagePixels = none)
    (hnew : (t.windows i).used → 0 < (t.windows i).id ∧ 0 < (t.windows i).z ∧
      (t.windows i).z < z' ∧ ∀ j, j ≠ i → (s.windows j).used →
        (s.windows j).z ≠ (t.windows i).z) : t.Ranked id' z' := by
  have hpos := h.positive
  constructor
  · exact hcounters.1
  · exact hcounters.2
  · omega
  · rw [hstopped]
    exact h.running
  · intro j
    by_cases hji : j = i
    · rw [hji]
      exact hplain
    · rw [hother j hji]
      exact h.plain j
  · intro j hj
    by_cases hji : j = i
    · subst hji
      exact (hnew hj).1
    · rw [hother j hji] at *
      exact h.ids j hj
  · intro j hj
    by_cases hji : j = i
    · subst hji
      exact ⟨(hnew hj).2.1, (hnew hj).2.2.1⟩
    · rw [hother j hji] at *
      have hrange := h.heights j hj
      omega
  · intro j k hj hk heq
    by_cases hji : j = i
    · by_cases hki : k = i
      · rw [hji, hki]
      · subst hji
        rw [hother k hki] at hk heq
        exact absurd heq.symm ((hnew hj).2.2.2 k hki hk)
    · by_cases hki : k = i
      · subst hki
        rw [hother j hji] at hj heq
        exact absurd heq ((hnew hk).2.2.2 j hji hj)
      · rw [hother j hji] at hj heq
        rw [hother k hki] at hk heq
        exact h.stacked j k hj hk heq

/-- A window that stays in use keeps its number and its height. -/
theorem Wm.Ranked.modify {s : Wm} {id z : Int} (h : s.Ranked id z) (i : Slot)
    {f : WmWindow → WmWindow} (hplain : ∀ w, w.imagePixels = none → (f w).imagePixels = none)
    (hsame : ∀ w, (f w).used → w.used ∧ (f w).id = w.id ∧ (f w).z = w.z) :
    (s.modify i f).Ranked id z := by
  apply h.replace i (fun j hj => modify_other s f hj) ⟨h.nextId, h.nextZ⟩ ⟨le_refl _, le_refl _⟩ rfl
  · rw [modify_self]
    exact hplain _ (h.plain i)
  · intro hused
    rw [modify_self] at hused ⊢
    obtain ⟨huse, hid, hz⟩ := hsame _ hused
    rw [hid, hz]
    exact ⟨h.ids i huse, (h.heights i huse).1, (h.heights i huse).2,
      fun j hji hj heq => hji (h.stacked j i hj huse heq)⟩

/-! ## The calls -/

section Calls

variable {s : Wm} {id z : Int} (h : s.Ranked id z)
include h

theorem Wm.Ranked.create (hid : id < 2 ^ 31) (hz : z < 2 ^ 31) (title : Option (List UInt8))
    (w ht : Int) : ∃ id' z', id' ≤ id + 1 ∧ z' ≤ z + 1 ∧ (wmCreate title w ht s).2.Ranked id' z' := by
  cases wmCreate_spec title w ht s with
  | inl hfull =>
      rw [hfull]
      exact ⟨id, z, by omega, by omega, h⟩
  | inr hnew =>
      obtain ⟨slot, win, hfree, hwin, heq⟩ := hnew
      obtain ⟨-, -, -, hwinId, hwinZ, -, -, -, -, hplain⟩ := hwin
      have hpos := h.positive
      have hnextId : s.nextId = id := by
        rw [h.nextId, s32_eq (by omega) hid]
      have hnextZ : s.nextZ = z := by
        rw [h.nextZ, s32_eq (by omega) hz]
      rw [heq]
      set t : Wm := { s.setWindow slot win with
        nextId := s32 (s.nextId + 1), nextZ := s32 (s.nextZ + 1) } with ht'
      have hself : t.windows slot = win := Function.update_self ..
      have hother : ∀ j, j ≠ slot → t.windows j = s.windows j :=
        fun j hj => Function.update_of_ne hj ..
      have hranked : t.Ranked (id + 1) (z + 1) := by
        apply h.replace slot hother ?_ (by omega) rfl
        · rw [hself]
          exact hplain
        · intro _
          rw [hself, hwinId, hwinZ, hnextId, hnextZ]
          refine ⟨hpos.1, hpos.2, Int.lt_succ z, ?_⟩
          intro j _ hj
          exact (h.heights j hj).2.ne
        · rw [← hnextId, ← hnextZ]
          exact ⟨rfl, rfl⟩
      exact ⟨id + 1, z + 1, le_refl _, le_refl _,
        (hranked.of_marks (wmMarkDirtyWindow_keeps (some slot) t)).of_marks
          (wmMarkDirtyTaskbar_keeps _)⟩

/-- A window changed between two marks. -/
theorem Wm.Ranked.change (i : Slot) {f : WmWindow → WmWindow}
    (hplain : ∀ w, w.imagePixels = none → (f w).imagePixels = none)
    (hsame : ∀ w, (f w).used → w.used ∧ (f w).id = w.id ∧ (f w).z = w.z) :
    (wmMarkDirtyWindow (some i) ((wmMarkDirtyWindow (some i) s).modify i f)).Ranked id z := by
  have hmarked := h.of_marks (wmMarkDirtyWindow_keeps (some i) s)
  exact (hmarked.modify i hplain hsame).of_marks (wmMarkDirtyWindow_keeps (some i) _)

theorem Wm.Ranked.move (windowId x y : Int) : (wmMove windowId x y s).2.Ranked id z := by
  unfold wmMove
  cases wmFind s windowId with
  | none => exact h
  | some i => exact h.change i (fun _ hnone => hnone) fun _ hused => ⟨hused, rfl, rfl⟩

theorem Wm.Ranked.resize (windowId w ht : Int) : (wmResize windowId w ht s).2.Ranked id z := by
  unfold wmResize
  cases wmFind s windowId with
  | none => exact h
  | some i => exact h.change i (fun _ hnone => hnone) fun _ hused => ⟨hused, rfl, rfl⟩

theorem Wm.Ranked.setFocusInternal (windowId : Int) :
    (wmSetFocusInternal windowId s).2.Ranked id z := by
  cases wmSetFocusInternal_spec windowId s with
  | inl hsame =>
      rw [hsame.1]
      exact h
  | inr hmoved =>
      apply Wm.Ranked.of_marks _ hmoved.2
      exact h.congr rfl ⟨rfl, rfl⟩ rfl

theorem Wm.Ranked.raised (hz : z < 2 ^ 31) {i : Slot} (hused : (s.windows i).used) :
    (s.raised i).Ranked id (z + 1) := by
  have hpos := h.positive
  have hnextZ : s.nextZ = z := by
    rw [h.nextZ, s32_eq (by omega) hz]
  apply h.replace i (fun j hj => raised_other s hj) ?_ (by omega) rfl
  · rw [raised_self]
    exact h.plain i
  · intro _
    rw [raised_self, hnextZ]
    refine ⟨h.ids i hused, hpos.2, Int.lt_succ z, ?_⟩
    intro j _ hj
    exact (h.heights j hj).2.ne
  · rw [← hnextZ]
    exact ⟨h.nextId, rfl⟩

theorem Wm.Ranked.focus (hz : z < 2 ^ 31) (windowId : Int) :
    ∃ z', z' ≤ z + 1 ∧ (wmFocus windowId s).2.Ranked id z' := by
  cases hfind : wmFind s windowId with
  | none =>
      simp only [wmFocus, hfind]
      exact ⟨z, by omega, h⟩
  | some i =>
      rw [wmFocus_some hfind]
      exact ⟨z + 1, le_refl _, (h.raised hz (wmFind_some hfind).1).setFocusInternal windowId⟩

theorem Wm.Ranked.close (windowId : Int) : (wmClose windowId s).2.Ranked id z := by
  unfold wmClose
  cases wmFind s windowId with
  | none => exact h
  | some i =>
      simp only
      have hmarked := h.of_marks (wmMarkDirtyWindow_keeps (some i) s)
      obtain ⟨frees, heq⟩ := wmWindowFreeImage_eq i (wmMarkDirtyWindow (some i) s)
      rw [heq]
      have hfrees : { wmMarkDirtyWindow (some i) s with frees := frees }.Ranked id z :=
        hmarked.congr rfl ⟨rfl, rfl⟩ rfl
      have hfreed := hfrees.modify i (f := WmWindow.withoutImage) (fun _ _ => rfl)
        fun _ hused => ⟨hused, rfl, rfl⟩
      have hclosed := hfreed.modify i (f := fun win => { win with used := false })
        (fun _ hnone => hnone) fun _ hused => absurd hused Bool.false_ne_true
      apply Wm.Ranked.of_marks _ (wmMarkDirtyTaskbar_keeps _)
      split_ifs
      · exact hclosed.congr rfl ⟨rfl, rfl⟩ rfl
      · exact hclosed

end Calls

/-! ## Rendering -/

theorem wmOrder_used_length (s : Wm) : (wmOrder s WmWindow.used).length = s.usedCount := by
  rw [← List.toFinset_card_of_nodup (wmOrder_nodup s WmWindow.used), Wm.usedCount]
  congr 1
  ext i
  rw [List.mem_toFinset, mem_wmOrder, Finset.mem_filter]
  exact ⟨fun hused => ⟨Finset.mem_univ i, hused⟩, fun h => h.2⟩

/-- As many windows as there are heights for. -/
theorem Wm.Ranked.usedCount_lt {s : Wm} {id z : Int} (h : s.Ranked id z) : s.usedCount < z := by
  have hpos := h.positive
  have hcard : s.usedCount ≤ (Finset.Ioo 0 z).card := by
    apply Finset.card_le_card_of_injOn fun i => (s.windows i).z
    · intro i hi
      have hused := (Finset.mem_filter.mp (Finset.mem_coe.mp hi)).2
      exact Finset.mem_coe.mpr (Finset.mem_Ioo.mpr (h.heights i hused))
    · intro i hi j hj heq
      have hi' := (Finset.mem_filter.mp (Finset.mem_coe.mp hi)).2
      have hj' := (Finset.mem_filter.mp (Finset.mem_coe.mp hj)).2
      exact h.stacked i j hi' hj' heq
  rw [Int.card_Ioo] at hcard
  omega

theorem repacked_nextZ (s : Wm) : (wmRepackZ s).nextZ = s.usedCount + 1 := by
  rw [(wmRepackZ_spec s).2.2, ← wmOrder_used_length s]

/-- The used windows have the heights `1 .. n`, every one of them. -/
theorem repacked_heights (s : Wm) (v : Int) :
    (∃ i, (s.windows i).used ∧ ((wmRepackZ s).windows i).z = v) ↔ 1 ≤ v ∧ v ≤ s.usedCount := by
  rw [← wmOrder_used_length s]
  constructor
  · rintro ⟨i, hused, hz⟩
    obtain ⟨k, hk, -, heq⟩ := repacked_used hused
    rw [← hz, heq]
    simp only
    omega
  · intro hv
    have hk : (v - 1).toNat < (wmOrder s WmWindow.used).length := by omega
    refine ⟨(wmOrder s WmWindow.used)[(v - 1).toNat], ?_, ?_⟩
    · exact mem_wmOrder.mp (List.getElem_mem hk)
    · rw [(wmRepackZ_spec s).2.1 _ hk]
      simp only
      omega

/-- Repacking takes no two heights together and exchanges none. -/
theorem repacked_lt {s : Wm} (h : s.Stacked) {i j : Slot} (hi : (s.windows i).used)
    (hj : (s.windows j).used) :
    ((wmRepackZ s).windows i).z < ((wmRepackZ s).windows j).z ↔
      (s.windows i).z < (s.windows j).z := by
  constructor
  · intro hlt
    by_contra hge
    exact absurd (repacked_le h hj hi (not_lt.mp hge)) (not_le.mpr hlt)
  · intro hlt
    apply lt_of_le_of_ne (repacked_le h hi hj hlt.le)
    intro heq
    obtain ⟨a, ha, hai, hnewi⟩ := repacked_used hi
    obtain ⟨b, hb, hbj, hnewj⟩ := repacked_used hj
    rw [hnewi, hnewj] at heq
    simp only [add_left_inj, Nat.cast_inj] at heq
    subst heq
    rw [← hai, ← hbj] at hlt
    exact lt_irrefl _ hlt

theorem Wm.Ranked.repack {s : Wm} {id z : Int} (h : s.Ranked id z) :
    (wmRepackZ s).Ranked id (s.usedCount + 1) := by
  have hused : ∀ i, ((wmRepackZ s).windows i).used = (s.windows i).used := by
    intro i
    obtain ⟨v, heq⟩ := repacked_same s i
    rw [heq]
  have hcount : s.usedCount ≤ 8 := by
    have hall := Finset.card_filter_le (Finset.univ : Finset Slot) fun i => (s.windows i).used
    rw [Finset.card_univ, Fintype.card_fin] at hall
    exact hall
  constructor
  · rw [(wmRepackZ_spec s).2.2]
    exact h.nextId
  · rw [repacked_nextZ, s32_eq (by omega) (by omega)]
  · exact ⟨h.positive.1, by omega⟩
  · rw [(repacked_sameScreen s).stopped]
    exact h.running
  · intro i
    obtain ⟨v, heq⟩ := repacked_same s i
    rw [heq]
    exact h.plain i
  · intro i hi
    rw [hused] at hi
    obtain ⟨v, heq⟩ := repacked_same s i
    rw [heq]
    exact h.ids i hi
  · intro i hi
    rw [hused] at hi
    have hrange := (repacked_heights s ((wmRepackZ s).windows i).z).mp ⟨i, hi, rfl⟩
    omega
  · intro i j hi hj heq
    rw [hused] at hi hj
    by_contra hne
    cases lt_or_gt_of_ne fun hz => hne (h.stacked i j hi hj hz) with
    | inl hlt => exact absurd heq ((repacked_lt h.stacked hi hj).mpr hlt).ne
    | inr hgt => exact absurd heq ((repacked_lt h.stacked hj hi).mpr hgt).ne'

theorem Wm.Ranked.render {s : Wm} {id z : Int} (h : s.Ranked id z) (wild : Nat → Int → UInt32) :
    (wmRender wild s).Ranked id (s.usedCount + 1) := by
  have hrepacked := h.repack
  unfold wmRender wmRenderGpu
  simp only
  split_ifs
  · cases (wmRepackZ s).dirty with
    | none => exact hrepacked
    | some clip => exact hrepacked.congr rfl ⟨rfl, rfl⟩ rfl
  · exact hrepacked

/-! ## Runs -/

/-- A call raises either counter by one at most. -/
theorem Wm.Ranked.step {s : Wm} {id z : Int} (h : s.Ranked id z) (hid : id < 2 ^ 31)
    (hz : z < 2 ^ 31) {op : WmOp} (hop : op.Stacks) :
    ∃ id' z', id' ≤ id + 1 ∧ z' ≤ z + 1 ∧ (s.step op).Ranked id' z' := by
  rw [Wm.step, if_neg (Bool.eq_false_iff.mp h.running)]
  cases op with
  | create title w ht => exact h.create hid hz title w ht
  | move windowId x y => exact ⟨id, z, by omega, by omega, h.move windowId x y⟩
  | resize windowId w ht => exact ⟨id, z, by omega, by omega, h.resize windowId w ht⟩
  | focus windowId =>
      obtain ⟨z', hle, hfocused⟩ := h.focus hz windowId
      exact ⟨id, z', by omega, hle, hfocused⟩
  | close windowId => exact ⟨id, z, by omega, by omega, h.close windowId⟩
  | render wild =>
      have hcount := h.usedCount_lt
      exact ⟨id, s.usedCount + 1, by omega, by omega, h.render wild⟩
  | setText => exact hop.elim
  | setImage => exact hop.elim
  | cursorMove => exact hop.elim
  | pollMouseInput => exact hop.elim
  | pollEvent => exact hop.elim

theorem Wm.Ranked.run {s : Wm} {id z : Int} (h : s.Ranked id z) {ops : List WmOp}
    (hops : ∀ op ∈ ops, op.Stacks)
    (hroom : id + ops.length ≤ 2 ^ 31 ∧ z + ops.length ≤ 2 ^ 31) :
    ∃ id' z', z' ≤ z + ops.length ∧ (s.run ops).Ranked id' z' := by
  induction ops generalizing s id z with
  | nil => exact ⟨id, z, by omega, h⟩
  | cons op ops ih =>
      rw [List.length_cons] at hroom ⊢
      obtain ⟨id₁, z₁, hid, hz, hstep⟩ :=
        h.step (by omega) (by omega) (hops op List.mem_cons_self)
      obtain ⟨id', z', hle, hrun⟩ :=
        ih hstep (fun o ho => hops o (List.mem_cons_of_mem op ho)) (by omega)
      exact ⟨id', z', by omega, hrun⟩

theorem Wm.Ranked.start (gpu : Option (Int × Int)) : (wmInit gpu Wm.boot).Ranked 1 1 := by
  have hwindows : (wmInit gpu Wm.boot).windows = fun _ => WmWindow.zero := by
    cases gpu <;> rfl
  have hcounters : (wmInit gpu Wm.boot).nextId = 1 ∧ (wmInit gpu Wm.boot).nextZ = 1 ∧
      (wmInit gpu Wm.boot).stopped = false := by
    cases gpu <;> exact ⟨rfl, rfl, rfl⟩
  obtain ⟨hid, hz, hstopped⟩ := hcounters
  refine ⟨hid, hz, ⟨Int.one_pos, Int.one_pos⟩, hstopped, ?_, ?_, ?_, ?_⟩
  · rw [hwindows]
    exact fun _ => rfl
  · rw [hwindows]
    exact fun _ hused => absurd hused Bool.false_ne_true
  · rw [hwindows]
    exact fun _ hused => absurd hused Bool.false_ne_true
  · unfold Wm.Stacked
    rw [hwindows]
    exact fun _ _ hused => absurd hused Bool.false_ne_true

/-! ## The window under a point -/

/-- Whether `wm_top_at` takes the window into account. -/
def Wm.candidate (s : Wm) (x y ignoreId : Int) (i : Slot) : Bool :=
  (s.windows i).used && (s.windows i).visible && !decide ((s.windows i).id = ignoreId) &&
    (s.windows i).hit x y

theorem wmTopAt_eq_scan (s : Wm) (x y ignoreId : Int) :
    wmTopAt s x y ignoreId = (scanGreatest (s.candidate x y ignoreId) (fun i => (s.windows i).z)
      (-1) (List.finRange wmMaxWindows)).1 := by
  unfold wmTopAt scanGreatest
  congr 2
  funext r i
  simp only [Wm.candidate]
  cases (s.windows i).used with
  | false => simp
  | true =>
      cases (s.windows i).visible with
      | false => simp
      | true =>
          by_cases hid : (s.windows i).id = ignoreId
          · simp [hid]
          · cases (s.windows i).hit x y with
            | false => simp [hid]
            | true => simp [hid]

/-- The test for a point is the loops' own. -/
theorem WmWindow.fills_eq_hit (w : WmWindow) (x y : Int) : w.fills x y = w.hit x y := by
  rw [Bool.eq_iff_iff]
  unfold WmWindow.fills WmWindow.hit
  simp only [Bool.and_eq_true, decide_eq_true_eq, mem_span, Bool.not_eq_true', Bool.or_eq_false_iff,
    decide_eq_false_iff_not]
  omega

theorem Wm.Ranked.candidate {s : Wm} {id z : Int} (h : s.Ranked id z) (x y : Int) (i : Slot) :
    s.candidate x y 0 i = true ↔
      (s.windows i).used ∧ (s.windows i).visible ∧ (s.windows i).fills x y := by
  rw [WmWindow.fills_eq_hit]
  simp only [Wm.candidate, Bool.and_eq_true, Bool.not_eq_true', decide_eq_false_iff_not]
  constructor
  · rintro ⟨⟨⟨hused, hvisible⟩, -⟩, hhit⟩
    exact ⟨hused, hvisible, hhit⟩
  · rintro ⟨hused, hvisible, hhit⟩
    exact ⟨⟨⟨hused, hvisible⟩, (h.ids i hused).ne'⟩, hhit⟩

/-- Pointing finds the window that was painted last. -/
theorem Wm.Ranked.top {s : Wm} {id z : Int} (h : s.Ranked id z) (x y : Int) :
    wmTopAt s x y 0 = s.paintedLast x y := by
  have hmem : ∀ i, i ∈ ((wmOrder s fun w => w.used && w.visible).filter fun i =>
      (s.windows i).fills x y) ↔
        i ∈ List.finRange wmMaxWindows ∧ s.candidate x y 0 i = true := by
    intro i
    rw [List.mem_filter, mem_wmOrder, Bool.and_eq_true, h.candidate]
    exact ⟨fun hi => ⟨List.mem_finRange i, hi.1.1, hi.1.2, hi.2⟩,
      fun hi => ⟨⟨hi.2.1, hi.2.2.1⟩, hi.2.2.2⟩⟩
  have hused : ∀ i, s.candidate x y 0 i = true → (s.windows i).used :=
    fun i hi => ((h.candidate x y i).mp hi).1
  rw [wmTopAt_eq_scan, Wm.paintedLast]
  apply scanGreatest_eq_getLast ?_ ((sortedBy_pairwise _ _).filter _) hmem
  · intro i hi j hj heq
    exact h.stacked i j (hused i ((hmem i).mp hi).2) (hused j ((hmem j).mp hj).2) heq
  · intro i hi
    have hrange := h.heights i (hused i hi)
    omega

theorem paintedLast_eq_none (s : Wm) (x y : Int) : s.paintedLast x y = none ↔
    ∀ i, (s.windows i).used → (s.windows i).visible → (s.windows i).fills x y = false := by
  rw [Wm.paintedLast, List.getLast?_eq_none_iff, List.filter_eq_nil_iff]
  constructor
  · intro hnone i hused hvisible
    exact Bool.eq_false_iff.mpr (hnone i (mem_wmOrder.mpr ((Bool.and_eq_true _ _).mpr
      ⟨hused, hvisible⟩)))
  · intro hnone i hi
    obtain ⟨hused, hvisible⟩ := (Bool.and_eq_true _ _).mp (mem_wmOrder.mp hi)
    exact Bool.eq_false_iff.mp (hnone i hused hvisible)

/-- What a window's rectangle draws at a point of the screen that is not clipped. -/
theorem fillLayer_eq_fills (clip : Option WmRect) (fbW fbH : Int) (w : WmWindow) (color : UInt32)
    {q : Nat} (hrow : (q : Int) / fbW < fbH)
    (hclip : clipped clip (q % fbW) (q / fbW) = false) :
    fillLayer clip fbW fbH w.x w.y w.w w.h color q =
      if w.fills (q % fbW) (q / fbW) then some (opaquePixel color) else none := by
  rw [fillLayer]
  apply if_congr _ rfl rfl
  rw [WmWindow.fills, Bool.and_eq_true, decide_eq_true_iff, decide_eq_true_iff, mem_span, mem_span]
  exact ⟨fun h => ⟨⟨h.1.1, h.1.2.1⟩, h.2.1⟩, fun h => ⟨⟨h.1.1, h.1.2, hrow⟩, h.2, hclip⟩⟩

/-- Windows without images: the point gets the colour of the one painted last. -/
theorem windows_paintedLast {s : Wm} (hplain : ∀ i, (s.windows i).imagePixels = none)
    (hwidth : 0 < s.screenW) (clip : Option WmRect) (wild : Nat → Int → UInt32) (c : WmCanvas)
    {q : Nat} (hrow : (q : Int) / s.screenW < s.screenH)
    (hclip : clipped clip (q % s.screenW) (q / s.screenW) = false) :
    ((wmOrder s fun w => w.used && w.visible).foldl
      (fun c i => wmPaintWindow clip wild s i c) c).fb q =
        ((s.paintedLast (q % s.screenW) (q / s.screenW)).map fun i =>
          opaquePixel (wmColor s (s.windows i))).getD (c.fb q) := by
  have hwindow : ∀ i, Paints WmCanvas.fb (wmPaintWindow clip wild s i)
      (fillLayer clip s.screenW s.screenH (s.windows i).x (s.windows i).y (s.windows i).w
        (s.windows i).h (wmColor s (s.windows i))) := by
    intro i c q
    have hfill := wmGpuFillRect_paints clip hwidth s.screenH (s.windows i).x (s.windows i).y
      (s.windows i).w (s.windows i).h (wmColor s (s.windows i)) c q
    simp only [wmPaintWindow, hplain i]
    exact hfill
  have hpaints : Paints WmCanvas.fb
      (fun c => (wmOrder s fun w => w.used && w.visible).foldl
        (fun c i => wmPaintWindow clip wild s i c) c) _ :=
    Paints.foldl fun i _ => hwindow i
  rw [hpaints c q, topmost_eq_getLast fun i _ =>
    fillLayer_eq_fills clip s.screenW s.screenH (s.windows i) _ hrow hclip]
  rfl

/-- Pointing agrees with painting, and renumbering keeps the stacking. -/
structure Wm.PointsAsPainted (s : Wm) : Prop where
  distinct : ∀ i j, (s.windows i).used → (s.windows j).used →
    (s.windows i).z = (s.windows j).z → i = j
  positive : ∀ i, (s.windows i).used → 0 < (s.windows i).z
  kept : ∀ i j, (s.windows i).used → (s.windows j).used →
    (((wmRepackZ s).windows i).z < ((wmRepackZ s).windows j).z ↔
      (s.windows i).z < (s.windows j).z)
  renumbered : ∀ v : Int, (∃ i, (s.windows i).used ∧ ((wmRepackZ s).windows i).z = v) ↔
    1 ≤ v ∧ v ≤ s.usedCount
  next : (wmRepackZ s).nextZ = s.usedCount + 1
  others : ∀ i, ∃ z, (wmRepackZ s).windows i = { s.windows i with z := z }
  top : ∀ x y, wmTopAt s x y 0 = s.paintedLast x y
  nothing : ∀ x y, wmTopAt s x y 0 = none ↔
    ∀ i, (s.windows i).used → (s.windows i).visible → (s.windows i).fills x y = false
  color : 0 < s.screenW → ∀ (clip : Option WmRect) (wild : Nat → Int → UInt32) (c : WmCanvas)
    (q : Nat), (q : Int) / s.screenW < s.screenH →
      clipped clip (q % s.screenW) (q / s.screenW) = false →
        ((wmOrder s fun w => w.used && w.visible).foldl
          (fun c i => wmPaintWindow clip wild s i c) c).fb q =
            ((wmTopAt s (q % s.screenW) (q / s.screenW) 0).map fun i =>
              opaquePixel (wmColor s (s.windows i))).getD (c.fb q)

theorem Wm.Ranked.pointsAsPainted {s : Wm} {id z : Int} (h : s.Ranked id z) :
    s.PointsAsPainted where
  distinct := h.stacked
  positive i hused := (h.heights i hused).1
  kept _ _ hi hj := repacked_lt h.stacked hi hj
  renumbered := repacked_heights s
  next := repacked_nextZ s
  others := repacked_same s
  top := h.top
  nothing x y := by
    rw [h.top]
    exact paintedLast_eq_none s x y
  color hwidth clip wild c q hrow hclip := by
    rw [h.top]
    exact windows_paintedLast h.plain hwidth clip wild c hrow hclip

/-- In every run of fewer than 2^31 calls.  The next height is above all windows too,
unless all of 2^31 - 1 calls raised one. -/
theorem wm_points_as_painted (gpu : Option (Int × Int)) (ops : List WmOp)
    (hops : ∀ op ∈ ops, op.Stacks) (hfew : ops.length < 2 ^ 31) :
    ((wmInit gpu Wm.boot).run ops).PointsAsPainted ∧
      (ops.length < 2 ^ 31 - 1 → ∀ i, (((wmInit gpu Wm.boot).run ops).windows i).used →
        (((wmInit gpu Wm.boot).run ops).windows i).z < ((wmInit gpu Wm.boot).run ops).nextZ) := by
  obtain ⟨id, z, hz, hranked⟩ := (Wm.Ranked.start gpu).run hops (by omega)
  refine ⟨hranked.pointsAsPainted, ?_⟩
  intro hfewer i hused
  have hpos := hranked.positive
  rw [hranked.nextZ, s32_eq (by omega) (by omega)]
  exact (hranked.heights i hused).2

theorem wm_points_as_painted_two :
    ((wmInit none Wm.boot).run [.create none 9 5, .create none 9 5, .focus 1]).PointsAsPainted ∧
      ([WmOp.create none 9 5, .create none 9 5, .focus 1].length < 2 ^ 31 - 1 → ∀ i,
        (((wmInit none Wm.boot).run [.create none 9 5, .create none 9 5, .focus 1]).windows
          i).used →
        (((wmInit none Wm.boot).run [.create none 9 5, .create none 9 5, .focus 1]).windows i).z <
          ((wmInit none Wm.boot).run [.create none 9 5, .create none 9 5, .focus 1]).nextZ) := by
  apply wm_points_as_painted
  · intro op hop
    simp only [List.mem_cons, List.not_mem_nil, or_false] at hop
    rcases hop with rfl | rfl | rfl <;> exact trivial
  · decide

/-! ## The last call before the counter wraps -/

theorem wmFind_of_look {s t : Wm} (h : ∀ i, (t.windows i).look = (s.windows i).look) (id : Int) :
    wmFind t id = wmFind s id := by
  unfold wmFind
  congr 1
  funext i
  have hpred := WmWindow.eq_of_look (fun w => (w.used, w.id)) (fun _ => rfl) (h i)
  simp only [Prod.mk.injEq] at hpred
  rw [hpred.1, hpred.2]

/-- The window numbered `id` lies in slot `i` at height `z`, the last given out. -/
structure Wm.OnTop (s : Wm) (id : Int) (i : Slot) (z : Int) : Prop where
  running : s.stopped = false
  found : wmFind s id = some i
  height : (s.windows i).z = s32 z
  next : s.nextZ = s32 (z + 1)

theorem s32_add (a b : Int) : s32 (s32 a + b) = s32 (a + b) := by
  rw [s32, s32, s32, Int.bmod_add_bmod]

theorem Wm.OnTop.of_marks {s t : Wm} {id z : Int} {i : Slot} {R : Int → Int → Prop}
    (h : s.OnTop id i z) (hmarks : Marks s t R) : t.OnTop id i z := by
  constructor
  · rw [hmarks.sameScreen.stopped]
    exact h.running
  · rw [wmFind_of_look hmarks.look]
    exact h.found
  · rw [WmWindow.eq_of_look WmWindow.z (fun _ => rfl) (hmarks.look i)]
    exact h.height
  · rw [hmarks.rest]
    exact h.next

theorem Wm.OnTop.raised {s : Wm} {id z : Int} {i : Slot} (h : s.OnTop id i z) :
    (s.raised i).OnTop id i (z + 1) := by
  constructor
  · exact h.running
  · rw [← h.found]
    unfold wmFind
    congr 1
    funext j
    by_cases hj : j = i
    · rw [hj, raised_self]
    · rw [raised_other s hj]
  · rw [raised_self]
    exact h.next
  · change s32 (s.nextZ + 1) = _
    rw [h.next, s32_add]

/-- Focusing a window again and again gives out a height each time. -/
theorem Wm.OnTop.focus {s : Wm} {id z : Int} {i : Slot} (h : s.OnTop id i z) :
    (s.step (.focus id)).OnTop id i (z + 1) := by
  rw [Wm.step, if_neg (Bool.eq_false_iff.mp h.running)]
  change (wmFocus id s).2.OnTop id i (z + 1)
  rw [wmFocus_some h.found]
  cases wmSetFocusInternal_spec id (s.raised i) with
  | inl hsame =>
      rw [hsame.1]
      exact h.raised
  | inr hmoved =>
      apply Wm.OnTop.of_marks _ hmoved.2
      exact ⟨h.raised.running, h.raised.found, h.raised.height, h.raised.next⟩

theorem Wm.OnTop.focus_run {s : Wm} {id z : Int} {i : Slot} (h : s.OnTop id i z) (n : Nat) :
    (s.run (List.replicate n (.focus id))).OnTop id i (z + n) := by
  induction n generalizing s z with
  | zero =>
      rw [Nat.cast_zero, add_zero]
      exact h
  | succ n ih =>
      have hrun := ih h.focus
      rw [add_assoc, add_comm 1 (n : Int), ← Nat.cast_succ] at hrun
      exact hrun

/-- A window and `n` clicks on it. -/
def wmManyClicks (n : Nat) : List WmOp := .create none 9 5 :: List.replicate n (.focus 1)

theorem wmManyClicks_stacks (n : Nat) : ∀ op ∈ wmManyClicks n, op.Stacks := by
  intro op hop
  cases List.mem_cons.mp hop with
  | inl heq =>
      rw [heq]
      exact trivial
  | inr hin =>
      rw [List.eq_of_mem_replicate hin]
      exact trivial

theorem wmManyClicks_onTop (n : Nat) :
    ((wmInit none Wm.boot).run (wmManyClicks n)).OnTop 1 0 (1 + n) := by
  have hstart : ((wmInit none Wm.boot).step (.create none 9 5)).OnTop 1 0 1 :=
    ⟨rfl, rfl, rfl, rfl⟩
  exact hstart.focus_run n

theorem wm_next_z_wraps : ¬ ∀ (gpu : Option (Int × Int)) (ops : List WmOp),
    (∀ op ∈ ops, op.Stacks) → ops.length < 2 ^ 31 →
      ((wmInit gpu Wm.boot).run ops).PointsAsPainted ∧
        ∀ i, (((wmInit gpu Wm.boot).run ops).windows i).used →
          (((wmInit gpu Wm.boot).run ops).windows i).z < ((wmInit gpu Wm.boot).run ops).nextZ := by
  intro hall
  obtain ⟨n, hn⟩ : ∃ n : Nat, n = 2 ^ 31 - 2 := ⟨2 ^ 31 - 2, rfl⟩
  have htop := wmManyClicks_onTop n
  have hlength : (wmManyClicks n).length < 2 ^ 31 := by
    rw [wmManyClicks, List.length_cons, List.length_replicate]
    omega
  have hbelow := (hall none (wmManyClicks n) (wmManyClicks_stacks n) hlength).2 0
    (wmFind_some htop.found).1
  rw [htop.height, htop.next, hn] at hbelow
  exact absurd hbelow (by decide)

end Sugimotos.Gui
