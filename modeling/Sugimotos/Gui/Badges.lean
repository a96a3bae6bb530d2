/-
# Which windows there are

The calls that draw or raise windows leave alone which slots are in use, under which numbers and
with which text.  Without `wm_close` the windows are numbered from 1 on, and there are at most 8.
-/

import Sugimotos.Gui.Dirty
import Sugimotos.Gui.SetText

namespace Sugimotos.Gui

/-- What `wm_find` and `wm_set_focus_internal` ask of a window, and its text. -/
structure Badge where
  used : Bool
  id : Int
  shown : Bool
  text : Nat → UInt8

def WmWindow.badge (w : WmWindow) : Badge := ⟨w.used, w.id, w.focusable && w.visible, w.text⟩

/-- The same windows under the same numbers, with the same texts. -/
structure SameBadges (s t : Wm) : Prop where
  nextId : t.nextId = s.nextId
  badge : ∀ i, (t.windows i).badge = (s.windows i).badge

variable {s t u : Wm} {i : Slot}

theorem SameBadges.refl (s : Wm) : SameBadges s s := ⟨rfl, fun _ => rfl⟩

theorem SameBadges.trans (h : SameBadges s t) (h' : SameBadges t u) : SameBadges s u :=
  ⟨h'.nextId.trans h.nextId, fun i => (h'.badge i).trans (h.badge i)⟩

theorem SameBadges.of_windows (hid : t.nextId = s.nextId) (h : t.windows = s.windows) :
    SameBadges s t := ⟨hid, fun i => by rw [h]⟩

theorem SameBadges.ite {c : Prop} [Decidable c] (h : SameBadges s t) (h' : SameBadges s u) :
    SameBadges s (if c then t else u) := by
  split
  · exact h
  · exact h'

theorem SameBadges.ite_snd {c : Prop} [Decidable c] {a b : Int × Wm} (h : SameBadges s a.2)
    (h' : SameBadges s b.2) : SameBadges s (if c then a else b).2 := by
  split
  · exact h
  · exact h'

/-- One window is changed, but not its badge. -/
theorem SameBadges.set {win : WmWindow} (h : win.badge = (s.windows i).badge) :
    SameBadges s (s.setWindow i win) := by
  refine ⟨rfl, fun j => ?_⟩
  unfold Wm.setWindow
  by_cases hj : j = i
  · subst hj
    dsimp only
    rw [Function.update_self, h]
  · dsimp only
    rw [Function.update_of_ne hj]

theorem SameBadges.modify {f : WmWindow → WmWindow} (h : ∀ w, (f w).badge = w.badge) :
    SameBadges s (s.modify i f) := .set (h _)

theorem wmMarkDirtyRect_badges (x y w h : Int) (s : Wm) : SameBadges s (wmMarkDirtyRect x y w h s) := by
  unfold wmMarkDirtyRect
  apply SameBadges.ite (.refl s)
  apply SameBadges.ite (.refl s)
  apply SameBadges.ite (.refl s)
  cases s.dirty with
  | none => exact .of_windows rfl rfl
  | some d => exact .of_windows rfl rfl

theorem wmMarkDirtyWindow_badges (win : Option Slot) (s : Wm) : SameBadges s (wmMarkDirtyWindow win s) := by
  unfold wmMarkDirtyWindow
  cases win with
  | none => exact .refl s
  | some i => exact .ite (wmMarkDirtyRect_badges ..) (.refl s)

theorem wmMarkDirtyTaskbar_badges (s : Wm) : SameBadges s (wmMarkDirtyTaskbar s) :=
  wmMarkDirtyRect_badges ..

theorem queueEvent_badge (w : WmWindow) (type windowId a b c d : UInt32) (tick : UInt64) :
    (w.queueEvent type windowId a b c d tick).1.badge = w.badge := by
  unfold WmWindow.queueEvent
  dsimp only
  split
  · rfl
  · split
    · rfl
    · split
      · split <;> rfl
      · rfl

theorem wmQueueFocus_badges (type : UInt32) (win : Option Slot) (s : Wm) :
    SameBadges s (wmQueueFocus type win s) := by
  unfold wmQueueFocus wmQueueEvent
  cases win with
  | none => exact .refl s
  | some i =>
      apply SameBadges.ite _ (.refl s)
      exact (SameBadges.set (queueEvent_badge ..)).trans (.of_windows rfl rfl)

theorem wmSetFocusInternal_badges (id : Int) (s : Wm) : SameBadges s (wmSetFocusInternal id s).2 := by
  unfold wmSetFocusInternal
  apply SameBadges.ite_snd (.refl s)
  apply SameBadges.ite_snd (.refl s)
  have hfocus : SameBadges s { s with focusId := id } := .of_windows rfl rfl
  have hout := hfocus.trans (wmQueueFocus_badges wmEvFocusOut (wmFind s s.focusId) _)
  have hin := hout.trans (wmQueueFocus_badges wmEvFocusIn (wmFind s id) _)
  have hbar := hin.trans (wmMarkDirtyTaskbar_badges _)
  exact (hbar.trans (wmMarkDirtyWindow_badges _ _)).trans (wmMarkDirtyWindow_badges _ _)

/-- The window is raised. -/
theorem raise_badges (i : Slot) (s : Wm) :
    SameBadges s { s.modify i fun win => { win with z := s.nextZ } with nextZ := s32 (s.nextZ + 1) } := by
  have hmodify : SameBadges s (s.modify i fun win => { win with z := s.nextZ }) := .modify fun _ => rfl
  exact hmodify.trans (.of_windows rfl rfl)

theorem wmFocus_badges (id : Int) (s : Wm) : SameBadges s (wmFocus id s).2 := by
  unfold wmFocus
  cases wmFind s id with
  | none => exact .refl s
  | some i =>
      exact (raise_badges i s).trans (wmSetFocusInternal_badges id _)

theorem wmRepackZ_badges (s : Wm) : SameBadges s (wmRepackZ s) := by
  have hfold : ∀ (l : List (Slot × Nat)) (t : Wm), SameBadges s t →
      SameBadges s (l.foldl (fun (s : Wm) p => s.modify p.1 fun win => { win with z := p.2 + 1 }) t) := by
    intro l
    induction l with
    | nil => exact fun t ht => ht
    | cons p l ih => exact fun t ht => ih _ (ht.trans (.modify fun _ => rfl))
  exact (hfold _ s (.refl s)).trans (.of_windows rfl rfl)

/-- `wm_render` changes no badge. -/
theorem wmRender_badges (wild : Nat → Int → UInt32) (s : Wm) : SameBadges s (wmRender wild s) := by
  apply (wmRepackZ_badges s).trans
  unfold wmRender
  dsimp only
  apply SameBadges.ite _ (.refl _)
  unfold wmRenderGpu
  cases (wmRepackZ s).dirty with
  | none => exact .refl _
  | some clip => exact .of_windows rfl rfl

/-! ## Windows that are never closed -/

/-- The first `n` slots are in use, by the windows 1 to `n`. -/
structure Numbered (s : Wm) (n : Nat) : Prop where
  le : n ≤ wmMaxWindows
  nextId : s.nextId = n + 1
  used : ∀ i : Slot, i.val < n → ∃ text, (s.windows i).badge = ⟨true, i.val + 1, true, text⟩
  unused : ∀ i : Slot, n ≤ i.val → (s.windows i).used = false

variable {n : Nat}

theorem Numbered.same (h : Numbered s n) (hsame : SameBadges s t) : Numbered t n where
  le := h.le
  nextId := hsame.nextId.trans h.nextId
  used i hi := by
    obtain ⟨text, hbadge⟩ := h.used i hi
    exact ⟨text, (hsame.badge i).trans hbadge⟩
  unused i hi := (congrArg Badge.used (hsame.badge i)).trans (h.unused i hi)

/-- The windows in use are those in the first slots. -/
theorem Numbered.of_used (h : Numbered s n) (hused : (s.windows i).used = true) :
    i.val < n ∧ (s.windows i).id = i.val + 1 := by
  have hi : i.val < n := by
    by_contra hge
    rw [h.unused i (Nat.le_of_not_lt hge)] at hused
    exact Bool.false_ne_true hused
  obtain ⟨text, hbadge⟩ := h.used i hi
  exact ⟨hi, congrArg Badge.id hbadge⟩

/-- The window of a number is found, and there are no others. -/
theorem Numbered.find (h : Numbered s n) {k : Nat} (hk : k < n) :
    ∃ i : Slot, i.val = k ∧ wmFind s (k + 1) = some i := by
  cases hfind : wmFind s (k + 1) with
  | some i =>
      obtain ⟨hused, hid⟩ := wmFind_some hfind
      have hnumber := (h.of_used hused).2
      exact ⟨i, by omega, rfl⟩
  | none =>
      obtain ⟨text, hbadge⟩ := h.used ⟨k, hk.trans_le h.le⟩ hk
      exact absurd (congrArg Badge.id hbadge)
        (wmFind_none hfind ⟨k, hk.trans_le h.le⟩ (congrArg Badge.used hbadge))

theorem Numbered.find_none (h : Numbered s n) {id : Int} (hid : id ≤ 0) : wmFind s id = none := by
  cases hfind : wmFind s id with
  | none => rfl
  | some i =>
      obtain ⟨hused, heq⟩ := wmFind_some hfind
      have hpos := (h.of_used hused).2
      omega

/-- `wm_focus` of a window that is there succeeds. -/
theorem Numbered.focus (h : Numbered s n) {k : Nat} (hk : k < n) : (wmFocus (k + 1) s).1 = 0 := by
  obtain ⟨i, -, hfind⟩ := h.find hk
  unfold wmFocus
  rw [hfind]
  dsimp only
  have hn := h.same (raise_badges i s)
  obtain ⟨j, -, hfind'⟩ := hn.find hk
  unfold wmSetFocusInternal
  split
  · rfl
  · dsimp only
    rw [hfind']
    obtain ⟨hused, -⟩ := wmFind_some hfind'
    obtain ⟨text, hbadge⟩ := hn.used j (hn.of_used hused).1
    have hshown := congrArg Badge.shown hbadge
    obtain ⟨hfocusable, hvisible⟩ := Bool.and_eq_true_iff.mp hshown
    rw [if_neg]
    dsimp only
    rw [hfocusable, hvisible]
    exact fun hboth => Bool.false_ne_true hboth.2

theorem Numbered.focus_none (h : Numbered s n) {id : Int} (hid : id ≤ 0) : wmFocus id s = (-1, s) := by
  unfold wmFocus
  rw [h.find_none hid]

/-- `wm_create` makes the next window, until there are eight. -/
theorem Numbered.create (h : Numbered s n) (title : Option (List UInt8)) (w ht : Int) :
    (n = wmMaxWindows ∧ wmCreate title w ht s = (-1, s)) ∨
      (n < wmMaxWindows ∧ (wmCreate title w ht s).1 = n + 1 ∧
        Numbered (wmCreate title w ht s).2 (n + 1) ∧
        ∀ i : Slot, i.val < n → ((wmCreate title w ht s).2.windows i).badge = (s.windows i).badge) := by
  unfold wmCreate
  cases hfind : (List.finRange wmMaxWindows).find? fun i => !(s.windows i).used with
  | none =>
      left
      refine ⟨?_, rfl⟩
      by_contra hne
      have hlt : n < wmMaxWindows := Nat.lt_of_le_of_ne h.le hne
      have hall := List.find?_eq_none.mp hfind ⟨n, hlt⟩ (List.mem_finRange _)
      rw [h.unused ⟨n, hlt⟩ le_rfl] at hall
      exact hall rfl
  | some slot =>
      right
      -- The first free slot is the one behind the windows.
      obtain ⟨hfree, k, hk, hslot, hbefore⟩ := List.find?_eq_some_iff_getElem.mp hfind
      rw [List.getElem_finRange] at hslot
      rw [Bool.not_eq_true'] at hfree
      have hkn : slot.val = k := congrArg Fin.val hslot.symm
      have hge : n ≤ k := by
        by_contra hlt
        obtain ⟨text, hbadge⟩ := h.used slot (by omega)
        have hused := congrArg Badge.used hbadge
        rw [WmWindow.badge, hfree] at hused
        exact Bool.false_ne_true hused
      have hn : slot.val = n := by
        by_contra hne
        have hused := hbefore n (by omega)
        rw [List.getElem_finRange, h.unused _ le_rfl] at hused
        exact absurd hused (by decide)
      dsimp only
      have hlt : n < wmMaxWindows := hn ▸ slot.isLt
      refine ⟨hlt, h.nextId, ?_, fun i hi => ?_⟩
      on_goal 2 =>
        refine (((wmMarkDirtyWindow_badges _ _).trans (wmMarkDirtyTaskbar_badges _)).badge i).trans ?_
        unfold Wm.setWindow
        dsimp only
        rw [Function.update_of_ne fun heq => by rw [heq] at hi; omega]
      refine Numbered.same ?_ ((wmMarkDirtyWindow_badges _ _).trans (wmMarkDirtyTaskbar_badges _))
      have hsmall : n < 8 := hlt
      constructor
      · exact hlt
      · dsimp only [s32]
        rw [h.nextId]
        simp only [Int.bmod_def]
        omega
      · intro i hi
        unfold Wm.setWindow
        dsimp only
        by_cases heq : i = slot
        · rw [heq, Function.update_self, hn, ← h.nextId]
          exact ⟨_, rfl⟩
        · have hval : i.val ≠ slot.val := fun hval => heq (Fin.ext hval)
          rw [Function.update_of_ne heq]
          exact h.used i (by omega)
      · intro i hi
        unfold Wm.setWindow
        dsimp only
        rw [Function.update_of_ne fun heq => by rw [heq] at hi; omega]
        exact h.unused i (Nat.le_of_succ_le hi)

/-! ## Texts -/

/-- `wm_set_text` changes the text of one window. -/
theorem Numbered.setText (h : Numbered s n) (id : Int) (text : List UInt8) :
    Numbered (wmSetText id text s).2 n ∧
      ∀ j, (s.windows j).id ≠ id → ((wmSetText id text s).2.windows j).badge = (s.windows j).badge := by
  unfold wmSetText
  cases hfind : wmFind s id with
  | none => exact ⟨h, fun _ _ => rfl⟩
  | some i =>
      dsimp only
      have hmark := wmMarkDirtyWindow_badges (some i)
        (s.modify i fun win => win.storeText (strncpy text wmTextMax))
      have hother : ∀ j, j ≠ i → (s.modify i fun win => win.storeText (strncpy text wmTextMax)).windows j =
          s.windows j := by
        intro j hj
        unfold Wm.modify Wm.setWindow
        dsimp only
        rw [Function.update_of_ne hj]
      have hself : (s.modify i fun win => win.storeText (strncpy text wmTextMax)).windows i =
          (s.windows i).storeText (strncpy text wmTextMax) := by
        unfold Wm.modify Wm.setWindow
        dsimp only
        rw [Function.update_self]
      have hstored : Numbered (s.modify i fun win => win.storeText (strncpy text wmTextMax)) n := by
        refine ⟨h.le, h.nextId, fun j hj => ?_, fun j hj => ?_⟩
        · by_cases hji : j = i
          · obtain ⟨old, hbadge⟩ := h.used j hj
            rw [hji] at hbadge ⊢
            rw [hself]
            unfold WmWindow.badge at hbadge ⊢
            rw [Badge.mk.injEq] at hbadge
            refine ⟨((s.windows i).storeText (strncpy text wmTextMax)).text, ?_⟩
            rw [Badge.mk.injEq]
            exact ⟨hbadge.1, hbadge.2.1, hbadge.2.2.1, rfl⟩
          · rw [hother j hji]
            exact h.used j hj
        · by_cases hji : j = i
          · rw [hji] at hj ⊢
            rw [hself]
            exact h.unused i hj
          · rw [hother j hji]
            exact h.unused j hj
      refine ⟨hstored.same hmark, fun j hid => (hmark.badge j).trans ?_⟩
      rw [hother j]
      rintro rfl
      exact hid (wmFind_some hfind).2

/-- What `wm_set_text` stores in the window that it finds. -/
theorem wmSetText_text {id : Int} (hfind : wmFind s id = some i) (text : List UInt8) :
    ((wmSetText id text s).2.windows i).text =
      ((s.windows i).storeText (strncpy text wmTextMax)).text := by
  unfold wmSetText
  rw [hfind]
  dsimp only
  refine (congrArg Badge.text ((wmMarkDirtyWindow_badges (some i) _).badge i)).trans ?_
  unfold Wm.modify Wm.setWindow
  dsimp only
  rw [Function.update_self]
  rfl

end Sugimotos.Gui
