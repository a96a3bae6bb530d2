/-
# The command history

Model of the history functions in `kernel/apps/user_util.c`.  A string is the list of the
characters in front of its end.  The newest line lies at `(next + count - 1) % HIST_MAX`
only once the ring is full; before that this is an entry not yet written, or an old one.
-/

import Sugimotos.Math.Recent
import Mathlib.Data.UInt

namespace Sugimotos.Apps

open Sugimotos.Math

abbrev Line : Type := List UInt8

abbrev histMax : Nat := 16
abbrev histLineMax : Nat := 128

/-! ## Strings -/

/-- The loop of `str_copy_lim`. -/
def copyLim : Nat → Line → Line
  | 0, _ => []
  | _, [] => []
  | n + 1, c :: src => c :: copyLim n src

def strCopyLim (dst src : Line) (max : Nat) : Line := if max = 0 then dst else copyLim (max - 1) src

/-- `str_eq` of two lines.  Its loop is `Lib.strEq`, which says by `Lib.strEq_spec` of two strings
whether they have the same characters. -/
def strEq (a b : Line) : Bool := decide (a = b)

theorem copyLim_eq (n : Nat) (src : Line) : copyLim n src = src.take n := by
  induction src generalizing n with
  | nil => cases n <;> rfl
  | cons c src ih =>
      cases n with
      | zero => rfl
      | succ n => exact congrArg (c :: ·) (ih n)

theorem strCopyLim_line (dst src : Line) :
    strCopyLim dst src histLineMax = src.take (histLineMax - 1) :=
  copyLim_eq (histLineMax - 1) src

theorem strEq_iff (a b : Line) : strEq a b = true ↔ a = b := decide_eq_true_iff

/-! ## The history -/

/-- `struct shell_history`.  No `browse_pos` is the source's -1. -/
structure ShellHistory where
  count : Nat
  next : Nat
  browsePos : Option Nat
  entries : Nat → Line
  scratch : Line
  scratchValid : Bool

/-- `history_init`, which leaves the entries as they are. -/
def historyInit (h : ShellHistory) : ShellHistory :=
  { h with count := 0, next := 0, browsePos := none, scratchValid := false }

/-- `history_prev`: the line to show, if any, for the line being edited. -/
def historyPrev (h : ShellHistory) (current : Line) : Option Line × ShellHistory :=
  if h.count = 0 then (none, h)
  else
    match h.browsePos with
    | none =>
        let pos := (h.next + h.count - 1) % histMax
        (some (h.entries pos),
          { h with
            scratch := strCopyLim h.scratch current histLineMax
            scratchValid := true
            browsePos := some pos })
    | some pos =>
        let oldest := if h.count = histMax then h.next else 0
        if pos = oldest then (some (h.entries pos), h)
        else
          let pos := (pos + histMax - 1) % histMax
          (some (h.entries pos), { h with browsePos := some pos })

/-- `history_next`. -/
def historyNext (h : ShellHistory) : Option Line × ShellHistory :=
  match h.browsePos with
  | none => (none, h)
  | some pos =>
      let last := (h.next + h.count - 1) % histMax
      if pos = last then
        (some (if h.scratchValid then h.scratch else []), { h with browsePos := none })
      else
        let pos := (pos + 1) % histMax
        (some (h.entries pos), { h with browsePos := some pos })

/-- `history_push`. -/
def historyPush (h : ShellHistory) (line : Line) : ShellHistory :=
  if line = [] then h
  else
    let prev := (h.next + h.count - 1) % histMax
    if h.count > 0 ∧ strEq (h.entries prev) line then h
    else
      { count := if h.count < histMax then h.count + 1 else h.count
        next := (h.next + 1) % histMax
        browsePos := none
        entries := fun i =>
          if i = h.next then strCopyLim (h.entries i) line histLineMax else h.entries i
        scratch := h.scratch
        scratchValid := false }

/-- `history_push` for one line after the other. -/
def historyPushes (h : ShellHistory) (lines : List Line) : ShellHistory :=
  lines.foldl historyPush h

/-- `history_prev` or `history_next`. -/
def historyBrowse (h : ShellHistory) : Walk.Move Line → Option Line × ShellHistory
  | .back current => historyPrev h current
  | .forth => historyNext h

/-! ## What it is for -/

/-- The non-empty lines, cut, one of those that are equal and follow each other. -/
def storedLines (lines : List Line) : List Line :=
  ((lines.filter (· ≠ [])).map (List.take (histLineMax - 1))).destutter (· ≠ ·)

/-- The latest of them, the newest first. -/
def keptLines (lines : List Line) : List Line := (storedLines lines).reverse.take histMax

/-- Browsing shows the lines of a walk through those kept. -/
def Chronological (h : ShellHistory) (kept : List Line) (moves : List (Walk.Move Line)) : Prop :=
  replies historyBrowse h moves = replies (Walk.step kept) ⟨none, []⟩ moves

/-- The line is equal to the one it is compared with if it is, once cut, equal to the
newest. -/
def PushFits (h : ShellHistory) (line : Line) : Prop :=
  line = [] ∨ h.count = 0 ∨
    (h.entries ((h.next + h.count - 1) % histMax) = line ↔
      h.entries ((h.next + histMax - 1) % histMax) = line.take (histLineMax - 1))

/-- Browsing starts at the newest line: there is none, or the ring is full. -/
def BrowseFits (h : ShellHistory) : Prop := h.count = 0 ∨ h.count = histMax

/-- A line put aside is not cut. -/
def MoveFits (h : ShellHistory) : Walk.Move Line → Prop
  | .back current => h.count = 0 ∨ h.browsePos ≠ none ∨ current.length < histLineMax
  | .forth => True

instance (h : ShellHistory) (line : Line) : Decidable (PushFits h line) :=
  inferInstanceAs (Decidable (_ ∨ _))

instance (h : ShellHistory) : Decidable (BrowseFits h) := inferInstanceAs (Decidable (_ ∨ _))

instance (h : ShellHistory) : ∀ move, Decidable (MoveFits h move)
  | .back _ => inferInstanceAs (Decidable (_ ∨ _))
  | .forth => isTrue trivial

/-- Every line fits the history it is pushed to. -/
abbrev PushesFit (h : ShellHistory) (lines : List Line) : Prop :=
  EachFits historyPush PushFits h lines

/-- Every move fits the history it is made in. -/
abbrev MovesFit (h : ShellHistory) (moves : List (Walk.Move Line)) : Prop :=
  EachFits (fun h move => (historyBrowse h move).2) MoveFits h moves

/-! ## Pushing -/

/-- The ring holds the latest of all lines stored so far. -/
structure Holds (h : ShellHistory) (all : List Line) : Prop where
  count : h.count = min all.length histMax
  next : h.next = all.length % histMax
  entries : ∀ i, i < all.length → all.length ≤ i + histMax →
    all[i]? = some (h.entries (i % histMax))

section Pushing

variable {h : ShellHistory} {all : List Line} {line : Line}

theorem Holds.init (h : ShellHistory) : Holds (historyInit h) [] where
  count := rfl
  next := rfl
  entries := fun _ hi => absurd hi (Nat.not_lt_zero _)

theorem Holds.newest (hh : Holds h all) (hne : h.count ≠ 0) :
    all.getLast? = some (h.entries ((h.next + histMax - 1) % histMax)) := by
  have hcount := hh.count
  have hlen : 0 < all.length := by omega
  have hat := hh.entries (all.length - 1) (by omega) (by omega)
  have hpos : (h.next + histMax - 1) % histMax = (all.length - 1) % histMax := by
    rw [hh.next]
    simp only [histMax]
    omega
  rw [List.getLast?_eq_getElem?, hat, hpos]

theorem storedLines_nil (lines : List Line) : storedLines (lines ++ [[]]) = storedLines lines := by
  unfold storedLines
  rw [List.filter_append, List.filter_cons_of_neg (by decide), List.filter_nil, List.append_nil]

theorem storedLines_concat (lines : List Line) (hline : line ≠ []) :
    storedLines (lines ++ [line]) =
      pushDistinct (storedLines lines) (line.take (histLineMax - 1)) := by
  unfold storedLines
  rw [List.filter_append, List.filter_cons_of_pos (by simpa using hline), List.filter_nil,
    List.map_append, List.map_singleton, destutter_concat]

/-- The line is stored behind the others. -/
theorem Holds.store (hh : Holds h all) (hline : line ≠ [])
    (hprev : ¬ (h.count > 0 ∧ strEq (h.entries ((h.next + h.count - 1) % histMax)) line)) :
    Holds (historyPush h line) (all ++ [line.take (histLineMax - 1)]) := by
  have hcount := hh.count
  have hnext := hh.next
  have hlen : (all ++ [line.take (histLineMax - 1)]).length = all.length + 1 := List.length_append
  unfold historyPush
  rw [if_neg hline, if_neg hprev]
  constructor
  · change (if h.count < histMax then h.count + 1 else h.count) = _
    rw [hlen]
    split <;> omega
  · change (h.next + 1) % histMax = _
    rw [hlen, hnext]
    simp only [histMax]
    omega
  · intro i hi hnear
    rw [hlen] at hi hnear
    change _ = some (if i % histMax = h.next then _ else _)
    by_cases hlast : i = all.length
    · rw [hlast, List.getElem?_concat_length, if_pos hnext.symm, strCopyLim_line]
    · have hcell : i % histMax ≠ h.next := by
        rw [hnext]
        simp only [histMax] at *
        omega
      rw [if_neg hcell, List.getElem?_append_left (by omega)]
      exact hh.entries i (by omega) (by omega)

/-- A push that fits stores what is to be stored. -/
theorem Holds.push {lines : List Line} (hh : Holds h (storedLines lines)) (hfits : PushFits h line) :
    Holds (historyPush h line) (storedLines (lines ++ [line])) := by
  by_cases hline : line = []
  · rw [hline, storedLines_nil]
    exact hh
  · rw [storedLines_concat lines hline]
    have hsame : (h.count > 0 ∧ strEq (h.entries ((h.next + h.count - 1) % histMax)) line) ↔
        (storedLines lines).getLast? = some (line.take (histLineMax - 1)) := by
      rw [strEq_iff]
      by_cases hzero : h.count = 0
      · have hcount := hh.count
        have hnil : storedLines lines = [] := by
          apply List.length_eq_zero_iff.mp
          simp only [histMax] at hcount
          omega
        rw [hnil, hzero]
        exact ⟨fun h => absurd h.1 (Nat.lt_irrefl 0), fun h => nomatch h⟩
      · rw [hh.newest hzero, Option.some.injEq]
        have hiff := (hfits.resolve_left hline).resolve_left hzero
        exact ⟨fun h => hiff.mp h.2, fun h => ⟨Nat.pos_of_ne_zero hzero, hiff.mpr h⟩⟩
    unfold pushDistinct
    by_cases hlast : (storedLines lines).getLast? = some (line.take (histLineMax - 1))
    · have hkeep : historyPush h line = h := by
        unfold historyPush
        rw [if_neg hline, if_pos (hsame.mpr hlast)]
      rw [if_pos hlast, hkeep]
      exact hh
    · rw [if_neg hlast]
      exact hh.store hline fun h => hlast (hsame.mp h)

theorem Holds.pushes {lines more : List Line} (hh : Holds h (storedLines lines))
    (hfit : PushesFit h more) : Holds (historyPushes h more) (storedLines (lines ++ more)) := by
  induction more generalizing h lines with
  | nil =>
      rw [List.append_nil]
      exact hh
  | cons line more ih =>
      rw [List.append_cons]
      exact ih (hh.push hfit.1) hfit.2

theorem historyPush_idle (hidle : h.browsePos = none) :
    (historyPush h line).browsePos = none := by
  by_cases hline : line = []
  · rw [historyPush, if_pos hline]
    exact hidle
  · by_cases hprev : h.count > 0 ∧ strEq (h.entries ((h.next + h.count - 1) % histMax)) line
    · rw [historyPush, if_neg hline, if_pos hprev]
      exact hidle
    · rw [historyPush, if_neg hline, if_neg hprev]

theorem historyPushes_idle {lines : List Line} (hidle : h.browsePos = none) :
    (historyPushes h lines).browsePos = none := by
  induction lines generalizing h with
  | nil => exact hidle
  | cons line lines ih => exact ih (historyPush_idle hidle)

end Pushing

/-! ## Browsing -/

section Steps

variable {h : ShellHistory} {current : Line} {pos : Nat}

theorem historyPrev_empty (hzero : h.count = 0) : historyPrev h current = (none, h) := if_pos hzero

theorem historyPrev_start (hzero : h.count ≠ 0) (hidle : h.browsePos = none) :
    historyPrev h current = (some (h.entries ((h.next + h.count - 1) % histMax)),
      { h with
        scratch := strCopyLim h.scratch current histLineMax
        scratchValid := true
        browsePos := some ((h.next + h.count - 1) % histMax) }) := by
  simp only [historyPrev, if_neg hzero, hidle]

/-- Browsing a full ring stays where the next line will be written. -/
theorem historyPrev_oldest (hfull : h.count = histMax) (hpos : h.browsePos = some h.next) :
    historyPrev h current = (some (h.entries h.next), h) := by
  have hzero : h.count ≠ 0 := by
    rw [hfull]
    decide
  rw [historyPrev, if_neg hzero, hpos]
  simp only [hfull, if_true]

theorem historyPrev_older (hfull : h.count = histMax) (hpos : h.browsePos = some pos)
    (hne : pos ≠ h.next) :
    historyPrev h current = (some (h.entries ((pos + histMax - 1) % histMax)),
      { h with browsePos := some ((pos + histMax - 1) % histMax) }) := by
  have hzero : h.count ≠ 0 := by
    rw [hfull]
    decide
  have hold : pos ≠ if h.count = histMax then h.next else 0 := by
    rw [if_pos hfull]
    exact hne
  simp only [historyPrev, if_neg hzero, hpos, if_neg hold]

theorem historyNext_idle (hidle : h.browsePos = none) : historyNext h = (none, h) := by
  simp only [historyNext, hidle]

theorem historyNext_last (hpos : h.browsePos = some ((h.next + h.count - 1) % histMax))
    (hvalid : h.scratchValid = true) :
    historyNext h = (some h.scratch, { h with browsePos := none }) := by
  simp only [historyNext, hpos, if_true, if_pos hvalid]

theorem historyNext_newer (hpos : h.browsePos = some pos)
    (hne : pos ≠ (h.next + h.count - 1) % histMax) :
    historyNext h = (some (h.entries ((pos + 1) % histMax)),
      { h with browsePos := some ((pos + 1) % histMax) }) := by
  simp only [historyNext, hpos, if_neg hne]

end Steps

/-- The cursor of the history is where the walk is. -/
structure Browses (h : ShellHistory) (all : List Line) (w : Walk Line) : Prop where
  holds : Holds h all
  fits : BrowseFits h
  idle : w.depth = none → h.browsePos = none
  shown : ∀ d, w.depth = some d → d < h.count ∧
    h.browsePos = some ((h.next + histMax - 1 - d) % histMax) ∧
    h.scratchValid = true ∧ h.scratch = w.held

section Browsing

variable {h h' : ShellHistory} {all : List Line} {w : Walk Line} {d : Nat}

theorem Holds.congr (hh : Holds h all) (hcount : h'.count = h.count) (hnext : h'.next = h.next)
    (hentries : h'.entries = h.entries) : Holds h' all := by
  constructor
  · rw [hcount]
    exact hh.count
  · rw [hnext]
    exact hh.next
  · rw [hentries]
    exact hh.entries

/-- The lines kept, the newest first, in the ring. -/
theorem Holds.kept (hh : Holds h all) (hd : d < h.count) :
    (all.reverse.take histMax)[d]? = some (h.entries ((h.next + histMax - 1 - d) % histMax)) := by
  have hcount := hh.count
  have hat := hh.entries (all.length - 1 - d) (by omega) (by omega)
  have hpos : (h.next + histMax - 1 - d) % histMax = (all.length - 1 - d) % histMax := by
    rw [hh.next]
    simp only [histMax] at *
    omega
  rw [List.getElem?_take_of_lt (by omega), List.getElem?_reverse (by omega), hat, hpos]

theorem Holds.kept_length (hh : Holds h all) : (all.reverse.take histMax).length = h.count := by
  rw [List.length_take, List.length_reverse, hh.count, min_comm]

theorem Holds.next_lt (hh : Holds h all) : h.next < histMax := by
  rw [hh.next]
  exact Nat.mod_lt _ (by decide)

/-- A walk that shows an entry of the ring. -/
theorem Browses.show (hb : Browses h all w) (hcount : h'.count = h.count) (hnext : h'.next = h.next)
    (hentries : h'.entries = h.entries) (hd : d < h'.count)
    (hpos : h'.browsePos = some ((h'.next + histMax - 1 - d) % histMax))
    (hvalid : h'.scratchValid = true) : Browses h' all ⟨some d, h'.scratch⟩ := by
  constructor
  · exact hb.holds.congr hcount hnext hentries
  · rw [BrowseFits, hcount]
    exact hb.fits
  · intro hnone
    cases hnone
  · intro e he
    cases he
    exact ⟨hd, hpos, hvalid, rfl⟩

theorem Browses.prev_start (hb : Browses h all w) (hzero : h.count ≠ 0) (hdepth : w.depth = none)
    {current : Line} (hfits : MoveFits h (.back current)) :
    (historyPrev h current).1 = (w.back (all.reverse.take histMax) current).1 ∧
      Browses (historyPrev h current).2 all (w.back (all.reverse.take histMax) current).2 := by
  have hfull : h.count = histMax := hb.fits.resolve_left hzero
  have hlen : (all.reverse.take histMax).length ≠ 0 := by
    rw [hb.holds.kept_length]
    exact hzero
  have hpos : (h.next + h.count - 1) % histMax = (h.next + histMax - 1 - 0) % histMax := by
    rw [hfull, Nat.sub_zero]
  have hcopy : strCopyLim h.scratch current histLineMax = current := by
    rw [strCopyLim_line]
    have hcur := (hfits.resolve_left hzero).resolve_left fun h => h (hb.idle hdepth)
    exact List.take_of_length_le (Nat.le_sub_one_of_lt hcur)
  rw [historyPrev_start hzero (hb.idle hdepth), Walk.back_start hlen current hdepth, hpos, hcopy]
  constructor
  · exact (hb.holds.kept (Nat.pos_of_ne_zero hzero)).symm
  · exact hb.show rfl rfl rfl (Nat.pos_of_ne_zero hzero) rfl rfl

theorem Browses.prev_shown (hb : Browses h all w) (hdepth : w.depth = some d) (current : Line) :
    (historyPrev h current).1 = (w.back (all.reverse.take histMax) current).1 ∧
      Browses (historyPrev h current).2 all (w.back (all.reverse.take histMax) current).2 := by
  obtain ⟨hd, hpos, hvalid, hheld⟩ := hb.shown d hdepth
  have hzero : h.count ≠ 0 := Nat.ne_of_gt (Nat.zero_lt_of_lt hd)
  have hfull : h.count = histMax := hb.fits.resolve_left hzero
  have hlen : (all.reverse.take histMax).length ≠ 0 := by
    rw [hb.holds.kept_length]
    exact hzero
  have hnext := hb.holds.next_lt
  rw [Walk.back_shown hlen current hdepth, hb.holds.kept_length, ← hheld]
  by_cases hlast : d = histMax - 1
  · -- the cursor is at the oldest line and stays
    have hmin : min (d + 1) (h.count - 1) = d := by omega
    have hold : (h.next + histMax - 1 - d) % histMax = h.next := by
      simp only [histMax] at *
      omega
    have hat : h.browsePos = some h.next := hpos.trans (congrArg some hold)
    have hkept := hb.holds.kept hd
    rw [hold] at hkept
    rw [historyPrev_oldest hfull hat, hmin]
    exact ⟨hkept.symm, hb.show rfl rfl rfl hd hpos hvalid⟩
  · have hmin : min (d + 1) (h.count - 1) = d + 1 := by omega
    have hold : (h.next + histMax - 1 - d) % histMax ≠ h.next := by
      simp only [histMax] at *
      omega
    have hback : ((h.next + histMax - 1 - d) % histMax + histMax - 1) % histMax =
        (h.next + histMax - 1 - (d + 1)) % histMax := by
      simp only [histMax] at *
      omega
    have hd' : d + 1 < h.count := by omega
    rw [historyPrev_older hfull hpos hold, hmin, hback]
    exact ⟨(hb.holds.kept hd').symm, hb.show rfl rfl rfl hd' rfl hvalid⟩

theorem Browses.prev (hb : Browses h all w) {current : Line} (hfits : MoveFits h (.back current)) :
    (historyPrev h current).1 = (w.back (all.reverse.take histMax) current).1 ∧
      Browses (historyPrev h current).2 all (w.back (all.reverse.take histMax) current).2 := by
  cases hdepth : w.depth with
  | none =>
      by_cases hzero : h.count = 0
      · rw [historyPrev_empty hzero, Walk.back_of_empty (hb.holds.kept_length.trans hzero)]
        exact ⟨rfl, hb⟩
      · exact hb.prev_start hzero hdepth hfits
  | some d => exact hb.prev_shown hdepth current

theorem Browses.next_shown (hb : Browses h all w) (hdepth : w.depth = some d) :
    (historyNext h).1 = (w.forth (all.reverse.take histMax)).1 ∧
      Browses (historyNext h).2 all (w.forth (all.reverse.take histMax)).2 := by
  obtain ⟨hd, hpos, hvalid, hheld⟩ := hb.shown d hdepth
  have hfull : h.count = histMax := hb.fits.resolve_left (Nat.ne_of_gt (Nat.zero_lt_of_lt hd))
  have hnext := hb.holds.next_lt
  cases d with
  | zero =>
      have hlast : h.browsePos = some ((h.next + h.count - 1) % histMax) := by
        rw [hpos, hfull, Nat.sub_zero]
      rw [historyNext_last hlast hvalid, Walk.forth_first hdepth, hheld]
      constructor
      · rfl
      · exact ⟨hb.holds.congr rfl rfl rfl, hb.fits, fun _ => rfl, fun _ he => nomatch he⟩
  | succ d =>
      have hlast : (h.next + histMax - 1 - (d + 1)) % histMax ≠ (h.next + h.count - 1) % histMax := by
        simp only [histMax] at *
        omega
      have hforth : ((h.next + histMax - 1 - (d + 1)) % histMax + 1) % histMax =
          (h.next + histMax - 1 - d) % histMax := by
        simp only [histMax] at *
        omega
      have hd' : d < h.count := Nat.lt_of_succ_lt hd
      rw [historyNext_newer hpos hlast, Walk.forth_shown hdepth, hforth, ← hheld]
      exact ⟨(hb.holds.kept hd').symm, hb.show rfl rfl rfl hd' rfl hvalid⟩

theorem Browses.next (hb : Browses h all w) :
    (historyNext h).1 = (w.forth (all.reverse.take histMax)).1 ∧
      Browses (historyNext h).2 all (w.forth (all.reverse.take histMax)).2 := by
  cases hdepth : w.depth with
  | none =>
      rw [historyNext_idle (hb.idle hdepth), Walk.forth_idle hdepth]
      exact ⟨rfl, hb⟩
  | some d => exact hb.next_shown hdepth

/-- A step through the history is a step of the walk. -/
theorem Browses.step (hb : Browses h all w) {move : Walk.Move Line} (hfits : MoveFits h move) :
    (historyBrowse h move).1 = (w.step (all.reverse.take histMax) move).1 ∧
      Browses (historyBrowse h move).2 all (w.step (all.reverse.take histMax) move).2 := by
  cases move with
  | back current => exact hb.prev hfits
  | forth => exact hb.next

/-- Browsing that starts outside of the history walks through the lines kept. -/
theorem Holds.chronological {lines : List Line} (hh : Holds h (storedLines lines))
    (hidle : h.browsePos = none) (hfits : BrowseFits h) {moves : List (Walk.Move Line)}
    (hmoves : MovesFit h moves) : Chronological h (keptLines lines) moves := by
  have hstart : Browses h (storedLines lines) ⟨none, []⟩ :=
    ⟨hh, hfits, fun _ => hidle, fun _ hd => nomatch hd⟩
  apply replies_eq (fun h w => Browses h (storedLines lines) w) _ hstart hmoves
  intro h w move hb hok
  exact hb.step hok

/-- From the line being edited, the steps back show one line after the other. -/
theorem Chronological.prevs {kept : List Line} {current : Line} {k : Nat} (hne : kept ≠ [])
    (hc : Chronological h kept (List.replicate k (.back current))) :
    replies historyBrowse h (List.replicate k (.back current)) =
      (List.range k).map fun i => kept[min i (kept.length - 1)]? := by
  rw [hc]
  exact Walk.replies_start hne current k

/-- Back by one line more than `d`, the steps to the front end in the line being edited. -/
theorem Chronological.nexts {kept : List Line} {current : Line} {d : Nat} (hd : d < kept.length)
    (hc : Chronological h kept
      (List.replicate (d + 1) (.back current) ++ List.replicate (d + 1) .forth)) :
    replies historyBrowse h
        (List.replicate (d + 1) (.back current) ++ List.replicate (d + 1) .forth) =
      (List.range (d + 1)).map (kept[·]?) ++ ((List.range d).reverse.map (kept[·]?) ++
        [some current]) := by
  rw [hc]
  exact Walk.replies_turn current hd

end Browsing

/-- Where every line fits that is pushed, and browsing then starts at the newest line, the
history is shown in its order. -/
theorem history_chronological (h : ShellHistory) (lines : List Line)
    (moves : List (Walk.Move Line)) (hpush : PushesFit (historyInit h) lines)
    (hbrowse : BrowseFits (historyPushes (historyInit h) lines))
    (hmoves : MovesFit (historyPushes (historyInit h) lines) moves) :
    Chronological (historyPushes (historyInit h) lines) (keptLines lines) moves := by
  have hh : Holds (historyPushes (historyInit h) lines) (storedLines ([] ++ lines)) :=
    Holds.pushes (Holds.init h) hpush
  exact hh.chronological (historyPushes_idle rfl) hbrowse hmoves

/-- Seventeen lines: the first is no longer kept. -/
theorem history_chronological_full :
    Chronological
      (historyPushes (historyInit ⟨0, 0, none, fun _ => [], [], false⟩)
        ((List.range 17).map fun i => [.ofNat (i + 1)]))
      (keptLines ((List.range 17).map fun i => [.ofNat (i + 1)]))
      [.back [100], .back [100], .forth, .forth] :=
  history_chronological _ _ _ (by decide +kernel) (by decide +kernel) (by decide +kernel)

/-- After a single line browsing starts at an entry that was never written. -/
theorem history_starts_unset :
    ¬ ∀ (h : ShellHistory) (lines : List Line) (moves : List (Walk.Move Line)),
      Chronological (historyPushes (historyInit h) lines) (keptLines lines) moves := by
  intro hall
  have hbad := hall ⟨0, 0, none, fun _ => [], [], false⟩ [[97]] [.back []]
  have hreplies : [some ([] : Line)] = [some [97]] := hbad
  cases hreplies

end Sugimotos.Apps
