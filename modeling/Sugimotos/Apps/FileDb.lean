/-
# The file database

Model of `filedb_add`, `filedb_remove` and `filedb_rename` in `kernel/apps/user_fm.c`: a table
of at most 64 paths, each cut to 63 characters, in the order in which they came.
-/

import Sugimotos.Apps.History
import Mathlib.Data.List.Basic

namespace Sugimotos.Apps

abbrev fileDbMax : Nat := 64
abbrev fmNameMax : Nat := 64

/-- `g_file_db` and `g_file_db_count`. -/
structure FileDb where
  rows : Nat → Line
  count : Nat

/-- The first row that is equal to the path. -/
def filedbFind (path : Line) (db : FileDb) : Option Nat :=
  (List.range db.count).find? fun i => strEq (db.rows i) path

/-- `str_copy_lim(g_file_db[i], src, FM_NAME_MAX)`. -/
def filedbStore (rows : Nat → Line) (i : Nat) (src : Line) : Nat → Line :=
  Function.update rows i (strCopyLim (rows i) src fmNameMax)

/-- `filedb_add`. -/
def filedbAdd (path : Line) (db : FileDb) : FileDb :=
  match filedbFind path db with
  | some _ => db
  | none =>
      if fileDbMax ≤ db.count then db
      else ⟨filedbStore db.rows db.count path, db.count + 1⟩

/-- The loop of `filedb_remove` over `j`, which has that many turns left. -/
def filedbMove : Nat → Nat → (Nat → Line) → Nat → Line
  | 0, _, rows => rows
  | turns + 1, j, rows => filedbMove turns (j + 1) (filedbStore rows j (rows (j + 1)))

/-- `filedb_remove`. -/
def filedbRemove (path : Line) (db : FileDb) : FileDb :=
  match filedbFind path db with
  | none => db
  | some i => ⟨filedbMove (db.count - 1 - i) i db.rows, db.count - 1⟩

/-- `filedb_rename`. -/
def filedbRename (oldPath newPath : Line) (db : FileDb) : FileDb :=
  match filedbFind oldPath db with
  | none => db
  | some i => { db with rows := filedbStore db.rows i newPath }

/-! ## The table as a list -/

/-- The paths in the table. -/
def FileDb.paths (db : FileDb) : List Line := (List.range db.count).map db.rows

/-- What `filedb_add` keeps of a path. -/
abbrev Line.kept (path : Line) : Line := List.take 63 path

/-- The rows in use hold at most 63 characters each. -/
structure FileDb.Fits (db : FileDb) : Prop where
  count : db.count ≤ fileDbMax
  rows : ∀ i, i < db.count → (db.rows i).length ≤ 63

section

variable {db : FileDb} {path : Line} {rows : Nat → Line} {i : Nat}

theorem filedbStore_eq (rows : Nat → Line) (i : Nat) (src : Line) :
    filedbStore rows i src = Function.update rows i src.kept := by
  unfold filedbStore
  rw [strCopyLim, if_neg (Nat.succ_ne_zero 63), copyLim_eq]
  rfl

theorem Line.kept_length (path : Line) : path.kept.length ≤ 63 := List.length_take_le 63 path

theorem Line.kept_eq (h : path.length ≤ 63) : path.kept = path := List.take_of_length_le h

theorem FileDb.length_paths (db : FileDb) : db.paths.length = db.count := by
  rw [FileDb.paths, List.length_map, List.length_range]

theorem FileDb.getElem_paths (db : FileDb) (i : Nat) (hi : i < db.paths.length) :
    db.paths[i] = db.rows i := by
  simp only [FileDb.paths, List.getElem_map, List.getElem_range]

theorem FileDb.mem_paths : path ∈ db.paths ↔ ∃ i, i < db.count ∧ db.rows i = path := by
  simp only [FileDb.paths, List.mem_map, List.mem_range]

theorem filedbFind_none (h : filedbFind path db = none) : path ∉ db.paths := by
  rw [FileDb.mem_paths]
  rintro ⟨i, hi, heq⟩
  have hother := List.find?_eq_none.mp h i (List.mem_range.mpr hi)
  exact hother ((strEq_iff _ _).mpr heq)

/-- The row found is where the list has the path first. -/
theorem filedbFind_some (h : filedbFind path db = some i) :
    path ∈ db.paths ∧ i < db.count ∧ db.paths.idxOf path = i := by
  obtain ⟨heq, hmem, hbefore⟩ := List.find?_range_eq_some.mp h
  have hi : i < db.count := List.mem_range.mp hmem
  refine ⟨FileDb.mem_paths.mpr ⟨i, hi, (strEq_iff _ _).mp heq⟩, hi, ?_⟩
  have hlen : i < db.paths.length := by rwa [db.length_paths]
  apply (List.findIdx_eq hlen).mpr
  constructor
  · rw [db.getElem_paths, beq_iff_eq]
    exact (strEq_iff _ _).mp heq
  · intro j hj
    rw [db.getElem_paths, beq_eq_false_iff_ne]
    intro hrow
    have hnot := hbefore j hj
    rw [(strEq_iff _ _).mpr hrow] at hnot
    exact Bool.false_ne_true hnot

/-- A row more. -/
theorem FileDb.paths_succ (rows : Nat → Line) (n : Nat) (row : Line) :
    FileDb.paths ⟨Function.update rows n row, n + 1⟩ = FileDb.paths ⟨rows, n⟩ ++ [row] := by
  unfold FileDb.paths
  dsimp only
  rw [List.range_succ, List.map_append, List.map_singleton, Function.update_self]
  congr 1
  apply List.map_congr_left
  intro j hj
  exact Function.update_of_ne (Nat.ne_of_lt (List.mem_range.mp hj)) _ _

/-- `filedb_add` adds a path that is not there, as long as there is room. -/
theorem filedbAdd_paths (path : Line) (db : FileDb) :
    (filedbAdd path db).paths =
      if path ∈ db.paths ∨ fileDbMax ≤ db.paths.length then db.paths else db.paths ++ [path.kept] := by
  unfold filedbAdd
  rw [db.length_paths]
  cases hfind : filedbFind path db with
  | some i => rw [if_pos (Or.inl (filedbFind_some hfind).1)]
  | none =>
      dsimp only
      by_cases hfull : fileDbMax ≤ db.count
      · rw [if_pos hfull, if_pos (Or.inr hfull)]
      · rw [if_neg hfull, if_neg (not_or.mpr ⟨filedbFind_none hfind, hfull⟩), filedbStore_eq]
        exact FileDb.paths_succ db.rows db.count path.kept

/-- The loop moves the rows behind `j` up by one. -/
theorem filedbMove_eq (turns j : Nat) (rows : Nat → Line)
    (hrows : ∀ k, j < k → k ≤ j + turns → (rows k).length ≤ 63) :
    filedbMove turns j rows = fun k => if j ≤ k ∧ k < j + turns then rows (k + 1) else rows k := by
  induction turns generalizing j rows with
  | zero =>
      funext k
      exact (if_neg fun h => Nat.not_lt.mpr h.1 h.2).symm
  | succ turns ih =>
      have hkept : (rows (j + 1)).kept = rows (j + 1) :=
        Line.kept_eq (hrows (j + 1) (Nat.lt_succ_self j) (by omega))
      rw [filedbMove, filedbStore_eq, hkept, ih]
      · funext k
        by_cases hj : k = j
        · rw [if_neg (by omega), if_pos (by omega), hj, Function.update_self]
        · rw [Function.update_of_ne hj]
          by_cases hin : j + 1 ≤ k ∧ k < j + 1 + turns
          · rw [if_pos hin, if_pos (by omega), Function.update_of_ne (by omega)]
          · rw [if_neg hin, if_neg (by omega)]
      · intro k hlow hhigh
        rw [Function.update_of_ne (by omega)]
        exact hrows k (by omega) (by omega)

/-- `filedb_remove` takes the first row with the path out. -/
theorem filedbRemove_paths (hfits : db.Fits) (path : Line) :
    (filedbRemove path db).paths = db.paths.erase path := by
  unfold filedbRemove
  cases hfind : filedbFind path db with
  | none => exact (List.erase_of_not_mem (filedbFind_none hfind)).symm
  | some i =>
      obtain ⟨hmem, hi, hidx⟩ := filedbFind_some hfind
      rw [List.erase_eq_eraseIdx_of_idxOf hidx]
      dsimp only
      rw [filedbMove_eq _ _ _ fun k _ hk => hfits.rows k (by omega)]
      apply List.ext_getElem
      · rw [FileDb.length_paths, List.length_eraseIdx_of_lt (by rwa [db.length_paths]),
          db.length_paths]
      · intro k hk hk'
        rw [FileDb.length_paths] at hk
        dsimp only at hk
        rw [FileDb.getElem_paths, List.getElem_eraseIdx]
        dsimp only
        by_cases hlow : k < i
        · rw [if_neg (by omega), dif_pos hlow, FileDb.getElem_paths]
        · rw [if_pos (by omega), dif_neg hlow, FileDb.getElem_paths]

/-- `filedb_rename` overwrites the first row with the path. -/
theorem filedbRename_paths (oldPath newPath : Line) (db : FileDb) :
    (filedbRename oldPath newPath db).paths =
      db.paths.set (db.paths.idxOf oldPath) newPath.kept := by
  unfold filedbRename
  cases hfind : filedbFind oldPath db with
  | none =>
      rw [List.idxOf_eq_length (filedbFind_none hfind), List.set_eq_of_length_le le_rfl]
  | some i =>
      obtain ⟨_, hi, hidx⟩ := filedbFind_some hfind
      dsimp only
      rw [hidx, filedbStore_eq]
      apply List.ext_getElem
      · rw [List.length_set, FileDb.length_paths, FileDb.length_paths]
      · intro k hk hk'
        rw [FileDb.getElem_paths, List.getElem_set]
        by_cases heq : i = k
        · rw [if_pos heq, ← heq]
          exact Function.update_self ..
        · rw [if_neg heq, FileDb.getElem_paths]
          exact Function.update_of_ne (Ne.symm heq) _ _

/-! ## What every call keeps -/

theorem FileDb.fits_iff : db.Fits ↔ db.paths.length ≤ fileDbMax ∧ ∀ p ∈ db.paths, p.length ≤ 63 := by
  rw [db.length_paths]
  constructor
  · intro h
    refine ⟨h.count, fun p hp => ?_⟩
    obtain ⟨i, hi, rfl⟩ := FileDb.mem_paths.mp hp
    exact h.rows i hi
  · intro h
    exact ⟨h.1, fun i hi => h.2 _ (FileDb.mem_paths.mpr ⟨i, hi, rfl⟩)⟩

theorem FileDb.Fits.add (h : db.Fits) (path : Line) : (filedbAdd path db).Fits := by
  obtain ⟨hlen, hrows⟩ := FileDb.fits_iff.mp h
  rw [FileDb.fits_iff, filedbAdd_paths]
  split
  · exact ⟨hlen, hrows⟩
  · rename_i hadd
    rw [not_or, Nat.not_le] at hadd
    rw [List.length_append, List.length_singleton]
    refine ⟨hadd.2, fun p hp => ?_⟩
    cases List.mem_append.mp hp with
    | inl hp => exact hrows p hp
    | inr hp =>
        rw [List.mem_singleton.mp hp]
        exact path.kept_length

theorem FileDb.Fits.remove (h : db.Fits) (path : Line) : (filedbRemove path db).Fits := by
  obtain ⟨hlen, hrows⟩ := FileDb.fits_iff.mp h
  rw [FileDb.fits_iff, filedbRemove_paths h]
  exact ⟨(List.length_erase_le ..).trans hlen, fun p hp => hrows p (List.mem_of_mem_erase hp)⟩

end

end Sugimotos.Apps
