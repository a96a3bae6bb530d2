/-
# Listing the files

Model of `fs_listdir`.  The listing is a text: the names in slot order, each with a newline,
cut before the first name that would not fit, with a terminating zero.  Every name in it opens,
and with a buffer of 1025 bytes it names every file.
-/

import Sugimotos.Fs.FailedOpen

namespace Sugimotos.Fs

open Sugimotos.Mm Sugimotos.Proc

/-- `'\n'`. -/
abbrev newline : UInt8 := 10

/-- The loop of `fs_listdir` over the slots that are left, after `out`. -/
def listdirLoop (len : Nat) (inodes : Inodes) : List (Fin ramfsMaxFiles) → List UInt8 → List UInt8
  | [], out => out
  | i :: rest, out =>
      if ¬ (inodes i).used then listdirLoop len inodes rest out
      else if len ≤ out.length + (inodes i).name.length + 1 then out
      else listdirLoop len inodes rest (out ++ (inodes i).name ++ [newline])

/-- The text that `fs_listdir` makes for a buffer of `len` bytes. -/
def listing (len : Nat) (inodes : Inodes) : List UInt8 :=
  listdirLoop len inodes (List.finRange ramfsMaxFiles) []

/-- `fs_listdir`: the result, and the bytes written to `buf`. -/
def fsListdir (buf len : Nat) (inodes : Inodes) : Int × List UInt8 :=
  if buf = 0 ∨ len = 0 then (-1, [])
  else
    let out := listing len inodes
    (out.length, if out.length < len then out ++ [0] else out)

/-! ## The listed names -/

/-- The names of the files, in slot order. -/
def fileNames (inodes : Inodes) (slots : List (Fin ramfsMaxFiles)) : List (List UInt8) :=
  (slots.filter fun i => (inodes i).used).map fun i => (inodes i).name

/-- The names of all files. -/
def allNames (inodes : Inodes) : List (List UInt8) := fileNames inodes (List.finRange ramfsMaxFiles)

/-- Each name with a newline. -/
def lines (names : List (List UInt8)) : List UInt8 := names.flatMap (· ++ [newline])

variable {inodes : Inodes} {name : List UInt8} {names : List (List UInt8)}

theorem lines_cons : lines (name :: names) = name ++ [newline] ++ lines names := rfl

theorem lines_length_le (h : ∀ n ∈ names, n.length ≤ 31) :
    (lines names).length ≤ names.length * 32 := by
  induction names with
  | nil => exact Nat.zero_le _
  | cons name names ih =>
      have hfirst := h name List.mem_cons_self
      have hrest := ih fun n hn => h n (List.mem_cons_of_mem _ hn)
      rw [lines_cons, List.length_append, List.length_append, List.length_singleton,
        List.length_cons]
      omega

/-- Splitting the lines at the newlines gives the names back. -/
theorem splitOn_lines (h : ∀ n ∈ names, newline ∉ n) :
    (lines names).splitOn newline = names ++ [[]] := by
  induction names with
  | nil => rfl
  | cons name names ih =>
      have hfirst := h name List.mem_cons_self
      rw [lines_cons, List.append_assoc, List.singleton_append,
        List.splitOn_append_cons_self_of_not_mem hfirst,
        ih fun n hn => h n (List.mem_cons_of_mem _ hn), List.cons_append]

theorem fileNames_cons (i : Fin ramfsMaxFiles) (slots : List (Fin ramfsMaxFiles)) :
    fileNames inodes (i :: slots) =
      if (inodes i).used then (inodes i).name :: fileNames inodes slots
      else fileNames inodes slots := by
  unfold fileNames
  rw [List.filter_cons]
  split <;> rfl

/-- The loop adds the lines of the longest initial part of the names that fits. -/
theorem listdirLoop_eq (len : Nat) (inodes : Inodes) (slots : List (Fin ramfsMaxFiles)) (out : List UInt8) :
    ∃ shown hidden, fileNames inodes slots = shown ++ hidden ∧
      listdirLoop len inodes slots out = out ++ lines shown ∧
      (out.length < len → (out ++ lines shown).length < len) ∧
      ∀ name rest, hidden = name :: rest →
        len ≤ (out ++ lines shown).length + name.length + 1 := by
  induction slots generalizing out with
  | nil =>
      have hout : out ++ lines [] = out := List.append_nil out
      exact ⟨[], [], rfl, hout.symm, fun hlt => by rwa [hout], nofun⟩
  | cons i slots ih =>
      unfold listdirLoop
      rw [fileNames_cons]
      by_cases hused : (inodes i).used = true
      · rw [if_neg (not_not.mpr hused), if_pos hused]
        split
        · rename_i hfull
          have hout : out ++ lines [] = out := List.append_nil out
          refine ⟨[], _, rfl, hout.symm, fun hlt => by rwa [hout], ?_⟩
          intro name rest heq
          cases heq
          rw [hout]
          exact hfull
        · rename_i hfits
          obtain ⟨shown, hidden, hslots, hout, hlt, hcut⟩ :=
            ih (out ++ (inodes i).name ++ [newline])
          have hassoc : out ++ (inodes i).name ++ [newline] ++ lines shown =
              out ++ lines ((inodes i).name :: shown) := by
            rw [lines_cons]
            simp only [List.append_assoc]
          rw [hassoc] at hout hlt hcut
          refine ⟨(inodes i).name :: shown, hidden, ?_, hout, fun _ => hlt ?_, hcut⟩
          · rw [hslots, List.cons_append]
          · rw [List.length_append, List.length_append, List.length_singleton]
            exact Nat.not_le.mp hfits
      · rw [if_pos hused, if_neg hused]
        exact ih out

/-! ## Listed and opened -/

theorem mem_allNames :
    name ∈ allNames inodes ↔ ∃ i, (inodes i).used = true ∧ (inodes i).name = name := by
  unfold allNames fileNames
  simp only [List.mem_map, List.mem_filter, List.mem_finRange, true_and]

theorem findInodeByName_isSome : (findInodeByName inodes name).isSome ↔ name ∈ allNames inodes := by
  rw [mem_allNames]
  constructor
  · intro h
    obtain ⟨i, hi⟩ := Option.isSome_iff_exists.mp h
    exact ⟨i, findInodeByName_some hi⟩
  · rintro ⟨i, hused, hname⟩
    by_contra hnone
    rw [Option.not_isSome_iff_eq_none] at hnone
    exact findInodeByName_none hnone i hused hname

/-- Without `O_CREAT`, exactly the files that are there can be opened. -/
theorem fsOpen_existing {path : Option (List UInt8)} {flags : Nat} {s : System}
    (hflags : flags &&& oCreat = 0) (hfree : hasFreeFd s.kernel) :
    0 ≤ (fsOpen path flags s).1 ↔ ∃ name ∈ allNames s.inodes, normalizeName path = some name := by
  unfold fsOpen
  cases hname : normalizeName path with
  | none =>
      dsimp only
      exact iff_of_false (by decide) (by rintro ⟨name, -, hsome⟩; cases hsome)
  | some name =>
      dsimp only
      unfold ensureRamfsInode
      cases hfind : findInodeByName s.inodes name with
      | none =>
          dsimp only
          rw [if_pos hflags]
          dsimp only
          refine iff_of_false (by decide) ?_
          rintro ⟨name', hmem, heq⟩
          cases heq
          have hsome := findInodeByName_isSome.mpr hmem
          rw [hfind] at hsome
          cases hsome
      | some i =>
          dsimp only
          refine iff_of_true ?_ ⟨name, findInodeByName_isSome.mp (by rw [hfind]; rfl), rfl⟩
          rcases installFd_cases i.val flags
            (if flags &&& oAppend ≠ 0 then (truncateIf flags i s.inodes i).size else 0) s.kernel with
            ⟨-, hge⟩ | ⟨hno, -⟩
          · exact hge
          · exact absurd hfree hno

theorem allNames_nodup {h : History} (hok : InodesOk inodes h) : (allNames inodes).Nodup := by
  unfold allNames fileNames
  refine List.Nodup.map_on ?_ ((List.nodup_finRange _).filter _)
  intro i hi j hj heq
  exact hok.name_inj i j (List.mem_filter.mp hi).2 (List.mem_filter.mp hj).2 heq

theorem lines_allNames_length {h : History} (hok : InodesOk inodes h) :
    (lines (allNames inodes)).length ≤ 1024 := by
  have hnames : ∀ name ∈ allNames inodes, name.length ≤ 31 := by
    intro name hname
    obtain ⟨i, hused, rfl⟩ := mem_allNames.mp hname
    exact (hok.name_ok i hused).2.1
  have hlines := lines_length_le hnames
  have hcount : (allNames inodes).length ≤ 32 := by
    unfold allNames fileNames
    rw [List.length_map]
    exact (List.length_filter_le _ _).trans_eq (List.length_finRange)
  omega

/-- What `fs_listdir` makes of the files: it shows the first names and hides the others. -/
structure Listed (buf len : Nat) (s : System) (shown hidden : List (List UInt8)) : Prop where
  names : allNames s.inodes = shown ++ hidden
  nodup : (shown ++ hidden).Nodup
  text : fsListdir buf len s.inodes = (((lines shown).length : Int), lines shown ++ [0])
  fits : (lines shown ++ [0]).length ≤ len
  /-- The first hidden name would not have fitted. -/
  cut : ∀ name rest, hidden = name :: rest → len ≤ (lines shown ++ name ++ [newline]).length
  complete : 1024 < len → hidden = []
  parses : (∀ name ∈ shown, newline ∉ name) → (lines shown).splitOn newline = shown ++ [[]]
  opens : ∀ path flags, flags &&& oCreat = 0 → hasFreeFd s.kernel →
    (0 ≤ (fsOpen path flags s).1 ↔ ∃ name ∈ shown ++ hidden, normalizeName path = some name)

/-- **Listing.** `fs_listdir` writes, with a terminating zero, the lines of an initial part of
the names of the files: as many as fit, and all of them when the buffer has more than 1024
bytes.  Names are never repeated, they can be read back from the text unless one contains a
newline, and they are what can be opened without `O_CREAT`. -/
theorem listdir_exact {L : Layout} {ok : Traced → FsOp → Prop} {t : Traced}
    (ht : FsReachable L ok t) {buf len : Nat} (hbuf : buf ≠ 0) (hlen : len ≠ 0) :
    ∃ shown hidden, Listed buf len t.sys shown hidden := by
  have hok := ht.inv.inodes
  obtain ⟨shown, hidden, hnames, hout, hlt, hcut⟩ :=
    listdirLoop_eq len t.sys.inodes (List.finRange ramfsMaxFiles) []
  have hlisting : listing len t.sys.inodes = lines shown := hout
  have hfits : (lines shown).length < len := hlt (Nat.pos_of_ne_zero hlen)
  have htoo : ∀ name rest, hidden = name :: rest →
      len ≤ (lines shown ++ name ++ [newline]).length := by
    intro name rest heq
    have hle := hcut name rest heq
    rw [List.nil_append] at hle
    rwa [List.length_append, List.length_append, List.length_singleton]
  refine ⟨shown, hidden, ⟨hnames, hnames ▸ allNames_nodup hok, ?_, ?_, htoo, fun hbig => ?_,
    splitOn_lines, fun path flags hflags hfree => hnames ▸ fsOpen_existing hflags hfree⟩⟩
  · unfold fsListdir
    rw [if_neg (by rw [not_or]; exact ⟨hbuf, hlen⟩), hlisting]
    dsimp only
    rw [if_pos hfits]
  · rw [List.length_append, List.length_singleton]
    exact hfits
  · cases hhidden : hidden with
    | nil => rfl
    | cons name rest =>
        have hle := htoo name rest hhidden
        have hall := lines_allNames_length hok
        have hsplit : lines (allNames t.sys.inodes) =
            lines shown ++ name ++ [newline] ++ lines rest := by
          unfold allNames
          rw [hnames, hhidden]
          unfold lines
          rw [List.flatMap_append, List.flatMap_cons]
          simp only [List.append_assoc]
        rw [hsplit, List.length_append] at hall
        omega

/-- A process that creates a file beside `README` and lists both, then only the first. -/
def listedOps : List FsOp :=
  [.kernel (.createUserProcess smallEntry), .kernel (.switchTo 1),
    .fsOpen (some (bytesOf "/note")) 0x103]

theorem listdir_exact_small : ∃ t, smallFs (fun _ _ => true) listedOps = some t ∧
    (∃ shown hidden, Listed 4096 2000 t.sys shown hidden) ∧
    ∃ shown hidden, Listed 4096 8 t.sys shown hidden := by
  have hsome : (smallFs (fun _ _ => true) listedOps).isSome = true := by decide +kernel
  obtain ⟨t, ht⟩ := Option.isSome_iff_exists.mp hsome
  have hreach : FsReachable smallLayout (fun _ _ => True) t :=
    smallFs_reachable (fun _ _ _ => trivial) ht
  exact ⟨t, ht, listdir_exact hreach (by decide) (by decide),
    listdir_exact hreach (by decide) (by decide)⟩

end Sugimotos.Fs
