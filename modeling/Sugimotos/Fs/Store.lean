/-
# The files as a store

What the ramfs is for a caller that opens a file, reads or writes it from the start and closes
it again: 32 places, each with a name and a content or free.  Descriptors, offsets, flags and
the bytes behind a file's size are gone.
-/

import Sugimotos.Fs.Listdir

namespace Sugimotos.Fs

open Sugimotos.Mm Sugimotos.Proc

/-! ## The store -/

/-- A file as its users see it. -/
structure File where
  name : List UInt8
  content : List UInt8
  deriving DecidableEq

/-- The places for files, in the order in which a new file looks for one. -/
abbrev Store : Type := Fin ramfsMaxFiles → Option File

namespace Store

/-- The place of the file with that name. -/
def find (st : Store) (name : List UInt8) : Option (Fin ramfsMaxFiles) :=
  (List.finRange ramfsMaxFiles).find? fun i => (st i).any fun f => f.name = name

/-- The first free place. -/
def free (st : Store) : Option (Fin ramfsMaxFiles) :=
  (List.finRange ramfsMaxFiles).find? fun i => (st i).isNone

/-- The place for a file with that name, and its content so far. -/
def place (st : Store) (name : List UInt8) : Option (Fin ramfsMaxFiles × List UInt8) :=
  match st.find name with
  | some i => some (i, ((st i).map File.content).getD [])
  | none => st.free.map fun i => (i, [])

/-- The file of that path gets a content made from the one it has; a new file has none. -/
def edit (path : List UInt8) (f : List UInt8 → List UInt8) (st : Store) : Option Store :=
  (normalizeName (some path)).bind fun name =>
    (st.place name).map fun p => Function.update st p.1 (some ⟨name, f p.2⟩)

/-- The file of that path is there. -/
def touch (path : List UInt8) (st : Store) : Option Store := st.edit path id

/-- The file of that path has that content, as far as a file can hold it. -/
def write (path content : List UInt8) (st : Store) : Option Store :=
  st.edit path fun _ => content.take ramfsDataMax

/-- The content of the file of that path. -/
def read (path : List UInt8) (st : Store) : Option (List UInt8) :=
  (normalizeName (some path)).bind fun name =>
    (st.find name).bind fun i => (st i).map File.content

/-- The file of that path is gone. -/
def remove (path : List UInt8) (st : Store) : Option Store :=
  (normalizeName (some path)).bind fun name =>
    (st.find name).map fun i => Function.update st i none

/-- The names of the files. -/
def names (st : Store) : List (List UInt8) :=
  (List.finRange ramfsMaxFiles).filterMap fun i => (st i).map File.name

end Store

/-- The lines of the first names, as many as leave a byte of `len` free behind them. -/
def firstLines (len : Nat) : List (List UInt8) → List UInt8
  | [] => []
  | name :: names =>
      if len ≤ name.length + 1 then []
      else name ++ [newline] ++ firstLines (len - (name.length + 1)) names

/-! ## What is read back -/

namespace Store

section

variable {st st' : Store} {name name' path path' : List UInt8} {i : Fin ramfsMaxFiles}

theorem find_name (h : st.find name = some i) : (st i).any (fun f => f.name = name) = true := by
  unfold find at h
  have hthere := List.find?_some h
  exact hthere

/-- A place is free or has a file of that name. -/
theorem place_name {old : List UInt8} (h : st.place name = some (i, old)) :
    st i = none ∨ st.find name = some i := by
  unfold place at h
  cases hfind : st.find name with
  | some j =>
      rw [hfind] at h
      cases h
      exact .inr rfl
  | none =>
      rw [hfind] at h
      obtain ⟨j, hfree, hj⟩ := Option.map_eq_some_iff.mp h
      cases hj
      unfold free at hfree
      have hnone := List.find?_some hfree
      exact .inl (Option.isNone_iff_eq_none.mp hnone)

/-- A change at a place that has nothing to do with the name. -/
theorem read_update_other {file : Option File} (hold : ∀ f ∈ st i, f.name ≠ name)
    (hnew : ∀ f ∈ file, f.name ≠ name) (hname : normalizeName (some path) = some name) :
    read path (Function.update st i file) = st.read path := by
  have hnone : ∀ file : Option File, (∀ f ∈ file, f.name ≠ name) →
      file.any (fun f => f.name = name) = false := by
    intro file hfile
    cases file with
    | none => rfl
    | some f => exact decide_eq_false (hfile f rfl)
  have hfind : find (Function.update st i file) name = st.find name := by
    unfold find
    congr 1
    funext j
    by_cases hj : j = i
    · rw [hj, Function.update_self, hnone file hnew, hnone (st i) hold]
    · rw [Function.update_of_ne hj]
  unfold read
  rw [hname, Option.bind_some, Option.bind_some, hfind]
  cases hat : st.find name with
  | none => rfl
  | some j =>
      have hj : j ≠ i := by
        rintro rfl
        have hthere := find_name hat
        rw [hnone (st j) hold] at hthere
        exact Bool.false_ne_true hthere
      rw [Option.bind_some, Option.bind_some, Function.update_of_ne hj]

/-- The place of a name is where its file is found afterwards. -/
theorem find_placed {old : List UInt8} (h : st.place name = some (i, old)) (content : List UInt8) :
    find (Function.update st i (some ⟨name, content⟩)) name = some i := by
  have hthere : (Function.update st i (some (File.mk name content)) i).any
      (fun f => f.name = name) = true := by
    rw [Function.update_self]
    exact decide_eq_true rfl
  cases hfind : st.find name with
  | some j =>
      have hij : j = i := by
        unfold place at h
        rw [hfind] at h
        cases h
        rfl
      rw [← hfind.trans (congrArg some hij)]
      unfold find
      congr 1
      funext k
      by_cases hk : k = i
      · rw [hk, hthere, ← hij, find_name hfind]
      · rw [Function.update_of_ne hk]
  | none =>
      cases hafter : find (Function.update st i (some (File.mk name content))) name with
      | none =>
          have hno := List.find?_eq_none.mp hafter i (List.mem_finRange i)
          exact absurd hthere hno
      | some j =>
          by_cases hj : j = i
          · rw [hj]
          · have hname := find_name hafter
            rw [Function.update_of_ne hj] at hname
            exact absurd hname (List.find?_eq_none.mp hfind j (List.mem_finRange j))

/-- What the files hold after one was edited. -/
theorem read_edit {f : List UInt8 → List UInt8} (h : st.edit path' f = some st')
    (hname : normalizeName (some path) = some name) :
    st'.read path =
      if normalizeName (some path') = some name then some (f ((st.read path).getD []))
      else st.read path := by
  obtain ⟨name', hname', hplace⟩ := Option.bind_eq_some_iff.mp h
  obtain ⟨⟨i, old⟩, hat, rfl⟩ := Option.map_eq_some_iff.mp hplace
  rw [hname']
  by_cases hsame : name' = name
  · subst hsame
    rw [if_pos rfl]
    have hold : old = (st.read path).getD [] := by
      unfold read
      rw [hname, Option.bind_some]
      unfold place at hat
      cases hfind : st.find name' with
      | some j =>
          rw [hfind] at hat
          cases hat
          rfl
      | none =>
          rw [hfind] at hat
          obtain ⟨j, -, hj⟩ := Option.map_eq_some_iff.mp hat
          cases hj
          rfl
    rw [← hold]
    unfold read
    rw [hname, Option.bind_some, find_placed hat, Option.bind_some, Function.update_self]
    rfl
  · rw [if_neg fun heq => hsame (Option.some.inj heq)]
    refine read_update_other (fun g hg => ?_) (fun g hg => ?_) hname
    · cases place_name hat with
      | inl hfree =>
          rw [hfree] at hg
          cases hg
      | inr hfind =>
          have hthere := find_name hfind
          rw [Option.mem_def.mp hg] at hthere
          exact (of_decide_eq_true hthere).trans_ne hsame
    · cases hg
      exact hsame

/-- The other files when one is removed. -/
theorem read_remove (h : st.remove path' = some st') (hname : normalizeName (some path) = some name)
    (hother : normalizeName (some path') ≠ some name) : st'.read path = st.read path := by
  obtain ⟨name', hname', hfound⟩ := Option.bind_eq_some_iff.mp h
  obtain ⟨i, hfind, rfl⟩ := Option.map_eq_some_iff.mp hfound
  refine read_update_other (fun g hg => ?_) (fun g hg => by cases hg) hname
  have hthere := find_name hfind
  rw [Option.mem_def.mp hg] at hthere
  exact (of_decide_eq_true hthere).trans_ne fun heq => hother (hname'.trans (congrArg some heq))

end

end Store

/-! ## The store of the inodes -/

/-- The bytes of a file. -/
def RamfsInode.content (n : RamfsInode) : List UInt8 := (List.range n.size).map n.data

/-- The store that the inodes make up. -/
def Inodes.store (inodes : Inodes) : Store := fun i =>
  if (inodes i).used then some ⟨(inodes i).name, RamfsInode.content (inodes i)⟩ else none

/-- No file is longer than its array. -/
def Inodes.Sized (inodes : Inodes) : Prop := ∀ i, (inodes i).size ≤ ramfsDataMax

variable {inodes : Inodes} {name : List UInt8} {i : Fin ramfsMaxFiles}

theorem Inodes.store_used (h : (inodes i).used = true) :
    Inodes.store inodes i = some ⟨(inodes i).name, RamfsInode.content (inodes i)⟩ := if_pos h

theorem Inodes.store_unused (h : (inodes i).used = false) : Inodes.store inodes i = none := by
  rw [Inodes.store, h]
  rfl

theorem Inodes.store_find (inodes : Inodes) (name : List UInt8) :
    (Inodes.store inodes).find name = findInodeByName inodes name := by
  unfold Store.find findInodeByName
  congr 1
  funext i
  cases hused : (inodes i).used with
  | false =>
      rw [Inodes.store_unused hused]
      rfl
  | true =>
      rw [Inodes.store_used hused]
      rfl

theorem Inodes.store_free (inodes : Inodes) : (Inodes.store inodes).free = allocInode inodes := by
  unfold Store.free allocInode
  congr 1
  funext i
  cases hused : (inodes i).used with
  | false =>
      rw [Inodes.store_unused hused]
      rfl
  | true =>
      rw [Inodes.store_used hused]
      rfl

/-- One inode is replaced by one in use. -/
theorem Inodes.store_update (inodes : Inodes) (i : Fin ramfsMaxFiles) {n : RamfsInode}
    (h : n.used = true) :
    Inodes.store (Function.update inodes i n) =
      Function.update (Inodes.store inodes) i (some ⟨n.name, RamfsInode.content n⟩) := by
  funext j
  by_cases hj : j = i
  · subst hj
    rw [Function.update_self, Inodes.store, Function.update_self, if_pos h]
  · rw [Function.update_of_ne hj, Inodes.store, Inodes.store, Function.update_of_ne hj]

theorem Inodes.store_zero (inodes : Inodes) (i : Fin ramfsMaxFiles) :
    Inodes.store (Function.update inodes i .zero) = Function.update (Inodes.store inodes) i none := by
  funext j
  by_cases hj : j = i
  · subst hj
    rw [Function.update_self]
    exact Inodes.store_unused (by rw [Function.update_self]; rfl)
  · rw [Function.update_of_ne hj, Inodes.store, Inodes.store, Function.update_of_ne hj]

theorem Inodes.Sized.update (h : Inodes.Sized inodes) {n : RamfsInode} (hn : n.size ≤ ramfsDataMax) :
    Inodes.Sized (Function.update inodes i n) := by
  intro j
  by_cases hj : j = i
  · subst hj
    rwa [Function.update_self]
  · rw [Function.update_of_ne hj]
    exact h j

/-- The listing of the directory shows the first names. -/
theorem listdirLoop_store (inodes : Inodes) (len : Nat) (slots : List (Fin ramfsMaxFiles)) (out : List UInt8)
    (hout : out.length ≤ len) :
    listdirLoop len inodes slots out =
      out ++ firstLines (len - out.length)
        (slots.filterMap fun i => (Inodes.store inodes i).map File.name) := by
  induction slots generalizing out with
  | nil => exact (List.append_nil out).symm
  | cons i slots ih =>
      rw [listdirLoop, List.filterMap_cons]
      cases hused : (inodes i).used with
      | false =>
          rw [Inodes.store_unused hused, if_pos Bool.false_ne_true]
          exact ih out hout
      | true =>
          rw [Inodes.store_used hused, if_neg (not_not.mpr rfl)]
          simp only [Option.map_some]
          rw [firstLines]
          by_cases hfull : len ≤ out.length + (inodes i).name.length + 1
          · rw [if_pos hfull, if_pos (by omega), List.append_nil]
          · have hlen : (out ++ (inodes i).name ++ [newline]).length =
                out.length + ((inodes i).name.length + 1) := by
              rw [List.length_append, List.length_append, List.length_singleton, Nat.add_assoc]
            rw [if_neg hfull, if_neg (by omega), ih _ (by omega), hlen, Nat.sub_add_eq]
            simp only [List.append_assoc]

theorem listing_store (len : Nat) (inodes : Inodes) :
    listing len inodes = firstLines len (Inodes.store inodes).names := by
  have hloop := listdirLoop_store inodes len (List.finRange ramfsMaxFiles) []
    (Nat.zero_le len)
  rwa [List.nil_append] at hloop

end Sugimotos.Fs
