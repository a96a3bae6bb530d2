/-
# When the scan stops

What the bytes of the disk must be like for `scan_root_dir` to come to its end inside its arrays:
the names lie inside their blocks, the blocks can be looked up, and the loop over them ends.
-/

import Sugimotos.Fs.CheckedReads

namespace Sugimotos.Fs

open Sugimotos.Lib Sugimotos.Math Sugimotos.Mm

/-! ## The records of a block -/

/-- A record that is in use and whose name has a length that fits. -/
def Ext4Dirent.Named (de : Ext4Dirent) : Prop := de.inode ≠ 0 ∧ de.nameLen > 0 ∧ de.nameLen < ext4NameMax

instance (de : Ext4Dirent) : Decidable de.Named := inferInstanceAs (Decidable (_ ∧ _))

/-- The record at `p` becomes an entry. -/
def Enters (blockBuf : Buf) (p : Nat) : Prop :=
  (dirent blockBuf p).Named ∧ isDots (direntName blockBuf p (dirent blockBuf p).nameLen) = false

instance (blockBuf : Buf) (p : Nat) : Decidable (Enters blockBuf p) :=
  inferInstanceAs (Decidable (_ ∧ _))

/-- The inode numbers of the records that become entries, from `p` on. -/
def entered (blockBuf : Buf) (n : Nat) : Nat → Nat → List Nat
  | 0, _ => []
  | turns + 1, p =>
      if p + 8 ≤ n ∧ (dirent blockBuf p).recLen ≠ 0 then
        (if Enters blockBuf p then [(dirent blockBuf p).inode] else []) ++
          entered blockBuf n turns (p + (dirent blockBuf p).recLen)
      else []

theorem entered_end {blockBuf : Buf} {n turns p : Nat}
    (h : p + 8 ≤ n → (dirent blockBuf p).recLen = 0) : entered blockBuf n (turns + 1) p = [] :=
  if_neg fun hno => hno.2 (h hno.1)

theorem entered_next {blockBuf : Buf} {n turns p : Nat} (hin : p + 8 ≤ n)
    (hlen : (dirent blockBuf p).recLen ≠ 0) :
    entered blockBuf n (turns + 1) p = (if Enters blockBuf p then [(dirent blockBuf p).inode] else []) ++
      entered blockBuf n turns (p + (dirent blockBuf p).recLen) := if_pos ⟨hin, hlen⟩

/-- From `p` on, where `count` entries are known: the names lie inside `block_buf`, up to the
record that fills the table. -/
def NamesEnd (blockBuf : Buf) (n : Nat) : Nat → Nat → Nat → Prop
  | 0, _, _ => True
  | turns + 1, p, count =>
      p + 8 ≤ n → (dirent blockBuf p).recLen ≠ 0 →
        ((dirent blockBuf p).Named → p + 8 + (dirent blockBuf p).nameLen ≤ bufSize) ∧
          ∀ count', count' = count + (if Enters blockBuf p then 1 else 0) → count' < ext4MaxRootEntries →
            NamesEnd blockBuf n turns (p + (dirent blockBuf p).recLen) count'

theorem NamesEnd.mono {blockBuf : Buf} {n turns p count count' : Nat}
    (h : NamesEnd blockBuf n turns p count) (hle : count ≤ count') :
    NamesEnd blockBuf n turns p count' := by
  induction turns generalizing p count count' with
  | zero => trivial
  | succ turns ih =>
      intro hroom hlen
      obtain ⟨hname, hrest⟩ := h hroom hlen
      refine ⟨hname, fun next hnext hlt => ?_⟩
      exact ih (hrest _ rfl (by omega)) (by omega)

/-- The entries are in the table, and their names end in their arrays. -/
structure Ext4Root.NamesOk (st : Ext4Root) : Prop where
  count : st.rootFileCount ≤ ext4MaxRootEntries
  names : ∀ i, i < st.rootFileCount → ∃ m, m < ext4NameMax ∧ (st.rootFiles i).name m = 0

theorem Ext4Root.NamesOk.addEntry {st : Ext4Root} (h : st.NamesOk)
    (hroom : st.rootFileCount < ext4MaxRootEntries) (blockBuf : Buf) (p : Nat) {nameLen : Nat}
    (hlen : nameLen < ext4NameMax) (inode : Nat) :
    (st.addEntry (direntName blockBuf p nameLen) nameLen inode).NamesOk := by
  refine ⟨hroom, fun i hi => ?_⟩
  show ∃ m, m < ext4NameMax ∧ (Function.update st.rootFiles st.rootFileCount _ i).name m = 0
  rcases Nat.lt_or_eq_of_le (Nat.le_of_lt_succ hi) with hlt | rfl
  · rw [Function.update_of_ne (Nat.ne_of_lt hlt)]
    exact h.names i hlt
  · rw [Function.update_self]
    refine ⟨nameLen, hlen, ?_⟩
    dsimp only
    rw [copyBytes, if_pos (by omega), Nat.sub_zero, Nat.zero_add]
    exact Function.update_self ..

/-- The inode numbers of the table. -/
def Ext4Root.inodes (st : Ext4Root) : List Nat :=
  (List.range st.rootFileCount).map fun i => (st.rootFiles i).inode

theorem Ext4Root.length_inodes (st : Ext4Root) : st.inodes.length = st.rootFileCount := by
  unfold Ext4Root.inodes
  rw [List.length_map, List.length_range]

theorem Ext4Root.mem_inodes {st : Ext4Root} {inum : Nat} :
    inum ∈ st.inodes ↔ ∃ i, i < st.rootFileCount ∧ (st.rootFiles i).inode = inum := by
  unfold Ext4Root.inodes
  rw [List.mem_map]
  simp only [List.mem_range]

/-- What a table holds that others have been written to, as long as there was room. -/
theorem Ext4Root.mem_of_inodes {st st' : Ext4Root} {l : List Nat}
    (h : st'.inodes = (st.inodes ++ l).take ext4MaxRootEntries) (hst : st.NamesOk) {inum : Nat} :
    inum ∈ st'.inodes ↔ inum ∈ st.inodes ∨ inum ∈ l.take (ext4MaxRootEntries - st.rootFileCount) := by
  rw [h, List.take_append, st.length_inodes,
    List.take_of_length_le (st.length_inodes.symm ▸ hst.count : st.inodes.length ≤ _), List.mem_append]

theorem Ext4Root.count_of_inodes {st st' : Ext4Root} {l : List Nat}
    (h : st'.inodes = (st.inodes ++ l).take ext4MaxRootEntries) :
    st'.rootFileCount = min ext4MaxRootEntries (st.rootFileCount + l.length) := by
  rw [← st'.length_inodes, h, List.length_take, List.length_append, st.length_inodes]

theorem Ext4Root.inodes_addEntry (st : Ext4Root) (name : Buf) (nameLen inode : Nat) :
    (st.addEntry name nameLen inode).inodes = st.inodes ++ [inode] := by
  have hold : ∀ i, i < st.rootFileCount →
      ((st.addEntry name nameLen inode).rootFiles i).inode = (st.rootFiles i).inode := fun i hi =>
    congrArg Ext4FileEntry.inode (Function.update_of_ne (Nat.ne_of_lt hi) ..)
  have hnew : ((st.addEntry name nameLen inode).rootFiles st.rootFileCount).inode = inode := by
    unfold Ext4Root.addEntry
    dsimp only
    rw [Function.update_self]
  show (List.range (st.rootFileCount + 1)).map _ = _
  rw [List.range_succ, List.map_append, List.map_singleton, hnew]
  congr 1
  exact List.map_congr_left fun i hi => hold i (List.mem_range.mp hi)

namespace Checked

/-- The loop over the records of a block, while there is room in the table. -/
theorem scanBlock_exact (blockBuf : Buf) {n : Nat} (hn : n ≤ bufSize) (turns p : Nat)
    (hturns : n < p + turns) (hpos : 0 < turns) {st : Ext4Root} (hok : st.NamesOk)
    (hroom : st.rootFileCount < ext4MaxRootEntries) :
    Exact (scanBlock blockBuf n turns p st) (NamesEnd blockBuf n turns p st.rootFileCount) fun st' =>
      st'.inodes = (st.inodes ++ entered blockBuf n turns p).take ext4MaxRootEntries ∧
        st'.NamesOk := by
  have hsize : ext4NameMax = 64 := rfl
  have hshort : ∀ {st : Ext4Root}, st.NamesOk → st.inodes.take ext4MaxRootEntries = st.inodes :=
    fun hok => List.take_of_length_le (Ext4Root.length_inodes _ ▸ hok.count)
  induction turns generalizing p st with
  | zero => cases hpos
  | succ turns ih =>
      unfold scanBlock NamesEnd
      by_cases hin : p + 8 ≤ n
      case neg =>
        rw [if_neg hin, entered_end fun h => absurd h hin, List.append_nil, hshort hok]
        exact (Exact.some ⟨rfl, hok⟩).congr (iff_true_intro fun h => absurd h hin)
      rw [if_pos hin]
      refine Exact.bind_of (inArray_eq (hin.trans hn)) ?_
      dsimp only
      by_cases hlen : (dirent blockBuf p).recLen = 0
      · rw [if_pos hlen, entered_end fun _ => hlen, List.append_nil, hshort hok]
        exact (Exact.some ⟨rfl, hok⟩).congr (iff_true_intro fun _ h => absurd hlen h)
      rw [if_neg hlen, entered_next hin hlen]
      have hnext : n < p + (dirent blockBuf p).recLen + turns ∧ 0 < turns := by omega
      refine Exact.congr ?_ ((forall_prop_of_true hin).trans (forall_prop_of_true hlen))
      by_cases hnamed : (dirent blockBuf p).Named
      case neg =>
        have hout : ¬ Enters blockBuf p := fun h => hnamed h.1
        have hskip : ¬ ((dirent blockBuf p).inode ≠ 0 ∧ (dirent blockBuf p).nameLen > 0 ∧
          (dirent blockBuf p).nameLen < ext4NameMax) := hnamed
        rw [if_neg hout, Nat.add_zero, if_neg hout, List.nil_append, if_neg hskip]
        refine (ih _ hnext.1 hnext.2 hok hroom).congr ⟨fun h => h.2 _ rfl hroom, fun h => ⟨?_, ?_⟩⟩
        · exact fun hno => absurd hno hnamed
        · rintro _ rfl -
          exact h
      obtain ⟨hinode, hsome, hfit⟩ := hnamed
      rw [if_pos ⟨hinode, hsome, hfit⟩]
      -- The name lies inside the block, and the rest ends.
      suffices hexact : Exact _ (p + 8 + (dirent blockBuf p).nameLen ≤ bufSize ∧
          ∀ count', count' = st.rootFileCount + (if Enters blockBuf p then 1 else 0) →
            count' < ext4MaxRootEntries →
              NamesEnd blockBuf n turns (p + (dirent blockBuf p).recLen) count') _ from
        hexact.congr ⟨fun h => ⟨h.1 ⟨hinode, hsome, hfit⟩, h.2⟩, fun h => ⟨fun _ => h.1, h.2⟩⟩
      refine (inArray_exact _ _ _).bind fun _ _ _ => ?_
      have hfits : 0 + (dirent blockBuf p).nameLen ≤ ext4NameMax := by omega
      refine Exact.bind_of (inArray_eq hfits) (Exact.bind_of (inArray_eq hfit) ?_)
      cases hdots : isDots (direntName blockBuf p (dirent blockBuf p).nameLen) with
      | true =>
          have hout : ¬ Enters blockBuf p := fun h => by
            rw [h.2] at hdots
            cases hdots
          rw [if_neg hout, Nat.add_zero, if_neg hout, List.nil_append, if_pos rfl]
          refine (ih _ hnext.1 hnext.2 hok hroom).congr ⟨fun h => h _ rfl hroom, ?_⟩
          rintro h _ rfl -
          exact h
      | false =>
          have henters : Enters blockBuf p := ⟨⟨hinode, hsome, hfit⟩, hdots⟩
          have hroot : st.rootFileCount + 1 ≤ ext4MaxRootEntries := hroom
          have hname : 0 + ((dirent blockBuf p).nameLen + 1) ≤ ext4NameMax := by omega
          have hadd := hok.addEntry hroom blockBuf p hfit (dirent blockBuf p).inode
          rw [if_pos henters, if_pos henters, if_neg Bool.false_ne_true, ← List.append_assoc,
            ← Ext4Root.inodes_addEntry st (direntName blockBuf p (dirent blockBuf p).nameLen)
              (dirent blockBuf p).nameLen]
          refine Exact.bind_of (inArray_eq hroot) (Exact.bind_of (inArray_eq hname) ?_)
          generalize hst' : st.addEntry (direntName blockBuf p (dirent blockBuf p).nameLen)
            (dirent blockBuf p).nameLen (dirent blockBuf p).inode = st' at hadd
          have hcount : st'.rootFileCount = st.rootFileCount + 1 := by
            rw [← hst']
            rfl
          by_cases hfull : st'.rootFileCount ≥ ext4MaxRootEntries
          · rw [if_pos hfull, List.take_append_of_le_length (st'.length_inodes.symm ▸ hfull), hshort hadd]
            refine (Exact.some ⟨rfl, hadd⟩).congr (iff_true_intro fun count' hcount' hlt => ?_)
            omega
          · rw [if_neg hfull]
            refine (ih _ hnext.1 hnext.2 hadd (Nat.lt_of_not_le hfull)).congr ?_
            refine ⟨fun h => h _ hcount (Nat.lt_of_not_le hfull), ?_⟩
            rintro h _ rfl -
            rwa [hcount] at h

end Checked

/-! ## The blocks of the directory -/

variable {fs : Ext4} {sizes : Ext4Sizes} {root : Ext4Inode} {b : Static}

/-- The bytes of block `k` that are read. -/
def Ext4.dirBytes (fs : Ext4) (root : Ext4Inode) (k : Nat) : Nat :=
  if u32 (k * fs.blockSize + fs.blockSize) > root.iSizeLo then root.iSizeLo - k * fs.blockSize
  else fs.blockSize

theorem dirBytes_le {k : Nat} (hk : k * fs.blockSize < root.iSizeLo) :
    0 < fs.dirBytes root k ∧ fs.dirBytes root k ≤ fs.blockSize := by
  have hpos := fs.pos.1
  have hmod : u32 (k * fs.blockSize + fs.blockSize) ≤ k * fs.blockSize + fs.blockSize :=
    Nat.mod_le ..
  unfold Ext4.dirBytes
  split <;> omega

namespace Checked

/-- What is copied within `block_buf` from its start to its start. -/
theorem copyBytes_same (buf : Buf) (n : Nat) : copyBytes buf 0 buf 0 n = buf := by
  funext m
  unfold copyBytes
  split
  · rw [Nat.zero_add, Nat.sub_zero]
  · rfl

/-- One turn of the loop reads the block. -/
theorem readLoopHere_exact (hb : fs.Tails sizes b) {k : Nat} (hk : k * fs.blockSize < 2 ^ 32)
    {bytes : Nat} (hsome : 0 < bytes) (hle : bytes ≤ fs.blockSize) :
    Exact (readLoopHere fs.device fs.blockSize root (k * fs.blockSize) bytes (bytes + 1) 0 b)
      (fs.LookupEnds root k) fun out =>
        fs.Tails sizes out.2 ∧ (fs.fileBlock root k = none → out.1 = 0) ∧
          ∀ buf, fs.fileBlock root k = some buf → out.1 = bytes ∧ out.2.blockBuf = buf := by
  have hmax : bufSize = 4096 := rfl
  have hbuf := blockSize_le fs
  have hpos := blockSize_ne_zero fs
  have hplace : u32 (k * fs.blockSize + 0) = k * fs.blockSize := u32_of_lt hk
  have hchunk : (if fs.blockSize - 0 > bytes - 0 then bytes - 0 else fs.blockSize - 0) = bytes := by
    split <;> omega
  have hroom : 0 + bytes ≤ bufSize := by omega
  unfold readLoopHere
  rw [if_pos hsome]
  dsimp only
  rw [hplace]
  refine Exact.bind_of (divide_eq hpos) (Exact.bind_of (modulo_eq hpos) ?_)
  rw [Nat.mul_div_cancel _ fs.pos.1, Nat.mul_mod_left, hchunk]
  refine (lookup_exact (D := True) hb root k (fun b' hb' _ hnone => ?_)
    fun b' pblock hb' _ hblock => ?_).congr (and_iff_left trivial).symm
  · refine Exact.some (a := (0, b')) ⟨hb', fun _ => rfl, fun buf hbuf => ?_⟩
    cases hnone.symm.trans hbuf
  cases hread : fs.readBlock pblock with
  | none =>
      obtain ⟨buf, hfailed, htails⟩ := readBlock_none hb' .blockBuf hread
      refine Exact.bind_of hfailed (Exact.some (a := (0, _)) ⟨htails, fun _ => rfl, fun buf hbuf => ?_⟩)
      cases (hblock.trans hread).symm.trans hbuf
  | some block =>
      obtain ⟨hdone, htails⟩ := readBlock_some hb' .blockBuf hread
      refine Exact.bind_of hdone ?_
      rw [if_pos rfl]
      refine Exact.bind_of (inArray_eq hroom) (Exact.bind_of (inArray_eq hroom) ?_)
      obtain ⟨left, rfl⟩ := Nat.exists_eq_succ_of_ne_zero (Nat.ne_of_gt hsome)
      unfold readLoopHere
      rw [if_neg (by omega), Nat.zero_add, copyBytes_same]
      refine Exact.some (a := (left + 1, _)) ⟨htails, fun hnone => ?_, fun buf hbuf => ⟨rfl, ?_⟩⟩
      · cases (hblock.trans hread).symm.trans hnone
      · exact Option.some.inj ((hblock.trans hread).symm.trans hbuf)

/-- A block of the directory is read into `block_buf`. -/
theorem inodeReadHere_exact (hb : fs.Tails sizes b) (hhigh : root.iSizeHigh = 0)
    (hsize : root.iSizeLo < 2 ^ 32) {k : Nat} (hk : k * fs.blockSize < root.iSizeLo) :
    Exact (inodeReadHere fs.device fs.blockSize b root (k * fs.blockSize) fs.blockSize)
      (fs.LookupEnds root k) fun out =>
        fs.Tails sizes out.2 ∧ (fs.fileBlock root k = none → out.1 = 0) ∧
          ∀ buf, fs.fileBlock root k = some buf → out.1 = (fs.dirBytes root k : Int) ∧
            out.2.blockBuf = buf := by
  obtain ⟨hsome, hle⟩ := @dirBytes_le fs root k hk
  have hmax : bufSize = 4096 := rfl
  have hbuf := blockSize_le fs
  unfold inodeReadHere
  rw [if_neg (not_not.mpr hhigh)]
  dsimp only
  rw [if_neg (Nat.not_le.mpr hk)]
  have hloop := @readLoopHere_exact fs sizes root b hb k (hk.trans hsize) _ hsome hle
  refine (hloop.bind (D := True) fun _ out hout => ?_).congr (and_iff_left trivial).symm
  refine Exact.some (a := (toInt out.1, out.2)) ⟨hout.1, fun hnone => ?_, fun buf hread => ?_⟩
  · have hzero := hout.2.1 hnone
    dsimp only
    rw [hzero]
    rfl
  · obtain ⟨hbytes, hblock⟩ := hout.2.2 buf hread
    refine ⟨?_, hblock⟩
    dsimp only
    rw [hbytes]
    exact (toInt_eq_iff (by omega)).mpr ⟨rfl, by omega⟩

end Checked

/-- The inode numbers of the records of block `k` that become entries, if there is room for all. -/
noncomputable def Ext4.enteredIn (fs : Ext4) (root : Ext4Inode) (k : Nat) : List Nat :=
  match fs.fileBlock root k with
  | none => []
  | some buf => entered buf (fs.dirBytes root k) (fs.dirBytes root k + 1) 0

/-- How many these are. -/
noncomputable def Ext4.namesIn (fs : Ext4) (root : Ext4Inode) (k : Nat) : Nat := (fs.enteredIn root k).length

/-- And of the blocks before. -/
noncomputable def Ext4.namesBefore (fs : Ext4) (root : Ext4Inode) : Nat → Nat
  | 0 => 0
  | k + 1 => fs.namesBefore root k + fs.namesIn root k

/-- The scan comes to block `k`: it lies inside the directory, all before it can be read, and the
table is not full by then. -/
structure Ext4.ScanComes (fs : Ext4) (root : Ext4Inode) (k : Nat) : Prop where
  inside : k * fs.blockSize < root.iSizeLo
  read : ∀ j, j < k → fs.fileBlock root j ≠ none
  room : fs.namesBefore root k < ext4MaxRootEntries

/-- The root directory names the inode before the table is full. -/
def Ext4.Lists (fs : Ext4) (root : Ext4Inode) (inum : Nat) : Prop :=
  ∃ k, fs.ScanComes root k ∧
    inum ∈ (fs.enteredIn root k).take (ext4MaxRootEntries - fs.namesBefore root k)

/-- Every block that the scan comes to can be looked up, and its names lie inside it; and a
directory of all blocks that there are, which makes the scan start again, has an entry. -/
structure Ext4.ScanEnds (fs : Ext4) (root : Ext4Inode) : Prop where
  lookup : ∀ k, fs.ScanComes root k → fs.LookupEnds root k
  names : ∀ k, fs.ScanComes root k → ∀ buf, fs.fileBlock root k = some buf →
    NamesEnd buf (fs.dirBytes root k) (fs.dirBytes root k + 1) 0 (fs.namesBefore root k)
  ends : 2 ^ 32 < root.iSizeLo + fs.blockSize →
    (∀ k, k * fs.blockSize < 2 ^ 32 → fs.fileBlock root k ≠ none) →
      ∃ k, k * fs.blockSize < 2 ^ 32 ∧ fs.namesIn root k ≠ 0

theorem namesIn_le_before {j k : Nat} (hjk : j < k) : fs.namesIn root j ≤ fs.namesBefore root k := by
  induction k with
  | zero => cases hjk
  | succ k ih =>
      unfold Ext4.namesBefore
      rcases Nat.lt_or_eq_of_le (Nat.le_of_lt_succ hjk) with hlt | rfl
      · exact (ih hlt).trans (Nat.le_add_right ..)
      · exact Nat.le_add_left ..

namespace Checked

section Scan

variable {k turns : Nat} {st : Ext4Root} (hb : fs.Tails sizes b) (hhigh : root.iSizeHigh = 0)
  (hsize : root.iSizeLo < 2 ^ 32) (hk : k * fs.blockSize < root.iSizeLo) (hok : st.NamesOk)
  (hroom : st.rootFileCount < ext4MaxRootEntries)

/-- A turn of the scan. -/
theorem scanLoop_turn (hk : k * fs.blockSize < root.iSizeLo)
    (hroom : st.rootFileCount < ext4MaxRootEntries) :
    scanLoop fs.device fs.blockSize root root.iSizeLo (turns + 1) (k * fs.blockSize) b st = (do
      let r ← inodeReadHere fs.device fs.blockSize b root (k * fs.blockSize) fs.blockSize
      if r.1 ≤ 0 then some (r.2, st)
      else do
        let st ← scanBlock r.2.blockBuf r.1.toNat (r.1.toNat + 1) 0 st
        scanLoop fs.device fs.blockSize root root.iSizeLo turns
          (u32 (k * fs.blockSize + fs.blockSize)) r.2 st) := if_pos ⟨hk, hroom⟩

include hb hhigh hsize hk hok hroom

omit hok in
/-- A block that cannot be read is the end. -/
theorem scanLoop_hole (hlook : fs.LookupEnds root k) (hnone : fs.fileBlock root k = none) :
    ∃ b', scanLoop fs.device fs.blockSize root root.iSizeLo (turns + 1) (k * fs.blockSize) b st =
      some (b', st) ∧ fs.Tails sizes b' := by
  obtain ⟨r, hr, htails, hzero, -⟩ := (inodeReadHere_exact hb hhigh hsize hk).returns hlook
  rw [scanLoop_turn hk hroom, hr]
  simp only [Option.bind_eq_bind, Option.bind_some, hzero hnone, le_refl, if_true]
  exact ⟨r.2, rfl, htails⟩

/-- A block whose names lie inside it. -/
theorem scanLoop_next (hlook : fs.LookupEnds root k) {buf : Buf} (hbuf : fs.fileBlock root k = some buf)
    (hnames : NamesEnd buf (fs.dirBytes root k) (fs.dirBytes root k + 1) 0 st.rootFileCount) :
    ∃ b' st', fs.Tails sizes b' ∧ st'.NamesOk ∧
      st'.inodes = (st.inodes ++ fs.enteredIn root k).take ext4MaxRootEntries ∧
      scanLoop fs.device fs.blockSize root root.iSizeLo (turns + 1) (k * fs.blockSize) b st =
        scanLoop fs.device fs.blockSize root root.iSizeLo turns
          (u32 (k * fs.blockSize + fs.blockSize)) b' st' := by
  obtain ⟨hsome, hle⟩ := @dirBytes_le fs root k hk
  obtain ⟨r, hr, htails, -, hread⟩ := (inodeReadHere_exact hb hhigh hsize hk).returns hlook
  obtain ⟨hbytes, hblock⟩ := hread buf hbuf
  obtain ⟨st', hst', hinodes, hok'⟩ := (scanBlock_exact buf (hle.trans (blockSize_le fs))
    (fs.dirBytes root k + 1) 0 (by omega) (Nat.succ_pos _) hok hroom).returns hnames
  have hpos : ¬ ((fs.dirBytes root k : Int) ≤ 0) := by omega
  have hin : fs.enteredIn root k = entered buf (fs.dirBytes root k) (fs.dirBytes root k + 1) 0 := by
    unfold Ext4.enteredIn
    rw [hbuf]
  refine ⟨r.2, st', htails, hok', hin ▸ hinodes, ?_⟩
  rw [scanLoop_turn hk hroom, hr]
  simp only [Option.bind_eq_bind, Option.bind_some, hbytes, hblock, if_neg hpos, Int.toNat_natCast,
    hst']

/-- What the scan has needed where it has come to its end. -/
theorem scanLoop_needs {out : Static × Ext4Root}
    (hout : scanLoop fs.device fs.blockSize root root.iSizeLo (turns + 1) (k * fs.blockSize) b st =
      some out) :
    fs.LookupEnds root k ∧ ∀ buf, fs.fileBlock root k = some buf →
      NamesEnd buf (fs.dirBytes root k) (fs.dirBytes root k + 1) 0 st.rootFileCount := by
  obtain ⟨hsome, hle⟩ := @dirBytes_le fs root k hk
  rw [scanLoop_turn hk hroom] at hout
  obtain ⟨r, hr, hrest⟩ := Option.bind_eq_some_iff.mp hout
  obtain ⟨hlook, -, -, hread⟩ := (inodeReadHere_exact hb hhigh hsize hk).of_eq_some hr
  refine ⟨hlook, fun buf hbuf => ?_⟩
  obtain ⟨hbytes, hblock⟩ := hread buf hbuf
  have hpos : ¬ ((fs.dirBytes root k : Int) ≤ 0) := by omega
  simp only [hbytes, hblock, if_neg hpos, Int.toNat_natCast] at hrest
  obtain ⟨st', hst', -⟩ := Option.bind_eq_some_iff.mp hrest
  exact ((scanBlock_exact buf (hle.trans (blockSize_le fs)) (fs.dirBytes root k + 1) 0 (by omega)
    (Nat.succ_pos _) hok hroom).of_eq_some hst').1

end Scan

/-- The next block of the directory, or the first one again. -/
theorem next_block (fs : Ext4) {k : Nat} (hk : k * fs.blockSize < 2 ^ 32) :
    ((k + 1) * fs.blockSize < 2 ^ 32 ∧
        u32 (k * fs.blockSize + fs.blockSize) = (k + 1) * fs.blockSize) ∨
      ((k + 1) * fs.blockSize = 2 ^ 32 ∧ u32 (k * fs.blockSize + fs.blockSize) = 0 * fs.blockSize) := by
  have hle := boundary_le fs hk
  rw [Nat.mul_div_cancel _ fs.pos.1] at hle
  rw [← Nat.succ_mul]
  rcases Nat.lt_or_eq_of_le hle with hlt | heq
  · exact .inl ⟨hlt, u32_of_lt hlt⟩
  · refine .inr ⟨heq, ?_⟩
    rw [show k.succ * fs.blockSize = 2 ^ 32 from heq, Nat.zero_mul]
    rfl

/-- The scan comes to its end from block `k` on, where `count` entries are known, of which `before`
were so when it last began with the first block: by induction on the room that was left then,
and on the blocks that are left. -/
theorem scanLoop_returns (h : fs.ScanEnds root) (hhigh : root.iSizeHigh = 0)
    (hsize : root.iSizeLo < 2 ^ 32) (m before : Nat) (hm : ext4MaxRootEntries ≤ before + m)
    (r k count : Nat) (hr : 2 ^ 32 ≤ (k + r) * fs.blockSize) (hk : k * fs.blockSize < 2 ^ 32)
    (hread : ∀ j, j < k → fs.fileBlock root j ≠ none)
    (hcount : count = ext4MaxRootEntries ∨ count = before + fs.namesBefore root k) :
    ∃ turns, ∀ b st, fs.Tails sizes b → st.NamesOk → st.rootFileCount = count →
      ∃ out, scanLoop fs.device fs.blockSize root root.iSizeLo turns (k * fs.blockSize) b st =
        some out ∧ fs.Tails sizes out.1 ∧ out.2.NamesOk := by
  have hmax : ext4MaxRootEntries = 64 := rfl
  induction m generalizing before r k count with
  | zero =>
      have hfull : ¬ (k * fs.blockSize < root.iSizeLo ∧ count < ext4MaxRootEntries) := by omega
      exact ⟨1, fun b st hb hok hst => ⟨(b, st), if_neg (hst ▸ hfull), hb, hok⟩⟩
  | succ m ihm =>
      induction r generalizing k count with
      | zero =>
          rw [Nat.add_zero] at hr
          omega
      | succ r ihr =>
          by_cases hgo : k * fs.blockSize < root.iSizeLo ∧ count < ext4MaxRootEntries
          case neg =>
            exact ⟨1, fun b st hb hok hst => ⟨(b, st), if_neg (hst ▸ hgo), hb, hok⟩⟩
          obtain ⟨hin, hroom⟩ := hgo
          have hbefore : fs.namesBefore root k ≤ count := by omega
          have hcomes : fs.ScanComes root k := ⟨hin, hread, by omega⟩
          have hlook := h.lookup k hcomes
          cases hbuf : fs.fileBlock root k with
          | none =>
              refine ⟨1, fun b st hb hok hst => ?_⟩
              obtain ⟨b', hout, htails⟩ := @scanLoop_hole fs sizes root b k 0 st hb hhigh hsize hin
                (hst ▸ hroom) hlook hbuf
              exact ⟨(b', st), hout, htails, hok⟩
          | some buf =>
              have hnames := (h.names k hcomes buf hbuf).mono hbefore
              have hread' : ∀ j, j < k + 1 → fs.fileBlock root j ≠ none :=
                Nat.forall_lt_succ_right.mpr ⟨hread, by rw [hbuf]; exact Option.some_ne_none buf⟩
              have hstep : fs.namesBefore root (k + 1) =
                fs.namesBefore root k + fs.namesIn root k := rfl
              -- It is enough that the scan comes to its end from the next turn on.
              suffices hnext : ∃ turns, ∀ b st, fs.Tails sizes b → st.NamesOk →
                  st.rootFileCount = min ext4MaxRootEntries (count + fs.namesIn root k) →
                  ∃ out, scanLoop fs.device fs.blockSize root root.iSizeLo turns
                    (u32 (k * fs.blockSize + fs.blockSize)) b st = some out ∧
                      fs.Tails sizes out.1 ∧ out.2.NamesOk by
                obtain ⟨turns, hturns⟩ := hnext
                refine ⟨turns + 1, fun b st hb hok hst => ?_⟩
                obtain ⟨b', st', hb', hok', hinodes, heq⟩ := @scanLoop_next fs sizes root b k turns st hb
                  hhigh hsize hin hok (hst ▸ hroom) hlook buf hbuf (hst ▸ hnames)
                rw [heq]
                exact hturns b' st' hb' hok' (hst ▸ Ext4Root.count_of_inodes hinodes)
              rcases next_block fs hk with ⟨hlt, hoff⟩ | ⟨hend, hoff⟩
              · rw [hoff]
                exact ihr (k + 1) _ (by rwa [Nat.add_right_comm]) hlt hread' (by omega)
              · rw [hoff]
                have hall : ∀ j, j * fs.blockSize < 2 ^ 32 → j < k + 1 := fun j hj =>
                  Nat.lt_of_mul_lt_mul_right (hend.symm ▸ hj : j * fs.blockSize < (k + 1) * fs.blockSize)
                obtain ⟨j, hj, hsome⟩ := h.ends (by rw [Nat.succ_mul] at hend; omega)
                  fun j hj => hread' j (hall j hj)
                have hpos := @namesIn_le_before fs root j (k + 1) (hall j hj)
                refine ihm (min ext4MaxRootEntries (count + fs.namesIn root k)) (by omega)
                  (k + 1) 0 _ ?_ ?_ (fun j hj => absurd hj (Nat.not_lt_zero j)) (.inr rfl)
                · rw [Nat.zero_add, hend]
                · rw [Nat.zero_mul]
                  decide

section Comes

variable {out : Static × Ext4Root} (hhigh : root.iSizeHigh = 0) (hsize : root.iSizeLo < 2 ^ 32)
include hhigh hsize

/-- A scan that has come to its end has come to all these blocks. -/
theorem scanLoop_comes {turns : Nat} {st : Ext4Root} (hb : fs.Tails sizes b) (hok : st.NamesOk)
    (hst : st.rootFileCount = 0)
    (hout : scanLoop fs.device fs.blockSize root root.iSizeLo turns 0 b st = some out) {k : Nat}
    (hcomes : fs.ScanComes root k) :
    ∃ turns b st, fs.Tails sizes b ∧ st.NamesOk ∧ st.rootFileCount = fs.namesBefore root k ∧
      scanLoop fs.device fs.blockSize root root.iSizeLo (turns + 1) (k * fs.blockSize) b st =
        some out := by
  have hmax : ext4MaxRootEntries = 64 := rfl
  -- A scan that has come to its end has had a turn.
  suffices hany : ∃ turns b st, fs.Tails sizes b ∧ st.NamesOk ∧
      st.rootFileCount = fs.namesBefore root k ∧
      scanLoop fs.device fs.blockSize root root.iSizeLo turns (k * fs.blockSize) b st = some out by
    obtain ⟨turns, b, st, hb, hok, hst, hout⟩ := hany
    cases turns with
    | zero => cases hout
    | succ turns => exact ⟨turns, b, st, hb, hok, hst, hout⟩
  induction k with
  | zero => exact ⟨turns, b, st, hb, hok, hst, by rwa [Nat.zero_mul]⟩
  | succ k ih =>
      have hstep : fs.namesBefore root (k + 1) = fs.namesBefore root k + fs.namesIn root k := rfl
      have hroom := hcomes.room
      have hinside := hcomes.inside
      have hk : k * fs.blockSize < root.iSizeLo :=
        (Nat.mul_le_mul_right _ (Nat.le_succ k)).trans_lt hinside
      obtain ⟨turns, b, st, hb, hok, hst, hout⟩ :=
        ih ⟨hk, fun j hj => hcomes.read j (Nat.lt_succ_of_lt hj), by omega⟩
      cases turns with
      | zero => cases hout
      | succ turns =>
          have hfree : st.rootFileCount < ext4MaxRootEntries := by omega
          obtain ⟨hlook, hnames⟩ := scanLoop_needs hb hhigh hsize hk hok hfree hout
          obtain ⟨buf, hbuf⟩ := Option.ne_none_iff_exists'.mp (hcomes.read k (Nat.lt_succ_self k))
          obtain ⟨b', st', hb', hok', hinodes, heq⟩ := @scanLoop_next fs sizes root b k turns st hb hhigh
            hsize hk hok hfree hlook buf hbuf (hnames buf hbuf)
          have hcount : st'.rootFileCount = min ext4MaxRootEntries (st.rootFileCount + fs.namesIn root k) :=
            Ext4Root.count_of_inodes hinodes
          have hoff : u32 (k * fs.blockSize + fs.blockSize) = (k + 1) * fs.blockSize := by
            rw [← Nat.succ_mul]
            exact u32_of_lt (hinside.trans hsize)
          rw [heq, hoff] at hout
          exact ⟨turns, b', st', hb', hok', by omega, hout⟩

/-- Where all blocks that there are can be read and none has an entry, the scan starts again for
ever. -/
theorem scanLoop_endless (hlarge : 2 ^ 32 < root.iSizeLo + fs.blockSize)
    (hread : ∀ k, k * fs.blockSize < 2 ^ 32 → fs.fileBlock root k ≠ none)
    (hnames : ∀ k, k * fs.blockSize < 2 ^ 32 → fs.namesIn root k = 0) (turns : Nat) {k : Nat}
    (hk : k * fs.blockSize < 2 ^ 32) {st : Ext4Root} (hb : fs.Tails sizes b) (hok : st.NamesOk)
    (hst : st.rootFileCount = 0) :
    scanLoop fs.device fs.blockSize root root.iSizeLo turns (k * fs.blockSize) b st = none := by
  have hmax : ext4MaxRootEntries = 64 := rfl
  induction turns generalizing k b st with
  | zero => rfl
  | succ turns ih =>
      have hin : k * fs.blockSize < root.iSizeLo := by
        have hle := boundary_le fs hk
        rw [Nat.mul_div_cancel _ fs.pos.1, Nat.succ_mul] at hle
        omega
      have hfree : st.rootFileCount < ext4MaxRootEntries := by omega
      obtain ⟨buf, hbuf⟩ := Option.ne_none_iff_exists'.mp (hread k hk)
      cases hout : scanLoop fs.device fs.blockSize root root.iSizeLo (turns + 1) (k * fs.blockSize) b st with
      | none => rfl
      | some out =>
          obtain ⟨hlook, hends⟩ := scanLoop_needs hb hhigh hsize hin hok hfree hout
          obtain ⟨b', st', hb', hok', hinodes, heq⟩ := @scanLoop_next fs sizes root b k turns st hb hhigh
            hsize hin hok hfree hlook buf hbuf (hends buf hbuf)
          have hcount : st'.rootFileCount = min ext4MaxRootEntries (st.rootFileCount + fs.namesIn root k) :=
            Ext4Root.count_of_inodes hinodes
          rw [hnames k hk] at hcount
          have hzero : st'.rootFileCount = 0 := by omega
          rw [heq] at hout
          rcases next_block fs hk with ⟨hlt, hoff⟩ | ⟨-, hoff⟩
          · rw [hoff, ih hlt hb' hok' hzero] at hout
            cases hout
          · rw [hoff, ih (by rw [Nat.zero_mul]; decide) hb' hok' hzero] at hout
            cases hout

/-- A scan comes to its end only so. -/
theorem scanLoop_scanEnds {turns : Nat} {st : Ext4Root} (hb : fs.Tails sizes b) (hok : st.NamesOk)
    (hst : st.rootFileCount = 0)
    (hout : scanLoop fs.device fs.blockSize root root.iSizeLo turns 0 b st = some out) :
    fs.ScanEnds root := by
  have hneeds : ∀ k, fs.ScanComes root k → fs.LookupEnds root k ∧ ∀ buf,
      fs.fileBlock root k = some buf →
        NamesEnd buf (fs.dirBytes root k) (fs.dirBytes root k + 1) 0 (fs.namesBefore root k) := by
    intro k hcomes
    obtain ⟨turns, b, st, hb, hok, hst, hout⟩ := scanLoop_comes hhigh hsize hb hok hst hout hcomes
    have hroom := hcomes.room
    rw [← hst] at hroom ⊢
    exact scanLoop_needs hb hhigh hsize hcomes.inside hok hroom hout
  refine ⟨fun k hk => (hneeds k hk).1, fun k hk => (hneeds k hk).2, fun hlarge hread => ?_⟩
  by_contra hno
  have hnone := scanLoop_endless hhigh hsize hlarge hread (fun k hk => ?_) turns
    (k := 0) (by rw [Nat.zero_mul]; decide) hb hok hst
  · rw [Nat.zero_mul, hout] at hnone
    cases hnone
  · by_contra hne
    exact hno ⟨k, hk, hne⟩

end Comes

/-- What every block keeps holds at the end of the scan. -/
theorem scanLoop_rule (hhigh : root.iSizeHigh = 0) (hsize : root.iSizeLo < 2 ^ 32)
    {P : Nat → Ext4Root → Prop}
    (hstep : ∀ k k' st st', k * fs.blockSize < root.iSizeLo → st.NamesOk →
      st.rootFileCount < ext4MaxRootEntries → fs.fileBlock root k ≠ none →
      st'.inodes = (st.inodes ++ fs.enteredIn root k).take ext4MaxRootEntries →
      k' = k + 1 ∨ k' = 0 → P k st → P k' st')
    {turns k : Nat} {st : Ext4Root} {out : Static × Ext4Root} (hb : fs.Tails sizes b)
    (hok : st.NamesOk) (hk : k * fs.blockSize < 2 ^ 32)
    (hout : scanLoop fs.device fs.blockSize root root.iSizeLo turns (k * fs.blockSize) b st = some out)
    (h : P k st) : ∃ k, P k out.2 := by
  induction turns generalizing k b st with
  | zero => cases hout
  | succ turns ih =>
      by_cases hgo : k * fs.blockSize < root.iSizeLo ∧ st.rootFileCount < ext4MaxRootEntries
      case neg =>
        rw [scanLoop, if_neg hgo] at hout
        cases hout
        exact ⟨k, h⟩
      obtain ⟨hin, hroom⟩ := hgo
      obtain ⟨hlook, hnames⟩ := scanLoop_needs hb hhigh hsize hin hok hroom hout
      cases hbuf : fs.fileBlock root k with
      | none =>
          obtain ⟨b', hhole, -⟩ := @scanLoop_hole fs sizes root b k turns st hb hhigh hsize hin hroom
            hlook hbuf
          cases hhole.symm.trans hout
          exact ⟨k, h⟩
      | some buf =>
          obtain ⟨b', st', hb', hok', hinodes, heq⟩ := @scanLoop_next fs sizes root b k turns st hb hhigh
            hsize hin hok hroom hlook buf hbuf (hnames buf hbuf)
          have hread : fs.fileBlock root k ≠ none := hbuf ▸ Option.some_ne_none buf
          have hkeeps := fun k' hk' => hstep k k' st st' hin hok hroom hread hinodes hk' h
          rw [heq] at hout
          rcases next_block fs hk with ⟨hlt, hoff⟩ | ⟨-, hoff⟩
          · rw [hoff] at hout
            exact ih hb' hok' hlt hout (hkeeps _ (.inl rfl))
          · rw [hoff] at hout
            exact ih hb' hok' (by rw [Nat.zero_mul]; decide) hout (hkeeps _ (.inr rfl))

section Table

variable {turns : Nat} {st : Ext4Root} {out : Static × Ext4Root} (hhigh : root.iSizeHigh = 0)
  (hsize : root.iSizeLo < 2 ^ 32) (hb : fs.Tails sizes b) (hok : st.NamesOk)
include hhigh hsize hb hok

/-- What is in the table stays there. -/
theorem scanLoop_keeps {k : Nat} (hk : k * fs.blockSize < 2 ^ 32)
    (hout : scanLoop fs.device fs.blockSize root root.iSizeLo turns (k * fs.blockSize) b st = some out)
    {inum : Nat} (h : inum ∈ st.inodes) : inum ∈ out.2.inodes := by
  have hstep : ∀ k k' (st st' : Ext4Root), k * fs.blockSize < root.iSizeLo → st.NamesOk →
      st.rootFileCount < ext4MaxRootEntries → fs.fileBlock root k ≠ none →
      st'.inodes = (st.inodes ++ fs.enteredIn root k).take ext4MaxRootEntries →
      k' = k + 1 ∨ k' = 0 → inum ∈ st.inodes → inum ∈ st'.inodes :=
    fun k k' st st' _ hok _ _ hinodes _ h => (Ext4Root.mem_of_inodes hinodes hok).mpr (.inl h)
  obtain ⟨-, hmem⟩ := scanLoop_rule hhigh hsize hstep hb hok hk hout h
  exact hmem

/-- What is in the table in the end is named by the directory. -/
theorem scanLoop_listed (hst : st.rootFileCount = 0)
    (hout : scanLoop fs.device fs.blockSize root root.iSizeLo turns 0 b st = some out) {inum : Nat}
    (h : inum ∈ out.2.inodes) : fs.Lists root inum := by
  -- The entries of the blocks before are in the table, too, or it is full.
  have hrule := @scanLoop_rule fs sizes root b hhigh hsize
    (fun k st => (∀ x, x ∈ st.inodes → fs.Lists root x) ∧ (∀ j, j < k → fs.fileBlock root j ≠ none) ∧
      (ext4MaxRootEntries ≤ st.rootFileCount ∨ fs.namesBefore root k ≤ st.rootFileCount))
    (fun k k' st st' hin hok hroom hread hinodes hk' h => ?_) turns 0 st out hb hok
    (by rw [Nat.zero_mul]; decide) (by rwa [Nat.zero_mul]) ?_
  · obtain ⟨k, hall, -⟩ := hrule
    exact hall inum h
  · obtain ⟨hall, hbefore, hcount⟩ := h
    have hle : fs.namesBefore root k ≤ st.rootFileCount :=
      hcount.resolve_left (Nat.not_le.mpr hroom)
    have hcount' : st'.rootFileCount = min ext4MaxRootEntries (st.rootFileCount + fs.namesIn root k) :=
      Ext4Root.count_of_inodes hinodes
    refine ⟨fun x hx => ?_, ?_⟩
    · rcases (Ext4Root.mem_of_inodes hinodes hok).mp hx with hold | hnew
      · exact hall x hold
      · refine ⟨k, ⟨hin, hbefore, hle.trans_lt hroom⟩, ?_⟩
        exact List.take_subset_take_left _ (Nat.sub_le_sub_left hle _) hnew
    · rcases hk' with rfl | rfl
      · refine ⟨Nat.forall_lt_succ_right.mpr ⟨hbefore, hread⟩, ?_⟩
        have hnext : fs.namesBefore root (k + 1) = fs.namesBefore root k + fs.namesIn root k := rfl
        omega
      · exact ⟨fun j hj => absurd hj (Nat.not_lt_zero j), .inr (Nat.zero_le _)⟩
  · refine ⟨fun x hx => ?_, fun j hj => absurd hj (Nat.not_lt_zero j), .inr (Nat.zero_le _)⟩
    obtain ⟨i, hi, -⟩ := Ext4Root.mem_inodes.mp hx
    omega

/-- What the directory names is in the table in the end. -/
theorem scanLoop_lists (hst : st.rootFileCount = 0)
    (hout : scanLoop fs.device fs.blockSize root root.iSizeLo turns 0 b st = some out) {inum : Nat}
    (h : fs.Lists root inum) : inum ∈ out.2.inodes := by
  obtain ⟨k, hcomes, hmem⟩ := h
  obtain ⟨turns, b, st, hb, hok, hst, hout⟩ := scanLoop_comes hhigh hsize hb hok hst hout hcomes
  have hroom := hst ▸ hcomes.room
  obtain ⟨buf, hbuf⟩ : ∃ buf, fs.fileBlock root k = some buf := by
    refine Option.ne_none_iff_exists'.mp fun hnone => ?_
    unfold Ext4.enteredIn at hmem
    rw [hnone, List.take_nil] at hmem
    cases hmem
  obtain ⟨hlook, hnames⟩ := scanLoop_needs hb hhigh hsize hcomes.inside hok hroom hout
  obtain ⟨b', st', hb', hok', hinodes, heq⟩ := @scanLoop_next fs sizes root b k turns st hb hhigh
    hsize hcomes.inside hok hroom hlook buf hbuf (hnames buf hbuf)
  have hin : inum ∈ st'.inodes :=
    (Ext4Root.mem_of_inodes hinodes hok).mpr (.inr (hst.symm ▸ hmem))
  rw [heq] at hout
  rcases next_block fs (hcomes.inside.trans hsize) with ⟨hlt, hoff⟩ | ⟨-, hoff⟩
  · rw [hoff] at hout
    exact scanLoop_keeps hhigh hsize hb' hok' hlt hout hin
  · rw [hoff] at hout
    exact scanLoop_keeps hhigh hsize hb' hok' (by rw [Nat.zero_mul]; decide) hout hin

end Table

/-- A larger bound on the turns changes nothing. -/
theorem scanLoop_grows (d : Disk) (blockSize size off : Nat) (b : Static) (st : Ext4Root)
    {turns turns' : Nat} (hle : turns ≤ turns') :
    Grows (scanLoop d blockSize root size turns off b st)
      (scanLoop d blockSize root size turns' off b st) := by
  induction turns generalizing turns' off b st with
  | zero => exact fun out hout => by cases hout
  | succ turns ih =>
      obtain ⟨turns', rfl⟩ := Nat.exists_eq_succ_of_ne_zero (Nat.ne_of_gt (Nat.zero_lt_of_lt hle))
      unfold scanLoop
      refine Grows.ite ((Grows.refl _).bind fun r => Grows.ite (.refl _) ?_) (.refl _)
      exact (Grows.refl _).bind fun st' => ih _ _ st' (Nat.le_of_succ_le_succ hle)

/-- From the first block on, with an empty table. -/
theorem scanLoop_start (h : fs.ScanEnds root) (hhigh : root.iSizeHigh = 0)
    (hsize : root.iSizeLo < 2 ^ 32) :
    ∃ turns, ∀ b st, fs.Tails sizes b → st.NamesOk → st.rootFileCount = 0 →
      ∃ out, scanLoop fs.device fs.blockSize root root.iSizeLo turns 0 b st = some out ∧
        fs.Tails sizes out.1 ∧ out.2.NamesOk := by
  have hzero : (0 : Nat) * fs.blockSize < 2 ^ 32 := by
    rw [Nat.zero_mul]
    decide
  have hall : 2 ^ 32 ≤ (0 + 2 ^ 32) * fs.blockSize := by
    rw [Nat.zero_add]
    exact Nat.le_mul_of_pos_right _ fs.pos.1
  have hreturns := @scanLoop_returns fs sizes root h hhigh hsize ext4MaxRootEntries 0
    (Nat.le_add_left ..) (2 ^ 32) 0 0 hall hzero (fun j hj => absurd hj (Nat.not_lt_zero j)) (.inr rfl)
  rwa [Nat.zero_mul] at hreturns

/-- What the scan leaves. -/
theorem scanLoop_leaves (hhigh : root.iSizeHigh = 0) (hsize : root.iSizeLo < 2 ^ 32) {turns : Nat}
    {st : Ext4Root} {out : Static × Ext4Root} (hb : fs.Tails sizes b) (hok : st.NamesOk)
    (hst : st.rootFileCount = 0)
    (hout : scanLoop fs.device fs.blockSize root root.iSizeLo turns 0 b st = some out) :
    fs.ScanEnds root ∧ fs.Tails sizes out.1 ∧ out.2.NamesOk ∧
      ∀ inum, inum ∈ out.2.inodes ↔ fs.Lists root inum := by
  have hends := scanLoop_scanEnds hhigh hsize hb hok hst hout
  obtain ⟨turns', hturns⟩ := @scanLoop_start fs sizes root hends hhigh hsize
  obtain ⟨out', hout', hleaves⟩ := hturns b st hb hok hst
  cases (scanLoop_grows _ _ _ _ _ _ (le_max_left turns turns') _ hout).symm.trans
    (scanLoop_grows _ _ _ _ _ _ (le_max_right turns turns') _ hout')
  exact ⟨hends, hleaves.1, hleaves.2, fun inum => ⟨scanLoop_listed hhigh hsize hb hok hst hout,
    scanLoop_lists hhigh hsize hb hok hst hout⟩⟩

end Checked

end Sugimotos.Fs
