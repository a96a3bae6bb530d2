/-
# The root directory

Model of `scan_root_dir` and `ext4_lookup` in `fs/ext4.c`.  The directory is read into
`block_buf`, the buffer that `read_block` and `extent_find_physical` use on the way, so
both are modelled here with the buffer they leave.
-/

import Sugimotos.Fs.Ext4Read
import Sugimotos.Fs.Inodes
import Sugimotos.Lib.CStr
import Sugimotos.Math.Reach
import Mathlib.Data.List.Find
import Mathlib.Logic.Function.Basic

namespace Sugimotos.Fs

open Sugimotos.Lib Sugimotos.Math Sugimotos.Mm

/-! ## Reading into the buffer -/

/-- The first `i` turns of the loop of `read_block`: whether they succeed, and the buffer. -/
def Ext4.readSectorsTo (fs : Ext4) (firstSector : Nat) (buf : Buf) : Nat → Bool × Buf
  | 0 => (true, buf)
  | i + 1 =>
      match fs.readSectorsTo firstSector buf i with
      | (false, buf) => (false, buf)
      | (true, buf) =>
          match fs.blkRead (u32 (firstSector + i)) with
          | none => (false, buf)
          | some bytes => (true, copyBytes buf (i * sectorSize) bytes 0 sectorSize)

def Ext4.readBlockTo (fs : Ext4) (buf : Buf) (block : Nat) : Bool × Buf :=
  let sectors := fs.blockSize / sectorSize
  fs.readSectorsTo (u32 (block * sectors)) buf sectors

/-- `extent_find_physical`, with what it leaves in `block_buf`. -/
def Ext4.extentFindHere (fs : Ext4) (blockBuf : Buf) (ino : Ext4Inode) (lblock : Nat) :
    Option Nat × Buf :=
  let eh := extentHeader ino.iBlock
  if eh.ehMagic ≠ ext4ExtMagic then (none, blockBuf)
  else if eh.ehDepth = 0 then (findExtent ino.iBlock eh.ehEntries lblock, blockBuf)
  else if eh.ehDepth = 1 then
    match chooseIdx ino.iBlock eh.ehEntries lblock with
    | none => (none, blockBuf)
    | some i =>
        let chosen := extentIdx ino.iBlock i
        if chosen.eiLeafHi ≠ 0 then (none, blockBuf)
        else
          match fs.readBlockTo blockBuf chosen.eiLeafLo with
          | (false, blockBuf) => (none, blockBuf)
          | (true, blockBuf) =>
              let leh := extentHeader blockBuf
              if leh.ehMagic ≠ ext4ExtMagic ∨ leh.ehDepth ≠ 0 then (none, blockBuf)
              else (findExtent blockBuf leh.ehEntries lblock, blockBuf)
  else (none, blockBuf)

/-- The loop of `inode_read_data` where `buf` is `block_buf`, which ends with `done` and
the buffer. -/
def Ext4.readLoopHere (fs : Ext4) (ino : Ext4Inode) (off remaining : Nat) :
    Nat → Nat → Buf → Nat × Buf
  | 0, done, blockBuf => (done, blockBuf)
  | turns + 1, done, blockBuf =>
      if done < remaining then
        let pos := u32 (off + done)
        let lblock := pos / fs.blockSize
        let boff := pos % fs.blockSize
        let chunk := fs.blockSize - boff
        let chunk := if chunk > remaining - done then remaining - done else chunk
        match fs.extentFindHere blockBuf ino lblock with
        | (none, blockBuf) => (done, blockBuf)
        | (some pblock, blockBuf) =>
            match fs.readBlockTo blockBuf pblock with
            | (false, blockBuf) => (done, blockBuf)
            | (true, blockBuf) =>
                fs.readLoopHere ino off remaining turns (done + chunk)
                  (copyBytes blockBuf done blockBuf boff chunk)
      else (done, blockBuf)

/-- `inode_read_data` where `buf` is `block_buf`. -/
def Ext4.inodeReadHere (fs : Ext4) (ino : Ext4Inode) (off : Nat) (blockBuf : Buf) (len : Nat) :
    Int × Buf :=
  if ino.iSizeHigh ≠ 0 then (-1, blockBuf)
  else
    let fileSize := ino.iSizeLo
    if off ≥ fileSize then (0, blockBuf)
    else
      let remaining := if u32 (off + len) > fileSize then fileSize - off else len
      let r := fs.readLoopHere ino off remaining remaining 0 blockBuf
      (toInt r.1, r.2)

/-! ## Scanning -/

abbrev ext4MaxRootEntries : Nat := 64
abbrev ext4NameMax : Nat := 64

/-- `struct ext4_file_entry`. -/
structure Ext4FileEntry where
  name : Buf
  inode : Nat

/-- The variables for the root directory. -/
structure Ext4Root where
  mounted : Bool
  rootFiles : Nat → Ext4FileEntry
  rootFileCount : Nat

/-- `struct ext4_dirent`. -/
structure Ext4Dirent where
  inode : Nat
  recLen : Nat
  nameLen : Nat
  fileType : Nat

def dirent (blockBuf : Buf) (p : Nat) : Ext4Dirent where
  inode := le32 blockBuf p
  recLen := le16 blockBuf (p + 4)
  nameLen := (blockBuf (p + 6)).toNat
  fileType := (blockBuf (p + 7)).toNat

/-- The local `name`, as far as it is written. -/
def direntName (blockBuf : Buf) (p nameLen : Nat) : Buf :=
  Function.update (copyBytes (fun _ => 0) 0 blockBuf (p + 8) nameLen) nameLen 0

/-- One dot or two. -/
def isDots (name : Buf) : Bool :=
  name 0 = 46 && (name 1 = 0 || (name 1 = 46 && name 2 = 0))

/-- An entry written behind the others. -/
def Ext4Root.addEntry (st : Ext4Root) (name : Buf) (nameLen inode : Nat) : Ext4Root :=
  let old := st.rootFiles st.rootFileCount
  { st with
    rootFiles := Function.update st.rootFiles st.rootFileCount
      ⟨copyBytes old.name 0 name 0 (nameLen + 1), inode⟩
    rootFileCount := st.rootFileCount + 1 }

/-- The loop over the records of a block.  `p` stays below `2 ^ 17`.  A bound that is too
small gives nothing. -/
def scanBlock (blockBuf : Buf) (n : Nat) : Nat → Nat → Ext4Root → Option Ext4Root
  | 0, _, _ => none
  | turns + 1, p, st =>
      if p + 8 ≤ n then
        let de := dirent blockBuf p
        if de.recLen = 0 then some st
        else if de.inode ≠ 0 ∧ de.nameLen > 0 ∧ de.nameLen < ext4NameMax then
          let name := direntName blockBuf p de.nameLen
          if isDots name then scanBlock blockBuf n turns (p + de.recLen) st
          else
            let st := st.addEntry name de.nameLen de.inode
            if st.rootFileCount ≥ ext4MaxRootEntries then some st
            else scanBlock blockBuf n turns (p + de.recLen) st
        else scanBlock blockBuf n turns (p + de.recLen) st
      else some st

/-- The loop over the blocks of the directory. -/
def Ext4.scanLoop (fs : Ext4) (root : Ext4Inode) (size : Nat) :
    Nat → Nat → Buf → Ext4Root → Option Ext4Root
  | 0, _, _, _ => none
  | turns + 1, off, blockBuf, st =>
      if off < size ∧ st.rootFileCount < ext4MaxRootEntries then
        let r := fs.inodeReadHere root off blockBuf fs.blockSize
        if r.1 ≤ 0 then some st
        else
          match scanBlock r.2 r.1.toNat (turns + 1) 0 st with
          | none => none
          | some st => fs.scanLoop root size turns (u32 (off + fs.blockSize)) r.2 st
      else some st

/-- `scan_root_dir`: the value it returns, and the entries. -/
def Ext4.scanRootDir (fs : Ext4) (sizes : Ext4Sizes) (turns : Nat) (blockBuf : Buf)
    (st : Ext4Root) : Option (Int × Ext4Root) :=
  match fs.readInode sizes 2 with
  | none => some (-1, st)
  | some root =>
      if root.iSizeHigh ≠ 0 then some (-1, st)
      else
        (fs.scanLoop root root.iSizeLo turns 0 blockBuf { st with rootFileCount := 0 }).map
          fun st => (0, st)

/-- The loop of `ext4_lookup`, with as many entries left; `none` within is its `-1`. -/
def lookupLoop (turns : Nat) (st : Ext4Root) (name : Buf) : Nat → Nat → Option (Option Nat)
  | 0, _ => some none
  | left + 1, i =>
      match strEq turns (st.rootFiles i).name name 0 with
      | none => none
      | some true => some (some i)
      | some false => lookupLoop turns st name left (i + 1)

/-- `ext4_lookup`. -/
def ext4Lookup (turns : Nat) (st : Ext4Root) (name : Buf) : Option (Option Nat) :=
  if st.mounted then lookupLoop turns st name st.rootFileCount 0 else some none

/-! ## Directories -/

/-- A record of a directory, with its name. -/
structure DirRecord where
  inode : Nat
  recLen : Nat
  name : List UInt8
  deriving DecidableEq

/-- The record can be listed: it is in use, its name fits, and it is not one of the dots. -/
def DirRecord.Usable (r : DirRecord) : Prop :=
  r.inode ≠ 0 ∧ 0 < r.name.length ∧ r.name.length < ext4NameMax ∧ r.name ≠ [46] ∧ r.name ≠ [46, 46]

instance (r : DirRecord) : Decidable r.Usable := inferInstanceAs (Decidable (_ ∧ _))

/-- A record lies at `p`.  The name of one in use has neither a zero nor a slash. -/
structure RecordAt (bytes : Buf) (p : Nat) (r : DirRecord) : Prop where
  inode : (dirent bytes p).inode = r.inode
  recLen : (dirent bytes p).recLen = r.recLen
  nameLen : (dirent bytes p).nameLen = r.name.length
  name : ∀ i, i < r.name.length → r.name[i]? = some (bytes (p + 8 + i))
  room : r.name.length + 8 ≤ r.recLen
  chars : r.inode ≠ 0 → ∀ c ∈ r.name, c ≠ 0 ∧ c ≠ 47

/-- The records fill the bytes from `p` to `n`. -/
def Tiles (bytes : Buf) (n : Nat) : Nat → List DirRecord → Prop
  | p, [] => p = n
  | p, r :: rs => RecordAt bytes p r ∧ Tiles bytes n (p + r.recLen) rs

/-- The logical block is mapped to one that can be read, and has these bytes. -/
structure Ext4.BlockAt (fs : Ext4) (ino : Ext4Inode) (lblock block : Nat) : Prop where
  mapped : ∃ ex, fs.TreeExtent ino ex ∧ ex.Initialised ∧ ex.Covers lblock ∧
    block = ex.eeStartLo + (lblock - ex.eeBlock)
  sectors : (block + 1) * (fs.blockSize / sectorSize) ≤ 2 ^ 32
  answers : ∀ i, i < fs.blockSize / sectorSize →
    fs.fails (block * (fs.blockSize / sectorSize) + i) = false

/-- A well-formed root directory with these records in its blocks. -/
structure Ext4.RootDirOk (fs : Ext4) (root : Ext4Inode) (dir : List (List DirRecord)) : Prop where
  tree : fs.TreeOk root
  high : root.iSizeHigh = 0
  size : root.iSizeLo = dir.length * fs.blockSize
  size_lt : root.iSizeLo < 2 ^ 32
  blocks : ∀ b rs, dir[b]? = some rs → ∃ block, fs.BlockAt root b block ∧
    Tiles (fs.diskByte block) fs.blockSize 0 rs

/-- The records to be listed. -/
def listedRecords (dir : List (List DirRecord)) : List DirRecord :=
  (dir.flatten.filter (·.Usable)).take ext4MaxRootEntries

/-- The entries are those of the records, in their order. -/
structure Ext4Root.Lists (st : Ext4Root) (rs : List DirRecord) : Prop where
  count : st.rootFileCount = rs.length
  names : ∀ i r, rs[i]? = some r → IsString (st.rootFiles i).name 0 r.name
  inodes : ∀ i r, rs[i]? = some r → (st.rootFiles i).inode = r.inode

/-- Once mounted, a name is found where the first of these records has it. -/
def Ext4Root.Finds (st : Ext4Root) (turns : Nat) (rs : List DirRecord) : Prop :=
  ∀ name cs, NoNul cs → IsString name 0 cs →
    ext4Lookup turns { st with mounted := true } name = some (rs.findIdx? (·.name = cs))

/-- The scan lists the usable records of the directory, in order and up to the size of the table,
and a lookup finds them. -/
def Ext4.ListsRootDir (fs : Ext4) (sizes : Ext4Sizes) (turns : Nat) (blockBuf : Buf)
    (st : Ext4Root) (dir : List (List DirRecord)) : Prop :=
  ∃ st', fs.scanRootDir sizes turns blockBuf st = some (0, st') ∧
    st'.Lists (listedRecords dir) ∧ st'.Finds turns (listedRecords dir)

/-- A block in an extent of 32768 blocks comes after enough usable records, or has none
behind its start. -/
def Ext4.ScanFits (fs : Ext4) (root : Ext4Inode) (dir : List (List DirRecord)) : Prop :=
  ∀ b ex, b < dir.length → fs.TreeExtent root ex → ex.Covers b → ex.eeLen = extInitMaxLen →
    ext4MaxRootEntries ≤ ((dir.take b).flatten.filter (·.Usable)).length ∨
      (dir.drop b).flatten.filter (·.Usable) = []

variable {fs : Ext4} {root : Ext4Inode}

/-! ## What is read -/

/-- Sectors that can be read into a fresh buffer can be read into any. -/
theorem readSectorsTo_of_some {first k : Nat} {fresh out : Buf}
    (h : fs.readSectors first fresh k = some out) (buf : Buf) :
    ∃ out', fs.readSectorsTo first buf k = (true, out') ∧ ∀ n, n < k * sectorSize → out' n = out n := by
  induction k generalizing out with
  | zero =>
      refine ⟨buf, rfl, fun n hn => ?_⟩
      rw [Nat.zero_mul] at hn
      exact absurd hn (Nat.not_lt_zero n)
  | succ k ih =>
      rw [Ext4.readSectors] at h
      obtain ⟨prev, hprev, hlast⟩ := Option.bind_eq_some_iff.mp h
      obtain ⟨bytes, hbytes, rfl⟩ := Option.map_eq_some_iff.mp hlast
      obtain ⟨prev', hprev', hsame⟩ := ih hprev
      refine ⟨copyBytes prev' (k * sectorSize) bytes 0 sectorSize, ?_, fun n hn => ?_⟩
      · simp only [Ext4.readSectorsTo, hprev', hbytes]
      · rw [Nat.succ_mul] at hn
        unfold copyBytes
        by_cases hnew : k * sectorSize ≤ n ∧ n < k * sectorSize + sectorSize
        · rw [if_pos hnew, if_pos hnew]
        · rw [if_neg hnew, if_neg hnew]
          exact hsame n (Nat.lt_of_not_le fun hle => hnew ⟨hle, hn⟩)

theorem readBlockTo_of_some {block : Nat} {out : Buf} (h : fs.readBlock block = some out)
    (buf : Buf) : ∃ out', fs.readBlockTo buf block = (true, out') ∧
      ∀ n, n < fs.blockSize → out' n = out n := by
  have hread := readSectorsTo_of_some h buf
  rw [fs.pos.2.2] at hread
  exact hread

/-- A block of a file is read into any buffer. -/
theorem Ext4.BlockAt.read {lblock block : Nat} (h : fs.BlockAt root lblock block) (buf : Buf) :
    ∃ out, fs.readBlockTo buf block = (true, out) ∧
      ∀ n, n < fs.blockSize → out n = fs.diskByte block n := by
  have hsectors := h.sectors
  rw [Nat.succ_mul] at hsectors
  have hpos : 0 < fs.blockSize / sectorSize := Nat.pos_of_mul_pos_right (fs.pos.2.2 ▸ fs.pos.1)
  have hfirst : u32 (block * (fs.blockSize / sectorSize)) = block * (fs.blockSize / sectorSize) :=
    u32_of_lt (by omega)
  have hbyte : ∀ i, i < fs.blockSize / sectorSize →
      u32 (block * (fs.blockSize / sectorSize) + i) = block * (fs.blockSize / sectorSize) + i :=
    fun i hi => u32_of_lt (by omega)
  obtain ⟨fresh, hfresh, hbytes⟩ := @readSectors_spec fs
    (block * (fs.blockSize / sectorSize)) (fun _ => 0) (fs.blockSize / sectorSize)
    fun i hi => (hbyte i hi).symm ▸ h.answers i hi
  have hblock : fs.readBlock block = some fresh := by
    unfold Ext4.readBlock
    dsimp only
    rw [hfirst, hfresh]
  obtain ⟨out, hout, hsame⟩ := readBlockTo_of_some hblock buf
  refine ⟨out, hout, fun n hn => ?_⟩
  have hn' : n < fs.blockSize / sectorSize * sectorSize := by rwa [fs.pos.2.2]
  rw [hsame n hn, hbytes n hn', hbyte _ (Nat.div_lt_of_lt_mul (by rwa [Nat.mul_comm]))]
  rfl

section Congr

variable {node node' : Buf} {size : Nat} (hsame : ∀ n, n < size → node' n = node n)
include hsame

theorem le16_congr {n : Nat} (hn : n + 2 ≤ size) : le16 node' n = le16 node n := by
  unfold le16
  rw [hsame n (by omega), hsame (n + 1) (by omega)]

theorem le32_congr {n : Nat} (hn : n + 4 ≤ size) : le32 node' n = le32 node n := by
  unfold le32
  rw [le16_congr hsame (n := n) (by omega), le16_congr hsame (n := n + 2) (by omega)]

theorem extentHeader_congr (hsize : 12 ≤ size) : extentHeader node' = extentHeader node := by
  unfold extentHeader
  rw [le16_congr hsame (by omega), le16_congr hsame (by omega), le16_congr hsame (by omega),
    le16_congr hsame (by omega), le32_congr hsame (by omega)]

theorem extent_congr {i : Nat} (hi : 12 + 12 * i + 12 ≤ size) : extent node' i = extent node i := by
  unfold extent
  rw [le32_congr hsame (by omega), le16_congr hsame (by omega), le16_congr hsame (by omega),
    le32_congr hsame (by omega)]

theorem findExtent_congr {entries : Nat} (hsize : 12 + 12 * entries ≤ size) (lblock : Nat) :
    findExtent node' entries lblock = findExtent node entries lblock := by
  have hext : ∀ i, i < entries → extent node' i = extent node i :=
    fun i hi => extent_congr hsame (by omega)
  have hfind : (List.range entries).find? (fun i => (extent node' i).takes lblock) =
      (List.range entries).find? fun i => (extent node i).takes lblock := by
    apply List.find?_congr
    intro i hi
    rw [hext i (List.mem_range.mp hi)]
  unfold findExtent
  rw [hfind]
  cases h : (List.range entries).find? fun i => (extent node i).takes lblock with
  | none => rfl
  | some i =>
      dsimp only
      rw [hext i (List.mem_range.mp (List.mem_of_find?_eq_some h))]

end Congr

/-- The lookup in the buffer finds the same block. -/
theorem extentFindHere_eq (h : fs.TreeOk root) (blockBuf : Buf) (lblock : Nat) :
    (fs.extentFindHere blockBuf root lblock).1 = fs.extentFindPhysical root lblock := by
  unfold Ext4.extentFindHere Ext4.extentFindPhysical
  dsimp only
  cases h with
  | inl hleaf =>
      rw [if_neg (not_not.mpr hleaf.ok.magic), if_neg (not_not.mpr hleaf.ok.magic),
        if_pos hleaf.ok.depth, if_pos hleaf.ok.depth]
  | inr hroot =>
      rw [if_neg (not_not.mpr hroot.ok.magic), if_neg (not_not.mpr hroot.ok.magic), hroot.ok.depth,
        if_neg Nat.one_ne_zero, if_neg Nat.one_ne_zero, if_pos rfl, if_pos rfl]
      cases hchoose : chooseIdx root.iBlock (extentHeader root.iBlock).ehEntries lblock with
      | none => rfl
      | some i =>
          have hi := chooseIdx_lt hchoose
          obtain ⟨leaf, hleaf, hok⟩ := hroot.leaves i hi
          obtain ⟨leaf', hleaf', hsame⟩ := readBlockTo_of_some hleaf blockBuf
          have hroom := hok.ok.capacity
          have hcount := hok.ok.count
          have hheader : extentHeader leaf' = extentHeader leaf :=
            extentHeader_congr hsame (by omega)
          have hmagic : ¬ ((extentHeader leaf).ehMagic ≠ ext4ExtMagic ∨
              (extentHeader leaf).ehDepth ≠ 0) := by
            rw [hok.ok.magic, hok.ok.depth]
            exact fun h => h.elim (fun h => h rfl) fun h => h rfl
          dsimp only
          rw [if_neg (not_not.mpr (hroot.high i hi)), if_neg (not_not.mpr (hroot.high i hi)), hleaf,
            hleaf']
          dsimp only
          rw [hheader, if_neg hmagic, if_neg hmagic]
          exact findExtent_congr hsame (by omega) lblock

/-- The lookup of the block fails. -/
def Ext4.misses (fs : Ext4) (root : Ext4Inode) (lblock : Nat) : Bool :=
  (fs.extentFindPhysical root lblock).isNone

section Block

variable {b block : Nat} (htree : fs.TreeOk root) (hb : fs.BlockAt root b block) (hlt : b < 2 ^ 31)
include htree hb hlt

/-- Only an extent of 32768 blocks is read wrongly. -/
theorem Ext4.BlockAt.find {ex : Ext4Extent} (hex : fs.TreeExtent root ex) (hcovers : ex.Covers b) :
    fs.extentFindPhysical root b = if ex.eeLen = extInitMaxLen then none else some block := by
  obtain ⟨ex', hex', hinit, hcovers', hblock⟩ := hb.mapped
  cases treeExtent_unique htree hex hex' hcovers hcovers'
  have hsectors := hb.sectors
  have hpos : 0 < fs.blockSize / sectorSize := Nat.pos_of_mul_pos_right (fs.pos.2.2 ▸ fs.pos.1)
  have hsmall : block < 2 ^ 32 := Nat.lt_of_lt_of_le
    (Nat.lt_of_lt_of_le (Nat.lt_succ_self block) (Nat.le_mul_of_pos_right _ hpos)) hsectors
  have hblocks : ex.blocks = ex.eeLen := if_pos hinit
  have htakes := (treeExtent_inRange hex).takes_iff_of_covers hcovers
  have hinit' : ex.eeLen ≤ 32768 := hinit
  have hfirst := hcovers.1
  rw [lookup_covered htree hex hcovers, ← hblock, u32_of_lt hsmall]
  by_cases hmax : ex.eeLen = extInitMaxLen
  · rw [if_pos hmax, if_neg fun h => (htakes.mp h).1 hmax]
  · rw [if_neg hmax, if_pos (htakes.mpr ⟨hmax, by omega⟩)]

theorem Ext4.BlockAt.misses_iff : fs.misses root b = true ↔
    ∃ ex, fs.TreeExtent root ex ∧ ex.Covers b ∧ ex.eeLen = extInitMaxLen := by
  obtain ⟨ex, hex, -, hcovers, -⟩ := hb.mapped
  have hfind := hb.find htree hlt hex hcovers
  unfold Ext4.misses
  by_cases hmax : ex.eeLen = extInitMaxLen
  · rw [hfind, if_pos hmax]
    exact ⟨fun _ => ⟨ex, hex, hcovers, hmax⟩, fun _ => rfl⟩
  · rw [hfind, if_neg hmax]
    constructor
    · intro h
      cases h
    · rintro ⟨ex', hex', hcovers', hmax'⟩
      rw [treeExtent_unique htree hex hex' hcovers hcovers'] at hmax
      exact absurd hmax' hmax

theorem Ext4.BlockAt.find_of_read (hread : fs.misses root b = false) :
    fs.extentFindPhysical root b = some block := by
  obtain ⟨ex, hex, -, hcovers, -⟩ := hb.mapped
  have hfind := hb.find htree hlt hex hcovers
  unfold Ext4.misses at hread
  rw [hfind] at hread ⊢
  split at hread
  · cases hread
  · rw [if_neg ‹_›]

end Block

theorem readLoopHere_done {off remaining turns done : Nat} {blockBuf : Buf}
    (hdone : ¬ done < remaining) :
    fs.readLoopHere root off remaining turns done blockBuf = (done, blockBuf) := by
  cases turns with
  | zero => rfl
  | succ turns => exact if_neg hdone

section Read

variable {b : Nat} (hhigh : root.iSizeHigh = 0) (hsize : root.iSizeLo < 2 ^ 32)
  (hend : (b + 1) * fs.blockSize ≤ root.iSizeLo)
include hhigh hsize hend

/-- A block of the directory is read in one turn, or none where the lookup fails. -/
theorem inodeReadHere_turn (blockBuf : Buf) :
    fs.inodeReadHere root (b * fs.blockSize) blockBuf fs.blockSize =
      match fs.extentFindHere blockBuf root b with
      | (none, blockBuf) => (0, blockBuf)
      | (some pblock, blockBuf) =>
          match fs.readBlockTo blockBuf pblock with
          | (false, blockBuf) => (0, blockBuf)
          | (true, blockBuf) => (fs.blockSize, blockBuf) := by
  have hpos := fs.pos.1
  rw [Nat.succ_mul] at hend
  have hoff : ¬ b * fs.blockSize ≥ root.iSizeLo := by omega
  have hclamp : ¬ u32 (b * fs.blockSize + fs.blockSize) > root.iSizeLo := by
    rw [u32_of_lt (by omega)]
    omega
  have hat : u32 (b * fs.blockSize + 0) = b * fs.blockSize := u32_of_lt (by omega)
  have hquot : b * fs.blockSize / fs.blockSize = b := Nat.mul_div_cancel b hpos
  have hrem : b * fs.blockSize % fs.blockSize = 0 := Nat.mul_mod_left ..
  have hcopy : ∀ buf : Buf, copyBytes buf 0 buf 0 fs.blockSize = buf := by
    intro buf
    funext m
    unfold copyBytes
    by_cases hm : 0 ≤ m ∧ m < 0 + fs.blockSize
    · rw [if_pos hm, Nat.zero_add, Nat.sub_zero]
    · rw [if_neg hm]
  have hzero : toInt 0 = 0 := (toInt_eq_iff (by decide)).mpr ⟨rfl, by decide⟩
  have hfull : toInt fs.blockSize = fs.blockSize := by
    have hsmall : fs.blockSize < 2 ^ 31 := by
      rcases fs.known with h | h | h <;> rw [h] <;> decide
    exact (toInt_eq_iff (hsmall.trans (by decide))).mpr ⟨rfl, hsmall⟩
  obtain ⟨turns, hturns⟩ : ∃ turns, fs.blockSize = turns + 1 :=
    Nat.exists_eq_succ_of_ne_zero hpos.ne'
  have hloop : fs.readLoopHere root (b * fs.blockSize) fs.blockSize (turns + 1) 0 blockBuf =
      match fs.extentFindHere blockBuf root b with
      | (none, blockBuf) => (0, blockBuf)
      | (some pblock, blockBuf) =>
          match fs.readBlockTo blockBuf pblock with
          | (false, blockBuf) => (0, blockBuf)
          | (true, blockBuf) => (fs.blockSize, blockBuf) := by
    rw [Ext4.readLoopHere, if_pos hpos]
    simp only [hat, hquot, hrem, Nat.sub_zero, gt_iff_lt, Nat.lt_irrefl, if_false, Nat.zero_add,
      hcopy, readLoopHere_done (Nat.lt_irrefl fs.blockSize)]
  rw [← hturns] at hloop
  unfold Ext4.inodeReadHere
  rw [if_neg (not_not.mpr hhigh)]
  dsimp only
  rw [if_neg hoff, if_neg hclamp, hloop]
  cases fs.extentFindHere blockBuf root b with
  | mk found buf =>
      cases found with
      | none => exact congrArg (·, buf) hzero
      | some pblock =>
          dsimp only
          cases fs.readBlockTo buf pblock with
          | mk ok buf =>
              cases ok with
              | false => exact congrArg (·, buf) hzero
              | true => exact congrArg (·, buf) hfull

theorem inodeReadHere_missed (htree : fs.TreeOk root) (hmissed : fs.misses root b = true)
    (blockBuf : Buf) :
    (fs.inodeReadHere root (b * fs.blockSize) blockBuf fs.blockSize).1 = 0 := by
  have hnone : (fs.extentFindHere blockBuf root b).1 = none :=
    (extentFindHere_eq htree blockBuf b).trans (Option.isNone_iff_eq_none.mp hmissed)
  rw [inodeReadHere_turn hhigh hsize hend]
  cases hfind : fs.extentFindHere blockBuf root b with
  | mk found buf =>
      rw [hfind] at hnone
      dsimp only at hnone
      rw [hnone]

theorem inodeReadHere_read (htree : fs.TreeOk root) {block : Nat} (hb : fs.BlockAt root b block)
    (hread : fs.misses root b = false) (blockBuf : Buf) :
    ∃ buf, fs.inodeReadHere root (b * fs.blockSize) blockBuf fs.blockSize =
        ((fs.blockSize : Int), buf) ∧ ∀ n, n < fs.blockSize → buf n = fs.diskByte block n := by
  have hpos := fs.pos
  have hlt : b < 2 ^ 31 := by
    have hlarge : 2 ≤ fs.blockSize := by
      rcases fs.known with h | h | h <;> rw [h] <;> decide
    have hmul : (b + 1) * 2 ≤ (b + 1) * fs.blockSize := Nat.mul_le_mul_left _ hlarge
    omega
  have hsome : (fs.extentFindHere blockBuf root b).1 = some block :=
    (extentFindHere_eq htree blockBuf b).trans (hb.find_of_read htree hlt hread)
  rw [inodeReadHere_turn hhigh hsize hend]
  cases hfind : fs.extentFindHere blockBuf root b with
  | mk found buf =>
      rw [hfind] at hsome
      dsimp only at hsome
      rw [hsome]
      obtain ⟨out, hout, hbytes⟩ := hb.read buf
      dsimp only
      rw [hout]
      exact ⟨out, rfl, hbytes⟩

end Read

/-! ## Scanning a block -/

section Records

variable {bytes bytes' : Buf} {n p : Nat} {r : DirRecord} {rs : List DirRecord}

theorem Tiles.le (h : Tiles bytes n p rs) : p + rs.length * 8 ≤ n := by
  induction rs generalizing p with
  | nil =>
      have hend : p = n := h
      rw [List.length_nil]
      omega
  | cons r rs ih =>
      have hrest := ih h.2
      have hroom := h.1.room
      rw [List.length_cons]
      omega

theorem RecordAt.congr (h : RecordAt bytes p r) (hsame : ∀ m, m < n → bytes' m = bytes m)
    (hend : p + r.recLen ≤ n) : RecordAt bytes' p r := by
  have hroom := h.room
  constructor
  · exact (le32_congr hsame (by omega)).trans h.inode
  · exact (le16_congr hsame (by omega)).trans h.recLen
  · exact (congrArg UInt8.toNat (hsame (p + 6) (by omega))).trans h.nameLen
  · intro i hi
    rw [hsame _ (by omega)]
    exact h.name i hi
  · exact hroom
  · exact h.chars

theorem Tiles.congr (h : Tiles bytes n p rs) (hsame : ∀ m, m < n → bytes' m = bytes m) :
    Tiles bytes' n p rs := by
  induction rs generalizing p with
  | nil => exact h
  | cons r rs ih => exact ⟨h.1.congr hsame (Nat.le_of_add_right_le (Tiles.le h.2)), ih h.2⟩

/-- The local `name` is the name of the record. -/
theorem RecordAt.direntName (h : RecordAt bytes p r) :
    IsString (direntName bytes p r.name.length) 0 r.name := by
  constructor
  · intro i hi
    unfold Fs.direntName copyBytes
    simp only [Nat.zero_add, Nat.sub_zero]
    rw [Function.update_of_ne (Nat.ne_of_lt hi), if_pos ⟨Nat.zero_le i, hi⟩]
    exact h.name i hi
  · rw [Nat.zero_add]
    exact Function.update_self ..

theorem isDots_iff {name : Buf} {cs : List UInt8} (h : IsString name 0 cs) (hnul : NoNul cs)
    (hne : cs ≠ []) : isDots name = true ↔ cs = [46] ∨ cs = [46, 46] := by
  unfold isDots
  cases cs with
  | nil => exact absurd rfl hne
  | cons c cs =>
      have hc : name 0 = c := h.head
      cases cs with
      | nil =>
          have hstop : name 1 = 0 := h.stop
          simp [hc, hstop]
      | cons d cs =>
          have hd : name 1 = d := h.tail.head
          have hd0 : d ≠ 0 := hnul d (by simp)
          cases cs with
          | nil =>
              have hstop : name 2 = 0 := h.stop
              simp [hc, hd, hstop, hd0]
          | cons e cs =>
              have he : name 2 = e := h.tail.tail.head
              have he0 : e ≠ 0 := hnul e (by simp)
              simp [hc, hd, he, hd0, he0]

/-- An entry written behind those of the records. -/
theorem Ext4Root.Lists.add {st : Ext4Root} {listed : List DirRecord} {name : Buf}
    (h : st.Lists listed) (hname : IsString name 0 r.name) :
    (st.addEntry name r.name.length r.inode).Lists (listed ++ [r]) := by
  have hcount := h.count
  have hentry : ∀ i, (st.addEntry name r.name.length r.inode).rootFiles i =
      if i = listed.length then
        ⟨copyBytes (st.rootFiles st.rootFileCount).name 0 name 0 (r.name.length + 1), r.inode⟩
      else st.rootFiles i := by
    intro i
    rw [← hcount]
    exact Function.update_apply ..
  have hcopy : IsString (copyBytes (st.rootFiles st.rootFileCount).name 0 name 0
      (r.name.length + 1)) 0 r.name := by
    constructor
    · intro i hi
      unfold copyBytes
      rw [if_pos (by omega), Nat.sub_zero, Nat.zero_add (0 + i)]
      exact hname.chars i hi
    · unfold copyBytes
      rw [if_pos (by omega), Nat.sub_zero, Nat.zero_add (0 + r.name.length)]
      exact hname.stop
  constructor
  · rw [List.length_append, List.length_singleton, ← hcount]
    rfl
  · intro i s hs
    rw [hentry]
    by_cases hi : i = listed.length
    · rw [hi, List.getElem?_concat_length] at hs
      cases hs
      rw [if_pos hi]
      exact hcopy
    · have hlt := (List.getElem?_eq_some_iff.mp hs).1
      rw [List.length_append, List.length_singleton] at hlt
      rw [List.getElem?_append_left (by omega)] at hs
      rw [if_neg hi]
      exact h.names i s hs
  · intro i s hs
    rw [hentry]
    by_cases hi : i = listed.length
    · rw [hi, List.getElem?_concat_length] at hs
      cases hs
      rw [if_pos hi]
    · have hlt := (List.getElem?_eq_some_iff.mp hs).1
      rw [List.length_append, List.length_singleton] at hlt
      rw [List.getElem?_append_left (by omega)] at hs
      rw [if_neg hi]
      exact h.inodes i s hs

/-- A record that is not to be listed is passed over. -/
theorem scanBlock_skip {turns : Nat} {st : Ext4Root} (h : RecordAt bytes p r) (hroom : p + 8 ≤ n)
    (hskip : ¬ r.Usable) :
    scanBlock bytes n (turns + 1) p st = scanBlock bytes n turns (p + r.recLen) st := by
  have hlen : (dirent bytes p).recLen ≠ 0 := by
    rw [h.recLen]
    have := h.room
    omega
  rw [scanBlock, if_pos hroom]
  dsimp only
  rw [if_neg hlen, h.inode, h.recLen, h.nameLen]
  by_cases hhead : r.inode ≠ 0 ∧ r.name.length > 0 ∧ r.name.length < ext4NameMax
  · have hnul : NoNul r.name := fun c hc => (h.chars hhead.1 c hc).1
    have hdots : isDots (direntName bytes p r.name.length) = true := by
      apply (isDots_iff h.direntName hnul (List.ne_nil_of_length_pos hhead.2.1)).mpr
      by_contra hno
      exact hskip ⟨hhead.1, hhead.2.1, hhead.2.2, fun h => hno (Or.inl h), fun h => hno (Or.inr h)⟩
    rw [if_pos hhead, if_pos hdots]
  · rw [if_neg hhead]

/-- A record that is to be listed becomes an entry, which may be the last there is room
for. -/
theorem scanBlock_list {turns : Nat} {st : Ext4Root} (h : RecordAt bytes p r) (hroom : p + 8 ≤ n)
    (hlist : r.Usable) :
    scanBlock bytes n (turns + 1) p st =
      if st.rootFileCount + 1 ≥ ext4MaxRootEntries then
        some (st.addEntry (direntName bytes p r.name.length) r.name.length r.inode)
      else scanBlock bytes n turns (p + r.recLen)
        (st.addEntry (direntName bytes p r.name.length) r.name.length r.inode) := by
  obtain ⟨hinode, hpos, hshort, hdot, hdots⟩ := hlist
  have hlen : (dirent bytes p).recLen ≠ 0 := by
    rw [h.recLen]
    have := h.room
    omega
  have hnul : NoNul r.name := fun c hc => (h.chars hinode c hc).1
  have hno : ¬ isDots (direntName bytes p r.name.length) = true := by
    intro hyes
    have hcases := (isDots_iff h.direntName hnul (List.ne_nil_of_length_pos hpos)).mp hyes
    exact hcases.elim hdot hdots
  rw [scanBlock, if_pos hroom]
  dsimp only
  rw [if_neg hlen, h.inode, h.recLen, h.nameLen, if_pos ⟨hinode, hpos, hshort⟩, if_neg hno]
  rfl

/-- The usable records of a block become entries as long as there is room. -/
theorem scanBlock_spec {turns : Nat} {st : Ext4Root} {listed : List DirRecord}
    (hturns : rs.length < turns) (h : Tiles bytes n p rs) (hlists : st.Lists listed)
    (hspace : listed.length < ext4MaxRootEntries) :
    ∃ st', scanBlock bytes n turns p st = some st' ∧
      st'.Lists ((listed ++ rs.filter (·.Usable)).take ext4MaxRootEntries) := by
  induction rs generalizing turns p st listed with
  | nil =>
      obtain ⟨turns, rfl⟩ := Nat.exists_eq_succ_of_ne_zero (Nat.ne_of_gt hturns)
      have hend : p = n := h
      rw [List.filter_nil, List.append_nil, List.take_of_length_le hspace.le]
      exact ⟨st, if_neg (by omega), hlists⟩
  | cons r rs ih =>
      obtain ⟨turns, rfl⟩ := Nat.exists_eq_succ_of_ne_zero (Nat.ne_of_gt (Nat.zero_lt_of_lt hturns))
      have hrest := Nat.lt_of_succ_lt_succ hturns
      have hroom : p + 8 ≤ n := by
        have hle := Tiles.le h
        rw [List.length_cons] at hle
        omega
      by_cases hlist : r.Usable
      · have hadd := hlists.add h.1.direntName
        rw [scanBlock_list h.1 hroom hlist, List.filter_cons_of_pos (by simpa using hlist),
          List.append_cons, hlists.count]
        by_cases hlast : listed.length + 1 ≥ ext4MaxRootEntries
        · have hfull : (listed ++ [r]).length = ext4MaxRootEntries := by
            rw [List.length_append, List.length_singleton]
            exact Nat.le_antisymm hspace hlast
          rw [if_pos hlast, ← hfull, List.take_left]
          exact ⟨_, rfl, hadd⟩
        · rw [if_neg hlast]
          apply ih hrest h.2 hadd
          rw [List.length_append, List.length_singleton]
          exact Nat.lt_of_not_le hlast
      · rw [scanBlock_skip h.1 hroom hlist, List.filter_cons_of_neg (by simpa using hlist)]
        exact ih hrest h.2 hlists hspace

theorem Tiles.mem (h : Tiles bytes n p rs) (hr : r ∈ rs) : ∃ at', RecordAt bytes at' r := by
  induction rs generalizing p with
  | nil => cases hr
  | cons s rs ih =>
      cases hr with
      | head => exact ⟨p, h.1⟩
      | tail _ hr => exact ih h.2 hr

end Records

/-! ## Scanning the directory -/

theorem take_take_append {α : Type} (n : Nat) (l l' : List α) :
    (l.take n ++ l').take n = (l ++ l').take n := by
  rw [List.take_append, List.take_append, List.take_take, Nat.min_self, List.length_take]
  congr 2
  omega

/-- The usable records of the blocks that are not missed become entries as long as there
is room. -/
theorem scanLoop_spec {dir front rest : List (List DirRecord)} (hdir : fs.RootDirOk root dir)
    (hsplit : dir = front ++ rest) {turns : Nat} (hturns : rest.length + fs.blockSize < turns)
    (blockBuf : Buf) {st : Ext4Root} {listed : List DirRecord} (hlists : st.Lists listed)
    (hspace : listed.length ≤ ext4MaxRootEntries) :
    ∃ st', fs.scanLoop root root.iSizeLo turns (front.length * fs.blockSize) blockBuf st = some st' ∧
      st'.Lists ((listed ++ reached (fs.misses root) front.length
        (rest.map (·.filter (·.Usable)))).take ext4MaxRootEntries) := by
  have hpos := fs.pos.1
  have hsize := hdir.size
  have hlt := hdir.size_lt
  induction rest generalizing front turns blockBuf st listed with
  | nil =>
      obtain ⟨turns, rfl⟩ := Nat.exists_eq_succ_of_ne_zero (Nat.ne_of_gt (Nat.zero_lt_of_lt hturns))
      rw [List.append_nil] at hsplit
      have hend : ¬ (front.length * fs.blockSize < root.iSizeLo ∧
          st.rootFileCount < ext4MaxRootEntries) := by
        rw [hsize, hsplit]
        exact fun h => Nat.lt_irrefl _ h.1
      rw [List.map_nil, reached, List.append_nil, List.take_of_length_le hspace]
      exact ⟨st, if_neg hend, hlists⟩
  | cons rs rest ih =>
      obtain ⟨turns, rfl⟩ := Nat.exists_eq_succ_of_ne_zero (Nat.ne_of_gt (Nat.zero_lt_of_lt hturns))
      rw [List.length_cons] at hturns
      have hlen : dir.length = front.length + (rest.length + 1) := by
        rw [hsplit, List.length_append, List.length_cons]
      have hbelow : (front.length + 1) * fs.blockSize ≤ root.iSizeLo := by
        rw [hsize, hlen]
        exact Nat.mul_le_mul_right _ (by omega)
      have hoff : front.length * fs.blockSize < root.iSizeLo := by
        rw [Nat.succ_mul] at hbelow
        omega
      by_cases hfull : st.rootFileCount < ext4MaxRootEntries
      · rw [Ext4.scanLoop, if_pos ⟨hoff, hfull⟩, List.map_cons, reached]
        rw [hlists.count] at hfull
        obtain ⟨block, hb, htiles⟩ := hdir.blocks front.length rs (by
          rw [hsplit, List.getElem?_append_right (Nat.le_refl _), Nat.sub_self]
          rfl)
        cases hmissed : fs.misses root front.length with
        | true =>
            have hread := inodeReadHere_missed hdir.high hlt hbelow hdir.tree hmissed blockBuf
            dsimp only
            rw [hread, if_pos (Int.le_refl 0), if_pos rfl, List.append_nil,
              List.take_of_length_le hspace]
            exact ⟨st, rfl, hlists⟩
        | false =>
            obtain ⟨buf, hread, hbytes⟩ :=
              inodeReadHere_read hdir.high hlt hbelow hdir.tree hb hmissed blockBuf
            have hrecords := Tiles.le htiles
            have hinner : rs.length < turns + 1 := by omega
            have houter : rest.length + fs.blockSize < turns := by omega
            obtain ⟨st₁, hscan, hlists₁⟩ :=
              scanBlock_spec hinner (htiles.congr hbytes) hlists hfull
            have hnext : u32 (front.length * fs.blockSize + fs.blockSize) =
                (front ++ [rs]).length * fs.blockSize := by
              rw [Nat.succ_mul] at hbelow
              rw [u32_of_lt (by omega), List.length_append, List.length_singleton, Nat.succ_mul]
            obtain ⟨st', hst', hlists'⟩ := ih (hsplit.trans (List.append_cons ..)) houter buf
              hlists₁ (List.length_take_le ..)
            refine ⟨st', ?_, ?_⟩
            · dsimp only
              rw [hread]
              dsimp only
              rw [if_neg (by omega), Int.toNat_natCast, hscan]
              dsimp only
              rw [hnext]
              exact hst'
            · rw [take_take_append, List.append_assoc, List.length_append,
                List.length_singleton] at hlists'
              rw [if_neg Bool.false_ne_true]
              exact hlists'
      · have hall : listed.length = ext4MaxRootEntries :=
          Nat.le_antisymm hspace (hlists.count ▸ Nat.le_of_not_lt hfull)
        rw [Ext4.scanLoop, if_neg fun h => hfull h.2, ← hall, List.take_left]
        exact ⟨st, rfl, hlists⟩

/-! ## Looking a name up -/

section Lookup

variable {turns : Nat} {st : Ext4Root} {rs : List DirRecord}

theorem lookupLoop_spec (hlists : st.Lists rs)
    (hnames : ∀ r ∈ rs, NoNul r.name ∧ r.name.length < turns) {name : Buf} {cs : List UInt8}
    (hnul : NoNul cs) (hname : IsString name 0 cs) {front rest : List DirRecord}
    (hsplit : rs = front ++ rest) :
    lookupLoop turns st name rest.length front.length =
      some ((rest.findIdx? (·.name = cs)).map (· + front.length)) := by
  induction rest generalizing front with
  | nil => rfl
  | cons r rest ih =>
      have hat : rs[front.length]? = some r := by
        rw [hsplit, List.getElem?_append_right (Nat.le_refl _), Nat.sub_self]
        rfl
      obtain ⟨hrnul, hrlen⟩ := hnames r (List.mem_of_getElem? hat)
      have heq := strEq_spec hrlen (hlists.names _ r hat) hname hrnul hnul
      rw [List.length_cons, lookupLoop, heq, List.findIdx?_cons]
      by_cases hsame : r.name = cs
      · rw [decide_eq_true hsame, if_pos rfl, Option.map_some, Nat.zero_add]
      · have hrest := ih (hsplit.trans (List.append_cons ..))
        rw [List.length_append, List.length_singleton] at hrest
        rw [decide_eq_false hsame, if_neg Bool.false_ne_true, Option.map_map]
        dsimp only
        rw [hrest]
        congr 2
        funext i
        rw [Function.comp_apply, Nat.add_assoc, Nat.add_comm 1]

/-- The names of the entries are found. -/
theorem Ext4Root.Lists.finds (hlists : st.Lists rs)
    (hnames : ∀ r ∈ rs, NoNul r.name ∧ r.name.length < turns) : st.Finds turns rs := by
  intro name cs hnul hname
  have hmounted : Ext4Root.Lists { st with mounted := true } rs :=
    ⟨hlists.count, hlists.names, hlists.inodes⟩
  have hloop := lookupLoop_spec hmounted hnames hnul hname (List.nil_append rs).symm
  have hid : (rs.findIdx? (·.name = cs)).map (· + 0) = rs.findIdx? (·.name = cs) := Option.map_id'
  rw [List.length_nil, hid, ← hlists.count] at hloop
  rw [ext4Lookup, if_pos rfl]
  exact hloop

end Lookup

/-! ## When the entries are the right ones -/

section Scan

variable {dir : List (List DirRecord)}

theorem Ext4.RootDirOk.length_lt (hdir : fs.RootDirOk root dir) : dir.length < 2 ^ 31 := by
  have hlarge : 2 ≤ fs.blockSize := by
    rcases fs.known with h | h | h <;> rw [h] <;> decide
  have hmul : dir.length * 2 ≤ dir.length * fs.blockSize := Nat.mul_le_mul_left _ hlarge
  have hsize := hdir.size
  have hlt := hdir.size_lt
  omega

theorem Ext4.RootDirOk.misses_iff (hdir : fs.RootDirOk root dir) {b : Nat} (hb : b < dir.length) :
    fs.misses root b = true ↔
      ∃ ex, fs.TreeExtent root ex ∧ ex.Covers b ∧ ex.eeLen = extInitMaxLen := by
  obtain ⟨block, hat, -⟩ := hdir.blocks b dir[b] (List.getElem?_eq_getElem hb)
  exact hat.misses_iff hdir.tree (hb.trans hdir.length_lt)

theorem Ext4.RootDirOk.scanFits_iff (hdir : fs.RootDirOk root dir) : fs.ScanFits root dir ↔
    MissesNone (fs.misses root) ext4MaxRootEntries 0 (dir.map (·.filter (·.Usable))) := by
  have htake : ∀ b, (dir.take b).flatten.filter (fun r => decide r.Usable) =
      ((dir.map (·.filter (·.Usable))).take b).flatten := by
    intro b
    rw [List.filter_flatten, List.map_take]
  have hdrop : ∀ b, (dir.drop b).flatten.filter (fun r => decide r.Usable) =
      ((dir.map (·.filter (·.Usable))).drop b).flatten := by
    intro b
    rw [List.filter_flatten, List.map_drop]
  constructor
  · intro h b hb hmissed
    rw [List.length_map] at hb
    rw [Nat.zero_add] at hmissed
    obtain ⟨ex, hex, hcovers, hmax⟩ := (hdir.misses_iff hb).mp hmissed
    rw [← htake, ← hdrop]
    exact h b ex hb hex hcovers hmax
  · intro h b ex hb hex hcovers hmax
    rw [htake, hdrop]
    apply h b (by rwa [List.length_map])
    rw [Nat.zero_add]
    exact (hdir.misses_iff hb).mpr ⟨ex, hex, hcovers, hmax⟩

/-- The records to be listed have names that can be looked up. -/
theorem Ext4.RootDirOk.names (hdir : fs.RootDirOk root dir) {r : DirRecord}
    (hr : r ∈ listedRecords dir) : NoNul r.name ∧ r.name.length < ext4NameMax := by
  have hfilter := List.mem_filter.mp (List.mem_of_mem_take hr)
  have husable : r.Usable := of_decide_eq_true hfilter.2
  obtain ⟨rs, hrs, hmem⟩ := List.mem_flatten.mp hfilter.1
  obtain ⟨b, hb⟩ := List.mem_iff_getElem?.mp hrs
  obtain ⟨block, -, htiles⟩ := hdir.blocks b rs hb
  obtain ⟨at', hrecord⟩ := htiles.mem hmem
  exact ⟨fun c hc => (hrecord.chars husable.1 c hc).1, husable.2.2.1⟩

/-- The scan comes to its end, with the usable records of the blocks in front of the first
that is missed. -/
theorem Ext4.RootDirOk.scan {sizes : Ext4Sizes} (hroot : fs.readInode sizes 2 = some root)
    (hdir : fs.RootDirOk root dir) {turns : Nat} (hturns : dir.length + fs.blockSize < turns)
    (blockBuf : Buf) (st : Ext4Root) :
    ∃ st', fs.scanRootDir sizes turns blockBuf st = some (0, st') ∧
      st'.Lists ((reached (fs.misses root) 0 (dir.map (·.filter (·.Usable)))).take
        ext4MaxRootEntries) := by
  have hnone : Ext4Root.Lists { st with rootFileCount := 0 } [] := by
    constructor
    · rfl
    · intro i r hr
      cases hr
    · intro i r hr
      cases hr
  obtain ⟨st', hscan, hlists⟩ := scanLoop_spec hdir (List.nil_append dir).symm hturns blockBuf hnone
    (Nat.zero_le _)
  rw [List.length_nil, Nat.zero_mul] at hscan
  refine ⟨st', ?_, hlists⟩
  unfold Ext4.scanRootDir
  rw [hroot]
  dsimp only
  rw [if_neg (not_not.mpr hdir.high), hscan, Option.map_some]

/-- The root directory is listed as it is exactly when no block with a listed entry lies in
or behind an extent of 32768 blocks. -/
theorem scan_root_dir_iff {sizes : Ext4Sizes} (hroot : fs.readInode sizes 2 = some root)
    (hdir : fs.RootDirOk root dir) {turns : Nat} (hturns : dir.length + fs.blockSize < turns)
    (blockBuf : Buf) (st : Ext4Root) :
    fs.ListsRootDir sizes turns blockBuf st dir ↔ fs.ScanFits root dir := by
  obtain ⟨st', hscan, hlists⟩ := hdir.scan hroot hturns blockBuf st
  have hall : listedRecords dir =
      (dir.map (·.filter (·.Usable))).flatten.take ext4MaxRootEntries := by
    unfold listedRecords
    rw [List.filter_flatten]
  have hlarge : ext4NameMax ≤ fs.blockSize := by
    rcases fs.known with h | h | h <;> rw [h] <;> decide
  rw [hdir.scanFits_iff, ← reached_take_iff, ← hall]
  constructor
  · rintro ⟨st'', hscan', hlists', -⟩
    rw [hscan] at hscan'
    cases hscan'
    have hprefix := (@reached_initial _ (fs.misses root) 0
      (dir.map (·.filter (·.Usable)))).take ext4MaxRootEntries
    rw [← hall] at hprefix
    exact hprefix.eq_of_length (hlists.count.symm.trans hlists'.count)
  · intro heq
    rw [heq] at hlists
    refine ⟨st', hscan, hlists, hlists.finds fun r hr => ?_⟩
    obtain ⟨hnul, hshort⟩ := hdir.names hr
    exact ⟨hnul, by omega⟩

end Scan

/-! ## A directory of one extent -/

theorem LeafOk.congr {node node' : Buf} {size : Nat} (h : LeafOk node size)
    (hsame : ∀ n, n < size → node' n = node n) : LeafOk node' size := by
  have hroom := h.ok.capacity
  have hcount := h.ok.count
  have hheader : extentHeader node' = extentHeader node := extentHeader_congr hsame (by omega)
  have hext : ∀ i, i < (extentHeader node).ehEntries → extent node' i = extent node i :=
    fun i hi => extent_congr hsame (by omega)
  constructor
  · constructor <;> rw [hheader]
    · exact h.ok.magic
    · exact h.ok.depth
    · exact hcount
    · exact hroom
  · rw [hheader]
    intro i j hij hj
    rw [hext i (hij.trans hj), hext j hj]
    exact h.sorted i j hij hj
  · rw [hheader]
    intro i hi
    rw [hext i hi]
    exact h.high i hi

/-- The sectors of an image whose root directory has so many blocks from block 100 on: a
group descriptor, the second inode, and records as long as a block, of which the first is
named. -/
def dirSector (blocks : UInt16) (sector n : Nat) : UInt8 :=
  if sector = 4 then if n = 8 then 5 else 0
  else if sector = 10 then
    if 168 ≤ n then oneExtent blocks (n - 168)
    else if 132 ≤ n ∧ n < 136 then .ofNat (blocks.toNat * 1024 / 256 ^ (n - 132)) else 0
  else if sector = 200 then [11, 0, 0, 0, 0, 4, 1, 2, 97].getD n 0
  else if 200 < sector then [0, 0, 0, 0, 0, 4].getD n 0
  else 0

def dirImage (blocks : UInt16) : Ext4 := ⟨1024, smallBlock_known, dirSector blocks, fun _ => false⟩

/-- The records of the image. -/
def dirRecords (blocks : Nat) : List (List DirRecord) :=
  [⟨11, 1024, [97]⟩] :: List.replicate (blocks - 1) [⟨0, 1024, []⟩]

theorem dirImage_blockSize (blocks : UInt16) : (dirImage blocks).blockSize = 1024 := rfl

theorem dirImage_sectors (blocks : UInt16) : (dirImage blocks).blockSize / sectorSize = 2 :=
  (by decide : 1024 / sectorSize = 2)

/-- The first sector of a block. -/
theorem dirImage_readBlock (blocks : UInt16) {block : Nat} (hblock : block < 2 ^ 31) :
    ∃ out, (dirImage blocks).readBlock block = some out ∧
      ∀ n, n < 512 → out n = dirSector blocks (block * 2) n := by
  obtain ⟨out, hout, hbytes⟩ := @readBlock_spec (dirImage blocks) (fun _ => rfl) block
  refine ⟨out, hout, fun n hn => ?_⟩
  have hsector : u32 (u32 (block * (1024 / sectorSize)) + n / sectorSize) = block * 2 := by
    rw [Nat.div_eq_of_lt hn, Nat.add_zero, u32_of_lt (u32_lt _)]
    exact u32_of_lt (show block * 2 < 2 ^ 32 by omega)
  rw [hbytes n (by rw [dirImage_blockSize]; omega), Ext4.readByte, dirImage_blockSize, hsector,
    Nat.mod_eq_of_lt hn]
  rfl

theorem dirImage_groupDesc (blocks : UInt16) :
    (dirImage blocks).loadGroupDesc ⟨8, 128, 32⟩ 0 = some ⟨5, 0⟩ := by
  obtain ⟨out, hout, hbytes⟩ := dirImage_readBlock blocks (show 2 < 2 ^ 31 by decide)
  unfold Ext4.loadGroupDesc
  simp only [dirImage_blockSize, if_true, Nat.zero_div, Nat.add_zero, Nat.zero_mod, Nat.zero_mul,
    Nat.zero_add, u32_of_lt (show 2 < 2 ^ 32 by decide), hout, Option.map_some]
  simp [groupDesc, le32, le16, hbytes, dirSector]

/-- The root inode of the image. -/
theorem dirImage_root (blocks : UInt16) :
    ∃ root, (dirImage blocks).readInode ⟨8, 128, 32⟩ 2 = some root ∧
      root.iSizeLo = le32 (dirSector blocks 10) 132 ∧ root.iSizeHigh = 0 ∧
      ∀ n, n < 60 → root.iBlock n = oneExtent blocks n := by
  obtain ⟨out, hout, hbytes⟩ := dirImage_readBlock blocks (show 5 < 2 ^ 31 by decide)
  have hread : (dirImage blocks).readInode ⟨8, 128, 32⟩ 2 =
      some (inodeOf fun n => out (128 + n)) := by
    unfold Ext4.readInode
    rw [if_neg (by decide)]
    simp only [dirImage_blockSize, Nat.reduceSub, Nat.reduceDiv, Nat.reduceMod, Nat.reduceMul,
      dirImage_groupDesc, u32_of_lt (show 128 < 2 ^ 32 by decide), Nat.add_zero,
      u32_of_lt (show 5 < 2 ^ 32 by decide), hout, Nat.reduceAdd, ne_eq, not_true_eq_false, if_false,
      u32_of_lt (show 256 < 2 ^ 32 by decide), Nat.reduceLeDiff, if_true]
  refine ⟨_, hread, ?_, ?_, ?_⟩
  · simp [inodeOf, le32, le16, hbytes]
  · simp [inodeOf, le32, le16, hbytes, dirSector, oneExtent]
  · intro n hn
    unfold inodeOf
    dsimp only
    rw [hbytes _ (by omega)]
    unfold dirSector
    rw [if_neg (by decide), if_pos rfl, if_pos (by omega)]
    rw [show 128 + (40 + n) - 168 = n by omega]

section Image

variable {blocks : UInt16} {root : Ext4Inode}
  (hblock : ∀ n, n < 60 → root.iBlock n = oneExtent blocks n)
include hblock

theorem dirImage_leaf : LeafOk root.iBlock 60 := (oneExtent_ok blocks).congr hblock

theorem dirImage_header : extentHeader root.iBlock = ⟨ext4ExtMagic, 1, 4, 0, 0⟩ := by
  rw [extentHeader_congr hblock (by decide), oneExtent_header]

theorem dirImage_extent : extent root.iBlock 0 = ⟨0, blocks.toNat, 0, 100⟩ := by
  have hlow : blocks.toNat % 256 + blocks.toNat >>> 8 % 256 * 256 = blocks.toNat := by
    have hlt := blocks.toNat_lt
    rw [Nat.shiftRight_eq_div_pow]
    omega
  rw [extent_congr hblock (by decide)]
  simp [extent, le32, le16, oneExtent, hlow]

theorem dirImage_covers (hmax : blocks.toNat ≤ 32768) {b : Nat} (hb : b < blocks.toNat) :
    (extent root.iBlock 0).Covers b := by
  rw [dirImage_extent hblock]
  refine ⟨Nat.zero_le b, ?_⟩
  unfold Ext4Extent.blocks
  rw [if_pos hmax, Nat.zero_add]
  exact hb

theorem dirImage_tree : (dirImage blocks).TreeExtent root (extent root.iBlock 0) := by
  apply Ext4.TreeExtent.root
  · rw [dirImage_header hblock]
  · rw [dirImage_header hblock]
    exact Nat.one_pos

theorem dirImage_blockAt (hmax : blocks.toNat ≤ 32768) {b : Nat} (hb : b < blocks.toNat) :
    (dirImage blocks).BlockAt root b (100 + b) := by
  constructor
  · refine ⟨extent root.iBlock 0, dirImage_tree hblock, ?_, dirImage_covers hblock hmax hb, ?_⟩
    · rw [dirImage_extent hblock]
      exact hmax
    · rw [dirImage_extent hblock]
      rfl
  · rw [dirImage_sectors]
    omega
  · exact fun _ _ => rfl

/-- The image has a well-formed root directory. -/
theorem dirImage_ok (hmin : 1 ≤ blocks.toNat) (hmax : blocks.toNat ≤ 32768)
    (hsize : root.iSizeLo = blocks.toNat * 1024) (hhigh : root.iSizeHigh = 0) :
    (dirImage blocks).RootDirOk root (dirRecords blocks.toNat) := by
  have hlen : (dirRecords blocks.toNat).length = blocks.toNat := by
    rw [dirRecords, List.length_cons, List.length_replicate]
    omega
  constructor
  · exact Or.inl (dirImage_leaf hblock)
  · exact hhigh
  · rw [hlen, hsize, dirImage_blockSize]
  · omega
  · intro b rs hrs
    have hb : b < blocks.toNat := hlen ▸ (List.getElem?_eq_some_iff.mp hrs).1
    refine ⟨100 + b, dirImage_blockAt hblock hmax hb, ?_⟩
    have hbyte : ∀ n, n < 512 →
        (dirImage blocks).diskByte (100 + b) n = dirSector blocks (200 + b * 2) n := by
      intro n hn
      have hsector : (100 + b) * 2 = 200 + b * 2 := Nat.add_mul ..
      rw [Ext4.diskByte, dirImage_sectors, Nat.div_eq_of_lt hn, Nat.add_zero, hsector,
        Nat.mod_eq_of_lt hn]
      rfl
    cases b with
    | zero =>
        cases hrs
        constructor
        · constructor
          · simp [dirent, le32, le16, hbyte, dirSector]
          · simp [dirent, le16, hbyte, dirSector]
          · simp [dirent, hbyte, dirSector]
          · intro i hi
            have hi : i = 0 := Nat.lt_one_iff.mp hi
            rw [hi, hbyte _ (by decide)]
            rfl
          · exact (by decide : 1 + 8 ≤ 1024)
          · exact fun _ => by decide +kernel
        · rfl
    | succ b =>
        have hempty : rs = [⟨0, 1024, []⟩] := List.eq_of_mem_replicate (List.mem_of_getElem? hrs)
        have hsector : ∀ n, dirSector blocks (200 + (b + 1) * 2) n = [0, 0, 0, 0, 0, 4].getD n 0 := by
          intro n
          unfold dirSector
          rw [if_neg (by omega), if_neg (by omega), if_neg (by omega), if_pos (by omega)]
        rw [hempty]
        constructor
        · constructor
          · simp [dirent, le32, le16, hbyte, hsector]
          · simp [dirent, le16, hbyte, hsector]
          · simp [dirent, hbyte, hsector]
          · exact fun i hi => absurd hi (Nat.not_lt_zero i)
          · exact (by decide : 0 + 8 ≤ 1024)
          · exact fun h => absurd rfl h
        · rfl

end Image

/-- A directory of two blocks, of which the second has no entry. -/
theorem scan_root_dir_two : (dirImage 2).ListsRootDir ⟨8, 128, 32⟩ 2000 (fun _ => 0)
    ⟨false, fun _ => ⟨fun _ => 0, 0⟩, 0⟩ (dirRecords 2) := by
  obtain ⟨root, hroot, hsize, hhigh, hblock⟩ := dirImage_root 2
  have hdir := dirImage_ok hblock (by decide) (by decide) (hsize.trans (by decide)) hhigh
  apply (scan_root_dir_iff hroot hdir (by decide) _ _).mpr
  intro b ex hb hex hcovers hmax
  cases hex with
  | root hdepth hi =>
      rw [dirImage_header hblock] at hi
      cases Nat.lt_one_iff.mp hi
      rw [dirImage_extent hblock] at hmax
      cases hmax
  | leaf hdepth _ _ _ =>
      rw [dirImage_header hblock] at hdepth
      cases hdepth

/-- In an extent of 32768 blocks nothing is found. -/
theorem scan_root_dir_misses : ¬ ∀ (fs : Ext4) (sizes : Ext4Sizes) (root : Ext4Inode)
    (dir : List (List DirRecord)) (turns : Nat) (blockBuf : Buf) (st : Ext4Root),
    fs.readInode sizes 2 = some root → fs.RootDirOk root dir →
    dir.length + fs.blockSize < turns → fs.ListsRootDir sizes turns blockBuf st dir := by
  intro hall
  obtain ⟨root, hroot, hsize, hhigh, hblock⟩ := dirImage_root 32768
  have hdir := dirImage_ok hblock (by decide) (by decide) (hsize.trans (by decide)) hhigh
  rw [show (32768 : UInt16).toNat = 32768 from rfl] at hdir
  have hlen : (dirRecords 32768).length = 32768 := by
    rw [dirRecords, List.length_cons, List.length_replicate]
  have hturns : (dirRecords 32768).length + (dirImage 32768).blockSize < 40000 := by
    rw [hlen, dirImage_blockSize]
    decide
  have hlists := hall _ _ root _ 40000 (fun _ => 0) ⟨false, fun _ => ⟨fun _ => 0, 0⟩, 0⟩ hroot hdir
    hturns
  have hfits := (scan_root_dir_iff hroot hdir hturns _ _).mp hlists
  have hmax : (extent root.iBlock 0).eeLen = extInitMaxLen := by
    rw [dirImage_extent hblock]
    rfl
  have hcases := hfits 0 (extent root.iBlock 0) (Nat.lt_of_lt_of_eq (by decide) hlen.symm)
    (dirImage_tree hblock) (dirImage_covers hblock (by decide) (by decide)) hmax
  rw [List.take_zero, List.flatten_nil, List.filter_nil, List.drop_zero, dirRecords,
    List.flatten_cons, List.filter_append] at hcases
  cases hcases with
  | inl hle => exact absurd hle (by decide)
  | inr hnil =>
      have hfirst := (List.append_eq_nil_iff.mp hnil).1
      exact absurd hfirst (by decide)

end Sugimotos.Fs
