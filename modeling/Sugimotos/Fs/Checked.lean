/-
# The ext4 reader on any disk

`fs/ext4.c` from the mount on, where the device may hold any bytes.  Every division, every shift
and every access to an array is checked: a run that would divide by zero, shift by 32 or more or
leave an array stops, with `none`.
-/

import Sugimotos.Fs.SharedReads

namespace Sugimotos.Fs

open Sugimotos.Lib Sugimotos.Math Sugimotos.Mm

/-- What the block device holds, and which sectors it cannot read. -/
structure Disk where
  sector : Nat → Nat → UInt8
  fails : Nat → Bool

/-- The size of `block_buf`, `block_buf2` and `inode_buf`. -/
abbrev bufSize : Nat := 4096

abbrev iBlockSize : Nat := 60

abbrev sbrawSize : Nat := 1024

/-- The bytes of `sbraw`. -/
def Disk.sbraw (d : Disk) : Buf := fun n => d.sector (2 + n / sectorSize) (n % sectorSize)

/-- The static variables of `fs/ext4.c`. -/
structure Reader where
  blockSize : Nat
  sizes : Ext4Sizes
  root : Ext4Root
  bufs : Static

/-- As they are at first. -/
def Reader.zero : Reader where
  blockSize := 0
  sizes := ⟨0, 0, 0⟩
  root := ⟨false, fun _ => ⟨fun _ => 0, 0⟩, 0⟩
  bufs := ⟨fun _ => 0, fun _ => 0, fun _ => 0⟩

namespace Checked

/-! ## Checks -/

def divide (a b : Nat) : Option Nat := if b = 0 then none else some (a / b)

def modulo (a b : Nat) : Option Nat := if b = 0 then none else some (a % b)

/-- `a << n` as a `uint32_t`. -/
def shiftLeft (a n : Nat) : Option Nat := if n < 32 then some (u32 (a * 2 ^ n)) else none

/-- An access to `n` bytes, or elements, from `at'` on. -/
def inArray (at' n size : Nat) : Option Unit := if at' + n ≤ size then some () else none

/-! ## Reading -/

variable (d : Disk) (blockSize : Nat)

/-- The first `i` turns of the loop of `read_block`. -/
def readSectors (firstSector : Nat) (buf : Buf) : Nat → Option (Bool × Buf)
  | 0 => some (true, buf)
  | i + 1 => do
      let r ← readSectors firstSector buf i
      if r.1 then
        inArray (i * sectorSize) sectorSize bufSize
        if d.fails (u32 (firstSector + i)) then some (false, r.2)
        else
          some (true, copyBytes r.2 (i * sectorSize) (d.sector (u32 (firstSector + i))) 0 sectorSize)
      else some (false, r.2)

def readBlock (b : Static) (target : Target) (block : Nat) : Option (Bool × Static) := do
  let sectors := blockSize / sectorSize
  let r ← readSectors d (u32 (block * sectors)) (b.get target) sectors
  some (r.1, b.put target r.2)

variable (sizes : Ext4Sizes)

/-- `load_group_desc`; the structure has 44 bytes. -/
def loadGroupDesc (b : Static) (group : Nat) : Option (Option Ext4GroupDesc × Static) := do
  let gdTableBlock := if blockSize = 1024 then 2 else 1
  let gdsPerBlock ← divide blockSize sizes.descSize
  let blocks ← divide group gdsPerBlock
  let indexInBlock ← modulo group gdsPerBlock
  let r ← readBlock d blockSize b .blockBuf (u32 (gdTableBlock + blocks))
  if r.1 then
    inArray (indexInBlock * sizes.descSize) 44 bufSize
    some (some (groupDesc fun n => r.2.blockBuf (indexInBlock * sizes.descSize + n)), r.2)
  else some (none, r.2)

/-- `read_inode`. -/
def readInode (b : Static) (inum : Nat) : Option (Option Ext4Inode × Static) :=
  if inum = 0 then some (none, b)
  else do
    let idx := inum - 1
    let group ← divide idx sizes.sInodesPerGroup
    let local' ← modulo idx sizes.sInodesPerGroup
    let r ← loadGroupDesc d blockSize sizes b group
    match r.1 with
    | none => some (none, r.2)
    | some gd =>
        if gd.bgInodeTableHi ≠ 0 then some (none, r.2)
        else do
          let inodeOff := u32 (local' * sizes.inodeSize)
          let blocks ← divide inodeOff blockSize
          let offInBlock ← modulo inodeOff blockSize
          let block := u32 (gd.bgInodeTableLo + blocks)
          let r ← readBlock d blockSize r.2 .blockBuf block
          if r.1 then
            if u32 (offInBlock + sizes.inodeSize) ≤ blockSize then do
              inArray offInBlock sizes.inodeSize bufSize
              inArray 0 sizes.inodeSize bufSize
              let b := { r.2 with
                inodeBuf := copyBytes r.2.inodeBuf 0 r.2.blockBuf offInBlock sizes.inodeSize }
              some (some (inodeOf b.inodeBuf), b)
            else do
              let first := blockSize - offInBlock
              inArray offInBlock first bufSize
              inArray 0 first bufSize
              let b := { r.2 with
                inodeBuf := copyBytes r.2.inodeBuf 0 r.2.blockBuf offInBlock first }
              let r ← readBlock d blockSize b .blockBuf2 (u32 (block + 1))
              if r.1 then do
                inArray first (sizes.inodeSize - first) bufSize
                inArray 0 (sizes.inodeSize - first) bufSize
                let b := { r.2 with
                  inodeBuf := copyBytes r.2.inodeBuf first r.2.blockBuf2 0 (sizes.inodeSize - first) }
                some (some (inodeOf b.inodeBuf), b)
              else some (none, r.2)
          else some (none, r.2)

/-- A loop over the extents of a node in an array of `size` bytes, from extent `i` on. -/
def findExtent (node : Buf) (size lblock : Nat) : Nat → Nat → Option (Option Nat)
  | 0, _ => some none
  | left + 1, i => do
      inArray (12 + 12 * i) 12 size
      let ex := extent node i
      if ex.takes lblock then
        if ex.eeStartHi ≠ 0 then some none
        else some (some (u32 (ex.eeStartLo + (lblock - ex.eeBlock))))
      else findExtent node size lblock left (i + 1)

/-- The loop over the index entries, from entry `i` on. -/
def chooseIdx (node : Buf) (size lblock : Nat) : Nat → Nat → Option Nat → Option (Option Nat)
  | 0, _, chosen => some chosen
  | left + 1, i, chosen => do
      inArray (12 + 12 * i) 12 size
      if (extentIdx node i).eiBlock ≤ lblock then chooseIdx node size lblock left (i + 1) (some i)
      else some chosen

/-- `extent_find_physical`. -/
def extentFindPhysical (b : Static) (ino : Ext4Inode) (lblock : Nat) :
    Option (Option Nat × Static) :=
  let eh := extentHeader ino.iBlock
  if eh.ehMagic ≠ ext4ExtMagic then some (none, b)
  else if eh.ehDepth = 0 then do
    let pblock ← findExtent ino.iBlock iBlockSize lblock eh.ehEntries 0
    some (pblock, b)
  else if eh.ehDepth = 1 then do
    let chosen ← chooseIdx ino.iBlock iBlockSize lblock eh.ehEntries 0 none
    match chosen with
    | none => some (none, b)
    | some i =>
        let chosen := extentIdx ino.iBlock i
        if chosen.eiLeafHi ≠ 0 then some (none, b)
        else do
          let r ← readBlock d blockSize b .blockBuf chosen.eiLeafLo
          if r.1 then
            let leh := extentHeader r.2.blockBuf
            if leh.ehMagic ≠ ext4ExtMagic ∨ leh.ehDepth ≠ 0 then some (none, r.2)
            else do
              let pblock ← findExtent r.2.blockBuf bufSize lblock leh.ehEntries 0
              some (pblock, r.2)
          else some (none, r.2)
  else some (none, b)

/-- The loop of `inode_read_data` into a buffer of the caller.  A bound that is too small gives
nothing. -/
def readLoop (ino : Ext4Inode) (off remaining : Nat) :
    Nat → Nat → Static → Buf → Option (Nat × Static × Buf)
  | 0, _, _, _ => none
  | turns + 1, done, b, dst =>
      if done < remaining then do
        let pos := u32 (off + done)
        let lblock ← divide pos blockSize
        let boff ← modulo pos blockSize
        let chunk := blockSize - boff
        let chunk := if chunk > remaining - done then remaining - done else chunk
        let r ← extentFindPhysical d blockSize b ino lblock
        match r.1 with
        | none => some (done, r.2, dst)
        | some pblock => do
            let r ← readBlock d blockSize r.2 .blockBuf pblock
            if r.1 then do
              inArray boff chunk bufSize
              readLoop ino off remaining turns (done + chunk) r.2
                (copyBytes dst done r.2.blockBuf boff chunk)
            else some (done, r.2, dst)
      else some (done, b, dst)

/-- `inode_read_data` into a buffer of the caller. -/
def inodeReadData (b : Static) (ino : Ext4Inode) (off : Nat) (buf : Buf) (len : Nat) :
    Option (Int × Static × Buf) :=
  if ino.iSizeHigh ≠ 0 then some (-1, b, buf)
  else
    let fileSize := ino.iSizeLo
    if off ≥ fileSize then some (0, b, buf)
    else do
      let remaining := if u32 (off + len) > fileSize then fileSize - off else len
      let r ← readLoop d blockSize ino off remaining (remaining + 1) 0 b buf
      some (toInt r.1, r.2)

/-- The loop of `inode_read_data` into `block_buf`. -/
def readLoopHere (ino : Ext4Inode) (off remaining : Nat) :
    Nat → Nat → Static → Option (Nat × Static)
  | 0, _, _ => none
  | turns + 1, done, b =>
      if done < remaining then do
        let pos := u32 (off + done)
        let lblock ← divide pos blockSize
        let boff ← modulo pos blockSize
        let chunk := blockSize - boff
        let chunk := if chunk > remaining - done then remaining - done else chunk
        let r ← extentFindPhysical d blockSize b ino lblock
        match r.1 with
        | none => some (done, r.2)
        | some pblock => do
            let r ← readBlock d blockSize r.2 .blockBuf pblock
            if r.1 then do
              inArray boff chunk bufSize
              inArray done chunk bufSize
              readLoopHere ino off remaining turns (done + chunk)
                { r.2 with blockBuf := copyBytes r.2.blockBuf done r.2.blockBuf boff chunk }
            else some (done, r.2)
      else some (done, b)

/-- `inode_read_data` into `block_buf`. -/
def inodeReadHere (b : Static) (ino : Ext4Inode) (off len : Nat) : Option (Int × Static) :=
  if ino.iSizeHigh ≠ 0 then some (-1, b)
  else
    let fileSize := ino.iSizeLo
    if off ≥ fileSize then some (0, b)
    else do
      let remaining := if u32 (off + len) > fileSize then fileSize - off else len
      let r ← readLoopHere d blockSize ino off remaining (remaining + 1) 0 b
      some (toInt r.1, r.2)

/-! ## The mount -/

/-- The loop over the records of a block. -/
def scanBlock (blockBuf : Buf) (n : Nat) : Nat → Nat → Ext4Root → Option Ext4Root
  | 0, _, _ => none
  | turns + 1, p, st =>
      if p + 8 ≤ n then do
        inArray p 8 bufSize
        let de := dirent blockBuf p
        if de.recLen = 0 then some st
        else if de.inode ≠ 0 ∧ de.nameLen > 0 ∧ de.nameLen < ext4NameMax then do
          inArray (p + 8) de.nameLen bufSize
          inArray 0 de.nameLen ext4NameMax
          inArray de.nameLen 1 ext4NameMax
          let name := direntName blockBuf p de.nameLen
          if isDots name then scanBlock blockBuf n turns (p + de.recLen) st
          else do
            inArray st.rootFileCount 1 ext4MaxRootEntries
            inArray 0 (de.nameLen + 1) ext4NameMax
            let st := st.addEntry name de.nameLen de.inode
            if st.rootFileCount ≥ ext4MaxRootEntries then some st
            else scanBlock blockBuf n turns (p + de.recLen) st
        else scanBlock blockBuf n turns (p + de.recLen) st
      else some st

/-- The loop over the blocks of the directory. -/
def scanLoop (root : Ext4Inode) (size : Nat) :
    Nat → Nat → Static → Ext4Root → Option (Static × Ext4Root)
  | 0, _, _, _ => none
  | turns + 1, off, b, st =>
      if off < size ∧ st.rootFileCount < ext4MaxRootEntries then do
        let r ← inodeReadHere d blockSize b root off blockSize
        if r.1 ≤ 0 then some (r.2, st)
        else do
          let st ← scanBlock r.2.blockBuf r.1.toNat (r.1.toNat + 1) 0 st
          scanLoop root size turns (u32 (off + blockSize)) r.2 st
      else some (b, st)

/-- `scan_root_dir`. -/
def scanRootDir (turns : Nat) (b : Static) (st : Ext4Root) : Option (Int × Static × Ext4Root) := do
  let r ← readInode d blockSize sizes b 2
  match r.1 with
  | none => some (-1, r.2, st)
  | some root =>
      if root.iSizeHigh ≠ 0 then some (-1, r.2, st)
      else do
        let r ← scanLoop d blockSize root root.iSizeLo turns 0 r.2 { st with rootFileCount := 0 }
        some (0, r)

/-- `ext4_mount`.  Whether `blk_init` finds the device is up to the machine. -/
def ext4Mount (ready : Bool) (turns : Nat) (v : Reader) : Option (Int × Reader) :=
  if v.root.mounted then some (0, v)
  else if !ready then some (-10, v)
  else do
    inArray 0 sectorSize sbrawSize
    if d.fails 2 then some (-11, v)
    else do
      inArray sectorSize sectorSize sbrawSize
      if d.fails 3 then some (-12, v)
      else do
        inArray 0 352 sbrawSize
        let sb := superblock d.sbraw
        let v := { v with sizes := { v.sizes with sInodesPerGroup := sb.sInodesPerGroup } }
        if le16 d.sbraw 56 ≠ ext4SuperMagic then some (-13, v)
        else do
          let blockSize ← shiftLeft 1024 (le32 d.sbraw 24)
          let v := { v with blockSize := blockSize }
          if blockSize > bufSize then some (-14, v)
          else do
            let v := { v with sizes := mountSizes sb }
            let blocks := le32 d.sbraw 4
            let blocksPerGroup := le32 d.sbraw 32
            let groups ← divide (u32 (blocks + blocksPerGroup + (2 ^ 32 - 1))) blocksPerGroup
            if groups = 0 then some (-15, v)
            else do
              let r ← scanRootDir d blockSize v.sizes turns v.bufs v.root
              if r.1 < 0 then some (-16, { v with bufs := r.2.1, root := r.2.2 })
              else some (0, { v with bufs := r.2.1, root := { r.2.2 with mounted := true } })

/-! ## The other calls -/

/-- `str_eq` of a name in `root_files` and a string, from place `i` on. -/
def nameEq (name arg : Buf) : Nat → Nat → Option Bool
  | 0, _ => none
  | turns + 1, i => do
      inArray i 1 ext4NameMax
      if name i ≠ 0 ∧ arg i ≠ 0 then
        if name i ≠ arg i then some false else nameEq name arg turns (i + 1)
      else some (name i = 0 && arg i = 0)

/-- The loop of `ext4_lookup`, with as many entries left; `none` within is its `-1`. -/
def lookupLoop (st : Ext4Root) (name : Buf) : Nat → Nat → Option (Option Nat)
  | 0, _ => some none
  | left + 1, i => do
      inArray i 1 ext4MaxRootEntries
      let same ← nameEq (st.rootFiles i).name name (ext4NameMax + 1) 0
      if same then some (some i) else lookupLoop st name left (i + 1)

/-- `ext4_lookup`. -/
def ext4Lookup (st : Ext4Root) (name : Buf) : Option (Option Nat) :=
  if st.mounted then lookupLoop st name st.rootFileCount 0 else some none

/-- `str_len` of a name in `root_files`, from place `n` on. -/
def nameLen (name : Buf) : Nat → Nat → Option Nat
  | 0, _ => none
  | turns + 1, n => do
      inArray n 1 ext4NameMax
      if name n ≠ 0 then nameLen name turns (n + 1) else some n

/-- The loop of `ext4_listdir`, with as many entries left. -/
def listLoop (st : Ext4Root) (len : Nat) : Nat → Nat → Nat → Buf → Option (Nat × Buf)
  | 0, _, out, buf => some (out, buf)
  | left + 1, i, out, buf => do
      inArray i 1 ext4MaxRootEntries
      let n ← nameLen (st.rootFiles i).name (ext4NameMax + 1) 0
      if u32 (out + n + 1) ≥ len then some (out, buf)
      else do
        inArray 0 n ext4NameMax
        let buf := copyBytes buf out (st.rootFiles i).name 0 n
        listLoop st len left (i + 1) (out + n + 1) (Function.update buf (out + n) 10)

/-- `ext4_listdir`; no buffer is `none`. -/
def ext4Listdir (st : Ext4Root) (buf : Option Buf) (len : Nat) : Option (Int × Option Buf) :=
  match buf with
  | none => some (-1, none)
  | some buf =>
      if !st.mounted || len = 0 then some (-1, some buf)
      else do
        let r ← listLoop st len st.rootFileCount 0 0 buf
        some (toInt r.1, some (if r.1 < len then Function.update r.2 r.1 0 else r.2))

/-- `ext4_read_file`. -/
def ext4ReadFile (v : Reader) (c : ReadFile) : Option (Int × Static × Buf) :=
  if ¬ v.root.mounted ∨ c.fileIndex < 0 ∨ (v.root.rootFileCount : Int) ≤ c.fileIndex then
    some (-1, v.bufs, c.buf)
  else do
    inArray c.fileIndex.toNat 1 ext4MaxRootEntries
    let r ← readInode d v.blockSize v.sizes v.bufs (v.root.rootFiles c.fileIndex.toNat).inode
    match r.1 with
    | none => some (-1, r.2, c.buf)
    | some ino => inodeReadData d v.blockSize r.2 ino c.offset.toNat c.buf c.len.toNat

end Checked

/-! ## Runs -/

/-- A call of the reader. -/
inductive Ext4Call
  | mount (ready : Bool)
  | lookup (name : Buf)
  | listdir (buf : Option Buf) (len : UInt32)
  | readFile (c : ReadFile)

/-- What a call leaves, if it comes to its end.  The bound is on the turns of the scan. -/
def Ext4Call.run (d : Disk) (turns : Nat) (v : Reader) : Ext4Call → Option Reader
  | .mount ready => (Checked.ext4Mount d ready turns v).map fun r => r.2
  | .lookup name => (Checked.ext4Lookup v.root name).map fun _ => v
  | .listdir buf len => (Checked.ext4Listdir v.root buf len.toNat).map fun _ => v
  | .readFile c => (Checked.ext4ReadFile d v c).map fun r => { v with bufs := r.2.1 }

/-- What some calls leave. -/
def Disk.after (d : Disk) (turns : Nat) (calls : List Ext4Call) : Option Reader :=
  calls.foldlM (fun v (c : Ext4Call) => c.run d turns v) Reader.zero

/-- Every run of calls comes to its end, without a division by zero, a shift by 32 or more or an
access outside of an array. -/
def Disk.Safe (d : Disk) : Prop := ∀ calls, ∃ turns, (d.after turns calls).isSome = true

end Sugimotos.Fs
