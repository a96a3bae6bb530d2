/-
# The ext4 reader

Model of the reading part of `fs/ext4.c`.  A structure of the disk is read out of the
bytes it lies in.  The disk has any number of sectors; `blk_read` takes a `uint32_t`.
All numbers are `uint32_t`.
-/

import Sugimotos.Mm.Layout
import Mathlib.Data.List.Basic

namespace Sugimotos.Fs

open Sugimotos.Mm

abbrev ext4ExtMagic : Nat := 0xf30a
abbrev sectorSize : Nat := 512

/-- A mounted file system, whose superblock passed the check of its block size. -/
structure Ext4 where
  blockSize : Nat
  known : blockSize = 1024 ∨ blockSize = 2048 ∨ blockSize = 4096
  disk : Nat → Nat → UInt8
  fails : Nat → Bool

theorem smallBlock_known : 1024 = 1024 ∨ 1024 = 2048 ∨ 1024 = 4096 := Or.inl rfl

/-- `blk_read`: the bytes of a sector, or `none` for `-1`. -/
def Ext4.blkRead (fs : Ext4) (sector : Nat) : Option (Nat → UInt8) :=
  if fs.fails sector then none else some (fs.disk sector)

/-- `memcpy(dst + at, src + from, n)`. -/
def copyBytes (dst : Nat → UInt8) (at' : Nat) (src : Nat → UInt8) (from' n : Nat) : Nat → UInt8 :=
  fun m => if at' ≤ m ∧ m < at' + n then src (from' + (m - at')) else dst m

/-- The first `i` turns of the loop of `read_block`. -/
def Ext4.readSectors (fs : Ext4) (firstSector : Nat) (buf : Nat → UInt8) : Nat → Option (Nat → UInt8)
  | 0 => some buf
  | i + 1 =>
      (fs.readSectors firstSector buf i).bind fun buf =>
        (fs.blkRead (u32 (firstSector + i))).map fun bytes =>
          copyBytes buf (i * sectorSize) bytes 0 sectorSize

/-- `read_block` into a buffer of zeros. -/
def Ext4.readBlock (fs : Ext4) (block : Nat) : Option (Nat → UInt8) :=
  let sectors := fs.blockSize / sectorSize
  fs.readSectors (u32 (block * sectors)) (fun _ => 0) sectors

/-! ## Structures of the disk -/

def le16 (bytes : Nat → UInt8) (n : Nat) : Nat := (bytes n).toNat + (bytes (n + 1)).toNat * 256

def le32 (bytes : Nat → UInt8) (n : Nat) : Nat := le16 bytes n + le16 bytes (n + 2) * 65536

/-- `struct ext4_extent_header`. -/
structure Ext4ExtentHeader where
  ehMagic : Nat
  ehEntries : Nat
  ehMax : Nat
  ehDepth : Nat
  ehGeneration : Nat

/-- `struct ext4_extent_idx`. -/
structure Ext4ExtentIdx where
  eiBlock : Nat
  eiLeafLo : Nat
  eiLeafHi : Nat
  eiUnused : Nat

/-- `struct ext4_extent`. -/
structure Ext4Extent where
  eeBlock : Nat
  eeLen : Nat
  eeStartHi : Nat
  eeStartLo : Nat
  deriving DecidableEq

/-- The header at the start of a node of an extent tree. -/
def extentHeader (node : Nat → UInt8) : Ext4ExtentHeader where
  ehMagic := le16 node 0
  ehEntries := le16 node 2
  ehMax := le16 node 4
  ehDepth := le16 node 6
  ehGeneration := le32 node 8

/-- The index entry `i` of a node. -/
def extentIdx (node : Nat → UInt8) (i : Nat) : Ext4ExtentIdx where
  eiBlock := le32 node (12 + 12 * i)
  eiLeafLo := le32 node (12 + 12 * i + 4)
  eiLeafHi := le16 node (12 + 12 * i + 8)
  eiUnused := le16 node (12 + 12 * i + 10)

/-- The extent `i` of a node. -/
def extent (node : Nat → UInt8) (i : Nat) : Ext4Extent where
  eeBlock := le32 node (12 + 12 * i)
  eeLen := le16 node (12 + 12 * i + 4)
  eeStartHi := le16 node (12 + 12 * i + 6)
  eeStartLo := le32 node (12 + 12 * i + 8)

/-- The fields of `struct ext4_inode` that reading needs. -/
structure Ext4Inode where
  iSizeLo : Nat
  iBlock : Nat → UInt8
  iSizeHigh : Nat

/-! ## Looking up a block -/

/-- Whether the loops of `extent_find_physical` take the extent. -/
def Ext4Extent.takes (ex : Ext4Extent) (lblock : Nat) : Bool :=
  decide (ex.eeBlock ≤ lblock) && decide (lblock < u32 (ex.eeBlock + (ex.eeLen &&& 0x7fff)))

/-- A loop over the extents of a node. -/
def findExtent (node : Nat → UInt8) (entries lblock : Nat) : Option Nat :=
  match (List.range entries).find? fun i => (extent node i).takes lblock with
  | none => none
  | some i =>
      let ex := extent node i
      if ex.eeStartHi ≠ 0 then none else some (u32 (ex.eeStartLo + (lblock - ex.eeBlock)))

/-- The loop over the index entries: the last of the first ones that do not lie behind
the block. -/
def chooseIdx (node : Nat → UInt8) (entries lblock : Nat) : Option Nat :=
  ((List.range entries).takeWhile fun i => decide ((extentIdx node i).eiBlock ≤ lblock)).getLast?

/-- `extent_find_physical`: the block, or `none` for `-1`. -/
def Ext4.extentFindPhysical (fs : Ext4) (ino : Ext4Inode) (lblock : Nat) : Option Nat :=
  let eh := extentHeader ino.iBlock
  if eh.ehMagic ≠ ext4ExtMagic then none
  else if eh.ehDepth = 0 then findExtent ino.iBlock eh.ehEntries lblock
  else if eh.ehDepth = 1 then
    match chooseIdx ino.iBlock eh.ehEntries lblock with
    | none => none
    | some i =>
        let chosen := extentIdx ino.iBlock i
        if chosen.eiLeafHi ≠ 0 then none
        else
          match fs.readBlock chosen.eiLeafLo with
          | none => none
          | some leaf =>
              let leh := extentHeader leaf
              if leh.ehMagic ≠ ext4ExtMagic ∨ leh.ehDepth ≠ 0 then none
              else findExtent leaf leh.ehEntries lblock
  else none

/-! ## Reading a file -/

/-- The value of a `uint32_t` cast to `int`. -/
def toInt (v : Nat) : Int := (v : Int).bmod (2 ^ 32)

/-- The loop of `inode_read_data`, which ends with `done` and the buffer.  Every turn
copies at least one byte, so `remaining` turns are enough. -/
def Ext4.readLoop (fs : Ext4) (ino : Ext4Inode) (off remaining : Nat) :
    Nat → Nat → (Nat → UInt8) → Nat × (Nat → UInt8)
  | 0, done, dst => (done, dst)
  | turns + 1, done, dst =>
      if done < remaining then
        let pos := u32 (off + done)
        let lblock := pos / fs.blockSize
        let boff := pos % fs.blockSize
        let chunk := fs.blockSize - boff
        let chunk := if chunk > remaining - done then remaining - done else chunk
        match fs.extentFindPhysical ino lblock with
        | none => (done, dst)
        | some pblock =>
            match fs.readBlock pblock with
            | none => (done, dst)
            | some block =>
                fs.readLoop ino off remaining turns (done + chunk)
                  (copyBytes dst done block boff chunk)
      else (done, dst)

/-- `inode_read_data`, with what it leaves in `buf`. -/
def Ext4.inodeReadData (fs : Ext4) (ino : Ext4Inode) (off : Nat) (buf : Nat → UInt8) (len : Nat) :
    Int × (Nat → UInt8) :=
  if ino.iSizeHigh ≠ 0 then (-1, buf)
  else
    let fileSize := ino.iSizeLo
    if off ≥ fileSize then (0, buf)
    else
      let remaining := if u32 (off + len) > fileSize then fileSize - off else len
      let r := fs.readLoop ino off remaining remaining 0 buf
      (toInt r.1, r.2)

end Sugimotos.Fs
