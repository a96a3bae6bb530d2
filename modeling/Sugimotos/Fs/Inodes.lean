/-
# Finding an inode

Model of `load_group_desc` and `read_inode` in `fs/ext4.c`.  The structure of a group
descriptor has 44 bytes; a descriptor of 32 bytes is read with part of the one behind it.
-/

import Sugimotos.Fs.Ext4

namespace Sugimotos.Fs

open Sugimotos.Mm

/-- The variables that `ext4_mount` sets for finding inodes. -/
structure Ext4Sizes where
  sInodesPerGroup : Nat
  inodeSize : Nat
  descSize : Nat

/-- The fields of `struct ext4_group_desc` that finding an inode needs. -/
structure Ext4GroupDesc where
  bgInodeTableLo : Nat
  bgInodeTableHi : Nat

def groupDesc (bytes : Nat → UInt8) : Ext4GroupDesc where
  bgInodeTableLo := le32 bytes 8
  bgInodeTableHi := le32 bytes 40

def inodeOf (bytes : Nat → UInt8) : Ext4Inode where
  iSizeLo := le32 bytes 4
  iBlock := fun n => bytes (40 + n)
  iSizeHigh := le32 bytes 108

/-- `load_group_desc`. -/
def Ext4.loadGroupDesc (fs : Ext4) (sizes : Ext4Sizes) (group : Nat) : Option Ext4GroupDesc :=
  let gdTableBlock := if fs.blockSize = 1024 then 2 else 1
  let gdsPerBlock := fs.blockSize / sizes.descSize
  let block := u32 (gdTableBlock + group / gdsPerBlock)
  let indexInBlock := group % gdsPerBlock
  (fs.readBlock block).map fun blockBuf =>
    groupDesc fun n => blockBuf (indexInBlock * sizes.descSize + n)

/-- `read_inode`: the inode, or `none` for `-1`. -/
def Ext4.readInode (fs : Ext4) (sizes : Ext4Sizes) (inum : Nat) : Option Ext4Inode :=
  if inum = 0 then none
  else
    let idx := inum - 1
    let group := idx / sizes.sInodesPerGroup
    let local' := idx % sizes.sInodesPerGroup
    match fs.loadGroupDesc sizes group with
    | none => none
    | some gd =>
        if gd.bgInodeTableHi ≠ 0 then none
        else
          let inodeOff := u32 (local' * sizes.inodeSize)
          let block := u32 (gd.bgInodeTableLo + inodeOff / fs.blockSize)
          let offInBlock := inodeOff % fs.blockSize
          match fs.readBlock block with
          | none => none
          | some blockBuf =>
              if u32 (offInBlock + sizes.inodeSize) ≤ fs.blockSize then
                some (inodeOf fun n => blockBuf (offInBlock + n))
              else
                let first := fs.blockSize - offInBlock
                (fs.readBlock (u32 (block + 1))).map fun blockBuf2 =>
                  inodeOf fun n => if n < first then blockBuf (offInBlock + n) else blockBuf2 (n - first)

end Sugimotos.Fs
