/-
# Reading files side by side

`ext4_read_file` as processes run it.  All that it reads on the way goes through `block_buf`,
`block_buf2` and `inode_buf`, of which there is one each, and whenever `blk_read` waits for the
device another process may run and call `ext4_read_file` as well.
-/

import Sugimotos.Fs.InodeTable
import Sugimotos.Fs.RootDir
import Sugimotos.Math.Suspend

namespace Sugimotos.Fs

open Sugimotos.Lib Sugimotos.Math Sugimotos.Mm

/-! ## The buffers -/

/-- The static buffers of `fs/ext4.c`. -/
structure Static where
  blockBuf : Buf
  blockBuf2 : Buf
  inodeBuf : Buf

/-- The buffers that `read_block` reads into. -/
inductive Target
  | blockBuf
  | blockBuf2

def Static.get (b : Static) : Target → Buf
  | .blockBuf => b.blockBuf
  | .blockBuf2 => b.blockBuf2

def Static.put (b : Static) (target : Target) (buf : Buf) : Static :=
  match target with
  | .blockBuf => { b with blockBuf := buf }
  | .blockBuf2 => { b with blockBuf2 := buf }

/-- `blk_read(sector, buf + at)`. -/
structure SectorRead where
  sector : Nat
  target : Target
  at' : Nat

/-- What the device does with a request: it writes the sector to the buffer, and the call
succeeds, or it fails. -/
def Ext4.serve (fs : Ext4) (q : SectorRead) (b : Static) : Bool × Static :=
  match fs.blkRead q.sector with
  | none => (false, b)
  | some bytes => (true, b.put q.target (copyBytes (b.get q.target) q.at' bytes 0 sectorSize))

abbrev DiskProg (α : Type) : Type := Prog Static SectorRead α

namespace DiskProg

/-- The buffers as they are. -/
def look : DiskProg Static := Prog.look .ret

def blkRead (sector : Nat) (target : Target) (at' : Nat) : DiskProg Bool :=
  Prog.ask ⟨sector, target, at'⟩ .ret

def setInodeBuf (f : Static → Buf) : DiskProg Unit :=
  Prog.store (fun b => { b with inodeBuf := f b }) (.ret ())

/-! ## The code -/

/-- The loop of `read_block`, with `left` turns left. -/
def readSectors (firstSector : Nat) (target : Target) : Nat → Nat → DiskProg Bool
  | 0, _ => pure true
  | left + 1, i => do
      if ← blkRead (u32 (firstSector + i)) target (i * sectorSize) then
        readSectors firstSector target left (i + 1)
      else pure false

def readBlock (blockSize block : Nat) (target : Target) : DiskProg Bool :=
  let sectors := blockSize / sectorSize
  readSectors (u32 (block * sectors)) target sectors 0

variable (blockSize : Nat) (sizes : Ext4Sizes) (behind : Static → Nat → UInt8)

/-- `load_group_desc`.  The bytes behind `block_buf` are whatever lies there. -/
def loadGroupDesc (group : Nat) : DiskProg (Option Ext4GroupDesc) := do
  let gdTableBlock := if blockSize = 1024 then 2 else 1
  let gdsPerBlock := blockSize / sizes.descSize
  let block := u32 (gdTableBlock + group / gdsPerBlock)
  let indexInBlock := group % gdsPerBlock
  if ← readBlock blockSize block .blockBuf then
    let b ← look
    pure (some (groupDesc fun n =>
      fromBlockBuf b.blockBuf (behind b) (indexInBlock * sizes.descSize + n)))
  else pure none

/-- `read_inode`. -/
def readInode (inum : Nat) : DiskProg (Option Ext4Inode) :=
  if inum = 0 then pure none
  else do
    let idx := inum - 1
    let group := idx / sizes.sInodesPerGroup
    let local' := idx % sizes.sInodesPerGroup
    match ← loadGroupDesc blockSize sizes behind group with
    | none => pure none
    | some gd =>
        if gd.bgInodeTableHi ≠ 0 then pure none
        else
          let inodeOff := u32 (local' * sizes.inodeSize)
          let block := u32 (gd.bgInodeTableLo + inodeOff / blockSize)
          let offInBlock := inodeOff % blockSize
          if ← readBlock blockSize block .blockBuf then
            if u32 (offInBlock + sizes.inodeSize) ≤ blockSize then
              setInodeBuf fun b => copyBytes b.inodeBuf 0 b.blockBuf offInBlock sizes.inodeSize
              let b ← look
              pure (some (inodeOf b.inodeBuf))
            else
              let first := blockSize - offInBlock
              setInodeBuf fun b => copyBytes b.inodeBuf 0 b.blockBuf offInBlock first
              if ← readBlock blockSize (u32 (block + 1)) .blockBuf2 then
                setInodeBuf fun b =>
                  copyBytes b.inodeBuf first b.blockBuf2 0 (sizes.inodeSize - first)
                let b ← look
                pure (some (inodeOf b.inodeBuf))
              else pure none
          else pure none

/-- `extent_find_physical`. -/
def extentFindPhysical (ino : Ext4Inode) (lblock : Nat) : DiskProg (Option Nat) :=
  let eh := extentHeader ino.iBlock
  if eh.ehMagic ≠ ext4ExtMagic then pure none
  else if eh.ehDepth = 0 then pure (findExtent ino.iBlock eh.ehEntries lblock)
  else if eh.ehDepth = 1 then
    match chooseIdx ino.iBlock eh.ehEntries lblock with
    | none => pure none
    | some i =>
        let chosen := extentIdx ino.iBlock i
        if chosen.eiLeafHi ≠ 0 then pure none
        else do
          if ← readBlock blockSize chosen.eiLeafLo .blockBuf then
            let b ← look
            let leh := extentHeader b.blockBuf
            if leh.ehMagic ≠ ext4ExtMagic ∨ leh.ehDepth ≠ 0 then pure none
            else pure (findExtent b.blockBuf leh.ehEntries lblock)
          else pure none
  else pure none

/-- The loop of `inode_read_data`. -/
def readLoop (ino : Ext4Inode) (off remaining : Nat) : Nat → Nat → Buf → DiskProg (Nat × Buf)
  | 0, done, dst => pure (done, dst)
  | turns + 1, done, dst =>
      if done < remaining then do
        let pos := u32 (off + done)
        let lblock := pos / blockSize
        let boff := pos % blockSize
        let chunk := blockSize - boff
        let chunk := if chunk > remaining - done then remaining - done else chunk
        match ← extentFindPhysical blockSize ino lblock with
        | none => pure (done, dst)
        | some pblock =>
            if ← readBlock blockSize pblock .blockBuf then
              let b ← look
              readLoop ino off remaining turns (done + chunk)
                (copyBytes dst done b.blockBuf boff chunk)
            else pure (done, dst)
      else pure (done, dst)

/-- `inode_read_data` into a buffer of the caller. -/
def inodeReadData (ino : Ext4Inode) (off : Nat) (buf : Buf) (len : Nat) : DiskProg (Int × Buf) :=
  if ino.iSizeHigh ≠ 0 then pure (-1, buf)
  else
    let fileSize := ino.iSizeLo
    if off ≥ fileSize then pure (0, buf)
    else do
      let remaining := if u32 (off + len) > fileSize then fileSize - off else len
      let (done, buf) ← readLoop blockSize ino off remaining remaining 0 buf
      pure (toInt done, buf)

end DiskProg

/-- The arguments of `ext4_read_file`; `buf` is what the buffer holds. -/
structure ReadFile where
  fileIndex : Int
  offset : UInt32
  buf : Buf
  len : UInt32

/-- `ext4_read_file`: what it returns, and what it leaves in the buffer. -/
def ext4ReadFile (blockSize : Nat) (sizes : Ext4Sizes) (behind : Static → Nat → UInt8)
    (root : Ext4Root) (c : ReadFile) : DiskProg (Int × Buf) :=
  if ¬ root.mounted ∨ c.fileIndex < 0 ∨ (root.rootFileCount : Int) ≤ c.fileIndex then
    pure (-1, c.buf)
  else do
    match ← DiskProg.readInode blockSize sizes behind (root.rootFiles c.fileIndex.toNat).inode with
    | none => pure (-1, c.buf)
    | some ino => DiskProg.inodeReadData blockSize ino c.offset.toNat c.buf c.len.toNat

/-! ## Alone -/

section Alone

variable {fs : Ext4}

theorem Static.get_put (b : Static) (target : Target) (buf : Buf) :
    (b.put target buf).get target = buf := by
  cases target <;> rfl

theorem Static.put_put (b : Static) (target : Target) (buf buf' : Buf) :
    (b.put target buf).put target buf' = b.put target buf' := by
  cases target <;> rfl

theorem Static.put_get (b : Static) (target : Target) : b.put target (b.get target) = b := by
  cases target <;> rfl

/-- A sector that cannot be read ends the loop. -/
theorem readSectorsTo_failed {first i : Nat} {buf : Buf}
    (h : (fs.readSectorsTo first buf i).1 = false) (left : Nat) :
    fs.readSectorsTo first buf (i + left) = fs.readSectorsTo first buf i := by
  induction left with
  | zero => rfl
  | succ left ih =>
      rw [← Nat.add_assoc, Ext4.readSectorsTo, ih]
      generalize fs.readSectorsTo first buf i = out at h
      obtain ⟨ok, buf'⟩ := out
      cases h
      rfl

/-- The loop of `read_block`, from turn `i` on. -/
theorem run_readSectors (first : Nat) (target : Target) (b : Static) (left i : Nat)
    (h : (fs.readSectorsTo first (b.get target) i).1 = true) :
    (DiskProg.readSectors first target left i).run fs.serve
        (b.put target (fs.readSectorsTo first (b.get target) i).2) =
      ((fs.readSectorsTo first (b.get target) (i + left)).1,
        b.put target (fs.readSectorsTo first (b.get target) (i + left)).2) := by
  induction left generalizing i with
  | zero =>
      show (true, _) = _
      rw [Nat.add_zero, h]
  | succ left ih =>
      have hturn : fs.readSectorsTo first (b.get target) (i + 1) =
          match fs.blkRead (u32 (first + i)) with
          | none => (false, (fs.readSectorsTo first (b.get target) i).2)
          | some bytes => (true, copyBytes (fs.readSectorsTo first (b.get target) i).2
              (i * sectorSize) bytes 0 sectorSize) := by
        rw [Ext4.readSectorsTo]
        generalize fs.readSectorsTo first (b.get target) i = out at h
        obtain ⟨ok, buf⟩ := out
        cases h
        rfl
      have hserve : fs.serve ⟨u32 (first + i), target, i * sectorSize⟩
          (b.put target (fs.readSectorsTo first (b.get target) i).2) =
            ((fs.readSectorsTo first (b.get target) (i + 1)).1,
              b.put target (fs.readSectorsTo first (b.get target) (i + 1)).2) := by
        unfold Ext4.serve
        rw [hturn]
        cases fs.blkRead (u32 (first + i)) with
        | none => rfl
        | some bytes =>
            dsimp only
            rw [Static.get_put, Static.put_put]
      unfold DiskProg.readSectors
      rw [Prog.run_bind]
      show (if (fs.serve _ _).1 = true then _ else _ : DiskProg Bool).run fs.serve (fs.serve _ _).2 = _
      rw [hserve]
      dsimp only
      rw [← Nat.add_assoc, Nat.add_right_comm]
      cases hok : (fs.readSectorsTo first (b.get target) (i + 1)).1 with
      | true =>
          rw [if_pos rfl]
          exact ih (i + 1) hok
      | false =>
          rw [if_neg Bool.false_ne_true, readSectorsTo_failed hok, hok]
          rfl

/-- `read_block` leaves in its buffer what it does where no one else runs. -/
theorem run_readBlock (block : Nat) (target : Target) (b : Static) :
    (DiskProg.readBlock fs.blockSize block target).run fs.serve b =
      ((fs.readBlockTo (b.get target) block).1, b.put target (fs.readBlockTo (b.get target) block).2) := by
  have hrun := @run_readSectors fs (u32 (block * (fs.blockSize / sectorSize))) target b
    (fs.blockSize / sectorSize) 0 rfl
  rw [Nat.zero_add] at hrun
  have hstart : (fs.readSectorsTo (u32 (block * (fs.blockSize / sectorSize))) (b.get target) 0).2 =
      b.get target := rfl
  rw [hstart, Static.put_get] at hrun
  exact hrun

theorem run_extentFindPhysical (ino : Ext4Inode) (lblock : Nat) (b : Static) :
    (DiskProg.extentFindPhysical fs.blockSize ino lblock).run fs.serve b =
      ((fs.extentFindHere b.blockBuf ino lblock).1,
        b.put .blockBuf (fs.extentFindHere b.blockBuf ino lblock).2) := by
  have hself : b.put .blockBuf b.blockBuf = b := b.put_get .blockBuf
  unfold DiskProg.extentFindPhysical Ext4.extentFindHere
  dsimp only
  have hstay : ∀ r : Option Nat,
      (pure r : DiskProg (Option Nat)).run fs.serve b = (r, b.put .blockBuf b.blockBuf) :=
    fun r => congrArg (Prod.mk r) hself.symm
  by_cases hmagic : (extentHeader ino.iBlock).ehMagic ≠ ext4ExtMagic
  · simp only [if_pos hmagic]
    exact hstay none
  simp only [if_neg hmagic]
  by_cases hleaf : (extentHeader ino.iBlock).ehDepth = 0
  · simp only [if_pos hleaf]
    exact hstay _
  simp only [if_neg hleaf]
  by_cases hroot : (extentHeader ino.iBlock).ehDepth = 1
  case neg =>
    simp only [if_neg hroot]
    exact hstay none
  simp only [if_pos hroot]
  cases chooseIdx ino.iBlock (extentHeader ino.iBlock).ehEntries lblock with
  | none => exact hstay none
  | some i =>
      dsimp only
      by_cases hhi : (extentIdx ino.iBlock i).eiLeafHi ≠ 0
      · simp only [if_pos hhi]
        exact hstay none
      simp only [if_neg hhi]
      rw [Prog.run_bind, run_readBlock]
      show (if (fs.readBlockTo b.blockBuf _).1 = true then _ else _ : DiskProg (Option Nat)).run _
        (b.put .blockBuf (fs.readBlockTo b.blockBuf _).2) = _
      generalize fs.readBlockTo b.blockBuf _ = out
      obtain ⟨ok, buf⟩ := out
      cases ok with
      | false => rfl
      | true =>
          dsimp only
          rw [if_pos rfl]
          show (if (extentHeader buf).ehMagic ≠ ext4ExtMagic ∨ (extentHeader buf).ehDepth ≠ 0 then
            pure none else pure (findExtent buf (extentHeader buf).ehEntries lblock) :
              DiskProg (Option Nat)).run fs.serve (b.put .blockBuf buf) = _
          by_cases hbad : (extentHeader buf).ehMagic ≠ ext4ExtMagic ∨ (extentHeader buf).ehDepth ≠ 0
          · simp only [if_pos hbad]
            rfl
          · simp only [if_neg hbad]
            rfl

/-- A block that cannot be read cannot be read into any buffer. -/
theorem readSectorsTo_of_none {first : Nat} {fresh : Buf} {i : Nat}
    (h : fs.readSectors first fresh i = none) (buf : Buf) :
    (fs.readSectorsTo first buf i).1 = false := by
  induction i with
  | zero => cases h
  | succ i ih =>
      unfold Ext4.readSectors at h
      unfold Ext4.readSectorsTo
      cases hprev : fs.readSectors first fresh i with
      | none =>
          have hfalse := ih hprev
          generalize fs.readSectorsTo first buf i = out at hfalse
          obtain ⟨ok, buf'⟩ := out
          cases hfalse
          rfl
      | some prev =>
          rw [hprev] at h
          have hbytes : fs.blkRead (u32 (first + i)) = none := Option.map_eq_none_iff.mp h
          rw [hbytes]
          generalize fs.readSectorsTo first buf i = out
          obtain ⟨ok, buf'⟩ := out
          cases ok <;> rfl

/-- The loop of `inode_read_data` reads what it reads with a buffer of its own, whatever the
buffers hold. -/
theorem run_readLoop {ino : Ext4Inode} (htree : fs.TreeOk ino) (off remaining : Nat)
    (turns done : Nat) (dst : Buf) (b : Static) :
    ((DiskProg.readLoop fs.blockSize ino off remaining turns done dst).run fs.serve b).1 =
      fs.readLoop ino off remaining turns done dst := by
  induction turns generalizing done dst b with
  | zero => rfl
  | succ turns ih =>
      unfold DiskProg.readLoop Ext4.readLoop
      dsimp only
      by_cases hmore : done < remaining
      case neg =>
        rw [if_neg hmore, if_neg hmore]
        rfl
      rw [if_pos hmore, if_pos hmore, Prog.run_bind, run_extentFindPhysical]
      dsimp only
      rw [extentFindHere_eq htree]
      cases fs.extentFindPhysical ino (u32 (off + done) / fs.blockSize) with
      | none => rfl
      | some pblock =>
          dsimp only
          rw [Prog.run_bind, run_readBlock]
          generalize b.put .blockBuf _ = b'
          cases hread : fs.readBlock pblock with
          | none =>
              have hfailed : (fs.readBlockTo (b'.get .blockBuf) pblock).1 = false :=
                readSectorsTo_of_none hread _
              rw [hfailed]
              rfl
          | some block =>
              obtain ⟨out, hout, hsame⟩ := readBlockTo_of_some hread (b'.get .blockBuf)
              rw [hout]
              dsimp only
              rw [if_pos rfl]
              refine (ih _ _ (b'.put .blockBuf out)).trans ?_
              -- A turn copies nothing from behind the block.
              have hcopy : ∀ chunk, chunk ≤ fs.blockSize - u32 (off + done) % fs.blockSize →
                  copyBytes dst done out (u32 (off + done) % fs.blockSize) chunk =
                    copyBytes dst done block (u32 (off + done) % fs.blockSize) chunk := by
                intro chunk hchunk
                funext m
                unfold copyBytes
                by_cases hm : done ≤ m ∧ m < done + chunk
                · rw [if_pos hm, if_pos hm, hsame _ (by omega)]
                · rw [if_neg hm, if_neg hm]
              exact congrArg (fs.readLoop ino off remaining turns _) (hcopy _ (by split <;> omega))

/-- Alone, and on a tree that is in order, `inode_read_data` returns what it does with a buffer
of its own. -/
theorem run_inodeReadData {ino : Ext4Inode} (htree : fs.TreeOk ino) (off : Nat) (buf : Buf)
    (len : Nat) (b : Static) :
    ((DiskProg.inodeReadData fs.blockSize ino off buf len).run fs.serve b).1 =
      fs.inodeReadData ino off buf len := by
  unfold DiskProg.inodeReadData Ext4.inodeReadData
  dsimp only
  by_cases hhigh : ino.iSizeHigh ≠ 0
  · rw [if_pos hhigh, if_pos hhigh]
    rfl
  rw [if_neg hhigh, if_neg hhigh]
  by_cases hoff : off ≥ ino.iSizeLo
  · rw [if_pos hoff, if_pos hoff]
    rfl
  rw [if_neg hoff, if_neg hoff, Prog.run_bind]
  have hloop := run_readLoop htree off
    (if u32 (off + len) > ino.iSizeLo then ino.iSizeLo - off else len)
    (if u32 (off + len) > ino.iSizeLo then ino.iSizeLo - off else len) 0 buf b
  generalize DiskProg.readLoop fs.blockSize ino off _ _ 0 buf = p at hloop ⊢
  rw [← hloop]
  rfl

end Alone

/-! ## Side by side -/

/-- Processes that call `ext4_read_file`, and the calls that have returned. -/
abbrev Readers (ι : Type) : Type := Sharing ι Static SectorRead (Int × Buf) ReadFile

/-- A call that returns `-1` before it reads anything. -/
def refuses (root : Ext4Root) (c : ReadFile) : Bool :=
  !root.mounted || decide (c.fileIndex < 0) || decide ((root.rootFileCount : Int) ≤ c.fileIndex) ||
    (root.rootFiles c.fileIndex.toNat).inode == 0

theorem ext4ReadFile_refused {blockSize : Nat} {sizes : Ext4Sizes} {behind : Static → Nat → UInt8}
    {root : Ext4Root} (c : ReadFile) (h : refuses root c = true) :
    ∃ a, ext4ReadFile blockSize sizes behind root c = .ret a := by
  refine ⟨(-1, c.buf), ?_⟩
  unfold ext4ReadFile
  by_cases hindex : ¬ root.mounted ∨ c.fileIndex < 0 ∨ (root.rootFileCount : Int) ≤ c.fileIndex
  · rw [if_pos hindex]
    rfl
  · have hinode : (root.rootFiles c.fileIndex.toNat).inode = 0 := by
      simp only [refuses, Bool.or_eq_true, decide_eq_true_eq, beq_iff_eq, Bool.not_eq_true'] at h
      rcases h with ((h | h) | h) | h
      · exact absurd (.inl (by rw [h]; exact Bool.false_ne_true)) hindex
      · exact absurd (.inr (.inl h)) hindex
      · exact absurd (.inr (.inr h)) hindex
      · exact h
    rw [if_neg hindex, hinode]
    rfl

/-- The runs in which no call that reads the disk begins while another one is under way. -/
abbrev ReadOneByOne {ι : Type} [DecidableEq ι] (fs : Ext4) (sizes : Ext4Sizes)
    (behind : Static → Nat → UInt8) (root : Ext4Root) : Readers ι → Prop :=
  OneByOne (ext4ReadFile fs.blockSize sizes behind root) fs.serve (refuses root)

/-- An inode of one block. -/
def oneBlockInode (size : UInt16) (block : UInt8) (n : Nat) : UInt8 :=
  if n = 4 then size.toUInt8
  else if n = 5 then (size >>> 8).toUInt8
  else if n < 40 then 0
  else [0x0a, 0xf3, 1, 0, 4, 0, 0, 0, 0, 0, 0, 0, 0, 0, 0, 0, 1, 0, 0, 0, block].getD (n - 40) 0

/-- A disk with the files `a` and `b`, of one byte each: the superblock, the group descriptor,
the inodes of the root directory and of the files, the directory and the blocks of the files. -/
def twoFilesByte (sector n : Nat) : UInt8 :=
  if sector = 2 then
    if n = 5 then 4
    else if n = 33 then 32
    else if n = 40 then 16
    else if n = 56 then 0x53
    else if n = 57 then 0xef
    else if n = 88 then 128
    else 0
  else if sector = 4 then if n = 8 then 5 else 0
  else if sector = 10 then
    if n < 128 then 0
    else if n < 256 then oneBlockInode 1024 99 (n - 128) else 0
  else if sector = 12 then if n < 384 then 0 else oneBlockInode 1 100 (n - 384)
  else if sector = 13 then if n < 128 then oneBlockInode 1 150 n else 0
  else if sector = 198 then
    [2, 0, 0, 0, 12, 0, 1, 2, 46, 0, 0, 0, 2, 0, 0, 0, 12, 0, 2, 2, 46, 46, 0, 0,
      12, 0, 0, 0, 12, 0, 1, 1, 97, 0, 0, 0, 13, 0, 0, 0, 0xdc, 3, 1, 1, 98].getD n 0
  else if sector = 200 then if n = 0 then 65 else 0
  else if sector = 300 then if n = 0 then 66 else 0
  else 0

def twoFiles : Ext4 := ⟨1024, smallBlock_known, twoFilesByte, fun _ => false⟩

def twoFilesSizes : Ext4Sizes := mountSizes (superblock twoFiles.sbraw)

/-- What `scan_root_dir` finds on it. -/
def twoFilesRoot : Ext4Root where
  mounted := true
  rootFiles i := if i = 0 then ⟨fun n => if n = 0 then 97 else 0, 12⟩ else
    ⟨fun n => if n = 0 then 98 else 0, 13⟩
  rootFileCount := 2

example :
    (twoFiles.scanRootDir twoFilesSizes 8 (fun _ => 0) ⟨false, fun _ => ⟨fun _ => 0, 0⟩, 0⟩).map
      (fun r => (r.1, r.2.rootFileCount, (List.range 2).map fun i =>
        ((r.2.rootFiles i).name 0, (r.2.rootFiles i).name 1, (r.2.rootFiles i).inode))) =
      some (0, 2, [(97, 0, 12), (98, 0, 13)]) := by decide +kernel

/-- `ext4_read_file` on that disk. -/
def twoFilesRead : ReadFile → DiskProg (Int × Buf) :=
  ext4ReadFile twoFiles.blockSize twoFilesSizes (fun _ _ => 0) twoFilesRoot

/-- The first byte of a file. -/
def firstByte (fileIndex : Int) : ReadFile := ⟨fileIndex, 0, fun _ => 7, 1⟩

/-- A process waits, is answered and goes on, as often. -/
def waits (i : Bool) (n : Nat) : List (Turn Bool ReadFile) :=
  (List.replicate n [.answer i, .resume i]).flatten

/-- What the calls have returned, and the first byte they have left in the buffer. -/
def readsDone (t : Readers Bool) : List (Int × UInt8) :=
  t.finished.map fun d => (d.result.1, d.result.2 0)

/-- What they return alone. -/
def readsAlone (t : Readers Bool) : List (Int × UInt8) :=
  t.finished.map fun d =>
    let r := ((twoFilesRead d.call).run twoFiles.serve d.before).1
    (r.1, r.2 0)

def blank : Static := ⟨fun _ => 0, fun _ => 0, fun _ => 0⟩

/-- The second process begins while the first one waits for the last sector of its file. -/
def crossedReads : Readers Bool :=
  Sharing.turns twoFilesRead twoFiles.serve
    ([.call false (firstByte 0)] ++ waits false 5 ++ [.call true (firstByte 1), .answer true] ++
      waits false 1) (.start blank)

/-- The second process begins when the first one has returned, and what it asks for in between
is refused. -/
def readsInTurn : Readers Bool :=
  Sharing.turns twoFilesRead twoFiles.serve
    ([.call false (firstByte 0)] ++ waits false 5 ++ [.call true (firstByte 2)] ++ waits false 1 ++
      [.call true (firstByte 1)] ++ waits true 6) (.start blank)

end Sugimotos.Fs
