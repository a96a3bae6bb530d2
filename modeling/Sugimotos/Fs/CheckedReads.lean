/-
# When the reader stops, file by file

What the bytes of the disk must be like for `read_inode`, `extent_find_physical` and
`inode_read_data` to come to their end, and what they return then: what the reader returns that
checks nothing.
-/

import Sugimotos.Fs.Checked
import Sugimotos.Math.Exact

namespace Sugimotos.Fs

open Sugimotos.Lib Sugimotos.Math Sugimotos.Mm

/-! ## Conditions on the disk -/

/-- The search of a node for a block ends inside its array of `size` bytes: all entries lie
there, or one that lies there is taken. -/
def SearchEnds (node : Buf) (size entries lblock : Nat) : Prop :=
  ∀ i, i < entries → size < 12 + 12 * i + 12 →
    ∃ j, j < i ∧ 12 + 12 * j + 12 ≤ size ∧ (extent node j).takes lblock = true

/-- The choice of an index entry ends inside the array. -/
def ChoiceEnds (node : Buf) (size entries lblock : Nat) : Prop :=
  ∀ i, i < entries → size < 12 + 12 * i + 12 →
    ∃ j, j < i ∧ 12 + 12 * j + 12 ≤ size ∧ lblock < (extentIdx node j).eiBlock

/-- The bytes that lie where the reader looks for a block, and zeros behind them, if all of the
sectors can be read. -/
def Ext4.diskBlock (fs : Ext4) (block : Nat) : Option Buf :=
  if ∀ j, j < fs.blockSize / sectorSize →
      fs.fails (u32 (u32 (block * (fs.blockSize / sectorSize)) + j)) = false then
    some fun n => if n < fs.blockSize then fs.readByte block n else 0
  else none

/-- The index entry that leads to a block: the last of the entries at the start of the node that do
not lie behind it. -/
structure LastIdx (node : Buf) (entries lblock i : Nat) : Prop where
  inside : i < entries
  before : ∀ j, j < i + 1 → (extentIdx node j).eiBlock ≤ lblock
  next : i + 1 < entries → lblock < (extentIdx node (i + 1)).eiBlock

/-- The search for a block of a file ends inside `i_block` and inside `block_buf`. -/
structure Ext4.LookupEnds (fs : Ext4) (ino : Ext4Inode) (lblock : Nat) : Prop where
  root : (extentHeader ino.iBlock).ehMagic = ext4ExtMagic → (extentHeader ino.iBlock).ehDepth = 0 →
    SearchEnds ino.iBlock iBlockSize (extentHeader ino.iBlock).ehEntries lblock
  index : (extentHeader ino.iBlock).ehMagic = ext4ExtMagic → (extentHeader ino.iBlock).ehDepth = 1 →
    ChoiceEnds ino.iBlock iBlockSize (extentHeader ino.iBlock).ehEntries lblock
  leaf : (extentHeader ino.iBlock).ehMagic = ext4ExtMagic → (extentHeader ino.iBlock).ehDepth = 1 →
    ∀ i leaf, LastIdx ino.iBlock (extentHeader ino.iBlock).ehEntries lblock i →
      (extentIdx ino.iBlock i).eiLeafHi = 0 →
      fs.diskBlock (extentIdx ino.iBlock i).eiLeafLo = some leaf →
      (extentHeader leaf).ehMagic = ext4ExtMagic → (extentHeader leaf).ehDepth = 0 →
        SearchEnds leaf bufSize (extentHeader leaf).ehEntries lblock

def Ext4.device (fs : Ext4) : Disk := ⟨fs.disk, fs.fails⟩

/-- Behind a block, and behind an inode, the buffers are as they were at first. -/
structure Ext4.Tails (fs : Ext4) (sizes : Ext4Sizes) (b : Static) : Prop where
  blockBuf : ∀ n, fs.blockSize ≤ n → b.blockBuf n = 0
  blockBuf2 : ∀ n, fs.blockSize ≤ n → b.blockBuf2 n = 0
  inodeBuf : ∀ n, sizes.inodeSize ≤ n → b.inodeBuf n = 0

variable {fs : Ext4} {sizes : Ext4Sizes} {b : Static}

namespace Checked

/-! ## Checks -/

theorem divide_exact (a b : Nat) : Exact (divide a b) (b ≠ 0) (· = a / b) := by
  constructor
  · intro h
    exact ⟨_, if_neg h, rfl⟩
  · intro h
    exact if_pos (not_not.mp h)

theorem divide_eq {a b : Nat} (h : b ≠ 0) : divide a b = some (a / b) := if_neg h

theorem modulo_eq {a b : Nat} (h : b ≠ 0) : modulo a b = some (a % b) := if_neg h

theorem inArray_exact (at' n size : Nat) : Exact (inArray at' n size) (at' + n ≤ size) fun _ => True := by
  constructor
  · intro h
    exact ⟨_, if_pos h, trivial⟩
  · intro h
    exact if_neg h

theorem inArray_eq {at' n size : Nat} (h : at' + n ≤ size) : inArray at' n size = some () := if_pos h

/-! ## A block -/

theorem blockSize_le (fs : Ext4) : fs.blockSize ≤ bufSize := Ext4Image.four_kilobytes fs

theorem blockSize_ne_zero (fs : Ext4) : fs.blockSize ≠ 0 := Nat.ne_of_gt fs.pos.1

/-- The loop of `read_block` stays inside the buffer. -/
theorem readSectors_eq (first : Nat) (buf : Buf) {i : Nat} (hi : i ≤ fs.blockSize / sectorSize) :
    readSectors fs.device first buf i = some (fs.readSectorsTo first buf i) := by
  induction i with
  | zero => rfl
  | succ i ih =>
      have hroom : i * sectorSize + sectorSize ≤ bufSize := by
        have hle := Nat.mul_le_mul_right sectorSize hi
        rw [fs.pos.2.2, Nat.succ_mul] at hle
        exact hle.trans (blockSize_le fs)
      unfold readSectors Ext4.readSectorsTo
      rw [ih (Nat.le_of_succ_le hi)]
      generalize fs.readSectorsTo first buf i = r
      obtain ⟨ok, buf'⟩ := r
      cases ok with
      | false => rfl
      | true =>
          simp only [Option.bind_eq_bind, Option.bind_some, if_true, inArray_eq hroom]
          unfold Ext4.blkRead
          show (if fs.fails _ = true then _ else _ : Option (Bool × Buf)) = _
          cases fs.fails (u32 (first + i)) <;> rfl

theorem readBlock_eq (b : Static) (target : Target) (block : Nat) :
    readBlock fs.device fs.blockSize b target block =
      some ((fs.readBlockTo (b.get target) block).1, b.put target (fs.readBlockTo (b.get target) block).2) := by
  unfold readBlock
  dsimp only
  rw [readSectors_eq _ _ le_rfl]
  rfl

/-- The first turns of the loop change nothing behind their sectors. -/
theorem readSectorsTo_rest (first : Nat) (buf : Buf) (i : Nat) {n : Nat} (hn : i * sectorSize ≤ n) :
    (fs.readSectorsTo first buf i).2 n = buf n := by
  induction i with
  | zero => rfl
  | succ i ih =>
      rw [Nat.succ_mul] at hn
      have hprev := ih (Nat.le_of_add_right_le hn)
      unfold Ext4.readSectorsTo
      generalize fs.readSectorsTo first buf i = r at hprev
      obtain ⟨ok, buf'⟩ := r
      cases ok with
      | false => exact hprev
      | true =>
          dsimp only
          cases fs.blkRead (u32 (first + i)) with
          | none => exact hprev
          | some bytes =>
              dsimp only
              rw [copyBytes, if_neg fun hin => absurd hn (Nat.not_le.mpr hin.2)]
              exact hprev

theorem readBlockTo_rest (buf : Buf) (block : Nat) {n : Nat} (hn : fs.blockSize ≤ n) :
    (fs.readBlockTo buf block).2 n = buf n := by
  unfold Ext4.readBlockTo
  apply readSectorsTo_rest
  rw [fs.pos.2.2]
  exact hn

/-- Reading a block into a buffer with zeros behind it: what a block read into zeros looks like. -/
theorem readBlockTo_of_tail {buf : Buf} (hbuf : ∀ n, fs.blockSize ≤ n → buf n = 0) {block : Nat}
    {out : Buf} (h : fs.readBlock block = some out) : fs.readBlockTo buf block = (true, out) := by
  obtain ⟨out', hout', hsame⟩ := readBlockTo_of_some h buf
  have heq : out' = out := by
    funext n
    by_cases hn : n < fs.blockSize
    · exact hsame n hn
    · have hrest : (fs.readBlockTo buf block).2 n = buf n :=
        readBlockTo_rest buf block (Nat.le_of_not_lt hn)
      rw [hout'] at hrest
      rw [readBlock_rest h (Nat.le_of_not_lt hn), ← hbuf n (Nat.le_of_not_lt hn)]
      exact hrest
  rw [hout', heq]

end Checked

theorem Ext4.Tails.get (h : fs.Tails sizes b) (target : Target) {n : Nat} (hn : fs.blockSize ≤ n) :
    b.get target n = 0 := by
  cases target with
  | blockBuf => exact h.blockBuf n hn
  | blockBuf2 => exact h.blockBuf2 n hn

theorem Ext4.Tails.put (h : fs.Tails sizes b) {target : Target} {buf : Buf}
    (hbuf : ∀ n, fs.blockSize ≤ n → buf n = 0) : fs.Tails sizes (b.put target buf) := by
  cases target with
  | blockBuf => exact ⟨hbuf, h.blockBuf2, h.inodeBuf⟩
  | blockBuf2 => exact ⟨h.blockBuf, hbuf, h.inodeBuf⟩

theorem Ext4.Tails.setInode (h : fs.Tails sizes b) {buf : Buf}
    (hbuf : ∀ n, sizes.inodeSize ≤ n → buf n = 0) : fs.Tails sizes { b with inodeBuf := buf } :=
  ⟨h.blockBuf, h.blockBuf2, hbuf⟩

namespace Checked

/-- A block that can be read. -/
theorem readBlock_some (h : fs.Tails sizes b) (target : Target) {block : Nat} {out : Buf}
    (hout : fs.readBlock block = some out) :
    readBlock fs.device fs.blockSize b target block = some (true, b.put target out) ∧
      fs.Tails sizes (b.put target out) := by
  rw [readBlock_eq, readBlockTo_of_tail (fun n hn => h.get target hn) hout]
  exact ⟨rfl, h.put fun n hn => readBlock_rest hout hn⟩

/-- A block that cannot. -/
theorem readBlock_none (h : fs.Tails sizes b) (target : Target) {block : Nat}
    (hnone : fs.readBlock block = none) :
    ∃ buf, readBlock fs.device fs.blockSize b target block = some (false, b.put target buf) ∧
      fs.Tails sizes (b.put target buf) := by
  have hfailed : (fs.readBlockTo (b.get target) block).1 = false := readSectorsTo_of_none hnone _
  rw [readBlock_eq, hfailed]
  exact ⟨_, rfl, h.put fun n hn => (readBlockTo_rest _ block hn).trans (h.get target hn)⟩

end Checked

/-- `read_block` reads the block of the disk. -/
theorem diskBlock_eq (fs : Ext4) : fs.diskBlock = fs.readBlock := by
  funext block
  have hstops : ∀ first buf i, (∃ j, j < i ∧ fs.fails (u32 (first + j)) = true) →
      fs.readSectors first buf i = none := by
    rintro first buf i ⟨j, hj, hfails⟩
    induction i with
    | zero => exact absurd hj (Nat.not_lt_zero j)
    | succ i ih =>
        unfold Ext4.readSectors
        rcases Nat.lt_or_eq_of_le (Nat.le_of_lt_succ hj) with hlt | rfl
        · rw [ih hlt]
          rfl
        · cases fs.readSectors first buf j with
          | none => rfl
          | some out => rw [Option.bind_some, Ext4.blkRead, hfails, if_pos rfl, Option.map_none]
  unfold Ext4.diskBlock
  split
  · rename_i hreads
    obtain ⟨out, hout, hbytes⟩ := readSectors_spec _ (fun _ => 0) _ hreads
    have hblock : fs.readBlock block = some out := hout
    rw [fs.pos.2.2] at hbytes
    rw [hblock]
    congr 1
    funext n
    by_cases hn : n < fs.blockSize
    · rw [if_pos hn, hbytes n hn]
      rfl
    · rw [if_neg hn, readBlock_rest hblock (Nat.le_of_not_lt hn)]
  · rename_i hfails
    push Not at hfails
    obtain ⟨j, hj, hfails⟩ := hfails
    exact (hstops _ _ _ ⟨j, hj, Bool.eq_true_of_not_eq_false hfails⟩).symm

/-! ## An inode -/

/-- The descriptors have a size, a block holds one, and the structure read at the place of this one
ends inside `block_buf`. -/
def Ext4.DescEnds (fs : Ext4) (sizes : Ext4Sizes) (group : Nat) : Prop :=
  let gdsPerBlock := fs.blockSize / sizes.descSize
  sizes.descSize ≠ 0 ∧ gdsPerBlock ≠ 0 ∧
    ∀ buf, fs.diskBlock (u32 ((if fs.blockSize = 1024 then 2 else 1) + group / gdsPerBlock)) = some buf →
      group % gdsPerBlock * sizes.descSize + 44 ≤ bufSize

/-- The descriptor that the disk holds where the reader looks for it. -/
def Ext4.diskDesc (fs : Ext4) (sizes : Ext4Sizes) (group : Nat) : Option Ext4GroupDesc :=
  let gdsPerBlock := fs.blockSize / sizes.descSize
  (fs.diskBlock (u32 ((if fs.blockSize = 1024 then 2 else 1) + group / gdsPerBlock))).map fun table =>
    groupDesc fun n => table (group % gdsPerBlock * sizes.descSize + n)

/-- The inode that the disk holds where the reader looks for it, with zeros behind its size. -/
def Ext4.diskInode (fs : Ext4) (sizes : Ext4Sizes) (inum : Nat) : Option Ext4Inode :=
  if inum = 0 then none
  else
    match fs.diskDesc sizes ((inum - 1) / sizes.sInodesPerGroup) with
    | none => none
    | some gd =>
        if gd.bgInodeTableHi ≠ 0 then none
        else
          let inodeOff := u32 ((inum - 1) % sizes.sInodesPerGroup * sizes.inodeSize)
          let block := u32 (gd.bgInodeTableLo + inodeOff / fs.blockSize)
          let offInBlock := inodeOff % fs.blockSize
          match fs.diskBlock block with
          | none => none
          | some blockBuf =>
              if u32 (offInBlock + sizes.inodeSize) ≤ fs.blockSize then
                some (inodeOf fun n => if n < sizes.inodeSize then blockBuf (offInBlock + n) else 0)
              else
                let first := fs.blockSize - offInBlock
                (fs.diskBlock (u32 (block + 1))).map fun blockBuf2 =>
                  inodeOf fun n =>
                    if n < first then blockBuf (offInBlock + n)
                    else if n < sizes.inodeSize then blockBuf2 (n - first)
                    else 0

/-- The inode can be looked for, and one that can be read fits into `inode_buf`. -/
def Ext4.InodeEnds (fs : Ext4) (sizes : Ext4Sizes) (inum : Nat) : Prop :=
  inum ≠ 0 → sizes.sInodesPerGroup ≠ 0 ∧
    fs.DescEnds sizes ((inum - 1) / sizes.sInodesPerGroup) ∧
      (bufSize < sizes.inodeSize → fs.diskInode sizes inum = none)

namespace Checked

theorem loadGroupDesc_exact (hb : fs.Tails sizes b) (group : Nat) :
    Exact (loadGroupDesc fs.device fs.blockSize sizes b group) (fs.DescEnds sizes group) fun out =>
      out.1 = fs.diskDesc sizes group ∧ fs.Tails sizes out.2 := by
  unfold loadGroupDesc Ext4.DescEnds Ext4.diskDesc
  rw [diskBlock_eq]
  dsimp only
  refine (divide_exact _ _).bind fun _ gds hgds => ?_
  subst hgds
  refine (divide_exact _ _).bind fun hne blocks hblocks => ?_
  subst hblocks
  refine Exact.bind_of (modulo_eq hne) ?_
  cases hread : fs.readBlock (u32 ((if fs.blockSize = 1024 then 2 else 1) +
      group / (fs.blockSize / sizes.descSize))) with
  | none =>
      obtain ⟨buf, hfailed, htails⟩ := readBlock_none hb .blockBuf hread
      refine Exact.bind_of hfailed ?_
      exact (Exact.some ⟨rfl, htails⟩).congr (iff_true_intro fun _ hno => by cases hno)
  | some buf =>
      obtain ⟨hblock, htails⟩ := readBlock_some hb .blockBuf hread
      refine Exact.bind_of hblock ?_
      refine ((inArray_exact _ _ _).bind fun _ _ _ => Exact.some ⟨rfl, htails⟩).congr ?_
      constructor
      · exact fun h => ⟨h buf rfl, trivial⟩
      · exact fun h _ _ => h.1

/-- What is copied to `inode_buf`, with zeros behind it. -/
theorem copyBytes_inode {inodeBuf : Buf} {size : Nat} (hzero : ∀ n, size ≤ n → inodeBuf n = 0)
    (block : Buf) (off : Nat) :
    copyBytes inodeBuf 0 block off size = fun n => if n < size then block (off + n) else 0 := by
  funext n
  unfold copyBytes
  by_cases hn : n < size
  · rw [if_pos ⟨Nat.zero_le n, (Nat.zero_add size).symm ▸ hn⟩, if_pos hn, Nat.sub_zero]
  · rw [if_neg fun h => hn (by omega), if_neg hn]
    exact hzero n (Nat.le_of_not_lt hn)

/-- In two parts. -/
theorem copyBytes_parts {inodeBuf : Buf} {size first : Nat} (hzero : ∀ n, size ≤ n → inodeBuf n = 0)
    (hfirst : first ≤ size) (block block2 : Buf) (off : Nat) :
    copyBytes (copyBytes inodeBuf 0 block off first) first block2 0 (size - first) = fun n =>
      if n < first then block (off + n) else if n < size then block2 (n - first) else 0 := by
  funext n
  unfold copyBytes
  by_cases hn : n < first
  · rw [if_neg (by omega), if_pos (by omega), if_pos hn, Nat.sub_zero]
  · rw [if_neg hn]
    by_cases hlt : n < size
    · rw [if_pos (by omega), if_pos hlt, Nat.zero_add]
    · rw [if_neg (by omega), if_neg (by omega), if_neg hlt]
      exact hzero n (Nat.le_of_not_lt hlt)

theorem readInode_exact (hsize : sizes.inodeSize < 65536) (hb : fs.Tails sizes b) (inum : Nat) :
    Exact (readInode fs.device fs.blockSize sizes b inum) (fs.InodeEnds sizes inum) fun out =>
      out.1 = fs.diskInode sizes inum ∧ fs.Tails sizes out.2 := by
  have hle := blockSize_le fs
  have hmax : bufSize = 4096 := rfl
  have hpos := blockSize_ne_zero fs
  unfold readInode Ext4.InodeEnds
  by_cases hinum : inum = 0
  · rw [if_pos hinum]
    have hnone : fs.diskInode sizes inum = none := if_pos hinum
    exact (Exact.some ⟨hnone.symm, hb⟩).congr (iff_true_intro fun hne => absurd hinum hne)
  rw [if_neg hinum]
  dsimp only
  -- Without the first guard, which holds.
  suffices hexact : Exact _ (sizes.sInodesPerGroup ≠ 0 ∧
      fs.DescEnds sizes ((inum - 1) / sizes.sInodesPerGroup) ∧
        (bufSize < sizes.inodeSize → fs.diskInode sizes inum = none)) _ from
    hexact.congr ⟨fun h => h hinum, fun h _ => h⟩
  refine (divide_exact _ _).bind fun hper group hgroup => ?_
  subst hgroup
  refine Exact.bind_of (modulo_eq hper) ?_
  refine (loadGroupDesc_exact hb _).bind fun _ out hout => ?_
  obtain ⟨desc, b'⟩ := out
  obtain ⟨hdesc, hb⟩ : desc = _ ∧ fs.Tails sizes b' := hout
  have hinode : fs.diskInode sizes inum = _ := if_neg hinum
  rw [hinode, ← hdesc, diskBlock_eq]
  dsimp only
  cases desc with
  | none => exact (Exact.some ⟨rfl, hb⟩).congr (iff_true_intro fun _ => rfl)
  | some gd =>
      dsimp only
      by_cases hhigh : gd.bgInodeTableHi ≠ 0
      · rw [if_pos hhigh, if_pos hhigh]
        exact (Exact.some ⟨rfl, hb⟩).congr (iff_true_intro fun _ => rfl)
      rw [if_neg hhigh, if_neg hhigh]
      generalize u32 ((inum - 1) % sizes.sInodesPerGroup * sizes.inodeSize) = inodeOff
      refine Exact.bind_of (divide_eq hpos) (Exact.bind_of (modulo_eq hpos) ?_)
      have hoff : inodeOff % fs.blockSize < fs.blockSize := Nat.mod_lt _ fs.pos.1
      generalize inodeOff % fs.blockSize = off at hoff ⊢
      have hsum : u32 (off + sizes.inodeSize) = off + sizes.inodeSize :=
        u32_of_lt (by omega)
      rw [hsum]
      cases hread : fs.readBlock (u32 (gd.bgInodeTableLo + inodeOff / fs.blockSize)) with
      | none =>
          obtain ⟨buf, hfailed, hb'⟩ := readBlock_none hb .blockBuf hread
          refine Exact.bind_of hfailed ?_
          exact (Exact.some ⟨rfl, hb'⟩).congr (iff_true_intro fun _ => rfl)
      | some block =>
          obtain ⟨hblock, hb'⟩ := readBlock_some hb .blockBuf hread
          refine Exact.bind_of hblock ?_
          dsimp only
          rw [if_pos rfl]
          by_cases hin : off + sizes.inodeSize ≤ fs.blockSize
          · -- The inode lies in one block.
            rw [if_pos hin, if_pos hin]
            refine Exact.bind_of (inArray_eq (by omega)) (Exact.bind_of (inArray_eq (by omega)) ?_)
            have hcopy := copyBytes_inode hb'.inodeBuf block off
            have htails := hb'.setInode fun n hn =>
              (congrFun hcopy n).trans (if_neg (Nat.not_lt.mpr hn))
            exact (Exact.some ⟨congrArg (fun buf => some (inodeOf buf)) hcopy, htails⟩).congr
              (iff_true_intro fun hlarge => absurd hlarge (by omega))
          · rw [if_neg hin, if_neg hin]
            refine Exact.bind_of (inArray_eq (by omega)) (Exact.bind_of (inArray_eq (by omega)) ?_)
            have hb'' : fs.Tails sizes { b'.put .blockBuf block with
                inodeBuf := copyBytes (b'.put .blockBuf block).inodeBuf 0
                  (b'.put .blockBuf block).blockBuf off (fs.blockSize - off) } := by
              refine hb'.setInode fun n hn => ?_
              rw [copyBytes, if_neg (by omega)]
              exact hb'.inodeBuf n hn
            cases hread2 : fs.readBlock (u32 (u32 (gd.bgInodeTableLo + inodeOff / fs.blockSize) + 1)) with
            | none =>
                obtain ⟨buf, hfailed, htails⟩ := readBlock_none hb'' .blockBuf2 hread2
                refine Exact.bind_of hfailed ?_
                exact (Exact.some ⟨rfl, htails⟩).congr (iff_true_intro fun _ => rfl)
            | some block2 =>
                obtain ⟨hblock2, htails⟩ := readBlock_some hb'' .blockBuf2 hread2
                refine Exact.bind_of hblock2 ?_
                have hcopy := @copyBytes_parts b'.inodeBuf _ _ hb'.inodeBuf
                  (show fs.blockSize - off ≤ sizes.inodeSize by omega) block block2 off
                have hfits : Exact (inArray (fs.blockSize - off)
                    (sizes.inodeSize - (fs.blockSize - off)) bufSize)
                    (sizes.inodeSize ≤ bufSize) fun _ => True :=
                  (inArray_exact _ _ _).congr (by omega)
                have htails := htails.setInode fun n hn => (congrFun hcopy n).trans (by
                  rw [if_neg (by omega), if_neg (by omega)])
                refine (hfits.bind (D := True) fun hfit _ _ => ?_).congr ?_
                · have hread : inArray 0 (sizes.inodeSize - (fs.blockSize - off)) bufSize = some () :=
                    inArray_eq (by omega)
                  exact Exact.bind_of hread
                    (Exact.some ⟨congrArg (fun buf => some (inodeOf buf)) hcopy, htails⟩)
                · constructor
                  · intro hno
                    refine ⟨Nat.le_of_not_lt fun hlarge => ?_, trivial⟩
                    cases hno hlarge
                  · exact fun h hlarge => absurd h.1 (Nat.not_le.mpr hlarge)

/-! ## Looking up a block -/

section Search

variable {node : Buf} {size lblock : Nat}

/-- The loop over the extents, from extent `i` on, none of those before being taken. -/
theorem findExtent_exact (left i : Nat) (hinside : ∀ j, j < i → 12 + 12 * j + 12 ≤ size)
    (hbefore : ∀ j, j < i → (extent node j).takes lblock = false) :
    Exact (findExtent node size lblock left i) (SearchEnds node size (i + left) lblock)
      (· = Fs.findExtent node (i + left) lblock) := by
  induction left generalizing i with
  | zero =>
      have hnone : (List.range i).find? (fun j => (extent node j).takes lblock) = none :=
        List.find?_range_eq_none.mpr fun j hj => by rw [hbefore j hj]; rfl
      refine (Exact.some ?_).congr (iff_true_intro fun k hk hout => ?_)
      · unfold Fs.findExtent
        rw [Nat.add_zero, hnone]
      · exact absurd (hinside k hk) (Nat.not_le.mpr hout)
  | succ left ih =>
      unfold findExtent
      by_cases hin : 12 + 12 * i + 12 ≤ size
      case neg =>
        -- The entry lies behind the array, and the search comes to it.
        refine ⟨fun hends => ?_, fun _ => ?_⟩
        · obtain ⟨j, hj, -, htakes⟩ := hends i (by omega) (Nat.lt_of_not_le hin)
          rw [hbefore j hj] at htakes
          cases htakes
        · rw [show inArray (12 + 12 * i) 12 size = none from if_neg hin]
          rfl
      refine Exact.bind_of (inArray_eq hin) ?_
      dsimp only
      cases htakes : (extent node i).takes lblock with
      | true =>
          have hfind : (List.range (i + (left + 1))).find? (fun j => (extent node j).takes lblock) =
              some i := by
            refine List.find?_range_eq_some.mpr ⟨htakes, List.mem_range.mpr (by omega), fun j hj => ?_⟩
            rw [hbefore j hj]
            rfl
          have hvalue : (if (extent node i).eeStartHi ≠ 0 then some none
              else some (some (u32 ((extent node i).eeStartLo + (lblock - (extent node i).eeBlock)))) :
                Option (Option Nat)) = some (Fs.findExtent node (i + (left + 1)) lblock) := by
            unfold Fs.findExtent
            rw [hfind]
            dsimp only
            split <;> rfl
          have hends : SearchEnds node size (i + (left + 1)) lblock :=
            fun k _ hout => ⟨i, by omega, hin, htakes⟩
          rw [if_pos rfl, hvalue]
          exact Exact.congr (Exact.some rfl) (iff_true_intro hends)
      | false =>
          have hrest := ih (i + 1) (Nat.forall_lt_succ_right.mpr ⟨hinside, hin⟩)
            (Nat.forall_lt_succ_right.mpr ⟨hbefore, htakes⟩)
          rw [if_neg Bool.false_ne_true]
          rwa [Nat.add_right_comm, Nat.add_assoc] at hrest

/-- The loop over the index entries, from entry `i` on, where all before do not lie behind the
block. -/
theorem chooseIdx_exact (left i : Nat) (hinside : ∀ j, j < i → 12 + 12 * j + 12 ≤ size)
    (hbefore : ∀ j, j < i → (extentIdx node j).eiBlock ≤ lblock) :
    Exact (chooseIdx node size lblock left i (List.range i).getLast?)
      (ChoiceEnds node size (i + left) lblock) (· = Fs.chooseIdx node (i + left) lblock) := by
  induction left generalizing i with
  | zero =>
      refine (Exact.some ?_).congr (iff_true_intro fun k hk hout => ?_)
      · unfold Fs.chooseIdx
        rw [Nat.add_zero, takeWhile_range le_rfl (fun j hj => decide_eq_true (hbefore j hj))
          fun hno => absurd hno (Nat.lt_irrefl i)]
      · exact absurd (hinside k hk) (Nat.not_le.mpr hout)
  | succ left ih =>
      unfold chooseIdx
      by_cases hin : 12 + 12 * i + 12 ≤ size
      case neg =>
        refine ⟨fun hends => ?_, fun _ => ?_⟩
        · obtain ⟨j, hj, -, hbehind⟩ := hends i (by omega) (Nat.lt_of_not_le hin)
          exact absurd (hbefore j hj) (Nat.not_le.mpr hbehind)
        · rw [show inArray (12 + 12 * i) 12 size = none from if_neg hin]
          rfl
      refine Exact.bind_of (inArray_eq hin) ?_
      by_cases hle : (extentIdx node i).eiBlock ≤ lblock
      · have hrest := ih (i + 1) (Nat.forall_lt_succ_right.mpr ⟨hinside, hin⟩)
          (Nat.forall_lt_succ_right.mpr ⟨hbefore, hle⟩)
        rw [List.range_succ, List.getLast?_concat] at hrest
        rw [if_pos hle]
        rwa [Nat.add_right_comm, Nat.add_assoc] at hrest
      · rw [if_neg hle]
        have hends : ChoiceEnds node size (i + (left + 1)) lblock :=
          fun k _ hout => ⟨i, by omega, hin, Nat.lt_of_not_le hle⟩
        refine (Exact.some ?_).congr (iff_true_intro hends)
        unfold Fs.chooseIdx
        rw [takeWhile_range (Nat.le_add_right i _) (fun j hj => decide_eq_true (hbefore j hj))
          fun _ => decide_eq_false hle]

end Search

theorem findExtent_from_start (node : Buf) (size entries lblock : Nat) :
    Exact (findExtent node size lblock entries 0) (SearchEnds node size entries lblock)
      (· = Fs.findExtent node entries lblock) := by
  have hexact := @findExtent_exact node size lblock entries 0 (by omega) (by omega)
  rwa [Nat.zero_add] at hexact

theorem chooseIdx_from_start (node : Buf) (size entries lblock : Nat) :
    Exact (chooseIdx node size lblock entries 0 none) (ChoiceEnds node size entries lblock)
      (· = Fs.chooseIdx node entries lblock) := by
  have hexact := @chooseIdx_exact node size lblock entries 0 (by omega) (by omega)
  rwa [Nat.zero_add] at hexact

/-- Up to where the numbers below `n` satisfy `p`. -/
theorem exists_stop (p : Nat → Prop) (n : Nat) :
    ∃ m, m ≤ n ∧ (∀ k, k < m → p k) ∧ (m < n → ¬ p m) := by
  induction n with
  | zero => exact ⟨0, le_rfl, fun k hk => absurd hk (Nat.not_lt_zero k), fun h => absurd h (Nat.lt_irrefl 0)⟩
  | succ n ih =>
      obtain ⟨m, hle, htake, hstop⟩ := ih
      rcases Nat.lt_or_eq_of_le hle with hlt | rfl
      · exact ⟨m, Nat.le_succ_of_le hle, htake, fun _ => hstop hlt⟩
      · by_cases hm : p m
        · exact ⟨m + 1, le_rfl, Nat.forall_lt_succ_right.mpr ⟨htake, hm⟩,
            fun h => absurd h (Nat.lt_irrefl _)⟩
        · exact ⟨m, Nat.le_succ m, htake, fun _ => hm⟩

/-- The index entry that the loop chooses. -/
theorem lastIdx_iff {node : Buf} {entries lblock i : Nat} :
    LastIdx node entries lblock i ↔ Fs.chooseIdx node entries lblock = some i := by
  obtain ⟨m, hle, htake, hstop⟩ := exists_stop (fun j => (extentIdx node j).eiBlock ≤ lblock) entries
  have hchoose : Fs.chooseIdx node entries lblock = (List.range m).getLast? := by
    unfold Fs.chooseIdx
    rw [takeWhile_range hle (fun j hj => decide_eq_true (htake j hj))
      fun hm => decide_eq_false (hstop hm)]
  rw [hchoose, List.getLast?_range]
  constructor
  · intro h
    have hm : m = i + 1 := by
      rcases Nat.lt_trichotomy m (i + 1) with hlt | heq | hlt
      · exact absurd (h.before m hlt) (hstop ((Nat.le_of_lt_succ hlt).trans_lt h.inside))
      · exact heq
      · exact absurd (htake (i + 1) hlt) (Nat.not_le.mpr (h.next (hlt.trans_le hle)))
    rw [hm]
    rfl
  · intro h
    split at h
    · cases h
    · cases h
      have hm : m - 1 + 1 = m := by omega
      refine ⟨by omega, fun j hj => htake j (by omega), fun hnext => ?_⟩
      rw [hm] at hnext ⊢
      exact Nat.lt_of_not_le (hstop hnext)

theorem extentFindPhysical_exact (hb : fs.Tails sizes b) (ino : Ext4Inode) (lblock : Nat) :
    Exact (extentFindPhysical fs.device fs.blockSize b ino lblock) (fs.LookupEnds ino lblock)
      fun out => out.1 = fs.extentFindPhysical ino lblock ∧ fs.Tails sizes out.2 := by
  unfold extentFindPhysical Ext4.extentFindPhysical
  dsimp only
  by_cases hmagic : (extentHeader ino.iBlock).ehMagic ≠ ext4ExtMagic
  · rw [if_pos hmagic, if_pos hmagic]
    exact (Exact.some ⟨rfl, hb⟩).congr (iff_true_intro
      ⟨fun h => absurd h hmagic, fun h => absurd h hmagic, fun h => absurd h hmagic⟩)
  rw [if_neg hmagic, if_neg hmagic]
  have hmagic := not_not.mp hmagic
  by_cases hleaf : (extentHeader ino.iBlock).ehDepth = 0
  · rw [if_pos hleaf, if_pos hleaf]
    refine ((findExtent_from_start ..).bind fun _ pblock hpblock =>
      Exact.some ⟨hpblock, hb⟩).congr ?_
    constructor
    · exact fun h => ⟨h.root hmagic hleaf, trivial⟩
    · refine fun h => ⟨fun _ _ => h.1, fun _ hone => ?_, fun _ hone => ?_⟩
      · cases hleaf.symm.trans hone
      · cases hleaf.symm.trans hone
  rw [if_neg hleaf, if_neg hleaf]
  by_cases hroot : (extentHeader ino.iBlock).ehDepth = 1
  case neg =>
    rw [if_neg hroot, if_neg hroot]
    exact (Exact.some ⟨rfl, hb⟩).congr (iff_true_intro
      ⟨fun _ h => absurd h hleaf, fun _ h => absurd h hroot, fun _ h => absurd h hroot⟩)
  rw [if_pos hroot, if_pos hroot]
  -- What is left of the condition is about the leaf.
  suffices hexact : Exact _ (ChoiceEnds ino.iBlock iBlockSize (extentHeader ino.iBlock).ehEntries lblock ∧
      ∀ i leaf, Fs.chooseIdx ino.iBlock (extentHeader ino.iBlock).ehEntries lblock = some i →
        (extentIdx ino.iBlock i).eiLeafHi = 0 →
        fs.readBlock (extentIdx ino.iBlock i).eiLeafLo = some leaf →
        (extentHeader leaf).ehMagic = ext4ExtMagic → (extentHeader leaf).ehDepth = 0 →
          SearchEnds leaf bufSize (extentHeader leaf).ehEntries lblock) _ from
    hexact.congr ⟨fun h => ⟨h.index hmagic hroot, fun i leaf hi => diskBlock_eq fs ▸
        h.leaf hmagic hroot i leaf (lastIdx_iff.mpr hi)⟩,
      fun h => ⟨fun _ hzero => absurd hzero hleaf, fun _ _ => h.1, fun _ _ i leaf hi =>
        (diskBlock_eq fs).symm ▸ h.2 i leaf (lastIdx_iff.mp hi)⟩⟩
  refine (chooseIdx_from_start ..).bind fun _ chosen hchosen => ?_
  rw [← hchosen]
  cases chosen with
  | none => exact (Exact.some ⟨rfl, hb⟩).congr (iff_true_intro fun i leaf hno => by cases hno)
  | some i =>
      dsimp only
      by_cases hhigh : (extentIdx ino.iBlock i).eiLeafHi ≠ 0
      · rw [if_pos hhigh, if_pos hhigh]
        refine (Exact.some ⟨rfl, hb⟩).congr (iff_true_intro fun j leaf hj hlow => ?_)
        cases hj
        exact absurd hlow hhigh
      rw [if_neg hhigh, if_neg hhigh]
      cases hread : fs.readBlock (extentIdx ino.iBlock i).eiLeafLo with
      | none =>
          obtain ⟨buf, hfailed, htails⟩ := readBlock_none hb .blockBuf hread
          refine Exact.bind_of hfailed ?_
          refine (Exact.some ⟨rfl, htails⟩).congr (iff_true_intro fun j leaf hj _ hleaf => ?_)
          cases hj
          cases hread.symm.trans hleaf
      | some leaf =>
          obtain ⟨hblock, htails⟩ := readBlock_some hb .blockBuf hread
          refine Exact.bind_of hblock ?_
          dsimp only
          rw [if_pos rfl]
          show Exact (if (extentHeader leaf).ehMagic ≠ ext4ExtMagic ∨ (extentHeader leaf).ehDepth ≠ 0 then
            _ else _) _ _
          by_cases hbad : (extentHeader leaf).ehMagic ≠ ext4ExtMagic ∨ (extentHeader leaf).ehDepth ≠ 0
          · rw [if_pos hbad, if_pos hbad]
            refine (Exact.some ⟨rfl, htails⟩).congr
              (iff_true_intro fun j leaf' hj _ hleaf hmagic hdepth => ?_)
            cases hj
            cases hread.symm.trans hleaf
            exact hbad.elim (absurd hmagic) (absurd hdepth)
          · rw [if_neg hbad, if_neg hbad]
            obtain ⟨hleafMagic, hleafDepth⟩ := not_or.mp hbad
            refine ((findExtent_from_start ..).bind fun _ pblock hpblock =>
              Exact.some ⟨hpblock, htails⟩).congr ?_
            constructor
            · exact fun h => ⟨h i leaf rfl (not_not.mp hhigh) hread (not_not.mp hleafMagic)
                (not_not.mp hleafDepth), trivial⟩
            · intro h j leaf' hj _ hleaf _ _
              cases hj
              cases hread.symm.trans hleaf
              exact h.1

end Checked

/-! ## Reading a file -/

/-- The first extent of a node that a block is taken to lie in. -/
structure FirstExtent (node : Buf) (lblock i : Nat) : Prop where
  inside : i < (extentHeader node).ehEntries
  takes : (extent node i).takes lblock = true
  before : ∀ j, j < i → (extent node j).takes lblock = false

/-- The node of extents that a block of a file belongs to. -/
inductive Ext4.LeafOf (fs : Ext4) (ino : Ext4Inode) (lblock : Nat) : Buf → Prop
  | root (hmagic : (extentHeader ino.iBlock).ehMagic = ext4ExtMagic)
      (hdepth : (extentHeader ino.iBlock).ehDepth = 0) : LeafOf fs ino lblock ino.iBlock
  | child {i leaf} (hmagic : (extentHeader ino.iBlock).ehMagic = ext4ExtMagic)
      (hdepth : (extentHeader ino.iBlock).ehDepth = 1)
      (hi : LastIdx ino.iBlock (extentHeader ino.iBlock).ehEntries lblock i)
      (hlow : (extentIdx ino.iBlock i).eiLeafHi = 0)
      (hleaf : fs.diskBlock (extentIdx ino.iBlock i).eiLeafLo = some leaf)
      (hmagic' : (extentHeader leaf).ehMagic = ext4ExtMagic)
      (hdepth' : (extentHeader leaf).ehDepth = 0) : LeafOf fs ino lblock leaf

/-- The disk holds the block of the file. -/
def Ext4.HasBlock (fs : Ext4) (ino : Ext4Inode) (lblock : Nat) (block : Buf) : Prop :=
  ∃ leaf i, fs.LeafOf ino lblock leaf ∧ FirstExtent leaf lblock i ∧ (extent leaf i).eeStartHi = 0 ∧
    fs.diskBlock (u32 ((extent leaf i).eeStartLo + (lblock - (extent leaf i).eeBlock))) = some block

open Classical in
/-- The block of a file that the disk holds, if it does. -/
noncomputable def Ext4.fileBlock (fs : Ext4) (ino : Ext4Inode) (lblock : Nat) : Option Buf :=
  if h : ∃ block, fs.HasBlock ino lblock block then some h.choose else none

/-- The extent that the loop takes. -/
theorem firstExtent_iff {node : Buf} {lblock pblock : Nat} :
    findExtent node (extentHeader node).ehEntries lblock = some pblock ↔
      ∃ i, FirstExtent node lblock i ∧ (extent node i).eeStartHi = 0 ∧
        pblock = u32 ((extent node i).eeStartLo + (lblock - (extent node i).eeBlock)) := by
  have hfind : ∀ i, (List.range (extentHeader node).ehEntries).find?
      (fun i => (extent node i).takes lblock) = some i ↔ FirstExtent node lblock i := by
    intro i
    rw [List.find?_range_eq_some]
    constructor
    · exact fun h => ⟨List.mem_range.mp h.2.1, h.1, fun j hj => by simpa using h.2.2 j hj⟩
    · exact fun h => ⟨h.takes, List.mem_range.mpr h.inside, fun j hj => by rw [h.before j hj]; rfl⟩
  unfold findExtent
  constructor
  · intro h
    split at h
    · cases h
    · rename_i i hi
      dsimp only at h
      split at h
      · cases h
      · rename_i hhigh
        cases h
        exact ⟨i, (hfind i).mp hi, not_not.mp hhigh, rfl⟩
  · rintro ⟨i, hi, hhigh, rfl⟩
    rw [(hfind i).mpr hi]
    dsimp only
    rw [if_neg (not_not.mpr hhigh)]

section Found

variable {ino : Ext4Inode} {lblock pblock : Nat} {leaf : Buf}

/-- `extent_find_physical` finds what the loop takes from the node of the block. -/
theorem Ext4.LeafOf.found (hleaf : fs.LeafOf ino lblock leaf)
    (h : findExtent leaf (extentHeader leaf).ehEntries lblock = some pblock) :
    fs.extentFindPhysical ino lblock = some pblock := by
  unfold Ext4.extentFindPhysical
  cases hleaf with
  | root hmagic hdepth =>
      dsimp only
      rw [if_neg (not_not.mpr hmagic), if_pos hdepth]
      exact h
  | child hmagic hdepth hj hlow hleaf hmagic' hdepth' =>
      have hdeep : (extentHeader ino.iBlock).ehDepth ≠ 0 := by omega
      rw [diskBlock_eq] at hleaf
      dsimp only
      rw [if_neg (not_not.mpr hmagic), if_neg hdeep, if_pos hdepth, Checked.lastIdx_iff.mp hj]
      dsimp only
      rw [if_neg (not_not.mpr hlow), hleaf]
      dsimp only
      rw [if_neg (not_or.mpr ⟨not_not.mpr hmagic', not_not.mpr hdepth'⟩)]
      exact h

/-- What it finds, it has from there. -/
theorem leafOf_of_found (h : fs.extentFindPhysical ino lblock = some pblock) :
    ∃ leaf, fs.LeafOf ino lblock leaf ∧
      findExtent leaf (extentHeader leaf).ehEntries lblock = some pblock := by
  unfold Ext4.extentFindPhysical at h
  dsimp only at h
  split at h
  · cases h
  rename_i hmagic
  split at h
  · rename_i hdepth
    exact ⟨_, .root (not_not.mp hmagic) hdepth, h⟩
  split at h
  · rename_i hdepth
    split at h
    · cases h
    rename_i i hi
    split at h
    · cases h
    rename_i hhigh
    split at h
    · cases h
    rename_i leaf hleaf
    split at h
    · cases h
    rename_i hbad
    obtain ⟨hmagic', hdepth'⟩ := not_or.mp hbad
    rw [← diskBlock_eq] at hleaf
    exact ⟨leaf, .child (not_not.mp hmagic) hdepth (Checked.lastIdx_iff.mpr hi) (not_not.mp hhigh)
      hleaf (not_not.mp hmagic') (not_not.mp hdepth'), h⟩
  · cases h

/-- The block that the disk holds is the one that is found, and read. -/
theorem hasBlock_iff {block : Buf} : fs.HasBlock ino lblock block ↔
    (fs.extentFindPhysical ino lblock).bind fs.readBlock = some block := by
  rw [Option.bind_eq_some_iff]
  unfold Ext4.HasBlock
  rw [diskBlock_eq]
  constructor
  · rintro ⟨leaf, i, hleaf, hi, hhigh, hblock⟩
    exact ⟨_, hleaf.found (firstExtent_iff.mpr ⟨i, hi, hhigh, rfl⟩), hblock⟩
  · rintro ⟨pblock, hpblock, hblock⟩
    obtain ⟨leaf, hleaf, hfound⟩ := leafOf_of_found hpblock
    obtain ⟨i, hi, hhigh, rfl⟩ := firstExtent_iff.mp hfound
    exact ⟨leaf, i, hleaf, hi, hhigh, hblock⟩

end Found

theorem fileBlock_eq (fs : Ext4) (ino : Ext4Inode) (lblock : Nat) :
    fs.fileBlock ino lblock = (fs.extentFindPhysical ino lblock).bind fs.readBlock := by
  unfold Ext4.fileBlock
  split
  · rename_i h
    exact (hasBlock_iff.mp h.choose_spec).symm
  · rename_i h
    exact (Option.eq_none_iff_forall_ne_some.mpr fun block hblock => h ⟨block, hasBlock_iff.mpr hblock⟩).symm

/-- All blocks that the loop of `inode_read_data` looks up can be looked up, from the byte `done`
on. -/
def Ext4.LoopEnds (fs : Ext4) (ino : Ext4Inode) (off remaining : Nat) : Nat → Nat → Prop
  | 0, _ => True
  | turns + 1, done =>
      done < remaining →
        fs.LookupEnds ino (u32 (off + done) / fs.blockSize) ∧
          (fs.fileBlock ino (u32 (off + done) / fs.blockSize) ≠ none →
            fs.LoopEnds ino off remaining turns (done + fs.chunk off remaining done))

namespace Checked

/-- What is looked up next, and read. -/
theorem lookup_exact (hb : fs.Tails sizes b) (ino : Ext4Inode) (lblock : Nat) {α : Type}
    {f : Option Nat × Static → Option α} {D : Prop} {Q : α → Prop}
    (hnone : ∀ b', fs.Tails sizes b' → fs.extentFindPhysical ino lblock = none →
      fs.fileBlock ino lblock = none → Exact (f (none, b')) D Q)
    (hsome : ∀ b' pblock, fs.Tails sizes b' → fs.extentFindPhysical ino lblock = some pblock →
      fs.fileBlock ino lblock = fs.readBlock pblock → Exact (f (some pblock, b')) D Q) :
    Exact (extentFindPhysical fs.device fs.blockSize b ino lblock >>= f)
      (fs.LookupEnds ino lblock ∧ D) Q := by
  refine (extentFindPhysical_exact hb ino lblock).bind fun _ out hout => ?_
  obtain ⟨found, b'⟩ := out
  obtain ⟨hfound, hb'⟩ : found = _ ∧ fs.Tails sizes b' := hout
  have hblock : fs.fileBlock ino lblock = found.bind fs.readBlock := by
    rw [fileBlock_eq, hfound]
  cases found with
  | none => exact hnone b' hb' hfound.symm hblock
  | some pblock => exact hsome b' pblock hb' hfound.symm hblock

theorem readLoop_exact (ino : Ext4Inode) (off remaining : Nat) (turns done : Nat)
    (hdone : done ≤ remaining) (hturns : remaining < done + turns) (hb : fs.Tails sizes b) (dst : Buf) :
    Exact (readLoop fs.device fs.blockSize ino off remaining turns done b dst)
      (fs.LoopEnds ino off remaining turns done) fun out => fs.Tails sizes out.2.1 := by
  have hmax : bufSize = 4096 := rfl
  have hle := blockSize_le fs
  have hpos := blockSize_ne_zero fs
  induction turns generalizing done b dst with
  | zero => omega
  | succ turns ih =>
      unfold readLoop Ext4.LoopEnds
      by_cases hmore : done < remaining
      case neg =>
        rw [if_neg hmore]
        exact (Exact.some (a := (done, b, dst)) hb).congr (iff_true_intro fun h => absurd h hmore)
      rw [if_pos hmore]
      dsimp only
      refine Exact.congr ?_ (forall_prop_of_true hmore)
      refine Exact.bind_of (divide_eq hpos) (Exact.bind_of (modulo_eq hpos) ?_)
      have hchunk : (if fs.blockSize - u32 (off + done) % fs.blockSize > remaining - done then
          remaining - done else fs.blockSize - u32 (off + done) % fs.blockSize) =
            fs.chunk off remaining done := by
        unfold Ext4.chunk
        split <;> omega
      have hoff : u32 (off + done) % fs.blockSize < fs.blockSize := Nat.mod_lt _ fs.pos.1
      have hpart : 0 < fs.chunk off remaining done ∧ fs.chunk off remaining done ≤ remaining - done ∧
          u32 (off + done) % fs.blockSize + fs.chunk off remaining done ≤ bufSize := by
        unfold Ext4.chunk
        omega
      rw [hchunk]
      refine lookup_exact hb ino _ (fun b' hb' _ hnone => ?_) fun b' pblock hb' _ hblock => ?_
      · exact (Exact.some (a := (done, b', dst)) hb').congr (iff_true_intro fun h => absurd hnone h)
      rw [hblock]
      cases hread : fs.readBlock pblock with
      | none =>
          obtain ⟨buf, hfailed, htails⟩ := readBlock_none hb' .blockBuf hread
          refine Exact.bind_of hfailed ?_
          exact (Exact.some (a := (done, _, dst)) htails).congr (iff_true_intro fun h => absurd rfl h)
      | some block =>
          obtain ⟨hblock, htails⟩ := readBlock_some hb' .blockBuf hread
          refine Exact.bind_of hblock ?_
          rw [if_pos rfl]
          refine Exact.bind_of (inArray_eq hpart.2.2) ?_
          exact (ih _ (by omega) (by omega) htails _).congr
            (forall_prop_of_true (Option.some_ne_none block))

/-- What is read, and copied to the caller. -/
theorem inodeReadData_ends (hb : fs.Tails sizes b) (ino : Ext4Inode) (off : Nat) (buf : Buf)
    (len : Nat) :
    let remaining := if u32 (off + len) > ino.iSizeLo then ino.iSizeLo - off else len
    Exact (inodeReadData fs.device fs.blockSize b ino off buf len)
      (ino.iSizeHigh = 0 → off < ino.iSizeLo → fs.LoopEnds ino off remaining (remaining + 1) 0)
      fun out => fs.Tails sizes out.2.1 := by
  intro remaining
  unfold inodeReadData
  by_cases hhigh : ino.iSizeHigh ≠ 0
  · rw [if_pos hhigh]
    exact (Exact.some (a := (-1, b, buf)) hb).congr (iff_true_intro fun h => absurd h hhigh)
  rw [if_neg hhigh]
  dsimp only
  by_cases hoff : off ≥ ino.iSizeLo
  · rw [if_pos hoff]
    exact (Exact.some (a := (0, b, buf)) hb).congr
      (iff_true_intro fun _ h => absurd h (Nat.not_lt.mpr hoff))
  rw [if_neg hoff]
  have hexact := readLoop_exact ino off remaining (remaining + 1) 0 (Nat.zero_le _) (by omega) hb buf
  refine (hexact.bind fun _ out hout => Exact.some (a := (toInt out.1, out.2)) hout).congr ?_
  constructor
  · exact fun h => ⟨h (not_not.mp hhigh) (Nat.lt_of_not_le hoff), trivial⟩
  · exact fun h _ _ => h.1

end Checked

/-! ## All reads of a file -/

/-- The blocks of a file that are looked up by its reads: those inside it and, as the test of the
length wraps, those behind it as long as each can be read. -/
inductive Ext4.LookedUp (fs : Ext4) (ino : Ext4Inode) : Nat → Prop
  | inside {l : Nat} (h : l * fs.blockSize < ino.iSizeLo) : fs.LookedUp ino l
  | behind {l : Nat} (h : fs.LookedUp ino l) (hread : fs.fileBlock ino l ≠ none)
      (hsize : 2 ≤ ino.iSizeLo) (hlt : (l + 1) * fs.blockSize < 2 ^ 32) : fs.LookedUp ino (l + 1)

/-- Every read of the file comes to its end. -/
def Ext4.ReadsEnd (fs : Ext4) (ino : Ext4Inode) : Prop :=
  ∀ l, fs.LookedUp ino l → fs.LookupEnds ino l

section Reads

variable {ino : Ext4Inode} {off remaining : Nat}

/-- A turn that is not the last ends at a block boundary. -/
theorem chunk_next {done : Nat} (hmore : done + fs.chunk off remaining done < remaining) :
    u32 (off + done) + fs.chunk off remaining done =
      (u32 (off + done) / fs.blockSize + 1) * fs.blockSize := by
  have hmod : u32 (off + done) % fs.blockSize < fs.blockSize := Nat.mod_lt _ fs.pos.1
  have hdiv := Nat.div_add_mod (u32 (off + done)) fs.blockSize
  rw [Nat.succ_mul, Nat.mul_comm (u32 (off + done) / fs.blockSize)]
  unfold Ext4.chunk at hmore ⊢
  omega

/-- A block boundary within 32 bits, or the end of them. -/
theorem boundary_le (fs : Ext4) {pos : Nat} (hpos : pos < 2 ^ 32) :
    (pos / fs.blockSize + 1) * fs.blockSize ≤ 2 ^ 32 := by
  obtain ⟨k, hk⟩ := fs.pos.2.1
  rw [hk] at hpos ⊢
  rw [Nat.mul_comm]
  exact Nat.mul_le_mul_left _ (Nat.div_lt_of_lt_mul hpos)

/-- A position in a block that begins within 32 bits. -/
theorem position_lt (fs : Ext4) {pos l : Nat} (hl : l * fs.blockSize < 2 ^ 32)
    (hle : pos / fs.blockSize ≤ l) : pos < 2 ^ 32 := by
  have hend := boundary_le fs hl
  rw [Nat.mul_div_cancel _ fs.pos.1] at hend
  calc pos < (pos / fs.blockSize + 1) * fs.blockSize :=
        (Nat.lt_mul_div_succ pos fs.pos.1).trans_eq (Nat.mul_comm ..)
    _ ≤ (l + 1) * fs.blockSize := Nat.mul_le_mul_right _ (Nat.succ_le_succ hle)
    _ ≤ 2 ^ 32 := hend

theorem Ext4.ReadsEnd.loopEnds (h : fs.ReadsEnd ino) (hsmall : ino.iSizeLo ≤ 1 → remaining ≤ 1)
    (hsize : 0 < ino.iSizeLo) (turns done : Nat)
    (hnow : done < remaining → fs.LookedUp ino (u32 (off + done) / fs.blockSize)) :
    fs.LoopEnds ino off remaining turns done := by
  induction turns generalizing done with
  | zero => trivial
  | succ turns ih =>
      refine fun hmore => ⟨h _ (hnow hmore), fun hread => ih _ fun hnext => ?_⟩
      have hchunk := chunk_next hnext
      have hle := boundary_le fs (u32_lt (off + done))
      have hpos : u32 (off + (done + fs.chunk off remaining done)) =
          u32 (u32 (off + done) + fs.chunk off remaining done) := by
        rw [← Nat.add_assoc]
        exact (Nat.mod_add_mod _ _ _).symm
      rw [hpos, hchunk]
      rcases Nat.lt_or_eq_of_le hle with hlt | heq
      · rw [u32_of_lt hlt, Nat.mul_div_cancel _ fs.pos.1]
        refine .behind (hnow hmore) hread ?_ hlt
        by_contra hno
        have hone := hsmall (by omega)
        have hmove := (chunk_pos fs off hmore).1
        omega
      · have hwrap : u32 (2 ^ 32) = 0 := rfl
        rw [heq, hwrap, Nat.zero_div]
        exact .inside (by rwa [Nat.zero_mul])

/-- A read that comes to its end has looked up all the blocks that it could come to. -/
theorem loopEnds_reach {l : Nat} (hend : off + remaining = 2 ^ 32) (hl : l * fs.blockSize < 2 ^ 32)
    {turns done : Nat} (hends : fs.LoopEnds ino off remaining turns done)
    (hturns : remaining < done + turns) (hle : (off + done) / fs.blockSize ≤ l)
    (hread : ∀ j, (off + done) / fs.blockSize ≤ j → j < l → fs.fileBlock ino j ≠ none) :
    fs.LookupEnds ino l := by
  induction turns generalizing done with
  | zero =>
      have hpos := position_lt fs hl hle
      omega
  | succ turns ih =>
      have hpos := position_lt fs hl hle
      have hmore : done < remaining := by omega
      obtain ⟨hlook, hrest⟩ := hends hmore
      rw [u32_of_lt hpos] at hlook hrest
      by_cases hlast : (off + done) / fs.blockSize = l
      · rwa [hlast] at hlook
      have hlt : (off + done) / fs.blockSize < l := Nat.lt_of_le_of_ne hle hlast
      -- The read goes on at the start of the next block.
      have hnext : off + (done + fs.chunk off remaining done) =
          ((off + done) / fs.blockSize + 1) * fs.blockSize := by
        have hbefore : ((off + done) / fs.blockSize + 1) * fs.blockSize ≤ l * fs.blockSize :=
          Nat.mul_le_mul_right _ hlt
        have hmod : (off + done) % fs.blockSize < fs.blockSize := Nat.mod_lt _ fs.pos.1
        have hdiv := Nat.div_add_mod (off + done) fs.blockSize
        rw [Nat.succ_mul, Nat.mul_comm ((off + done) / fs.blockSize)] at hbefore ⊢
        unfold Ext4.chunk
        rw [u32_of_lt hpos]
        omega
      have hblock : (off + (done + fs.chunk off remaining done)) / fs.blockSize =
          (off + done) / fs.blockSize + 1 := by
        rw [hnext, Nat.mul_div_cancel _ fs.pos.1]
      have hmove := (chunk_pos fs off hmore).1
      refine ih (hrest (hread _ le_rfl hlt)) (by omega) (hblock ▸ hlt) fun j hj hjl => ?_
      rw [hblock] at hj
      exact hread j (Nat.le_of_succ_le hj) hjl

/-- What is looked up lies inside the file, or behind it and behind blocks that can be read. -/
theorem Ext4.LookedUp.chain {l : Nat} (h : fs.LookedUp ino l) :
    ∃ l₀, l₀ * fs.blockSize < ino.iSizeLo ∧ l₀ ≤ l ∧
      (l₀ = l ∨ 2 ≤ ino.iSizeLo ∧ l * fs.blockSize < 2 ^ 32) ∧
      ∀ j, l₀ ≤ j → j < l → fs.fileBlock ino j ≠ none := by
  induction h with
  | @inside l h => exact ⟨l, h, le_rfl, .inl rfl, fun j hle hlt => absurd hlt (Nat.not_lt.mpr hle)⟩
  | @behind l h hread hsize hlt ih =>
      obtain ⟨l₀, hin, hle, -, hchain⟩ := ih
      refine ⟨l₀, hin, Nat.le_succ_of_le hle, .inr ⟨hsize, hlt⟩, fun j hj hjl => ?_⟩
      rcases Nat.lt_or_eq_of_le (Nat.le_of_lt_succ hjl) with hlt | rfl
      · exact hchain j hj hlt
      · exact hread

/-- The reads of the file come to their end exactly if all the blocks that they look up can be
looked up. -/
theorem readsEnd_iff (hsize : ino.iSizeLo < 2 ^ 32) :
    fs.ReadsEnd ino ↔ ∀ off len, off < ino.iSizeLo → len < 2 ^ 32 →
      let remaining := if u32 (off + len) > ino.iSizeLo then ino.iSizeLo - off else len
      fs.LoopEnds ino off remaining (remaining + 1) 0 := by
  constructor
  · intro h off len hoff hlen remaining
    have hfirst : u32 (off + 0) = off := u32_of_lt (hoff.trans hsize)
    refine h.loopEnds (fun hsmall => ?_) (Nat.zero_lt_of_lt hoff) _ 0 fun _ => ?_
    · have hzero : off = 0 := by omega
      show (if u32 (off + len) > ino.iSizeLo then ino.iSizeLo - off else len) ≤ 1
      rw [hzero, Nat.zero_add, u32_of_lt hlen]
      split <;> omega
    · rw [hfirst]
      exact .inside ((Nat.div_mul_le_self ..).trans_lt hoff)
  · intro h l hl
    obtain ⟨l₀, hin, hle, hlast, hchain⟩ := hl.chain
    rcases hlast with rfl | ⟨htwo, hlt⟩
    · -- One byte of the block.
      have hone := h (l₀ * fs.blockSize) 1 hin (by decide)
      have hfits : ¬ u32 (l₀ * fs.blockSize + 1) > ino.iSizeLo := by
        rw [u32_of_lt (by omega)]
        omega
      dsimp only at hone
      rw [if_neg hfits] at hone
      have hlook := (hone Nat.one_pos).1
      rwa [Nat.add_zero, u32_of_lt (hin.trans hsize), Nat.mul_div_cancel _ fs.pos.1] at hlook
    · -- From the block inside the file up to the end of the numbers.
      have hbig : 1 < fs.blockSize := by rcases fs.known with h | h | h <;> rw [h] <;> decide
      have hoff : ∃ off, 0 < off ∧ off < ino.iSizeLo ∧ off / fs.blockSize = l₀ := by
        by_cases hzero : l₀ = 0
        · exact ⟨1, Nat.one_pos, htwo, by rw [hzero]; exact Nat.div_eq_of_lt hbig⟩
        · exact ⟨l₀ * fs.blockSize, Nat.mul_pos (Nat.pos_of_ne_zero hzero) fs.pos.1, hin,
            Nat.mul_div_cancel _ fs.pos.1⟩
      obtain ⟨off, hpos, hoff, rfl⟩ := hoff
      have hread := h off (2 ^ 32 - off) hoff (by omega)
      have hsum : off + (2 ^ 32 - off) = 2 ^ 32 := by omega
      have hfits : ¬ u32 (off + (2 ^ 32 - off)) > ino.iSizeLo := by
        rw [hsum]
        exact Nat.not_lt_zero _
      dsimp only at hread
      rw [if_neg hfits] at hread
      exact loopEnds_reach hsum hlt hread (by omega) hle hchain

end Reads

end Sugimotos.Fs
