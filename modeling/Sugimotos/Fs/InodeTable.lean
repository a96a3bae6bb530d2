/-
# Inodes on the disk

Where the format puts the group descriptors and the inodes, and where `ext4_mount` and
`read_inode` look for them.  `s_desc_size` is read 96 bytes behind its place, and a copy of a
descriptor has 44 bytes, 12 more than a small descriptor.
-/

import Sugimotos.Fs.Ext4Read
import Sugimotos.Fs.Inodes

namespace Sugimotos.Fs

open Sugimotos.Mm

variable {fs : Ext4}

/-! ## What the code computes -/

/-- The fields of `struct ext4_super` that finding an inode needs. -/
structure Ext4Super where
  sInodesPerGroup : Nat
  sInodeSize : Nat
  sDescSize : Nat

/-- The superblock in the bytes of `sbraw`. -/
def superblock (sbraw : Nat → UInt8) : Ext4Super where
  sInodesPerGroup := le32 sbraw 40
  sInodeSize := le16 sbraw 88
  sDescSize := le16 sbraw 350

/-- What `ext4_mount` sets from the superblock. -/
def mountSizes (sb : Ext4Super) : Ext4Sizes where
  sInodesPerGroup := sb.sInodesPerGroup
  inodeSize := if sb.sInodeSize ≠ 0 then sb.sInodeSize else 128
  descSize := if sb.sDescSize ≠ 0 then sb.sDescSize else 32

/-- The bytes from the start of `block_buf` on, with those of other variables behind it. -/
def fromBlockBuf (blockBuf others : Nat → UInt8) : Nat → UInt8 := fun n =>
  if n < 4096 then blockBuf n else others (n - 4096)

/-- `load_group_desc`, which may copy bytes from behind `block_buf`. -/
def Ext4.loadGroupDescFrom (fs : Ext4) (others : Nat → UInt8) (sizes : Ext4Sizes) (group : Nat) :
    Option Ext4GroupDesc :=
  let gdTableBlock := if fs.blockSize = 1024 then 2 else 1
  let gdsPerBlock := fs.blockSize / sizes.descSize
  let block := u32 (gdTableBlock + group / gdsPerBlock)
  let indexInBlock := group % gdsPerBlock
  (fs.readBlock block).map fun blockBuf =>
    groupDesc fun n => fromBlockBuf blockBuf others (indexInBlock * sizes.descSize + n)

/-- `read_inode`, with the bytes it copies to `out`. -/
def Ext4.readInodeBytes (fs : Ext4) (others : Nat → UInt8) (sizes : Ext4Sizes) (inum : Nat) :
    Option (Nat → UInt8) :=
  if inum = 0 then none
  else
    let idx := inum - 1
    let group := idx / sizes.sInodesPerGroup
    let local' := idx % sizes.sInodesPerGroup
    match fs.loadGroupDescFrom others sizes group with
    | none => none
    | some gd =>
        if gd.bgInodeTableHi ≠ 0 then none
        else
          let inodeOff := u32 (local' * sizes.inodeSize)
          let block := u32 (gd.bgInodeTableLo + inodeOff / fs.blockSize)
          let offInBlock := inodeOff % fs.blockSize
          match fs.readBlock block with
          | none => none
          | some blockBuf =>
              if u32 (offInBlock + sizes.inodeSize) ≤ fs.blockSize then
                some fun n => blockBuf (offInBlock + n)
              else
                let first := fs.blockSize - offInBlock
                (fs.readBlock (u32 (block + 1))).map fun blockBuf2 n =>
                  if n < first then blockBuf (offInBlock + n) else blockBuf2 (n - first)

/-! ## What the format says -/

/-- The first kilobyte of the superblock. -/
def Ext4.sbraw (fs : Ext4) : Nat → UInt8 := fun n => fs.disk (2 + n / sectorSize) (n % sectorSize)

abbrev ext4SuperMagic : Nat := 0xEF53
abbrev incompatMetaBg : Nat := 0x10
abbrev incompat64bit : Nat := 0x80

/-- A valid image: where the blocks of the group descriptors lie, and what the superblock and
the descriptors may say. -/
structure Ext4Image (fs : Ext4) where
  descSize : Nat
  descBlock : Nat → Nat
  magic : le16 fs.sbraw 56 = ext4SuperMagic
  blockSize : fs.blockSize = 1024 * 2 ^ le32 fs.sbraw 24
  inodesPerGroup : 0 < le32 fs.sbraw 40 ∧ le32 fs.sbraw 40 ≤ 8 * fs.blockSize
  inodeSize : ∃ e, le16 fs.sbraw 88 = 2 ^ e ∧ 128 ≤ 2 ^ e ∧ 2 ^ e ≤ fs.blockSize
  wantExtraIsize : le16 fs.sbraw 350 + 128 ≤ le16 fs.sbraw 88
  small : le32 fs.sbraw 96 &&& incompat64bit = 0 → descSize = 32
  large : le32 fs.sbraw 96 &&& incompat64bit ≠ 0 → descSize = le16 fs.sbraw 254 ∧
    ∃ e, descSize = 2 ^ e ∧ 64 ≤ descSize ∧ descSize ≤ 1024
  follows : le32 fs.sbraw 96 &&& incompatMetaBg = 0 →
    ∀ n, descBlock n = (if fs.blockSize = 1024 then 2 else 1) + n

namespace Ext4Image

variable (img : Ext4Image fs)

/-- The group of an inode. -/
def group (fs : Ext4) (inum : Nat) : Nat := (inum - 1) / le32 fs.sbraw 40

/-- How far into its table an inode lies. -/
def tableOff (fs : Ext4) (inum : Nat) : Nat := (inum - 1) % le32 fs.sbraw 40 * le16 fs.sbraw 88

/-- The bytes of a group descriptor. -/
def desc (group n : Nat) : UInt8 :=
  let perBlock := fs.blockSize / img.descSize
  fs.diskByte (img.descBlock (group / perBlock)) (group % perBlock * img.descSize + n)

/-- Where the table of inodes of a group begins. -/
def table (group : Nat) : Nat :=
  le32 (img.desc group) 8 +
    if le32 fs.sbraw 96 &&& incompat64bit = 0 then 0 else 2 ^ 32 * le32 (img.desc group) 40

/-- The bytes of an inode. -/
def inode (inum n : Nat) : UInt8 :=
  let off := tableOff fs inum
  fs.diskByte (img.table (group fs inum) + off / fs.blockSize) (off % fs.blockSize + n)

/-- `sizeof(struct ext4_inode)`. -/
abbrev inodeBytes : Nat := 116

/-- `read_inode` succeeds and returns the first bytes of the inode. -/
def Returned (others : Nat → UInt8) (inum : Nat) : Prop :=
  ∃ out, fs.readInodeBytes others (mountSizes (superblock fs.sbraw)) inum = some out ∧
    ∀ n, n < inodeBytes → out n = img.inode inum n

end Ext4Image

/-! ## Where the code looks -/

/-- A block in `block_buf`: the sectors that numbers of 32 bits lead to, then zeros. -/
def Ext4.blockBufOf (fs : Ext4) (block : Nat) : Nat → UInt8 := fun n =>
  if n < fs.blockSize then fs.readByte block n else 0

/-- The bytes that the code takes for the descriptor of a group. -/
def Ext4.takenDesc (fs : Ext4) (others : Nat → UInt8) (group : Nat) : Nat → UInt8 :=
  let descSize := (mountSizes (superblock fs.sbraw)).descSize
  let gdsPerBlock := fs.blockSize / descSize
  let block := u32 ((if fs.blockSize = 1024 then 2 else 1) + group / gdsPerBlock)
  fun n => fromBlockBuf (fs.blockBufOf block) others (group % gdsPerBlock * descSize + n)

/-- The word taken for the high half of the table's block is zero, and the table taken has the
bytes of the inode at its place. -/
structure Ext4Image.Found (img : Ext4Image fs) (others : Nat → UInt8) (inum : Nat) : Prop where
  high : le32 (fs.takenDesc others (group fs inum)) 40 = 0
  bytes : ∀ n, n < inodeBytes →
    fs.readByte (u32 (le32 (fs.takenDesc others (group fs inum)) 8 + tableOff fs inum / fs.blockSize))
      (tableOff fs inum % fs.blockSize + n) = img.inode inum n

/-! ## Reading -/

/-- What `read_block` leaves in a buffer of zeros. -/
theorem readSectors_rest (first : Nat) (buf : Nat → UInt8) (i : Nat) {out : Nat → UInt8}
    (h : fs.readSectors first buf i = some out) {n : Nat} (hn : i * sectorSize ≤ n) :
    out n = buf n := by
  induction i generalizing out with
  | zero =>
      cases h
      rfl
  | succ i ih =>
      rw [Ext4.readSectors, Option.bind_eq_some_iff] at h
      obtain ⟨buf', hbuf', hread⟩ := h
      obtain ⟨bytes, -, rfl⟩ := Option.map_eq_some_iff.mp hread
      rw [Nat.succ_mul] at hn
      have hout : ¬ (i * sectorSize ≤ n ∧ n < i * sectorSize + sectorSize) :=
        fun hin => absurd hn (Nat.not_le.mpr hin.2)
      rw [copyBytes, if_neg hout]
      exact ih hbuf' (Nat.le_of_add_right_le hn)

theorem readBlock_rest {block : Nat} {out : Nat → UInt8} (h : fs.readBlock block = some out)
    {n : Nat} (hn : fs.blockSize ≤ n) : out n = 0 := by
  apply readSectors_rest _ _ _ h
  rw [fs.pos.2.2]
  exact hn

theorem readBlock_eq (h : fs.Answers) (block : Nat) :
    fs.readBlock block = some (fs.blockBufOf block) := by
  obtain ⟨out, hout, hbytes⟩ := readBlock_spec h block
  rw [hout]
  congr 1
  funext n
  unfold Ext4.blockBufOf
  by_cases hn : n < fs.blockSize
  · rw [if_pos hn, hbytes n hn]
  · rw [if_neg hn, readBlock_rest hout (Nat.le_of_not_lt hn)]

/-- Where zeros lie behind `block_buf`, this is `read_inode` as it is mounted with. -/
theorem readInode_eq (sizes : Ext4Sizes) (inum : Nat) :
    fs.readInode sizes inum = (fs.readInodeBytes (fun _ => 0) sizes inum).map inodeOf := by
  have hblock : ∀ {block : Nat} {out : Nat → UInt8}, fs.readBlock block = some out →
      fromBlockBuf out (fun _ => 0) = out := by
    intro block out hout
    funext n
    unfold fromBlockBuf
    have hle : fs.blockSize ≤ 4096 := by rcases fs.known with h | h | h <;> omega
    split
    · rfl
    · rw [readBlock_rest hout (by omega)]
  have hdesc : ∀ group, fs.loadGroupDescFrom (fun _ => 0) sizes group = fs.loadGroupDesc sizes group := by
    intro group
    unfold Ext4.loadGroupDescFrom Ext4.loadGroupDesc
    dsimp only
    cases hread : fs.readBlock (u32 ((if fs.blockSize = 1024 then 2 else 1) +
        group / (fs.blockSize / sizes.descSize))) with
    | none => rfl
    | some out => rw [Option.map_some, Option.map_some, hblock hread]
  unfold Ext4.readInode Ext4.readInodeBytes
  simp only [hdesc]
  by_cases hinum : inum = 0
  · rw [if_pos hinum, if_pos hinum]
    rfl
  rw [if_neg hinum, if_neg hinum]
  cases fs.loadGroupDesc sizes ((inum - 1) / sizes.sInodesPerGroup) with
  | none => rfl
  | some gd =>
      dsimp only
      by_cases hhigh : gd.bgInodeTableHi = 0
      · rw [if_neg (not_not.mpr hhigh), if_neg (not_not.mpr hhigh)]
        generalize u32 ((inum - 1) % sizes.sInodesPerGroup * sizes.inodeSize) = inodeOff
        cases fs.readBlock (u32 (gd.bgInodeTableLo + inodeOff / fs.blockSize)) with
        | none => rfl
        | some blockBuf =>
            dsimp only
            by_cases hin : u32 (inodeOff % fs.blockSize + sizes.inodeSize) ≤ fs.blockSize
            · rw [if_pos hin, if_pos hin]
              rfl
            · rw [if_neg hin, if_neg hin, Option.map_map]
              rfl
      · rw [if_pos hhigh, if_pos hhigh]
        rfl

/-! ## The inode of a valid image -/

namespace Ext4Image

variable (img : Ext4Image fs)
include img

theorem mountSizes_inodeSize : (mountSizes (superblock fs.sbraw)).inodeSize = le16 fs.sbraw 88 := by
  obtain ⟨e, hsize, hlarge, -⟩ := img.inodeSize
  refine if_pos ?_
  change le16 fs.sbraw 88 ≠ 0
  omega

/-- An inode does not cross the end of a block. -/
theorem inode_inside (inum : Nat) :
    tableOff fs inum % fs.blockSize + le16 fs.sbraw 88 ≤ fs.blockSize := by
  obtain ⟨e, hsize, -, hle⟩ := img.inodeSize
  have hdvd : 2 ^ e ∣ fs.blockSize := by
    obtain ⟨b, hb⟩ : ∃ b, fs.blockSize = 2 ^ b := by
      rcases fs.known with h | h | h
      · exact ⟨10, h⟩
      · exact ⟨11, h⟩
      · exact ⟨12, h⟩
    rw [hb] at hle ⊢
    exact Nat.pow_dvd_pow 2 ((Nat.pow_le_pow_iff_right (by decide)).mp hle)
  obtain ⟨m, hm⟩ := hdvd
  unfold tableOff
  rw [hsize, Nat.mul_comm, hm, Nat.mul_mod_mul_left, ← Nat.mul_succ]
  apply Nat.mul_le_mul_left
  apply Nat.mod_lt
  have hpos := fs.pos.1
  rw [hm] at hpos
  exact Nat.pos_of_mul_pos_left hpos

theorem tableOff_lt (inum : Nat) : tableOff fs inum < 2 ^ 32 := by
  obtain ⟨e, hsize, -, hle⟩ := img.inodeSize
  obtain ⟨hpos, hfew⟩ := img.inodesPerGroup
  have hbound : fs.blockSize ≤ 4096 := by rcases fs.known with h | h | h <;> omega
  have hlocal : (inum - 1) % le32 fs.sbraw 40 < 32768 := by
    have := Nat.mod_lt (inum - 1) hpos
    omega
  unfold tableOff
  calc (inum - 1) % le32 fs.sbraw 40 * le16 fs.sbraw 88
      ≤ 32768 * 4096 := Nat.mul_le_mul hlocal.le (by omega)
    _ < 2 ^ 32 := by decide

omit img in
theorem loadGroupDescFrom_eq (h : fs.Answers) (others : Nat → UInt8) (group : Nat) :
    fs.loadGroupDescFrom others (mountSizes (superblock fs.sbraw)) group =
      some (groupDesc (fs.takenDesc others group)) := by
  unfold Ext4.loadGroupDescFrom
  dsimp only
  rw [readBlock_eq h]
  rfl

/-- `read_inode` on a valid image. -/
theorem readInodeBytes_eq (h : fs.Answers) {inum : Nat} (hpos : 0 < inum) (others : Nat → UInt8) :
    fs.readInodeBytes others (mountSizes (superblock fs.sbraw)) inum =
      if le32 (fs.takenDesc others (group fs inum)) 40 ≠ 0 then none
      else some fun n => fs.blockBufOf
        (u32 (le32 (fs.takenDesc others (group fs inum)) 8 + tableOff fs inum / fs.blockSize))
        (tableOff fs inum % fs.blockSize + n) := by
  have hsize := img.mountSizes_inodeSize
  have hinside := img.inode_inside inum
  have hoff : u32 ((inum - 1) % (mountSizes (superblock fs.sbraw)).sInodesPerGroup *
      (mountSizes (superblock fs.sbraw)).inodeSize) = tableOff fs inum := by
    rw [hsize]
    exact Nat.mod_eq_of_lt (img.tableOff_lt inum)
  have hgroup : (inum - 1) / (mountSizes (superblock fs.sbraw)).sInodesPerGroup = group fs inum := rfl
  have hbound : fs.blockSize ≤ 4096 := by rcases fs.known with h | h | h <;> omega
  have hfits : u32 (tableOff fs inum % fs.blockSize + le16 fs.sbraw 88) ≤ fs.blockSize := by
    unfold u32
    rw [Nat.mod_eq_of_lt (by omega)]
    exact hinside
  unfold Ext4.readInodeBytes
  rw [if_neg (by omega)]
  dsimp only
  rw [hoff, hgroup, loadGroupDescFrom_eq h, hsize]
  dsimp only [groupDesc]
  rw [readBlock_eq h]
  dsimp only
  rw [if_pos hfits]

/-- `read_inode` returns the inode exactly where it is found. -/
theorem returned_iff (h : fs.Answers) {inum : Nat} (hpos : 0 < inum) (others : Nat → UInt8) :
    img.Returned others inum ↔ img.Found others inum := by
  unfold Returned
  rw [img.readInodeBytes_eq h hpos others]
  by_cases hhigh : le32 (fs.takenDesc others (group fs inum)) 40 = 0
  · rw [if_neg (not_not.mpr hhigh)]
    have hin : ∀ n, n < inodeBytes → tableOff fs inum % fs.blockSize + n < fs.blockSize := by
      intro n hn
      have hinside := img.inode_inside inum
      obtain ⟨e, hsize, hlarge, -⟩ := img.inodeSize
      unfold inodeBytes at hn
      omega
    constructor
    · rintro ⟨out, hout, hbytes⟩
      cases hout
      refine ⟨hhigh, fun n hn => ?_⟩
      rw [← hbytes n hn]
      exact (if_pos (hin n hn)).symm
    · intro hfound
      refine ⟨_, rfl, fun n hn => ?_⟩
      rw [← hfound.bytes n hn]
      exact if_pos (hin n hn)
  · rw [if_pos hhigh]
    apply iff_of_false
    · rintro ⟨out, hout, -⟩
      cases hout
    · intro hfound
      exact hhigh hfound.high

/-! ## Images whose descriptors are in place -/

/-- The size of a descriptor that the code goes by: `s_want_extra_isize`, or 32 for 0. -/
def usedDescSize (fs : Ext4) : Nat := if le16 fs.sbraw 350 ≠ 0 then le16 fs.sbraw 350 else 32

/-- The code looks for the descriptor where the format has it, and the blocks of the descriptor
and of the inode have sectors with numbers of 32 bits. -/
structure InPlace (inum : Nat) : Prop where
  descBlock : (if fs.blockSize = 1024 then 2 else 1) +
    group fs inum / (fs.blockSize / usedDescSize fs) =
      img.descBlock (group fs inum / (fs.blockSize / img.descSize))
  descOff : group fs inum % (fs.blockSize / usedDescSize fs) * usedDescSize fs =
    group fs inum % (fs.blockSize / img.descSize) * img.descSize
  descSectors : fs.SectorsFit (img.descBlock (group fs inum / (fs.blockSize / img.descSize)))
  tableSectors : fs.SectorsFit (img.table (group fs inum) + tableOff fs inum / fs.blockSize)

/-- The word behind a descriptor of 32 bytes that is taken for the high half of the table's
block: it belongs to the next descriptor of the block, or lies behind `block_buf`. -/
structure NextZero (others : Nat → UInt8) (inum : Nat) : Prop where
  inside : img.descSize = 32 →
    group fs inum % (fs.blockSize / 32) + 1 < fs.blockSize / 32 →
      le32 (img.desc (group fs inum + 1)) 8 = 0
  behind : img.descSize = 32 → fs.blockSize = 4096 → group fs inum % 128 = 127 →
    le32 others 8 = 0

/-- A descriptor fits a whole number of times into a block. -/
theorem descSize_dvd : img.descSize ∣ fs.blockSize ∧ 32 ≤ img.descSize := by
  have hdvd : ∀ e, 2 ^ e ≤ 1024 → 2 ^ e ∣ fs.blockSize := by
    intro e he
    have hten : 2 ^ e ∣ 2 ^ 10 := by
      apply Nat.pow_dvd_pow 2
      exact (Nat.pow_le_pow_iff_right (by decide)).mp he
    refine hten.trans ?_
    rcases fs.known with h | h | h <;> rw [h] <;> decide
  by_cases hfeature : le32 fs.sbraw 96 &&& incompat64bit = 0
  · rw [img.small hfeature]
    exact ⟨hdvd 5 (by decide), le_rfl⟩
  · obtain ⟨-, e, hpow, hlow, hhigh⟩ := img.large hfeature
    refine ⟨?_, by omega⟩
    rw [hpow]
    exact hdvd e (hpow ▸ hhigh)

/-- The descriptor of a group lies within its block. -/
theorem desc_inside (group : Nat) :
    0 < fs.blockSize / img.descSize ∧
      group % (fs.blockSize / img.descSize) * img.descSize + img.descSize ≤ fs.blockSize := by
  obtain ⟨hdvd, hlarge⟩ := img.descSize_dvd
  have hper : 0 < fs.blockSize / img.descSize :=
    Nat.div_pos (Nat.le_of_dvd fs.pos.1 hdvd) (by omega)
  have hlt := Nat.mod_lt group hper
  refine ⟨hper, ?_⟩
  calc group % (fs.blockSize / img.descSize) * img.descSize + img.descSize
      = (group % (fs.blockSize / img.descSize) + 1) * img.descSize := by rw [Nat.succ_mul]
    _ ≤ fs.blockSize / img.descSize * img.descSize := Nat.mul_le_mul_right _ hlt
    _ = fs.blockSize := Nat.div_mul_cancel hdvd

variable {img} {inum : Nat}

omit img in
/-- The bytes of words that are the same. -/
theorem le32_congr {bytes bytes' : Nat → UInt8} {n n' : Nat}
    (h : ∀ j, j < 4 → bytes (n + j) = bytes' (n' + j)) : le32 bytes n = le32 bytes' n' := by
  have h0 : bytes n = bytes' n' := h 0 (by decide)
  simp only [le32, le16, Nat.add_assoc, Nat.reduceAdd, h0, h 1 (by decide), h 2 (by decide),
    h 3 (by decide)]

omit img in
theorem four_kilobytes (fs : Ext4) : fs.blockSize ≤ 4096 := by
  rcases fs.known with h | h | h <;> omega

/-- What is taken for a descriptor in place, up to the end of its block. -/
theorem InPlace.takenDesc_eq (h : img.InPlace inum) (others : Nat → UInt8) {j : Nat}
    (hj : group fs inum % (fs.blockSize / img.descSize) * img.descSize + j < fs.blockSize) :
    fs.takenDesc others (group fs inum) j = img.desc (group fs inum) j := by
  have hbound := four_kilobytes fs
  have hsectors := h.descSectors
  unfold Ext4.takenDesc desc
  change fromBlockBuf (fs.blockBufOf (u32 (_ + group fs inum / (fs.blockSize / usedDescSize fs))))
    others (group fs inum % (fs.blockSize / usedDescSize fs) * usedDescSize fs + j) = _
  rw [h.descBlock, h.descOff, u32_of_lt hsectors.lt, fromBlockBuf, if_pos (by omega), Ext4.blockBufOf,
    if_pos hj]
  exact hsectors.readByte_eq hj

/-- Behind the block lie zeros, and behind `block_buf` other variables. -/
theorem InPlace.takenDesc_behind (h : img.InPlace inum) (others : Nat → UInt8) {j : Nat}
    (hj : fs.blockSize ≤ group fs inum % (fs.blockSize / img.descSize) * img.descSize + j) :
    fs.takenDesc others (group fs inum) j =
      if group fs inum % (fs.blockSize / img.descSize) * img.descSize + j < 4096 then 0
      else others (group fs inum % (fs.blockSize / img.descSize) * img.descSize + j - 4096) := by
  unfold Ext4.takenDesc
  change fromBlockBuf (fs.blockBufOf (u32 (_ + group fs inum / (fs.blockSize / usedDescSize fs))))
    others (group fs inum % (fs.blockSize / usedDescSize fs) * usedDescSize fs + j) = _
  rw [h.descOff, fromBlockBuf, Ext4.blockBufOf, if_neg (Nat.not_lt.mpr hj)]

/-- A word of a descriptor in place. -/
theorem InPlace.word_eq (h : img.InPlace inum) (others : Nat → UInt8) {n : Nat}
    (hn : n + 4 ≤ img.descSize) :
    le32 (fs.takenDesc others (group fs inum)) n = le32 (img.desc (group fs inum)) n := by
  have hinside := (img.desc_inside (group fs inum)).2
  apply le32_congr
  intro j hj
  exact h.takenDesc_eq others (by omega)

/-- The table's block has no high half. -/
theorem InPlace.table_low (h : img.InPlace inum) :
    img.table (group fs inum) = le32 (img.desc (group fs inum)) 8 ∧
      (le32 fs.sbraw 96 &&& incompat64bit ≠ 0 → le32 (img.desc (group fs inum)) 40 = 0) := by
  have hbelow : img.table (group fs inum) < 2 ^ 32 :=
    (Nat.le_add_right _ _).trans_lt h.tableSectors.lt
  unfold table at hbelow ⊢
  by_cases hfeature : le32 fs.sbraw 96 &&& incompat64bit = 0
  · rw [if_pos hfeature]
    exact ⟨Nat.add_zero _, fun hno => absurd hfeature hno⟩
  · rw [if_neg hfeature] at hbelow ⊢
    have hhigh : le32 (img.desc (group fs inum)) 40 = 0 := by omega
    rw [hhigh]
    exact ⟨rfl, fun _ => rfl⟩

/-- Of a small descriptor, the word taken for the high half is the table of the next group. -/
theorem InPlace.high_inside (h : img.InPlace inum) (others : Nat → UInt8) (hsmall : img.descSize = 32)
    (hnext : group fs inum % (fs.blockSize / 32) + 1 < fs.blockSize / 32) :
    le32 (fs.takenDesc others (group fs inum)) 40 = le32 (img.desc (group fs inum + 1)) 8 := by
  have hinside : (group fs inum % (fs.blockSize / 32) + 1) * 32 + 32 ≤ fs.blockSize := by
    have := Nat.div_mul_le_self fs.blockSize 32
    omega
  have hsplit : (group fs inum + 1) / (fs.blockSize / 32) = group fs inum / (fs.blockSize / 32) ∧
      (group fs inum + 1) % (fs.blockSize / 32) = group fs inum % (fs.blockSize / 32) + 1 := by
    refine (Nat.div_mod_unique (by omega)).mpr ⟨?_, hnext⟩
    have := Nat.mod_add_div (group fs inum) (fs.blockSize / 32)
    omega
  apply le32_congr
  intro j hj
  rw [h.takenDesc_eq others (by rw [hsmall]; omega)]
  unfold desc
  dsimp only
  rw [hsmall, hsplit.1, hsplit.2]
  congr 1
  omega

/-- Of the last small descriptor of a block, it lies behind the block. -/
theorem InPlace.high_last (h : img.InPlace inum) (others : Nat → UInt8) (hsmall : img.descSize = 32)
    (hlast : fs.blockSize / 32 ≤ group fs inum % (fs.blockSize / 32) + 1) :
    le32 (fs.takenDesc others (group fs inum)) 40 =
      if fs.blockSize = 4096 then le32 others 8 else 0 := by
  have hend : group fs inum % (fs.blockSize / 32) * 32 + 32 = fs.blockSize := by
    have hlt : group fs inum % (fs.blockSize / 32) < fs.blockSize / 32 :=
      Nat.mod_lt _ (by rcases fs.known with hb | hb | hb <;> rw [hb] <;> decide)
    have hdvd : fs.blockSize / 32 * 32 = fs.blockSize := by
      rcases fs.known with hb | hb | hb <;> rw [hb]
    omega
  have hbytes : ∀ j, 32 ≤ j → fs.takenDesc others (group fs inum) j =
      if fs.blockSize - 32 + j < 4096 then 0 else others (fs.blockSize - 32 + j - 4096) := by
    intro j hj
    have hplace : group fs inum % (fs.blockSize / 32) * 32 = fs.blockSize - 32 := by omega
    rw [h.takenDesc_behind others (by rw [hsmall, hplace]; omega), hsmall, hplace]
  by_cases hfull : fs.blockSize = 4096
  · rw [if_pos hfull]
    apply le32_congr
    intro j _
    have hat : fs.blockSize - 32 + (40 + j) - 4096 = 8 + j := by omega
    rw [hbytes _ (by omega), if_neg (by omega), hat]
  · rw [if_neg hfull]
    have hzero : le32 (fs.takenDesc others (group fs inum)) 40 = le32 (fun _ => 0) 40 := by
      apply le32_congr
      intro j hj
      have hhalf : fs.blockSize ≤ 2048 := by rcases fs.known with hb | hb | hb <;> omega
      rw [hbytes _ (by omega), if_pos (by omega)]
    rw [hzero]
    rfl

/-- The word taken for the high half is zero exactly where the next one is. -/
theorem InPlace.high_iff (h : img.InPlace inum) (others : Nat → UInt8) :
    le32 (fs.takenDesc others (group fs inum)) 40 = 0 ↔ img.NextZero others inum := by
  by_cases hsmall : img.descSize = 32
  · by_cases hnext : group fs inum % (fs.blockSize / 32) + 1 < fs.blockSize / 32
    · rw [h.high_inside others hsmall hnext]
      refine ⟨fun hzero => ⟨fun _ _ => hzero, fun _ hfull hlast => ?_⟩,
        fun hzero => hzero.inside hsmall hnext⟩
      rw [hfull] at hnext
      omega
    · rw [h.high_last others hsmall (Nat.le_of_not_lt hnext)]
      have hlast : fs.blockSize = 4096 → group fs inum % 128 = 127 := by
        intro hfull
        rw [hfull] at hnext
        omega
      constructor
      · intro hzero
        refine ⟨fun _ hin => absurd hin hnext, fun _ hfull _ => ?_⟩
        rw [if_pos hfull] at hzero
        exact hzero
      · intro hzero
        split_ifs with hfull
        · exact hzero.behind hsmall hfull (hlast hfull)
        · rfl
  · refine iff_of_true ?_ ⟨fun hno => absurd hno hsmall, fun hno => absurd hno hsmall⟩
    have hfeature : le32 fs.sbraw 96 &&& incompat64bit ≠ 0 := fun hno => hsmall (img.small hno)
    obtain ⟨-, e, -, hlarge, -⟩ := img.large hfeature
    rw [h.word_eq others (by omega)]
    exact h.table_low.2 hfeature

/-- An inode whose descriptor is in place is returned unless a word other than zero is taken
for the high half. -/
theorem InPlace.found_iff (h : img.InPlace inum) (others : Nat → UInt8) :
    img.Found others inum ↔ img.NextZero others inum := by
  rw [← h.high_iff others]
  constructor
  · intro hfound
    exact hfound.high
  · intro hhigh
    refine ⟨hhigh, fun n hn => ?_⟩
    have hinside := img.inode_inside inum
    have hin : tableOff fs inum % fs.blockSize + n < fs.blockSize := by
      obtain ⟨e, hsize, hlarge, -⟩ := img.inodeSize
      unfold inodeBytes at hn
      omega
    rw [h.word_eq others (by have := img.descSize_dvd.2; omega), ← h.table_low.1,
      u32_of_lt h.tableSectors.lt]
    exact h.tableSectors.readByte_eq hin

omit img in
/-- Where the descriptor is in place, `read_inode` returns the inode exactly if the word behind
a small descriptor is zero. -/
theorem read_inode_exact (img : Ext4Image fs) (h : fs.Answers) {inum : Nat} (hpos : 0 < inum)
    (others : Nat → UInt8) (hplace : img.InPlace inum) :
    img.Returned others inum ↔ img.NextZero others inum := by
  rw [img.returned_iff h hpos others]
  exact hplace.found_iff others

end Ext4Image

/-- Two groups of eight inodes, with the table of the first in block 5 and that of the second
in block 6. -/
def twoGroups : Ext4 where
  blockSize := 1024
  known := smallBlock_known
  disk := fun sector n =>
    if sector = 2 then
      if n = 0 then 16 else if n = 40 then 8 else if n = 56 then 0x53 else if n = 57 then 0xEF
      else if n = 88 then 128 else 0
    else if sector = 4 then if n = 8 then 5 else if n = 40 then 6 else 0
    else if sector = 12 then if n = 1 then 0x81 else 0
    else 0
  fails := fun _ => false

def twoGroupsImage : Ext4Image twoGroups where
  descSize := 32
  descBlock := fun n => 2 + n
  magic := by decide
  blockSize := by decide
  inodesPerGroup := by decide
  inodeSize := ⟨7, by decide, by decide, by decide⟩
  wantExtraIsize := by decide
  small := fun _ => rfl
  large := fun h => absurd (by decide) h
  follows := fun _ _ => rfl

/-- The inode of the second group is at its place, and no descriptor follows. -/
theorem read_inode_exact_second : twoGroupsImage.Returned (fun _ => 0) 9 := by
  have hplace : twoGroupsImage.InPlace 9 := by
    refine ⟨by decide, by decide, ?_, ?_⟩ <;> unfold Ext4.SectorsFit <;> decide
  apply (twoGroupsImage.read_inode_exact (fun _ => rfl) (by decide) _ hplace).mpr
  exact ⟨fun _ _ => by decide, fun _ hfull => absurd hfull (by decide)⟩

theorem first_inode_lost : ¬ ∀ (fs : Ext4) (img : Ext4Image fs) (others : Nat → UInt8) (inum : Nat),
    fs.Answers → (∀ group, img.table group < 2 ^ 32) → 0 < inum → inum ≤ le32 fs.sbraw 0 →
      img.Returned others inum := by
  intro hall
  have hbelow : ∀ group, twoGroupsImage.table group < 2 ^ 32 := by
    intro group
    have := le32_lt (twoGroupsImage.desc group) 8
    unfold Ext4Image.table
    rw [if_pos (by decide)]
    omega
  have hreturned := hall twoGroups twoGroupsImage (fun _ => 0) 1 (fun _ => rfl) hbelow
    (by decide) (by decide)
  have hhigh := ((twoGroupsImage.returned_iff (fun _ => rfl) (by decide) _).mp hreturned).high
  exact absurd hhigh (by decide)

end Sugimotos.Fs
