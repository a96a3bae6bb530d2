/-
# Reading an ext4 file

What `inode_read_data` returns and leaves in the buffer, against the bytes that an extent
tree of any depth gives the file.  Two sums of 32 bits decide it: the end of the range,
which is compared with the size of the file, and the number of a block's first sector.
-/

import Sugimotos.Fs.Extents
import Sugimotos.Math.Loop
import Mathlib.Data.Int.DivMod

namespace Sugimotos.Fs

open Sugimotos.Math Sugimotos.Mm

variable {fs : Ext4} {ino : Ext4Inode}

/-- The device answers all reads. -/
def Ext4.Answers (fs : Ext4) : Prop := ∀ sector, fs.fails sector = false

/-! ## The bytes of a file -/

/-- The byte `n` of a block of the disk. -/
def Ext4.diskByte (fs : Ext4) (block n : Nat) : UInt8 :=
  fs.disk (block * (fs.blockSize / sectorSize) + n / sectorSize) (n % sectorSize)

/-- The byte `n` of a logical block in the tree below a node: one of the disk, or zero
where the block is not written. -/
inductive Ext4.NodeByte (fs : Ext4) (lblock n : Nat) : (Nat → UInt8) → UInt8 → Prop
  | written {node i} (hmagic : (extentHeader node).ehMagic = ext4ExtMagic)
      (hdepth : (extentHeader node).ehDepth = 0) (hi : i < (extentHeader node).ehEntries)
      (hcovers : (extent node i).Covers lblock) (hinit : (extent node i).Initialised) :
      NodeByte fs lblock n node (fs.diskByte ((extent node i).eeStartLo +
        2 ^ 32 * (extent node i).eeStartHi + (lblock - (extent node i).eeBlock)) n)
  | unwritten {node i} (hmagic : (extentHeader node).ehMagic = ext4ExtMagic)
      (hdepth : (extentHeader node).ehDepth = 0) (hi : i < (extentHeader node).ehEntries)
      (hcovers : (extent node i).Covers lblock) (hinit : ¬ (extent node i).Initialised) :
      NodeByte fs lblock n node 0
  | child {node i v} (hmagic : (extentHeader node).ehMagic = ext4ExtMagic)
      (hdepth : (extentHeader node).ehDepth ≠ 0) (hi : i < (extentHeader node).ehEntries)
      (hchild : NodeByte fs lblock n (fs.diskByte ((extentIdx node i).eiLeafLo +
        2 ^ 32 * (extentIdx node i).eiLeafHi)) v) : NodeByte fs lblock n node v

/-- The byte of the file at a position. -/
def Ext4.FileByte (fs : Ext4) (ino : Ext4Inode) (pos : Nat) (v : UInt8) : Prop :=
  fs.NodeByte (pos / fs.blockSize) (pos % fs.blockSize) ino.iBlock v

/-- Every block below the end of the file is mapped. -/
def Ext4.Mapped (fs : Ext4) (ino : Ext4Inode) : Prop :=
  ∀ pos, pos < ino.iSizeLo → ∃ v, fs.FileByte ino pos v

/-- How many bytes of the range the file has. -/
def readable (ino : Ext4Inode) (off len : Nat) : Nat := min len (ino.iSizeLo - off)

/-- A call reads the range as the file has it, and leaves the rest of the buffer alone. -/
structure Ext4.ReadsFile (fs : Ext4) (ino : Ext4Inode) (off : Nat) (buf : Nat → UInt8)
    (len : Nat) : Prop where
  value : (fs.inodeReadData ino off buf len).1 = readable ino off len
  bytes : ∀ m, m < readable ino off len →
    fs.FileByte ino (off + m) ((fs.inodeReadData ino off buf len).2 m)
  rest : ∀ m, readable ino off len ≤ m → (fs.inodeReadData ino off buf len).2 m = buf m

/-! ## Reading a block -/

/-- The byte that the sector numbers of 32 bits lead to. -/
def Ext4.readByte (fs : Ext4) (block n : Nat) : UInt8 :=
  fs.disk (u32 (u32 (block * (fs.blockSize / sectorSize)) + n / sectorSize)) (n % sectorSize)

theorem Ext4.pos (fs : Ext4) : 0 < fs.blockSize ∧ fs.blockSize ∣ 2 ^ 32 ∧
    fs.blockSize / sectorSize * sectorSize = fs.blockSize := by
  rcases fs.known with h | h | h <;> rw [h] <;> decide

theorem readSectors_spec (first : Nat) (buf : Nat → UInt8) (i : Nat)
    (h : ∀ j, j < i → fs.fails (u32 (first + j)) = false) :
    ∃ out, fs.readSectors first buf i = some out ∧ ∀ n, n < i * sectorSize →
      out n = fs.disk (u32 (first + n / sectorSize)) (n % sectorSize) := by
  induction i with
  | zero =>
      refine ⟨buf, rfl, ?_⟩
      intro n hn
      rw [Nat.zero_mul] at hn
      exact absurd hn (Nat.not_lt_zero n)
  | succ i ih =>
      obtain ⟨out, hout, hbytes⟩ := ih fun j hj => h j (Nat.lt_succ_of_lt hj)
      refine ⟨copyBytes out (i * sectorSize) (fs.disk (u32 (first + i))) 0 sectorSize, ?_, ?_⟩
      · rw [Ext4.readSectors, hout, Option.bind_some, Ext4.blkRead, h i (Nat.lt_succ_self i),
          if_neg Bool.false_ne_true]
        rfl
      · intro n hn
        rw [Nat.succ_mul] at hn
        unfold copyBytes
        by_cases hlast : i * sectorSize ≤ n ∧ n < i * sectorSize + sectorSize
        · have hquot : n / sectorSize = i := Nat.div_eq_of_lt_le hlast.1 (by rwa [Nat.succ_mul])
          have hrem : n % sectorSize = n - i * sectorSize := by
            rw [Nat.mod_eq_sub_div_mul, hquot]
          rw [if_pos hlast, hquot, hrem, Nat.zero_add]
        · rw [if_neg hlast]
          exact hbytes n (Nat.lt_of_not_le fun hle => hlast ⟨hle, hn⟩)

theorem readBlock_spec (h : fs.Answers) (block : Nat) :
    ∃ out, fs.readBlock block = some out ∧
      ∀ n, n < fs.blockSize → out n = fs.readByte block n := by
  obtain ⟨out, hout, hbytes⟩ := readSectors_spec
    (u32 (block * (fs.blockSize / sectorSize))) (fun _ => 0) (fs.blockSize / sectorSize)
    fun j _ => h _
  rw [fs.pos.2.2] at hbytes
  exact ⟨out, hout, hbytes⟩

/-! ## The loop -/

/-- A turn of the loop of `inode_read_data`. -/
def Ext4.readTurn (fs : Ext4) (ino : Ext4Inode) (off remaining : Nat)
    (state : Nat × (Nat → UInt8)) : (Nat × (Nat → UInt8)) ⊕ (Nat × (Nat → UInt8)) :=
  let (done, dst) := state
  if done < remaining then
    let pos := u32 (off + done)
    let lblock := pos / fs.blockSize
    let boff := pos % fs.blockSize
    let chunk := fs.blockSize - boff
    let chunk := if chunk > remaining - done then remaining - done else chunk
    match fs.extentFindPhysical ino lblock with
    | none => .inr (done, dst)
    | some pblock =>
        match fs.readBlock pblock with
        | none => .inr (done, dst)
        | some block => .inl (done + chunk, copyBytes dst done block boff chunk)
  else .inr (done, dst)

/-- The bytes that a turn copies. -/
def Ext4.chunk (fs : Ext4) (off remaining done : Nat) : Nat :=
  min (fs.blockSize - u32 (off + done) % fs.blockSize) (remaining - done)

/-- How a turn ends. -/
inductive ReadTurn (fs : Ext4) (ino : Ext4Inode) (off remaining done : Nat) (dst : Nat → UInt8) :
    (Nat × (Nat → UInt8)) ⊕ (Nat × (Nat → UInt8)) → Prop
  | all (hdone : remaining ≤ done) : ReadTurn fs ino off remaining done dst (.inr (done, dst))
  | hole (hdone : done < remaining)
      (hnone : fs.extentFindPhysical ino (u32 (off + done) / fs.blockSize) = none) :
      ReadTurn fs ino off remaining done dst (.inr (done, dst))
  | copied {block bytes} (hdone : done < remaining)
      (hfind : fs.extentFindPhysical ino (u32 (off + done) / fs.blockSize) = some block)
      (hbytes : ∀ n, n < fs.blockSize → bytes n = fs.readByte block n) :
      ReadTurn fs ino off remaining done dst (.inl (done + fs.chunk off remaining done,
        copyBytes dst done bytes (u32 (off + done) % fs.blockSize) (fs.chunk off remaining done)))

theorem readTurn_cases (h : fs.Answers) (ino : Ext4Inode) (off remaining done : Nat)
    (dst : Nat → UInt8) :
    ReadTurn fs ino off remaining done dst (fs.readTurn ino off remaining (done, dst)) := by
  unfold Ext4.readTurn
  dsimp only
  by_cases hdone : done < remaining
  · rw [if_pos hdone]
    cases hfind : fs.extentFindPhysical ino (u32 (off + done) / fs.blockSize) with
    | none => exact .hole hdone hfind
    | some block =>
        obtain ⟨bytes, hread, hbytes⟩ := readBlock_spec h block
        dsimp only
        rw [hread]
        dsimp only
        have hchunk : (if fs.blockSize - u32 (off + done) % fs.blockSize > remaining - done then
            remaining - done else fs.blockSize - u32 (off + done) % fs.blockSize) =
              fs.chunk off remaining done := by
          unfold Ext4.chunk
          split_ifs with hlong
          · exact (Nat.min_eq_right hlong.le).symm
          · exact (Nat.min_eq_left (Nat.le_of_not_lt hlong)).symm
        rw [hchunk]
        exact .copied hdone hfind hbytes
  · rw [if_neg hdone]
    exact .all (Nat.le_of_not_lt hdone)

theorem chunk_pos (fs : Ext4) (off : Nat) {remaining done : Nat} (hdone : done < remaining) :
    0 < fs.chunk off remaining done ∧ done + fs.chunk off remaining done ≤ remaining := by
  have hmod := Nat.mod_lt (u32 (off + done)) fs.pos.1
  unfold Ext4.chunk
  omega

/-- A position that a turn copies lies in the block of the first one. -/
theorem chunk_block (fs : Ext4) {off remaining done k : Nat}
    (hk : k < fs.chunk off remaining done) :
    u32 (off + (done + k)) / fs.blockSize = u32 (off + done) / fs.blockSize ∧
    u32 (off + (done + k)) % fs.blockSize = u32 (off + done) % fs.blockSize + k := by
  obtain ⟨hpos, ⟨blocks, hblocks⟩, -⟩ := fs.pos
  have hroom : u32 (off + done) % fs.blockSize + k < fs.blockSize := by
    have hmin : fs.chunk off remaining done ≤ fs.blockSize - u32 (off + done) % fs.blockSize :=
      Nat.min_le_left _ _
    omega
  have hstart := Nat.div_add_mod (u32 (off + done)) fs.blockSize
  have hlast : u32 (off + done) / fs.blockSize < blocks := by
    apply Nat.div_lt_of_lt_mul
    rw [← hblocks]
    exact u32_lt _
  have hsame : u32 (off + (done + k)) = u32 (off + done) + k := by
    have hlt : u32 (off + done) + k < 2 ^ 32 := by
      calc u32 (off + done) + k
          = fs.blockSize * (u32 (off + done) / fs.blockSize) +
              (u32 (off + done) % fs.blockSize + k) := by omega
        _ < fs.blockSize * (u32 (off + done) / fs.blockSize) + fs.blockSize :=
            Nat.add_lt_add_left hroom _
        _ = fs.blockSize * (u32 (off + done) / fs.blockSize + 1) := by rw [Nat.mul_succ]
        _ ≤ fs.blockSize * blocks := Nat.mul_le_mul_left _ hlast
        _ = 2 ^ 32 := hblocks.symm
    unfold u32 at hlt ⊢
    omega
  have hsplit : u32 (off + (done + k)) = u32 (off + done) % fs.blockSize + k +
      fs.blockSize * (u32 (off + done) / fs.blockSize) := by omega
  rw [hsplit, Nat.add_mul_div_left _ _ hpos, Nat.div_eq_of_lt hroom, Nat.zero_add,
    Nat.add_mul_mod_self_left, Nat.mod_eq_of_lt hroom]
  exact ⟨rfl, rfl⟩

/-- The loop comes to its end. -/
theorem readLoop_returns (h : fs.Answers) (ino : Ext4Inode) (off : Nat)
    {remaining turns : Nat} {s : Nat × (Nat → UInt8)} (hturns : remaining - s.1 ≤ turns) :
    Returns (fs.readTurn ino off remaining) s
      (fs.readLoop ino off remaining turns s.1 s.2) := by
  apply @Returns.of_bounded _ _ _ _
    (fun turns (s : Nat × (Nat → UInt8)) => fs.readLoop ino off remaining turns s.1 s.2)
    (fun _ => True) (fun s => remaining - s.1) _ _ _ _ trivial hturns
  · intro s _ hrank
    exact if_neg (by omega)
  · intro n s
    rw [Ext4.readLoop, Ext4.readTurn]
    by_cases hdone : s.1 < remaining
    · rw [if_pos hdone, if_pos hdone]
      dsimp only
      cases fs.extentFindPhysical ino (u32 (off + s.1) / fs.blockSize) with
      | none => rfl
      | some block =>
          dsimp only
          cases fs.readBlock block <;> rfl
    · rw [if_neg hdone, if_neg hdone]
      rfl
  · rintro ⟨done, dst⟩ next _ hturn
    have hcases := readTurn_cases h ino off remaining done dst
    rw [hturn] at hcases
    cases hcases with
    | copied hdone hfind hbytes =>
        have hchunk := chunk_pos fs off hdone
        exact ⟨trivial, by dsimp only; omega⟩

/-! ## What the loop leaves -/

/-- A byte that the lookup of its block leads to. -/
def Ext4.Found (fs : Ext4) (ino : Ext4Inode) (pos : Nat) (v : UInt8) : Prop :=
  ∃ block, fs.extentFindPhysical ino (pos / fs.blockSize) = some block ∧
    v = fs.readByte block (pos % fs.blockSize)

/-- The first `done` bytes of the buffer are filled. -/
structure Ext4.Filled (fs : Ext4) (ino : Ext4Inode) (off : Nat) (buf : Nat → UInt8)
    (remaining : Nat) (s : Nat × (Nat → UInt8)) : Prop where
  le : s.1 ≤ remaining
  bytes : ∀ m, m < s.1 → fs.Found ino (u32 (off + m)) (s.2 m)
  rest : ∀ m, s.1 ≤ m → s.2 m = buf m

theorem Ext4.Filled.copied {off remaining done block : Nat} {buf dst bytes : Nat → UInt8}
    (h : fs.Filled ino off buf remaining (done, dst)) (hdone : done < remaining)
    (hfind : fs.extentFindPhysical ino (u32 (off + done) / fs.blockSize) = some block)
    (hbytes : ∀ n, n < fs.blockSize → bytes n = fs.readByte block n) :
    fs.Filled ino off buf remaining (done + fs.chunk off remaining done,
      copyBytes dst done bytes (u32 (off + done) % fs.blockSize) (fs.chunk off remaining done)) := by
  constructor
  · exact (chunk_pos fs off hdone).2
  · intro m hm
    dsimp only at hm ⊢
    unfold copyBytes
    by_cases hold : m < done
    · rw [if_neg fun hnew => Nat.not_le.mpr hold hnew.1]
      exact h.bytes m hold
    · obtain ⟨k, rfl⟩ := Nat.exists_eq_add_of_le (Nat.le_of_not_lt hold)
      have hk : k < fs.chunk off remaining done := Nat.lt_of_add_lt_add_left hm
      obtain ⟨hquot, hrem⟩ := chunk_block fs hk
      rw [if_pos ⟨Nat.le_add_right done k, hm⟩, Nat.add_sub_cancel_left]
      refine ⟨block, ?_, ?_⟩
      · rw [hquot, hfind]
      · rw [← hrem]
        exact hbytes _ (Nat.mod_lt _ fs.pos.1)
  · intro m hm
    dsimp only at hm ⊢
    unfold copyBytes
    rw [if_neg fun hnew => Nat.not_le.mpr hnew.2 hm]
    exact h.rest m (Nat.le_of_add_right_le hm)

/-- The loop ends when all is read or no block is found. -/
structure Ext4.ReadEnd (fs : Ext4) (ino : Ext4Inode) (off : Nat) (buf : Nat → UInt8)
    (remaining : Nat) (s : Nat × (Nat → UInt8)) : Prop where
  filled : fs.Filled ino off buf remaining s
  stop : s.1 = remaining ∨ fs.extentFindPhysical ino (u32 (off + s.1) / fs.blockSize) = none

theorem readLoop_spec (h : fs.Answers) (ino : Ext4Inode) (off : Nat) (buf : Nat → UInt8)
    (remaining : Nat) : fs.ReadEnd ino off buf remaining
      (fs.readLoop ino off remaining remaining 0 buf) := by
  have hreturns : Returns (fs.readTurn ino off remaining) (0, buf)
      (fs.readLoop ino off remaining remaining 0 buf) :=
    readLoop_returns h ino off (Nat.sub_le remaining 0)
  have hstart : fs.Filled ino off buf remaining (0, buf) :=
    ⟨Nat.zero_le _, fun m hm => absurd hm (Nat.not_lt_zero m), fun m _ => rfl⟩
  apply hreturns.rule hstart
  · rintro ⟨done, dst⟩ next hfilled hturn
    have hcases := readTurn_cases h ino off remaining done dst
    rw [hturn] at hcases
    cases hcases with
    | copied hdone hfind hbytes => exact hfilled.copied hdone hfind hbytes
  · rintro ⟨done, dst⟩ final hfilled hturn
    have hcases := readTurn_cases h ino off remaining done dst
    rw [hturn] at hcases
    cases hcases with
    | all hdone => exact ⟨hfilled, Or.inl (Nat.le_antisymm hfilled.le hdone)⟩
    | hole hdone hnone => exact ⟨hfilled, Or.inr hnone⟩

/-! ## When the file is read -/

/-- What the loop needs: the number of bytes fits in an `int`, the end of the range does not
wrap or no block is found behind the file, and every byte found is the one of the file. -/
structure Ext4.RangeFound (fs : Ext4) (ino : Ext4Inode) (off len : Nat) : Prop where
  count : readable ino off len < 2 ^ 31
  stop : off + len < 2 ^ 32 ∨ fs.extentFindPhysical ino (ino.iSizeLo / fs.blockSize) = none
  bytes : ∀ m, m < readable ino off len →
    ∃ v, fs.Found ino (off + m) v ∧ fs.FileByte ino (off + m) v

/-- The file has no high half of its size, and nothing is to be read or all is found. -/
def Ext4.ReadFound (fs : Ext4) (ino : Ext4Inode) (off len : Nat) : Prop :=
  ino.iSizeHigh = 0 ∧ (readable ino off len = 0 ∨ fs.RangeFound ino off len)

theorem Ext4.Found.unique {pos : Nat} {v v' : UInt8} (h : fs.Found ino pos v)
    (h' : fs.Found ino pos v') : v = v' := by
  obtain ⟨block, hfind, hv⟩ := h
  obtain ⟨block', hfind', hv'⟩ := h'
  rw [hfind] at hfind'
  rw [hv, hv', Option.some.inj hfind']

theorem toInt_eq_iff {v n : Nat} (hv : v < 2 ^ 32) : toInt v = (n : Int) ↔ v = n ∧ n < 2 ^ 31 := by
  unfold toInt
  rw [Int.bmod_def]
  split_ifs <;> omega

/-- How many bytes `inode_read_data` sets out to read. -/
def remaining (ino : Ext4Inode) (off len : Nat) : Nat :=
  if u32 (off + len) > ino.iSizeLo then ino.iSizeLo - off else len

theorem inodeReadData_low (fs : Ext4) (hlow : ino.iSizeHigh = 0) {off : Nat} (hoff : off < ino.iSizeLo)
    (buf : Nat → UInt8) (len : Nat) : fs.inodeReadData ino off buf len =
      (toInt (fs.readLoop ino off (remaining ino off len) (remaining ino off len) 0 buf).1,
        (fs.readLoop ino off (remaining ino off len) (remaining ino off len) 0 buf).2) := by
  unfold Ext4.inodeReadData
  rw [if_neg (not_not.mpr hlow), if_neg (Nat.not_le.mpr hoff)]
  rfl

section Range

variable {off len : Nat} {buf : Nat → UInt8}

/-- The size of the file is above the offset, and all three numbers have 32 bits. -/
structure InFile (ino : Ext4Inode) (off len : Nat) : Prop where
  off_lt : off < ino.iSizeLo
  size_lt : ino.iSizeLo < 2 ^ 32
  len_lt : len < 2 ^ 32

theorem InFile.remaining_eq (h : InFile ino off len) (hstop : off + len < 2 ^ 32) :
    remaining ino off len = readable ino off len := by
  have hoff := h.off_lt
  unfold remaining readable
  rw [u32_of_lt hstop]
  split_ifs <;> omega

/-- When the end of the range wraps the clamp is lost. -/
theorem InFile.remaining_wrap (h : InFile ino off len) (hstop : 2 ^ 32 ≤ off + len) :
    remaining ino off len = len ∧ readable ino off len = ino.iSizeLo - off ∧
      ino.iSizeLo - off < len := by
  have hoff := h.off_lt
  have hsize := h.size_lt
  have hlen := h.len_lt
  unfold remaining readable u32
  split_ifs <;> omega

theorem InFile.remaining_lt (h : InFile ino off len) : remaining ino off len < 2 ^ 32 := by
  have hsize := h.size_lt
  have hlen := h.len_lt
  unfold remaining
  split_ifs <;> omega

theorem InFile.u32_eq (h : InFile ino off len) {m : Nat} (hm : m < readable ino off len) :
    u32 (off + m) = off + m := by
  have hsize := h.size_lt
  unfold readable at hm
  exact u32_of_lt (by omega)

/-- The loop ends with as many bytes as the file has in the range. -/
theorem InFile.done_eq (h : InFile ino off len) (hfits : fs.RangeFound ino off len)
    {s : Nat × (Nat → UInt8)} (hend : fs.ReadEnd ino off buf (remaining ino off len) s) :
    s.1 = readable ino off len := by
  have hfound : ∀ m, m < readable ino off len →
      fs.extentFindPhysical ino (u32 (off + m) / fs.blockSize) ≠ none := by
    intro m hm
    obtain ⟨v, ⟨block, hfind, -⟩, -⟩ := hfits.bytes m hm
    rw [h.u32_eq hm, hfind]
    exact nofun
  have hle : s.1 ≤ readable ino off len := by
    by_cases hwrap : off + len < 2 ^ 32
    · rw [← h.remaining_eq hwrap]
      exact hend.filled.le
    · obtain ⟨-, hread, -⟩ := h.remaining_wrap (Nat.le_of_not_lt hwrap)
      by_contra hbeyond
      obtain ⟨block, hfind, -⟩ := hend.filled.bytes _ (Nat.lt_of_not_le hbeyond)
      have hoff := h.off_lt
      have hsum : u32 (off + readable ino off len) = ino.iSizeLo := by
        rw [hread, Nat.add_sub_cancel' hoff.le, u32_of_lt h.size_lt]
      rw [hsum, hfits.stop.resolve_left hwrap] at hfind
      cases hfind
  apply Nat.le_antisymm hle
  by_contra hshort
  have hlt := Nat.lt_of_not_le hshort
  cases hend.stop with
  | inl hall =>
      have hrem : readable ino off len ≤ remaining ino off len := by
        by_cases hwrap : off + len < 2 ^ 32
        · exact (h.remaining_eq hwrap).ge
        · obtain ⟨hrem, hread, hlt⟩ := h.remaining_wrap (Nat.le_of_not_lt hwrap)
          rw [hrem, hread]
          exact hlt.le
      exact hshort (hall ▸ hrem)
  | inr hnone => exact hfound s.1 hlt hnone

/-- When the loop ends with that many bytes, no block follows the file or nothing wraps. -/
theorem InFile.stop_of_done (h : InFile ino off len) {s : Nat × (Nat → UInt8)}
    (hend : fs.ReadEnd ino off buf (remaining ino off len) s) (hdone : s.1 = readable ino off len) :
    off + len < 2 ^ 32 ∨ fs.extentFindPhysical ino (ino.iSizeLo / fs.blockSize) = none := by
  by_cases hwrap : off + len < 2 ^ 32
  · exact Or.inl hwrap
  · obtain ⟨hrem, hread, hlt⟩ := h.remaining_wrap (Nat.le_of_not_lt hwrap)
    cases hend.stop with
    | inl hall =>
        rw [hdone, hread, hrem] at hall
        exact absurd hall hlt.ne
    | inr hnone =>
        have hoff := h.off_lt
        rw [hdone, hread, Nat.add_sub_cancel' hoff.le, u32_of_lt h.size_lt] at hnone
        exact Or.inr hnone

end Range

/-- Reading below the end of the file. -/
theorem readsFile_iff_rangeFound (hanswers : fs.Answers) (hlow : ino.iSizeHigh = 0) {off len : Nat}
    (h : InFile ino off len) (buf : Nat → UInt8) :
    fs.ReadsFile ino off buf len ↔ fs.RangeFound ino off len := by
  have hend := readLoop_spec hanswers ino off buf (remaining ino off len)
  have hdata := inodeReadData_low fs hlow h.off_lt buf len
  generalize fs.readLoop ino off (remaining ino off len) (remaining ino off len) 0 buf = s
    at hend hdata
  have hbound : s.1 < 2 ^ 32 := hend.filled.le.trans_lt h.remaining_lt
  have hvalue := toInt_eq_iff (n := readable ino off len) hbound
  constructor
  · intro hreads
    have hval := hvalue.mp (by rw [← hreads.value, hdata])
    refine ⟨hval.2, h.stop_of_done hend hval.1, ?_⟩
    intro m hm
    have hfound := hend.filled.bytes m (hval.1.symm ▸ hm)
    have hbyte := hreads.bytes m hm
    rw [h.u32_eq hm] at hfound
    rw [hdata] at hbyte
    exact ⟨_, hfound, hbyte⟩
  · intro hfits
    have hdone := h.done_eq hfits hend
    constructor
    · rw [hdata]
      dsimp only
      exact hvalue.mpr ⟨hdone, hfits.count⟩
    · intro m hm
      obtain ⟨v, hfound, hbyte⟩ := hfits.bytes m hm
      have hread := hend.filled.bytes m (hdone.symm ▸ hm)
      rw [h.u32_eq hm] at hread
      rw [hdata, hread.unique hfound]
      exact hbyte
    · intro m hm
      rw [hdata]
      exact hend.filled.rest m (hdone.symm ▸ hm)

theorem inodeReadData_high (hhigh : ino.iSizeHigh ≠ 0) (off : Nat) (buf : Nat → UInt8)
    (len : Nat) : ¬ fs.ReadsFile ino off buf len := by
  intro hreads
  have hvalue := hreads.value
  unfold Ext4.inodeReadData at hvalue
  rw [if_pos hhigh] at hvalue
  dsimp only at hvalue
  omega

/-- Nothing is to be read. -/
theorem readsFile_nothing (hanswers : fs.Answers) (hlow : ino.iSizeHigh = 0)
    (hsize : ino.iSizeLo < 2 ^ 32) {off len : Nat} (hoff : off < 2 ^ 32)
    (hread : readable ino off len = 0) (buf : Nat → UInt8) : fs.ReadsFile ino off buf len := by
  by_cases hbelow : off < ino.iSizeLo
  · have hlen : len = 0 := by
      unfold readable at hread
      omega
    rw [hlen] at hread ⊢
    have hin : InFile ino off 0 := ⟨hbelow, hsize, by decide⟩
    apply (readsFile_iff_rangeFound hanswers hlow hin buf).mpr
    constructor
    · rw [hread]
      decide
    · exact Or.inl hoff
    · intro m hm
      rw [hread] at hm
      exact absurd hm (Nat.not_lt_zero m)
  · have hdata : fs.inodeReadData ino off buf len = (0, buf) := by
      unfold Ext4.inodeReadData
      rw [if_neg (not_not.mpr hlow), if_pos (Nat.le_of_not_lt hbelow)]
    constructor
    · rw [hdata, hread]
      rfl
    · intro m hm
      rw [hread] at hm
      exact absurd hm (Nat.not_lt_zero m)
    · intro m _
      rw [hdata]

theorem readsFile_iff (hanswers : fs.Answers) (hsize : ino.iSizeLo < 2 ^ 32) {off len : Nat}
    (hoff : off < 2 ^ 32) (hlen : len < 2 ^ 32) (buf : Nat → UInt8) :
    fs.ReadsFile ino off buf len ↔ fs.ReadFound ino off len := by
  constructor
  · intro hreads
    have hlow : ino.iSizeHigh = 0 := by
      by_contra hhigh
      exact inodeReadData_high hhigh off buf len hreads
    refine ⟨hlow, ?_⟩
    by_cases hbelow : off < ino.iSizeLo
    · exact Or.inr ((readsFile_iff_rangeFound hanswers hlow ⟨hbelow, hsize, hlen⟩ buf).mp hreads)
    · apply Or.inl
      unfold readable
      omega
  · rintro ⟨hlow, hnothing | hfits⟩
    · exact readsFile_nothing hanswers hlow hsize hoff hnothing buf
    · by_cases hbelow : off < ino.iSizeLo
      · exact (readsFile_iff_rangeFound hanswers hlow ⟨hbelow, hsize, hlen⟩ buf).mpr hfits
      · apply readsFile_nothing hanswers hlow hsize hoff _ buf
        unfold readable
        omega

/-! ## When the tree gives the bytes -/

/-- All sectors of the block have numbers of 32 bits. -/
def Ext4.SectorsFit (fs : Ext4) (block : Nat) : Prop :=
  (block + 1) * (fs.blockSize / sectorSize) ≤ 2 ^ 32

/-- The tree is well formed with one or two levels, and its leaves have sectors of 32 bits. -/
structure Ext4.TreeFits (fs : Ext4) (ino : Ext4Inode) : Prop where
  ok : fs.TreeOk ino
  leaves : (extentHeader ino.iBlock).ehDepth = 1 → ∀ i, i < (extentHeader ino.iBlock).ehEntries →
    fs.SectorsFit (extentIdx ino.iBlock i).eiLeafLo

/-- The range is short enough, nothing is found behind the file where its end wraps, and every
block of it belongs to an initialised extent that is not read wrongly and whose sectors have
numbers of 32 bits. -/
structure Ext4.RangeFits (fs : Ext4) (ino : Ext4Inode) (off len : Nat) : Prop where
  tree : fs.TreeFits ino
  count : readable ino off len < 2 ^ 31
  stop : off + len < 2 ^ 32 ∨ fs.Missed ino (ino.iSizeLo / fs.blockSize)
  lookup : ∀ m, m < readable ino off len → fs.LookupFits ino ((off + m) / fs.blockSize)
  written : ∀ m, m < readable ino off len → ∀ ex, fs.TreeExtent ino ex →
    ex.Covers ((off + m) / fs.blockSize) → ex.Initialised ∧
      fs.SectorsFit (ex.eeStartLo + ((off + m) / fs.blockSize - ex.eeBlock))

/-- The file has no high half of its size, and nothing is to be read or the range fits. -/
def Ext4.ReadFits (fs : Ext4) (ino : Ext4Inode) (off len : Nat) : Prop :=
  ino.iSizeHigh = 0 ∧ (readable ino off len = 0 ∨ fs.RangeFits ino off len)

/-- What cannot be done without: the bounds on the range, and that some extent is taken for
every block of it. -/
structure Ext4.RangeNeeds (fs : Ext4) (ino : Ext4Inode) (off len : Nat) : Prop where
  count : readable ino off len < 2 ^ 31
  stop : off + len < 2 ^ 32 ∨ fs.Missed ino (ino.iSizeLo / fs.blockSize)
  lookup : ∀ m, m < readable ino off len → ¬ fs.Missed ino ((off + m) / fs.blockSize)

theorem Ext4.SectorsFit.lt {block : Nat} (h : fs.SectorsFit block) : block < 2 ^ 32 := by
  have hpos : 0 < fs.blockSize / sectorSize := by
    rcases fs.known with hb | hb | hb <;> rw [hb] <;> decide
  exact (Nat.le_mul_of_pos_right _ hpos).trans h

/-- Below the bound the numbers of 32 bits lead to the sectors of the block. -/
theorem Ext4.SectorsFit.readByte_eq {block n : Nat} (h : fs.SectorsFit block)
    (hn : n < fs.blockSize) : fs.readByte block n = fs.diskByte block n := by
  have hsector : n / sectorSize < fs.blockSize / sectorSize := by
    apply Nat.div_lt_of_lt_mul
    rw [Nat.mul_comm, fs.pos.2.2]
    exact hn
  have hend : block * (fs.blockSize / sectorSize) + n / sectorSize < 2 ^ 32 := by
    calc block * (fs.blockSize / sectorSize) + n / sectorSize
        < block * (fs.blockSize / sectorSize) + fs.blockSize / sectorSize :=
          Nat.add_lt_add_left hsector _
      _ = (block + 1) * (fs.blockSize / sectorSize) := (Nat.succ_mul _ _).symm
      _ ≤ 2 ^ 32 := h
  have hfirst := (Nat.le_add_right _ (n / sectorSize)).trans_lt hend
  unfold Ext4.readByte Ext4.diskByte
  rw [u32_of_lt hfirst, u32_of_lt hend]

/-- A node that agrees with a well-formed leaf has the same entries. -/
theorem LeafOk.agrees {node node' : Nat → UInt8} {size : Nat} (h : LeafOk node size)
    (hsame : ∀ n, n < size → node' n = node n) :
    extentHeader node' = extentHeader node ∧
      ∀ i, i < (extentHeader node).ehEntries → extent node' i = extent node i := by
  have hcapacity := h.ok.capacity
  have hcount := h.ok.count
  refine ⟨?_, fun i hi => ?_⟩
  · unfold extentHeader le32 le16
    simp only [hsame _ (by omega : 0 < size), hsame _ (by omega : 0 + 1 < size),
      hsame _ (by omega : 2 < size), hsame _ (by omega : 2 + 1 < size),
      hsame _ (by omega : 4 < size), hsame _ (by omega : 4 + 1 < size),
      hsame _ (by omega : 6 < size), hsame _ (by omega : 6 + 1 < size),
      hsame _ (by omega : 8 < size), hsame _ (by omega : 8 + 1 < size),
      hsame _ (by omega : 8 + 2 < size), hsame _ (by omega : 8 + 2 + 1 < size)]
  · have hword : ∀ d, d + 1 < 12 → le16 node' (12 + 12 * i + d) = le16 node (12 + 12 * i + d) := by
      intro d hd
      unfold le16
      rw [hsame _ (by omega), hsame _ (by omega)]
    have hlong : ∀ d, d + 3 < 12 → le32 node' (12 + 12 * i + d) = le32 node (12 + 12 * i + d) := by
      intro d hd
      unfold le32
      have hhigh := hword (d + 2) (by omega)
      rw [← Nat.add_assoc] at hhigh
      rw [hword d (by omega), hhigh]
    have hfirst := hlong 0 (by decide)
    rw [Nat.add_zero] at hfirst
    unfold extent
    rw [hfirst, hlong 8 (by decide), hword 4 (by decide), hword 6 (by decide)]

/-- The leaf that is read is the one on the disk. -/
theorem Ext4.SectorsFit.leaf (hanswers : fs.Answers) {block : Nat} (h : fs.SectorsFit block)
    {leaf : Nat → UInt8} (hleaf : fs.readBlock block = some leaf) {n : Nat}
    (hn : n < fs.blockSize) : fs.diskByte block n = leaf n := by
  obtain ⟨out, hout, hbytes⟩ := readBlock_spec hanswers block
  rw [hleaf] at hout
  cases hout
  rw [hbytes n hn, h.readByte_eq hn]

section Tree

variable {lblock n : Nat} {v : UInt8}

/-- Of a leaf, the bytes of a node come from an extent. -/
theorem Ext4.NodeByte.of_leaf {node : Nat → UInt8} (h : fs.NodeByte lblock n node v)
    (hdepth : (extentHeader node).ehDepth = 0) :
    ∃ i, i < (extentHeader node).ehEntries ∧ (extent node i).Covers lblock := by
  cases h with
  | written _ _ hi hcovers _ => exact ⟨_, hi, hcovers⟩
  | unwritten _ _ hi hcovers _ => exact ⟨_, hi, hcovers⟩
  | child _ hinner _ _ => exact absurd hdepth hinner

/-- A block that has bytes lies in an extent of the tree. -/
theorem Ext4.TreeFits.covered (h : fs.TreeFits ino) (hanswers : fs.Answers)
    (hbyte : fs.NodeByte lblock n ino.iBlock v) :
    ∃ ex, fs.TreeExtent ino ex ∧ ex.Covers lblock := by
  cases h.ok with
  | inl hroot =>
      obtain ⟨i, hi, hcovers⟩ := hbyte.of_leaf hroot.ok.depth
      exact ⟨_, .root hroot.ok.depth hi, hcovers⟩
  | inr hroot =>
      have hdepth := hroot.ok.depth
      cases hbyte with
      | written _ hzero _ _ _ =>
          rw [hzero] at hdepth
          cases hdepth
      | unwritten _ hzero _ _ _ =>
          rw [hzero] at hdepth
          cases hdepth
      | child _ _ hi hchild =>
          obtain ⟨leaf, hleaf, hok⟩ := hroot.leaves _ hi
          rw [hroot.high _ hi, Nat.mul_zero, Nat.add_zero] at hchild
          obtain ⟨hheader, hextent⟩ := hok.agrees fun n hn =>
            (h.leaves hdepth _ hi).leaf hanswers hleaf hn
          obtain ⟨j, hj, hcovers⟩ := hchild.of_leaf (hheader ▸ hok.ok.depth)
          rw [hheader] at hj
          rw [hextent j hj] at hcovers
          exact ⟨_, .leaf hdepth hi hleaf hj, hcovers⟩

/-- The bytes of a block that an initialised extent covers. -/
theorem Ext4.TreeFits.written (h : fs.TreeFits ino) (hanswers : fs.Answers) {ex : Ext4Extent}
    (hex : fs.TreeExtent ino ex) (hcovers : ex.Covers lblock) (hinit : ex.Initialised) :
    fs.NodeByte lblock n ino.iBlock (fs.diskByte (ex.eeStartLo + (lblock - ex.eeBlock)) n) := by
  cases hex with
  | @root i hdepth hi =>
      have hroot : LeafOk ino.iBlock 60 := by
        cases h.ok with
        | inl hroot => exact hroot
        | inr hroot =>
            rw [hroot.ok.depth] at hdepth
            cases hdepth
      have hbyte : fs.NodeByte lblock n ino.iBlock _ := .written hroot.ok.magic hdepth hi hcovers hinit
      rw [hroot.high i hi, Nat.mul_zero, Nat.add_zero] at hbyte
      exact hbyte
  | @leaf i leaf j hdepth hi hleaf hj =>
      have hroot : RootOk fs ino.iBlock := by
        cases h.ok with
        | inl hroot =>
            rw [hroot.ok.depth] at hdepth
            cases hdepth
        | inr hroot => exact hroot
      obtain ⟨leaf', hleaf', hok⟩ := hroot.leaves i hi
      rw [hleaf] at hleaf'
      cases hleaf'
      obtain ⟨hheader, hextent⟩ := hok.agrees fun n hn =>
        (h.leaves hdepth i hi).leaf hanswers hleaf hn
      have hbyte : fs.NodeByte lblock n (fs.diskByte (extentIdx ino.iBlock i).eiLeafLo) _ :=
        .written (i := j) (hheader ▸ hok.ok.magic) (hheader ▸ hok.ok.depth) (hheader ▸ hj)
          ((hextent j hj).symm ▸ hcovers) ((hextent j hj).symm ▸ hinit)
      rw [hextent j hj, hok.high j hj, Nat.mul_zero, Nat.add_zero] at hbyte
      apply Ext4.NodeByte.child hroot.ok.magic (by rw [hdepth]; exact Nat.one_ne_zero) hi
      rw [hroot.high i hi, Nat.mul_zero, Nat.add_zero]
      exact hbyte

/-- The byte found for a position is the one of the file. -/
theorem Ext4.RangeFits.found {off len m : Nat} (h : fs.RangeFits ino off len)
    (hanswers : fs.Answers) (hm : m < readable ino off len)
    (hmapped : ∃ v, fs.FileByte ino (off + m) v) :
    ∃ v, fs.Found ino (off + m) v ∧ fs.FileByte ino (off + m) v := by
  obtain ⟨v, hv⟩ := hmapped
  obtain ⟨ex, hex, hcovers⟩ := h.tree.covered hanswers hv
  obtain ⟨hinit, hsectors⟩ := h.written m hm ex hex hcovers
  have hexact := (extentFindPhysical_exact_iff h.tree.ok _).mpr (h.lookup m hm)
  have hfind := (hexact _).mpr ⟨ex, hex, hinit, hcovers, rfl⟩
  refine ⟨_, ⟨_, hfind, rfl⟩, ?_⟩
  rw [hsectors.readByte_eq (Nat.mod_lt _ fs.pos.1)]
  exact h.tree.written hanswers hex hcovers hinit

end Tree

theorem Ext4.RangeFits.range {off len : Nat} (h : fs.RangeFits ino off len)
    (hanswers : fs.Answers) (hmapped : fs.Mapped ino) : fs.RangeFound ino off len := by
  refine ⟨h.count, ?_, fun m hm => h.found hanswers hm (hmapped _ ?_)⟩
  · rw [lookup_none_iff h.tree.ok]
    exact h.stop
  · unfold readable at hm
    omega

theorem Ext4.RangeFound.needs {off len : Nat} (h : fs.RangeFound ino off len)
    (htree : fs.TreeOk ino) : fs.RangeNeeds ino off len := by
  refine ⟨h.count, ?_, fun m hm hmissed => ?_⟩
  · rw [← lookup_none_iff htree]
    exact h.stop
  · obtain ⟨v, ⟨block, hfind, -⟩, -⟩ := h.bytes m hm
    rw [(lookup_none_iff htree).mpr hmissed] at hfind
    cases hfind

/-- A file of five blocks in one extent. -/
def fiveBlocks : Ext4Inode := ⟨5120, oneExtent 5, 0⟩

theorem fiveBlocks_mapped : zeroDisk.Mapped fiveBlocks := by
  intro pos hpos
  have hblock : pos / 1024 < 5 := Nat.div_lt_of_lt_mul hpos
  exact ⟨0, .written rfl rfl Nat.one_pos ⟨Nat.zero_le _, hblock⟩ (by decide)⟩

theorem fiveBlocks_tree : zeroDisk.TreeFits fiveBlocks :=
  ⟨Or.inl (oneExtent_ok 5), fun hdepth => absurd hdepth (by decide)⟩

end Sugimotos.Fs
