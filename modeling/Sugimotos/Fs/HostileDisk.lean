/-
# Any disk

The mount of a disk that may hold anything and the calls after it, and what the disk must be like
for all of them to come to their end without leaving an array.
-/

import Sugimotos.Fs.CheckedScan

namespace Sugimotos.Fs

open Sugimotos.Lib Sugimotos.Math Sugimotos.Mm

/-! ## Conditions on the disk -/

/-- `s_log_block_size`. -/
def Disk.logBlockSize (d : Disk) : Nat := le32 d.sbraw 24

def Disk.blockSize (d : Disk) : Nat := u32 (1024 * 2 ^ d.logBlockSize)

/-- `s_blocks_per_group`. -/
def Disk.blocksPerGroup (d : Disk) : Nat := le32 d.sbraw 32

def Disk.groupsCount (d : Disk) : Nat :=
  u32 (le32 d.sbraw 4 + d.blocksPerGroup + (2 ^ 32 - 1)) / d.blocksPerGroup

def Disk.sizes (d : Disk) : Ext4Sizes := mountSizes (superblock d.sbraw)

/-- The mount finds a superblock. -/
structure Disk.Found (d : Disk) : Prop where
  first : d.fails 2 = false
  second : d.fails 3 = false
  magic : le16 d.sbraw 56 = ext4SuperMagic

/-- The disk holds the inode of the root directory, of a size that is read. -/
structure Ext4.RootIs (fs : Ext4) (sizes : Ext4Sizes) (root : Ext4Inode) : Prop where
  inode : fs.diskInode sizes 2 = some root
  low : root.iSizeHigh = 0

/-- The root directory can be scanned. -/
structure Ext4.DirEnds (fs : Ext4) (sizes : Ext4Sizes) : Prop where
  inode : fs.InodeEnds sizes 2
  scan : ∀ root, fs.RootIs sizes root → fs.ScanEnds root

/-- A file can be read. -/
structure Ext4.FileEnds (fs : Ext4) (sizes : Ext4Sizes) (inum : Nat) : Prop where
  inode : fs.InodeEnds sizes inum
  reads : ∀ ino, fs.diskInode sizes inum = some ino → ino.iSizeHigh = 0 → fs.ReadsEnd ino

/-- What the disk must be like, as far as the mount and the reads come. -/
structure Disk.Fits (d : Disk) : Prop where
  shift : d.Found → d.logBlockSize < 32
  perGroup : d.Found → d.blockSize ≤ bufSize → d.blocksPerGroup ≠ 0
  block : d.Found → d.blockSize ≤ bufSize → d.groupsCount ≠ 0 → d.blockSize ≠ 0
  dir : d.Found → d.groupsCount ≠ 0 →
    ∀ fs : Ext4, fs.device = d → fs.blockSize = d.blockSize → fs.DirEnds d.sizes
  files : d.Found → d.groupsCount ≠ 0 →
    ∀ fs : Ext4, fs.device = d → fs.blockSize = d.blockSize →
      ∀ root, fs.RootIs d.sizes root → ∀ inum, fs.Lists root inum → fs.FileEnds d.sizes inum

/-! ## What the calls leave -/

/-- What a mount has set. -/
structure Disk.Mounted (d : Disk) (v : Reader) : Prop where
  sizes : v.sizes = d.sizes
  blockSize : v.blockSize = d.blockSize
  found : d.Found
  groups : d.groupsCount ≠ 0
  dir : ∃ (fs : Ext4) (root : Ext4Inode), fs.device = d ∧ fs.blockSize = d.blockSize ∧
    fs.RootIs d.sizes root ∧ ∀ inum, inum ∈ v.root.inodes ↔ fs.Lists root inum

/-- What every call leaves in order. -/
structure Disk.Inv (d : Disk) (v : Reader) : Prop where
  tails : ∀ fs : Ext4, fs.device = d → fs.blockSize = d.blockSize → fs.Tails d.sizes v.bufs
  names : v.root.NamesOk
  mounted : v.root.mounted = true → d.Mounted v

variable {fs : Ext4} {sizes : Ext4Sizes} {b : Static} {d : Disk} {v : Reader} {turns : Nat}

theorem diskInode_size {inum : Nat} {ino : Ext4Inode} (h : fs.diskInode sizes inum = some ino) :
    ino.iSizeLo < 2 ^ 32 := by
  suffices hbytes : ∃ bytes, ino = inodeOf bytes by
    obtain ⟨bytes, rfl⟩ := hbytes
    exact le32_lt bytes 4
  unfold Ext4.diskInode at h
  dsimp only at h
  split at h
  · cases h
  split at h
  · cases h
  split at h
  · cases h
  split at h
  · cases h
  split at h
  · exact ⟨_, (Option.some.inj h).symm⟩
  · obtain ⟨buf, -, hino⟩ := Option.map_eq_some_iff.mp h
    exact ⟨_, hino.symm⟩

/-- A device and a block size make one file system. -/
theorem device_unique {fs' : Ext4} (hdevice : fs'.device = fs.device)
    (hsize : fs'.blockSize = fs.blockSize) : fs' = fs := by
  obtain ⟨blockSize', known', disk', fails'⟩ := fs'
  obtain ⟨blockSize, known, disk, fails⟩ := fs
  cases hdevice
  cases hsize
  rfl

theorem mountSizes_lt (d : Disk) : d.sizes.inodeSize < 65536 := by
  have hlt := le16_lt d.sbraw 88
  show (if le16 d.sbraw 88 ≠ 0 then le16 d.sbraw 88 else 128) < 65536
  split <;> omega

namespace Checked

/-! ## The mount -/

theorem scanRootDir_returns (hsize : sizes.inodeSize < 65536) (h : fs.DirEnds sizes) :
    ∃ turns, ∀ b st, fs.Tails sizes b →
      (scanRootDir fs.device fs.blockSize sizes turns b st).isSome = true := by
  suffices hloop : ∃ turns, ∀ root, fs.diskInode sizes 2 = some root → root.iSizeHigh = 0 →
      ∀ b st, fs.Tails sizes b → st.NamesOk → st.rootFileCount = 0 →
        ∃ out, scanLoop fs.device fs.blockSize root root.iSizeLo turns 0 b st = some out by
    obtain ⟨turns, hturns⟩ := hloop
    refine ⟨turns, fun b st hb => ?_⟩
    obtain ⟨r, hr, hino, htails⟩ := (readInode_exact hsize hb 2).returns h.inode
    unfold scanRootDir
    rw [hr]
    simp only [Option.bind_eq_bind, Option.bind_some]
    rw [hino]
    cases hroot : fs.diskInode sizes 2 with
    | none => rfl
    | some root =>
        dsimp only
        by_cases hhigh : root.iSizeHigh ≠ 0
        · rw [if_pos hhigh]
          rfl
        · rw [if_neg hhigh]
          obtain ⟨out, hout⟩ := hturns root hroot (not_not.mp hhigh) r.2 { st with rootFileCount := 0 }
            htails ⟨Nat.zero_le _, fun i hi => absurd hi (Nat.not_lt_zero i)⟩ rfl
          rw [hout]
          rfl
  cases hroot : fs.diskInode sizes 2 with
  | none => exact ⟨0, fun root hno => by cases hno⟩
  | some root =>
      by_cases hhigh : root.iSizeHigh = 0
      case neg =>
        refine ⟨0, fun root' hroot' hzero => ?_⟩
        cases hroot'
        exact absurd hzero hhigh
      obtain ⟨turns, hturns⟩ := @scanLoop_start fs sizes root (h.scan root ⟨hroot, hhigh⟩) hhigh
        (diskInode_size hroot)
      refine ⟨turns, fun root' hroot' _ b st hb hok hst => ?_⟩
      cases hroot'
      obtain ⟨out, hout, -⟩ := hturns b st hb hok hst
      exact ⟨out, hout⟩

/-- What a scan that has come to its end has needed, and what it leaves. -/
theorem scanRootDir_needs (hsize : sizes.inodeSize < 65536) (hb : fs.Tails sizes b) {st : Ext4Root}
    {out : Int × Static × Ext4Root}
    (hout : scanRootDir fs.device fs.blockSize sizes turns b st = some out) :
    fs.DirEnds sizes ∧ fs.Tails sizes out.2.1 ∧
      (out.1 = -1 ∧ out.2.2 = st ∧ (∀ root, ¬ fs.RootIs sizes root) ∨
        out.1 = 0 ∧ out.2.2.NamesOk ∧ ∃ root, fs.RootIs sizes root ∧
          ∀ inum, inum ∈ out.2.2.inodes ↔ fs.Lists root inum) := by
  unfold scanRootDir at hout
  obtain ⟨r, hr, hrest⟩ := Option.bind_eq_some_iff.mp hout
  obtain ⟨hinode, hino, htails⟩ := (readInode_exact hsize hb 2).of_eq_some hr
  cases hroot : fs.diskInode sizes 2 with
  | none =>
      rw [hino, hroot] at hrest
      cases hrest
      have hno : ∀ root, ¬ fs.RootIs sizes root := fun root h => by cases hroot.symm.trans h.inode
      exact ⟨⟨hinode, fun root h => absurd h (hno root)⟩, htails, .inl ⟨rfl, rfl, hno⟩⟩
  | some root =>
      have honly : ∀ root', fs.RootIs sizes root' → root' = root := fun root' h =>
        Option.some.inj (h.inode.symm.trans hroot)
      rw [hino, hroot] at hrest
      dsimp only at hrest
      by_cases hhigh : root.iSizeHigh ≠ 0
      · rw [if_pos hhigh] at hrest
        cases hrest
        have hno : ∀ root', ¬ fs.RootIs sizes root' := fun root' h => hhigh (honly root' h ▸ h.low)
        exact ⟨⟨hinode, fun root' h => absurd h (hno root')⟩, htails, .inl ⟨rfl, rfl, hno⟩⟩
      · rw [if_neg hhigh] at hrest
        obtain ⟨out', hloop, hdone⟩ := Option.bind_eq_some_iff.mp hrest
        cases hdone
        have hlow := not_not.mp hhigh
        have hempty : Ext4Root.NamesOk { st with rootFileCount := 0 } :=
          ⟨Nat.zero_le _, fun i hi => absurd hi (Nat.not_lt_zero i)⟩
        obtain ⟨hends, htails', hnames, hlists⟩ :=
          scanLoop_leaves hlow (diskInode_size hroot) htails hempty rfl hloop
        exact ⟨⟨hinode, fun root' h => honly root' h ▸ hends⟩, htails',
          .inr ⟨rfl, hnames, root, ⟨hroot, hlow⟩, hlists⟩⟩

/-- A mount that does not find a superblock changes no buffer and no entry. -/
theorem ext4Mount_early {ready : Bool} (hm : v.root.mounted = false) (h : ready = true → ¬ d.Found) :
    ∃ r sizes', ext4Mount d ready turns v = some (r, { v with sizes := sizes' }) := by
  have hall : ∀ {at' n : Nat}, at' + n ≤ sbrawSize → inArray at' n sbrawSize = some () :=
    fun h => inArray_eq h
  unfold ext4Mount
  rw [if_neg (by rw [hm]; exact Bool.false_ne_true)]
  cases ready with
  | false => exact ⟨-10, v.sizes, rfl⟩
  | true =>
      rw [if_neg (by decide), hall (by decide), Option.bind_eq_bind, Option.bind_some]
      cases hfirst : d.fails 2 with
      | true => exact ⟨-11, v.sizes, rfl⟩
      | false =>
          rw [if_neg Bool.false_ne_true, hall (by decide), Option.bind_eq_bind, Option.bind_some]
          cases hsecond : d.fails 3 with
          | true => exact ⟨-12, v.sizes, rfl⟩
          | false =>
              rw [if_neg Bool.false_ne_true, hall (by decide), Option.bind_eq_bind, Option.bind_some]
              dsimp only
              rw [if_pos fun hmagic => h rfl ⟨hfirst, hsecond, hmagic⟩]
              exact ⟨-13, _, rfl⟩

/-- A mount that finds one. -/
theorem ext4Mount_found (hm : v.root.mounted = false) (h : d.Found) :
    ext4Mount d true turns v = (do
      let blockSize ← shiftLeft 1024 d.logBlockSize
      if blockSize > bufSize then
        some (-14, { v with
          blockSize := blockSize
          sizes := { v.sizes with sInodesPerGroup := d.sizes.sInodesPerGroup } })
      else do
        let groups ← divide (u32 (le32 d.sbraw 4 + d.blocksPerGroup + (2 ^ 32 - 1))) d.blocksPerGroup
        if groups = 0 then some (-15, { v with blockSize := blockSize, sizes := d.sizes })
        else do
          let r ← scanRootDir d blockSize d.sizes turns v.bufs v.root
          if r.1 < 0 then
            some (-16, { v with
              blockSize := blockSize
              sizes := d.sizes
              bufs := r.2.1
              root := r.2.2 })
          else
            some (0, { v with
              blockSize := blockSize
              sizes := d.sizes
              bufs := r.2.1
              root := { r.2.2 with mounted := true } })) := by
  have hall : ∀ {at' n : Nat}, at' + n ≤ sbrawSize → inArray at' n sbrawSize = some () :=
    fun h => inArray_eq h
  unfold ext4Mount
  rw [if_neg (by rw [hm]; exact Bool.false_ne_true), if_neg (by decide), hall (by decide),
    Option.bind_eq_bind, Option.bind_some, h.first, if_neg Bool.false_ne_true, hall (by decide),
    Option.bind_eq_bind, Option.bind_some, h.second, if_neg Bool.false_ne_true, hall (by decide),
    Option.bind_eq_bind, Option.bind_some]
  dsimp only
  rw [if_neg (not_not.mpr h.magic)]
  rfl

theorem shiftLeft_exact (d : Disk) :
    Exact (shiftLeft 1024 d.logBlockSize) (d.logBlockSize < 32) (· = d.blockSize) :=
  ⟨fun h => ⟨_, if_pos h, rfl⟩, fun h => if_neg h⟩

/-- A block size that is accepted and not zero is one of three. -/
theorem known_of_accepted (hshift : d.logBlockSize < 32) (hsmall : d.blockSize ≤ bufSize)
    (hne : d.blockSize ≠ 0) : ∃ fs : Ext4, fs.device = d ∧ fs.blockSize = d.blockSize := by
  have hknown : ∀ n, n < 32 → u32 (1024 * 2 ^ n) ≤ 4096 → u32 (1024 * 2 ^ n) ≠ 0 →
      u32 (1024 * 2 ^ n) = 1024 ∨ u32 (1024 * 2 ^ n) = 2048 ∨ u32 (1024 * 2 ^ n) = 4096 := by
    decide
  exact ⟨⟨d.blockSize, hknown _ hshift hsmall hne, d.sector, d.fails⟩, rfl, rfl⟩

/-- Blocks of no bytes make the reader divide by zero. -/
theorem readInode_zero (d : Disk) (sizes : Ext4Sizes) (b : Static) : readInode d 0 sizes b 2 = none := by
  have hdesc : ∀ group, loadGroupDesc d 0 sizes b group = none := by
    intro group
    unfold loadGroupDesc divide
    by_cases hdesc : sizes.descSize = 0
    · rw [if_pos hdesc]
      rfl
    · rw [if_neg hdesc, Nat.zero_div]
      rfl
  unfold readInode
  rw [if_neg (by decide)]
  dsimp only
  by_cases hper : sizes.sInodesPerGroup = 0
  · rw [hper]
    rfl
  · rw [divide_eq hper, modulo_eq hper]
    simp only [Option.bind_eq_bind, Option.bind_some, hdesc, Option.bind_none]

/-- A mount that comes to its end, on a disk with a superblock. -/
theorem ext4Mount_needs (hinv : d.Inv v) (hm : v.root.mounted = false) (h : d.Found)
    {out : Int × Reader} (hout : ext4Mount d true turns v = some out) :
    d.logBlockSize < 32 ∧ (d.blockSize ≤ bufSize → d.blocksPerGroup ≠ 0 ∧
      (d.groupsCount ≠ 0 → d.blockSize ≠ 0 ∧
        ∀ fs : Ext4, fs.device = d → fs.blockSize = d.blockSize → fs.DirEnds d.sizes ∧
          ∀ root, fs.RootIs d.sizes root → out.2.root.mounted = true)) ∧
      d.Inv out.2 := by
  have hnames := hinv.names
  have hunmounted : ∀ blockSize sizes, d.Inv ⟨blockSize, sizes, v.root, v.bufs⟩ := fun _ _ =>
    ⟨hinv.tails, hnames, fun hno => by cases hm.symm.trans hno⟩
  rw [ext4Mount_found hm h] at hout
  obtain ⟨blockSize, hblock, hrest⟩ := Option.bind_eq_some_iff.mp hout
  obtain ⟨hshift, rfl⟩ := (shiftLeft_exact d).of_eq_some hblock
  refine ⟨hshift, ?_⟩
  by_cases hlarge : d.blockSize > bufSize
  · rw [if_pos hlarge] at hrest
    cases hrest
    exact ⟨fun hno => absurd hno (Nat.not_le.mpr hlarge), hunmounted _ _⟩
  rw [if_neg hlarge] at hrest
  obtain ⟨groups, hgroups, hrest⟩ := Option.bind_eq_some_iff.mp hrest
  obtain ⟨hper, hgroups⟩ := (divide_exact _ _).of_eq_some hgroups
  have hsmall := Nat.le_of_not_lt hlarge
  rw [show groups = d.groupsCount from hgroups] at hrest
  by_cases hnone : d.groupsCount = 0
  · rw [if_pos hnone] at hrest
    cases hrest
    exact ⟨fun _ => ⟨hper, fun hno => absurd hnone hno⟩, hunmounted _ _⟩
  rw [if_neg hnone] at hrest
  obtain ⟨r, hscan, hrest⟩ := Option.bind_eq_some_iff.mp hrest
  have hne : d.blockSize ≠ 0 := by
    intro hzero
    rw [hzero, scanRootDir, readInode_zero] at hscan
    cases hscan
  obtain ⟨fs, rfl, hfs⟩ := known_of_accepted hshift hsmall hne
  rw [← hfs] at hscan
  obtain ⟨hdir, htails, hleaves⟩ :=
    scanRootDir_needs (mountSizes_lt _) (hinv.tails fs rfl hfs) hscan
  have hsame : ∀ fs' : Ext4, fs'.device = fs.device → fs'.blockSize = fs.device.blockSize → fs' = fs :=
    fun fs' hdevice hsize => device_unique hdevice (hsize.trans hfs.symm)
  rcases hleaves with ⟨hfailed, hroot, hno⟩ | ⟨hdone, hok, root, hroot, hlists⟩
  · rw [if_pos (by rw [hfailed]; decide)] at hrest
    cases hrest
    refine ⟨fun _ => ⟨hper, fun _ => ⟨hne, fun fs' hdevice hsize => ?_⟩⟩, ?_⟩
    · cases hsame fs' hdevice hsize
      exact ⟨hdir, fun root h => absurd h (hno root)⟩
    · show fs.device.Inv ⟨_, _, r.2.2, r.2.1⟩
      rw [hroot]
      exact ⟨fun fs' hdevice hsize => hsame fs' hdevice hsize ▸ htails, hnames,
        fun hno => by cases hm.symm.trans hno⟩
  · rw [if_neg (by rw [hdone]; decide)] at hrest
    cases hrest
    refine ⟨fun _ => ⟨hper, fun _ => ⟨hne, fun fs' hdevice hsize => ?_⟩⟩, ?_⟩
    · cases hsame fs' hdevice hsize
      exact ⟨hdir, fun _ _ => rfl⟩
    · show fs.device.Inv ⟨_, _, ⟨true, r.2.2.rootFiles, r.2.2.rootFileCount⟩, r.2.1⟩
      exact ⟨fun fs' hdevice hsize => hsame fs' hdevice hsize ▸ htails, ⟨hok.count, hok.names⟩,
        fun _ => ⟨rfl, rfl, h, hnone, fs, root, rfl, hfs, hroot, hlists⟩⟩

theorem ext4Mount_returns (h : d.Fits) :
    ∃ turns, ∀ ready v, d.Inv v → (ext4Mount d ready turns v).isSome = true := by
  -- The turns that the scan takes, where the mount comes to it.
  have hscan : ∃ turns, d.Found → d.groupsCount ≠ 0 → d.blockSize ≤ bufSize → ∀ v, d.Inv v →
      (scanRootDir d d.blockSize d.sizes turns v.bufs v.root).isSome = true := by
    by_cases hcomes : d.Found ∧ d.groupsCount ≠ 0 ∧ d.blockSize ≤ bufSize
    case neg => exact ⟨0, fun hfound hgroups hsmall => absurd ⟨hfound, hgroups, hsmall⟩ hcomes⟩
    obtain ⟨hfound, hgroups, hsmall⟩ := hcomes
    obtain ⟨fs, rfl, hfs⟩ := known_of_accepted (h.shift hfound) hsmall (h.block hfound hsmall hgroups)
    obtain ⟨turns, hturns⟩ := scanRootDir_returns (mountSizes_lt _) (h.dir hfound hgroups fs rfl hfs)
    refine ⟨turns, fun _ _ _ v hinv => ?_⟩
    rw [← hfs]
    exact hturns v.bufs v.root (hinv.tails fs rfl hfs)
  obtain ⟨turns, hturns⟩ := hscan
  refine ⟨turns, fun ready v hinv => ?_⟩
  cases hm : v.root.mounted with
  | true =>
      rw [ext4Mount, if_pos hm]
      rfl
  | false =>
      by_cases hfound : ready = true ∧ d.Found
      case neg =>
        obtain ⟨r, sizes', hearly⟩ := @ext4Mount_early d v turns ready hm fun hr hf => hfound ⟨hr, hf⟩
        rw [hearly]
        rfl
      obtain ⟨rfl, hfound⟩ := hfound
      have hshift : shiftLeft 1024 d.logBlockSize = some d.blockSize := if_pos (h.shift hfound)
      rw [ext4Mount_found hm hfound, hshift, Option.bind_eq_bind, Option.bind_some]
      by_cases hlarge : d.blockSize > bufSize
      · rw [if_pos hlarge]
        rfl
      have hsmall := Nat.le_of_not_lt hlarge
      have hgroups : divide (u32 (le32 d.sbraw 4 + d.blocksPerGroup + (2 ^ 32 - 1))) d.blocksPerGroup =
          some d.groupsCount := divide_eq (h.perGroup hfound hsmall)
      rw [if_neg hlarge, hgroups, Option.bind_eq_bind, Option.bind_some]
      by_cases hnone : d.groupsCount = 0
      · rw [if_pos hnone]
        rfl
      obtain ⟨r, hr⟩ := Option.isSome_iff_exists.mp (hturns hfound hnone hsmall v hinv)
      rw [if_neg hnone, hr, Option.bind_some]
      split <;> rfl

/-! ## The other calls -/

section Names

variable {name : Buf} {m : Nat} (hend : name m = 0) (hm : m < ext4NameMax)
include hend hm

theorem nameEq_returns (arg : Buf) (turns i : Nat) (hi : i ≤ m) (hturns : m < i + turns) :
    (nameEq name arg turns i).isSome = true := by
  induction turns generalizing i with
  | zero => omega
  | succ turns ih =>
      have hin : inArray i 1 ext4NameMax = some () := inArray_eq (by omega)
      unfold nameEq
      rw [hin, Option.bind_eq_bind, Option.bind_some]
      split
      · rename_i hboth
        split
        · rfl
        · refine ih (i + 1) (Nat.lt_of_le_of_ne hi fun heq => ?_) (by omega)
          exact hboth.1 (heq ▸ hend)
      · rfl

theorem nameLen_returns (turns n : Nat) (hn : n ≤ m) (hturns : m < n + turns) :
    ∃ len, nameLen name turns n = some len ∧ len < ext4NameMax := by
  induction turns generalizing n with
  | zero => omega
  | succ turns ih =>
      have hin : inArray n 1 ext4NameMax = some () := inArray_eq (by omega)
      unfold nameLen
      rw [hin, Option.bind_eq_bind, Option.bind_some]
      by_cases hne : name n ≠ 0
      · rw [if_pos hne]
        exact ih (n + 1) (Nat.lt_of_le_of_ne hn fun heq => hne (heq ▸ hend)) (by omega)
      · rw [if_neg hne]
        exact ⟨n, rfl, by omega⟩

end Names

theorem ext4Lookup_returns {st : Ext4Root} (h : st.NamesOk) (name : Buf) :
    (ext4Lookup st name).isSome = true := by
  have hloop : ∀ left i, i + left ≤ st.rootFileCount → (lookupLoop st name left i).isSome = true := by
    intro left
    induction left with
    | zero => exact fun _ _ => rfl
    | succ left ih =>
        intro i hi
        have hcount := h.count
        have hin : inArray i 1 ext4MaxRootEntries = some () := inArray_eq (by omega)
        obtain ⟨m, hm, hend⟩ := h.names i (by omega)
        obtain ⟨same, hsame⟩ := Option.isSome_iff_exists.mp
          (nameEq_returns hend hm name (ext4NameMax + 1) 0 (Nat.zero_le m) (by omega))
        unfold lookupLoop
        rw [hin, Option.bind_eq_bind, Option.bind_some, hsame, Option.bind_eq_bind, Option.bind_some]
        split
        · rfl
        · exact ih (i + 1) (by omega)
  unfold ext4Lookup
  split
  · exact hloop _ 0 (Nat.zero_add _).le
  · rfl

theorem ext4Listdir_returns {st : Ext4Root} (h : st.NamesOk) (buf : Option Buf) (len : Nat) :
    (ext4Listdir st buf len).isSome = true := by
  have hloop : ∀ left i out buf, i + left ≤ st.rootFileCount →
      (listLoop st len left i out buf).isSome = true := by
    intro left
    induction left with
    | zero => exact fun _ _ _ _ => rfl
    | succ left ih =>
        intro i out buf hi
        have hcount := h.count
        have hin : inArray i 1 ext4MaxRootEntries = some () := inArray_eq (by omega)
        obtain ⟨m, hm, hend⟩ := h.names i (by omega)
        obtain ⟨n, hn, hlt⟩ := nameLen_returns hend hm (ext4NameMax + 1) 0 (Nat.zero_le m) (by omega)
        have hname : inArray 0 n ext4NameMax = some () := inArray_eq (by omega)
        unfold listLoop
        rw [hin, Option.bind_eq_bind, Option.bind_some, hn, Option.bind_eq_bind, Option.bind_some]
        split
        · rfl
        · rw [hname, Option.bind_some]
          exact ih (i + 1) _ _ (by omega)
  unfold ext4Listdir
  cases buf with
  | none => rfl
  | some buf =>
      dsimp only
      split
      · rfl
      · obtain ⟨r, hr⟩ := Option.isSome_iff_exists.mp
          (hloop st.rootFileCount 0 0 buf (Nat.zero_add _).le)
        rw [hr]
        rfl

/-- A read of a file. -/
theorem ext4ReadFile_exact (hinv : d.Inv v) (hm : v.root.mounted = true) (hfs : fs.device = d)
    (hsize : fs.blockSize = d.blockSize) (c : ReadFile) (hpos : ¬ c.fileIndex < 0)
    (hlt : c.fileIndex.toNat < v.root.rootFileCount) :
    let inum := (v.root.rootFiles c.fileIndex.toNat).inode
    Exact (ext4ReadFile d v c)
      (fs.InodeEnds d.sizes inum ∧ ∀ ino, fs.diskInode d.sizes inum = some ino →
        let remaining := if u32 (c.offset.toNat + c.len.toNat) > ino.iSizeLo then
          ino.iSizeLo - c.offset.toNat else c.len.toNat
        ino.iSizeHigh = 0 → c.offset.toNat < ino.iSizeLo →
          fs.LoopEnds ino c.offset.toNat remaining (remaining + 1) 0)
      fun out => fs.Tails d.sizes out.2.1 := by
  subst hfs
  intro inum
  obtain ⟨hsizes, hblock, -, -, -⟩ := hinv.mounted hm
  have hcount := hinv.names.count
  have hin : inArray c.fileIndex.toNat 1 ext4MaxRootEntries = some () := inArray_eq (by omega)
  have hindex : ¬ (¬ v.root.mounted ∨ c.fileIndex < 0 ∨ (v.root.rootFileCount : Int) ≤ c.fileIndex) := by
    rintro (h | h | h)
    · exact h hm
    · exact hpos h
    · omega
  unfold ext4ReadFile
  rw [if_neg hindex, hsizes, hblock, ← hsize]
  refine Exact.bind_of hin ?_
  refine (readInode_exact (mountSizes_lt _) (hinv.tails fs rfl hsize) _).bind fun _ r hr => ?_
  obtain ⟨ino, b'⟩ := r
  obtain ⟨hino, htails⟩ : ino = _ ∧ fs.Tails _ b' := hr
  cases ino with
  | none =>
      refine (Exact.some (a := (-1, b', c.buf)) htails).congr (iff_true_intro fun ino hno => ?_)
      cases hino.trans hno
  | some ino =>
      refine (inodeReadData_ends htails ino _ c.buf _).congr ?_
      constructor
      · exact fun h => h ino hino.symm
      · intro h ino' hino'
        cases hino.trans hino'
        exact h

/-! ## A larger bound on the turns -/

theorem scanRootDir_grows (d : Disk) (blockSize : Nat) (sizes : Ext4Sizes) (b : Static)
    (st : Ext4Root) {turns' : Nat} (hle : turns ≤ turns') :
    Grows (scanRootDir d blockSize sizes turns b st) (scanRootDir d blockSize sizes turns' b st) := by
  unfold scanRootDir
  refine (Grows.refl _).bind fun r => ?_
  cases r.1 with
  | none => exact .refl _
  | some root =>
      refine Grows.ite (.refl _) ?_
      exact (scanLoop_grows _ _ _ _ _ _ hle).bind fun _ => .refl _

theorem ext4Mount_grows (d : Disk) (ready : Bool) (v : Reader) {turns' : Nat} (hle : turns ≤ turns') :
    Grows (ext4Mount d ready turns v) (ext4Mount d ready turns' v) := by
  unfold ext4Mount
  refine Grows.ite (.refl _) (Grows.ite (.refl _) ((Grows.refl _).bind fun _ => ?_))
  refine Grows.ite (.refl _) ((Grows.refl _).bind fun _ => ?_)
  refine Grows.ite (.refl _) ((Grows.refl _).bind fun _ => ?_)
  refine Grows.ite (.refl _) ((Grows.refl _).bind fun _ => ?_)
  refine Grows.ite (.refl _) ((Grows.refl _).bind fun _ => ?_)
  refine Grows.ite (.refl _) ?_
  exact (scanRootDir_grows _ _ _ _ _ hle).bind fun _ => .refl _

end Checked

/-! ## Runs -/

theorem Ext4Call.run_grows (d : Disk) (v : Reader) (c : Ext4Call) {turns' : Nat}
    (hle : turns ≤ turns') : Grows (c.run d turns v) (c.run d turns' v) := by
  cases c with
  | mount ready =>
      intro v' hv'
      obtain ⟨out, hout, hv'⟩ := Option.map_eq_some_iff.mp hv'
      exact Option.map_eq_some_iff.mpr ⟨out, Checked.ext4Mount_grows d ready v hle out hout, hv'⟩
  | lookup name => exact .refl _
  | listdir buf len => exact .refl _
  | readFile c => exact .refl _

theorem after_grows (d : Disk) (calls : List Ext4Call) {turns' : Nat} (hle : turns ≤ turns') :
    Grows (d.after turns calls) (d.after turns' calls) :=
  Grows.foldlM (fun v (c : Ext4Call) => c.run_grows d v hle) .zero calls

theorem Disk.Inv.zero (d : Disk) : d.Inv .zero where
  tails _ _ _ := ⟨fun _ _ => rfl, fun _ _ => rfl, fun _ _ => rfl⟩
  names := ⟨Nat.zero_le _, fun i hi => absurd hi (Nat.not_lt_zero i)⟩
  mounted := fun hno => by cases hno

/-- A call that comes to its end leaves everything in order. -/
theorem Disk.Inv.call (h : d.Inv v) {c : Ext4Call} {v' : Reader} (hcall : c.run d turns v = some v') :
    d.Inv v' := by
  cases c with
  | mount ready =>
      obtain ⟨out, hout, rfl⟩ := Option.map_eq_some_iff.mp hcall
      cases hm : v.root.mounted with
      | true =>
          rw [Checked.ext4Mount, if_pos hm] at hout
          cases hout
          exact h
      | false =>
          by_cases hfound : ready = true ∧ d.Found
          · obtain ⟨rfl, hfound⟩ := hfound
            exact (Checked.ext4Mount_needs h hm hfound hout).2.2
          · obtain ⟨r, sizes', hearly⟩ :=
              @Checked.ext4Mount_early d v turns ready hm fun hr hf => hfound ⟨hr, hf⟩
            cases hearly.symm.trans hout
            refine ⟨h.tails, h.names, fun hno => ?_⟩
            cases hm.symm.trans hno
  | lookup name =>
      obtain ⟨_, -, rfl⟩ := Option.map_eq_some_iff.mp hcall
      exact h
  | listdir buf len =>
      obtain ⟨_, -, rfl⟩ := Option.map_eq_some_iff.mp hcall
      exact h
  | readFile c =>
      obtain ⟨out, hout, rfl⟩ := Option.map_eq_some_iff.mp hcall
      suffices htails : ∀ fs : Ext4, fs.device = d → fs.blockSize = d.blockSize →
          fs.Tails d.sizes out.2.1 from
        ⟨htails, h.names, fun hm => { h.mounted hm with }⟩
      by_cases hindex : ¬ v.root.mounted ∨ c.fileIndex < 0 ∨ (v.root.rootFileCount : Int) ≤ c.fileIndex
      · rw [Checked.ext4ReadFile, if_pos hindex] at hout
        cases hout
        exact h.tails
      · obtain ⟨hm, hindex⟩ := not_or.mp hindex
        obtain ⟨hpos, hlt⟩ := not_or.mp hindex
        intro fs hfs hsize
        exact ((Checked.ext4ReadFile_exact h (not_not.mp hm) hfs hsize c hpos (by omega)).of_eq_some
          hout).2

theorem after_concat (d : Disk) (turns : Nat) (calls : List Ext4Call) (c : Ext4Call) :
    d.after turns (calls ++ [c]) = (d.after turns calls).bind (c.run d turns) := by
  unfold Disk.after
  rw [List.foldlM_append]
  cases calls.foldlM (fun v (c : Ext4Call) => c.run d turns v) Reader.zero with
  | none => rfl
  | some v => exact bind_pure (c.run d turns v)

theorem Disk.Inv.after {calls : List Ext4Call} (h : d.after turns calls = some v) : d.Inv v := by
  induction calls using List.reverseRecOn generalizing v with
  | nil =>
      cases h
      exact .zero d
  | append_singleton calls c ih =>
      rw [after_concat] at h
      obtain ⟨v', hv', hcall⟩ := Option.bind_eq_some_iff.mp h
      exact (ih hv').call hcall

/-- What the mount alone needs, and that it comes to its end. -/
theorem Disk.Safe.mount (hsafe : d.Safe) (hfound : d.Found) :
    d.logBlockSize < 32 ∧ (d.blockSize ≤ bufSize → d.blocksPerGroup ≠ 0 ∧
      (d.groupsCount ≠ 0 → d.blockSize ≠ 0 ∧
        ∀ fs : Ext4, fs.device = d → fs.blockSize = d.blockSize → fs.DirEnds d.sizes ∧
          ∀ root, fs.RootIs d.sizes root →
            ∃ turns v, d.after turns [.mount true] = some v ∧ v.root.mounted = true)) := by
  obtain ⟨turns, hone⟩ := hsafe [.mount true]
  obtain ⟨v, hv⟩ := Option.isSome_iff_exists.mp hone
  obtain ⟨v', hv', hv''⟩ := Option.bind_eq_some_iff.mp hv
  cases hv''
  obtain ⟨out, hout, rfl⟩ := Option.map_eq_some_iff.mp hv'
  obtain ⟨hshift, hmore, -⟩ := Checked.ext4Mount_needs (.zero d) rfl hfound hout
  refine ⟨hshift, fun hsmall => ⟨(hmore hsmall).1, fun hgroups => ?_⟩⟩
  obtain ⟨hne, hdir⟩ := (hmore hsmall).2 hgroups
  refine ⟨hne, fun fs hfs hsize => ⟨(hdir fs hfs hsize).1, fun root hroot => ?_⟩⟩
  exact ⟨turns, out.2, hv, (hdir fs hfs hsize).2 root hroot⟩

/-- What every read of a file needs. -/
theorem Disk.Safe.file (hsafe : d.Safe) {calls : List Ext4Call} (hv : d.after turns calls = some v)
    (hm : v.root.mounted = true) {i : Nat} (hi : i < v.root.rootFileCount) (hfs : fs.device = d)
    (hsize : fs.blockSize = d.blockSize) : fs.FileEnds d.sizes (v.root.rootFiles i).inode := by
  have hinv := Disk.Inv.after hv
  -- Every read of the file comes to its end.
  have hread : ∀ c : ReadFile, ∃ out, Checked.ext4ReadFile d v c = some out := by
    intro c
    obtain ⟨turns', hmore⟩ := hsafe (calls ++ [.readFile c])
    obtain ⟨v'', hv''⟩ := Option.isSome_iff_exists.mp hmore
    obtain ⟨v₂, hv₂, hcall⟩ := Option.bind_eq_some_iff.mp ((after_concat ..).symm.trans hv'')
    cases (after_grows d calls (le_max_left turns' turns) _ hv₂).symm.trans
      (after_grows d calls (le_max_right turns' turns) _ hv)
    obtain ⟨out, hout, -⟩ := Option.map_eq_some_iff.mp hcall
    exact ⟨out, hout⟩
  have hends : ∀ off len, off < 2 ^ 32 → len < 2 ^ 32 →
      fs.InodeEnds d.sizes (v.root.rootFiles i).inode ∧
        ∀ ino, fs.diskInode d.sizes (v.root.rootFiles i).inode = some ino →
          let remaining := if u32 (off + len) > ino.iSizeLo then ino.iSizeLo - off else len
          ino.iSizeHigh = 0 → off < ino.iSizeLo → fs.LoopEnds ino off remaining (remaining + 1) 0 := by
    intro off len hoff hlen
    obtain ⟨out, hout⟩ := hread ⟨i, .ofNat off, fun _ => 0, .ofNat len⟩
    have hexact := (Checked.ext4ReadFile_exact hinv hm hfs hsize
      ⟨i, .ofNat off, fun _ => 0, .ofNat len⟩ (Int.not_lt.mpr (Int.natCast_nonneg i)) hi).of_eq_some hout
    dsimp only at hexact
    rw [UInt32.toNat_ofNat_of_lt' hoff, UInt32.toNat_ofNat_of_lt' hlen, Int.toNat_natCast] at hexact
    exact hexact.1
  refine ⟨(hends 0 0 (by decide) (by decide)).1, fun ino hino hhigh => ?_⟩
  have hlo := diskInode_size hino
  refine (readsEnd_iff hlo).mpr fun off len hoff hlen => ?_
  exact (hends off len (hoff.trans hlo) hlen).2 ino hino hhigh hoff

/-- Every run of calls comes to its end, without a division by zero, a shift by 32 or more or an
access outside of an array, exactly if the disk is so. -/
theorem disk_safe_iff (d : Disk) : d.Safe ↔ d.Fits := by
  constructor
  · intro hsafe
    have hmount := @Disk.Safe.mount d hsafe
    have hsmall : ∀ fs : Ext4, fs.blockSize = d.blockSize → d.blockSize ≤ bufSize :=
      fun fs hsize => hsize ▸ Checked.blockSize_le fs
    refine ⟨fun hfound => (hmount hfound).1, fun hfound hsmall => ((hmount hfound).2 hsmall).1,
      fun hfound hsmall hgroups => (((hmount hfound).2 hsmall).2 hgroups).1,
      fun hfound hgroups fs hfs hsize => ?_,
      fun hfound hgroups fs hfs hsize root hroot inum hlists => ?_⟩
    · exact ((((hmount hfound).2 (hsmall fs hsize)).2 hgroups).2 fs hfs hsize).1
    · obtain ⟨turns, v, hv, hm⟩ :=
        ((((hmount hfound).2 (hsmall fs hsize)).2 hgroups).2 fs hfs hsize).2 root hroot
      -- The table names the inode, too.
      obtain ⟨fs', root', hfs', hsize', hroot', hinodes⟩ := ((Disk.Inv.after hv).mounted hm).dir
      cases device_unique (hfs'.trans hfs.symm) (hsize'.trans hsize.symm)
      cases Option.some.inj (hroot'.inode.symm.trans hroot.inode)
      obtain ⟨i, hi, rfl⟩ := Ext4Root.mem_inodes.mp ((hinodes inum).mpr hlists)
      exact hsafe.file hv hm hi hfs hsize
  · intro h
    obtain ⟨turns, hturns⟩ := Checked.ext4Mount_returns h
    refine fun calls => ⟨turns, ?_⟩
    induction calls using List.reverseRecOn with
    | nil => rfl
    | append_singleton calls c ih =>
        obtain ⟨v, hv⟩ := Option.isSome_iff_exists.mp ih
        have hinv := Disk.Inv.after hv
        rw [after_concat, hv, Option.bind_some]
        cases c with
        | mount ready =>
            obtain ⟨out, hout⟩ := Option.isSome_iff_exists.mp (hturns ready v hinv)
            rw [Ext4Call.run, hout]
            rfl
        | lookup name =>
            obtain ⟨out, hout⟩ := Option.isSome_iff_exists.mp (Checked.ext4Lookup_returns hinv.names name)
            rw [Ext4Call.run, hout]
            rfl
        | listdir buf len =>
            obtain ⟨out, hout⟩ := Option.isSome_iff_exists.mp
              (Checked.ext4Listdir_returns hinv.names buf len.toNat)
            rw [Ext4Call.run, hout]
            rfl
        | readFile c =>
            suffices hread : (Checked.ext4ReadFile d v c).isSome = true by
              obtain ⟨out, hout⟩ := Option.isSome_iff_exists.mp hread
              rw [Ext4Call.run, hout]
              rfl
            by_cases hindex : ¬ v.root.mounted ∨ c.fileIndex < 0 ∨ (v.root.rootFileCount : Int) ≤ c.fileIndex
            · rw [Checked.ext4ReadFile, if_pos hindex]
              rfl
            · obtain ⟨hm, hindex⟩ := not_or.mp hindex
              obtain ⟨hpos, hlt⟩ := not_or.mp hindex
              have hm := not_not.mp hm
              have hlt : c.fileIndex.toNat < v.root.rootFileCount := by omega
              obtain ⟨-, -, hfound, hgroups, fs, root, hfs, hsize, hroot, hinodes⟩ := hinv.mounted hm
              have hlists := (hinodes _).mp (Ext4Root.mem_inodes.mpr ⟨_, hlt, rfl⟩)
              obtain ⟨hinode, hreads⟩ := h.files hfound hgroups fs hfs hsize root hroot _ hlists
              refine (Checked.ext4ReadFile_exact hinv hm hfs hsize c hpos hlt).isSome_iff.mpr
                ⟨hinode, fun ino hino => ?_⟩
              intro remaining hhigh hoff
              exact (readsEnd_iff (diskInode_size hino)).mp (hreads ino hino hhigh) _ _ hoff
                c.len.toNat_lt

/-- A mount and a read, on the disk with two files. -/
example : (twoFiles.device.after 3 [.mount true, .readFile ⟨1, 0, fun _ => 7, 1⟩]).map
    (fun v => (v.root.mounted, v.root.inodes, v.bufs.blockBuf 0)) = some (true, [12, 13], 66) := by
  decide +kernel

/-- A disk whose superblock has inodes of 8192 bytes. -/
def largeInodes : Disk where
  sector s n :=
    if s ≠ 2 then 0
    else if n = 5 then 32
    else if n = 33 then 32
    else if n = 40 then 16
    else if n = 56 then 83
    else if n = 57 then 239
    else if n = 89 then 32
    else 0
  fails _ := false

/-- The mount copies 7168 bytes out of `block_buf2`. -/
theorem disk_unsafe : ¬ ∀ d : Disk, d.Safe := by
  intro h
  obtain ⟨turns, hone⟩ := h largeInodes [.mount true]
  have hread : Checked.readInode largeInodes 1024 largeInodes.sizes Reader.zero.bufs 2 = none :=
    Option.isNone_iff_eq_none.mp (by decide +kernel)
  have hshift : Checked.shiftLeft 1024 largeInodes.logBlockSize = some 1024 := by decide
  have hgroups : Checked.divide (u32 (le32 largeInodes.sbraw 4 + largeInodes.blocksPerGroup + (2 ^ 32 - 1)))
      largeInodes.blocksPerGroup = some 1 := by decide
  have hmount : Checked.ext4Mount largeInodes true turns .zero = none := by
    rw [Checked.ext4Mount_found rfl ⟨rfl, rfl, by decide⟩, hshift, Option.bind_eq_bind, Option.bind_some,
      if_neg (by decide), hgroups, Option.bind_eq_bind, Option.bind_some, if_neg (by decide),
      Checked.scanRootDir]
    show ((Checked.readInode largeInodes 1024 largeInodes.sizes Reader.zero.bufs 2).bind _).bind _ = none
    rw [hread]
    rfl
  rw [Disk.after, List.foldlM_cons, Ext4Call.run, hmount] at hone
  cases hone

end Sugimotos.Fs
