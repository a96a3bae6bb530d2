/-
# Looking a block up in an extent tree

What an extent tree says of a logical block, and what `extent_find_physical` makes of
it.  An extent whose length is above 32768 is unwritten and has 32768 blocks fewer;
the reader masks the top bit of the length off, and so takes unwritten extents for
written ones and a written one of 32768 blocks for an empty one.
-/

import Sugimotos.Fs.Ext4
import Mathlib.Data.List.Range
import Mathlib.Order.Basic

namespace Sugimotos.Fs

open Sugimotos.Mm

variable {fs : Ext4} {ino : Ext4Inode} {node : Nat → UInt8} {ex : Ext4Extent} {lblock : Nat}

/-! ## Extent trees -/

abbrev extInitMaxLen : Nat := 32768

/-- The blocks of the extent have been written. -/
def Ext4Extent.Initialised (ex : Ext4Extent) : Prop := ex.eeLen ≤ extInitMaxLen

/-- How many blocks the extent has. -/
def Ext4Extent.blocks (ex : Ext4Extent) : Nat :=
  if ex.eeLen ≤ extInitMaxLen then ex.eeLen else ex.eeLen - extInitMaxLen

def Ext4Extent.Covers (ex : Ext4Extent) (lblock : Nat) : Prop :=
  ex.eeBlock ≤ lblock ∧ lblock < ex.eeBlock + ex.blocks

instance (ex : Ext4Extent) : Decidable ex.Initialised := inferInstanceAs (Decidable (_ ≤ _))

instance (ex : Ext4Extent) (lblock : Nat) : Decidable (ex.Covers lblock) :=
  inferInstanceAs (Decidable (_ ∧ _))

/-- A node of `size` bytes: it has its depth, and no more entries than fit. -/
structure NodeOk (node : Nat → UInt8) (depth size : Nat) : Prop where
  magic : (extentHeader node).ehMagic = ext4ExtMagic
  depth : (extentHeader node).ehDepth = depth
  count : (extentHeader node).ehEntries ≤ (extentHeader node).ehMax
  capacity : 12 + 12 * (extentHeader node).ehMax ≤ size

/-- A node of extents in ascending order, none of which overlap. -/
structure LeafOk (node : Nat → UInt8) (size : Nat) : Prop where
  ok : NodeOk node 0 size
  sorted : ∀ i j, i < j → j < (extentHeader node).ehEntries →
    (extent node i).eeBlock + (extent node i).blocks ≤ (extent node j).eeBlock
  high : ∀ i, i < (extentHeader node).ehEntries → (extent node i).eeStartHi = 0

/-- A root whose entries are in ascending order and name readable leaves.  The extents of
a leaf lie between its entry and the next one. -/
structure RootOk (fs : Ext4) (root : Nat → UInt8) : Prop where
  ok : NodeOk root 1 60
  sorted : ∀ i j, i < j → j < (extentHeader root).ehEntries →
    (extentIdx root i).eiBlock < (extentIdx root j).eiBlock
  high : ∀ i, i < (extentHeader root).ehEntries → (extentIdx root i).eiLeafHi = 0
  leaves : ∀ i, i < (extentHeader root).ehEntries →
    ∃ leaf, fs.readBlock (extentIdx root i).eiLeafLo = some leaf ∧ LeafOk leaf fs.blockSize
  within : ∀ i leaf, i < (extentHeader root).ehEntries →
    fs.readBlock (extentIdx root i).eiLeafLo = some leaf →
    ∀ j, j < (extentHeader leaf).ehEntries →
      (extentIdx root i).eiBlock ≤ (extent leaf j).eeBlock ∧
      ∀ i', i < i' → i' < (extentHeader root).ehEntries →
        (extent leaf j).eeBlock + (extent leaf j).blocks ≤ (extentIdx root i').eiBlock

/-- A well-formed tree of depth 0 or 1. -/
def Ext4.TreeOk (fs : Ext4) (ino : Ext4Inode) : Prop := LeafOk ino.iBlock 60 ∨ RootOk fs ino.iBlock

/-- The extents of a tree. -/
inductive Ext4.TreeExtent (fs : Ext4) (ino : Ext4Inode) : Ext4Extent → Prop
  | root {i} (hdepth : (extentHeader ino.iBlock).ehDepth = 0)
      (hi : i < (extentHeader ino.iBlock).ehEntries) : TreeExtent fs ino (extent ino.iBlock i)
  | leaf {i leaf j} (hdepth : (extentHeader ino.iBlock).ehDepth = 1)
      (hi : i < (extentHeader ino.iBlock).ehEntries)
      (hleaf : fs.readBlock (extentIdx ino.iBlock i).eiLeafLo = some leaf)
      (hj : j < (extentHeader leaf).ehEntries) : TreeExtent fs ino (extent leaf j)

/-- The lookup finds the block of an initialised extent and nothing else. -/
def Ext4.LookupExact (fs : Ext4) (ino : Ext4Inode) (lblock : Nat) : Prop :=
  ∀ p, fs.extentFindPhysical ino lblock = some p ↔
    ∃ ex, fs.TreeExtent ino ex ∧ ex.Initialised ∧ ex.Covers lblock ∧
      p = ex.eeStartLo + (lblock - ex.eeBlock)

/-! ## What the loops take -/

theorem le16_lt (bytes : Nat → UInt8) (n : Nat) : le16 bytes n < 65536 := by
  have hlow := (bytes n).toNat_lt
  have hhigh := (bytes (n + 1)).toNat_lt
  unfold le16
  omega

theorem le32_lt (bytes : Nat → UInt8) (n : Nat) : le32 bytes n < 4294967296 := by
  have hlow := le16_lt bytes n
  have hhigh := le16_lt bytes (n + 2)
  unfold le32
  omega

/-- An extent as it is read from a disk. -/
structure Ext4Extent.InRange (ex : Ext4Extent) : Prop where
  block : ex.eeBlock < 2 ^ 32
  len : ex.eeLen < 2 ^ 16

theorem extent_inRange (node : Nat → UInt8) (i : Nat) : (extent node i).InRange :=
  ⟨le32_lt node _, le16_lt node _⟩

theorem takes_iff (ex : Ext4Extent) (lblock : Nat) : ex.takes lblock = true ↔
    ex.eeBlock ≤ lblock ∧ lblock < u32 (ex.eeBlock + ex.eeLen % 32768) := by
  have hmask : ex.eeLen &&& 0x7fff = ex.eeLen % 2 ^ 15 := Nat.and_two_pow_sub_one_eq_mod _ 15
  unfold Ext4Extent.takes
  rw [hmask, Bool.and_eq_true, decide_eq_true_iff, decide_eq_true_iff]
  rfl

theorem Ext4Extent.InRange.covers_of_takes (h : ex.InRange) (htakes : ex.takes lblock = true) :
    ex.Covers lblock := by
  rw [takes_iff] at htakes
  have hlen := h.len
  unfold u32 at htakes
  unfold Ext4Extent.Covers Ext4Extent.blocks extInitMaxLen
  split_ifs <;> omega

/-- An extent that covers the block is taken unless its length is 32768 or its end wraps. -/
theorem Ext4Extent.InRange.takes_iff_of_covers (h : ex.InRange) (hcovers : ex.Covers lblock) :
    ex.takes lblock = true ↔ ex.eeLen ≠ extInitMaxLen ∧ ex.eeBlock + ex.blocks < 2 ^ 32 := by
  have hblock := h.block
  have hlen := h.len
  rw [takes_iff]
  unfold Ext4Extent.Covers Ext4Extent.blocks extInitMaxLen at hcovers
  unfold Ext4Extent.blocks extInitMaxLen u32
  split_ifs at hcovers ⊢ <;> omega

/-- Two extents of a leaf that cover a block are one. -/
theorem LeafOk.covers_unique {size : Nat} (h : LeafOk node size) {i j : Nat}
    (hi : i < (extentHeader node).ehEntries) (hj : j < (extentHeader node).ehEntries)
    (hci : (extent node i).Covers lblock) (hcj : (extent node j).Covers lblock) : i = j := by
  unfold Ext4Extent.Covers at hci hcj
  cases lt_trichotomy i j with
  | inl hlt =>
      have hsep := h.sorted i j hlt hj
      omega
  | inr hge =>
      cases hge with
      | inl heq => exact heq
      | inr hgt =>
          have hsep := h.sorted j i hgt hi
          omega

theorem findExtent_hole (h : ∀ i, i < (extentHeader node).ehEntries →
    ¬ (extent node i).Covers lblock) :
    findExtent node (extentHeader node).ehEntries lblock = none := by
  have hnone : (List.range (extentHeader node).ehEntries).find?
      (fun i => (extent node i).takes lblock) = none := by
    apply List.find?_eq_none.mpr
    intro i hi htakes
    exact h i (List.mem_range.mp hi) ((extent_inRange node i).covers_of_takes htakes)
  unfold findExtent
  rw [hnone]

theorem LeafOk.findExtent_covered {size : Nat} (h : LeafOk node size) {i : Nat}
    (hi : i < (extentHeader node).ehEntries) (hcovers : (extent node i).Covers lblock) :
    findExtent node (extentHeader node).ehEntries lblock =
      if (extent node i).takes lblock then
        some (u32 ((extent node i).eeStartLo + (lblock - (extent node i).eeBlock)))
      else none := by
  unfold findExtent
  cases hfind : (List.range (extentHeader node).ehEntries).find?
      (fun i => (extent node i).takes lblock) with
  | none =>
      have hno := List.find?_eq_none.mp hfind i (List.mem_range.mpr hi)
      rw [if_neg hno]
  | some j =>
      have htakes := List.find?_some hfind
      have hj := List.mem_range.mp (List.mem_of_find?_eq_some hfind)
      have hsame : j = i :=
        h.covers_unique hj hi ((extent_inRange node j).covers_of_takes htakes) hcovers
      subst hsame
      dsimp only
      rw [if_neg (not_not.mpr (h.high j hi)), if_pos htakes]

/-! ## The leaf that is chosen -/

/-- The numbers below `m` are the first of those below `n` that satisfy `p`. -/
theorem takeWhile_range {p : Nat → Bool} {m n : Nat} (hle : m ≤ n) (htake : ∀ k, k < m → p k = true)
    (hstop : m < n → p m = false) : (List.range n).takeWhile p = List.range m := by
  obtain ⟨d, rfl⟩ := Nat.exists_eq_add_of_le hle
  rw [List.range_add, List.takeWhile_append_of_pos fun k hk => htake k (List.mem_range.mp hk)]
  cases d with
  | zero => exact List.append_nil _
  | succ d =>
      have hm := Bool.eq_false_iff.mp (hstop (Nat.lt_add_of_pos_right (Nat.succ_pos d)))
      rw [List.range_succ_eq_map, List.map_cons, Nat.add_zero, List.takeWhile_cons_of_neg hm,
        List.append_nil]

theorem chooseIdx_lt {entries i : Nat} (hchoose : chooseIdx node entries lblock = some i) :
    i < entries :=
  List.mem_range.mp (List.takeWhile_subset _ (List.mem_of_getLast? hchoose))

section Root

variable (h : RootOk fs node)
include h

/-- The entry that is chosen is the last that does not lie behind the block. -/
theorem RootOk.chooseIdx_eq {i : Nat} (hi : i < (extentHeader node).ehEntries)
    (hle : (extentIdx node i).eiBlock ≤ lblock)
    (hnext : ∀ j, i < j → j < (extentHeader node).ehEntries → lblock < (extentIdx node j).eiBlock) :
    chooseIdx node (extentHeader node).ehEntries lblock = some i := by
  have htaken : (List.range (extentHeader node).ehEntries).takeWhile
      (fun j => decide ((extentIdx node j).eiBlock ≤ lblock)) = List.range (i + 1) := by
    apply takeWhile_range hi
    · intro j hj
      by_cases hlast : j = i
      · rw [hlast]
        exact decide_eq_true hle
      · have hlt := h.sorted j i (by omega) hi
        exact decide_eq_true (by omega)
    · intro hroom
      exact decide_eq_false (Nat.not_le.mpr (hnext (i + 1) (Nat.lt_succ_self i) hroom))
  rw [chooseIdx, htaken, List.range_succ, List.getLast?_concat]

/-- The leaf of an extent that covers the block is chosen. -/
theorem RootOk.chooseIdx_covered {i j : Nat} {leaf : Nat → UInt8}
    (hi : i < (extentHeader node).ehEntries)
    (hleaf : fs.readBlock (extentIdx node i).eiLeafLo = some leaf)
    (hj : j < (extentHeader leaf).ehEntries) (hcovers : (extent leaf j).Covers lblock) :
    chooseIdx node (extentHeader node).ehEntries lblock = some i := by
  obtain ⟨hlow, hhigh⟩ := h.within i leaf hi hleaf j hj
  apply h.chooseIdx_eq hi (hlow.trans hcovers.1)
  intro i' hlt hi'
  exact hcovers.2.trans_le (hhigh i' hlt hi')

end Root

/-! ## The lookup -/

theorem LeafOk.lookup {size : Nat} (h : LeafOk ino.iBlock size) :
    fs.extentFindPhysical ino lblock =
      findExtent ino.iBlock (extentHeader ino.iBlock).ehEntries lblock := by
  unfold Ext4.extentFindPhysical
  dsimp only
  rw [if_neg (not_not.mpr h.ok.magic), if_pos h.ok.depth]

/-- A lookup in a tree of depth 1 is one in the chosen leaf. -/
theorem RootOk.lookup (h : RootOk fs ino.iBlock) {i : Nat} {leaf : Nat → UInt8}
    (hchoose : chooseIdx ino.iBlock (extentHeader ino.iBlock).ehEntries lblock = some i)
    (hleaf : fs.readBlock (extentIdx ino.iBlock i).eiLeafLo = some leaf) :
    fs.extentFindPhysical ino lblock = findExtent leaf (extentHeader leaf).ehEntries lblock := by
  have hi := chooseIdx_lt hchoose
  obtain ⟨leaf', hleaf', hok⟩ := h.leaves i hi
  rw [hleaf] at hleaf'
  cases hleaf'
  unfold Ext4.extentFindPhysical
  dsimp only
  rw [if_neg (not_not.mpr h.ok.magic), h.ok.depth, if_neg Nat.one_ne_zero, if_pos rfl, hchoose]
  dsimp only
  rw [if_neg (not_not.mpr (h.high i hi)), hleaf]
  dsimp only
  rw [if_neg]
  rintro (hmagic | hdepth)
  · exact hmagic hok.ok.magic
  · exact hdepth hok.ok.depth

theorem lookup_hole (h : fs.TreeOk ino)
    (hnone : ∀ ex, fs.TreeExtent ino ex → ¬ ex.Covers lblock) :
    fs.extentFindPhysical ino lblock = none := by
  cases h with
  | inl hroot =>
      rw [hroot.lookup]
      exact findExtent_hole fun i hi => hnone _ (.root hroot.ok.depth hi)
  | inr hroot =>
      cases hchoose : chooseIdx ino.iBlock (extentHeader ino.iBlock).ehEntries lblock with
      | none =>
          unfold Ext4.extentFindPhysical
          dsimp only
          rw [if_neg (not_not.mpr hroot.ok.magic), hroot.ok.depth, if_neg Nat.one_ne_zero,
            if_pos rfl, hchoose]
      | some i =>
          obtain ⟨leaf, hleaf, -⟩ := hroot.leaves i (chooseIdx_lt hchoose)
          rw [hroot.lookup hchoose hleaf]
          exact findExtent_hole fun j hj =>
            hnone _ (.leaf hroot.ok.depth (chooseIdx_lt hchoose) hleaf hj)

/-- The lookup of a block that an extent covers depends on that extent alone. -/
theorem lookup_covered (h : fs.TreeOk ino) (hex : fs.TreeExtent ino ex)
    (hcovers : ex.Covers lblock) :
    fs.extentFindPhysical ino lblock =
      if ex.takes lblock then some (u32 (ex.eeStartLo + (lblock - ex.eeBlock))) else none := by
  cases h with
  | inl hroot =>
      cases hex with
      | root hdepth hi =>
          rw [hroot.lookup]
          exact hroot.findExtent_covered hi hcovers
      | leaf hdepth hi hleaf hj =>
          rw [hroot.ok.depth] at hdepth
          cases hdepth
  | inr hroot =>
      cases hex with
      | root hdepth hi =>
          rw [hroot.ok.depth] at hdepth
          cases hdepth
      | leaf hdepth hi hleaf hj =>
          obtain ⟨leaf', hleaf', hok⟩ := hroot.leaves _ hi
          rw [hleaf] at hleaf'
          cases hleaf'
          rw [hroot.lookup (hroot.chooseIdx_covered hi hleaf hj hcovers) hleaf]
          exact hok.findExtent_covered hj hcovers

/-- Only one extent of a tree covers a block. -/
theorem treeExtent_unique (h : fs.TreeOk ino) {ex ex' : Ext4Extent} (hex : fs.TreeExtent ino ex)
    (hex' : fs.TreeExtent ino ex') (hcovers : ex.Covers lblock) (hcovers' : ex'.Covers lblock) :
    ex = ex' := by
  cases h with
  | inl hroot =>
      cases hex with
      | root hdepth hi =>
          cases hex' with
          | root hdepth' hi' => rw [hroot.covers_unique hi hi' hcovers hcovers']
          | leaf hdepth' _ _ _ =>
              rw [hdepth] at hdepth'
              cases hdepth'
      | leaf hdepth _ _ _ =>
          rw [hroot.ok.depth] at hdepth
          cases hdepth
  | inr hroot =>
      cases hex with
      | root hdepth _ =>
          rw [hroot.ok.depth] at hdepth
          cases hdepth
      | @leaf i leaf j hdepth hi hleaf hj =>
          cases hex' with
          | root hdepth' _ =>
              rw [hdepth] at hdepth'
              cases hdepth'
          | @leaf i' leaf' j' hdepth' hi' hleaf' hj' =>
              have hchoose := hroot.chooseIdx_covered hi hleaf hj hcovers
              rw [hroot.chooseIdx_covered hi' hleaf' hj' hcovers'] at hchoose
              cases hchoose
              rw [hleaf] at hleaf'
              cases hleaf'
              obtain ⟨leaf'', hleaf'', hok⟩ := hroot.leaves i hi
              rw [hleaf] at hleaf''
              cases hleaf''
              rw [hok.covers_unique hj hj' hcovers hcovers']

theorem treeExtent_inRange (hex : fs.TreeExtent ino ex) : ex.InRange := by
  cases hex with
  | root hdepth hi => exact extent_inRange ..
  | leaf hdepth hi hleaf hj => exact extent_inRange ..

/-- No extent that covers the block is found: it has 32768 blocks or its end wraps. -/
def Ext4.Missed (fs : Ext4) (ino : Ext4Inode) (lblock : Nat) : Prop :=
  ∀ ex, fs.TreeExtent ino ex → ex.Covers lblock →
    ex.eeLen = extInitMaxLen ∨ 2 ^ 32 ≤ ex.eeBlock + ex.blocks

theorem lookup_none_iff (h : fs.TreeOk ino) :
    fs.extentFindPhysical ino lblock = none ↔ fs.Missed ino lblock := by
  constructor
  · intro hnone ex hex hcovers
    have htakes := (treeExtent_inRange hex).takes_iff_of_covers hcovers
    rw [lookup_covered h hex hcovers] at hnone
    split_ifs at hnone with htaken
    rw [htakes, not_and_or, not_not, Nat.not_lt] at htaken
    exact htaken
  · intro hmissed
    by_cases hcovered : ∃ ex, fs.TreeExtent ino ex ∧ ex.Covers lblock
    · obtain ⟨ex, hex, hcovers⟩ := hcovered
      have htakes := (treeExtent_inRange hex).takes_iff_of_covers hcovers
      rw [lookup_covered h hex hcovers, if_neg]
      intro htaken
      obtain ⟨hlen, hend⟩ := htakes.mp htaken
      cases hmissed ex hex hcovers with
      | inl heq => exact hlen heq
      | inr hwraps => exact Nat.not_le.mpr hend hwraps
    · exact lookup_hole h fun ex hex hcovers => hcovered ⟨ex, hex, hcovers⟩

/-! ## When the lookup is exact -/

/-- The extent that covers the block, if there is one, is not read wrongly: when it is
initialised it does not have 32768 blocks, and neither its end nor the block found wraps;
when it is unwritten its end wraps. -/
def Ext4.LookupFits (fs : Ext4) (ino : Ext4Inode) (lblock : Nat) : Prop :=
  ∀ ex, fs.TreeExtent ino ex → ex.Covers lblock →
    (ex.Initialised → ex.eeLen ≠ extInitMaxLen ∧ ex.eeBlock + ex.eeLen < 2 ^ 32 ∧
      ex.eeStartLo + (lblock - ex.eeBlock) < 2 ^ 32) ∧
    (¬ ex.Initialised → 2 ^ 32 ≤ ex.eeBlock + ex.blocks)

theorem lookupExact_hole (h : fs.TreeOk ino)
    (hnone : ∀ ex, fs.TreeExtent ino ex → ¬ ex.Covers lblock) : fs.LookupExact ino lblock := by
  intro p
  rw [lookup_hole h hnone]
  apply iff_of_false nofun
  rintro ⟨ex, hex, -, hcovers, -⟩
  exact hnone ex hex hcovers

/-- For a block that an initialised extent covers. -/
theorem lookupExact_initialised (h : fs.TreeOk ino) (hex : fs.TreeExtent ino ex)
    (hcovers : ex.Covers lblock) (hinit : ex.Initialised) :
    fs.LookupExact ino lblock ↔ ex.eeLen ≠ extInitMaxLen ∧ ex.eeBlock + ex.eeLen < 2 ^ 32 ∧
      ex.eeStartLo + (lblock - ex.eeBlock) < 2 ^ 32 := by
  have hblocks : ex.blocks = ex.eeLen := if_pos hinit
  have htakes := (treeExtent_inRange hex).takes_iff_of_covers hcovers
  rw [hblocks] at htakes
  have hlookup := lookup_covered h hex hcovers
  constructor
  · intro hexact
    have hfound := (hexact _).mpr ⟨ex, hex, hinit, hcovers, rfl⟩
    rw [hlookup] at hfound
    split_ifs at hfound with htaken
    obtain ⟨hlen, hend⟩ := htakes.mp htaken
    refine ⟨hlen, hend, ?_⟩
    rw [← Option.some.inj hfound]
    exact u32_lt _
  · rintro ⟨hlen, hend, hstart⟩ p
    rw [hlookup, if_pos (htakes.mpr ⟨hlen, hend⟩), u32_of_lt hstart, Option.some_inj]
    constructor
    · intro hp
      exact ⟨ex, hex, hinit, hcovers, hp.symm⟩
    · rintro ⟨ex', hex', -, hcovers', rfl⟩
      rw [treeExtent_unique h hex hex' hcovers hcovers']

/-- For a block that an unwritten extent covers. -/
theorem lookupExact_unwritten (h : fs.TreeOk ino) (hex : fs.TreeExtent ino ex)
    (hcovers : ex.Covers lblock) (hunwritten : ¬ ex.Initialised) :
    fs.LookupExact ino lblock ↔ 2 ^ 32 ≤ ex.eeBlock + ex.blocks := by
  have htakes := (treeExtent_inRange hex).takes_iff_of_covers hcovers
  have hlen : ex.eeLen ≠ extInitMaxLen := fun heq => hunwritten heq.le
  have hlookup := lookup_covered h hex hcovers
  have hnone : ∀ p, ¬ ∃ ex, fs.TreeExtent ino ex ∧ ex.Initialised ∧ ex.Covers lblock ∧
      p = ex.eeStartLo + (lblock - ex.eeBlock) := by
    rintro p ⟨ex', hex', hinit', hcovers', -⟩
    rw [← treeExtent_unique h hex hex' hcovers hcovers'] at hinit'
    exact hunwritten hinit'
  constructor
  · intro hexact
    by_contra hend
    rw [if_pos (htakes.mpr ⟨hlen, Nat.lt_of_not_le hend⟩)] at hlookup
    exact hnone _ ((hexact _).mp hlookup)
  · intro hend p
    rw [hlookup, if_neg fun htaken => Nat.not_lt.mpr hend (htakes.mp htaken).2]
    exact iff_of_false nofun (hnone p)

/-- The lookup follows the tree exactly at the blocks whose extent is not read wrongly. -/
theorem extentFindPhysical_exact_iff (h : fs.TreeOk ino) (lblock : Nat) :
    fs.LookupExact ino lblock ↔ fs.LookupFits ino lblock := by
  by_cases hcovered : ∃ ex, fs.TreeExtent ino ex ∧ ex.Covers lblock
  · obtain ⟨ex, hex, hcovers⟩ := hcovered
    have hfits : fs.LookupFits ino lblock ↔
        (ex.Initialised → ex.eeLen ≠ extInitMaxLen ∧ ex.eeBlock + ex.eeLen < 2 ^ 32 ∧
          ex.eeStartLo + (lblock - ex.eeBlock) < 2 ^ 32) ∧
        (¬ ex.Initialised → 2 ^ 32 ≤ ex.eeBlock + ex.blocks) := by
      constructor
      · intro hall
        exact hall ex hex hcovers
      · intro hone ex' hex' hcovers'
        rw [← treeExtent_unique h hex hex' hcovers hcovers']
        exact hone
    rw [hfits]
    by_cases hinit : ex.Initialised
    · rw [lookupExact_initialised h hex hcovers hinit]
      exact ⟨fun hgood => ⟨fun _ => hgood, fun hno => absurd hinit hno⟩, fun hboth => hboth.1 hinit⟩
    · rw [lookupExact_unwritten h hex hcovers hinit]
      exact ⟨fun hgood => ⟨fun hyes => absurd hyes hinit, fun _ => hgood⟩, fun hboth => hboth.2 hinit⟩
  · apply iff_of_true
    · exact lookupExact_hole h fun ex hex hcovers => hcovered ⟨ex, hex, hcovers⟩
    · intro ex hex hcovers
      exact absurd ⟨ex, hex, hcovers⟩ hcovered

/-- A root with one extent, of `len` blocks from block 100 on. -/
def oneExtent (len : UInt16) : Nat → UInt8 := fun n =>
  [0x0a, 0xf3, 1, 0, 4, 0, 0, 0, 0, 0, 0, 0, 0, 0, 0, 0, len.toUInt8, (len >>> 8).toUInt8, 0, 0,
    100].getD n 0

/-- A disk of zeros. -/
def zeroDisk : Ext4 := ⟨1024, smallBlock_known, fun _ _ => 0, fun _ => false⟩

theorem oneExtent_header (len : UInt16) :
    extentHeader (oneExtent len) = ⟨ext4ExtMagic, 1, 4, 0, 0⟩ := by
  simp [extentHeader, le32, le16, oneExtent]

theorem oneExtent_ok (len : UInt16) : LeafOk (oneExtent len) 60 := by
  have hheader := oneExtent_header len
  constructor
  · constructor <;> rw [hheader]
    · exact (by decide : 1 ≤ 4)
    · exact le_refl 60
  · intro i j hij hj
    rw [hheader, Nat.lt_one_iff] at hj
    omega
  · intro i hi
    rw [hheader, Nat.lt_one_iff] at hi
    rw [hi]
    simp [extent, le16, oneExtent]

/-- The only extent of such a tree. -/
theorem oneExtent_only {len : UInt16} {size high : Nat}
    (hex : fs.TreeExtent ⟨size, oneExtent len, high⟩ ex) : ex = extent (oneExtent len) 0 := by
  have hheader := oneExtent_header len
  cases hex with
  | root hdepth hi =>
      dsimp only at hi
      rw [hheader, Nat.lt_one_iff] at hi
      rw [hi]
  | leaf hdepth hi hleaf hj =>
      dsimp only at hdepth
      rw [hheader] at hdepth
      cases hdepth

theorem extentFindPhysical_exact_five : zeroDisk.LookupExact ⟨5120, oneExtent 5, 0⟩ 4 := by
  refine (extentFindPhysical_exact_iff (Or.inl (oneExtent_ok 5)) 4).mpr ?_
  intro ex hex hcovers
  rw [oneExtent_only hex]
  exact ⟨fun _ => by decide, fun hno => absurd (by decide) hno⟩

/-- An extent of 32768 blocks is taken for an empty one. -/
theorem extentFindPhysical_misses : ¬ ∀ (fs : Ext4) (ino : Ext4Inode) (lblock : Nat),
    fs.TreeOk ino → lblock < 2 ^ 32 → fs.LookupExact ino lblock := by
  intro hall
  have hexact := hall zeroDisk ⟨4096, oneExtent 32768, 0⟩ 0 (Or.inl (oneExtent_ok 32768)) (by decide)
  have hfound := (hexact 100).mpr ⟨extent (oneExtent 32768) 0, .root rfl Nat.one_pos, by decide,
    by decide, by decide⟩
  exact absurd hfound (by decide)

end Sugimotos.Fs
