/-
# What a process may have mapped

Each virtual page of a process belongs to a region: the mmap window, the stack,
the writable user sections, or the rest.  `LeafFits` says which translations are
allowed there, given the VMAs of the process.
-/

import Sugimotos.Mm.KernelRoot
import Sugimotos.Proc.ProcessVm

namespace Sugimotos.Proc

open Sugimotos.Mm

variable (L : Layout)

/-! ## Regions -/

/-- A page of the mmap window. -/
def windowPage (vpn : Nat) : Prop := inBlock 0x20000 0x1f000 vpn

/-- A page of the stack. -/
def stackPage (vpn : Nat) : Prop := inBlock stackVpn 2 vpn

/-- A page of `.user.data` or `.user.bss`. -/
def dataPage (vpn : Nat) : Prop :=
  (L.userDataStart ≤ vpn * 4096 ∧ vpn * 4096 < L.userDataEnd) ∨
    (L.userBssStart ≤ vpn * 4096 ∧ vpn * 4096 < L.userBssEnd)

instance (vpn : Nat) : Decidable (windowPage vpn) := inferInstanceAs (Decidable (inBlock _ _ _))
instance (vpn : Nat) : Decidable (stackPage vpn) := inferInstanceAs (Decidable (inBlock _ _ _))
instance (vpn : Nat) : Decidable (dataPage L vpn) := inferInstanceAs (Decidable (_ ∨ _))

/-- The translations of a fresh process outside its stack. -/
def fixedLeaf (vpn : Nat) : Option Leaf := ((userSections L).foldl Section.onto kernelLeaf) vpn

/-- A used VMA that holds a virtual page. -/
def Vma.Covers (v : Vma) (vpn : Nat) : Prop :=
  v.used = true ∧ v.start ≤ vpn * 4096 ∧ vpn * 4096 < v.stop

instance (v : Vma) (vpn : Nat) : Decidable (v.Covers vpn) := inferInstanceAs (Decidable (_ ∧ _))

/-- The translation of a page of the mmap window: a managed page, in a VMA, with
its protection or the one it is shared under.  A page that could never be
written is still zero. -/
structure WindowLeaf (vmas : Vmas) (mem : Memory) (vpn : Nat) (leaf : Leaf) : Prop where
  managed : L.Managed leaf.ppn
  vma : ∃ i, (vmas i).Covers vpn ∧
    (leaf.perm = 2 * (vmas i).prot + 16 ∨ leaf.perm = 2 * cowProt (vmas i).prot + 16) ∧
    ((vmas i).prot &&& vmaProtW = 0 → mem leaf.ppn = zeroPage)

/-- The translation of a page of the writable sections: the section itself, or a
private copy that is always writable. -/
def DataLeaf (vpn : Nat) (leaf : Leaf) : Prop :=
  (leaf.ppn = vpn ∧ (leaf.perm = 22 ∨ leaf.perm = 18)) ∨ (L.Managed leaf.ppn ∧ leaf.perm = 22)

/-- What may be mapped at a virtual page. -/
def LeafFits (vmas : Vmas) (mem : Memory) (vpn : Nat) (leaf : Leaf) : Prop :=
  if windowPage vpn then WindowLeaf L vmas mem vpn leaf
  else if stackPage vpn then L.Managed leaf.ppn ∧ (leaf.perm = 22 ∨ leaf.perm = 18)
  else if dataPage L vpn then DataLeaf L vpn leaf
  else fixedLeaf L vpn = some leaf

/-- Outside the mmap window nothing is missing. -/
def LeafThere (vpn : Nat) (leaf : Option Leaf) : Prop :=
  ¬ windowPage vpn → (stackPage vpn ∨ (fixedLeaf L vpn).isSome) → leaf.isSome

/-! ## VMAs -/

/-- The VMAs every process has. -/
def standardVmas : List Vma :=
  [⟨true, L.userTextStart, L.userTextEnd, vmaProtR ||| vmaProtX⟩,
   ⟨true, L.userRodataStart, L.userRodataEnd, vmaProtR⟩,
   ⟨true, L.userDataStart, L.userDataEnd, vmaProtR ||| vmaProtW⟩,
   ⟨true, L.userBssStart, L.userBssEnd, vmaProtR ||| vmaProtW⟩,
   ⟨true, 0x3fffe000, 0x40000000, vmaProtR ||| vmaProtW⟩]

/-- The representation invariant of the VMA array. -/
structure VmaInv (vmas : Vmas) : Prop where
  aligned : ∀ {i}, (vmas i).used = true →
    (vmas i).start % 4096 = 0 ∧ (vmas i).stop % 4096 = 0 ∧ (vmas i).start < (vmas i).stop
  disjoint : ∀ {i j}, i ≠ j → (vmas i).used = true → (vmas j).used = true →
    (vmas i).stop ≤ (vmas j).start ∨ (vmas j).stop ≤ (vmas i).start
  place : ∀ {i}, (vmas i).used = true →
    ((vmas i).inWindow = true ∧ 0 < (vmas i).prot ∧ (vmas i).prot < 8) ∨ vmas i ∈ standardVmas L
  standard : ∀ {v}, v ∈ standardVmas L → v.start < v.stop → ∃ i, vmas i = v

/-- Everything about the address spaces of all processes that holds between and
during the kernel's operations. -/
structure MmInv (roots : Space → Option Nat) (held : Nat → Nat) (vmas : Fin procMax → Vmas)
    (kr : Nat) (s : Phys) : Prop where
  vm : VmInv L roots held s.alloc s.mem
  kernel : roots none = some kr
  kernelWalk : ∀ {vpn}, vpn < 1048576 → walk s.mem kr vpn = kernelLeaf vpn
  vma : ∀ {i r}, roots (some i) = some r → VmaInv L (vmas i)
  fits : ∀ {i r vpn leaf}, roots (some i) = some r → vpn < 1048576 →
    walk s.mem r vpn = some leaf → LeafFits L (vmas i) s.mem vpn leaf

/-- The address space with root `r` has all its fixed parts. -/
def Complete (mem : Memory) (r : Nat) : Prop :=
  ∀ {vpn}, vpn < 1048576 → LeafThere L vpn (walk mem r vpn)

variable {L}

/-! ## The fixed translations -/

/-- The order of the sections, as inequalities between addresses. -/
theorem Layout.order : 0x80200000 ≤ L.userTextStart ∧ L.userTextStart ≤ L.userTextEnd ∧
    L.userTextEnd ≤ L.rodataStart ∧ L.rodataStart ≤ L.userRodataStart ∧
    L.userRodataStart ≤ L.userRodataEnd ∧ L.userRodataEnd ≤ L.userDataStart ∧
    L.userDataStart ≤ L.userDataEnd ∧ L.userDataEnd ≤ L.userBssStart ∧
    L.userBssStart ≤ L.userBssEnd ∧ L.userBssEnd ≤ L.freeRam ∧
    L.freeRam + 0x2000000 ≤ 0x84000000 :=
  ⟨L.text_base, L.userText_le, L.userTextEnd_le_rodata, L.rodata_le_userRodata, L.userRodata_le,
    L.userRodataEnd_le_data, L.userData_le, L.userDataEnd_le_bss, L.userBss_le,
    L.userBssEnd_le_freeRam, L.freeRam_mapped⟩

theorem inBlock_pages {start stop vpn : Nat} (hstart : start % 4096 = 0) (hstop : stop % 4096 = 0)
    (hle : start ≤ stop) :
    inBlock (start / 4096) ((stop - start) / 4096) vpn ↔ start ≤ vpn * 4096 ∧ vpn * 4096 < stop := by
  unfold inBlock
  omega

/-- The section a page lies in decides its fixed translation. -/
theorem fixedLeaf_eq (vpn : Nat) : fixedLeaf L vpn =
    if dataPage L vpn then some ⟨vpn, 22⟩
    else if L.rodataStart ≤ vpn * 4096 ∧ vpn * 4096 < L.userRodataEnd then some ⟨vpn, 18⟩
    else if L.userTextStart ≤ vpn * 4096 ∧ vpn * 4096 < L.userTextEnd then some ⟨vpn, 26⟩
    else kernelLeaf vpn := by
  obtain ⟨-, h₁, h₂, h₃, h₄, h₅, h₆, h₇, h₈, -, -⟩ := Layout.order (L := L)
  simp only [fixedLeaf, userSections, List.foldl_cons, List.foldl_nil, Section.onto, overlay,
    inBlock_pages L.rodataStart_aligned L.userRodataEnd_aligned (by omega),
    inBlock_pages L.userTextStart_aligned L.userTextEnd_aligned (by omega),
    inBlock_pages L.userRodataStart_aligned L.userRodataEnd_aligned (by omega),
    inBlock_pages L.userDataStart_aligned L.userDataEnd_aligned (by omega),
    inBlock_pages L.userBssStart_aligned L.userBssEnd_aligned (by omega)]
  have hpage : ∀ {start : Nat}, start % 4096 = 0 → start ≤ vpn * 4096 →
      start / 4096 + (vpn - start / 4096) = vpn := by omega
  by_cases hbss : L.userBssStart ≤ vpn * 4096 ∧ vpn * 4096 < L.userBssEnd
  · have hd : dataPage L vpn := .inr hbss
    rw [if_pos hbss, if_pos hd, hpage L.userBssStart_aligned hbss.1]
    rfl
  rw [if_neg hbss]
  by_cases hdata : L.userDataStart ≤ vpn * 4096 ∧ vpn * 4096 < L.userDataEnd
  · have hd : dataPage L vpn := .inl hdata
    rw [if_pos hdata, if_pos hd, hpage L.userDataStart_aligned hdata.1]
    rfl
  have hd : ¬ dataPage L vpn := not_or.mpr ⟨hdata, hbss⟩
  rw [if_neg hdata, if_neg hd]
  by_cases hurodata : L.userRodataStart ≤ vpn * 4096 ∧ vpn * 4096 < L.userRodataEnd
  · rw [if_pos hurodata, if_pos ⟨by omega, hurodata.2⟩, hpage L.userRodataStart_aligned hurodata.1]
    rfl
  rw [if_neg hurodata]
  by_cases htext : L.userTextStart ≤ vpn * 4096 ∧ vpn * 4096 < L.userTextEnd
  · rw [if_pos htext, if_neg (by omega), if_pos htext, hpage L.userTextStart_aligned htext.1]
    rfl
  rw [if_neg htext]
  by_cases hrodata : L.rodataStart ≤ vpn * 4096 ∧ vpn * 4096 < L.userRodataEnd
  · rw [if_pos hrodata, if_pos hrodata, hpage L.rodataStart_aligned hrodata.1]
    rfl
  · rw [if_neg hrodata, if_neg hrodata, if_neg htext]

theorem kernelLeaf_some {vpn : Nat} {leaf : Leaf} (h : kernelLeaf vpn = some leaf) :
    leaf.ppn = vpn ∧ (leaf.perm = 14 ∨ leaf.perm = 6) := by
  unfold kernelLeaf at h
  split at h
  · rw [← Option.some.inj h]
    exact ⟨rfl, .inl rfl⟩
  · split at h
    · rw [← Option.some.inj h]
      exact ⟨rfl, .inr rfl⟩
    · cases h

/-- A fixed translation maps a page to itself; for user mode only below managed
memory, and for writing only in the writable sections. -/
theorem fixedLeaf_some {vpn : Nat} {leaf : Leaf} (h : fixedLeaf L vpn = some leaf) :
    leaf.ppn = vpn ∧ (leaf.perm &&& pteU ≠ 0 → ¬ L.Managed vpn ∧
      (leaf.perm &&& pteW ≠ 0 → dataPage L vpn)) := by
  obtain ⟨-, h₁, h₂, h₃, h₄, h₅, h₆, h₇, h₈, h₉, -⟩ := Layout.order (L := L)
  have hfree := L.freePage_mul
  rw [fixedLeaf_eq] at h
  split at h
  · rename_i hdata
    rw [← Option.some.inj h]
    refine ⟨rfl, fun _ => ⟨?_, fun _ => hdata⟩⟩
    unfold dataPage at hdata
    unfold Layout.Managed
    omega
  split at h
  · rw [← Option.some.inj h]
    refine ⟨rfl, fun _ => ⟨?_, fun hW => absurd (show 18 &&& pteW = 0 by decide) hW⟩⟩
    unfold Layout.Managed
    omega
  split at h
  · rw [← Option.some.inj h]
    refine ⟨rfl, fun _ => ⟨?_, fun hW => absurd (show 26 &&& pteW = 0 by decide) hW⟩⟩
    unfold Layout.Managed
    omega
  · obtain ⟨hppn, hperm⟩ := kernelLeaf_some h
    refine ⟨hppn, fun hU => absurd ?_ hU⟩
    rcases hperm with hperm | hperm <;> rw [hperm] <;> decide

/-- Managed memory is mapped for the kernel at its physical address. -/
theorem fixedLeaf_managed {p : Nat} (hp : L.Managed p) : fixedLeaf L p = some ⟨p, 14⟩ := by
  obtain ⟨h₀, h₁, h₂, h₃, h₄, h₅, h₆, h₇, h₈, h₉, h₁₀⟩ := Layout.order (L := L)
  have hfree := L.freePage_mul
  have hram : inBlock 512 16 (p / 1024) := by
    unfold inBlock
    unfold Layout.Managed at hp
    omega
  unfold Layout.Managed at hp
  rw [fixedLeaf_eq, if_neg (by unfold dataPage; omega), if_neg (by omega), if_neg (by omega),
    kernelLeaf, if_pos hram]

/-- The sections and the kernel leave the low part of the address space, with the
mmap window and the stack, alone. -/
theorem fixedLeaf_low {vpn : Nat} (h : windowPage vpn ∨ stackPage vpn) : fixedLeaf L vpn = none := by
  obtain ⟨h₀, h₁, h₂, h₃, h₄, h₅, h₆, h₇, h₈, h₉, h₁₀⟩ := Layout.order (L := L)
  have hk : 128 ≤ vpn / 1024 ∧ vpn / 1024 < 256 := by
    unfold windowPage stackPage inBlock stackVpn at h
    omega
  rw [fixedLeaf_eq, if_neg (by unfold dataPage; omega), if_neg (by omega), if_neg (by omega),
    kernelLeaf, if_neg (by unfold inBlock; omega), if_neg (by unfold inBlock; omega)]

theorem dataPage_not_low {vpn : Nat} (h : dataPage L vpn) : ¬ windowPage vpn ∧ ¬ stackPage vpn := by
  obtain ⟨h₀, h₁, h₂, h₃, h₄, h₅, h₆, h₇, h₈, h₉, h₁₀⟩ := Layout.order (L := L)
  unfold dataPage at h
  unfold windowPage stackPage inBlock stackVpn
  omega

theorem managed_rest {p : Nat} (hp : L.Managed p) :
    ¬ windowPage p ∧ ¬ stackPage p ∧ ¬ dataPage L p := by
  obtain ⟨h₀, h₁, h₂, h₃, h₄, h₅, h₆, h₇, h₈, h₉, h₁₀⟩ := Layout.order (L := L)
  have hfree := L.freePage_mul
  unfold Layout.Managed at hp
  unfold windowPage stackPage dataPage inBlock stackVpn
  omega

/-! ## Allowed translations -/

section Fits

variable {vmas : Vmas} {mem : Memory} {vpn : Nat} {leaf : Leaf}

theorem leafFits_window (h : windowPage vpn) :
    LeafFits L vmas mem vpn leaf ↔ WindowLeaf L vmas mem vpn leaf := by
  rw [LeafFits, if_pos h]

theorem windowPage_not_stack (h : windowPage vpn) : ¬ stackPage vpn := by
  unfold windowPage inBlock at h
  unfold stackPage inBlock stackVpn
  omega

theorem leafFits_stack (h : stackPage vpn) :
    LeafFits L vmas mem vpn leaf ↔ L.Managed leaf.ppn ∧ (leaf.perm = 22 ∨ leaf.perm = 18) := by
  rw [LeafFits, if_neg fun hw => windowPage_not_stack hw h, if_pos h]

theorem leafFits_data (h : dataPage L vpn) :
    LeafFits L vmas mem vpn leaf ↔ DataLeaf L vpn leaf := by
  obtain ⟨hw, hs⟩ := dataPage_not_low h
  rw [LeafFits, if_neg hw, if_neg hs, if_pos h]

theorem leafFits_rest (hw : ¬ windowPage vpn) (hs : ¬ stackPage vpn) (hd : ¬ dataPage L vpn) :
    LeafFits L vmas mem vpn leaf ↔ fixedLeaf L vpn = some leaf := by
  rw [LeafFits, if_neg hw, if_neg hs, if_neg hd]

/-- A managed page is exposed to user mode only in the window, on the stack or as
a private copy of the writable sections. -/
theorem LeafFits.region (h : LeafFits L vmas mem vpn leaf) (hU : leaf.perm &&& pteU ≠ 0)
    (hm : L.Managed leaf.ppn) : windowPage vpn ∨ stackPage vpn ∨ dataPage L vpn := by
  by_contra hnone
  simp only [not_or] at hnone
  rw [leafFits_rest hnone.1 hnone.2.1 hnone.2.2] at h
  obtain ⟨hppn, huser⟩ := fixedLeaf_some h
  rw [hppn] at hm
  exact (huser hU).1 hm

/-- Only memory contents of the page itself matter. -/
theorem LeafFits.congr_mem {mem' : Memory} (h : LeafFits L vmas mem vpn leaf)
    (hmem : windowPage vpn → mem' leaf.ppn = mem leaf.ppn) : LeafFits L vmas mem' vpn leaf := by
  by_cases hw : windowPage vpn
  · rw [leafFits_window hw] at h ⊢
    obtain ⟨hm, i, hcov, hperm, hzero⟩ := h
    exact ⟨hm, i, hcov, hperm, fun hprot => by rw [hmem hw]; exact hzero hprot⟩
  · rw [LeafFits, if_neg hw] at h ⊢
    exact h

/-- Only the VMAs of the mmap window matter. -/
theorem LeafFits.congr_vmas {vmas' : Vmas} (h : LeafFits L vmas mem vpn leaf)
    (hvmas : windowPage vpn → WindowLeaf L vmas mem vpn leaf → WindowLeaf L vmas' mem vpn leaf) :
    LeafFits L vmas' mem vpn leaf := by
  by_cases hw : windowPage vpn
  · rw [leafFits_window hw] at h ⊢
    exact hvmas hw h
  · rw [LeafFits, if_neg hw] at h ⊢
    exact h

end Fits

end Sugimotos.Proc
