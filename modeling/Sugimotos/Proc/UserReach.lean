/-
# What user mode reaches

The VMAs are what a process asked for; the page table is what the hardware looks at.  An access
that the table lets through in user mode is one that a VMA allows, with one exception: the
kernel's own read-only data is mapped for reading in every process.
-/

import Sugimotos.Proc.CopyView

namespace Sugimotos.Proc

open Sugimotos.Math Sugimotos.Mm

variable {L : Layout} {k : Kernel} {i : Fin procMax}

/-- A page of `.rodata` before `.user.rodata`. -/
def kernelRodata (L : Layout) (a : Nat) : Prop := L.rodataStart ≤ a ∧ a < L.userRodataStart

/-- The accesses of an instruction. -/
def AccessKind (access : Nat) : Prop := access = vmaProtR ∨ access = vmaProtW ∨ access = vmaProtX

/-- A translation made for a VMA, perhaps shared, allows no more than the VMA. -/
theorem prot_of_bits {prot perm access : Nat} (hlt : prot < 8) (hkind : AccessKind access)
    (hperm : perm = 2 * prot + 16 ∨ perm = 2 * cowProt prot + 16)
    (hbits : perm &&& protToQueryBits access = protToQueryBits access) :
    prot &&& access = access := by
  rcases hkind with rfl | rfl | rfl <;> interval_cases prot <;>
    rcases hperm with rfl | rfl <;> revert hbits <;> decide

/-- A user translation outside the writable sections is of the text, or of read-only data. -/
theorem fixedLeaf_user {vpn : Nat} {leaf : Leaf} (h : fixedLeaf L vpn = some leaf)
    (hd : ¬ dataPage L vpn) (hU : leaf.perm &&& pteU ≠ 0) :
    (leaf.perm = 18 ∧ L.rodataStart ≤ vpn * 4096 ∧ vpn * 4096 < L.userRodataEnd) ∨
      (leaf.perm = 26 ∧ L.userTextStart ≤ vpn * 4096 ∧ vpn * 4096 < L.userTextEnd) := by
  rw [fixedLeaf_eq, if_neg hd] at h
  split at h
  · rename_i hin
    rw [← Option.some.inj h]
    exact .inl ⟨rfl, hin⟩
  split at h
  · rename_i hin
    rw [← Option.some.inj h]
    exact .inr ⟨rfl, hin⟩
  · exfalso
    obtain ⟨-, hperm⟩ := kernelLeaf_some h
    rcases hperm with hperm | hperm <;> rw [hperm] at hU <;> exact hU rfl

/-- A VMA that holds the page and has every permission of its translation. -/
def Backed (vmas : Vmas) (vpn : Nat) (leaf : Leaf) : Prop :=
  ∃ j, (vmas j).Covers vpn ∧
    (leaf.perm = 2 * (vmas j).prot + 16 ∨ leaf.perm = 2 * cowProt (vmas j).prot + 16)

/-- Every process has the VMAs of its sections and of its stack. -/
theorem VmaInv.backed_standard {vmas : Vmas} (h : VmaInv L vmas) {v : Vma} {vpn : Nat} {leaf : Leaf}
    (hv : v ∈ standardVmas L) (hused : v.used = true)
    (hin : v.start ≤ vpn * 4096 ∧ vpn * 4096 < v.stop)
    (hperm : leaf.perm = 2 * v.prot + 16 ∨ leaf.perm = 2 * cowProt v.prot + 16) :
    Backed vmas vpn leaf := by
  obtain ⟨j, hj⟩ := h.standard hv (hin.1.trans_lt hin.2)
  exact ⟨j, hj ▸ ⟨hused, hin⟩, hj ▸ hperm⟩

/-- The VMAs that allow reading and writing. -/
theorem VmaInv.backed_writable {vmas : Vmas} (h : VmaInv L vmas) {start stop vpn : Nat} {leaf : Leaf}
    (hv : ⟨true, start, stop, vmaProtR ||| vmaProtW⟩ ∈ standardVmas L)
    (hin : start ≤ vpn * 4096 ∧ vpn * 4096 < stop) (hperm : leaf.perm = 22 ∨ leaf.perm = 18) :
    Backed vmas vpn leaf := by
  have hfull : 2 * (vmaProtR ||| vmaProtW) + 16 = 22 := by decide
  have hcow : 2 * cowProt (vmaProtR ||| vmaProtW) + 16 = 18 := by decide
  refine h.backed_standard hv rfl hin ?_
  rw [hfull, hcow]
  exact hperm

/-- A translation for user mode is backed by a VMA, or shows the kernel's read-only data. -/
theorem KernelInv.user_leaf (h : KernelInv L k) (huser : (k.procs i).isUser = true) {vpn : Nat}
    {leaf : Leaf} (hvpn : vpn < 1048576)
    (hwalk : walk k.phys.mem (rootPage (k.procs i).satp) vpn = some leaf)
    (hU : leaf.perm &&& pteU ≠ 0) :
    Backed (k.procs i).vmas vpn leaf ∨ leaf.perm = 18 ∧ kernelRodata L (vpn * 4096) := by
  have hvma := h.vma huser
  have hfits := h.mm.fits (tableRoots_user huser) hvpn hwalk
  by_cases hw : windowPage vpn
  · rw [leafFits_window hw] at hfits
    obtain ⟨j, hcov, hperm, -⟩ := hfits.vma
    exact .inl ⟨j, hcov, hperm⟩
  by_cases hs : stackPage vpn
  · rw [leafFits_stack hs] at hfits
    have hin : 0x3fffe000 ≤ vpn * 4096 ∧ vpn * 4096 < 0x40000000 := by
      unfold stackPage inBlock stackVpn at hs
      omega
    exact .inl (hvma.backed_writable (by simp [standardVmas]) hin hfits.2)
  by_cases hd : dataPage L vpn
  · rw [leafFits_data hd] at hfits
    have hperm : leaf.perm = 22 ∨ leaf.perm = 18 := by
      rcases hfits with ⟨-, hperm⟩ | ⟨-, hperm⟩
      · exact hperm
      · exact .inl hperm
    rcases hd with hin | hin
    · exact .inl (hvma.backed_writable (by simp [standardVmas]) hin hperm)
    · exact .inl (hvma.backed_writable (by simp [standardVmas]) hin hperm)
  · rw [leafFits_rest hw hs hd] at hfits
    rcases fixedLeaf_user hfits hd hU with ⟨hperm, hlo, hhi⟩ | ⟨hperm, hin⟩
    · by_cases hkernel : vpn * 4096 < L.userRodataStart
      · exact .inr ⟨hperm, hlo, hkernel⟩
      · exact .inl (hvma.backed_standard
          (v := ⟨true, L.userRodataStart, L.userRodataEnd, vmaProtR⟩) (by simp [standardVmas]) rfl
          ⟨Nat.le_of_not_lt hkernel, hhi⟩ (.inl hperm))
    · exact .inl (hvma.backed_standard
        (v := ⟨true, L.userTextStart, L.userTextEnd, vmaProtR ||| vmaProtX⟩)
        (by simp [standardVmas]) rfl hin (.inl hperm))

/-- A user-mode access that the page table lets through is one that a VMA allows, or it reads
the kernel's read-only data. -/
theorem KernelInv.user_access (h : KernelInv L k) (huser : (k.procs i).isUser = true)
    {va access pa : Nat} (hva : va < 4294967296) (hkind : AccessKind access)
    (hpa : userTranslate (k.procs i).satp va access k.phys = some pa) :
    (∃ prot, protMap (k.procs i).vmas va = some prot ∧ prot &&& access = access) ∨
      access = vmaProtR ∧ kernelRodata L va := by
  have hvma := h.vma huser
  obtain ⟨leaf, hwalk, hU, hbits, -⟩ := userTranslate_eq_some.mp hpa
  rcases h.user_leaf huser (by omega) (walk_of_hwWalk hwalk) hU with ⟨j, hcov, hperm⟩ | ⟨hperm, hin⟩
  · have hlt := (hvma.region hcov).prot_lt.2
    exact .inl ⟨_, hvma.protMap_eq_some.mpr ⟨j, hcov, rfl⟩, prot_of_bits hlt hkind hperm hbits⟩
  · right
    rw [hperm] at hbits
    constructor
    · rcases hkind with rfl | rfl | rfl
      · rfl
      · exact absurd hbits (by decide)
      · exact absurd hbits (by decide)
    · have hlo := L.rodataStart_aligned
      have hhi := L.userRodataStart_aligned
      unfold kernelRodata at hin ⊢
      omega

/-- The kernel's read-only data can be read in every user process. -/
theorem KernelInv.rodata_read (h : KernelInv L k) (huser : (k.procs i).isUser = true) {va : Nat}
    (hin : kernelRodata L va) :
    userTranslate (k.procs i).satp va vmaProtR k.phys = some va := by
  obtain ⟨h₀, h₁, h₂, h₃, h₄, h₅, h₆, h₇, h₈, h₉, h₁₀⟩ := Layout.order (L := L)
  have hlo := L.rodataStart_aligned
  have hhi := L.userRodataStart_aligned
  unfold kernelRodata at hin
  have hw : ¬ windowPage (va / 4096) := by
    unfold windowPage inBlock
    omega
  have hs : ¬ stackPage (va / 4096) := by
    unfold stackPage inBlock stackVpn
    omega
  have hd : ¬ dataPage L (va / 4096) := by
    unfold dataPage
    omega
  have hfixed : fixedLeaf L (va / 4096) = some ⟨va / 4096, 18⟩ := by
    rw [fixedLeaf_eq, if_neg hd, if_pos (by omega)]
  have hvpn : va / 4096 < 1048576 := by omega
  have hroot : (k.procs i).root = some (rootPage (k.procs i).satp) := by
    unfold Process.root
    rw [if_pos huser]
  have hthere := h.complete hroot hvpn hw (.inr (by rw [hfixed]; rfl))
  obtain ⟨leaf, hwalk⟩ := Option.isSome_iff_exists.mp hthere
  have hfits := h.mm.fits (tableRoots_user huser) hvpn hwalk
  rw [leafFits_rest hw hs hd, hfixed] at hfits
  obtain rfl := Option.some.inj hfits
  have hused : Leaf.reserved ⟨va / 4096, 18⟩ = false :=
    decide_eq_false fun hbad => hbad.1 (show 18 &&& pteW = 0 by decide)
  have hhw : hwWalk k.phys.mem (rootPage (k.procs i).satp) (va / 4096) = some ⟨va / 4096, 18⟩ := by
    unfold hwWalk
    rw [hwalk, Option.filter_some, hused]
    rfl
  exact userTranslate_eq_some.mpr ⟨_, hhw, show 18 &&& pteU ≠ 0 by decide,
    show 18 &&& protToQueryBits vmaProtR = protToQueryBits vmaProtR by decide,
    (Nat.div_add_mod' va 4096).symm⟩

/-- The byte that a load in user mode gets. -/
theorem KernelInv.load_view (h : KernelInv L k) (huser : (k.procs i).isUser = true)
    {va pa : Nat} (hva : va < 4294967296)
    (hpa : userTranslate (k.procs i).satp va vmaProtR k.phys = some pa) :
    k.view i va = some (k.phys.mem (pa / 4096) (pa % 4096)) ∨ kernelRodata L va := by
  obtain ⟨leaf, hwalk, -, -, rfl⟩ := userTranslate_eq_some.mp hpa
  rcases h.user_access huser hva (.inl rfl) hpa with hprot | ⟨-, hin⟩
  · left
    refine Kernel.view_eq_some.mpr ⟨hprot, ?_⟩
    unfold Kernel.byteAt
    rw [walk_of_hwWalk hwalk]
    dsimp only
    rw [show (leaf.ppn * 4096 + va % 4096) / 4096 = leaf.ppn by omega,
      show (leaf.ppn * 4096 + va % 4096) % 4096 = va % 4096 by omega]
  · exact .inr hin

end Sugimotos.Proc
