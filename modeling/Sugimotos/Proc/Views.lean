/-
# What a process reads in its memory

The byte a process finds at a user address, through its page table, and what the stores of
another process can do to it: nothing, unless both have the same page of `.user.data` or
`.user.bss` mapped to itself.
-/

import Sugimotos.Proc.KernelRun

namespace Sugimotos.Proc

open Sugimotos.Math Sugimotos.Mm

variable {L : Layout} {k k' : Kernel} {i j : Fin procMax}

/-- The byte the process in slot `i` reads at an address; a page that is not mapped reads as
zero. -/
def Kernel.userByte (k : Kernel) (i : Fin procMax) (va : Nat) : UInt8 :=
  match walk k.phys.mem (rootPage (k.procs i).satp) (va / 4096) with
  | none => 0
  | some leaf => k.phys.mem leaf.ppn (va % 4096)

theorem userByte_of_walk {va : Nat} {leaf : Leaf}
    (hwalk : walk k.phys.mem (rootPage (k.procs i).satp) (va / 4096) = some leaf) :
    k.userByte i va = k.phys.mem leaf.ppn (va % 4096) := by
  unfold Kernel.userByte
  rw [hwalk]

theorem userByte_of_none {va : Nat}
    (hwalk : walk k.phys.mem (rootPage (k.procs i).satp) (va / 4096) = none) :
    k.userByte i va = 0 := by
  unfold Kernel.userByte
  rw [hwalk]

/-- Bytes are the same where translations and pages are. -/
theorem userByte_congr {va : Nat}
    (hwalk : walk k'.phys.mem (rootPage (k'.procs i).satp) (va / 4096) =
      walk k.phys.mem (rootPage (k.procs i).satp) (va / 4096))
    (hpage : ∀ leaf, walk k.phys.mem (rootPage (k.procs i).satp) (va / 4096) = some leaf →
      k'.phys.mem leaf.ppn = k.phys.mem leaf.ppn) : k'.userByte i va = k.userByte i va := by
  cases hleaf : walk k.phys.mem (rootPage (k.procs i).satp) (va / 4096) with
  | none =>
      rw [hleaf] at hwalk
      rw [userByte_of_none hwalk, userByte_of_none hleaf]
  | some leaf =>
      rw [hleaf] at hwalk
      rw [userByte_of_walk hwalk, userByte_of_walk hleaf, hpage leaf hleaf]

/-! ## Steps of another process -/

/-- What another process may notice of a call of process `i`: nothing. -/
structure Aside (i : Fin procMax) (k k' : Kernel) : Prop where
  satp : ∀ j, j ≠ i → (k'.procs j).satp = (k.procs j).satp
  loc : Local (tableRoots k.procs k.kernelPage) i k.phys k'.phys

theorem Aside.of_phys (hprocs : k'.procs = k.procs) (hphys : k'.phys = k.phys) : Aside i k k' := by
  constructor
  · intro j _
    rw [hprocs]
  · rw [hphys]
    exact Local.refl _

/-- The record of another process changes at most in its state. -/
theorem procExit_satp {status : Int} (hcur : k.currentProc = some i) (hj : j ≠ i) :
    ((procExit status k).procs j).satp = (k.procs j).satp := by
  rw [procExit_procs status hcur]
  rcases exitTable_other status hj with heq | ⟨-, heq⟩ <;> rw [heq]

theorem Aside.exit {k₁ : Kernel} (h : Aside i k k₁) (hcur : k₁.currentProc = some i)
    (status : Int) : Aside i k (procExit status k₁) := by
  constructor
  · intro j hj
    rw [procExit_satp hcur hj]
    exact h.satp j hj
  · rw [(procExit_globals status k₁).2]
    exact h.loc

/-- A byte of a VMA of another process stays. -/
theorem Aside.byte (haside : Aside i k k') (h : KernelInv L k) (hj : j ≠ i)
    (huser : (k.procs j).isUser = true) {va : Nat} (hva : va < 4294967296) {m : Fin procVmaMax}
    (hcov : ((k.procs j).vmas m).Covers (va / 4096)) : k'.userByte j va = k.userByte j va := by
  have hroot := tableRoots_user huser
  have hne : (some j : Space) ≠ some i := fun heq => hj (Option.some.inj heq)
  have hvpn : va / 4096 < 1048576 := by omega
  apply userByte_congr
  · rw [haside.satp j hj]
    exact haside.loc.walk hroot hne hvpn
  · intro leaf hwalk
    exact haside.loc.page hroot hne hvpn hwalk (h.mm.leaf_user hroot hvpn hwalk hcov)

/-- An access of the kernel to the memory of process `i`. -/
theorem touch_aside (h : KernelInv L k) (hcur : k.currentProc = some i) (access va : Nat) :
    Along (fun k k' => k'.currentProc = k.currentProc ∧ Aside i k k') k (touch L access va k) := by
  unfold touch
  rw [hcur]
  dsimp only
  split
  · exact ⟨hcur.symm, Aside.of_phys rfl rfl⟩
  split
  · trivial
  rename_i huser
  rw [not_not] at huser
  cases hfault : procHandleUserPageFault L true (k.procs i) va access k.phys with
  | error e => trivial
  | ok out =>
      obtain ⟨ok, s⟩ := out
      have hloc := (h.fault_moved huser hfault).loc
      cases ok with
      | false =>
          refine ⟨_, ?_, rfl⟩
          exact ⟨hcur.symm, fun _ _ => rfl, hloc⟩
      | true =>
          dsimp only
          split
          · exact ⟨hcur.symm, fun _ _ => rfl, hloc⟩
          · trivial

/-- A page fault of process `i` in user mode. -/
theorem userPageFault_aside (h : KernelInv L k) (hcur : k.currentProc = some i) {addr access : Nat}
    (hcall : userPageFault L i addr access k = .ok k') : Aside i k k' := by
  unfold userPageFault at hcall
  cases huser : (k.procs i).isUser with
  | false =>
      unfold procHandleUserPageFault at hcall
      rw [huser, if_pos (by decide)] at hcall
      cases hcall
      exact (Aside.of_phys rfl rfl).exit hcur 128
  | true =>
      cases hfault : procHandleUserPageFault L false (k.procs i) addr access k.phys with
      | error e =>
          rw [hfault] at hcall
          cases hcall
      | ok out =>
          obtain ⟨ok, s⟩ := out
          rw [hfault] at hcall
          have hmoved : Aside i k { k with phys := s } :=
            ⟨fun _ _ => rfl, (h.fault_moved huser hfault).loc⟩
          cases ok with
          | true =>
              cases hcall
              exact hmoved
          | false =>
              cases hcall
              exact hmoved.exit hcur 128

/-! ## Stores -/

/-- The address of a store of a user process, or of the kernel on its behalf. -/
def Op.storeAddr : Op → Option UInt32
  | .userStore addr _ => some addr
  | .kernelStore addr _ => some addr
  | _ => none

/-- The process still has a page of the user image mapped to itself. -/
def Kernel.mapsImage (k : Kernel) (i : Fin procMax) (vpn : Nat) : Prop :=
  (walk k.phys.mem (rootPage (k.procs i).satp) vpn).map Leaf.ppn = some vpn

instance (k : Kernel) (i : Fin procMax) (vpn : Nat) : Decidable (k.mapsImage i vpn) :=
  inferInstanceAs (Decidable (_ = _))

/-- A page outside managed memory that user mode sees is mapped to itself, and if it is
writable it belongs to the writable sections. -/
theorem KernelInv.image_leaf (h : KernelInv L k) (huser : (k.procs i).isUser = true) {vpn : Nat}
    {leaf : Leaf} (hvpn : vpn < 1048576)
    (hwalk : walk k.phys.mem (rootPage (k.procs i).satp) vpn = some leaf)
    (hU : leaf.perm &&& pteU ≠ 0) (hm : ¬ L.Managed leaf.ppn) :
    leaf.ppn = vpn ∧ (leaf.perm &&& pteW ≠ 0 → dataPage L vpn) := by
  have hfits := h.mm.fits (tableRoots_user huser) hvpn hwalk
  by_cases hw : windowPage vpn
  · exact absurd ((leafFits_window hw).mp hfits).managed hm
  by_cases hs : stackPage vpn
  · exact absurd ((leafFits_stack hs).mp hfits).1 hm
  by_cases hd : dataPage L vpn
  · rcases (leafFits_data hd).mp hfits with ⟨hppn, -⟩ | ⟨hm', -⟩
    · exact ⟨hppn, fun _ => hd⟩
    · exact absurd hm' hm
  · rw [leafFits_rest hw hs hd] at hfits
    obtain ⟨hppn, huser⟩ := fixedLeaf_some hfits
    exact ⟨hppn, (huser hU).2⟩

/-- A store through a writable translation of process `i` changes no byte of another process,
unless the page belongs to the user image and both have it mapped to itself. -/
theorem KernelInv.store_byte (h : KernelInv L k) (huser : (k.procs i).isUser = true) {addr pa : Nat}
    {leaf : Leaf} (haddr : addr < 4294967296)
    (hwalk : walk k.phys.mem (rootPage (k.procs i).satp) (addr / 4096) = some leaf)
    (hU : leaf.perm &&& pteU ≠ 0) (hW : leaf.perm &&& pteW ≠ 0) (hpa : pa / 4096 = leaf.ppn)
    (page : PageBytes) (hj : j ≠ i) (huserj : (k.procs j).isUser = true) {va : Nat}
    (hva : va < 4294967296) {m : Fin procVmaMax}
    (hcov : ((k.procs j).vmas m).Covers (va / 4096))
    (himage : ¬ L.Managed leaf.ppn → ¬ k.mapsImage j (addr / 4096)) :
    { k with phys := k.phys.setPage pa page }.userByte j va = k.userByte j va := by
  have hroot := tableRoots_user huser
  have hrootj := tableRoots_user huserj
  have hvpn : va / 4096 < 1048576 := by omega
  obtain ⟨hsame, -⟩ := h.mm.store hroot (show addr / 4096 < 1048576 by omega) hwalk hU hW page
  have hmem : (k.phys.setPage pa page).mem = Function.update k.phys.mem leaf.ppn page := by
    unfold Phys.setPage
    rw [hpa]
  apply userByte_congr
  · change walk (k.phys.setPage pa page).mem _ _ = _
    rw [hmem]
    exact hsame.walk hrootj hvpn
  · intro leaf' hwalk'
    change (k.phys.setPage pa page).mem _ = _
    rw [hmem]
    apply Function.update_of_ne
    intro hsamepage
    have hU' := h.mm.leaf_user hrootj hvpn hwalk' hcov
    by_cases hm : L.Managed leaf.ppn
    · -- a writable managed page is mapped once
      have htarget : target (tableRoots k.procs k.kernelPage) k.phys.mem
          (.leaf (some j) ⟨va / 4096, hvpn⟩) = some leaf.ppn := by
        rw [← hsamepage]
        exact VmInv.target_leaf hrootj hvpn hwalk' hU'
      have hsite := h.mm.vm.write_unique ⟨addr / 4096, by omega⟩ hroot hwalk hU hW hm htarget
      injection hsite with hspace
      exact hj (Option.some.inj hspace)
    · -- a page of the image is mapped at its own address
      have himg := (h.image_leaf huser (by omega) hwalk hU hm).1
      rw [← hsamepage] at hm
      have himg' := (h.image_leaf huserj hvpn hwalk' hU' hm).1
      apply himage (by rw [← hsamepage]; exact hm)
      unfold Kernel.mapsImage
      rw [← himg, ← hsamepage, himg', hwalk', Option.map_some, himg']

/-- A store to a page outside managed memory. -/
theorem sharedStore_of_walk {op : Op} {addr : UInt32} {leaf : Leaf} (hop : op.storeAddr = some addr)
    (hrun : k.running = some i)
    (hwalk : hwWalk k.phys.mem (rootPage (k.procs i).satp) (addr.toNat / 4096) = some leaf)
    (hU : leaf.perm &&& pteU ≠ 0)
    (hbits : leaf.perm &&& protToQueryBits vmaProtW = protToQueryBits vmaProtW)
    (hm : ¬ L.Managed leaf.ppn) : sharedStore L k op = true := by
  have htranslate : userTranslate (k.procs i).satp addr.toNat vmaProtW k.phys =
      some (leaf.ppn * 4096 + addr.toNat % 4096) :=
    userTranslate_eq_some.mpr ⟨leaf, hwalk, hU, hbits, rfl⟩
  have hdiv : (leaf.ppn * 4096 + addr.toNat % 4096) / 4096 = leaf.ppn := by omega
  have hshared : ∀ value, sharedStore L k (.userStore addr value) = true := by
    intro value
    unfold sharedStore
    rw [hrun]
    dsimp only
    rw [htranslate]
    dsimp only
    rw [hdiv]
    simpa using hm
  cases op with
  | userStore a value =>
      cases hop
      exact hshared value
  | kernelStore a value =>
      cases hop
      exact hshared value
  | _ => cases hop

/-- A store made by a process, or by the kernel on its behalf, changes no byte of another
process, unless both still have the page of the user image mapped to itself. -/
theorem store_step_byte (h : KernelInv L k) {op : Op} {addr : UInt32}
    (hop : op.storeAddr = some addr) (henabled : enabled k op = true)
    (hstep : step L op k = .ok k') (hrun : k.running = some i) (hj : j ≠ i)
    (huserj : (k.procs j).isUser = true) {va : Nat} (hva : va < 4294967296) {m : Fin procVmaMax}
    (hcov : ((k.procs j).vmas m).Covers (va / 4096))
    (himage : sharedStore L k op = true → ¬ k.mapsImage j (addr.toNat / 4096)) :
    k'.userByte j va = k.userByte j va := by
  obtain ⟨hcur, hstate⟩ := Kernel.running_eq_some.mp hrun
  have haddr := addr.toNat_lt
  cases op with
  | userStore a value =>
      cases hop
      simp only [step, hrun] at hstep
      unfold userStore at hstep
      split at hstep
      · rename_i pa htranslate
        cases hstep
        have huser : (k.procs i).isUser = true := by
          by_contra hno
          rw [h.kernel_translate (Bool.eq_false_iff.mpr hno) (by rw [hstate]; decide) haddr]
            at htranslate
          cases htranslate
        obtain ⟨leaf, hwalk, hU, hbits, hpa⟩ := userTranslate_eq_some.mp htranslate
        apply h.store_byte huser haddr (walk_of_hwWalk hwalk) hU (write_of_bits hbits) (by omega) _
          hj huserj hva hcov
        intro hm
        exact himage (sharedStore_of_walk rfl hrun hwalk hU hbits hm)
      · exact (userPageFault_aside h hcur hstep).byte h hj huserj hva hcov
  | kernelStore a value =>
      cases hop
      simp only [step, hrun] at hstep
      obtain ⟨i', hrun', huser, n, hown, hprot⟩ := h.checked henabled
      cases hrun.symm.trans hrun'
      have haside := touch_aside h hcur vmaProtW addr.toNat
      have hreads := touch_reads (L := L) vmaProtW addr.toNat k
      unfold storeByte at hstep
      cases hcall : touch L vmaProtW addr.toNat k with
      | error e =>
          rw [hcall] at hstep haside
          cases e with
          | stop why => cases hstep
          | exited k₁ =>
              cases hstep
              obtain ⟨k₂, ⟨hcur₂, haside₂⟩, rfl⟩ := haside
              exact (haside₂.exit (hcur₂.trans hcur) 128).byte h hj huserj hva hcov
      | ok out =>
          obtain ⟨pa, k₁⟩ := out
          rw [hcall] at hstep haside hreads
          cases hstep
          obtain ⟨hcur₁, haside₁⟩ := haside
          have hkept : Kept L k k₁ := Reads.kept hreads h
          obtain ⟨hprocs, leaf, hwalk, hbits, hppn, hwhere⟩ := touch_ok h hcur huser haddr hcall
          have hsame : k₁.userByte j va = k.userByte j va := haside₁.byte h hj huserj hva hcov
          rw [← hsame]
          have hwalk₁ : walk k₁.phys.mem (rootPage (k₁.procs i).satp) (addr.toNat / 4096) =
              some leaf := by
            rw [hprocs]
            exact walk_of_hwWalk hwalk
          have hown₁ : (tableVmas k₁.procs i n).Covers (addr.toNat / 4096) := by
            unfold tableVmas
            rw [hprocs]
            exact hown
          have huser₁ : (k₁.procs i).isUser = true := by rw [hprocs]; exact huser
          have hU := hkept.inv.mm.leaf_user (tableRoots_user huser₁) (by omega) hwalk₁ hown₁
          apply hkept.inv.store_byte huser₁ haddr hwalk₁ hU (write_of_bits hbits) hppn _ hj
            (by rw [hprocs]; exact huserj) hva (by rw [hprocs]; exact hcov)
          intro hm
          rcases hwhere with hphys | hmanaged
          · have hshared := @sharedStore_of_walk L _ _ (.kernelStore addr value) _ _ rfl hrun
              (by rw [← hphys]; exact hwalk) hU hbits hm
            have hno := himage hshared
            unfold Kernel.mapsImage at hno ⊢
            rw [hphys, hprocs]
            exact hno
          · exact absurd hmanaged hm
  | _ => cases hop

end Sugimotos.Proc
