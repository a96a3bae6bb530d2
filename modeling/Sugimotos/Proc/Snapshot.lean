/-
# Fork takes a snapshot

A successful `proc_fork` leaves the bytes the parent reads as they were and gives the child
the same ones.  Afterwards neither of the two can write to a page of the image that is mapped
to itself, and every other page either of them can write is mapped once, so the stores of one
stay invisible to the other.
-/

import Sugimotos.Proc.FreshImage
import Sugimotos.Proc.Spared

namespace Sugimotos.Proc

open Sugimotos.Math Sugimotos.Mm

variable {L : Layout} {k k' : Kernel} {i j p c : Fin procMax} {q r : Nat} {s s₁ s₂ : Phys}
  {child : Process}

/-! ## The child right after the fork -/

/-- The translations of a fresh space outside its stack. -/
theorem ForkSpace.child_walk (hspace : ForkSpace L k p c q r s s₁) (h : KernelInv L k)
    {vpn : Nat} (hvpn : vpn < 1048576) (hs : ¬ stackPage vpn) :
    walk s₁.mem r vpn = fixedLeaf L vpn := by
  rw [hspace.built.walk hvpn, image_eq ((h.reserve hspace.alloc).inv.kernelWalk hvpn), if_neg hs]

theorem ForkSpace.parent_walk (hspace : ForkSpace L k p c q r s s₁) (h : KernelInv L k)
    {vpn : Nat} (hvpn : vpn < 1048576) :
    walk s₁.mem (rootPage (k.procs p).satp) vpn = walk k.phys.mem (rootPage (k.procs p).satp) vpn := by
  rw [hspace.quiet.walk (tableRoots_user hspace.user) hvpn]
  exact (h.mm.vm.allocate hspace.alloc).1.walk (tableRoots_user hspace.user) hvpn

/-- The state after a fork that went through. -/
structure Forked (L : Layout) (k : Kernel) (p c : Fin procMax) (q r : Nat) (s s₁ s₂ : Phys)
    (child : Process) : Prop where
  space : ForkSpace L k p c q r s s₁
  child : ForkChild k p c r child
  cloned : Cloned L (Function.update (tableRoots k.procs k.kernelPage) (some c) (some r)) p c
    (rootPage (k.procs p).satp) r (cowItems (k.procs p).vmas) true s₁ s₂
  rooted : Rooted L k c r (k.procs p).vmas s₂

namespace Forked

theorem childRoot (hf : Forked L k p c q r s s₁ s₂ child) : rootPage child.satp = r := by
  rw [hf.child.satp]
  exact rootPage_vmMakeSatp hf.rooted.page_lt

theorem child_proc (k : Kernel) (c : Fin procMax) (child : Process) (s₂ : Phys) :
    (({ k with phys := s₂ } : Kernel).setProc c child).procs c = child :=
  Kernel.setProc_self ..

theorem parent_proc (hf : Forked L k p c q r s s₁ s₂ child) :
    (({ k with phys := s₂ } : Kernel).setProc c child).procs p = k.procs p :=
  setProc_others k c child s₂ p hf.space.ne

/-- A page of a VMA that is not shared: the child maps what the parent maps, or neither has
anything but zeros. -/
theorem unshared (hf : Forked L k p c q r s s₁ s₂ child) (h : KernelInv L k) {m : Fin procVmaMax}
    {vpn : Nat} (hcov : ((k.procs p).vmas m).Covers vpn)
    (hprot : ((k.procs p).vmas m).prot &&& vmaProtW = 0) :
    (walk s₂.mem r vpn = none ∧ ∀ leaf, walk k.phys.mem (rootPage (k.procs p).satp) vpn = some leaf →
      k.phys.mem leaf.ppn = zeroPage) ∨
    (walk s₂.mem r vpn = some ⟨vpn, 2 * ((k.procs p).vmas m).prot + 16⟩ ∧ ¬ L.Managed vpn ∧
      walk k.phys.mem (rootPage (k.procs p).satp) vpn =
        some ⟨vpn, 2 * ((k.procs p).vmas m).prot + 16⟩) := by
  have hv := h.vma hf.space.user
  have hvpn := hv.covers_lt hcov
  have hlisted : vpn ∉ (cowItems (k.procs p).vmas).map (·.2) := by
    intro hmem
    obtain ⟨⟨cow, vpn'⟩, hitem, heq⟩ := List.mem_map.mp hmem
    dsimp only at heq
    subst heq
    obtain ⟨m', hcov', hwrite, -⟩ := (mem_cowItems hv).mp hitem
    obtain rfl := hv.covers_unique hcov hcov'
    exact hwrite hprot
  have hchild : walk s₂.mem r vpn = walk s₁.mem r vpn :=
    hf.cloned.other (Function.update_self ..) hvpn fun hc => hlisted hc.1
  cases hv.region hcov with
  | window hw hpos hlt =>
      left
      rw [hchild, hf.space.child_walk h hvpn (windowPage_not_stack hw)]
      refine ⟨fixedLeaf_low (Or.inl hw), fun leaf hleaf => ?_⟩
      have hfits := h.mm.fits (tableRoots_user hf.space.user) hvpn hleaf
      rw [leafFits_window hw] at hfits
      obtain ⟨m', hcov', -, hzero⟩ := hfits.vma
      obtain rfl := hv.covers_unique hcov hcov'
      exact hzero hprot
  | stack hs hthree =>
      rw [hthree] at hprot
      exact absurd hprot (by decide)
  | data hd hthree =>
      rw [hthree] at hprot
      exact absurd hprot (by decide)
  | fixed hw hs hd hfive hleaf =>
      right
      have hthere := h.complete (Process.root_user hf.space.user) hvpn hw (Or.inr (by rw [hleaf]; rfl))
      obtain ⟨leaf, hwalk⟩ := Option.isSome_iff_exists.mp hthere
      have hfits := h.mm.fits (tableRoots_user hf.space.user) hvpn hwalk
      rw [leafFits_rest hw hs hd, hleaf] at hfits
      rw [hchild, hf.space.child_walk h hvpn hs]
      refine ⟨hleaf, ?_, hwalk.trans hfits.symm⟩
      apply ((fixedLeaf_some hleaf).2 _).1
      exact userPerm_user (by omega)

/-- A page of a writable VMA: both sides map the same, or neither maps anything. -/
theorem shared (hf : Forked L k p c q r s s₁ s₂ child) (h : KernelInv L k) {m : Fin procVmaMax}
    {vpn : Nat} (hcov : ((k.procs p).vmas m).Covers vpn)
    (hprot : ((k.procs p).vmas m).prot &&& vmaProtW ≠ 0) :
    walk s₂.mem r vpn = walk s₂.mem (rootPage (k.procs p).satp) vpn := by
  have hv := h.vma hf.space.user
  have hvpn := hv.covers_lt hcov
  have hitem := (mem_cowItems hv).mpr ⟨m, hcov, hprot, rfl⟩
  rw [hf.cloned.child rfl hitem]
  cases hwalk : walk s₁.mem (rootPage (k.procs p).satp) vpn with
  | some leaf => rfl
  | none =>
      rw [hf.cloned.parent hitem |>.resolve_right nofun, hwalk]
      change walk s₁.mem r vpn = none
      rw [hf.space.parent_walk h hvpn] at hwalk
      have hcomplete := h.complete (Process.root_user hf.space.user) hvpn
      have hmissing : ¬ (walk k.phys.mem (rootPage (k.procs p).satp) vpn).isSome = true := by
        rw [hwalk]
        exact nofun
      cases hv.region hcov with
      | window hw hpos hlt =>
          rw [hf.space.child_walk h hvpn (windowPage_not_stack hw)]
          exact fixedLeaf_low (Or.inl hw)
      | stack hs hthree =>
          exact absurd (hcomplete (fun hw => windowPage_not_stack hw hs) (Or.inl hs)) hmissing
      | data hd hthree =>
          refine absurd (hcomplete (dataPage_not_low hd).1 (Or.inr ?_)) hmissing
          rw [fixedLeaf_eq, if_pos hd]
          rfl
      | fixed hw hs hd hfive hleaf =>
          refine absurd (hcomplete hw (Or.inr ?_)) hmissing
          rw [hleaf]
          rfl

/-- The parent reads what it read before. -/
theorem parent_byte (hf : Forked L k p c q r s s₁ s₂ child) (h : KernelInv L k) {m : Fin procVmaMax}
    {va : Nat} (hva : va < 4294967296) (hcov : ((k.procs p).vmas m).Covers (va / 4096))
    (hread : ((k.procs p).vmas m).prot &&& vmaProtR = vmaProtR) :
    (({ k with phys := s₂ } : Kernel).setProc c child).userByte p va = k.userByte p va := by
  have hshared := (hf.space.spared_clone hf.cloned).congr_roots (roots_others k c _)
  have hspared := (h.spared_build hf.space.alloc hf.space.quiet).before hshared
  apply hspared.byte h _ hf.space.ne hf.space.user _ hva hcov hread
  · intro item hitem
    unfold parentItems at hitem
    rw [if_pos rfl] at hitem
    exact hitem
  · rw [hf.parent_proc]

/-- The child reads what the parent reads. -/
theorem child_byte (hf : Forked L k p c q r s s₁ s₂ child) (h : KernelInv L k) {m : Fin procVmaMax}
    {va : Nat} (hva : va < 4294967296) (hcov : ((k.procs p).vmas m).Covers (va / 4096))
    (hread : ((k.procs p).vmas m).prot &&& vmaProtR = vmaProtR) :
    (({ k with phys := s₂ } : Kernel).setProc c child).userByte c va = k.userByte p va := by
  rw [← hf.parent_byte h hva hcov hread]
  by_cases hprot : ((k.procs p).vmas m).prot &&& vmaProtW = 0
  · rw [hf.parent_byte h hva hcov hread]
    rcases hf.unshared h hcov hprot with ⟨hnone, hzero⟩ | ⟨hleaf, hm, hold⟩
    · rw [userByte_of_none (by rw [child_proc, hf.childRoot]; exact hnone)]
      cases hwalk : walk k.phys.mem (rootPage (k.procs p).satp) (va / 4096) with
      | none => rw [userByte_of_none hwalk]
      | some leaf =>
          rw [userByte_of_walk hwalk, hzero leaf hwalk]
          rfl
    · rw [userByte_of_walk (by rw [child_proc, hf.childRoot]; exact hleaf), userByte_of_walk hold]
      exact congrFun (hf.rooted.unmanaged hm) _
  · have hsame := hf.shared h hcov hprot
    cases hwalk : walk s₂.mem r (va / 4096) with
    | none =>
        rw [userByte_of_none (by rw [child_proc, hf.childRoot]; exact hwalk),
          userByte_of_none (by rw [hf.parent_proc]; exact hsame.symm.trans hwalk)]
    | some leaf =>
        rw [userByte_of_walk (by rw [child_proc, hf.childRoot]; exact hwalk),
          userByte_of_walk (by rw [hf.parent_proc]; exact hsame.symm.trans hwalk)]

end Forked

/-! ## Sealed processes -/

/-- A process that can write to no page of the image that is mapped to itself. -/
structure Sealed (L : Layout) (k : Kernel) (i : Fin procMax) : Prop where
  user : (k.procs i).isUser = true
  noImage : ∀ {vpn leaf}, dataPage L vpn → walk k.phys.mem (rootPage (k.procs i).satp) vpn = some leaf →
    leaf.perm &&& pteW ≠ 0 → L.Managed leaf.ppn

/-- No writable translation of the image appears. -/
structure SealKept (L : Layout) (i : Fin procMax) (k k' : Kernel) : Prop where
  user : (k'.procs i).isUser = (k.procs i).isUser
  walk : ∀ {vpn leaf}, dataPage L vpn →
    Mm.walk k'.phys.mem (rootPage (k'.procs i).satp) vpn = some leaf → leaf.perm &&& pteW ≠ 0 →
    ¬ L.Managed leaf.ppn → Mm.walk k.phys.mem (rootPage (k.procs i).satp) vpn = some leaf

theorem Sealed.kept (h : Sealed L k i) (hkept : SealKept L i k k') : Sealed L k' i := by
  refine ⟨hkept.user.trans h.user, fun {vpn leaf} hd hwalk hW => ?_⟩
  by_contra hm
  exact hm (h.noImage hd (hkept.walk hd hwalk hW hm) hW)

theorem SealKept.of_walk (huser : (k'.procs i).isUser = (k.procs i).isUser)
    (hwalk : ∀ {vpn}, dataPage L vpn → Mm.walk k'.phys.mem (rootPage (k'.procs i).satp) vpn =
      Mm.walk k.phys.mem (rootPage (k.procs i).satp) vpn) : SealKept L i k k' := by
  refine ⟨huser, fun hd hleaf _ _ => ?_⟩
  rw [← hwalk hd]
  exact hleaf

theorem SealKept.trans {k₁ : Kernel} (h : SealKept L i k k₁) (h' : SealKept L i k₁ k') :
    SealKept L i k k' :=
  ⟨h'.user.trans h.user, fun hd hwalk hW hm => h.walk hd (h'.walk hd hwalk hW hm) hW hm⟩

/-- After a fork that went through both sides are sealed: the image is shared without `W`. -/
theorem Forked.lowered (hf : Forked L k p c q r s s₁ s₂ child) (h : KernelInv L k) {vpn : Nat}
    {leaf : Leaf} (hd : dataPage L vpn)
    (hwalk : walk s₂.mem (rootPage (k.procs p).satp) vpn = some leaf) : leaf.perm &&& pteW = 0 := by
  have hv := h.vma hf.space.user
  obtain ⟨m, hcov⟩ := hv.covers_data hd
  have hthree : ((k.procs p).vmas m).prot = 3 := by
    cases hv.region hcov with
    | window hw hpos hlt => exact absurd hw (dataPage_not_low hd).1
    | stack hs hprot => exact absurd hs (dataPage_not_low hd).2
    | data hd' hprot => exact hprot
    | fixed hw hs hnd hprot hleaf => exact absurd hd hnd
  have hitem := (mem_cowItems hv).mpr ⟨m, hcov, by rw [hthree]; decide, rfl⟩
  rw [(hf.cloned.parent hitem).resolve_right nofun, hthree] at hwalk
  obtain ⟨old, -, hnew⟩ := Option.bind_eq_some_iff.mp hwalk
  cases hnew
  dsimp only
  decide

theorem Forked.sealed_parent (hf : Forked L k p c q r s s₁ s₂ child) (h : KernelInv L k) :
    Sealed L (({ k with phys := s₂ } : Kernel).setProc c child) p := by
  constructor
  · rw [hf.parent_proc]
    exact hf.space.user
  · intro vpn leaf hd hwalk hW
    rw [hf.parent_proc] at hwalk
    exact absurd (hf.lowered h hd hwalk) hW

theorem Forked.sealed_child (hf : Forked L k p c q r s s₁ s₂ child) (h : KernelInv L k) :
    Sealed L (({ k with phys := s₂ } : Kernel).setProc c child) c := by
  constructor
  · rw [Forked.child_proc]
    exact hf.child.user
  · intro vpn leaf hd hwalk hW
    rw [Forked.child_proc, hf.childRoot] at hwalk
    have hv := h.vma hf.space.user
    obtain ⟨m, hcov⟩ := hv.covers_data hd
    have hwrite : ((k.procs p).vmas m).prot &&& vmaProtW ≠ 0 := by
      cases hv.region hcov with
      | window hw hpos hlt => exact absurd hw (dataPage_not_low hd).1
      | stack hs hprot => exact absurd hs (dataPage_not_low hd).2
      | data hd' hprot =>
          rw [hprot]
          decide
      | fixed hw hs hnd hprot hleaf => exact absurd hd hnd
    change walk s₂.mem r vpn = some leaf at hwalk
    rw [hf.shared h hcov hwrite] at hwalk
    exact absurd (hf.lowered h hd hwalk) hW

/-! ## Steps and sealing -/

/-- Only the state of the record changes. -/
theorem SealKept.of_record (hsatp : (k'.procs i).satp = (k.procs i).satp)
    (huser : (k'.procs i).isUser = (k.procs i).isUser) (hmem : k'.phys.mem = k.phys.mem) :
    SealKept L i k k' := by
  apply SealKept.of_walk huser
  intro vpn _
  rw [hsatp, hmem]

/-- The record of a process is written back with the same space. -/
theorem SealKept.of_setProc {a : Fin procMax} {proc : Process}
    (hsatp : proc.satp = (k.procs a).satp) (huser : proc.isUser = (k.procs a).isUser) :
    SealKept L i k (k.setProc a proc) := by
  by_cases hi : i = a
  · subst hi
    apply SealKept.of_record
    · rw [Kernel.setProc_self, hsatp]
    · rw [Kernel.setProc_self, huser]
    · rfl
  · apply SealKept.of_record
    · rw [Kernel.setProc_other _ _ hi]
    · rw [Kernel.setProc_other _ _ hi]
    · rfl

theorem procExit_sealKept {a : Fin procMax} {status : Int} (hcur : k.currentProc = some a) :
    SealKept L i k (procExit status k) := by
  have hmem : (procExit status k).phys.mem = k.phys.mem := by rw [(procExit_globals status k).2]
  by_cases hi : i = a
  · subst hi
    apply SealKept.of_record _ _ hmem <;> rw [procExit_procs status hcur, exitTable_self] <;> rfl
  · apply SealKept.of_record (procExit_satp hcur hi) _ hmem
    rw [procExit_procs status hcur]
    rcases exitTable_other status hi with heq | ⟨-, heq⟩ <;> rw [heq]

theorem Local.sealKept {a : Fin procMax}
    (h : Local (tableRoots k.procs k.kernelPage) a k.phys k'.phys) (hne : i ≠ a)
    (huser : (k.procs i).isUser = true) (hproc : k'.procs i = k.procs i) : SealKept L i k k' := by
  apply SealKept.of_walk (by rw [hproc])
  intro vpn hd
  rw [hproc]
  exact h.walk (tableRoots_user huser) (fun heq => hne (Option.some.inj heq)) (dataPage_lt hd)

/-- Constructions lower translations and add none. -/
theorem Spared.sealKept {items : Fin procMax → List (Nat × Nat)}
    (h : Spared (tableRoots k.procs k.kernelPage) c items k.phys k'.phys) (hinv : KernelInv L k)
    (hitems : ∀ item ∈ items i, item ∈ cowItems (k.procs i).vmas) (hne : i ≠ c)
    (huser : (k.procs i).isUser = true) (hproc : k'.procs i = k.procs i) : SealKept L i k k' := by
  constructor
  · rw [hproc]
  · intro vpn leaf hd hwalk hW _
    rw [hproc] at hwalk
    rcases h.walk (tableRoots_user huser) hne (dataPage_lt hd) with
      heq | ⟨cow, old, hmem, -, -, hnew⟩
    · rw [← heq]
      exact hwalk
    · -- a lowered translation is not writable
      exfalso
      obtain ⟨m, hcov, -, rfl⟩ := (mem_cowItems (hinv.vma huser)).mp (hitems _ hmem)
      have hlt := ((hinv.vma huser).region hcov).prot_lt.2
      rw [hnew] at hwalk
      unfold userLeaf at hwalk
      split at hwalk
      · cases hwalk
      · cases hwalk
        apply hW
        dsimp only
        generalize ((k.procs i).vmas m).prot = prot at hlt
        interval_cases prot <;> decide

/-- What a page fault of process `i` brings in for itself is a managed page. -/
theorem FaultCase.sealKept {sum ok : Bool} {vpn access : Nat} {s' : Phys} (h : KernelInv L k)
    (huser : (k.procs i).isUser = true)
    (hcase : FaultCase L (tableRoots k.procs k.kernelPage) (fun _ => 0) (tableVmas k.procs)
      k.kernelPage sum i (rootPage (k.procs i).satp) vpn access k.phys (.ok (ok, s'))) :
    SealKept L i k { k with phys := s' } := by
  have hr := tableRoots_user huser
  cases hcase with
  | refused hno => exact SealKept.of_record rfl rfl rfl
  | present hcov hprot hwalk hbits => exact SealKept.of_record rfl rfl rfl
  | exhausted hcov hprot hold hres => exact SealKept.of_record rfl rfl rfl
  | noTable hcov hprot hwalk htable hal halloc hres hfree hdrop hinv =>
      apply SealKept.of_walk
      · rfl
      · intro vpn' hd
        exact (h.mm.vm.allocate hal).1.walk hr (dataPage_lt hd)
  | mapped hcov hprot hold hperm hres htable hresolved hinv =>
      refine ⟨rfl, fun {vpn' leaf'} hd hwalk _ hm => ?_⟩
      change walk s'.mem _ vpn' = _ at hwalk
      rw [hresolved.walk hr (dataPage_lt hd)] at hwalk
      split at hwalk
      · cases hwalk
        exact absurd hresolved.managed hm
      · exact hwalk

/-- A page fault of any process. -/
theorem KernelInv.fault_sealKept {a : Fin procMax} {sum ok : Bool} {addr access : Nat} {s' : Phys}
    (h : KernelInv L k) (huser : (k.procs i).isUser = true) (husera : (k.procs a).isUser = true)
    (hcall : procHandleUserPageFault L sum (k.procs a) addr access k.phys = .ok (ok, s')) :
    SealKept L i k { k with phys := s' } := by
  by_cases hi : i = a
  · subst hi
    by_cases haddr : addr < 4294967296
    · have hcase := h.fault huser sum access haddr
      rw [hcall] at hcase
      exact hcase.sealKept h huser
    · rw [procHandleUserPageFault_high (h.vma huser) (Nat.le_of_not_lt haddr)] at hcall
      cases hcall
      exact SealKept.of_record rfl rfl rfl
  · exact (h.fault_moved husera hcall).loc.sealKept hi huser rfl

/-- A page fault taken in user mode. -/
theorem userPageFault_sealKept {a : Fin procMax} {addr access : Nat} (h : KernelInv L k)
    (huser : (k.procs i).isUser = true) (hcur : k.currentProc = some a)
    (hcall : userPageFault L a addr access k = .ok k') : SealKept L i k k' := by
  unfold userPageFault at hcall
  cases husera : (k.procs a).isUser with
  | false =>
      unfold procHandleUserPageFault at hcall
      rw [husera, if_pos (by decide)] at hcall
      cases hcall
      exact procExit_sealKept hcur
  | true =>
      cases hfault : procHandleUserPageFault L false (k.procs a) addr access k.phys with
      | error e =>
          rw [hfault] at hcall
          cases hcall
      | ok out =>
          obtain ⟨ok, s⟩ := out
          rw [hfault] at hcall
          have hkept := h.fault_sealKept huser husera hfault
          cases ok with
          | true =>
              cases hcall
              exact hkept
          | false =>
              cases hcall
              exact hkept.trans (procExit_sealKept hcur)

/-- An access of the kernel to user memory. -/
theorem touch_sealKept {a : Fin procMax} (h : KernelInv L k) (huser : (k.procs i).isUser = true)
    (hcur : k.currentProc = some a) (access va : Nat) :
    Along (fun k k' => k'.currentProc = k.currentProc ∧ SealKept L i k k') k
      (touch L access va k) := by
  unfold touch
  rw [hcur]
  dsimp only
  split
  · exact ⟨hcur.symm, SealKept.of_record rfl rfl rfl⟩
  split
  · trivial
  rename_i husera
  rw [not_not] at husera
  cases hfault : procHandleUserPageFault L true (k.procs a) va access k.phys with
  | error e => trivial
  | ok out =>
      obtain ⟨ok, s⟩ := out
      obtain ⟨hsame, hwalk⟩ := h.fault_sealKept huser husera hfault
      cases ok with
      | false =>
          refine ⟨_, ?_, rfl⟩
          exact ⟨hcur.symm, hsame, hwalk⟩
      | true =>
          dsimp only
          split
          · exact ⟨hcur.symm, hsame, hwalk⟩
          · trivial

/-- A store through a translation of process `a` writes to no page table. -/
theorem KernelInv.store_sealKept {a : Fin procMax} {addr pa : Nat} {leaf : Leaf} (h : KernelInv L k)
    (huser : (k.procs i).isUser = true) (husera : (k.procs a).isUser = true)
    (haddr : addr < 4294967296)
    (hwalk : walk k.phys.mem (rootPage (k.procs a).satp) (addr / 4096) = some leaf)
    (hU : leaf.perm &&& pteU ≠ 0) (hW : leaf.perm &&& pteW ≠ 0) (hpa : pa / 4096 = leaf.ppn)
    (page : PageBytes) : SealKept L i k { k with phys := k.phys.setPage pa page } := by
  obtain ⟨hsame, -⟩ := h.mm.store (tableRoots_user husera) (show addr / 4096 < 1048576 by omega)
    hwalk hU hW page
  apply SealKept.of_walk
  · rfl
  · intro vpn hd
    change walk (k.phys.setPage pa page).mem _ _ = _
    unfold Phys.setPage
    rw [hpa]
    exact hsame.walk (tableRoots_user huser) (dataPage_lt hd)

/-- `mmap` and `munmap` change translations of the window only. -/
theorem Stepped.sealKept {a : Fin procMax} {v : Vmas}
    (hstep : Stepped L (tableRoots k.procs k.kernelPage) (fun _ => 0) (tableVmas k.procs)
      k.kernelPage a (rootPage (k.procs a).satp) k.phys v s)
    (huser : (k.procs i).isUser = true) :
    SealKept L i k ({ k with phys := s }.setProc a { k.procs a with vmas := v }) := by
  by_cases hi : i = a
  · subst hi
    apply SealKept.of_walk
    · rw [Kernel.setProc_self]
    · intro vpn hd
      rw [Kernel.setProc_self]
      exact hstep.rest (dataPage_lt hd) (dataPage_not_low hd).1
  · exact hstep.loc.sealKept hi huser (setProc_others k a _ s i hi)

/-- What happens after the fork: the processes run, fault, change their mappings, store, and
fork again. -/
def Op.inMemory : Op → Bool
  | .switchTo _ | .saveFrame _ | .fork | .mmap .. | .munmap .. | .pageFault .. | .userStore ..
  | .kernelLoad _ | .kernelStore .. => true
  | _ => false

theorem step_sealKept (h : KernelInv L k) (huser : (k.procs i).isUser = true) {op : Op}
    (hop : op.inMemory = true) (henabled : enabled k op = true) (hstep : step L op k = .ok k') :
    SealKept L i k k' := by
  cases op with
  | switchTo next =>
      cases hstep
      unfold switchTo
      split
      · exact SealKept.of_record rfl rfl rfl
      · exact SealKept.of_record rfl rfl rfl
  | saveFrame f =>
      simp only [step] at hstep
      split at hstep
      · cases hstep
        exact SealKept.of_record rfl rfl rfl
      · rename_i a hrun
        cases hstep
        exact SealKept.of_setProc rfl rfl
  | fork =>
      simp only [step] at hstep
      split at hstep
      · cases hstep
        exact SealKept.of_record rfl rfl rfl
      · rename_i a hrun
        obtain ⟨⟨result, k₁⟩, hcall, rfl⟩ := map_ok (liftPanic_ok hstep)
        rcases (procFork_cases h hrun hcall).spared h with rfl | ⟨c, hslot, hprocs, hspared⟩
        · exact SealKept.of_record rfl rfl rfl
        · have hne : i ≠ c := by
            rintro rfl
            exact (h.ok i).used huser (allocProcessSlot_unused hslot)
          apply hspared.sealKept h _ hne huser (hprocs i hne)
          intro item hitem
          unfold parentItems at hitem
          split at hitem
          · rename_i hi
            rw [hi]
            exact hitem
          · cases hitem
  | mmap addrHint len prot flags =>
      simp only [step] at hstep
      split at hstep
      · cases hstep
        exact SealKept.of_record rfl rfl rfl
      · rename_i a hrun
        obtain ⟨⟨result, proc, s⟩, hcall, rfl⟩ := map_ok (liftPanic_ok hstep)
        cases husera : (k.procs a).isUser with
        | false =>
            unfold procMmap at hcall
            rw [husera, if_pos (by decide)] at hcall
            cases hcall
            exact SealKept.of_setProc rfl rfl
        | true =>
            obtain ⟨v, hproc, hstepped⟩ := (procMmap_spec h.mm (tableRoots_user husera) rfl rfl
              addrHint.toNat len.toNat prot.toNat flags.toNat).of_eq_ok hcall
            dsimp only at hproc
            subst hproc
            exact hstepped.sealKept huser
  | munmap addr len =>
      simp only [step] at hstep
      split at hstep
      · cases hstep
        exact SealKept.of_record rfl rfl rfl
      · rename_i a hrun
        obtain ⟨⟨ok, proc, s⟩, hcall, rfl⟩ := map_ok (liftPanic_ok hstep)
        cases husera : (k.procs a).isUser with
        | false =>
            unfold procMunmap at hcall
            rw [husera, if_pos (by decide)] at hcall
            cases hcall
            exact SealKept.of_setProc rfl rfl
        | true =>
            obtain ⟨v, hproc, hstepped⟩ := (procMunmap_spec h.mm (tableRoots_user husera) rfl rfl
              addr.toNat len.toNat).of_eq_ok hcall
            dsimp only at hproc
            subst hproc
            exact hstepped.sealKept huser
  | pageFault addr access =>
      simp only [step] at hstep
      split at hstep
      · cases hstep
        exact SealKept.of_record rfl rfl rfl
      · rename_i a hrun
        exact userPageFault_sealKept h huser (Kernel.running_eq_some.mp hrun).1 hstep
  | userStore addr value =>
      simp only [step] at hstep
      split at hstep
      · cases hstep
        exact SealKept.of_record rfl rfl rfl
      · rename_i a hrun
        obtain ⟨hcur, hstate⟩ := Kernel.running_eq_some.mp hrun
        have haddr := addr.toNat_lt
        unfold userStore at hstep
        split at hstep
        · rename_i pa htranslate
          cases hstep
          have husera : (k.procs a).isUser = true := by
            by_contra hno
            rw [h.kernel_translate (Bool.eq_false_iff.mpr hno) (by rw [hstate]; decide) haddr]
              at htranslate
            cases htranslate
          obtain ⟨leaf, hwalk, hU, hbits, hpa⟩ := userTranslate_eq_some.mp htranslate
          exact h.store_sealKept huser husera haddr (walk_of_hwWalk hwalk) hU (write_of_bits hbits)
            (by omega) _
        · exact userPageFault_sealKept h huser hcur hstep
  | kernelLoad addr =>
      simp only [step] at hstep
      obtain ⟨a, hrun, -⟩ := h.checked henabled
      rw [hrun] at hstep
      have hcur := (Kernel.running_eq_some.mp hrun).1
      have hkept := touch_sealKept h huser hcur vmaProtR addr.toNat
      dsimp only at hstep
      unfold loadByte at hstep
      cases hcall : touch L vmaProtR addr.toNat k with
      | error e =>
          rw [hcall] at hstep hkept
          cases e with
          | stop why => cases hstep
          | exited k₁ =>
              cases hstep
              obtain ⟨k₂, ⟨hcur₂, hkept₂⟩, rfl⟩ := hkept
              exact hkept₂.trans (procExit_sealKept (hcur₂.trans hcur))
      | ok out =>
          rw [hcall] at hstep hkept
          cases hstep
          exact hkept.2
  | kernelStore addr value =>
      simp only [step] at hstep
      obtain ⟨a, hrun, husera, n, hown, -⟩ := h.checked henabled
      rw [hrun] at hstep
      have hcur := (Kernel.running_eq_some.mp hrun).1
      have haddr := addr.toNat_lt
      have hkept := touch_sealKept h huser hcur vmaProtW addr.toNat
      have hreads := touch_reads (L := L) vmaProtW addr.toNat k
      dsimp only at hstep
      unfold storeByte at hstep
      cases hcall : touch L vmaProtW addr.toNat k with
      | error e =>
          rw [hcall] at hstep hkept
          cases e with
          | stop why => cases hstep
          | exited k₁ =>
              cases hstep
              obtain ⟨k₂, ⟨hcur₂, hkept₂⟩, rfl⟩ := hkept
              exact hkept₂.trans (procExit_sealKept (hcur₂.trans hcur))
      | ok out =>
          obtain ⟨pa, k₁⟩ := out
          rw [hcall] at hstep hkept hreads
          cases hstep
          have hinv : KernelInv L k₁ := (Reads.kept hreads h).inv
          obtain ⟨hprocs, leaf, hwalk, hbits, hppn, -⟩ := touch_ok h hcur husera haddr hcall
          have hwalk₁ : walk k₁.phys.mem (rootPage (k₁.procs a).satp) (addr.toNat / 4096) =
              some leaf := by
            rw [hprocs]
            exact walk_of_hwWalk hwalk
          have hown₁ : (tableVmas k₁.procs a n).Covers (addr.toNat / 4096) := by
            unfold tableVmas
            rw [hprocs]
            exact hown
          have husera₁ : (k₁.procs a).isUser = true := by rw [hprocs]; exact husera
          have hU := hinv.mm.leaf_user (tableRoots_user husera₁) (by omega) hwalk₁ hown₁
          apply hkept.2.trans
          exact hinv.store_sealKept (hkept.2.user.trans huser) husera₁ haddr hwalk₁ hU
            (write_of_bits hbits) hppn _
  | _ => cases hop

/-! ## The snapshot -/

/-- The states after the fork. -/
inductive Aftermath (L : Layout) (k : Kernel) : Kernel → Prop
  | done : Aftermath L k k
  | step {k₁ k'} (op : Op) (h : Aftermath L k k₁) (hop : op.inMemory = true)
      (henabled : enabled k₁ op = true) (hstep : step L op k₁ = .ok k') : Aftermath L k k'

theorem Aftermath.reachable (h : Aftermath L k k') (hk : Reachable L k) : Reachable L k' := by
  induction h with
  | done => exact hk
  | step op _ _ henabled hstep ih => exact ih.step op henabled hstep

theorem Aftermath.sealed (h : Aftermath L k k') (hk : Reachable L k) (hseal : Sealed L k i) :
    Sealed L k' i := by
  induction h with
  | done => exact hseal
  | step op h hop henabled hstep ih =>
      exact ih.kept (step_sealKept (h.reachable hk).inv ih.user hop henabled hstep)

/-- The page a store outside managed memory reaches. -/
theorem walk_of_sharedStore {op : Op} {addr : UInt32} (hop : op.storeAddr = some addr)
    (hrun : k.running = some i) (hshared : sharedStore L k op = true) :
    ∃ leaf, walk k.phys.mem (rootPage (k.procs i).satp) (addr.toNat / 4096) = some leaf ∧
      leaf.perm &&& pteU ≠ 0 ∧ leaf.perm &&& pteW ≠ 0 ∧ ¬ L.Managed leaf.ppn := by
  have hstored : ∀ value, sharedStore L k (.userStore addr value) = true →
      ∃ leaf, walk k.phys.mem (rootPage (k.procs i).satp) (addr.toNat / 4096) = some leaf ∧
        leaf.perm &&& pteU ≠ 0 ∧ leaf.perm &&& pteW ≠ 0 ∧ ¬ L.Managed leaf.ppn := by
    intro value hshared
    unfold sharedStore at hshared
    rw [hrun] at hshared
    dsimp only at hshared
    split at hshared
    · cases hshared
    · rename_i pa htranslate
      obtain ⟨leaf, hwalk, hU, hbits, hpa⟩ := userTranslate_eq_some.mp htranslate
      have hdiv : pa / 4096 = leaf.ppn := by omega
      rw [hdiv] at hshared
      refine ⟨leaf, walk_of_hwWalk hwalk, hU, write_of_bits hbits, ?_⟩
      simpa using hshared
  cases op with
  | userStore a value =>
      cases hop
      exact hstored value hshared
  | kernelStore a value =>
      cases hop
      exact hstored value hshared
  | _ => cases hop

/-- A store of a sealed process changes no byte of another one. -/
theorem Sealed.store (hseal : Sealed L k j) (h : KernelInv L k) {op : Op} {addr : UInt32}
    (hop : op.storeAddr = some addr) (henabled : enabled k op = true)
    (hstep : step L op k = .ok k') (hrun : k.running = some j) (hi : i ≠ j)
    (huser : (k.procs i).isUser = true) {va : Nat} {m : Fin procVmaMax}
    (hcov : ((k.procs i).vmas m).Covers (va / 4096)) : k'.userByte i va = k.userByte i va := by
  have hvpn := (h.vma huser).covers_lt hcov
  apply store_step_byte h hop henabled hstep hrun hi huser (by omega) hcov
  intro hshared
  obtain ⟨leaf, hwalk, hU, hW, hm⟩ := walk_of_sharedStore hop hrun hshared
  have haddr := addr.toNat_lt
  have hd := (h.image_leaf hseal.user (by omega) hwalk hU hm).2 hW
  exact absurd (hseal.noImage hd hwalk hW) hm

/-- What process `i` stores is invisible to process `j`, now and in every state after. -/
def Isolated (L : Layout) (k : Kernel) (i j : Fin procMax) : Prop :=
  ∀ k₁ op addr k₂, Aftermath L k k₁ → enabled k₁ op = true → step L op k₁ = .ok k₂ →
    op.storeAddr = some addr → k₁.running = some i →
    ∀ m va, ((k₁.procs j).vmas m).Covers (va / 4096) → k₂.userByte j va = k₁.userByte j va

theorem Sealed.isolated (hi : Sealed L k i) (hj : Sealed L k j) (hk : Reachable L k) (hne : j ≠ i) :
    Isolated L k i j := by
  intro k₁ op addr k₂ hafter henabled hstep hop hrun m va hcov
  exact (hafter.sealed hk hi).store (hafter.reachable hk).inv hop henabled hstep hrun hne
    (hafter.sealed hk hj).user hcov

/-- Process `c` starts in `k'` from what process `p` read in `k`, and from then on neither sees
what the other stores. -/
structure Snapshot (L : Layout) (k k' : Kernel) (p c : Fin procMax) : Prop where
  ne : c ≠ p
  parent : ∀ m va, ((k.procs p).vmas m).Covers (va / 4096) →
    ((k.procs p).vmas m).prot &&& vmaProtR = vmaProtR → k'.userByte p va = k.userByte p va
  child : ∀ m va, ((k.procs p).vmas m).Covers (va / 4096) →
    ((k.procs p).vmas m).prot &&& vmaProtR = vmaProtR → k'.userByte c va = k.userByte p va
  parentStores : Isolated L k' p c
  childStores : Isolated L k' c p

/-- A successful fork takes a snapshot. -/
theorem fork_snapshot (hk : Reachable L k) (hrun : k.running = some p) {pid : Int}
    (hcall : procFork L k = .ok (some pid, k')) :
    ∃ c, (k'.procs c).pid = pid ∧ Snapshot L k k' p c := by
  have h := hk.inv
  have hk' : Reachable L k' := by
    apply hk.step .fork
    · change k.running.isSome = true
      rw [hrun]
      rfl
    · simp only [step, hrun, hcall]
      rfl
  have hcases := procFork_cases h hrun hcall
  generalize hout : (.ok (some pid, k') : Except Panic (Option Int × Kernel)) = out at hcases
  cases hcases with
  | @forked c q r s s₁ s₂ child hspace hchild hcloned hrooted hkept =>
      injection hout with hout
      obtain ⟨hpid, rfl⟩ := Prod.mk.inj hout
      have hf : Forked L k p c q r s s₁ s₂ child := ⟨hspace, hchild, hcloned, hrooted⟩
      have hparent := hf.sealed_parent h
      have hchildSealed := hf.sealed_child h
      have hlt : ∀ m va, ((k.procs p).vmas m).Covers (va / 4096) → va < 4294967296 := by
        intro m va hcov
        have hvpn := (h.vma hspace.user).covers_lt hcov
        omega
      refine ⟨c, ?_, ?_⟩
      · rw [Forked.child_proc]
        exact (Option.some.inj hpid).symm
      · constructor
        · exact hspace.ne.symm
        · intro m va hcov hread
          exact hf.parent_byte h (hlt m va hcov) hcov hread
        · intro m va hcov hread
          exact hf.child_byte h (hlt m va hcov) hcov hread
        · exact hparent.isolated hchildSealed hk' hspace.ne.symm
        · exact hchildSealed.isolated hparent hk' hspace.ne
  | _ => cases hout

/-- A process on its way into `fork`. -/
def forkingOps : List Op :=
  [.createUserProcess smallEntry, .switchTo 1, .saveFrame (TrapFrame.zero.set .sp 0x40000000)]

theorem fork_snapshot_first : ∃ k k' pid c, smallRun forkingOps = some k ∧
    procFork smallLayout k = .ok (some pid, k') ∧ (k'.procs c).pid = pid ∧
    Snapshot smallLayout k k' 1 c := by
  have hrun : (smallRun forkingOps).any (fun k => decide (k.running = some 1) &&
      (procFork smallLayout k).toOption.any fun out => out.1.isSome) = true := by
    decide +kernel
  obtain ⟨k, hk, hvals⟩ := (Option.any_eq_true _ _).mp hrun
  rw [Bool.and_eq_true, decide_eq_true_iff] at hvals
  obtain ⟨hrunning, hfork⟩ := hvals
  obtain ⟨⟨result, k'⟩, hcall, hsome⟩ := ok_of_any hfork
  obtain ⟨pid, hpid⟩ := Option.isSome_iff_exists.mp hsome
  dsimp only at hpid
  subst hpid
  obtain ⟨c, hc, hsnap⟩ := fork_snapshot (smallRun_reachable hk) hrunning hcall
  exact ⟨k, k', pid, c, hk, hcall, hc, hsnap⟩

end Sugimotos.Proc
