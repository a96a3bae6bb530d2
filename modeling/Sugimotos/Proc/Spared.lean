/-
# What a construction leaves of the other processes

Creating or forking a process allocates pages, builds tables, shares pages of the parent and,
if something fails, gives it all back.  The processes that were there before keep their
translations, except that the parent's may have been lowered, and the contents of every page
they see.
-/

import Sugimotos.Proc.Views

namespace Sugimotos.Proc

open Sugimotos.Math Sugimotos.Mm

variable {L : Layout} {roots : Space → Option Nat} {held : Nat → Nat}
  {vmas : Fin procMax → Vmas} {kr : Nat} {c p : Fin procMax}
  {items : Fin procMax → List (Nat × Nat)} {s s₁ s' : Phys}

/-- The spaces other than that of process `c` keep what they show.  A translation may change
only in its permissions, at a page that `items` lists for the process. -/
structure Spared (roots : Space → Option Nat) (c : Fin procMax)
    (items : Fin procMax → List (Nat × Nat)) (s s' : Phys) : Prop where
  walk : ∀ {j r vpn}, roots (some j) = some r → j ≠ c → vpn < 1048576 →
    Mm.walk s'.mem r vpn = Mm.walk s.mem r vpn ∨
      ∃ cow leaf, (cow, vpn) ∈ items j ∧ Mm.walk s.mem r vpn = some leaf ∧
        leaf.perm &&& pteU ≠ 0 ∧ Mm.walk s'.mem r vpn = userLeaf leaf.ppn cow
  page : ∀ {j r vpn leaf}, roots (some j) = some r → j ≠ c → vpn < 1048576 →
    Mm.walk s'.mem r vpn = some leaf → leaf.perm &&& pteU ≠ 0 → s'.mem leaf.ppn = s.mem leaf.ppn

/-- No translation is lowered. -/
def noItems : Fin procMax → List (Nat × Nat) := fun _ => []

/-- The pages the parent shares with the child. -/
def parentItems (p : Fin procMax) (v : Vmas) : Fin procMax → List (Nat × Nat) :=
  fun j => if j = p then cowItems v else []

namespace Spared

theorem of_same (hwalk : ∀ {j r vpn}, roots (some j) = some r → j ≠ c → vpn < 1048576 →
      Mm.walk s'.mem r vpn = Mm.walk s.mem r vpn)
    (hpage : ∀ {j r vpn leaf}, roots (some j) = some r → j ≠ c → vpn < 1048576 →
      Mm.walk s.mem r vpn = some leaf → leaf.perm &&& pteU ≠ 0 →
      s'.mem leaf.ppn = s.mem leaf.ppn) : Spared roots c items s s' := by
  constructor
  · intro j r vpn hr hj hvpn
    exact Or.inl (hwalk hr hj hvpn)
  · intro j r vpn leaf hr hj hvpn hleaf hU
    rw [hwalk hr hj hvpn] at hleaf
    exact hpage hr hj hvpn hleaf hU

theorem refl (s : Phys) : Spared roots c items s s := of_same (fun _ _ _ => rfl) fun _ _ _ _ _ => rfl

/-- Only the spaces of the other processes matter. -/
theorem congr_roots {roots' : Space → Option Nat} (h : Spared roots c items s s')
    (hroots : ∀ j, j ≠ c → roots' (some j) = roots (some j)) : Spared roots' c items s s' := by
  constructor
  · intro j r vpn hr hj hvpn
    rw [hroots j hj] at hr
    exact h.walk hr hj hvpn
  · intro j r vpn leaf hr hj hvpn hleaf hU
    rw [hroots j hj] at hr
    exact h.page hr hj hvpn hleaf hU

/-- A step that changes no translation, before another one. -/
theorem before (h : Spared roots c noItems s s₁) (h' : Spared roots c items s₁ s') :
    Spared roots c items s s' := by
  have hsame : ∀ {j r vpn}, roots (some j) = some r → j ≠ c → vpn < 1048576 →
      Mm.walk s₁.mem r vpn = Mm.walk s.mem r vpn := by
    intro j r vpn hr hj hvpn
    rcases h.walk hr hj hvpn with heq | ⟨cow, leaf, hmem, -⟩
    · exact heq
    · cases hmem
  constructor
  · intro j r vpn hr hj hvpn
    rw [← hsame hr hj hvpn]
    exact h'.walk hr hj hvpn
  · intro j r vpn leaf hr hj hvpn hleaf hU
    rw [h'.page hr hj hvpn hleaf hU]
    rcases h'.walk hr hj hvpn with heq | ⟨cow, old, -, hold, hUold, hnew⟩
    · rw [heq] at hleaf
      exact h.page hr hj hvpn hleaf hU
    · have hppn : leaf.ppn = old.ppn := by
        rw [hnew] at hleaf
        unfold userLeaf at hleaf
        split at hleaf
        · cases hleaf
        · cases hleaf
          rfl
      rw [hppn]
      exact h.page hr hj hvpn hold hUold

/-- A step that changes no translation, after another one. -/
theorem after (h : Spared roots c items s s₁) (h' : Spared roots c noItems s₁ s') :
    Spared roots c items s s' := by
  have hsame : ∀ {j r vpn}, roots (some j) = some r → j ≠ c → vpn < 1048576 →
      Mm.walk s'.mem r vpn = Mm.walk s₁.mem r vpn := by
    intro j r vpn hr hj hvpn
    rcases h'.walk hr hj hvpn with heq | ⟨cow, leaf, hmem, -⟩
    · exact heq
    · cases hmem
  constructor
  · intro j r vpn hr hj hvpn
    rw [hsame hr hj hvpn]
    exact h.walk hr hj hvpn
  · intro j r vpn leaf hr hj hvpn hleaf hU
    rw [h'.page hr hj hvpn hleaf hU]
    rw [hsame hr hj hvpn] at hleaf
    exact h.page hr hj hvpn hleaf hU

end Spared

/-! ## The stages of a construction -/

theorem MmInv.spared_alloc {q n : Nat} (h : MmInv L roots held vmas kr s)
    (hal : Allocated L q n s s') : Spared roots c items s s' := by
  apply Spared.of_same
  · intro j r vpn hr _ hvpn
    exact (h.vm.allocate hal).1.walk hr hvpn
  · intro j r vpn leaf hr _ hvpn hwalk hU
    rw [hal.mem, if_neg]
    intro hin
    exact (leaf_in_use h.vm hr hvpn hwalk hU).2 (hal.managed _ hin) (hal.wasFree _ hin)

theorem MmInv.spared_quiet (h : MmInv L roots held vmas kr s) (hquiet : Quiet L roots s s') :
    Spared roots c items s s' := by
  apply Spared.of_same
  · intro j r vpn hr _ hvpn
    exact hquiet.walk hr hvpn
  · intro j r vpn leaf hr _ hvpn hwalk hU
    obtain ⟨hno, hcount⟩ := leaf_in_use h.vm hr hvpn hwalk hU
    exact hquiet.page hno hcount

theorem Local.spared (hloc : Local roots c s s') : Spared roots c items s s' := by
  apply Spared.of_same
  · intro j r vpn hr hj hvpn
    exact hloc.walk hr (fun heq => hj (Option.some.inj heq)) hvpn
  · intro j r vpn leaf hr hj hvpn hwalk hU
    exact hloc.page hr (fun heq => hj (Option.some.inj heq)) hvpn hwalk hU

/-- Sharing pages with the child. -/
theorem Cloned.spared {rp rc : Nat} {done : Bool} {v : Vmas} (hv : v = vmas p)
    (hcloned : Cloned L roots p c rp rc (cowItems v) done s s')
    (h : MmInv L roots (fun _ => 0) vmas kr s) (hrp : roots (some p) = some rp)
    (hrc : roots (some c) = some rc) : Spared roots c (parentItems p v) s s' := by
  have hinv := h.vma hrp
  rw [← hv] at hinv
  have hwalk : ∀ {j r vpn}, roots (some j) = some r → j ≠ c → vpn < 1048576 →
      Mm.walk s'.mem r vpn = Mm.walk s.mem r vpn ∨
        ∃ cow leaf, (cow, vpn) ∈ parentItems p v j ∧ Mm.walk s.mem r vpn = some leaf ∧
          leaf.perm &&& pteU ≠ 0 ∧ Mm.walk s'.mem r vpn = userLeaf leaf.ppn cow := by
    intro j r vpn hr hj hvpn
    by_cases hitem : vpn ∈ (cowItems v).map (·.2) ∧ j = p
    · obtain ⟨hmem, rfl⟩ := hitem
      cases hr.symm.trans hrp
      obtain ⟨⟨cow, vpn'⟩, hitem, heq⟩ := List.mem_map.mp hmem
      dsimp only at heq
      subst heq
      rcases hcloned.parent hitem with hnew | ⟨-, hold⟩
      · cases hleaf : Mm.walk s.mem rp vpn' with
        | none =>
            rw [hleaf] at hnew
            exact Or.inl hnew
        | some leaf =>
            rw [hleaf] at hnew
            obtain ⟨m, hcov, -⟩ := (mem_cowItems hinv).mp hitem
            rw [hv] at hcov
            refine Or.inr ⟨cow, leaf, ?_, rfl, h.leaf_user hr hvpn hleaf hcov, hnew⟩
            unfold parentItems
            rw [if_pos rfl]
            exact hitem
      · exact Or.inl hold
    · left
      apply hcloned.other hr hvpn
      rintro ⟨hmem, hspace | hspace⟩
      · exact hitem ⟨hmem, Option.some.inj hspace⟩
      · exact hj (Option.some.inj hspace)
  refine ⟨hwalk, ?_⟩
  intro j r vpn leaf hr hj hvpn hleaf hU
  -- the page was shown before, so it is not one that only the child can write
  have hold : ∃ old, Mm.walk s.mem r vpn = some old ∧ old.perm &&& pteU ≠ 0 ∧ old.ppn = leaf.ppn := by
    rcases hwalk hr hj hvpn with heq | ⟨cow, old, -, hold, hUold, hnew⟩
    · exact ⟨leaf, heq.symm.trans hleaf, hU, rfl⟩
    · refine ⟨old, hold, hUold, ?_⟩
      rw [hnew] at hleaf
      unfold userLeaf at hleaf
      split at hleaf
      · cases hleaf
      · cases hleaf
        rfl
  obtain ⟨old, hold, hUold, hppn⟩ := hold
  obtain ⟨hno, hcount⟩ := leaf_in_use h.vm hr hvpn hold hUold
  rw [hppn] at hno hcount
  refine (hcloned.solid ⟨hno, hcount, ?_⟩).1
  intro vpn' leaf' hvpn' hwalk' hU' hW' hm' heq
  have htarget := VmInv.target_leaf hr hvpn hold hUold
  rw [hppn, ← heq] at htarget
  have hsite := h.vm.write_unique ⟨vpn', hvpn'⟩ hrc hwalk' hU' hW' hm' htarget
  injection hsite with hspace
  exact hj (Option.some.inj hspace)

/-! ## Bytes -/

section Bytes

variable {k k' : Kernel} {j : Fin procMax}

theorem userLeaf_cow {v : Vmas} {m : Fin procVmaMax} {vpn cow q : Nat} (hv : VmaInv L v)
    (hmem : (cow, vpn) ∈ cowItems v) (hcov : (v m).Covers vpn)
    (hread : (v m).prot &&& vmaProtR = vmaProtR) : userLeaf q cow = some ⟨q, 2 * cow + 16⟩ := by
  obtain ⟨m', hcov', -, rfl⟩ := (mem_cowItems hv).mp hmem
  obtain rfl := hv.covers_unique hcov hcov'
  apply userLeaf_pos
  intro hzero
  have hlt := (hv.region hcov).prot_lt.2
  generalize (v m).prot = prot at hread hzero hlt
  interval_cases prot <;> revert hread hzero <;> decide

/-- What a process reads in a readable VMA stays. -/
theorem Spared.byte (h : Spared (tableRoots k.procs k.kernelPage) c items k.phys k'.phys)
    (hinv : KernelInv L k) (hitems : ∀ item ∈ items j, item ∈ cowItems (k.procs j).vmas)
    (hj : j ≠ c) (huser : (k.procs j).isUser = true)
    (hsatp : (k'.procs j).satp = (k.procs j).satp) {va : Nat} (hva : va < 4294967296)
    {m : Fin procVmaMax} (hcov : ((k.procs j).vmas m).Covers (va / 4096))
    (hread : ((k.procs j).vmas m).prot &&& vmaProtR = vmaProtR) :
    k'.userByte j va = k.userByte j va := by
  have hr := tableRoots_user huser
  have hvpn : va / 4096 < 1048576 := by omega
  rcases h.walk hr hj hvpn with heq | ⟨cow, leaf, hmem, hold, hU, hnew⟩
  · apply userByte_congr
    · rw [hsatp]
      exact heq
    · intro leaf hleaf
      apply h.page hr hj hvpn (heq.trans hleaf)
      exact hinv.mm.leaf_user hr hvpn hleaf hcov
  · rw [userLeaf_cow (hinv.vma huser) (hitems _ hmem) hcov hread] at hnew
    rw [userByte_of_walk hold, userByte_of_walk (by rw [hsatp]; exact hnew)]
    have hpage := h.page hr hj hvpn hnew (by
      have hlt : cow < 8 := by
        obtain ⟨m', hcov', -, rfl⟩ := (mem_cowItems (hinv.vma huser)).mp (hitems _ hmem)
        exact cowProt_lt ((hinv.vma huser).region hcov').prot_lt.2
      exact userPerm_user hlt)
    dsimp only at hpage ⊢
    rw [hpage]

end Bytes

/-! ## Constructions -/

section Construct

variable {k k' : Kernel} {i : Fin procMax} {q r : Nat} {s₂ : Phys} {v : Vmas}

theorem resetProcess_some {proc : Process} (h : resetProcess L k i proc s = .ok k') :
    ∃ s', procVmRelease L proc s = .ok s' ∧ k' = { k with phys := s' }.setProc i .unused := by
  unfold resetProcess at h
  cases hrun : procVmRelease L proc s with
  | error e =>
      rw [hrun] at h
      cases h
  | ok s' =>
      rw [hrun] at h
      cases h
      exact ⟨s', rfl, rfl⟩

theorem setProc_others (k : Kernel) (i : Fin procMax) (proc : Process) (s : Phys) :
    ∀ j, j ≠ i → (({ k with phys := s } : Kernel).setProc i proc).procs j = k.procs j :=
  fun _ hj => Kernel.setProc_other _ proc hj

/-- Freeing the stack of a process without a space changes no memory. -/
theorem BareProc.reset {proc : Process} (hbare : BareProc q proc) (hq : q ≠ 0)
    (hreset : resetProcess L k i proc s = .ok k') :
    (∀ j, j ≠ i → k'.procs j = k.procs j) ∧ k'.phys.mem = s.mem ∧
      freePages L (q * 4096) 2 s.alloc = .ok k'.phys.alloc := by
  obtain ⟨s', hrun, rfl⟩ := resetProcess_some hreset
  refine ⟨setProc_others k i .unused s', ?_⟩
  rw [hbare.release hq] at hrun
  unfold Phys.withAlloc at hrun
  cases hfree : freePages L (q * 4096) 2 s.alloc with
  | error e =>
      rw [hfree] at hrun
      cases hrun
  | ok a =>
      rw [hfree] at hrun
      cases hrun
      exact ⟨rfl, rfl⟩

/-- Giving back a space that was built. -/
theorem Rooted.reset (hroot : Rooted L k i r v s) {proc : Process} (huser : proc.isUser = true)
    (hsatp : proc.satp = vmMakeSatp (r * 4096)) (hvmas : proc.vmas = v)
    (hbase : proc.userStackBase = 0x3fffe000) (hpages : proc.userStackPages = 2)
    (hreset : resetProcess L k i proc s = .ok k') :
    (∀ j, j ≠ i → k'.procs j = k.procs j) ∧
      Local (Function.update (tableRoots k.procs k.kernelPage) (some i) (some r)) i s k'.phys := by
  obtain ⟨s', hrun, rfl⟩ := resetProcess_some hreset
  refine ⟨setProc_others k i .unused s', ?_⟩
  have hrootPage : rootPage proc.satp = r := by
    rw [hsatp]
    exact rootPage_vmMakeSatp hroot.page_lt
  have hnonzero : proc.satp ≠ 0 := by
    rw [hsatp]
    exact vmMakeSatp_ne_zero _
  have hdrop := procVmRelease_drop hroot.inv (Function.update_self ..) huser hrootPage hnonzero
    (by rw [Function.update_self]; exact hvmas) hbase hpages (Nat.zero_le 1) fun _ _ => rfl
  rw [hrun] at hdrop
  exact hdrop.2.1

theorem roots_others (k : Kernel) (i : Fin procMax) (root : Option Nat) :
    ∀ j, j ≠ i → tableRoots k.procs k.kernelPage (some j) =
      Function.update (tableRoots k.procs k.kernelPage) (some i) root (some j) := by
  intro j hj
  exact (Function.update_of_ne (fun heq => hj (Option.some.inj heq)) ..).symm

/-- The stack is allocated and the tables are built, or given back. -/
theorem KernelInv.spared_build (h : KernelInv L k) (hal : Allocated L q 2 k.phys s)
    (hquiet : Quiet L (tableRoots k.procs k.kernelPage) s s₁) :
    Spared (tableRoots k.procs k.kernelPage) i items k.phys s₁ :=
  (h.mm.spared_alloc hal).before ((h.reserve hal).inv.spared_quiet hquiet)

/-- The construction did not get past the tables. -/
theorem BareProc.spared {proc : Process} (hbare : BareProc q proc) (h : KernelInv L k)
    (hal : Allocated L q 2 k.phys s) (hquiet : Quiet L (tableRoots k.procs k.kernelPage) s s₁)
    (hreset : resetProcess L k i proc s₁ = .ok k') :
    (∀ j, j ≠ i → k'.procs j = k.procs j) ∧
      Spared (tableRoots k.procs k.kernelPage) i items k.phys k'.phys := by
  have hq : q ≠ 0 := managed_ne_zero (hal.managed q ⟨le_refl q, by omega⟩)
  obtain ⟨hprocs, hmem, -⟩ := hbare.reset hq hreset
  refine ⟨hprocs, (h.spared_build hal hquiet).after ?_⟩
  apply Spared.of_same <;> intros <;> rw [hmem]

/-- Sharing the pages of the parent. -/
theorem ForkSpace.spared_clone {done : Bool} (hspace : ForkSpace L k p i q r s s₁)
    (hcloned : Cloned L (Function.update (tableRoots k.procs k.kernelPage) (some i) (some r)) p i
      (rootPage (k.procs p).satp) r (cowItems (k.procs p).vmas) done s₁ s₂) :
    Spared (Function.update (tableRoots k.procs k.kernelPage) (some i) (some r)) i
      (parentItems p (k.procs p).vmas) s₁ s₂ := by
  have hv : (k.procs p).vmas = Function.update (tableVmas k.procs) i (k.procs p).vmas p := by
    rw [Function.update_of_ne hspace.ne]
    rfl
  apply hcloned.spared hv hspace.rooted.inv _ (Function.update_self ..)
  rw [← roots_others k i (some r) p hspace.ne]
  exact tableRoots_user hspace.user

/-- What `create_user_process` leaves of the processes that were there. -/
theorem CreateCase.spared {result : Option (Fin procMax)} (h : KernelInv L k)
    (hcase : CreateCase L k (.ok (result, k'))) :
    k' = k ∨ ∃ c, allocProcessSlot k.procs = some c ∧ (∀ j, j ≠ c → k'.procs j = k.procs j) ∧
      Spared (tableRoots k.procs k.kernelPage) c noItems k.phys k'.phys := by
  cases hcase with
  | noSlot hslot => exact Or.inl rfl
  | noStack hslot hres => exact Or.inr ⟨_, hslot, setProc_others k _ .unused k.phys, Spared.refl _⟩
  | noSpace hslot halloc hal hquiet hleak hbare hkept hreset =>
      exact Or.inr ⟨_, hslot, hbare.spared h hal hquiet hreset⟩
  | created hslot hal hquiet hkept hfresh =>
      exact Or.inr ⟨_, hslot, setProc_others k _ _ _, h.spared_build hal hquiet⟩

/-- What `proc_fork` leaves of the processes that were there, whether it succeeds or not. -/
theorem ForkCase.spared {result : Option Int} (h : KernelInv L k)
    (hcase : ForkCase L k p (.ok (result, k'))) :
    k' = k ∨ ∃ c, allocProcessSlot k.procs = some c ∧ (∀ j, j ≠ c → k'.procs j = k.procs j) ∧
      Spared (tableRoots k.procs k.kernelPage) c (parentItems p (k.procs p).vmas) k.phys k'.phys := by
  cases hcase with
  | refused hno => exact Or.inl rfl
  | noStack hslot hres => exact Or.inr ⟨_, hslot, setProc_others k _ .unused k.phys, Spared.refl _⟩
  | noSpace hslot halloc hal hquiet hleak hbare hkept hreset =>
      exact Or.inr ⟨_, hslot, hbare.spared h hal hquiet hreset⟩
  | badStack hspace hchild hkept hreset =>
      obtain ⟨hprocs, hloc⟩ := hspace.rooted.reset hchild.user hchild.satp hchild.vmas hchild.base
        hchild.pages hreset
      refine Or.inr ⟨_, hspace.slot, hprocs, ?_⟩
      apply (h.spared_build hspace.alloc hspace.quiet).after
      exact hloc.spared.congr_roots (roots_others k _ _)
  | @notCloned c q r s s₁ s₂ child k' hspace hchild hcloned hrooted hkept hreset =>
      obtain ⟨hprocs, hloc⟩ := hrooted.reset hchild.user hchild.satp hchild.vmas hchild.base
        hchild.pages hreset
      refine Or.inr ⟨c, hspace.slot, hprocs, ?_⟩
      have hshared := (hspace.spared_clone hcloned).congr_roots (roots_others k c _)
      have hgiven : Spared _ c noItems s₂ k'.phys := hloc.spared
      apply ((h.spared_build hspace.alloc hspace.quiet).before hshared).after
      exact hgiven.congr_roots (roots_others k c _)
  | @forked c q r s s₁ s₂ child hspace hchild hcloned hrooted hkept =>
      refine Or.inr ⟨c, hspace.slot, setProc_others k c _ _, ?_⟩
      have hshared := (hspace.spared_clone hcloned).congr_roots (roots_others k c _)
      exact (h.spared_build hspace.alloc hspace.quiet).before hshared

end Construct

end Sugimotos.Proc
