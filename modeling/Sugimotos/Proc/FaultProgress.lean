/-
# Page faults make progress

After `proc_handle_user_page_fault` returned zero the hardware must accept the access, or the
same instruction faults for ever.  The handler goes by the protection of the VMA and by the
permission bits it reads back; the hardware also refuses entries that can be written and not
read.  `proc_mmap` admits such protections.
-/

import Sugimotos.Mm.GiveBack
import Sugimotos.Proc.KernelRun

namespace Sugimotos.Proc

open Sugimotos.Math Sugimotos.Mm

variable {L : Layout} {k : Kernel} {i : Fin procMax} {sum : Bool} {access : Nat} {s' : Phys}

/-- What a page fault at `va` must have done: after success user mode can make the access, after
failure the page tables and the counts are as before. -/
def FaultProgress (L : Layout) (k : Kernel) (i : Fin procMax) (va access : Nat) :
    Except Stop (Bool × Phys) → Prop
  | .ok (true, s') => (userTranslate (k.procs i).satp va access s').isSome = true
  | .ok (false, s') => SameTables (tableRoots k.procs k.kernelPage) k.phys.mem s'.mem ∧
      ∀ p, L.Managed p → refcntOf L s'.alloc p = refcntOf L k.phys.alloc p
  | .error _ => True

/-- The VMA that covers a page and allows the access. -/
def Allows (k : Kernel) (i : Fin procMax) (vpn access prot : Nat) : Prop :=
  (access = vmaProtX ∨ access = vmaProtR ∨ access = vmaProtW) ∧
    ∃ j, ((k.procs i).vmas j).Covers vpn ∧ ((k.procs i).vmas j).prot = prot ∧ prot &&& access = access

/-- Nothing is mapped, or a shared page that has to be copied, and there is memory for it. -/
structure GetsPage (L : Layout) (k : Kernel) (i : Fin procMax) (vpn access : Nat) : Prop where
  entry : walk k.phys.mem (rootPage (k.procs i).satp) vpn = none ∨
    ∃ leaf, walk k.phys.mem (rootPage (k.procs i).satp) vpn = some leaf ∧ access = vmaProtW ∧
      leaf.perm &&& pteW = 0
  page : reservePages 1 k.phys.alloc ≠ none
  table : tableAt k.phys.mem (rootPage (k.procs i).satp) (vpn / 1024) = none →
    reservePages 1 (allocPagesTry L 1 k.phys).2.alloc ≠ none

/-- The entry of a page that may be written and not read has `W`, or gets it. -/
structure WriteOnly (L : Layout) (k : Kernel) (i : Fin procMax) (vpn access : Nat) : Prop where
  user : (k.procs i).isUser = true
  vma : ∃ prot, Allows k i vpn access prot ∧ prot &&& vmaProtW ≠ 0 ∧ prot &&& vmaProtR = 0
  entry : (∃ leaf, walk k.phys.mem (rootPage (k.procs i).satp) vpn = some leaf ∧
    leaf.perm &&& pteW ≠ 0) ∨ GetsPage L k i vpn access

/-- There is a page but no second-level table, and no list node to give the page back. -/
structure LosesPage (L : Layout) (k : Kernel) (i : Fin procMax) (vpn access : Nat) : Prop where
  user : (k.procs i).isUser = true
  vma : ∃ prot, Allows k i vpn access prot
  entry : walk k.phys.mem (rootPage (k.procs i).satp) vpn = none
  table : tableAt k.phys.mem (rootPage (k.procs i).satp) (vpn / 1024) = none
  last : ∃ q s₁, allocPagesTry L 1 k.phys = (some (q * 4096), s₁) ∧
    reservePages 1 s₁.alloc = none ∧ allocRunNode s₁.alloc = none

/-! ## Entries -/

theorem protToQueryBits_new {prot access : Nat} (hlt : prot < 8)
    (hkind : access = vmaProtX ∨ access = vmaProtR ∨ access = vmaProtW)
    (hprot : prot &&& access = access) :
    (2 * prot + 16) &&& protToQueryBits access = protToQueryBits access := by
  rcases hkind with rfl | rfl | rfl <;> interval_cases prot <;> revert hprot <;> decide

/-- The hardware refuses an entry with `W` exactly where the VMA does not allow reading. -/
theorem reserved_iff {prot : Nat} {leaf : Leaf} (hlt : prot < 8)
    (hperm : leaf.perm = 2 * prot + 16 ∨ leaf.perm = 2 * cowProt prot + 16)
    (hset : leaf.perm &&& pteW ≠ 0) :
    leaf.reserved = true ↔ prot &&& vmaProtW ≠ 0 ∧ prot &&& vmaProtR = 0 := by
  unfold Leaf.reserved
  rw [decide_eq_true_iff]
  generalize leaf.perm = perm at hperm hset
  rcases hperm with rfl | rfl <;> interval_cases prot <;> revert hset <;> decide

theorem not_reserved_of_shared {leaf : Leaf} (hW : leaf.perm &&& pteW = 0) :
    ¬ leaf.reserved = true := by
  unfold Leaf.reserved
  rw [decide_eq_true_iff]
  exact fun h => h.1 hW

theorem hwWalk_of_walk {mem : Memory} {r vpn : Nat} {leaf : Leaf}
    (hwalk : walk mem r vpn = some leaf) :
    hwWalk mem r vpn = if leaf.reserved then none else some leaf := by
  unfold hwWalk
  rw [hwalk]
  cases hres : leaf.reserved with
  | false => simp [Option.filter, hres]
  | true => simp [Option.filter, hres]

/-- Only pages of the window may be forbidden to be read. -/
theorem VmaInv.writeOnly_window {v : Vmas} (h : VmaInv L v) {j : Fin procVmaMax} {vpn : Nat}
    (hcov : (v j).Covers vpn) (hR : (v j).prot &&& vmaProtR = 0) : windowPage vpn := by
  cases h.region hcov with
  | window hw hpos hlt => exact hw
  | stack hs hprot =>
      rw [hprot] at hR
      cases hR
  | data hd hprot =>
      rw [hprot] at hR
      cases hR
  | fixed hw hs hd hprot hleaf => rcases hprot with hprot | hprot <;> rw [hprot] at hR <;> cases hR

/-! ## The handler -/

theorem Allows.unique (h : KernelInv L k) (huser : (k.procs i).isUser = true) {vpn prot : Nat}
    (hallows : Allows k i vpn access prot) {j : Fin procVmaMax}
    (hcov : ((k.procs i).vmas j).Covers vpn) : ((k.procs i).vmas j).prot = prot := by
  obtain ⟨-, j', hcov', hprot, -⟩ := hallows
  rw [(h.vma huser).covers_unique hcov hcov']
  exact hprot

theorem Allows.of_covers {vpn : Nat} {j : Fin procVmaMax}
    (hkind : access = vmaProtX ∨ access = vmaProtR ∨ access = vmaProtW)
    (hcov : ((k.procs i).vmas j).Covers vpn)
    (hprot : ((k.procs i).vmas j).prot &&& access = access) :
    Allows k i vpn access ((k.procs i).vmas j).prot :=
  ⟨hkind, j, hcov, rfl, hprot⟩

theorem WriteOnly.prot {vpn : Nat} (hbad : WriteOnly L k i vpn access) (h : KernelInv L k)
    {j : Fin procVmaMax} (hcov : ((k.procs i).vmas j).Covers vpn) :
    ((k.procs i).vmas j).prot &&& vmaProtW ≠ 0 ∧ ((k.procs i).vmas j).prot &&& vmaProtR = 0 := by
  obtain ⟨prot, hallows, hW, hR⟩ := hbad.vma
  rw [hallows.unique h hbad.user hcov]
  exact ⟨hW, hR⟩

/-- A new entry with the protection of the VMA. -/
theorem newLeaf_reserved {prot : Nat} {leaf : Leaf} (hlt : prot < 8)
    (hperm : leaf.perm = 2 * prot + 16) :
    leaf.reserved = true ↔ prot &&& vmaProtW ≠ 0 ∧ prot &&& vmaProtR = 0 := by
  unfold Leaf.reserved
  rw [decide_eq_true_iff, hperm]
  interval_cases prot <;> decide

/-- The entry after success: user mode has every permission it asked for, and the hardware
refuses the entry exactly if it can be written and not read. -/
theorem KernelInv.fault_granted (h : KernelInv L k) (huser : (k.procs i).isUser = true)
    (hkind : access = vmaProtX ∨ access = vmaProtR ∨ access = vmaProtW) {vpn : Nat}
    (hvpn : vpn < 1048576)
    (hcase : FaultCase L (tableRoots k.procs k.kernelPage) (fun _ => 0) (tableVmas k.procs)
      k.kernelPage sum i (rootPage (k.procs i).satp) vpn access k.phys (.ok (true, s'))) :
    ∃ leaf, walk s'.mem (rootPage (k.procs i).satp) vpn = some leaf ∧ leaf.perm &&& pteU ≠ 0 ∧
      leaf.perm &&& protToQueryBits access = protToQueryBits access ∧
      (leaf.reserved = true ↔ WriteOnly L k i vpn access) := by
  have hr := tableRoots_user huser
  cases hcase with
  | @present j leaf hcov hprot hwalk hbits =>
      have hlt := ((h.vma huser).region hcov).prot_lt.2
      have hperm := (h.mm.leaf_perm hr hvpn hwalk hcov).1
      refine ⟨leaf, hwalk, h.mm.leaf_user hr hvpn hwalk hcov, hbits, ?_⟩
      by_cases hset : leaf.perm &&& pteW = 0
      · refine iff_of_false (not_reserved_of_shared hset) fun hbad => ?_
        rcases hbad.entry with ⟨leaf', hwalk', hset'⟩ | hgets
        · rw [hwalk] at hwalk'
          cases hwalk'
          exact hset' hset
        · -- the page would be copied for a write, but the entry allows the write already
          rcases hgets.entry with hnone | ⟨leaf', hwalk', rfl, -⟩
          · rw [hwalk] at hnone
            cases hnone
          · exact write_of_bits hbits hset
      · rw [reserved_iff hlt hperm hset]
        constructor
        · rintro ⟨hW, hR⟩
          exact ⟨huser, ⟨_, .of_covers hkind hcov hprot, hW, hR⟩, Or.inl ⟨leaf, hwalk, hset⟩⟩
        · intro hbad
          exact hbad.prot h hcov
  | @mapped j leaf _ hcov hprot hold hperm hres htable hresolved hinv =>
      have hlt := ((h.vma huser).region hcov).prot_lt.2
      refine ⟨leaf, ?_, ?_, ?_, ?_⟩
      · rw [hresolved.walk hr hvpn, if_pos ⟨rfl, rfl⟩]
      · rw [hperm]
        exact userPerm_user hlt
      · rw [hperm]
        exact protToQueryBits_new hlt hkind hprot
      · rw [newLeaf_reserved hlt hperm]
        constructor
        · rintro ⟨hW, hR⟩
          exact ⟨huser, ⟨_, .of_covers hkind hcov hprot, hW, hR⟩, Or.inr ⟨hold, hres, htable⟩⟩
        · intro hbad
          exact hbad.prot h hcov

/-- A failure, or a handler that does not come back, is not about an entry that can be written
and not read. -/
theorem KernelInv.fault_not_writeOnly (h : KernelInv L k) {vpn : Nat} (hvpn : vpn < 1048576)
    {out : Except Stop (Bool × Phys)} (hout : ∀ s', out ≠ .ok (true, s'))
    (hcase : FaultCase L (tableRoots k.procs k.kernelPage) (fun _ => 0) (tableVmas k.procs)
      k.kernelPage sum i (rootPage (k.procs i).satp) vpn access k.phys out) :
    ¬ WriteOnly L k i vpn access := by
  intro hbad
  obtain ⟨prot, ⟨hkind, j, hcov, hprotj, hallow⟩, hw, hr⟩ := hbad.vma
  rw [← hprotj] at hallow hw hr
  cases hcase with
  | refused hno =>
      rcases hno with ⟨hX, hR, hW⟩ | hno
      · tauto
      · exact hno j hcov hallow
  | present hcov' hprot hwalk hbits => exact hout _ rfl
  | exhausted hcov' hprot hold hres =>
      rcases hbad.entry with ⟨leaf, hwalk, hW⟩ | hgets
      · rcases hold with hnone | ⟨leaf', hwalk', -, hW'⟩
        · rw [hwalk] at hnone
          cases hnone
        · rw [hwalk] at hwalk'
          cases hwalk'
          exact hW hW'
      · exact hgets.page hres
  | noTable hcov' hprot hwalk htable hal halloc hres hfree hdrop hinv =>
      rcases hbad.entry with ⟨leaf, hwalk', hW⟩ | hgets
      · rw [hwalk] at hwalk'
        cases hwalk'
      · have hroom := hgets.table htable
        rw [halloc] at hroom
        exact hroom hres
  | mapped hcov' hprot hold hperm hres htable hresolved hinv => exact hout _ rfl
  | @loop j' leaf hcov' hprot hsum haccess hwalk hshared hm hres =>
      -- a page of the window is managed
      have hfits := h.mm.fits (tableRoots_user hbad.user) hvpn hwalk
      rw [leafFits_window ((h.vma hbad.user).writeOnly_window hcov hr)] at hfits
      exact hm hfits.managed

/-- What a failure leaves. -/
theorem KernelInv.fault_failed (h : KernelInv L k) (huser : (k.procs i).isUser = true)
    (hkind : access = vmaProtX ∨ access = vmaProtR ∨ access = vmaProtW) {vpn : Nat}
    (hcase : FaultCase L (tableRoots k.procs k.kernelPage) (fun _ => 0) (tableVmas k.procs)
      k.kernelPage sum i (rootPage (k.procs i).satp) vpn access k.phys (.ok (false, s'))) :
    (SameTables (tableRoots k.procs k.kernelPage) k.phys.mem s'.mem ∧
      ∀ p, L.Managed p → refcntOf L s'.alloc p = refcntOf L k.phys.alloc p) ↔
      ¬ LosesPage L k i vpn access := by
  have hnothing : s' = k.phys → ¬ LosesPage L k i vpn access →
      ((SameTables (tableRoots k.procs k.kernelPage) k.phys.mem s'.mem ∧
        ∀ p, L.Managed p → refcntOf L s'.alloc p = refcntOf L k.phys.alloc p) ↔
        ¬ LosesPage L k i vpn access) := by
    rintro rfl hno
    exact iff_of_true ⟨fun _ _ _ => ⟨rfl, fun _ _ _ _ => rfl⟩, fun _ _ => rfl⟩ hno
  cases hcase with
  | refused hno =>
      apply hnothing rfl
      intro hloses
      obtain ⟨prot, hallowed, j, hcov, hprotj, hallow⟩ := hloses.vma
      rw [← hprotj] at hallow
      rcases hno with ⟨hX, hR, hW⟩ | hno
      · tauto
      · exact hno j hcov hallow
  | exhausted hcov hprot hold hres =>
      apply hnothing rfl
      intro hloses
      obtain ⟨q, s₁, halloc, -⟩ := hloses.last
      obtain ⟨q', -, hal⟩ := allocPagesTry_some h.mm.vm.alloc (by decide) halloc
      exact hal.reserved hres
  | @noTable j q s₁ a' hcov hprot hwalk htable hal halloc hres hfree hdrop hinv =>
      have hin : inBlock q 1 q := by
        unfold inBlock
        omega
      have hm := hal.managed q hin
      have hlist := freeRuns_of_exhausted hal.inv hres
      rw [freePages_page hal.inv hm (by rw [hal.one hin]; decide)] at hfree
      rcases (dropRef_freed hal.inv hm (hal.one hin) hfree).empty hlist with
        ⟨hno, hsame⟩ | ⟨n, a, hsome, hback, -, -⟩
      · refine iff_of_false ?_ ?_
        · rintro ⟨-, hcount⟩
          have hq := hcount q hm
          change refcntOf L a' q = _ at hq
          rw [hsame, hal.one hin, hal.wasFree q hin] at hq
          cases hq
        · rw [not_not]
          exact ⟨huser, ⟨_, .of_covers hkind hcov hprot⟩, hwalk, htable, q, s₁, halloc, hres, hno⟩
      · refine iff_of_true ⟨(h.mm.vm.allocate hal).1, fun p hp => ?_⟩ fun hloses => ?_
        · apply hal.undone (fun p hp => ?_) hp
          rw [hback p hp]
          exact if_congr (by unfold inBlock; omega) rfl rfl
        · obtain ⟨q', s₁', halloc', -, hno⟩ := hloses.last
          rw [halloc] at halloc'
          injection halloc' with _ hs
          rw [← hs, hsome] at hno
          cases hno

/-- User mode can make the access exactly where the hardware takes the entry. -/
theorem userTranslate_iff {satp va : Nat} {s : Phys} {leaf : Leaf}
    (hwalk : walk s.mem (rootPage satp) (va / 4096) = some leaf) (hU : leaf.perm &&& pteU ≠ 0)
    (hbits : leaf.perm &&& protToQueryBits access = protToQueryBits access) :
    (userTranslate satp va access s).isSome = true ↔ ¬ leaf.reserved = true := by
  unfold userTranslate
  rw [hwWalk_of_walk hwalk]
  cases leaf.reserved with
  | true => exact iff_of_false Bool.false_ne_true fun h => h rfl
  | false =>
      rw [if_neg Bool.false_ne_true]
      dsimp only
      rw [if_pos ⟨hU, hbits⟩]
      exact iff_of_true rfl Bool.false_ne_true

/-- A fault that is resolved, or that does not come back, leaves no page behind. -/
theorem KernelInv.fault_not_loses {vpn : Nat} {out : Except Stop (Bool × Phys)}
    (hout : ∀ s', out ≠ .ok (false, s'))
    (hcase : FaultCase L (tableRoots k.procs k.kernelPage) (fun _ => 0) (tableVmas k.procs)
      k.kernelPage sum i (rootPage (k.procs i).satp) vpn access k.phys out) :
    ¬ LosesPage L k i vpn access := by
  intro hloses
  have hentry := hloses.entry
  cases hcase with
  | refused => exact hout _ rfl
  | exhausted => exact hout _ rfl
  | noTable => exact hout _ rfl
  | present hcov hprot hwalk hbits =>
      rw [hwalk] at hentry
      cases hentry
  | mapped hcov hprot hold hperm hres htable hresolved hinv =>
      obtain ⟨q, s₁, halloc, hnone, -⟩ := hloses.last
      have hroom := htable hloses.table
      rw [halloc] at hroom
      exact hroom hnone
  | loop hcov hprot hsum haccess hwalk hshared hm hres =>
      rw [hwalk] at hentry
      cases hentry

/-- What is no process of users, or no kind of access, is refused. -/
theorem procHandleUserPageFault_refused {proc : Process} {addr : Nat} {s : Phys}
    (hno : proc.isUser = true →
      ¬ (access = vmaProtX ∨ access = vmaProtR ∨ access = vmaProtW)) :
    procHandleUserPageFault L sum proc addr access s = .ok (false, s) := by
  unfold procHandleUserPageFault
  by_cases huser : proc.isUser = true
  · have hkind := hno huser
    rw [if_neg (not_not.mpr huser), if_pos (by tauto)]
  · rw [if_pos huser]

/-- A page fault of any process makes progress exactly where no entry is written and not read,
and no page is lost. -/
theorem KernelInv.fault_iff (h : KernelInv L k) (i : Fin procMax) (sum : Bool) (addr : UInt32)
    (access : Nat) :
    FaultProgress L k i addr.toNat access
        (procHandleUserPageFault L sum (k.procs i) addr.toNat access k.phys) ↔
      ¬ WriteOnly L k i (addr.toNat / 4096) access ∧ ¬ LosesPage L k i (addr.toNat / 4096) access := by
  have haddr := addr.toNat_lt
  by_cases hknown : (k.procs i).isUser = true ∧
      (access = vmaProtX ∨ access = vmaProtR ∨ access = vmaProtW)
  · obtain ⟨huser, hkind⟩ := hknown
    have hvpn : addr.toNat / 4096 < 1048576 := by omega
    have hcase := h.fault huser sum access haddr
    cases hout : procHandleUserPageFault L sum (k.procs i) addr.toNat access k.phys with
    | error e =>
        rw [hout] at hcase
        exact iff_of_true trivial ⟨h.fault_not_writeOnly hvpn (by intro _ h; cases h) hcase,
          KernelInv.fault_not_loses (by intro _ h; cases h) hcase⟩
    | ok r =>
        obtain ⟨ok, s'⟩ := r
        rw [hout] at hcase
        cases ok with
        | true =>
            obtain ⟨leaf, hwalk, hU, hbits, hres⟩ := h.fault_granted huser hkind hvpn hcase
            have hloses := KernelInv.fault_not_loses (by intro _ h; cases h) hcase
            change (userTranslate (k.procs i).satp addr.toNat access s').isSome = true ↔ _
            rw [userTranslate_iff hwalk hU hbits, hres]
            exact ⟨fun hno => ⟨hno, hloses⟩, fun hboth => hboth.1⟩
        | false =>
            have hwrite := h.fault_not_writeOnly hvpn (by intro _ h; cases h) hcase
            have hfailed := h.fault_failed huser hkind hcase
            exact ⟨fun hsame => ⟨hwrite, hfailed.mp hsame⟩, fun hboth => hfailed.mpr hboth.2⟩
  · rw [procHandleUserPageFault_refused fun huser hkind => hknown ⟨huser, hkind⟩]
    apply iff_of_true
    · exact ⟨fun _ _ _ => ⟨rfl, fun _ _ _ _ => rfl⟩, fun _ _ => rfl⟩
    · constructor
      · intro hbad
        obtain ⟨prot, hallows, -⟩ := hbad.vma
        exact hknown ⟨hbad.user, hallows.1⟩
      · intro hloses
        obtain ⟨prot, hallows⟩ := hloses.vma
        exact hknown ⟨hloses.user, hallows.1⟩

/-! ## Copies of the kernel -/

theorem kernelTranslate_isSome {satp va : Nat} {s : Phys} {leaf : Leaf}
    (hwalk : walk s.mem (rootPage satp) (va / 4096) = some leaf) :
    (kernelTranslate satp va access s).isSome = true ↔
      ¬ leaf.reserved = true ∧ leaf.perm &&& protToQueryBits access = protToQueryBits access := by
  unfold kernelTranslate
  rw [hwWalk_of_walk hwalk]
  cases leaf.reserved with
  | true => exact iff_of_false Bool.false_ne_true fun h => h.1 rfl
  | false =>
      rw [if_neg Bool.false_ne_true]
      dsimp only
      by_cases hbits : leaf.perm &&& protToQueryBits access = protToQueryBits access
      · rw [if_pos hbits]
        exact iff_of_true rfl ⟨Bool.false_ne_true, hbits⟩
      · rw [if_neg hbits]
        exact iff_of_false Bool.false_ne_true fun h => hbits h.2

/-- The kernel is refused what is written and not read. -/
theorem WriteOnly.refused {vpn va : Nat} (hbad : WriteOnly L k i vpn access) (h : KernelInv L k)
    (hva : va / 4096 = vpn) (hvpn : vpn < 1048576) :
    kernelTranslate (k.procs i).satp va access k.phys = none := by
  subst hva
  have hr := tableRoots_user hbad.user
  obtain ⟨prot, ⟨hkind, j, hcov, hprotj, hallow⟩, hW, hR⟩ := hbad.vma
  have hlt := ((h.vma hbad.user).region hcov).prot_lt.2
  rcases hbad.entry with ⟨leaf, hwalk, hset⟩ | hgets
  · have hperm := (h.mm.leaf_perm hr hvpn hwalk hcov).1
    have hres : leaf.reserved = true := by
      apply (reserved_iff hlt hperm hset).mpr
      rw [hprotj]
      exact ⟨hW, hR⟩
    exact Option.not_isSome_iff_eq_none.mp fun h => (kernelTranslate_isSome hwalk).mp h |>.1 hres
  · rcases hgets.entry with hnone | ⟨leaf, hwalk, rfl, hclear⟩
    · unfold kernelTranslate hwWalk
      rw [hnone]
      rfl
    · exact Option.not_isSome_iff_eq_none.mp fun h =>
        write_of_bits ((kernelTranslate_isSome hwalk).mp h).2 hclear

/-- An access of the kernel faults for ever exactly at an entry that is written and not read. -/
theorem KernelInv.touch_loops_iff (h : KernelInv L k) (hcur : k.currentProc = some i)
    (huser : (k.procs i).isUser = true) (addr : UInt32) (access : Nat) :
    (∃ touched, touch L access addr.toNat k = .error (.stop .faultLoop touched)) ↔
      WriteOnly L k i (addr.toNat / 4096) access := by
  have haddr := addr.toNat_lt
  have hvpn : addr.toNat / 4096 < 1048576 := by omega
  have hcase := h.fault huser true access haddr
  unfold touch
  rw [hcur]
  dsimp only
  cases hfirst : kernelTranslate (k.procs i).satp addr.toNat access k.phys with
  | some pa =>
      apply iff_of_false
      · rintro ⟨_, hloop⟩
        cases hloop
      · intro hbad
        rw [hbad.refused h rfl hvpn] at hfirst
        cases hfirst
  | none =>
      dsimp only
      rw [if_neg (not_not.mpr huser)]
      cases hout : procHandleUserPageFault L true (k.procs i) addr.toNat access k.phys with
      | error e =>
          rw [hout] at hcase
          cases hcase with
          | loop hcov hprot hsum => cases hsum
      | ok r =>
          obtain ⟨ok, s'⟩ := r
          rw [hout] at hcase
          cases ok with
          | false =>
              apply iff_of_false
              · rintro ⟨_, hloop⟩
                cases hloop
              · exact h.fault_not_writeOnly hvpn (by intro _ h; cases h) hcase
          | true =>
              have hkind : access = vmaProtX ∨ access = vmaProtR ∨ access = vmaProtW := by
                by_contra hno
                rw [procHandleUserPageFault_refused fun _ => hno] at hout
                cases hout
              obtain ⟨leaf, hwalk, -, hbits, hres⟩ := h.fault_granted huser hkind hvpn hcase
              rw [← hres]
              dsimp only
              cases hsecond : kernelTranslate (k.procs i).satp addr.toNat access s' with
              | some pa =>
                  apply iff_of_false
                  · rintro ⟨_, hloop⟩
                    cases hloop
                  · exact ((kernelTranslate_isSome hwalk).mp (by rw [hsecond]; rfl)).1
              | none =>
                  apply iff_of_true
                  · exact ⟨_, rfl⟩
                  · by_contra hno
                    have hsome := (kernelTranslate_isSome hwalk).mpr ⟨hno, hbits⟩
                    rw [hsecond] at hsome
                    cases hsome

/-- In every reachable state a page fault makes progress exactly where no entry is written and
not read and no page is lost; the accesses of the kernel come to an end wherever the first
of these holds. -/
theorem page_fault_progress_iff (hk : Reachable L k) (i : Fin procMax) (sum : Bool) (addr : UInt32)
    (access : Nat) :
    (FaultProgress L k i addr.toNat access
        (procHandleUserPageFault L sum (k.procs i) addr.toNat access k.phys) ↔
      ¬ WriteOnly L k i (addr.toNat / 4096) access ∧
        ¬ LosesPage L k i (addr.toNat / 4096) access) ∧
    (k.currentProc = some i → (k.procs i).isUser = true →
      ((∀ touched, touch L access addr.toNat k ≠ .error (.stop .faultLoop touched)) ↔
        ¬ WriteOnly L k i (addr.toNat / 4096) access)) := by
  have h := hk.inv
  refine ⟨h.fault_iff i sum addr access, fun hcur huser => ?_⟩
  exact not_exists.symm.trans (not_congr (h.touch_loops_iff hcur huser addr access))

/-- A page that is mapped to be read and written. -/
def readWriteOps : List Op :=
  [.createUserProcess smallEntry, .switchTo 1, .mmap 0x20000000 0x1000 3 0]

theorem page_fault_progress_mapped :
    ∃ k, smallRun readWriteOps = some k ∧
      (FaultProgress smallLayout k 1 (0x20000000 : UInt32).toNat vmaProtW
          (procHandleUserPageFault smallLayout false (k.procs 1) (0x20000000 : UInt32).toNat vmaProtW
            k.phys) ↔
        ¬ WriteOnly smallLayout k 1 ((0x20000000 : UInt32).toNat / 4096) vmaProtW ∧
          ¬ LosesPage smallLayout k 1 ((0x20000000 : UInt32).toNat / 4096) vmaProtW) ∧
      ((∀ touched, touch smallLayout vmaProtW (0x20000000 : UInt32).toNat k ≠
          .error (.stop .faultLoop touched)) ↔
        ¬ WriteOnly smallLayout k 1 ((0x20000000 : UInt32).toNat / 4096) vmaProtW) := by
  have hrun : (smallRun readWriteOps).any (fun k =>
      decide (k.currentProc = some 1) && (k.procs 1).isUser) = true := by
    decide +kernel
  obtain ⟨k, hk, hboth⟩ := (Option.any_eq_true _ _).mp hrun
  obtain ⟨hcur, huser⟩ := Bool.and_eq_true_iff.mp hboth
  have hprogress := page_fault_progress_iff (smallRun_reachable hk) 1 false 0x20000000 vmaProtW
  exact ⟨k, hk, hprogress.1, hprogress.2 (of_decide_eq_true hcur) huser⟩

/-- A page that is mapped to be written only. -/
def writeOnlyOps : List Op :=
  [.createUserProcess smallEntry, .switchTo 1, .mmap 0x20000000 0x1000 2 0]

/-- The first page fault on it succeeds, and user mode still cannot write there. -/
theorem page_fault_stuck : ¬ ∀ (L : Layout) (k : Kernel) (i : Fin procMax) (sum : Bool)
    (addr : UInt32) (access : Nat), Reachable L k →
    (access = vmaProtX ∨ access = vmaProtR ∨ access = vmaProtW) →
    FaultProgress L k i addr.toNat access
      (procHandleUserPageFault L sum (k.procs i) addr.toNat access k.phys) := by
  intro hall
  have hrun : (smallRun writeOnlyOps).any (fun k =>
      (procHandleUserPageFault smallLayout false (k.procs 1) 0x20000000 vmaProtW
        k.phys).toOption.any fun out => out.1 &&
          decide (userTranslate (k.procs 1).satp 0x20000000 vmaProtW out.2 = none)) = true := by
    decide +kernel
  obtain ⟨k, hk, hstuck⟩ := (Option.any_eq_true _ _).mp hrun
  obtain ⟨⟨ok, s'⟩, hout, hvals⟩ := ok_of_any hstuck
  rw [Bool.and_eq_true, decide_eq_true_iff] at hvals
  obtain ⟨hok, hnone⟩ := hvals
  dsimp only at hok hnone
  have hprogress := hall smallLayout k 1 false 0x20000000 vmaProtW (smallRun_reachable hk)
    (Or.inr (Or.inr rfl))
  have haddr : (0x20000000 : UInt32).toNat = 0x20000000 := rfl
  rw [haddr, hout, hok] at hprogress
  have hsome : (userTranslate (k.procs 1).satp 0x20000000 vmaProtW s').isSome = true := hprogress
  rw [hnone] at hsome
  cases hsome

end Sugimotos.Proc
