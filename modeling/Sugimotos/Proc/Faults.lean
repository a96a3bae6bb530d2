/-
# Page faults

What `proc_handle_user_page_fault` can do in a state that satisfies `MmInv`.
`FaultCase` lists its outcomes together with what made it end that way; every
later fact about page faults is read off this list.
-/

import Sugimotos.Proc.MmInv

namespace Sugimotos.Proc

open Sugimotos.Math Sugimotos.Mm

variable {L : Layout} {roots : Space → Option Nat} {held : Nat → Nat}
  {vmas : Fin procMax → Vmas} {kr : Nat} {s s' : Phys}

/-! ## VMAs and translations -/

theorem procFindVmaIndex_some {v : Vmas} {addr : Nat} {i : Fin procVmaMax}
    (h : procFindVmaIndex v addr = some i) :
    (v i).used = true ∧ (v i).start ≤ addr ∧ addr < (v i).stop := by
  have := List.find?_some h
  simp only [Bool.and_eq_true, decide_eq_true_eq] at this
  exact ⟨this.1.1, this.1.2, this.2⟩

theorem procFindVmaIndex_covers {v : Vmas} {vpn : Nat} {i : Fin procVmaMax}
    (h : procFindVmaIndex v (vpn * 4096) = some i) : (v i).Covers vpn :=
  procFindVmaIndex_some h

/-- Only one VMA holds a page. -/
theorem VmaInv.covers_unique {v : Vmas} (h : VmaInv L v) {i j : Fin procVmaMax} {vpn : Nat}
    (hi : (v i).Covers vpn) (hj : (v j).Covers vpn) : i = j := by
  by_contra hne
  obtain ⟨hused, hlo, hhi⟩ := hi
  obtain ⟨hused', hlo', hhi'⟩ := hj
  rcases h.disjoint hne hused hused' with hsep | hsep <;> omega

/-- The region of a page that a VMA holds.  Outside the window the protection is
that of the section. -/
inductive Region (L : Layout) (vpn prot : Nat) : Prop
  | window (hw : windowPage vpn) (hpos : 0 < prot) (hlt : prot < 8)
  | stack (hs : stackPage vpn) (hprot : prot = 3)
  | data (hd : dataPage L vpn) (hprot : prot = 3)
  | fixed (hw : ¬ windowPage vpn) (hs : ¬ stackPage vpn) (hd : ¬ dataPage L vpn)
      (hprot : prot = 5 ∨ prot = 1) (hleaf : fixedLeaf L vpn = some ⟨vpn, 2 * prot + 16⟩)

theorem VmaInv.region {v : Vmas} (h : VmaInv L v) {i : Fin procVmaMax} {vpn : Nat}
    (hcov : (v i).Covers vpn) : Region L vpn (v i).prot := by
  obtain ⟨h₀, h₁, h₂, h₃, h₄, h₅, h₆, h₇, h₈, h₉, h₁₀⟩ := Layout.order (L := L)
  rcases h.place hcov.1 with ⟨hwin, hpos, hlt⟩ | hstd
  · exact .window (inWindow_page hwin hcov).2 hpos hlt
  obtain ⟨-, hlo, hhi⟩ := hcov
  simp only [standardVmas, List.mem_cons, List.not_mem_nil, or_false] at hstd
  rcases hstd with hv | hv | hv | hv | hv <;> rw [hv] at hlo hhi ⊢ <;> simp only at hlo hhi ⊢
  · refine .fixed ?_ ?_ ?_ (.inl rfl) ?_
    · unfold windowPage inBlock
      omega
    · unfold stackPage inBlock stackVpn
      omega
    · unfold dataPage
      omega
    · rw [fixedLeaf_eq, if_neg (by unfold dataPage; omega), if_neg (by omega),
        if_pos ⟨hlo, hhi⟩]
      rfl
  · refine .fixed ?_ ?_ ?_ (.inr rfl) ?_
    · unfold windowPage inBlock
      omega
    · unfold stackPage inBlock stackVpn
      omega
    · unfold dataPage
      omega
    · rw [fixedLeaf_eq, if_neg (by unfold dataPage; omega), if_pos (by omega)]
      rfl
  · exact .data (.inl ⟨hlo, hhi⟩) rfl
  · exact .data (.inr ⟨hlo, hhi⟩) rfl
  · refine .stack ?_ rfl
    unfold stackPage inBlock stackVpn
    omega

theorem Region.prot_lt {vpn prot : Nat} (h : Region L vpn prot) : 0 < prot ∧ prot < 8 := by
  cases h with
  | window hw hpos hlt => exact ⟨hpos, hlt⟩
  | stack hs hprot => omega
  | data hd hprot => omega
  | fixed hw hs hd hprot hleaf => omega

/-- The translation of a page in a VMA has the protection of the VMA or the one
it is shared under; an unmanaged page is mapped to itself. -/
theorem MmInv.leaf_perm (h : MmInv L roots held vmas kr s) {i : Fin procMax} {r vpn : Nat}
    {leaf : Leaf} (hr : roots (some i) = some r) (hvpn : vpn < 1048576)
    (hwalk : walk s.mem r vpn = some leaf) {j : Fin procVmaMax} (hcov : (vmas i j).Covers vpn) :
    (leaf.perm = 2 * (vmas i j).prot + 16 ∨ leaf.perm = 2 * cowProt (vmas i j).prot + 16) ∧
      (L.Managed leaf.ppn ∨ leaf.ppn = vpn) := by
  have hfits := h.fits hr hvpn hwalk
  cases (h.vma hr).region hcov with
  | window hw hpos hlt =>
      rw [leafFits_window hw] at hfits
      obtain ⟨hm, j', hcov', hperm, -⟩ := hfits
      rw [(h.vma hr).covers_unique hcov' hcov] at hperm
      exact ⟨hperm, .inl hm⟩
  | stack hs hprot =>
      rw [leafFits_stack hs] at hfits
      rw [hprot]
      exact ⟨hfits.2, .inl hfits.1⟩
  | data hd hprot =>
      rw [leafFits_data hd] at hfits
      rw [hprot]
      rcases hfits with ⟨hppn, hperm⟩ | ⟨hm, hperm⟩
      · exact ⟨hperm, .inr hppn⟩
      · exact ⟨.inl hperm, .inl hm⟩
  | fixed hw hs hd hprot hleaf =>
      rw [leafFits_rest hw hs hd, hleaf] at hfits
      rw [← Option.some.inj hfits]
      exact ⟨.inl rfl, .inr rfl⟩

theorem MmInv.leaf_user (h : MmInv L roots held vmas kr s) {i : Fin procMax} {r vpn : Nat}
    {leaf : Leaf} (hr : roots (some i) = some r) (hvpn : vpn < 1048576)
    (hwalk : walk s.mem r vpn = some leaf) {j : Fin procVmaMax} (hcov : (vmas i j).Covers vpn) :
    leaf.perm &&& pteU ≠ 0 := by
  have hlt := ((h.vma hr).region hcov).prot_lt.2
  rcases (h.leaf_perm hr hvpn hwalk hcov).1 with hperm | hperm <;> rw [hperm]
  · exact userPerm_user hlt
  · exact userPerm_user (cowProt_lt hlt)

/-- A translation of a page in a VMA lacks no permission but, at most, writing. -/
theorem leaf_bits {prot perm access : Nat} (hlt : prot < 8)
    (hperm : perm = 2 * prot + 16 ∨ perm = 2 * cowProt prot + 16)
    (haccess : access = vmaProtX ∨ access = vmaProtR ∨ access = vmaProtW)
    (hprot : prot &&& access = access)
    (hmiss : perm &&& protToQueryBits access ≠ protToQueryBits access) :
    access = vmaProtW ∧ perm = 2 * cowProt prot + 16 ∧ perm &&& pteW = 0 := by
  rcases haccess with rfl | rfl | rfl <;> interval_cases prot <;>
    rcases hperm with rfl | rfl <;> revert hprot hmiss <;> decide

/-- A page missing in a VMA is a page of the mmap window. -/
theorem MmInv.missing_window (h : MmInv L roots held vmas kr s) {i : Fin procMax} {r vpn : Nat}
    (hr : roots (some i) = some r) (hcomplete : Complete L s.mem r) (hvpn : vpn < 1048576)
    (hwalk : walk s.mem r vpn = none) {j : Fin procVmaMax} (hcov : (vmas i j).Covers vpn) :
    windowPage vpn := by
  by_contra hw
  have hthere := hcomplete hvpn hw
  rw [hwalk] at hthere
  suffices hsome : stackPage vpn ∨ (fixedLeaf L vpn).isSome = true by
    have := hthere hsome
    cases this
  cases (h.vma hr).region hcov with
  | window hw' => exact absurd hw' hw
  | stack hs => exact .inl hs
  | data hd =>
      right
      rw [fixedLeaf_eq, if_pos hd]
      rfl
  | fixed hw' hs hd hprot hleaf =>
      right
      rw [hleaf]
      rfl

/-! ## A fresh page -/

/-- A page that was free is now mapped at `vpn` of process `i`, with the contents
of what was there before. -/
structure Resolved (L : Layout) (roots : Space → Option Nat) (i : Fin procMax) (r vpn : Nat)
    (leaf : Leaf) (s s' : Phys) : Prop where
  managed : L.Managed leaf.ppn
  wasFree : refcntOf L s.alloc leaf.ppn = 0
  walk : ∀ {space r' vpn'}, roots space = some r' → vpn' < 1048576 →
    Mm.walk s'.mem r' vpn' =
      if space = some i ∧ vpn' = vpn then some leaf else Mm.walk s.mem r' vpn'
  page : ∀ {p}, VmInv.NoTable roots s.mem p → (L.Managed p → refcntOf L s.alloc p ≠ 0) →
    s'.mem p = s.mem p
  content : s'.mem leaf.ppn = (Mm.walk s.mem r vpn).elim zeroPage fun old => s.mem old.ppn
  satp : s'.mmu.satp = s.mmu.satp
  tlb : ∀ {space}, roots space = some (rootPage s.mmu.satp) →
    space ≠ some i ∨ Mm.walk s.mem r vpn = none → TlbOk s → TlbOk s'

/-- The counters do not matter for what a resolved fault leaves. -/
theorem Resolved.of_alloc {L : Layout} {roots : Space → Option Nat} {i : Fin procMax} {r vpn : Nat}
    {leaf : Leaf} {s s' : Phys} (h : Resolved L roots i r vpn leaf s s') (a : Allocator) :
    Resolved L roots i r vpn leaf s { s' with alloc := a } :=
  ⟨h.managed, h.wasFree, h.walk, h.page, h.content, h.satp, h.tlb⟩

/-- Mapping a page just allocated and filled.  The page that was mapped there
before is held by the caller afterwards. -/
theorem MmInv.install (h : MmInv L roots held vmas kr s) {i : Fin procMax}
    {r satp vpn q prot : Nat} {page : PageBytes} {s₁ : Phys} (hr : roots (some i) = some r)
    (hsatp : rootPage satp = r) (hvpn : vpn < 1048576) (hal : Allocated L q 1 s s₁)
    (hpage : page = (walk s.mem r vpn).elim zeroPage fun old => s.mem old.ppn)
    (hprot : 0 < prot ∧ prot < 8)
    (hfits : ∀ mem : Memory, mem q = page → LeafFits L (vmas i) mem vpn ⟨q, 2 * prot + 16⟩)
    (hcall : vmMapUserPage L satp (vpn * 4096) (q * 4096) prot (s₁.setPage (q * 4096) page) =
      (true, s')) :
    MmInv L roots (fun p => held p + if userPage (walk s.mem r vpn) = some p then 1 else 0)
        vmas kr s' ∧
      Resolved L roots i r vpn ⟨q, 2 * prot + 16⟩ s s' ∧
      (tableAt s.mem r (vpn / 1024) = none → reservePages 1 s₁.alloc ≠ none) := by
  have hin : ∀ p, inBlock q 1 p ↔ p = q := by
    intro p
    unfold inBlock
    omega
  have hm : L.Managed q := hal.managed q ((hin q).mpr rfl)
  have hfree : refcntOf L s.alloc q = 0 := hal.wasFree q ((hin q).mpr rfl)
  have hone : refcntOf L s₁.alloc q = 1 := by rw [hal.count q hm, if_pos ((hin q).mpr rfl)]
  have h₂ := (h.allocate hal).fill hm (by simp [hin]) hone page
  have hdiv : q * 4096 / 4096 = q := Nat.mul_div_cancel _ (by decide)
  set s₂ := s₁.setPage (q * 4096) page with hs₂
  have hmem₂ : ∀ p, s₂.mem p = if p = q then page else s.mem p := by
    intro p
    simp only [hs₂, Phys.setPage, hdiv]
    by_cases hp : p = q
    · rw [hp, Function.update_self, if_pos rfl]
    · rw [Function.update_of_ne hp, if_neg hp, hal.mem, if_neg (fun hc => hp ((hin p).mp hc))]
  have hsame₂ : SameTables roots s.mem s₂.mem := by
    intro space r' hr'
    refine ⟨?_, fun k hk t ht => ?_⟩
    · rw [hmem₂, if_neg]
      rintro rfl
      exact h.vm.target_ne_of_refcnt_zero hm hfree (.root space) hr'
    · rw [hmem₂, if_neg]
      rintro rfl
      exact h.vm.target_ne_of_refcnt_zero hm hfree (.table space ⟨k, hk⟩) (by simp [target, hr', ht])
  have hwalk₂ : ∀ {space r' vpn'}, roots space = some r' → vpn' < 1048576 →
      walk s₂.mem r' vpn' = walk s.mem r' vpn' := fun hr' hvpn' => hsame₂.walk hr' hvpn'
  have hunref : ∀ site, target roots s₂.mem site ≠ some q := by
    have hle := h₂.vm.refs_le hm
    have hcount : refcntOf L s₂.alloc q = 1 := hone
    simp only [hin, if_true] at hle
    exact refs_eq_zero.mp (by omega)
  have huser : userPage (userLeaf q prot) = some q := by
    rw [userPage_userLeaf hprot.2, if_neg (by omega)]
  have hleaf : userLeaf q prot = some ⟨q, 2 * prot + 16⟩ := userLeaf_pos (by omega)
  obtain ⟨hvm, hmapped, hmmu⟩ := vmMapUserPage_true
    (w := fun p => held p + if userPage (walk s.mem r vpn) = some p then 1 else 0)
    h₂.vm hr (by simp) hsatp hvpn hm.lt hprot.2
    (by
      refine ⟨fun _ hnew hsite => ?_, fun hnew _ _ _ => ?_⟩
      · rw [huser] at hnew
        rw [← Option.some.inj hnew] at hsite
        exact absurd hsite (hunref _)
      · rw [hleaf] at hnew
        rw [← Option.some.inj hnew]
        exact hone)
    (by
      intro p _
      rw [huser, hwalk₂ hr hvpn]
      by_cases hp : p = q
      · subst hp
        simp only [hin, if_true]
        omega
      · rw [if_neg (fun hc => hp (Option.some.inj hc).symm), if_neg (fun hc => hp ((hin p).mp hc))]
        omega)
    hcall
  rw [hleaf] at hmapped
  have hq : s'.mem q = page := by
    rw [hmapped.page ⟨fun _ => hunref _, fun _ _ => hunref _⟩, hmem₂, if_pos rfl]
    intro _
    show refcntOf L s₁.alloc q ≠ 0
    omega
  refine ⟨h₂.mapped hvm hmapped fun leaf hc => ?_, ⟨hm, hfree, ?_, ?_, ?_, ?_, ?_⟩, fun hnone => ?_⟩
  · rw [← Option.some.inj hc]
    exact hfits s'.mem hq
  · intro space r' vpn' hr' hvpn'
    rw [hmapped.walk hr' hvpn', hwalk₂ hr' hvpn']
  · intro p hp hcount
    have hpq : p ≠ q := by
      rintro rfl
      exact hcount hm hfree
    have hno : VmInv.NoTable roots s₂.mem p := by
      unfold VmInv.NoTable
      rw [hsame₂.target]
      exact hp
    rw [hmapped.page hno, hmem₂, if_neg hpq]
    intro hmp
    show refcntOf L s₁.alloc p ≠ 0
    rw [hal.count p hmp, if_neg (fun hc => hpq ((hin p).mp hc))]
    exact hcount hmp
  · exact hq.trans hpage
  · rw [hmmu]
    show s₁.mmu.satp = _
    rw [hal.mmu]
  · intro space hactive hold htlb
    have hmmu₂ : s₂.mmu = s.mmu := hal.mmu
    have htlb₂ : TlbOk s₂ := htlb.of_walk hmmu₂ fun hvpn' => hwalk₂ hactive hvpn'
    refine htlb₂.mapped hmapped hmmu hr (by rw [hmmu₂]; exact hactive) ?_
    rcases hold with hne | hnone
    · exact .inl hne
    · refine .inr (.inl ?_)
      rw [hwalk₂ hr hvpn]
      exact hnone
  · exact hmapped.reserved (by rw [tableAt_congr (hsame₂ (some i) r hr).1]; exact hnone)

/-! ## Copying a shared page -/

/-- Managed memory is mapped at its physical address in every complete space. -/
theorem MmInv.walk_managed (h : MmInv L roots held vmas kr s) {i : Fin procMax} {r p : Nat}
    (hr : roots (some i) = some r) (hcomplete : Complete L s.mem r) (hm : L.Managed p) :
    walk s.mem r p = some ⟨p, 14⟩ := by
  obtain ⟨hw, hs, hd⟩ := managed_rest hm
  have hfixed := fixedLeaf_managed hm
  have hthere := hcomplete hm.lt hw (.inr (by rw [hfixed]; rfl))
  obtain ⟨leaf, hleaf⟩ := Option.isSome_iff_exists.mp hthere
  have hfits := h.fits hr hm.lt hleaf
  rw [leafFits_rest hw hs hd, hfixed] at hfits
  rw [hleaf, hfits]

/-- The kernel can read the old page of a copy: managed pages always, pages of the
writable sections only with `SUM` set. -/
theorem MmInv.kernelReadOk_old (h : MmInv L roots held vmas kr s) {i : Fin procMax}
    {r satp vpn : Nat} {leaf : Leaf} (sum : Bool) (hr : roots (some i) = some r)
    (hsatp : rootPage satp = r) (hcomplete : Complete L s.mem r) (hvpn : vpn < 1048576)
    (hwalk : walk s.mem r vpn = some leaf) {j : Fin procVmaMax} (hcov : (vmas i j).Covers vpn)
    (hwrite : (vmas i j).prot &&& vmaProtW ≠ 0) (hshared : leaf.perm &&& pteW = 0) :
    kernelReadOk sum satp leaf.ppn s = (sum || decide (L.Managed leaf.ppn)) := by
  unfold kernelReadOk hwWalk
  rw [hsatp]
  by_cases hm : L.Managed leaf.ppn
  · rw [h.walk_managed hr hcomplete hm]
    have hU : 14 &&& pteU = 0 := by decide
    simp [Option.filter, hm, Leaf.reserved, hU]
  · have hppn := (h.leaf_perm hr hvpn hwalk hcov).2.resolve_left hm
    have hperm : leaf.perm = 18 := by
      have hfits := h.fits hr hvpn hwalk
      cases (h.vma hr).region hcov with
      | window hw => exact absurd ((leafFits_window hw).mp hfits).managed hm
      | stack hs => exact absurd ((leafFits_stack hs).mp hfits).1 hm
      | data hd =>
          rcases (leafFits_data hd).mp hfits with ⟨-, hperm | hperm⟩ | ⟨hm', -⟩
          · rw [hperm] at hshared
            exact absurd hshared (by decide)
          · exact hperm
          · exact absurd hm' hm
      | fixed hw hs hd hprot =>
          rcases hprot with hprot | hprot <;> rw [hprot] at hwrite <;> exact absurd rfl hwrite
    rw [hppn, hwalk]
    simp [Option.filter, Leaf.reserved, hperm, ← hppn, hm]

/-! ## The handler -/

/-- How a page fault of process `i` at `vpn` can end. -/
inductive FaultCase (L : Layout) (roots : Space → Option Nat) (held : Nat → Nat)
    (vmas : Fin procMax → Vmas) (kr : Nat) (sum : Bool) (i : Fin procMax) (r vpn access : Nat)
    (s : Phys) : Except Stop (Bool × Phys) → Prop
  /-- No VMA allows the access. -/
  | refused (hno : (access ≠ vmaProtX ∧ access ≠ vmaProtR ∧ access ≠ vmaProtW) ∨
      ∀ j, (vmas i j).Covers vpn → (vmas i j).prot &&& access ≠ access) :
      FaultCase L roots held vmas kr sum i r vpn access s (.ok (false, s))
  /-- The entry has the permission already. -/
  | present {j leaf} (hcov : (vmas i j).Covers vpn) (hprot : (vmas i j).prot &&& access = access)
      (hwalk : walk s.mem r vpn = some leaf)
      (hbits : leaf.perm &&& protToQueryBits access = protToQueryBits access) :
      FaultCase L roots held vmas kr sum i r vpn access s (.ok (true, s))
  /-- There is no page. -/
  | exhausted {j} (hcov : (vmas i j).Covers vpn) (hprot : (vmas i j).prot &&& access = access)
      (hold : walk s.mem r vpn = none ∨ ∃ leaf, walk s.mem r vpn = some leaf ∧
        access = vmaProtW ∧ leaf.perm &&& pteW = 0)
      (hres : reservePages 1 s.alloc = none) :
      FaultCase L roots held vmas kr sum i r vpn access s (.ok (false, s))
  /-- There is a page but none for the second-level table; the page is given back. -/
  | noTable {j q s₁ a'} (hcov : (vmas i j).Covers vpn)
      (hprot : (vmas i j).prot &&& access = access) (hwalk : walk s.mem r vpn = none)
      (htable : tableAt s.mem r (vpn / 1024) = none) (hal : Allocated L q 1 s s₁)
      (halloc : allocPagesTry L 1 s = (some (q * 4096), s₁))
      (hres : reservePages 1 s₁.alloc = none)
      (hfree : freePages L (q * 4096) 1 s₁.alloc = .ok a') (hdrop : Dropped L q s₁.alloc a')
      (hinv : MmInv L roots held vmas kr { s₁.tick with alloc := a' }) :
      FaultCase L roots held vmas kr sum i r vpn access s
        (.ok (false, { s₁.tick with alloc := a' }))
  /-- A fresh page: zero if nothing was mapped, else a copy of a shared page. -/
  | mapped {j leaf s'} (hcov : (vmas i j).Covers vpn)
      (hprot : (vmas i j).prot &&& access = access)
      (hold : walk s.mem r vpn = none ∨ ∃ old, walk s.mem r vpn = some old ∧
        access = vmaProtW ∧ old.perm &&& pteW = 0)
      (hperm : leaf.perm = 2 * (vmas i j).prot + 16) (hres : reservePages 1 s.alloc ≠ none)
      (htable : tableAt s.mem r (vpn / 1024) = none →
        reservePages 1 (allocPagesTry L 1 s).2.alloc ≠ none)
      (hresolved : Resolved L roots i r vpn leaf s s')
      (hinv : MmInv L roots held vmas kr s') :
      FaultCase L roots held vmas kr sum i r vpn access s (.ok (true, s'))
  /-- The copy cannot read the old page. -/
  | loop {j leaf} (hcov : (vmas i j).Covers vpn) (hprot : (vmas i j).prot &&& access = access)
      (hsum : sum = false) (haccess : access = vmaProtW) (hwalk : walk s.mem r vpn = some leaf)
      (hshared : leaf.perm &&& pteW = 0) (hm : ¬ L.Managed leaf.ppn)
      (hres : reservePages 1 s.alloc ≠ none) :
      FaultCase L roots held vmas kr sum i r vpn access s (.error .faultLoop)

theorem procFindVmaIndex_none {v : Vmas} {vpn : Nat} (h : procFindVmaIndex v (vpn * 4096) = none)
    (j : Fin procVmaMax) : ¬ (v j).Covers vpn := by
  rintro ⟨hused, hlo, hhi⟩
  have := List.find?_eq_none.mp h j (List.mem_finRange j)
  simp [hused, hlo, hhi] at this

theorem write_of_access {prot : Nat} (h : prot &&& vmaProtW = vmaProtW) : prot &&& vmaProtW ≠ 0 := by
  rw [h]
  decide

/-- The page a fault or a copy puts into a VMA. -/
theorem VmaInv.fits_new {v : Vmas} (h : VmaInv L v) {j : Fin procVmaMax} {vpn q : Nat}
    (hcov : (v j).Covers vpn) (hm : L.Managed q) {mem : Memory}
    (hnew : windowPage vpn ∧ mem q = zeroPage ∨ (v j).prot &&& vmaProtW ≠ 0) :
    LeafFits L v mem vpn ⟨q, 2 * (v j).prot + 16⟩ := by
  cases h.region hcov with
  | window hw hpos hlt =>
      rw [leafFits_window hw]
      refine ⟨hm, j, hcov, .inl rfl, fun hprot => ?_⟩
      rcases hnew with ⟨-, hzero⟩ | hwrite
      · exact hzero
      · exact absurd hprot hwrite
  | stack hs hprot =>
      rw [leafFits_stack hs, hprot]
      exact ⟨hm, .inl rfl⟩
  | data hd hprot =>
      rw [leafFits_data hd, hprot]
      exact .inr ⟨hm, rfl⟩
  | fixed hw hs hd hprot =>
      rcases hnew with ⟨hw', -⟩ | hwrite
      · exact absurd hw' hw
      · rcases hprot with hprot | hprot <;> rw [hprot] at hwrite <;> exact absurd rfl hwrite

section Handler

variable {sum : Bool} {proc : Process} {i : Fin procMax} {r vpn : Nat}

/-- `proc_try_cow_fault` on a page that is mapped without write permission in a
writable VMA. -/
theorem procTryCowFault_spec (h : MmInv L roots held vmas kr s) (hr : roots (some i) = some r)
    (hsatp : rootPage proc.satp = r) (hvmas : proc.vmas = vmas i)
    (hcomplete : Complete L s.mem r) (hvpn : vpn < 1048576) {j : Fin procVmaMax} {leaf : Leaf}
    (hcov : (vmas i j).Covers vpn) (hprot : (vmas i j).prot &&& vmaProtW = vmaProtW)
    (hwalk : walk s.mem r vpn = some leaf) (hshared : leaf.perm &&& pteW = 0) :
    FaultCase L roots held vmas kr sum i r vpn vmaProtW s
      (procTryCowFault L sum proc (vpn * 4096) (proc.vmas j) s) := by
  have hwrite := write_of_access hprot
  have hU := h.leaf_user hr hvpn hwalk hcov
  have hprotlt := ((h.vma hr).region hcov).prot_lt
  have hold : ∃ old, walk s.mem r vpn = some old ∧ vmaProtW = vmaProtW ∧ old.perm &&& pteW = 0 :=
    ⟨leaf, hwalk, rfl, hshared⟩
  have hquery := vmQueryUserPage_eq proc.satp (vpn * 4096) (by omega) (by omega) s
  rw [Nat.mul_div_cancel _ (by decide), hsatp, hwalk] at hquery
  unfold procTryCowFault
  rw [hvmas, if_neg hwrite, hquery]
  simp only [Option.map_some]
  rw [if_neg (not_not.mpr hshared)]
  cases halloc : allocPagesTry L 1 s with
  | mk result s₁ =>
      cases result with
      | none =>
          obtain ⟨rfl, hwhy⟩ := allocPagesTry_none h.vm.alloc halloc
          exact .exhausted hcov hprot (.inr hold) (hwhy.resolve_left (by decide))
      | some paddr =>
          obtain ⟨q, rfl, hal⟩ := allocPagesTry_some h.vm.alloc (by decide) halloc
          have hin : ∀ p, inBlock q 1 p ↔ p = q := by
            intro p
            unfold inBlock
            omega
          have hm : L.Managed q := hal.managed q ((hin q).mpr rfl)
          have h₁ := h.allocate hal
          have hsame := (h.vm.allocate hal).1
          have hwalk₁ : walk s₁.mem r vpn = some leaf := by
            rw [hsame.walk hr hvpn]
            exact hwalk
          have hcomplete₁ : Complete L s₁.mem r := hcomplete.of_walk fun hv => hsame.walk hr hv
          have hread := h₁.kernelReadOk_old sum hr hsatp hcomplete₁ hvpn hwalk₁ hcov hwrite
            hshared
          simp only [Nat.mul_div_cancel _ (show 0 < 4096 by decide), hread]
          -- The old page is not the new one, so allocating did not change it.
          have hinuse := leaf_in_use h.vm hr hvpn hwalk hU
          have hpq : leaf.ppn ≠ q := by
            intro heq
            rw [heq] at hinuse
            exact hinuse.2 hm (hal.wasFree q ((hin q).mpr rfl))
          have hcopy : s₁.mem leaf.ppn =
              (walk s.mem r vpn).elim zeroPage fun old => s.mem old.ppn := by
            rw [hwalk, hal.mem, if_neg (fun hc => hpq ((hin _).mp hc))]
            rfl
          by_cases hok : (sum || decide (L.Managed leaf.ppn)) = true
          · rw [if_neg (not_not.mpr hok)]
            cases hmap : vmMapUserPage L proc.satp (vpn * 4096) (q * 4096) (vmas i j).prot
                (s₁.setPage (q * 4096) (s₁.mem leaf.ppn)) with
            | mk done s₂ =>
                have hone : refcntOf L s₁.alloc q = 1 := by
                  rw [hal.count q hm, if_pos ((hin q).mpr rfl)]
                have htable : ∃ t, tableAt s.mem r (vpn / 1024) = some t :=
                  h.vm.table_of_user hr hvpn hwalk hU
                cases done with
                | false =>
                    -- The table is there, because the old page is mapped through it.
                    obtain ⟨t, ht⟩ := htable
                    have h₂ := h₁.fill hm (by simp [hin]) hone (s₁.mem leaf.ppn)
                    obtain ⟨-, hnone, -⟩ := vmMapUserPage_false h₂.vm hsatp hvpn hprotlt.2 hmap
                    have hno := h₁.vm.noTable_of_held hm (by simp [hin])
                    rw [Phys.setPage, Nat.mul_div_cancel _ (by decide)] at hnone
                    simp only at hnone
                    rw [tableAt_congr (VmInv.sameTables_update hno _ (some i) r hr).1,
                      tableAt_congr (hsame (some i) r hr).1, ht] at hnone
                    cases hnone
                | true =>
                    obtain ⟨h₂, hresolved, -⟩ := h.install hr hsatp hvpn hal hcopy hprotlt
                      (fun mem _ => (h.vma hr).fits_new hcov hm (.inr hwrite)) hmap
                    have hnoTable : tableAt s.mem r (vpn / 1024) = none →
                        reservePages 1 (allocPagesTry L 1 s).2.alloc ≠ none := by
                      intro hnone
                      obtain ⟨t, ht⟩ := htable
                      rw [ht] at hnone
                      cases hnone
                    rw [hwalk, userPage, Option.bind_some, if_pos hU] at h₂
                    simp only [Phys.withAlloc]
                    by_cases hmo : L.Managed leaf.ppn
                    · obtain ⟨a', hdec, hvm', -⟩ := (h₂.vm.pageDecRef (w := held) hmo
                        (by simp) (by simp) (fun p hp => by simp [Ne.symm hp])).exists_ok
                      rw [hdec]
                      exact .mapped hcov hprot (.inr hold) rfl hal.reserved hnoTable
                        (hresolved.of_alloc a') (h₂.of_alloc hvm' rfl)
                    · rw [pageDecRef_unmanaged h₂.vm.alloc hmo]
                      refine .mapped hcov hprot (.inr hold) rfl
                        hal.reserved hnoTable hresolved (h₂.of_alloc ?_ rfl)
                      refine h₂.vm.congr_held fun p hp => ?_
                      have hne : ¬ (some leaf.ppn = some p) := by
                        intro hc
                        exact hmo ((Option.some.inj hc) ▸ hp)
                      rw [if_neg hne, Nat.add_zero]
          · rw [if_pos hok]
            simp only [Bool.or_eq_true, decide_eq_true_eq, not_or, Bool.not_eq_true] at hok
            exact .loop hcov hprot hok.1 rfl hwalk hshared hok.2 hal.reserved

/-- Bringing in a page that is not mapped yet. -/
theorem demandZero_spec (h : MmInv L roots held vmas kr s) (hr : roots (some i) = some r)
    {satp access : Nat} (hsatp : rootPage satp = r) (hcomplete : Complete L s.mem r)
    (hvpn : vpn < 1048576) {j : Fin procVmaMax} (hcov : (vmas i j).Covers vpn)
    (hprot : (vmas i j).prot &&& access = access) (hwalk : walk s.mem r vpn = none) :
    FaultCase L roots held vmas kr sum i r vpn access s
      (match allocPagesTry L 1 s with
      | (none, s) => .ok (false, s)
      | (some pa, s) =>
          match vmMapUserPage L satp (vpn * 4096) pa (vmas i j).prot s with
          | (false, s) => liftPanic do
              let s ← s.withAlloc (freePages L pa 1)
              return (false, s)
          | (true, s) => .ok (true, s)) := by
  have hprotlt := ((h.vma hr).region hcov).prot_lt
  cases halloc : allocPagesTry L 1 s with
  | mk result s₁ =>
      cases result with
      | none =>
          obtain ⟨rfl, hwhy⟩ := allocPagesTry_none h.vm.alloc halloc
          exact .exhausted hcov hprot (.inl hwalk) (hwhy.resolve_left (by decide))
      | some paddr =>
          obtain ⟨q, rfl, hal⟩ := allocPagesTry_some h.vm.alloc (by decide) halloc
          have hin : ∀ p, inBlock q 1 p ↔ p = q := by
            intro p
            unfold inBlock
            omega
          have hm : L.Managed q := hal.managed q ((hin q).mpr rfl)
          have h₁ := h.allocate hal
          have hsame := (h.vm.allocate hal).1
          have hzero : s₁.setPage (q * 4096) zeroPage = s₁ := by
            have hmem : s₁.mem q = zeroPage := by rw [hal.mem, if_pos ((hin q).mpr rfl)]
            simp only [Phys.setPage, Nat.mul_div_cancel _ (show 0 < 4096 by decide), ← hmem,
              Function.update_eq_self]
          simp only
          cases hmap : vmMapUserPage L satp (vpn * 4096) (q * 4096) (vmas i j).prot s₁ with
          | mk done s₂ =>
              cases done with
              | false =>
                  obtain ⟨rfl, hnone, hres⟩ := vmMapUserPage_false h₁.vm hsatp hvpn hprotlt.2 hmap
                  rw [tableAt_congr (hsame (some i) r hr).1] at hnone
                  have hheld : held q = 0 := by
                    have := h.vm.refs_le hm
                    rw [hal.wasFree q ((hin q).mpr rfl)] at this
                    omega
                  obtain ⟨a', hfree, hvm', hdrop⟩ := (h₁.vm.freePages (w := held) hm
                    (by simp [hin]) (by simp [hin]) (fun p hp => by simp [hin, hp])).exists_ok
                  simp only [Phys.withAlloc, Phys.tick_alloc, hfree]
                  exact .noTable hcov hprot hwalk hnone hal halloc hres hfree hdrop
                    (h₁.of_alloc hvm' rfl)
              | true =>
                  have hwindow := h.missing_window hr hcomplete hvpn hwalk hcov
                  obtain ⟨h₂, hresolved, hreserve⟩ := h.install hr hsatp hvpn hal
                    (by rw [hwalk]; rfl) hprotlt
                    (fun mem hmem => (h.vma hr).fits_new hcov hm (.inl ⟨hwindow, hmem⟩))
                    (by rw [hzero]; exact hmap)
                  refine .mapped hcov hprot (.inl hwalk) rfl hal.reserved
                    (by rw [halloc]; exact hreserve) hresolved (h₂.of_alloc (h₂.vm.congr_held fun p _ => ?_) rfl)
                  rw [hwalk]
                  rfl

/-- What `proc_handle_user_page_fault` does for a process with a complete address
space. -/
theorem procHandleUserPageFault_spec (h : MmInv L roots held vmas kr s)
    (hr : roots (some i) = some r) (hsatp : rootPage proc.satp = r) (huser : proc.isUser = true)
    (hvmas : proc.vmas = vmas i) (hcomplete : Complete L s.mem r) {addr access : Nat}
    (haddr : addr < 4294967296) :
    FaultCase L roots held vmas kr sum i r (addr / 4096) access s
      (procHandleUserPageFault L sum proc addr access s) := by
  have hvpn : addr / 4096 < 1048576 := by omega
  unfold procHandleUserPageFault
  rw [if_neg (by rw [huser]; simp)]
  by_cases hbad : access ≠ vmaProtX ∧ access ≠ vmaProtR ∧ access ≠ vmaProtW
  · rw [if_pos hbad]
    exact .refused (.inl hbad)
  rw [if_neg hbad]
  have haccess : access = vmaProtX ∨ access = vmaProtR ∨ access = vmaProtW := by tauto
  have hfloor : pageFloor addr = addr / 4096 * 4096 := rfl
  simp only [hfloor, hvmas]
  generalize hv : addr / 4096 = vpn at hvpn ⊢
  cases hfind : procFindVmaIndex (vmas i) (vpn * 4096) with
  | none => exact .refused (.inr fun j hcov => absurd hcov (procFindVmaIndex_none hfind j))
  | some j =>
      have hcov := procFindVmaIndex_covers hfind
      simp only
      by_cases hprot : (vmas i j).prot &&& access = access
      · rw [if_neg (not_not.mpr hprot)]
        have hquery := vmQueryUserPage_eq proc.satp (vpn * 4096) (by omega)
          (by omega) s
        rw [Nat.mul_div_cancel _ (by decide), hsatp] at hquery
        rw [hquery]
        cases hwalk : walk s.mem r vpn with
        | none => exact demandZero_spec h hr hsatp hcomplete hvpn hcov hprot hwalk
        | some leaf =>
            simp only [Option.map_some]
            by_cases hbits : leaf.perm &&& protToQueryBits access = protToQueryBits access
            · rw [if_pos hbits]
              exact .present hcov hprot hwalk hbits
            · obtain ⟨rfl, -, hshared⟩ := leaf_bits ((h.vma hr).region hcov).prot_lt.2
                (h.leaf_perm hr hvpn hwalk hcov).1 haccess hprot hbits
              rw [if_neg hbits, if_pos rfl, ← hvmas]
              exact procTryCowFault_spec h hr hsatp hvmas hcomplete hvpn hcov hprot hwalk hshared
      · rw [if_pos hprot]
        refine .refused (.inr fun j' hcov' => ?_)
        rw [(h.vma hr).covers_unique hcov' hcov]
        exact hprot

end Handler

end Sugimotos.Proc
