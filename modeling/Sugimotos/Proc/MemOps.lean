/-
# Mapping, unmapping and clearing

`proc_mmap`, `proc_munmap` and the memory part of `proc_exec` and
`proc_vm_release`.  Each works on one process; `Local` says what the others do
not notice.
-/

import Sugimotos.Proc.Vmas

namespace Sugimotos.Proc

open Sugimotos.Math Sugimotos.Mm

variable {L : Layout} {roots : Space → Option Nat} {held : Nat → Nat}
  {vmas : Fin procMax → Vmas} {kr : Nat} {s s₁ s' : Phys} {i : Fin procMax} {r : Nat}

/-! ## What other processes do not notice -/

/-- Only process `i` is affected: the translations of the others and the pages
they see are as before. -/
structure Local (roots : Space → Option Nat) (i : Fin procMax) (s s' : Phys) : Prop where
  walk : ∀ {space r vpn}, roots space = some r → space ≠ some i → vpn < 1048576 →
    Mm.walk s'.mem r vpn = Mm.walk s.mem r vpn
  page : ∀ {space r vpn leaf}, roots space = some r → space ≠ some i → vpn < 1048576 →
    Mm.walk s.mem r vpn = some leaf → leaf.perm &&& pteU ≠ 0 → s'.mem leaf.ppn = s.mem leaf.ppn
  satp : s'.mmu.satp = s.mmu.satp

theorem Local.refl (s : Phys) : Local roots i s s :=
  ⟨fun _ _ _ => rfl, fun _ _ _ _ _ => rfl, rfl⟩

theorem Local.trans (h : Local roots i s s₁) (h' : Local roots i s₁ s') : Local roots i s s' := by
  refine ⟨?_, ?_, h'.satp.trans h.satp⟩
  · intro space r vpn hr hne hvpn
    rw [h'.walk hr hne hvpn, h.walk hr hne hvpn]
  · intro space r vpn leaf hr hne hvpn hwalk hU
    have hwalk₁ : Mm.walk s₁.mem r vpn = some leaf := by
      rw [h.walk hr hne hvpn]
      exact hwalk
    rw [h'.page hr hne hvpn hwalk₁ hU, h.page hr hne hvpn hwalk hU]

theorem Local.complete (h : Local roots i s s') {j : Fin procMax} {r : Nat}
    (hr : roots (some j) = some r) (hne : j ≠ i) (hcomplete : Complete L s.mem r) :
    Complete L s'.mem r :=
  hcomplete.of_walk fun hvpn => h.walk hr (by simpa using hne) hvpn

theorem Swept.local {P : Nat → Prop} (hswept : Swept roots i P s s')
    (h : MmInv L roots held vmas kr s) : Local roots i s s' := by
  refine ⟨?_, ?_, hswept.satp⟩
  · intro space r vpn hr hne hvpn
    exact hswept.walk hr hvpn fun hc => hne hc.1
  · intro space r vpn leaf hr hne hvpn hwalk hU
    exact hswept.page (leaf_in_use h.vm hr hvpn hwalk hU).1

theorem Resolved.local {vpn : Nat} {leaf : Leaf} (hres : Resolved L roots i r vpn leaf s s')
    (h : MmInv L roots held vmas kr s) : Local roots i s s' := by
  refine ⟨?_, ?_, hres.satp⟩
  · intro space r' vpn' hr' hne hvpn'
    rw [hres.walk hr' hvpn', if_neg fun hc => hne hc.1]
  · intro space r' vpn' leaf' hr' hne hvpn' hwalk hU
    obtain ⟨hno, hcount⟩ := leaf_in_use h.vm hr' hvpn' hwalk hU
    exact hres.page hno hcount

/-! ## Changing the VMAs -/

/-- New VMAs that still allow what is mapped in the window. -/
theorem MmInv.change_vmas (h : MmInv L roots held vmas kr s) {v : Vmas}
    (hr : roots (some i) = some r) (hv : VmaInv L v)
    (hkeep : ∀ {vpn leaf}, vpn < 1048576 → windowPage vpn → walk s.mem r vpn = some leaf →
      WindowLeaf L (vmas i) s.mem vpn leaf → WindowLeaf L v s.mem vpn leaf) :
    MmInv L roots held (Function.update vmas i v) kr s := by
  refine ⟨h.vm, h.kernel, h.kernelWalk, ?_, ?_⟩
  · intro i' r' hr'
    by_cases hi : i' = i
    · rw [hi, Function.update_self]
      exact hv
    · rw [Function.update_of_ne hi]
      exact h.vma hr'
  · intro i' r' vpn leaf hr' hvpn hwalk
    by_cases hi : i' = i
    · subst hi
      rw [hr] at hr'
      obtain rfl := Option.some.inj hr'
      rw [Function.update_self]
      exact (h.fits hr hvpn hwalk).congr_vmas fun hw hleaf => hkeep hvpn hw hwalk hleaf
    · rw [Function.update_of_ne hi]
      exact h.fits hr' hvpn hwalk

/-- What a memory operation of process `i` leaves, with its new VMAs `v`. -/
structure Stepped (L : Layout) (roots : Space → Option Nat) (held : Nat → Nat)
    (vmas : Fin procMax → Vmas) (kr : Nat) (i : Fin procMax) (r : Nat) (s : Phys) (v : Vmas)
    (s' : Phys) : Prop where
  inv : MmInv L roots held (Function.update vmas i v) kr s'
  loc : Local roots i s s'
  rest : ∀ {vpn}, vpn < 1048576 → ¬ windowPage vpn → Mm.walk s'.mem r vpn = Mm.walk s.mem r vpn
  unmanaged : ∀ {p}, ¬ L.Managed p → s'.mem p = s.mem p
  tlb : TlbOk s → TlbOk s'

theorem Stepped.refl (h : MmInv L roots held vmas kr s) :
    Stepped L roots held vmas kr i r s (vmas i) s :=
  ⟨by rw [Function.update_eq_self]; exact h, Local.refl s, fun _ _ => rfl, fun _ => rfl,
    fun htlb => htlb⟩

/-- The parts outside the window stay complete. -/
theorem Stepped.complete {v : Vmas} (h : Stepped L roots held vmas kr i r s v s')
    (hcomplete : Complete L s.mem r) : Complete L s'.mem r := by
  intro vpn hvpn hw hthere
  rw [h.rest hvpn hw]
  exact hcomplete hvpn hw hthere

/-- Sweeping pages of the window, with VMAs that still allow what stays mapped
there. -/
theorem Swept.stepped {P : Nat → Prop} {v : Vmas} (hswept : Swept roots i P s s')
    (h : MmInv L roots held vmas kr s) (h' : MmInv L roots held vmas kr s')
    (hr : roots (some i) = some r) (hwindow : ∀ {vpn}, P vpn → windowPage vpn) (hv : VmaInv L v)
    (hkeep : ∀ {vpn leaf}, vpn < 1048576 → windowPage vpn → Mm.walk s'.mem r vpn = some leaf →
      WindowLeaf L (vmas i) s'.mem vpn leaf → WindowLeaf L v s'.mem vpn leaf) :
    Stepped L roots held vmas kr i r s v s' :=
  ⟨h'.change_vmas hr hv hkeep, hswept.local h,
    fun hvpn hw => hswept.walk hr hvpn fun hc => hw (hwindow hc.2),
    fun hp => hswept.page (h.vm.noTable_of_unmanaged hp), hswept.tlb⟩

/-! ## `proc_munmap` -/

theorem windowPage_of_range {addr stop vpn : Nat} (hbase : userMmapBase ≤ addr)
    (hend : stop ≤ userMmapEnd) (hlo : addr ≤ vpn * 4096) (hhi : vpn * 4096 < stop) :
    vpn < 1048576 ∧ windowPage vpn := by
  unfold userMmapBase at hbase
  unfold userMmapEnd at hend
  unfold windowPage inBlock
  omega

theorem pageCeil_mod (len : Nat) : pageCeil len % 4096 = 0 := by
  unfold pageCeil pageSize
  omega

/-- The VMAs after a cut still allow what is mapped outside the range. -/
theorem VmaCut.windowLeaf {addr stop : Nat} {v v' : Vmas} (h : VmaCut L addr stop v v')
    {mem : Memory} {vpn : Nat} {leaf : Leaf} (hout : ¬ (addr ≤ vpn * 4096 ∧ vpn * 4096 < stop))
    (hleaf : WindowLeaf L v mem vpn leaf) : WindowLeaf L v' mem vpn leaf := by
  obtain ⟨hm, j, hcov, hperm, hzero⟩ := hleaf
  obtain ⟨j', hcov', hprot⟩ := h.keep hcov hout
  exact ⟨hm, j', hcov', by rw [hprot]; exact hperm, by rw [hprot]; exact hzero⟩

/-- The checks of `proc_munmap` on its arguments; `[addr, stop)` is the range. -/
structure UnmapRange (proc : Process) (addr len stop : Nat) : Prop where
  user : proc.isUser = true
  aligned : addr % 4096 = 0
  nonempty : len ≠ 0
  stop_eq : stop = u32 (addr + pageCeil len)
  le : addr ≤ stop
  base : userMmapBase ≤ addr
  fits : stop ≤ userMmapEnd

theorem UnmapRange.stop_aligned {proc : Process} {addr len stop : Nat}
    (h : UnmapRange proc addr len stop) : stop % 4096 = 0 := by
  have halign := h.aligned
  have hceil := pageCeil_mod len
  rw [h.stop_eq]
  unfold u32
  omega

/-- The page numbers of the range `[addr, stop)`. -/
def rangeVpns (addr stop : Nat) : List Nat := List.range' (addr / 4096) ((stop - addr) / 4096)

theorem UnmapRange.mem_vpns {proc : Process} {addr len stop vpn : Nat}
    (h : UnmapRange proc addr len stop) :
    vpn ∈ rangeVpns addr stop ↔ addr ≤ vpn * 4096 ∧ vpn * 4096 < stop :=
  mem_range_pages h.aligned h.stop_aligned h.le

theorem UnmapRange.window {proc : Process} {addr len stop vpn : Nat}
    (h : UnmapRange proc addr len stop) (hv : vpn ∈ rangeVpns addr stop) :
    vpn < 1048576 ∧ windowPage vpn := by
  obtain ⟨hlo, hhi⟩ := h.mem_vpns.mp hv
  exact windowPage_of_range h.base h.fits hlo hhi

/-- What cutting `[addr, stop)` out of process `i` does: the map of protections
and the translations lose the range, and every page mapped in it is freed once. -/
structure Unmapped (L : Layout) (roots : Space → Option Nat) (i : Fin procMax)
    (r addr stop : Nat) (v v' : Vmas) (s s' : Phys) : Prop where
  prot : protMap v' = without (protMap v) addr stop
  swept : Swept roots i (· ∈ rangeVpns addr stop) s s'
  freed : freeEach L (mappedPages s.mem r (rangeVpns addr stop)) s.alloc = .ok s'.alloc

/-- How `proc_munmap` can end. -/
inductive MunmapCase (L : Layout) (roots : Space → Option Nat) (held : Nat → Nat)
    (vmas : Fin procMax → Vmas) (kr : Nat) (i : Fin procMax) (r : Nat) (proc : Process)
    (addr len : Nat) (s : Phys) : Except Panic (Bool × Process × Phys) → Prop
  | refused (hno : ∀ stop, ¬ UnmapRange proc addr len stop) :
      MunmapCase L roots held vmas kr i r proc addr len s (.ok (false, proc, s))
  /-- The range lies strictly inside a VMA and there is no slot for a second one. -/
  | full {stop j} (hrange : UnmapRange proc addr len stop) (hmeet : (vmas i j).Meets addr stop)
      (hstrict : (vmas i j).Strict addr stop) (hslot : procFindFreeVmaSlot (vmas i) = none) :
      MunmapCase L roots held vmas kr i r proc addr len s (.ok (false, proc, s))
  | done {stop v s' changed} (hrange : UnmapRange proc addr len stop)
      (hcut : CutCase addr stop (vmas i) (true, v, changed))
      (hunmapped : Unmapped L roots i r addr stop (vmas i) v s s')
      (hstep : Stepped L roots held vmas kr i r s v s')
      (hquiet : (∀ j, ¬ (vmas i j).Meets addr stop) → s' = s) :
      MunmapCase L roots held vmas kr i r proc addr len s (.ok (true, { proc with vmas := v }, s'))

/-- Nothing is mapped in a range that no VMA meets. -/
theorem MmInv.mapped_meets (h : MmInv L roots held vmas kr s) (hr : roots (some i) = some r)
    {proc : Process} {addr len stop : Nat} (hrange : UnmapRange proc addr len stop)
    (hnone : ∀ j, ¬ (vmas i j).Meets addr stop) {vpn : Nat} (hv : vpn ∈ rangeVpns addr stop) :
    walk s.mem r vpn = none := by
  by_contra hsome
  obtain ⟨leaf, hwalk⟩ := Option.ne_none_iff_exists'.mp hsome
  obtain ⟨hvpn, hw⟩ := hrange.window hv
  have hfits := h.fits hr hvpn hwalk
  rw [leafFits_window hw] at hfits
  obtain ⟨-, j, ⟨hused, hlo, hhi⟩, -⟩ := hfits
  obtain ⟨hlo', hhi'⟩ := hrange.mem_vpns.mp hv
  have hstart := ((h.vma hr).aligned hused).1
  exact hnone j ⟨hused, by omega, by omega, by omega⟩

/-- The loop of `proc_munmap` over the pages, after the VMAs were cut. -/
theorem MmInv.unmapRange (h : MmInv L roots held vmas kr s) (hr : roots (some i) = some r)
    {proc : Process} {satp addr len stop : Nat} {v : Vmas} {changed : Bool}
    (hsatp : rootPage satp = r) (hrange : UnmapRange proc addr len stop)
    (hcut : CutCase addr stop (vmas i) (true, v, changed)) :
    Outcome ((pagesOf addr stop).foldlM (unmapAndFree L satp) s)
      (fun s' => Unmapped L roots i r addr stop (vmas i) v s s' ∧
        Stepped L roots held vmas kr i r s v s')
      (fun _ => False) := by
  obtain ⟨hkeep, hprot⟩ := hcut.subtracts (h.vma hr) hrange.base hrange.fits
    ⟨hrange.aligned, hrange.stop_aligned⟩
  rw [pagesOf_eq hrange.aligned hrange.stop_aligned]
  refine (sweep_spec hr hsatp (rangeVpns addr stop) h fun vpn hv =>
    ⟨(hrange.window hv).1, Or.inl (hrange.window hv).2⟩).imp fun s' ⟨h', hswept, hfreed⟩ => ?_
  refine ⟨⟨hprot, hswept, hfreed List.nodup_range'⟩,
    hswept.stepped h h' hr (fun hv => (hrange.window hv).2) hkeep.inv ?_⟩
  intro vpn leaf hvpn _ hwalk hleaf
  refine hkeep.windowLeaf (fun hin => ?_) hleaf
  rw [hswept.gone hr hvpn (hrange.mem_vpns.mpr hin)] at hwalk
  cases hwalk

/-- Cutting out a range that no VMA meets does nothing. -/
theorem MmInv.unmapNothing (h : MmInv L roots held vmas kr s) (hr : roots (some i) = some r)
    {proc : Process} {addr len stop : Nat} {v : Vmas} (hrange : UnmapRange proc addr len stop)
    (hcut : CutCase addr stop (vmas i) (true, v, false)) :
    v = vmas i ∧ Unmapped L roots i r addr stop (vmas i) v s s := by
  obtain ⟨-, hprot⟩ := hcut.subtracts (h.vma hr) hrange.base hrange.fits
    ⟨hrange.aligned, hrange.stop_aligned⟩
  cases hcut with
  | trim hstrict hnone =>
      have hgone : ∀ {vpn}, vpn ∈ rangeVpns addr stop → walk s.mem r vpn = none :=
        fun hv => h.mapped_meets hr hrange (hnone.mp rfl) hv
      refine ⟨trimVmas_of_not_meets (hnone.mp rfl), hprot, Swept.refl ?_, ?_⟩
      · intro r' vpn hr' _ hv
        rw [hr] at hr'
        rw [← Option.some.inj hr']
        exact hgone hv
      · have hnil : mappedPages s.mem r (rangeVpns addr stop) = [] := by
          unfold mappedPages
          rw [List.filterMap_eq_nil_iff]
          intro vpn hv
          rw [hgone hv]
          rfl
        rw [hnil]
        rfl

theorem procMunmap_cases {proc : Process} (h : MmInv L roots held vmas kr s)
    (hr : roots (some i) = some r) (hsatp : rootPage proc.satp = r) (hvmas : proc.vmas = vmas i)
    (addr len : Nat) :
    MunmapCase L roots held vmas kr i r proc addr len s (procMunmap L proc addr len s) := by
  unfold procMunmap
  by_cases huser : ¬ proc.isUser = true
  · rw [if_pos huser]
    exact .refused fun stop hrange => huser hrange.user
  rw [if_neg huser]
  by_cases halign : ¬ isAligned addr = true
  · rw [if_pos halign]
    exact .refused fun stop hrange => halign ((isAligned_iff addr).mpr hrange.aligned)
  rw [if_neg halign, not_not, isAligned_iff] at *
  by_cases hlen : len = 0
  · rw [if_pos hlen]
    exact .refused fun stop hrange => hrange.nonempty hlen
  rw [if_neg hlen]
  dsimp only
  by_cases hwrap : u32 (addr + pageCeil len) < addr
  · rw [if_pos hwrap]
    refine .refused fun stop hrange => ?_
    have hle := hrange.le
    rw [hrange.stop_eq] at hle
    omega
  rw [if_neg hwrap]
  by_cases hout : addr < userMmapBase ∨ userMmapEnd < u32 (addr + pageCeil len)
  · rw [if_pos hout]
    refine .refused fun stop hrange => ?_
    have hbase := hrange.base
    have hfits := hrange.fits
    rw [hrange.stop_eq] at hfits
    omega
  rw [if_neg hout]
  have hrange : UnmapRange proc addr len (u32 (addr + pageCeil len)) :=
    ⟨huser, halign, hlen, rfl, by omega, by omega, by omega⟩
  generalize u32 (addr + pageCeil len) = stop at hrange ⊢
  have hcases := cutVmas_cases (h.vma hr) hrange.le
  rw [← hvmas] at hcases
  generalize hout : cutVmas addr stop (List.finRange procVmaMax) (proc.vmas, false) = out at hcases ⊢
  obtain ⟨ok, v, changed⟩ := out
  have hproc : { proc with vmas := vmas i } = proc := by rw [← hvmas]
  cases ok with
  | false =>
      rw [hvmas] at hcases
      cases hcases with
      | full hmeet hstrict hslot =>
          dsimp only
          rw [hproc]
          exact .full hrange hmeet hstrict hslot
  | true =>
      rw [hvmas] at hcases
      cases changed with
      | false =>
          obtain ⟨hv, hunmapped⟩ := h.unmapNothing hr hrange hcases
          refine .done hrange hcases hunmapped ?_ fun _ => rfl
          rw [hv]
          exact Stepped.refl h
      | true =>
          have hloop := h.unmapRange hr hsatp hrange hcases
          cases hrun : (pagesOf addr stop).foldlM (unmapAndFree L proc.satp) s with
          | error e =>
              rw [hrun] at hloop
              exact hloop.elim
          | ok s' =>
              rw [hrun] at hloop
              refine .done hrange hcases hloop.1 hloop.2 fun hnone => ?_
              cases hcases with
              | split hmeet hstrict hslot => exact absurd hmeet (hnone _)
              | trim hstrict hchanged => cases hchanged.mpr hnone

theorem procMunmap_spec {proc : Process} (h : MmInv L roots held vmas kr s)
    (hr : roots (some i) = some r) (hsatp : rootPage proc.satp = r) (hvmas : proc.vmas = vmas i)
    (addr len : Nat) :
    Outcome (procMunmap L proc addr len s)
      (fun out => ∃ v, out.2.1 = { proc with vmas := v } ∧
        Stepped L roots held vmas kr i r s v out.2.2)
      (fun _ => False) := by
  have hsame : ∃ v, proc = { proc with vmas := v } ∧ Stepped L roots held vmas kr i r s v s :=
    ⟨vmas i, by rw [← hvmas], Stepped.refl h⟩
  have hcases := procMunmap_cases h hr hsatp hvmas addr len
  generalize procMunmap L proc addr len s = out at hcases ⊢
  cases hcases with
  | refused hno => exact hsame
  | full hrange hmeet hstrict hslot => exact hsame
  | done hrange hcut hunmapped hstep hquiet => exact ⟨_, rfl, hstep⟩

/-! ## `proc_mmap` -/

theorem Stepped.trans {v v' : Vmas} (h : Stepped L roots held vmas kr i r s v s₁)
    (h' : Stepped L roots held (Function.update vmas i v) kr i r s₁ v' s') :
    Stepped L roots held vmas kr i r s v' s' := by
  refine ⟨?_, h.loc.trans h'.loc, fun hvpn hw => (h'.rest hvpn hw).trans (h.rest hvpn hw),
    fun hp => (h'.unmanaged hp).trans (h.unmanaged hp), fun htlb => h'.tlb (h.tlb htlb)⟩
  have := h'.inv
  rw [Function.update_idem] at this
  exact this

theorem mmapAdd_spec (proc : Process) (h : MmInv L roots held vmas kr s)
    (hr : roots (some i) = some r) (hvmas : proc.vmas = vmas i) {addr len prot : Nat}
    (hbase : userMmapBase ≤ addr) (hend : u32 (addr + len) ≤ userMmapEnd)
    (hprot : 0 < prot ∧ prot < 8) :
    ∃ v, (mmapAdd proc addr len prot).2 = { proc with vmas := v } ∧
      Stepped L roots held vmas kr i r s v s := by
  unfold mmapAdd
  cases hadd : procAddVma proc.vmas addr (u32 (addr + len)) prot with
  | none => exact ⟨vmas i, by rw [← hvmas], Stepped.refl h⟩
  | some v =>
      rw [hvmas] at hadd
      obtain ⟨hlt, hs, he, hover, j, hfree, rfl⟩ := procAddVma_some hadd
      have hv := (h.vma hr).add hfree ⟨hs, he⟩ hlt (v := ⟨true, addr, u32 (addr + len), prot⟩)
        ⟨by simp [Vma.inWindow, hbase, hend], hprot⟩ fun hused => overlapsAny_false hover hused
      refine ⟨_, rfl, h.change_vmas hr hv fun _ _ _ hleaf => ?_, Local.refl s, fun _ _ => rfl,
        fun _ => rfl, fun htlb => htlb⟩
      obtain ⟨hm, j', hcov, hrest⟩ := hleaf
      refine ⟨hm, j', ?_⟩
      rw [covers_update_free hfree hcov]
      exact ⟨hcov, hrest⟩

theorem mmapPlace_some {v : Vmas} (h : VmaInv L v) {addrHint len addr : Nat}
    (hplace : mmapPlace v addrHint len = some addr) :
    userMmapBase ≤ addr ∧ u32 (addr + len) ≤ userMmapEnd := by
  unfold mmapPlace at hplace
  simp only at hplace
  split at hplace
  · rename_i hhint
    rw [if_neg hhint.1] at hplace
    rw [← Option.some.inj hplace]
    exact ⟨hhint.2.2.1, hhint.2.2.2.1⟩
  · rw [if_pos rfl] at hplace
    exact findFreeLoop_some h _ _ hplace

theorem procMmap_spec {proc : Process} (h : MmInv L roots held vmas kr s)
    (hr : roots (some i) = some r) (hsatp : rootPage proc.satp = r) (hvmas : proc.vmas = vmas i)
    (addrHint len prot flags : Nat) :
    Outcome (procMmap L proc addrHint len prot flags s)
      (fun out => ∃ v, out.2.1 = { proc with vmas := v } ∧
        Stepped L roots held vmas kr i r s v out.2.2)
      (fun _ => False) := by
  have hsame : ∃ v, proc = { proc with vmas := v } ∧ Stepped L roots held vmas kr i r s v s :=
    ⟨vmas i, by rw [← hvmas], Stepped.refl h⟩
  unfold procMmap
  by_cases huser : ¬ proc.isUser = true
  · rw [if_pos huser]
    exact hsame
  rw [if_neg huser]
  by_cases hlen : len = 0
  · rw [if_pos hlen]
    exact hsame
  rw [if_neg hlen]
  by_cases hprot : 8 ≤ prot ∨ prot = 0
  · rw [if_pos hprot]
    exact hsame
  rw [if_neg hprot]
  have hprot' : 0 < prot ∧ prot < 8 := by omega
  simp only
  generalize pageCeil len = pages
  by_cases hfixed : flags &&& mapFixed ≠ 0
  · rw [if_pos hfixed]
    by_cases halign : ¬ isAligned addrHint = true
    · rw [if_pos halign]
      exact hsame
    rw [if_neg halign]
    by_cases hrange : addrHint < userMmapBase ∨ userMmapEnd < u32 (addrHint + pages) ∨
        u32 (addrHint + pages) < addrHint
    · rw [if_pos hrange]
      exact hsame
    rw [if_neg hrange]
    simp only [not_or, Nat.not_lt] at hrange
    have hunmap := procMunmap_spec h hr hsatp hvmas addrHint pages
    cases hcall : procMunmap L proc addrHint pages s with
    | error e =>
        rw [hcall] at hunmap
        exact hunmap.elim
    | ok out =>
        rw [hcall] at hunmap
        obtain ⟨ok, proc₁, s₁⟩ := out
        obtain ⟨v, hproc, hstep⟩ := hunmap
        simp only at hproc
        subst hproc
        cases ok with
        | false => exact ⟨v, rfl, hstep⟩
        | true =>
            obtain ⟨v', hadd, hstep'⟩ := mmapAdd_spec { proc with vmas := v }
              hstep.inv hr (by rw [Function.update_self])
              hrange.1 hrange.2.1 hprot'
            exact ⟨v', hadd, hstep.trans hstep'⟩
  · rw [if_neg hfixed]
    cases hplace : mmapPlace proc.vmas addrHint pages with
    | none => exact hsame
    | some addr =>
        rw [hvmas] at hplace
        obtain ⟨hbase, hend⟩ := mmapPlace_some (h.vma hr) hplace
        exact mmapAdd_spec proc h hr hvmas hbase hend hprot'

/-! ## Clearing the window -/

/-- Sweeping the VMAs of the window leaves nothing mapped there. -/
theorem MmInv.window_gone (h : MmInv L roots held vmas kr s) (hr : roots (some i) = some r)
    {P : Nat → Prop} (hswept : Swept roots i P s s')
    (hall : ∀ {vpn}, vpn ∈ windowVpns (vmas i) → P vpn) {vpn : Nat} (hvpn : vpn < 1048576)
    (hw : windowPage vpn) : walk s'.mem r vpn = none := by
  by_cases hP : P vpn
  · exact hswept.gone hr hvpn hP
  · rw [hswept.walk hr hvpn fun hc => hP hc.2]
    by_contra hsome
    obtain ⟨leaf, hwalk⟩ := Option.ne_none_iff_exists'.mp hsome
    have hfits := h.fits hr hvpn hwalk
    rw [leafFits_window hw] at hfits
    obtain ⟨-, j, hcov, -⟩ := hfits
    refine hP (hall ((mem_windowVpns (h.vma hr)).mpr ⟨j, hcov, ?_⟩))
    exact ((h.vma hr).window hcov hw).1

theorem windowVpns_low {v : Vmas} (hv : VmaInv L v) {vpn : Nat} (h : vpn ∈ windowVpns v) :
    vpn < 1048576 ∧ windowPage vpn := by
  obtain ⟨j, hcov, hwin⟩ := (mem_windowVpns hv).mp h
  exact inWindow_page hwin hcov

/-- `proc_vm_reset` and `proc_vm_init` as `proc_exec` calls them: the window is
empty and the VMAs are the standard ones. -/
theorem resetInit_spec {proc : Process} (h : MmInv L roots held vmas kr s)
    (hr : roots (some i) = some r) (hsatp : rootPage proc.satp = r) (hvmas : proc.vmas = vmas i)
    (hbase : proc.userStackBase = 0x3fffe000) (hpages : proc.userStackPages = 2) :
    Outcome (procVmReset L proc s)
      (fun out => ∃ v, procVmInit L out.1 = (true, { proc with vmas := v }) ∧
        Stepped L roots held vmas kr i r s v out.2 ∧
        Swept roots i (· ∈ windowVpns (vmas i)) s out.2 ∧
        ∀ {j}, (v j).used = true → v j ∈ standardVmas L)
      (fun _ => False) := by
  unfold procVmReset
  rw [hvmas, windowPages_eq (h.vma hr)]
  obtain ⟨s', hrun, h', hswept, -⟩ := (sweep_spec hr hsatp (windowVpns (vmas i)) h fun vpn hv =>
    ⟨(windowVpns_low (h.vma hr) hv).1, .inl (windowVpns_low (h.vma hr) hv).2⟩).exists_ok
  rw [hrun]
  obtain ⟨v, hinit, hv, hstd⟩ := procVmInit_spec (L := L)
    hbase hpages
  refine ⟨v, hinit, ?_, hswept, hstd⟩
  refine hswept.stepped h h' hr (fun hv => (windowVpns_low (h.vma hr) hv).2) hv ?_
  intro vpn leaf hvpn hw hwalk _
  rw [h.window_gone hr hswept id hvpn hw] at hwalk
  cases hwalk

/-! ## `proc_vm_release` -/

/-- The pages `proc_vm_release` gives back. -/
def Released (v : Vmas) (vpn : Nat) : Prop := vpn ∈ windowVpns v ∨ stackPage vpn

theorem procVmRelease_spec {proc : Process} (h : MmInv L roots held vmas kr s)
    (hr : roots (some i) = some r) (huser : proc.isUser = true) (hsatp : rootPage proc.satp = r)
    (hnonzero : proc.satp ≠ 0) (hvmas : proc.vmas = vmas i)
    (hbase : proc.userStackBase = 0x3fffe000) (hpages : proc.userStackPages = 2) :
    Outcome (procVmRelease L proc s)
      (fun s' => MmInv L roots held vmas kr s' ∧ Swept roots i (Released (vmas i)) s s')
      (fun _ => False) := by
  have hstack : (List.range proc.userStackPages).map
      (fun j => u32 (proc.userStackBase + j * pageSize)) =
      [stackVpn, stackVpn + 1].map (· * 4096) := by
    rw [hbase, hpages]
    decide
  have hlow : ∀ vpn ∈ [stackVpn, stackVpn + 1],
      vpn < 1048576 ∧ (windowPage vpn ∨ stackPage vpn) := by
    intro vpn hv
    simp only [List.mem_cons, List.not_mem_nil, or_false] at hv
    unfold stackPage inBlock stackVpn
    unfold stackVpn at hv
    omega
  unfold procVmRelease
  rw [if_neg (by rw [huser]; simp), hvmas, windowPages_eq (h.vma hr), hstack]
  refine (sweep_spec hr hsatp (windowVpns (vmas i)) h fun vpn hv =>
    ⟨(windowVpns_low (h.vma hr) hv).1, .inl (windowVpns_low (h.vma hr) hv).2⟩).bind
    fun s₁ ⟨h₁, hswept₁, _⟩ => ?_
  rw [if_neg hnonzero]
  refine (sweep_spec hr hsatp _ h₁ hlow).imp fun s' ⟨h', hswept, _⟩ => ⟨h', ?_⟩
  refine (hswept₁.trans hswept).congr fun vpn => ?_
  refine or_congr_right ?_
  simp only [List.mem_cons, List.not_mem_nil, or_false]
  unfold stackPage inBlock stackVpn
  omega

end Sugimotos.Proc
