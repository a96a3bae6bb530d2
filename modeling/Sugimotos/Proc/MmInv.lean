/-
# The invariant of all address spaces

How `MmInv` moves through the elementary operations: changes that leave every
translation alone, one new translation, and the loops that give pages back.
-/

import Sugimotos.Math.Outcome
import Sugimotos.Proc.Leaves

namespace Sugimotos.Proc

open Sugimotos.Math Sugimotos.Mm

variable {L : Layout} {roots : Space → Option Nat} {held : Nat → Nat}
  {vmas : Fin procMax → Vmas} {kr : Nat} {s s' : Phys}

/-! ## Pages in use -/

/-- A page that some user leaf shows is no page table and not free. -/
theorem leaf_in_use {a : Allocator} {mem : Memory} (h : VmInv L roots held a mem) {space : Space}
    {r vpn : Nat} {leaf : Leaf} (hr : roots space = some r) (hvpn : vpn < 1048576)
    (hwalk : walk mem r vpn = some leaf) (hU : leaf.perm &&& pteU ≠ 0) :
    VmInv.NoTable roots mem leaf.ppn ∧ (L.Managed leaf.ppn → refcntOf L a leaf.ppn ≠ 0) := by
  have htarget := VmInv.target_leaf hr hvpn hwalk hU
  refine ⟨h.noTable_of_leaf htarget, fun hm hzero => ?_⟩
  exact h.target_ne_of_refcnt_zero hm hzero _ htarget

/-- A VMA that holds a page of the mmap window lies in the window. -/
theorem VmaInv.window {v : Vmas} (h : VmaInv L v) {i : Fin procVmaMax} {vpn : Nat}
    (hcov : (v i).Covers vpn) (hw : windowPage vpn) :
    (v i).inWindow = true ∧ 0 < (v i).prot ∧ (v i).prot < 8 := by
  obtain ⟨h₀, h₁, h₂, h₃, h₄, h₅, h₆, h₇, h₈, h₉, h₁₀⟩ := Layout.order (L := L)
  obtain ⟨hused, hlo, hhi⟩ := hcov
  rcases h.place hused with hplace | hstd
  · exact hplace
  · exfalso
    unfold windowPage inBlock at hw
    simp only [standardVmas, List.mem_cons, List.not_mem_nil, or_false] at hstd
    rcases hstd with hv | hv | hv | hv | hv <;> rw [hv] at hlo hhi <;> simp only at hlo hhi <;> omega

theorem cowProt_lt {prot : Nat} (h : prot < 8) : cowProt prot < 8 := by
  unfold cowProt
  omega

theorem cowProt_write (prot : Nat) (h : prot < 8) : cowProt prot &&& vmaProtW = 0 := by
  unfold cowProt
  interval_cases prot <;> decide

/-- Every translation in the mmap window is for user mode. -/
theorem WindowLeaf.user {v : Vmas} {mem : Memory} {vpn : Nat} {leaf : Leaf}
    (h : WindowLeaf L v mem vpn leaf) (hv : VmaInv L v) (hw : windowPage vpn) :
    leaf.perm &&& pteU ≠ 0 := by
  obtain ⟨-, i, hcov, hperm, -⟩ := h
  obtain ⟨-, -, hprot⟩ := hv.window hcov hw
  rcases hperm with hperm | hperm <;> rw [hperm]
  · exact userPerm_user hprot
  · exact userPerm_user (cowProt_lt hprot)

/-- Translations in the window and on the stack are for user mode and show
managed pages. -/
theorem MmInv.low_user (h : MmInv L roots held vmas kr s) {i : Fin procMax} {r vpn : Nat}
    {leaf : Leaf} (hr : roots (some i) = some r) (hvpn : vpn < 1048576)
    (hlow : windowPage vpn ∨ stackPage vpn) (hwalk : walk s.mem r vpn = some leaf) :
    leaf.perm &&& pteU ≠ 0 ∧ L.Managed leaf.ppn := by
  have hfits := h.fits hr hvpn hwalk
  rcases hlow with hw | hs
  · rw [leafFits_window hw] at hfits
    exact ⟨hfits.user (h.vma hr) hw, hfits.managed⟩
  · rw [leafFits_stack hs] at hfits
    obtain ⟨hm, hperm⟩ := hfits
    refine ⟨?_, hm⟩
    rcases hperm with hperm | hperm <;> rw [hperm] <;> decide

/-! ## Changes that leave translations alone -/

/-- The translations stay, and so do the contents of the pages in the window. -/
theorem MmInv.of_walk (h : MmInv L roots held vmas kr s) {w : Nat → Nat}
    (hvm : VmInv L roots w s'.alloc s'.mem)
    (hwalk : ∀ {space r vpn}, roots space = some r → vpn < 1048576 →
      walk s'.mem r vpn = walk s.mem r vpn)
    (hpage : ∀ {i r vpn leaf}, roots (some i) = some r → vpn < 1048576 → windowPage vpn →
      walk s.mem r vpn = some leaf → s'.mem leaf.ppn = s.mem leaf.ppn) :
    MmInv L roots w vmas kr s' := by
  refine ⟨hvm, h.kernel, fun hvpn => ?_, h.vma, ?_⟩
  · rw [hwalk h.kernel hvpn]
    exact h.kernelWalk hvpn
  · intro i r vpn leaf hr hvpn hleaf
    rw [hwalk hr hvpn] at hleaf
    exact (h.fits hr hvpn hleaf).congr_mem fun hw => hpage hr hvpn hw hleaf

/-- Counts change, memory does not. -/
theorem MmInv.of_alloc (h : MmInv L roots held vmas kr s) {w : Nat → Nat}
    (hvm : VmInv L roots w s'.alloc s'.mem) (hmem : s'.mem = s.mem) :
    MmInv L roots w vmas kr s' := by
  refine h.of_walk hvm (fun _ _ => by rw [hmem]) fun _ _ _ _ => by rw [hmem]

/-- The memory of pages that are no tables and not mapped in the window changes. -/
theorem MmInv.window_page (h : MmInv L roots held vmas kr s) {i : Fin procMax} {r vpn : Nat}
    {leaf : Leaf} (hr : roots (some i) = some r) (hvpn : vpn < 1048576) (hw : windowPage vpn)
    (hwalk : walk s.mem r vpn = some leaf) :
    VmInv.NoTable roots s.mem leaf.ppn ∧ (L.Managed leaf.ppn → refcntOf L s.alloc leaf.ppn ≠ 0) :=
  leaf_in_use h.vm hr hvpn hwalk (h.low_user hr hvpn (.inl hw) hwalk).1

/-- Pages just handed out are held by the caller. -/
theorem MmInv.allocate (h : MmInv L roots held vmas kr s) {q n : Nat} (hal : Allocated L q n s s') :
    MmInv L roots (fun p => held p + if inBlock q n p then 1 else 0) vmas kr s' := by
  obtain ⟨hsame, hvm⟩ := h.vm.allocate hal
  refine h.of_walk hvm (fun hr hvpn => hsame.walk hr hvpn) ?_
  intro i r vpn leaf hr hvpn hw hwalk
  obtain ⟨-, hcount⟩ := h.window_page hr hvpn hw hwalk
  rw [hal.mem, if_neg]
  intro hin
  exact hcount (hal.managed _ hin) (hal.wasFree _ hin)

/-- Filling a page that only the caller holds. -/
theorem MmInv.fill (h : MmInv L roots held vmas kr s) {p : Nat} (hm : L.Managed p)
    (hheld : 0 < held p) (hone : refcntOf L s.alloc p = 1) (page : PageBytes) :
    MmInv L roots held vmas kr (s.setPage (p * 4096) page) := by
  have hmem : (s.setPage (p * 4096) page).mem = Function.update s.mem p page := by
    simp only [Phys.setPage, Nat.mul_div_cancel _ (show 0 < 4096 by decide)]
  have hsame := VmInv.sameTables_update (h.vm.noTable_of_held hm hheld) page
  refine h.of_walk ?_ (fun hr hvpn => ?_) ?_
  · rw [hmem]
    exact h.vm.congr_mem hsame
  · rw [hmem]
    exact hsame.walk hr hvpn
  · intro i r vpn leaf hr hvpn hw hwalk
    rw [hmem]
    apply Function.update_of_ne
    rintro rfl
    have htarget := VmInv.target_leaf hr hvpn hwalk (h.low_user hr hvpn (.inl hw) hwalk).1
    have := h.vm.held_zero_of_single hm hone htarget
    omega

/-! ## One new translation -/

/-- A new translation that is allowed where it is put, while pages in use keep
their contents. -/
theorem MmInv.remap (h : MmInv L roots held vmas kr s) {w : Nat → Nat} {i : Fin procMax}
    {vpn : Nat} {new : Option Leaf} (hvm : VmInv L roots w s'.alloc s'.mem)
    (hnew : ∀ {space r' vpn'}, roots space = some r' → vpn' < 1048576 →
      walk s'.mem r' vpn' = if space = some i ∧ vpn' = vpn then new else walk s.mem r' vpn')
    (hpage : ∀ {p}, VmInv.NoTable roots s.mem p → (L.Managed p → refcntOf L s.alloc p ≠ 0) →
      s'.mem p = s.mem p)
    (hfits : ∀ leaf, new = some leaf → LeafFits L (vmas i) s'.mem vpn leaf) :
    MmInv L roots w vmas kr s' := by
  refine ⟨hvm, h.kernel, fun hvpn => ?_, h.vma, ?_⟩
  · rw [hnew h.kernel hvpn, if_neg (by simp)]
    exact h.kernelWalk hvpn
  · intro i' r' vpn' leaf hr' hvpn' hwalk
    rw [hnew hr' hvpn'] at hwalk
    split at hwalk
    · rename_i hsame
      obtain ⟨hi, rfl⟩ := hsame
      rw [Option.some.inj hi]
      exact hfits leaf hwalk
    · refine (h.fits hr' hvpn' hwalk).congr_mem fun hw => ?_
      obtain ⟨hno, hcount⟩ := h.window_page hr' hvpn' hw hwalk
      exact hpage hno hcount

theorem MmInv.mapped (h : MmInv L roots held vmas kr s) {w : Nat → Nat} {i : Fin procMax}
    {r vpn : Nat} {new : Option Leaf} (hvm : VmInv L roots w s'.alloc s'.mem)
    (hmapped : Mapped L roots (some i) r vpn new s s')
    (hfits : ∀ leaf, new = some leaf → LeafFits L (vmas i) s'.mem vpn leaf) :
    MmInv L roots w vmas kr s' :=
  h.remap hvm hmapped.walk hmapped.page hfits

/-- The fixed parts stay complete if the new translation is there or in the
window. -/
theorem Complete.mapped {space : Space} {r r' vpn : Nat} {new : Option Leaf} {space' : Space}
    (h : Complete L s.mem r') (hr' : roots space' = some r')
    (hmapped : Mapped L roots space r vpn new s s')
    (hnew : windowPage vpn ∨ new.isSome = true ∨ space' ≠ space) : Complete L s'.mem r' := by
  intro vpn' hvpn' hw hthere
  rw [hmapped.walk hr' hvpn']
  split
  · rename_i hsame
    rcases hnew with hwin | hsome | hne
    · exact absurd (hsame.2 ▸ hwin) hw
    · exact hsome
    · exact absurd hsame.1 hne
  · exact h hvpn' hw hthere

theorem Complete.of_walk {r : Nat} (h : Complete L s.mem r)
    (hwalk : ∀ {vpn}, vpn < 1048576 → walk s'.mem r vpn = walk s.mem r vpn) :
    Complete L s'.mem r := by
  intro vpn hvpn
  rw [hwalk hvpn]
  exact h hvpn

/-! ## Giving pages back -/

/-- `free_pages` of one page after the other. -/
def freeEach (L : Layout) (pages : List Nat) (a : Allocator) : Except Panic Allocator :=
  pages.foldlM (fun a p => freePages L (p * 4096) 1 a) a

/-- The physical pages mapped at the given page numbers. -/
def mappedPages (mem : Memory) (r : Nat) (vpns : List Nat) : List Nat :=
  vpns.filterMap fun vpn => (walk mem r vpn).map Leaf.ppn

theorem mem_mappedPages {mem : Memory} {r p : Nat} {vpns : List Nat} :
    p ∈ mappedPages mem r vpns ↔ ∃ vpn ∈ vpns, ∃ leaf, walk mem r vpn = some leaf ∧ leaf.ppn = p := by
  unfold mappedPages
  simp only [List.mem_filterMap, Option.map_eq_some_iff]

theorem mappedPages_cons (mem : Memory) (r vpn : Nat) (rest : List Nat) :
    mappedPages mem r (vpn :: rest) = mappedPages mem r [vpn] ++ mappedPages mem r rest :=
  List.filterMap_append (l := [vpn])

theorem freeEach_append {L : Layout} {first second : List Nat} {a a₁ : Allocator}
    (h : freeEach L first a = .ok a₁) : freeEach L (first ++ second) a = freeEach L second a₁ := by
  unfold freeEach at h ⊢
  rw [List.foldlM_append, h]
  rfl

/-- The pages of process `i` in `P` are unmapped; no other translation and no
page contents change. -/
structure Swept (roots : Space → Option Nat) (i : Fin procMax) (P : Nat → Prop) (s s' : Phys) :
    Prop where
  walk : ∀ {space r vpn}, roots space = some r → vpn < 1048576 → ¬ (space = some i ∧ P vpn) →
    Mm.walk s'.mem r vpn = Mm.walk s.mem r vpn
  gone : ∀ {r vpn}, roots (some i) = some r → vpn < 1048576 → P vpn → Mm.walk s'.mem r vpn = none
  page : ∀ {p}, VmInv.NoTable roots s.mem p → s'.mem p = s.mem p
  noTable : ∀ {p}, VmInv.NoTable roots s.mem p → VmInv.NoTable roots s'.mem p
  satp : s'.mmu.satp = s.mmu.satp
  tlb : TlbOk s → TlbOk s'

namespace Swept

variable {i : Fin procMax} {P Q : Nat → Prop} {s₁ : Phys}

theorem refl (h : ∀ {r vpn}, roots (some i) = some r → vpn < 1048576 → P vpn →
    Mm.walk s.mem r vpn = none) : Swept roots i P s s :=
  ⟨fun _ _ _ => rfl, h, fun _ => rfl, fun hp => hp, rfl, fun htlb => htlb⟩

theorem trans (h : Swept roots i P s s₁) (h' : Swept roots i Q s₁ s') :
    Swept roots i (fun vpn => P vpn ∨ Q vpn) s s' := by
  refine ⟨?_, ?_, ?_, fun hp => h'.noTable (h.noTable hp), h'.satp.trans h.satp,
    fun htlb => h'.tlb (h.tlb htlb)⟩
  · intro space r vpn hr hvpn hnot
    rw [h'.walk hr hvpn (fun hc => hnot ⟨hc.1, .inr hc.2⟩),
      h.walk hr hvpn (fun hc => hnot ⟨hc.1, .inl hc.2⟩)]
  · intro r vpn hr hvpn hPQ
    by_cases hQ : Q vpn
    · exact h'.gone hr hvpn hQ
    · rw [h'.walk hr hvpn (fun hc => hQ hc.2)]
      exact h.gone hr hvpn (hPQ.resolve_right hQ)
  · intro p hp
    rw [h'.page (h.noTable hp), h.page hp]

theorem congr (h : Swept roots i P s s') (hPQ : ∀ vpn, P vpn ↔ Q vpn) : Swept roots i Q s s' := by
  have heq : P = Q := funext fun vpn => propext (hPQ vpn)
  rw [← heq]
  exact h

end Swept

/-- One turn of the loops that give pages back. -/
theorem unmapAndFree_spec (h : MmInv L roots held vmas kr s) {i : Fin procMax} {r satp vpn : Nat}
    (hr : roots (some i) = some r) (hsatp : rootPage satp = r) (hvpn : vpn < 1048576)
    (hlow : windowPage vpn ∨ stackPage vpn) :
    Outcome (unmapAndFree L satp s (vpn * 4096))
      (fun s' => MmInv L roots held vmas kr s' ∧ Swept roots i (· = vpn) s s' ∧
        freeEach L (mappedPages s.mem r [vpn]) s.alloc = .ok s'.alloc)
      (fun _ => False) := by
  have hquery := vmQueryUserPage_eq satp (vpn * 4096) (by omega) (by omega) s
  rw [Nat.mul_div_cancel _ (by decide), hsatp] at hquery
  unfold unmapAndFree
  rw [hquery]
  cases hwalk : walk s.mem r vpn with
  | none =>
      refine ⟨h, Swept.refl ?_, ?_⟩
      · rintro r' vpn' hr' - rfl
        rw [hr] at hr'
        rw [← Option.some.inj hr']
        exact hwalk
      · unfold mappedPages
        rw [List.filterMap_cons_none (by rw [hwalk]; rfl)]
        rfl
  | some leaf =>
      obtain ⟨hU, hm⟩ := h.low_user hr hvpn hlow hwalk
      obtain ⟨s₁, hunmap, halloc, hvm₁, hmapped, ⟨t, ht, hmem⟩, hmmu⟩ := vmUnmapUserPage_spec
        (w := fun p => held p + if p = leaf.ppn then 1 else 0) h.vm hr hsatp hvpn hwalk hU
        (by simp) (fun p hp => by simp [hp])
      simp only [Option.map_some, hunmap, Phys.withAlloc]
      obtain ⟨a', hfree, hvm', -⟩ := (hvm₁.freePages (w := held) hm (by simp) (by simp)
        (fun p hp => by simp [hp])).exists_ok
      rw [hfree]
      have h₁ := h.mapped hvm₁ hmapped (fun _ hc => by cases hc)
      have hfreed : freeEach L (mappedPages s.mem r [vpn]) s.alloc = .ok a' := by
        unfold mappedPages
        rw [List.filterMap_cons_some (by rw [hwalk]; rfl), ← halloc]
        unfold freeEach
        rw [List.foldlM_cons, hfree]
        rfl
      refine ⟨h₁.of_alloc hvm' rfl, ⟨?_, ?_, ?_, ?_, ?_, ?_⟩, hfreed⟩
      · intro space r' vpn' hr' hvpn' hnot
        show walk s₁.mem r' vpn' = _
        rw [hmapped.walk hr' hvpn', if_neg hnot]
      · rintro r' vpn' hr' hvpn' rfl
        show walk s₁.mem r' vpn' = _
        rw [hmapped.walk hr' hvpn', if_pos ⟨rfl, rfl⟩]
      · intro p hp
        show s₁.mem p = _
        rw [hmem]
        exact (noTable_setEntry h.vm hr hvpn ht hp).1
      · intro p hp
        show VmInv.NoTable roots s₁.mem p
        rw [hmem]
        exact (noTable_setEntry h.vm hr hvpn ht hp).2
      · show s₁.mmu.satp = _
        rw [hmmu]
        rfl
      · intro _
        apply TlbOk.of_empty
        show s₁.mmu.tlb = _
        rw [hmmu]

/-- The loop over a list of pages of the window and the stack. -/
theorem sweep_spec {i : Fin procMax} {r satp : Nat} (hr : roots (some i) = some r)
    (hsatp : rootPage satp = r) (vpns : List Nat) (h : MmInv L roots held vmas kr s)
    (hlow : ∀ vpn ∈ vpns, vpn < 1048576 ∧ (windowPage vpn ∨ stackPage vpn)) :
    Outcome ((vpns.map (· * 4096)).foldlM (unmapAndFree L satp) s)
      (fun s' => MmInv L roots held vmas kr s' ∧ Swept roots i (· ∈ vpns) s s' ∧
        (vpns.Nodup → freeEach L (mappedPages s.mem r vpns) s.alloc = .ok s'.alloc))
      (fun _ => False) := by
  induction vpns generalizing s with
  | nil =>
      refine ⟨h, Swept.refl ?_, fun _ => rfl⟩
      intro r' vpn _ _ hmem
      cases hmem
  | cons vpn rest ih =>
      obtain ⟨hvpn, hregion⟩ := hlow vpn (by simp)
      rw [List.map_cons, List.foldlM_cons]
      refine (unmapAndFree_spec h hr hsatp hvpn hregion).bind fun s₁ ⟨h₁, hswept₁, hfreed₁⟩ => ?_
      refine (ih h₁ fun v hv => hlow v (by simp [hv])).imp fun s' ⟨h', hswept, hfreed⟩ => ⟨h', ?_, ?_⟩
      · exact (hswept₁.trans hswept).congr fun v => by simp
      · intro hnodup
        obtain ⟨hhead, hrest⟩ := List.nodup_cons.mp hnodup
        -- the first turn leaves the later translations alone
        have hlater : mappedPages s₁.mem r rest = mappedPages s.mem r rest := by
          apply List.filterMap_congr
          intro v hv
          have hne : v ≠ vpn := by
            rintro rfl
            exact hhead hv
          rw [hswept₁.walk hr (hlow v (by simp [hv])).1 fun hc => hne hc.2]
        rw [mappedPages_cons, freeEach_append hfreed₁, ← hlater]
        exact hfreed hrest

/-- Different pages of one space show different physical pages. -/
theorem MmInv.mappedPages_nodup (h : MmInv L roots held vmas kr s) {i : Fin procMax} {r : Nat}
    (hr : roots (some i) = some r) {vpns : List Nat} (hnodup : vpns.Nodup)
    (hlow : ∀ vpn ∈ vpns, vpn < 1048576 ∧ (windowPage vpn ∨ stackPage vpn)) :
    (mappedPages s.mem r vpns).Nodup := by
  unfold mappedPages
  rw [List.Nodup, List.pairwise_filterMap]
  refine (List.Pairwise.and_mem.mp hnodup).imp ?_
  rintro v v' ⟨hv, hv', hne⟩ p hp p' hp' rfl
  obtain ⟨leaf, hwalk, rfl⟩ := Option.map_eq_some_iff.mp hp
  obtain ⟨leaf', hwalk', heq⟩ := Option.map_eq_some_iff.mp hp'
  obtain ⟨hlt, hregion⟩ := hlow v hv
  obtain ⟨hlt', hregion'⟩ := hlow v' hv'
  obtain ⟨hU, hm⟩ := h.low_user hr hlt hregion hwalk
  obtain ⟨hU', -⟩ := h.low_user hr hlt' hregion' hwalk'
  have htarget := VmInv.target_leaf hr hlt hwalk hU
  have htarget' := VmInv.target_leaf hr hlt' hwalk' hU'
  rw [heq] at htarget'
  exact hne (congrArg Fin.val (h.vm.same_vpn hm htarget htarget'))

/-! ## Page lists -/

theorem pagesOf_eq {start stop : Nat} (hstart : start % 4096 = 0) (hstop : stop % 4096 = 0) :
    pagesOf start stop =
      (List.range' (start / 4096) ((stop - start) / 4096)).map (· * 4096) := by
  have hcount : (stop - start + (pageSize - 1)) / pageSize = (stop - start) / 4096 := by
    unfold pageSize
    omega
  unfold pagesOf pageOffsets
  rw [hcount, List.range'_eq_map_range, List.map_map, List.map_map]
  apply List.map_congr_left
  intro j _
  simp only [Function.comp_apply, pageSize]
  omega

theorem mem_range_pages {start stop vpn : Nat} (hstart : start % 4096 = 0)
    (hstop : stop % 4096 = 0) (hle : start ≤ stop) :
    vpn ∈ List.range' (start / 4096) ((stop - start) / 4096) ↔
      start ≤ vpn * 4096 ∧ vpn * 4096 < stop := by
  rw [List.mem_range'_1]
  omega

/-- The page numbers of `windowPages`. -/
def windowVpns (v : Vmas) : List Nat :=
  (List.finRange procVmaMax).flatMap fun i =>
    if (v i).used && (v i).inWindow then
      List.range' ((v i).start / 4096) (((v i).stop - (v i).start) / 4096)
    else []

theorem windowPages_eq {v : Vmas} (h : VmaInv L v) :
    windowPages v = (windowVpns v).map (· * 4096) := by
  unfold windowPages windowVpns
  rw [List.map_flatMap]
  congr 1
  funext i
  by_cases hi : ((v i).used && (v i).inWindow) = true
  · obtain ⟨hstart, hstop, -⟩ := h.aligned (i := i) (by simp_all)
    rw [if_pos hi, if_pos hi, pagesOf_eq hstart hstop]
  · rw [if_neg hi, if_neg hi, List.map_nil]

theorem mem_windowVpns {v : Vmas} (h : VmaInv L v) {vpn : Nat} :
    vpn ∈ windowVpns v ↔ ∃ i, (v i).Covers vpn ∧ (v i).inWindow = true := by
  unfold windowVpns
  simp only [List.mem_flatMap, List.mem_finRange, true_and]
  refine exists_congr fun i => ?_
  by_cases hi : ((v i).used && (v i).inWindow) = true
  · rw [if_pos hi]
    simp only [Bool.and_eq_true] at hi
    obtain ⟨hstart, hstop, hlt⟩ := h.aligned hi.1
    rw [mem_range_pages hstart hstop (by omega)]
    unfold Vma.Covers
    tauto
  · rw [if_neg hi]
    simp only [Bool.and_eq_true] at hi
    unfold Vma.Covers
    simp only [List.not_mem_nil, false_iff]
    tauto

theorem inWindow_page {v : Vma} {vpn : Nat} (h : v.inWindow = true) (hcov : v.Covers vpn) :
    vpn < 1048576 ∧ windowPage vpn := by
  obtain ⟨-, hlo, hhi⟩ := hcov
  simp only [Vma.inWindow, userMmapBase, userMmapEnd, Bool.and_eq_true, decide_eq_true_eq] at h
  unfold windowPage inBlock
  omega

end Sugimotos.Proc
