/-
# Address spaces come and go

How `MmInv` moves when the space of a process is built, filled by a fork, or
given up.
-/

import Sugimotos.Proc.Clone

namespace Sugimotos.Proc

open Sugimotos.Math Sugimotos.Mm

variable {L : Layout} {roots : Space → Option Nat} {held : Nat → Nat}
  {vmas : Fin procMax → Vmas} {kr : Nat} {s s' : Phys} {i : Fin procMax} {r q : Nat}

/-- The VMAs of slots without an address space do not matter. -/
theorem MmInv.congr_vmas (h : MmInv L roots held vmas kr s) {vmas' : Fin procMax → Vmas}
    (hvmas : ∀ i r, roots (some i) = some r → vmas' i = vmas i) :
    MmInv L roots held vmas' kr s := by
  refine ⟨h.vm, h.kernel, h.kernelWalk, ?_, ?_⟩
  · intro i r hr
    rw [hvmas i r hr]
    exact h.vma hr
  · intro i r vpn leaf hr hvpn hwalk
    rw [hvmas i r hr]
    exact h.fits hr hvpn hwalk

/-! ## A fresh space -/

/-- Mapping sections over a translation looks at one page at a time. -/
theorem onto_congr (sections : List Section) {K K' : Nat → Option Leaf} {vpn : Nat}
    (h : K vpn = K' vpn) :
    (sections.foldl Section.onto K) vpn = (sections.foldl Section.onto K') vpn := by
  induction sections generalizing K K' with
  | nil => exact h
  | cons sec rest ih =>
      apply ih
      unfold Section.onto overlay
      rw [h]

/-- The translations of a fresh process. -/
theorem image_eq {K : Nat → Option Leaf} {vpn : Nat} (hK : K vpn = kernelLeaf vpn) :
    image L q K vpn =
      if stackPage vpn then some ⟨q + (vpn - stackVpn), 22⟩ else fixedLeaf L vpn := by
  unfold image fixedLeaf
  rw [← onto_congr (userSections L) hK]
  rfl

theorem freshLeaf_fits {v : Vmas} {mem : Memory} {vpn : Nat} {leaf : Leaf}
    (hstack : ∀ p, inBlock q 2 p → L.Managed p)
    (hleaf : (if stackPage vpn then some ⟨q + (vpn - stackVpn), 22⟩ else fixedLeaf L vpn) =
      some leaf) : LeafFits L v mem vpn leaf := by
  by_cases hs : stackPage vpn
  · rw [if_pos hs] at hleaf
    rw [leafFits_stack hs, ← Option.some.inj hleaf]
    refine ⟨hstack _ ?_, Or.inl rfl⟩
    unfold stackPage inBlock at hs
    unfold inBlock
    dsimp only
    omega
  · rw [if_neg hs] at hleaf
    by_cases hw : windowPage vpn
    · rw [fixedLeaf_low (Or.inl hw)] at hleaf
      cases hleaf
    · by_cases hd : dataPage L vpn
      · rw [fixedLeaf_eq, if_pos hd] at hleaf
        rw [leafFits_data hd, ← Option.some.inj hleaf]
        exact Or.inl ⟨rfl, Or.inl rfl⟩
      · rw [leafFits_rest hw hs hd]
        exact hleaf

/-- What others do not notice keeps what they may have mapped. -/
theorem MmInv.quiet_fits (h : MmInv L roots held vmas kr s) (hquiet : Quiet L roots s s')
    {vpn : Nat} {leaf : Leaf} (hr : roots (some i) = some r) (hvpn : vpn < 1048576)
    (hwalk : walk s'.mem r vpn = some leaf) : LeafFits L (vmas i) s'.mem vpn leaf := by
  rw [hquiet.walk hr hvpn] at hwalk
  apply (h.fits hr hvpn hwalk).congr_mem
  intro hw
  obtain ⟨hno, hcount⟩ := h.window_page hr hvpn hw hwalk
  exact hquiet.page hno hcount

/-- A failed construction leaves everything in place. -/
theorem MmInv.of_quiet (h : MmInv L roots held vmas kr s) {w : Nat → Nat}
    (hquiet : Quiet L roots s s') (hvm : VmInv L roots w s'.alloc s'.mem) :
    MmInv L roots w vmas kr s' := by
  refine ⟨hvm, h.kernel, fun hvpn => ?_, h.vma, fun hr hvpn hwalk => ?_⟩
  · rw [hquiet.walk h.kernel hvpn]
    exact h.kernelWalk hvpn
  · exact h.quiet_fits hquiet hr hvpn hwalk

/-- A space that was built joins the others. -/
theorem MmInv.addUser (h : MmInv L roots held vmas kr s) (hnone : roots (some i) = none)
    (hquiet : Quiet L roots s s') (hbuilt : Built L roots held (some i) kr q r s s')
    (hstack : ∀ p, inBlock q 2 p → L.Managed p) {v : Vmas} (hv : VmaInv L v) :
    MmInv L (Function.update roots (some i) (some r)) (heldAfter held q 2)
      (Function.update vmas i v) kr s' := by
  have hold : ∀ {j r'}, j ≠ i → Function.update roots (some i) (some r) (some j) = some r' →
      roots (some j) = some r' := by
    intro j r' hj hr'
    rw [Function.update_of_ne (by simpa using hj)] at hr'
    exact hr'
  refine ⟨hbuilt.inv, ?_, fun hvpn => ?_, ?_, ?_⟩
  · rw [Function.update_of_ne (Option.some_ne_none i).symm]
    exact h.kernel
  · rw [hquiet.walk h.kernel hvpn]
    exact h.kernelWalk hvpn
  · intro j r' hr'
    by_cases hj : j = i
    · subst hj
      rw [Function.update_self]
      exact hv
    · rw [Function.update_of_ne hj]
      exact h.vma (hold hj hr')
  · intro j r' vpn leaf hr' hvpn hwalk
    by_cases hj : j = i
    · subst hj
      rw [Function.update_self] at hr'
      rw [← Option.some.inj hr', hbuilt.walk hvpn, image_eq (h.kernelWalk hvpn)] at hwalk
      rw [Function.update_self]
      exact freshLeaf_fits hstack hwalk
    · rw [Function.update_of_ne hj]
      exact h.quiet_fits hquiet (hold hj hr') hvpn hwalk

/-- Nothing is missing in a fresh space. -/
theorem Built.complete {space : Space} (h : MmInv L roots held vmas kr s)
    (hbuilt : Built L roots held space kr q r s s') : Complete L s'.mem r := by
  intro vpn hvpn hw hthere
  rw [hbuilt.walk hvpn, image_eq (h.kernelWalk hvpn)]
  by_cases hs : stackPage vpn
  · rw [if_pos hs]
    rfl
  · rw [if_neg hs]
    exact hthere.resolve_left hs

/-! ## Giving up a space -/

/-- A space without window and stack is given up: its tables and its private
copies of the writable sections are lost.  The root may stay accounted for. -/
theorem MmInv.dropUser (h : MmInv L roots held vmas kr s) (hr : roots (some i) = some r)
    (hgone : ∀ vpn, vpn < 1048576 → windowPage vpn ∨ stackPage vpn → walk s.mem r vpn = none)
    {w : Nat → Nat} (hroot : w r ≤ 1) (hother : ∀ p, p ≠ r → w p = held p) :
    MmInv L (Function.update roots (some i) none) w vmas kr s := by
  have hold : ∀ {space r'}, Function.update roots (some i) none space = some r' →
      roots space = some r' := by
    intro space r' hr'
    by_cases hs : space = some i
    · rw [hs, Function.update_self] at hr'
      cases hr'
    · rw [Function.update_of_ne hs] at hr'
      exact hr'
  -- what a site of the space refers to has no other reference
  have hsingle : ∀ {site : Site} {p}, site.space = some i → L.Managed p →
      target roots s.mem site = some p → refcntOf L s.alloc p = 1 := by
    intro site p hspace hm ht
    cases site with
    | root space' => exact h.vm.root_single ht
    | table space' k => exact h.vm.table_single ht
    | leaf space' vpn =>
        simp only [Site.space] at hspace
        subst hspace
        simp only [target, hr, Option.bind_some] at ht
        cases hwalk : walk s.mem r vpn with
        | none =>
            rw [hwalk] at ht
            cases ht
        | some leaf =>
            rw [hwalk, userPage, Option.bind_some] at ht
            split at ht
            · rename_i hU
              cases ht
              have hfits := h.fits hr vpn.isLt hwalk
              have hregion := hfits.region hU hm
              have hlow : ¬ (windowPage vpn ∨ stackPage vpn) := by
                intro hlow
                rw [hgone vpn vpn.isLt hlow] at hwalk
                cases hwalk
              -- only a private copy of a writable section is left
              have hd : dataPage L vpn :=
                (hregion.resolve_left fun hw => hlow (Or.inl hw)).resolve_left fun hs =>
                  hlow (Or.inr hs)
              rw [leafFits_data hd] at hfits
              rcases hfits with ⟨hppn, -⟩ | ⟨-, hperm⟩
              · rw [hppn] at hm
                exact absurd hd (managed_rest hm).2.2
              · apply h.vm.write_single hr vpn.isLt hwalk hU _ hm
                rw [hperm]
                decide
            · cases ht
  refine ⟨h.vm.dropRoot hsingle ?_ ?_, ?_, h.kernelWalk, fun hr' => h.vma (hold hr'),
    fun hr' => h.fits (hold hr')⟩
  · intro site p hspace hm ht
    by_cases hp : p = r
    · rw [hp]
      exact hroot
    · rw [hother p hp, h.vm.held_zero_of_single hm (hsingle hspace hm ht) ht]
      exact Nat.zero_le 1
  · intro p _ hfree
    apply hother
    rintro rfl
    exact hfree (.root (some i)) rfl hr
  · rw [Function.update_of_ne (Option.some_ne_none i).symm]
    exact h.kernel

/-- `proc_vm_release` of a process that then goes away. -/
theorem procVmRelease_drop {proc : Process} (h : MmInv L roots held vmas kr s)
    (hr : roots (some i) = some r) (huser : proc.isUser = true) (hsatp : rootPage proc.satp = r)
    (hnonzero : proc.satp ≠ 0) (hvmas : proc.vmas = vmas i)
    (hbase : proc.userStackBase = 0x3fffe000) (hpages : proc.userStackPages = 2) {w : Nat → Nat}
    (hroot : w r ≤ 1) (hother : ∀ p, p ≠ r → w p = held p) :
    Outcome (procVmRelease L proc s)
      (fun s' => MmInv L (Function.update roots (some i) none) w vmas kr s' ∧
        Local roots i s s' ∧ ∀ p, ¬ L.Managed p → s'.mem p = s.mem p)
      (fun _ => False) := by
  refine (procVmRelease_spec h hr huser hsatp hnonzero hvmas hbase hpages).imp ?_
  rintro s' ⟨h', hswept⟩
  refine ⟨h'.dropUser hr ?_ hroot hother, hswept.local h,
    fun p hp => hswept.page (h.vm.noTable_of_unmanaged hp)⟩
  intro vpn hvpn hlow
  cases hlow with
  | inl hw => exact h.window_gone hr hswept Or.inl hvpn hw
  | inr hs => exact hswept.gone hr hvpn (Or.inr hs)

/-! ## Giving a block of pages back -/

/-- One turn of the loop of `free_pages` over a block of held pages. -/
theorem freePage_held {a : Allocator} {mem : Memory} {w : Nat → Nat} {q j : Nat}
    (h : VmInv L roots w a mem) (hm : L.Managed (q + j)) (hheld : 0 < w (q + j)) :
    Outcome (freePage L (q * 4096) a j)
      (fun a' => VmInv L roots (heldAfter w (q + j) 1) a' mem) (fun _ => False) := by
  have hlt := hm.lt
  have hcur : u32 (q * 4096 + u32 (j * pageSize)) = (q + j) * 4096 := by
    unfold u32 pageSize
    omega
  have hpos : refcntOf L a (q + j) ≠ 0 := by
    have := h.refs_le hm
    omega
  have hcount : a.pageRefcnt (q + j - L.freePage) ≠ 0 := hpos
  have hin : ∀ p, inBlock (q + j) 1 p ↔ p = q + j := by
    intro p
    unfold inBlock
    omega
  obtain ⟨haddr, hidx⟩ := hm.addr
  have hfound : pageIdxIfManaged L a ((q + j) * 4096) = some (q + j - L.freePage) := by
    rw [haddr]
    exact pageIdxIfManaged_pageAddr h.alloc.count hidx
  unfold freePage
  simp only [hcur, hfound]
  rw [if_neg hcount]
  refine (dropRef_page h.alloc hm hpos).imp fun a' hdrop => ?_
  refine h.drop hm hheld ?_ (fun p hp => ?_) hdrop
  · rw [heldAfter, if_pos ((hin _).mpr rfl)]
  · rw [heldAfter, if_neg (mt (hin p).mp hp), Nat.sub_zero]

/-- `free_pages` of a block of held pages. -/
theorem freePages_held {a : Allocator} {mem : Memory} {q n : Nat} (h : VmInv L roots held a mem)
    (hn : 0 < n) (hblock : ∀ p, inBlock q n p → L.Managed p ∧ 0 < held p) :
    Outcome (freePages L (q * 4096) n a)
      (fun a' => VmInv L roots (heldAfter held q n) a' mem) (fun _ => False) := by
  have hfirst := (hblock q ⟨le_refl q, by omega⟩).1
  have hlast := (hblock (q + n - 1) ⟨by omega, by omega⟩).1
  have hfree := L.freePage_mul
  have halign : isAligned (q * 4096) = true := by
    rw [isAligned_iff]
    omega
  have hrange : ¬ (q * 4096 < L.freeRam ∨ L.freeRamEnd < q * 4096 + n * pageSize) := by
    unfold Layout.Managed at hfirst hlast
    unfold Layout.freeRamEnd pageSize
    omega
  unfold freePages
  simp only [initAllocatorIfNeeded_of_inv h.alloc]
  rw [if_neg (by omega), if_neg (not_not.mpr halign), if_neg hrange]
  -- after the pages of `done` the references to them are no longer held
  let afterTurns : List Nat → Allocator → Prop := fun rest b =>
    ∃ done, done ++ rest = List.range n ∧ VmInv L roots (heldAfter held q done.length) b mem
  have hstart : afterTurns (List.range n) a := by
    refine ⟨[], rfl, ?_⟩
    rw [List.length_nil, heldAfter_zero]
    exact h
  refine (Outcome.foldlM _ a hstart fun j rest b hb => ?_).imp ?_
  · obtain ⟨done, hsplit, hinv⟩ := hb
    have hj : j = done.length ∧ done.length < n := by
      have hlen := congrArg List.length hsplit
      have hget : (List.range n)[done.length]? = some j := by
        rw [← hsplit, List.getElem?_append_right (le_refl _), Nat.sub_self]
        rfl
      rw [List.length_append, List.length_cons, List.length_range] at hlen
      rw [List.getElem?_range (by omega)] at hget
      exact ⟨(Option.some.inj hget).symm, by omega⟩
    obtain ⟨rfl, hlt⟩ := hj
    obtain ⟨hm, hheld⟩ := hblock (q + done.length) ⟨by omega, by omega⟩
    have hstill : 0 < heldAfter held q done.length (q + done.length) := by
      have hout : ¬ inBlock q done.length (q + done.length) := by
        unfold inBlock
        omega
      rw [heldAfter, if_neg hout]
      exact hheld
    refine (freePage_held hinv hm hstill).imp fun b' hb' => ?_
    refine ⟨done ++ [done.length], by rw [List.append_assoc]; exact hsplit, ?_⟩
    rw [List.length_append, List.length_singleton, ← heldAfter_succ]
    exact hb'
  · rintro b ⟨done, hsplit, hinv⟩
    rw [List.append_nil] at hsplit
    rw [hsplit, List.length_range] at hinv
    exact hinv

/-! ## Fork -/

/-- The pages `proc_vm_clone` visits, with the protection each is shared under. -/
def cowItems (v : Vmas) : List (Nat × Nat) :=
  (List.finRange procVmaMax).flatMap fun i =>
    if (v i).used && decide ((v i).prot &&& vmaProtW ≠ 0) then
      (List.range' ((v i).start / 4096) (((v i).stop - (v i).start) / 4096)).map fun vpn =>
        (cowProt (v i).prot, vpn)
    else []

theorem cowPages_eq {v : Vmas} (h : VmaInv L v) :
    cowPages v = (cowItems v).map fun item => (item.1, item.2 * 4096) := by
  unfold cowPages cowItems
  rw [List.map_flatMap]
  congr 1
  funext i
  split
  · rename_i hi
    simp only [Bool.and_eq_true] at hi
    obtain ⟨hstart, hstop, -⟩ := h.aligned hi.1
    rw [pagesOf_eq hstart hstop, List.map_map, List.map_map]
    rfl
  · rfl

theorem mem_cowItems {v : Vmas} (h : VmaInv L v) {cow vpn : Nat} :
    (cow, vpn) ∈ cowItems v ↔
      ∃ j, (v j).Covers vpn ∧ (v j).prot &&& vmaProtW ≠ 0 ∧ cow = cowProt (v j).prot := by
  unfold cowItems
  simp only [List.mem_flatMap, List.mem_finRange, true_and]
  apply exists_congr
  intro j
  by_cases hj : ((v j).used && decide ((v j).prot &&& vmaProtW ≠ 0)) = true
  · rw [if_pos hj]
    rw [Bool.and_eq_true, decide_eq_true_eq] at hj
    obtain ⟨hstart, hstop, hlt⟩ := h.aligned hj.1
    rw [List.mem_map]
    constructor
    · rintro ⟨vpn', hmem, heq⟩
      cases heq
      obtain ⟨hlo, hhi⟩ := (mem_range_pages hstart hstop (by omega)).mp hmem
      exact ⟨⟨hj.1, hlo, hhi⟩, hj.2, rfl⟩
    · rintro ⟨⟨-, hlo, hhi⟩, -, rfl⟩
      exact ⟨vpn, (mem_range_pages hstart hstop (by omega)).mpr ⟨hlo, hhi⟩, rfl⟩
  · rw [if_neg hj]
    rw [Bool.and_eq_true, decide_eq_true_eq] at hj
    constructor
    · intro hmem
      cases hmem
    · rintro ⟨⟨hused, -⟩, hwrite, -⟩
      exact absurd ⟨hused, hwrite⟩ hj

/-- A VMA lies below the end of the mapped RAM. -/
theorem VmaInv.covers_ram {v : Vmas} (h : VmaInv L v) {j : Fin procVmaMax} {vpn : Nat}
    (hcov : (v j).Covers vpn) : vpn < 0x84000 := by
  obtain ⟨h₀, h₁, h₂, h₃, h₄, h₅, h₆, h₇, h₈, h₉, h₁₀⟩ := Layout.order (L := L)
  rcases h.place hcov.1 with ⟨hwin, -⟩ | hstd
  · have hw := (inWindow_page hwin hcov).2
    unfold windowPage inBlock at hw
    omega
  · obtain ⟨-, -, hhi⟩ := hcov
    simp only [standardVmas, List.mem_cons, List.not_mem_nil, or_false] at hstd
    rcases hstd with hv | hv | hv | hv | hv <;> rw [hv] at hhi <;> simp only at hhi <;> omega

theorem VmaInv.covers_lt {v : Vmas} (h : VmaInv L v) {j : Fin procVmaMax} {vpn : Nat}
    (hcov : (v j).Covers vpn) : vpn < 1048576 := by
  have hram := h.covers_ram hcov
  omega

/-- VMAs do not overlap, so no page is visited twice. -/
theorem cowItems_nodup {v : Vmas} (h : VmaInv L v) : ((cowItems v).map (·.2)).Nodup := by
  have hitems : (cowItems v).map (·.2) = (List.finRange procVmaMax).flatMap fun i =>
      if (v i).used && decide ((v i).prot &&& vmaProtW ≠ 0) then
        List.range' ((v i).start / 4096) (((v i).stop - (v i).start) / 4096)
      else [] := by
    unfold cowItems
    rw [List.map_flatMap]
    congr 1
    funext i
    split
    · rw [List.map_map]
      exact List.map_id _
    · rfl
  have hcovers : ∀ {i vpn}, vpn ∈ (if (v i).used && decide ((v i).prot &&& vmaProtW ≠ 0) then
      List.range' ((v i).start / 4096) (((v i).stop - (v i).start) / 4096) else []) →
      (v i).Covers vpn := by
    intro i vpn hmem
    split at hmem
    · rename_i hi
      rw [Bool.and_eq_true] at hi
      obtain ⟨hstart, hstop, hlt⟩ := h.aligned hi.1
      obtain ⟨hlo, hhi⟩ := (mem_range_pages hstart hstop (by omega)).mp hmem
      exact ⟨hi.1, hlo, hhi⟩
    · cases hmem
  rw [hitems, List.nodup_flatMap]
  constructor
  · intro i _
    split
    · exact List.nodup_range'
    · exact List.nodup_nil
  · apply (List.nodup_finRange procVmaMax).imp
    intro i j hne
    rw [Function.onFun, List.disjoint_left]
    intro vpn hi hj
    exact hne (h.covers_unique (hcovers hi) (hcovers hj))

theorem cowItems_shareable {v : Vmas} (h : VmaInv L v) : Shareable v (cowItems v) := by
  refine ⟨fun hmem => (mem_cowItems h).mp hmem, fun hmem => ?_, cowItems_nodup h⟩
  obtain ⟨j, hcov, -⟩ := (mem_cowItems h).mp hmem
  exact h.covers_lt hcov

/-- A fresh space as `proc_vm_clone` expects it. -/
theorem Built.freshLeaf {c : Fin procMax} (h : MmInv L roots held vmas kr s)
    (hbuilt : Built L roots held (some c) kr q r s s') (hstack : ∀ p, inBlock q 2 p → L.Managed p)
    {v : Vmas} (hv : VmaInv L v) {cow vpn : Nat} (hmem : (cow, vpn) ∈ cowItems v) :
    FreshLeaf L vpn (walk s'.mem r vpn) := by
  obtain ⟨j, hcov, hwrite, -⟩ := (mem_cowItems hv).mp hmem
  have hvpn := hv.covers_lt hcov
  rw [hbuilt.walk hvpn, image_eq (h.kernelWalk hvpn)]
  cases hv.region hcov with
  | window hw hpos hlt =>
      rw [if_neg (windowPage_not_stack hw)]
      exact Or.inl ⟨hw, fixedLeaf_low (Or.inl hw)⟩
  | stack hs hprot =>
      rw [if_pos hs]
      refine Or.inr (Or.inl ⟨hs, _, hstack _ ?_, rfl⟩)
      unfold stackPage inBlock at hs
      unfold inBlock
      omega
  | data hd hprot =>
      rw [if_neg (dataPage_not_low hd).2, fixedLeaf_eq, if_pos hd]
      exact Or.inr (Or.inr ⟨hd, rfl⟩)
  | fixed hw hs hd hprot hleaf =>
      rcases hprot with hprot | hprot <;> rw [hprot] at hwrite <;> exact absurd rfl hwrite

/-- Sharing the pages of the parent takes nothing away from it but write
permission. -/
theorem Cloned.complete {p c : Fin procMax} {rp rc : Nat} {v : Vmas} {done : Bool}
    (h : Cloned L roots p c rp rc (cowItems v) done s s') (hv : VmaInv L v)
    (hrp : roots (some p) = some rp) (hcomplete : Complete L s.mem rp) :
    Complete L s'.mem rp := by
  intro vpn hvpn hw hthere
  have hsome := hcomplete hvpn hw hthere
  by_cases hmem : vpn ∈ (cowItems v).map (·.2)
  · obtain ⟨⟨cow, vpn'⟩, hitem, heq⟩ := List.mem_map.mp hmem
    dsimp only at heq
    subst heq
    obtain ⟨j, hcov, hwrite, hcow⟩ := (mem_cowItems hv).mp hitem
    have hthree : (v j).prot = 3 := by
      cases hv.region hcov with
      | window hw' hpos hlt => exact absurd hw' hw
      | stack hs hprot => exact hprot
      | data hd hprot => exact hprot
      | fixed hw' hs hd hprot hleaf =>
          rcases hprot with hprot | hprot <;> rw [hprot] at hwrite <;> exact absurd rfl hwrite
    obtain ⟨leaf, hleaf⟩ := Option.isSome_iff_exists.mp hsome
    rcases h.parent hitem with hnew | ⟨-, hold⟩
    · rw [hnew, hleaf, hcow, hthree]
      rfl
    · rw [hold]
      exact hsome
  · rw [h.other hrp hvpn fun hc => hmem hc.1]
    exact hsome

theorem Cloned.complete_child {p c : Fin procMax} {rp rc : Nat} {v : Vmas}
    (h : Cloned L roots p c rp rc (cowItems v) true s s') (hv : VmaInv L v)
    (hrp : roots (some p) = some rp) (hrc : roots (some c) = some rc)
    (hparent : Complete L s.mem rp) (hchild : Complete L s.mem rc) : Complete L s'.mem rc := by
  intro vpn hvpn hw hthere
  by_cases hmem : vpn ∈ (cowItems v).map (·.2)
  · obtain ⟨⟨cow, vpn'⟩, hitem, heq⟩ := List.mem_map.mp hmem
    dsimp only at heq
    subst heq
    rw [h.child rfl hitem]
    split
    · exact h.complete hv hrp hparent hvpn hw hthere
    · exact hchild hvpn hw hthere
  · rw [h.other hrc hvpn fun hc => hmem hc.1]
    exact hchild hvpn hw hthere

/-- `proc_vm_clone` into a fresh space. -/
theorem procVmClone_spec {parent child : Process} {p c : Fin procMax} {rp rc : Nat}
    (h : MmInv L roots (fun _ => 0) vmas kr s)
    (hf : Forking roots p c rp rc parent.satp child.satp) (hvmas : vmas c = vmas p)
    (hparent : parent.vmas = vmas p)
    (hfresh : ∀ {cow vpn}, (cow, vpn) ∈ cowItems (vmas p) → FreshLeaf L vpn (walk s.mem rc vpn)) :
    Outcome (procVmClone L parent child s)
      (fun out => MmInv L roots (fun _ => 0) vmas kr out.2 ∧
        Cloned L roots p c rp rc (cowItems (vmas p)) out.1 s out.2)
      (fun e => e = .freeOutOfManagedRange ∧ ∃ cow vpn leaf, (cow, vpn) ∈ cowItems (vmas p) ∧
        dataPage L vpn ∧ walk s.mem rp vpn = some leaf ∧ L.Managed leaf.ppn) := by
  have hv := h.vma hf.parent
  unfold procVmClone
  rw [hparent, cowPages_eq hv]
  exact clonePages_spec hf hvmas _ h (cowItems_shareable hv) hfresh

end Sugimotos.Proc
