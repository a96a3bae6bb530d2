/-
# Building the address space of a process

`vm_build_user_satp` copies the kernel root and maps the user sections and the
stack into the copy.  While it runs, the new space satisfies the ownership
invariant at every step; `Overlay` says what has been mapped so far.  If a
second-level table cannot be allocated the space is given up again: the stack
pages return to the caller and the root is freed, but the tables are lost.
-/

import Sugimotos.Mm.VmOps

namespace Sugimotos.Mm

open Sugimotos.Math

variable {L : Layout} {roots : Space → Option Nat} {held : Nat → Nat}

theorem VmInv.congr_held {a : Allocator} {mem : Memory} (h : VmInv L roots held a mem)
    {w : Nat → Nat} (heq : ∀ p, L.Managed p → w p = held p) :
    VmInv L roots w a mem := by
  refine h.change_counts h.alloc fun p hp => .inl ⟨rfl, heq p hp⟩

/-- A page that is mapped nowhere any more is lost with the references that were
counted for it. -/
theorem VmInv.lose {a : Allocator} {mem : Memory} {page n : Nat}
    (h : VmInv L roots held a mem) (hm : L.Managed page) (hn : 0 < n ∧ n ≤ 2)
    (hcount : refcntOf L a page = n) (hheld : held page = n)
    (hother : ∀ q, q ≠ page → L.Managed q → held q = 0) : VmInv L roots (fun _ => 0) a mem := by
  have hle := h.refs_le hm
  refine (h.forget (w := fun q => if q = page then 0 else held q) hm
    (h.loose_of_held hm (by omega)) (by omega) (by omega) (by simp)
    (fun q hq => by simp [hq])).congr_held fun q hq => ?_
  by_cases hqp : q = page
  · simp [hqp]
  · simp [hqp, hother q hqp hq]

/-! ## A space under construction -/

/-- The translations `W` of a space under construction, and what has stayed the
same since state `s₀`. -/
structure Overlay (L : Layout) (roots : Space → Option Nat) (space : Space) (r : Nat)
    (held : Nat → Nat) (W : Nat → Option Leaf) (s₀ s : Phys) : Prop where
  inv : VmInv L roots held s.alloc s.mem
  grown : Grown L roots space r s₀ s
  walk : ∀ {vpn}, vpn < 1048576 → Mm.walk s.mem r vpn = W vpn
  other : ∀ {space' r' vpn}, roots space' = some r' → space' ≠ space → vpn < 1048576 →
    Mm.walk s.mem r' vpn = Mm.walk s₀.mem r' vpn
  /-- Either a table has been linked or nothing has been allocated. -/
  fresh : ((∃ k t, k < 1024 ∧ tableAt s.mem r k = some t) ∧ reservePages 1 s₀.alloc ≠ none) ∨
    (s.alloc = s₀.alloc ∧ ∀ k, k < 1024 → tableAt s.mem r k = none)
  satp : s.mmu.satp = s₀.mmu.satp
  tlb : ∀ {space'}, space' ≠ space → roots space' = some (rootPage s₀.mmu.satp) → TlbOk s₀ →
    TlbOk s

/-- `n` pages from `p` on, mapped at `vpn₀` over what was there. -/
def overlay (W : Nat → Option Leaf) (vpn₀ p n prot : Nat) : Nat → Option Leaf :=
  fun vpn => if inBlock vpn₀ n vpn then some ⟨p + (vpn - vpn₀), 2 * prot + 16⟩ else W vpn

/-- The references still held after the first `n` pages from `p` on are mapped. -/
def heldAfter (held : Nat → Nat) (p n : Nat) : Nat → Nat :=
  fun q => held q - if inBlock p n q then 1 else 0

/-- What a block of pages needs to be mapped: managed pages are held, with count
one, and no managed page is visible where they go. -/
structure Mappable (L : Layout) (held : Nat → Nat) (a : Allocator) (W : Nat → Option Leaf)
    (vpn₀ p n : Nat) : Prop where
  vpn_lt : vpn₀ + n ≤ 1048576
  page_lt : p + n ≤ 1048576
  held : ∀ {q}, inBlock p n q → L.Managed q → 0 < held q ∧ refcntOf L a q = 1
  hidden : ∀ {vpn q}, inBlock vpn₀ n vpn → userPage (W vpn) = some q → ¬ L.Managed q

section Range

variable {space : Space} {r vpn₀ p n prot : Nat} {W : Nat → Option Leaf} {s₀ s s' : Phys}

/-- One turn of the loop of `vm_map_range_4k`. -/
theorem Overlay.mapPage (h : Overlay L roots space r held W s₀ s) (hr : roots space = some r)
    (hspace : space ≠ none) (hmap : Mappable L held s.alloc W vpn₀ p 1) (hprot : prot < 8)
    (hprot₀ : prot ≠ 0)
    (hcall : vmMapPage L (r * 4096) (vpn₀ * 4096) (p * 4096) (prot + 8) s = (true, s')) :
    Overlay L roots space r (heldAfter held p 1) (overlay W vpn₀ p 1 prot) s₀ s' := by
  have hvlt := hmap.vpn_lt
  have hplt := hmap.page_lt
  have hvdiv : vpn₀ * 4096 / 4096 = vpn₀ := Nat.mul_div_cancel _ (by decide)
  have hpdiv : p * 4096 / 4096 = p := Nat.mul_div_cancel _ (by decide)
  have hin : ∀ x y, inBlock x 1 y ↔ y = x := by
    intro x y
    unfold inBlock
    omega
  have hleaf : entryLeaf p (2 * (prot + 8)) = some ⟨p, 2 * prot + 16⟩ := by
    rw [entryLeaf_user hprot, userLeaf_pos hprot₀]
  have hpage : userPage (some ⟨p, 2 * prot + 16⟩) = some p := by
    rw [userPage, Option.bind_some, if_pos (userPerm_user hprot)]
  have hunref : L.Managed p → ∀ site, target roots s.mem site ≠ some p := by
    intro hm
    obtain ⟨hheld, hone⟩ := hmap.held ((hin p p).mpr rfl) hm
    have := h.inv.refs_le hm
    exact refs_eq_zero.mp (by omega)
  have hnew : NewLeaf L roots s.alloc s.mem vpn₀ (some ⟨p, 2 * prot + 16⟩) := by
    refine ⟨fun hm hnew hsite => ?_, fun hnew _ _ hm => ?_⟩
    · rw [hpage] at hnew
      rw [← Option.some.inj hnew] at hm hsite
      exact absurd hsite (hunref hm _)
    · rw [← Option.some.inj hnew] at hm ⊢
      exact (hmap.held ((hin p p).mpr rfl) hm).2
  obtain ⟨hinv, hmapped, hmmu⟩ := vmMapPage_true (w := heldAfter held p 1) h.inv hr hspace
    (by omega) (by omega) (by omega) (by rw [hvdiv, hpdiv, hleaf]; exact hnew) (by
      intro q hq
      rw [hvdiv, hpdiv, hleaf, hpage, h.walk (by omega)]
      have hzero : userPage (W vpn₀) ≠ some q := fun hc =>
        hmap.hidden ((hin vpn₀ vpn₀).mpr rfl) hc hq
      rw [if_neg hzero]
      unfold heldAfter
      by_cases hqp : q = p
      · subst hqp
        have := (hmap.held ((hin q q).mpr rfl) hq).1
        simp only [hin, if_true]
        omega
      · rw [if_neg (fun hc => hqp (Option.some.inj hc).symm), if_neg (fun hc => hqp ((hin p q).mp hc))]
        rfl) hcall
  rw [hvdiv, hpdiv, hleaf] at hmapped
  refine ⟨hinv, h.grown.trans hmapped.toGrown hr, ?_, ?_, ?_, ?_, ?_⟩
  · intro vpn hvpn
    rw [hmapped.walk hr hvpn, overlay]
    by_cases heq : vpn = vpn₀
    · subst heq
      simp [hin]
    · rw [if_neg (fun hc => heq hc.2), if_neg (fun hc => heq ((hin vpn₀ vpn).mp hc)), h.walk hvpn]
  · intro space' r' vpn hr' hne hvpn
    rw [hmapped.walk hr' hvpn, if_neg (fun hc => hne hc.1), h.other hr' hne hvpn]
  · obtain ⟨t, ht⟩ := hmapped.linked
    refine .inl ⟨⟨vpn₀ / 1024, t, by omega, ht⟩, ?_⟩
    rcases h.fresh with ⟨-, hres⟩ | ⟨halloc, hnone⟩
    · exact hres
    · rw [← halloc]
      exact hmapped.reserved (hnone _ (by omega))
  · rw [hmmu]
    exact h.satp
  · intro space' hne hactive htlb
    exact (h.tlb hne hactive htlb).mapped hmapped hmmu hr (by rw [h.satp]; exact hactive) (.inl hne)

theorem Overlay.tick (h : Overlay L roots space r held W s₀ s) :
    Overlay L roots space r held W s₀ s.tick := by
  refine ⟨h.inv, ?_, h.walk, h.other, h.fresh, h.satp,
    fun hne hactive htlb => (h.tlb hne hactive htlb).tick⟩
  exact ⟨h.grown.page, h.grown.count_stable, h.grown.count_new, h.grown.table_other,
    h.grown.table_keep, h.grown.table_new⟩

theorem overlay_zero (W : Nat → Option Leaf) (vpn₀ p prot : Nat) : overlay W vpn₀ p 0 prot = W := by
  funext vpn
  unfold overlay
  rw [if_neg]
  unfold inBlock
  omega

theorem overlay_succ (W : Nat → Option Leaf) (vpn₀ p j prot : Nat) :
    overlay (overlay W vpn₀ p j prot) (vpn₀ + j) (p + j) 1 prot = overlay W vpn₀ p (j + 1) prot := by
  funext vpn
  unfold overlay
  by_cases hlast : inBlock (vpn₀ + j) 1 vpn
  · have hin : inBlock vpn₀ (j + 1) vpn := by
      unfold inBlock at *
      omega
    have hpage : p + j + (vpn - (vpn₀ + j)) = p + (vpn - vpn₀) := by
      unfold inBlock at hlast
      omega
    rw [if_pos hlast, if_pos hin, hpage]
  · rw [if_neg hlast]
    by_cases hin : inBlock vpn₀ j vpn
    · have hin' : inBlock vpn₀ (j + 1) vpn := by
        unfold inBlock at *
        omega
      rw [if_pos hin, if_pos hin']
    · have hin' : ¬ inBlock vpn₀ (j + 1) vpn := by
        unfold inBlock at *
        omega
      rw [if_neg hin, if_neg hin']

theorem heldAfter_zero (held : Nat → Nat) (p : Nat) : heldAfter held p 0 = held := by
  funext q
  unfold heldAfter
  rw [if_neg, Nat.sub_zero]
  unfold inBlock
  omega

theorem heldAfter_succ (held : Nat → Nat) (p j : Nat) :
    heldAfter (heldAfter held p j) (p + j) 1 = heldAfter held p (j + 1) := by
  funext q
  unfold heldAfter
  by_cases hlast : inBlock (p + j) 1 q
  · have hnot : ¬ inBlock p j q := by
      unfold inBlock at *
      omega
    have hin : inBlock p (j + 1) q := by
      unfold inBlock at *
      omega
    rw [if_pos hlast, if_neg hnot, if_pos hin, Nat.sub_zero]
  · rw [if_neg hlast, Nat.sub_zero]
    by_cases hin : inBlock p j q
    · have hin' : inBlock p (j + 1) q := by
        unfold inBlock at *
        omega
      rw [if_pos hin, if_pos hin']
    · have hin' : ¬ inBlock p (j + 1) q := by
        unfold inBlock at *
        omega
      rw [if_neg hin, if_neg hin']

theorem Mappable.step (hmap : Mappable L held s₀.alloc W vpn₀ p n) {j : Nat} (hj : j < n)
    (h : Overlay L roots space r (heldAfter held p j) (overlay W vpn₀ p j prot) s₀ s) :
    Mappable L (heldAfter held p j) s.alloc (overlay W vpn₀ p j prot) (vpn₀ + j) (p + j) 1 := by
  have hvlt := hmap.vpn_lt
  have hplt := hmap.page_lt
  refine ⟨by omega, by omega, ?_, ?_⟩
  · intro q hq hm
    have hin : inBlock p n q := by
      unfold inBlock at *
      omega
    have hnot : ¬ inBlock p j q := by
      unfold inBlock at *
      omega
    obtain ⟨hheld, hone⟩ := hmap.held hin hm
    unfold heldAfter
    rw [if_neg hnot, h.grown.count_stable hm (by omega)]
    exact ⟨by omega, hone⟩
  · intro vpn q hvpn hpage
    have hin : inBlock vpn₀ n vpn := by
      unfold inBlock at *
      omega
    have hnot : ¬ inBlock vpn₀ j vpn := by
      unfold inBlock at *
      omega
    unfold overlay at hpage
    rw [if_neg hnot] at hpage
    exact hmap.hidden hin hpage

/-- How far a loop over pages got. -/
structure Progress (L : Layout) (roots : Space → Option Nat) (space : Space) (r : Nat)
    (held : Nat → Nat) (W : Nat → Option Leaf) (vpn₀ p n prot : Nat) (s₀ : Phys) (done : Bool)
    (j : Nat) (s : Phys) : Prop where
  le : j ≤ n
  all : done = true → j = n
  exhausted : done = false → reservePages 1 s.alloc = none
  overlay : Overlay L roots space r (heldAfter held p j) (overlay W vpn₀ p j prot) s₀ s

/-- The loop of `vm_map_range_4k`, from the page with index `j` on. -/
theorem vmMapOffsets_spec (hr : roots space = some r) (hspace : space ≠ none)
    (hmap : Mappable L held s₀.alloc W vpn₀ p n) (hprot : prot < 8) (hprot₀ : prot ≠ 0)
    {done : Bool} (m j : Nat) (hjm : j + m = n)
    (h : Overlay L roots space r (heldAfter held p j) (overlay W vpn₀ p j prot) s₀ s)
    (hcall : vmMapOffsets L (r * 4096) (vpn₀ * 4096) (p * 4096) (prot + 8)
      ((List.range' j m).map (· * pageSize)) s = (done, s')) :
    ∃ j', Progress L roots space r held W vpn₀ p n prot s₀ done j' s' := by
  induction m generalizing j s with
  | zero =>
      simp only [List.range'_zero, List.map_nil, vmMapOffsets, Prod.mk.injEq] at hcall
      obtain ⟨rfl, rfl⟩ := hcall
      exact ⟨j, by omega, fun _ => by omega, fun hc => absurd hc (by simp), h⟩
  | succ m ih =>
      have hvlt := hmap.vpn_lt
      have hplt := hmap.page_lt
      have hva : u32 (vpn₀ * 4096 + j * pageSize) = (vpn₀ + j) * 4096 := by
        rw [pageSize, ← Nat.add_mul]
        exact u32_of_lt (by omega)
      have hpa : u32 (p * 4096 + j * pageSize) = (p + j) * 4096 := by
        rw [pageSize, ← Nat.add_mul]
        exact u32_of_lt (by omega)
      simp only [List.range'_succ, List.map_cons, vmMapOffsets, hva, hpa] at hcall
      cases hpage : vmMapPage L (r * 4096) ((vpn₀ + j) * 4096) ((p + j) * 4096) (prot + 8) s with
      | mk ok s₁ =>
          rw [hpage] at hcall
          cases ok with
          | false =>
              simp only [Prod.mk.injEq] at hcall
              obtain ⟨rfl, rfl⟩ := hcall
              obtain ⟨rfl, -, hreserve⟩ := vmMapPage_false h.inv (by omega) hpage
              exact ⟨j, by omega, fun hc => absurd hc (by simp), fun _ => hreserve, h.tick⟩
          | true =>
              have hnext := h.mapPage hr hspace (hmap.step (by omega) h) hprot hprot₀ hpage
              rw [overlay_succ, heldAfter_succ] at hnext
              exact ih (j + 1) (by omega) hnext hcall

/-- `vm_map_range_4k` of `n` user pages. -/
theorem vmMapRange4k_spec (h : Overlay L roots space r held W s₀ s) (hr : roots space = some r)
    (hspace : space ≠ none) (hmap : Mappable L held s₀.alloc W vpn₀ p n) (hprot : prot < 8)
    (hprot₀ : prot ≠ 0) {done : Bool}
    (hcall : vmMapRange4k L (r * 4096) (vpn₀ * 4096) (p * 4096) (n * 4096) (prot + 8) s =
      (done, s')) :
    ∃ j, Progress L roots space r held W vpn₀ p n prot s₀ done j s' := by
  have hcount : (n * 4096 + (pageSize - 1)) / pageSize = n := by
    unfold pageSize
    omega
  unfold vmMapRange4k pageOffsets at hcall
  rw [hcount, List.range_eq_range'] at hcall
  refine vmMapOffsets_spec hr hspace hmap hprot hprot₀ n 0 (by omega) ?_ hcall
  rw [heldAfter_zero, overlay_zero]
  exact h

end Range

/-! ## The user sections -/

/-- Pages mapped to themselves: first page, number of pages, protection. -/
structure Section where
  first : Nat
  count : Nat
  prot : Nat

/-- The entry of the segment table for a section. -/
def Section.segment (sec : Section) : VmIdentitySegment :=
  ⟨sec.first * 4096, (sec.first + sec.count) * 4096, sec.prot + 8⟩

/-- The translations after a section is mapped. -/
def Section.onto (W : Nat → Option Leaf) (sec : Section) : Nat → Option Leaf :=
  overlay W sec.first sec.first sec.count sec.prot

variable (L) in
/-- The sections below managed memory that a process sees. -/
def userSections : List Section :=
  [⟨L.rodataStart / 4096, (L.userRodataEnd - L.rodataStart) / 4096, vmaProtR⟩,
   ⟨L.userTextStart / 4096, (L.userTextEnd - L.userTextStart) / 4096, vmaProtR ||| vmaProtX⟩,
   ⟨L.userRodataStart / 4096, (L.userRodataEnd - L.userRodataStart) / 4096, vmaProtR⟩,
   ⟨L.userDataStart / 4096, (L.userDataEnd - L.userDataStart) / 4096, vmaProtR ||| vmaProtW⟩,
   ⟨L.userBssStart / 4096, (L.userBssEnd - L.userBssStart) / 4096, vmaProtR ||| vmaProtW⟩]

theorem pageFloor_of_aligned {v : Nat} (h : v % 4096 = 0) : pageFloor v = v := by
  unfold pageFloor pageSize
  omega

theorem pageCeil_of_aligned {v : Nat} (h : v % 4096 = 0) (hlt : v < 4294963200) :
    pageCeil v = v := by
  unfold pageCeil pageSize
  rw [u32_of_lt (by omega)]
  omega

theorem section_segment {start stop prot : Nat} (hstart : start % 4096 = 0)
    (hstop : stop % 4096 = 0) (hle : start ≤ stop) (hlt : stop < 4294963200) :
    (⟨pageFloor start, pageCeil stop, prot + 8⟩ : VmIdentitySegment) =
      Section.segment ⟨start / 4096, (stop - start) / 4096, prot⟩ := by
  rw [pageFloor_of_aligned hstart, pageCeil_of_aligned hstop hlt, Section.segment]
  congr 1 <;> (simp only; omega)

/-- The segment table of `vm_build_user_satp` lists the user sections. -/
theorem userSegments_eq : userSegments L = (userSections L).map Section.segment := by
  have := L.freeRam_fits
  have := L.userBssEnd_le_freeRam
  have := L.userBss_le
  have := L.userDataEnd_le_bss
  have := L.userData_le
  have := L.userRodataEnd_le_data
  have := L.userRodata_le
  have := L.rodata_le_userRodata
  have := L.userTextEnd_le_rodata
  have := L.userText_le
  simp only [userSegments, userSections, List.map_cons, List.map_nil]
  rw [← section_segment L.rodataStart_aligned L.userRodataEnd_aligned (by omega) (by omega),
    ← section_segment L.userTextStart_aligned L.userTextEnd_aligned (by omega) (by omega),
    ← section_segment L.userRodataStart_aligned L.userRodataEnd_aligned (by omega) (by omega),
    ← section_segment L.userDataStart_aligned L.userDataEnd_aligned (by omega) (by omega),
    ← section_segment L.userBssStart_aligned L.userBssEnd_aligned (by omega) (by omega)]
  rfl

/-- A section below managed memory, with a protection that makes leaves. -/
structure Section.Below (L : Layout) (sec : Section) : Prop where
  fits : sec.first + sec.count ≤ L.freePage
  prot_lt : sec.prot < 8
  prot_ne : sec.prot ≠ 0

theorem userSections_below {sec : Section} (h : sec ∈ userSections L) : sec.Below L := by
  have := L.freePage_mul
  have := L.userBssEnd_le_freeRam
  have := L.userBss_le
  have := L.userDataEnd_le_bss
  have := L.userData_le
  have := L.userRodataEnd_le_data
  have := L.userRodata_le
  have := L.rodata_le_userRodata
  have := L.userTextEnd_le_rodata
  have := L.userText_le
  simp only [userSections, List.mem_cons, List.not_mem_nil, or_false] at h
  rcases h with rfl | rfl | rfl | rfl | rfl <;>
    exact ⟨by simp only; omega, by simp only; decide, by simp only; decide⟩

/-- No managed page is visible to user mode. -/
def Hidden (L : Layout) (W : Nat → Option Leaf) : Prop :=
  ∀ vpn q, vpn < 1048576 → userPage (W vpn) = some q → ¬ L.Managed q

theorem Hidden.onto {W : Nat → Option Leaf} (h : Hidden L W) {sec : Section} (hsec : sec.Below L)
    {j : Nat} (hj : j ≤ sec.count) : Hidden L (overlay W sec.first sec.first j sec.prot) := by
  intro vpn q hvpn hpage hm
  unfold overlay at hpage
  split at hpage
  · rename_i hin
    rw [userPage, Option.bind_some, if_pos (userPerm_user hsec.prot_lt)] at hpage
    have hq := Option.some.inj hpage
    simp only at hq
    have := hsec.fits
    unfold inBlock at hin
    unfold Layout.Managed at hm
    omega
  · exact h vpn q hvpn hpage hm

section Sections

variable {space : Space} {r : Nat} {W : Nat → Option Leaf} {s₀ s s' : Phys}

/-- The loop of `vm_build_user_satp` over sections. -/
theorem mapSegments_spec (hr : roots space = some r) (hspace : space ≠ none) {done : Bool}
    (secs : List Section) (hsecs : ∀ sec ∈ secs, sec.Below L) (hW : Hidden L W)
    (h : Overlay L roots space r held W s₀ s)
    (hcall : mapSegments L (r * 4096) (secs.map Section.segment) s = (done, s')) :
    ∃ W', Hidden L W' ∧ Overlay L roots space r held W' s₀ s' ∧
      (done = true → W' = secs.foldl Section.onto W) ∧
      (done = false → reservePages 1 s'.alloc = none) := by
  induction secs generalizing W s with
  | nil =>
      simp only [List.map_nil, mapSegments, Prod.mk.injEq] at hcall
      obtain ⟨rfl, rfl⟩ := hcall
      exact ⟨W, hW, h, fun _ => rfl, fun hc => absurd hc (by simp)⟩
  | cons sec rest ih =>
      have hsec := hsecs sec (by simp)
      have hrest : ∀ sec' ∈ rest, sec'.Below L := fun sec' hmem => hsecs sec' (by simp [hmem])
      have hfits := hsec.fits
      have hfree := L.freePage_mul
      have hram := L.freeRam_fits
      simp only [List.map_cons, mapSegments, Section.segment, vmMapIdentitySegment] at hcall
      by_cases hempty : sec.count = 0
      · have hskip : (sec.first + sec.count) * 4096 ≤ sec.first * 4096 := by omega
        rw [if_pos hskip] at hcall
        have honto : Section.onto W sec = W := by
          unfold Section.onto
          rw [hempty, overlay_zero]
        obtain ⟨W', hW', hov, hall, hex⟩ := ih hrest hW h hcall
        exact ⟨W', hW', hov, fun hd => by rw [List.foldl_cons, honto]; exact hall hd, hex⟩
      · have hgo : ¬ (sec.first + sec.count) * 4096 ≤ sec.first * 4096 := by omega
        have hlen : (sec.first + sec.count) * 4096 - sec.first * 4096 = sec.count * 4096 := by omega
        rw [if_neg hgo, hlen] at hcall
        have hmap : Mappable L held s₀.alloc W sec.first sec.first sec.count := by
          refine ⟨by omega, by omega, ?_, ?_⟩
          · intro q hq hm
            unfold inBlock at hq
            unfold Layout.Managed at hm
            omega
          · intro vpn q hvpn hpage
            refine hW vpn q ?_ hpage
            unfold inBlock at hvpn
            omega
        have hsame : ∀ j, j ≤ sec.count → ∀ q, L.Managed q →
            held q = heldAfter held sec.first j q := by
          intro j hj q hm
          unfold heldAfter
          rw [if_neg, Nat.sub_zero]
          unfold inBlock
          unfold Layout.Managed at hm
          omega
        cases hrange : vmMapRange4k L (r * 4096) (sec.first * 4096) (sec.first * 4096)
            (sec.count * 4096) (sec.prot + 8) s with
        | mk ok s₁ =>
            rw [hrange] at hcall
            obtain ⟨j, hprog⟩ := vmMapRange4k_spec h hr hspace hmap hsec.prot_lt hsec.prot_ne hrange
            have hov := hprog.overlay
            have hov' : Overlay L roots space r held (overlay W sec.first sec.first j sec.prot)
                s₀ s₁ :=
              ⟨hov.inv.congr_held (hsame j hprog.le), hov.grown, hov.walk, hov.other, hov.fresh,
                hov.satp, hov.tlb⟩
            have hhidden := hW.onto hsec hprog.le
            cases ok with
            | false =>
                simp only [Prod.mk.injEq] at hcall
                obtain ⟨rfl, rfl⟩ := hcall
                exact ⟨_, hhidden, hov', fun hc => absurd hc (by simp), hprog.exhausted⟩
            | true =>
                rw [hprog.all rfl] at hov' hhidden
                exact ih hrest hhidden hov' hcall

end Sections

/-! ## The stack and the whole image -/

/-- Virtual page number of the first stack page: `USER_STACK_TOP` is
`0x40000000` and the stack has two pages. -/
abbrev stackVpn : Nat := 0x3fffe

variable (L) in
/-- The translations of a fresh process whose stack is in pages `q` and `q + 1`,
over the translations `K` of the kernel. -/
def image (q : Nat) (K : Nat → Option Leaf) : Nat → Option Leaf :=
  overlay ((userSections L).foldl Section.onto K) stackVpn q 2 (vmaProtR ||| vmaProtW)

/-- The pages `q` and `q + 1` are held by the caller and used by nobody else. -/
def StackBlock (L : Layout) (held : Nat → Nat) (a : Allocator) (q : Nat) : Prop :=
  ∀ p, inBlock q 2 p → L.Managed p ∧ 0 < held p ∧ refcntOf L a p = 1

/-- The managed pages a space under construction shows are the first `j` of the
block at `q`. -/
def Shows (L : Layout) (W : Nat → Option Leaf) (q j : Nat) : Prop :=
  ∀ p, L.Managed p → ((∃ vpn, vpn < 1048576 ∧ userPage (W vpn) = some p) ↔ inBlock q j p)

theorem Hidden.shows {W : Nat → Option Leaf} (h : Hidden L W) (q : Nat) : Shows L W q 0 := by
  intro p hm
  constructor
  · rintro ⟨vpn, hvpn, hpage⟩
    exact absurd hm (h vpn p hvpn hpage)
  · intro hin
    unfold inBlock at hin
    omega

theorem Hidden.shows_overlay {W : Nat → Option Leaf} (h : Hidden L W) {vpn₀ q j prot : Nat}
    (hprot : prot < 8) (hvpn : vpn₀ + j ≤ 1048576) : Shows L (overlay W vpn₀ q j prot) q j := by
  have hpage : ∀ p, userPage (some ⟨p, 2 * prot + 16⟩) = some p := by
    intro p
    rw [userPage, Option.bind_some, if_pos (userPerm_user hprot)]
  intro p hm
  constructor
  · rintro ⟨vpn, hvpn', hp⟩
    unfold overlay at hp
    split at hp
    · rename_i hin
      rw [hpage] at hp
      have := Option.some.inj hp
      unfold inBlock at *
      omega
    · exact absurd hm (h vpn p hvpn' hp)
  · intro hin
    unfold inBlock at hin
    refine ⟨vpn₀ + (p - q), by omega, ?_⟩
    have hin' : inBlock vpn₀ j (vpn₀ + (p - q)) := by
      unfold inBlock
      omega
    unfold overlay
    rw [if_pos hin', hpage]
    congr 1
    omega

section Image

variable {space : Space} {r q : Nat} {W : Nat → Option Leaf} {s₀ s s' : Phys}

theorem mapUserImage_spec (h : Overlay L roots space r held W s₀ s) (hr : roots space = some r)
    (hspace : space ≠ none) (hW : Hidden L W) (hstack : StackBlock L held s₀.alloc q) {done : Bool}
    (hcall : mapUserImage L (r * 4096) (stackVpn * 4096) (q * 4096) 2 s = (done, s')) :
    ∃ W' j, j ≤ 2 ∧ Overlay L roots space r (heldAfter held q j) W' s₀ s' ∧ Shows L W' q j ∧
      (done = true → j = 2 ∧ W' = image L q W) ∧
      (done = false → reservePages 1 s'.alloc = none) := by
  unfold mapUserImage at hcall
  rw [userSegments_eq] at hcall
  cases hsegs : mapSegments L (r * 4096) ((userSections L).map Section.segment) s with
  | mk ok s₁ =>
      rw [hsegs] at hcall
      obtain ⟨W₁, hW₁, hov, hall, hex⟩ :=
        mapSegments_spec hr hspace (userSections L) (fun sec => userSections_below) hW h hsegs
      cases ok with
      | false =>
          simp only [Prod.mk.injEq] at hcall
          obtain ⟨rfl, rfl⟩ := hcall
          refine ⟨W₁, 0, by omega, ?_, hW₁.shows q, fun hc => absurd hc (by simp), hex⟩
          rw [heldAfter_zero]
          exact hov
      | true =>
          have hlen : u32 (2 * pageSize) = 2 * 4096 := by decide
          simp only [hlen] at hcall
          rw [if_pos (by decide)] at hcall
          have hq : q + 2 ≤ 1048576 := by
            have := (hstack (q + 1) (by unfold inBlock; omega)).1.lt
            omega
          have hmap : Mappable L held s₀.alloc W₁ stackVpn q 2 := by
            refine ⟨by decide, hq, fun hin _ => (hstack _ hin).2, ?_⟩
            intro vpn p hvpn hpage
            refine hW₁ vpn p ?_ hpage
            unfold inBlock stackVpn at hvpn
            omega
          obtain ⟨j, hprog⟩ := vmMapRange4k_spec hov hr hspace hmap
            (show vmaProtR ||| vmaProtW < 8 by decide) (by decide) hcall
          have hle := hprog.le
          refine ⟨_, j, hle, hprog.overlay,
            hW₁.shows_overlay (by decide) (by unfold stackVpn; omega), fun hd => ?_,
            hprog.exhausted⟩
          have hj := hprog.all hd
          subst hj
          refine ⟨rfl, ?_⟩
          rw [hall rfl]
          rfl

end Image

end Sugimotos.Mm
