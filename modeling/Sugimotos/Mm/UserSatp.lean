/-
# `vm_build_user_satp`

The whole construction, on success and on failure.  Other address spaces do not
notice it.  On failure the caller has its stack pages back; what the function
does not give back is every second-level table it had already linked.
-/

import Sugimotos.Mm.UserImage

namespace Sugimotos.Mm

open Sugimotos.Math

variable {L : Layout} {roots : Space → Option Nat} {held : Nat → Nat}

/-- What the address spaces in `roots` do not notice: their translations, the
pages they use and the counts of those pages stay as they are. -/
structure Quiet (L : Layout) (roots : Space → Option Nat) (s s' : Phys) : Prop where
  walk : ∀ {space r vpn}, roots space = some r → vpn < 1048576 →
    Mm.walk s'.mem r vpn = Mm.walk s.mem r vpn
  page : ∀ {p}, VmInv.NoTable roots s.mem p → (L.Managed p → refcntOf L s.alloc p ≠ 0) →
    s'.mem p = s.mem p
  count : ∀ {p}, L.Managed p → refcntOf L s.alloc p ≠ 0 →
    refcntOf L s'.alloc p = refcntOf L s.alloc p
  satp : s'.mmu.satp = s.mmu.satp
  tlb : ∀ {space}, roots space = some (rootPage s.mmu.satp) → TlbOk s → TlbOk s'

/-- How a failed construction leaves the counts: untouched if there was no page
for the root; the root given back if there was none for the first table; else
some table is lost. -/
def BuildLeak (L : Layout) (s s' : Phys) : Prop :=
  (reservePages 1 s.alloc = none ∧ s' = s) ∨
    ∃ r s₁, allocPagesTry L 1 s = (some (r * 4096), s₁) ∧ Allocated L r 1 s s₁ ∧
      ((reservePages 1 s₁.alloc = none ∧ freePages L (r * 4096) 1 s₁.alloc = .ok s'.alloc) ∨
        (reservePages 1 s₁.alloc ≠ none ∧ s'.alloc.Inv L ∧
          ∃ t, L.Managed t ∧ refcntOf L s.alloc t = 0 ∧ refcntOf L s'.alloc t = 1))

/-- The new space of a successful construction. -/
structure Built (L : Layout) (roots : Space → Option Nat) (held : Nat → Nat) (space : Space)
    (kr q r : Nat) (s s' : Phys) : Prop where
  managed : L.Managed r
  wasFree : refcntOf L s.alloc r = 0
  roomy : ∃ s₁, allocPagesTry L 1 s = (some (r * 4096), s₁) ∧ reservePages 1 s₁.alloc ≠ none
  inv : VmInv L (Function.update roots space (some r)) (heldAfter held q 2) s'.alloc s'.mem
  walk : ∀ {vpn}, vpn < 1048576 → Mm.walk s'.mem r vpn = image L q (Mm.walk s.mem kr) vpn

section Root

variable {space : Space} {kr q r : Nat} {s s₁ s₂ s' : Phys}

/-- The root just allocated, with the kernel root copied into it. -/
structure FreshRoot (L : Layout) (roots : Space → Option Nat) (held : Nat → Nat) (space : Space)
    (kr r : Nat) (s s₁ s₂ : Phys) : Prop where
  alloc : Allocated L r 1 s s₁
  kernel : roots none = some kr
  absent : roots space = none
  state : s₂ = s₁.setPage (r * 4096) (s₁.mem kr)
  inv : VmInv L (Function.update roots space (some r)) held s₂.alloc s₂.mem
  same : SameTables roots s.mem s₂.mem

namespace FreshRoot

theorem managed (h : FreshRoot L roots held space kr r s s₁ s₂) : L.Managed r :=
  h.alloc.managed r (by unfold inBlock; omega)

theorem wasFree (h : FreshRoot L roots held space kr r s s₁ s₂) : refcntOf L s.alloc r = 0 :=
  h.alloc.wasFree r (by unfold inBlock; omega)

theorem space_ne (h : FreshRoot L roots held space kr r s s₁ s₂) : space ≠ none := by
  rintro rfl
  have := h.absent
  rw [h.kernel] at this
  cases this

theorem alloc_eq (h : FreshRoot L roots held space kr r s s₁ s₂) : s₂.alloc = s₁.alloc := by
  rw [h.state]
  rfl

theorem count (h : FreshRoot L roots held space kr r s s₁ s₂) {p : Nat} (hm : L.Managed p) :
    refcntOf L s₂.alloc p = if p = r then 1 else refcntOf L s.alloc p := by
  rw [h.alloc_eq, h.alloc.count p hm]
  by_cases hp : p = r
  · rw [if_pos hp, if_pos (by unfold inBlock; omega)]
  · rw [if_neg hp, if_neg (by unfold inBlock; omega)]

theorem page (h : FreshRoot L roots held space kr r s s₁ s₂) {p : Nat} (hp : p ≠ r) :
    s₂.mem p = s.mem p := by
  rw [h.state]
  simp only [Phys.setPage, Nat.mul_div_cancel _ (show 0 < 4096 by decide)]
  rw [Function.update_of_ne hp, h.alloc.mem, if_neg (by unfold inBlock; omega)]

theorem copied (h : FreshRoot L roots held space kr r s s₁ s₂) : s₂.mem r = s₂.mem kr := by
  have hkr : kr ≠ r := by
    rintro rfl
    have hone : refcntOf L s₂.alloc kr = 1 := by rw [h.count h.managed, if_pos rfl]
    have hne : (none : Space) ≠ space := h.space_ne.symm
    have := h.inv.root_injective (r := kr)
      (by rw [Function.update_self]) (by rw [Function.update_of_ne hne]; exact h.kernel)
    exact hne this
  rw [h.state]
  simp only [Phys.setPage, Nat.mul_div_cancel _ (show 0 < 4096 by decide)]
  rw [Function.update_self, Function.update_of_ne hkr]

theorem flat (h : FreshRoot L roots held space kr r s s₁ s₂) {k : Nat} (hk : k < 1024) :
    tableAt s₂.mem r k = none := by
  have hkernel : Function.update roots space (some r) none = some kr := by
    rw [Function.update_of_ne h.space_ne.symm]
    exact h.kernel
  exact ((h.inv.kernelOnly hkernel).copy h.copied).flat hk

/-- The copy translates like the kernel root. -/
theorem walk (h : FreshRoot L roots held space kr r s s₁ s₂) {vpn : Nat} (hvpn : vpn < 1048576) :
    Mm.walk s₂.mem r vpn = Mm.walk s.mem kr vpn := by
  rw [← h.same.walk h.kernel hvpn]
  exact walk_congr_word (by rw [h.copied]) fun _ _ => rfl

theorem noTable (h : FreshRoot L roots held space kr r s s₁ s₂) {p : Nat}
    (hp : VmInv.NoTable roots s.mem p) (hcount : L.Managed p → refcntOf L s.alloc p ≠ 0) :
    VmInv.NoTable (Function.update roots space (some r)) s₂.mem p ∧ p ≠ r := by
  have hpr : p ≠ r := by
    rintro rfl
    exact hcount h.managed h.wasFree
  refine ⟨⟨fun space' htarget => ?_, fun space' k htarget => ?_⟩, hpr⟩
  · by_cases hs : space' = space
    · subst hs
      simp only [target, Function.update_self] at htarget
      exact hpr (Option.some.inj htarget).symm
    · simp only [target, Function.update_of_ne hs] at htarget
      exact hp.1 space' htarget
  · by_cases hs : space' = space
    · subst hs
      simp only [target, Function.update_self, Option.bind_some] at htarget
      rw [h.flat k.isLt] at htarget
      cases htarget
    · refine hp.2 space' k ?_
      rw [← h.same.target]
      simpa only [target, Function.update_of_ne hs] using htarget

/-- Nothing the existing spaces use changes while the new one is built. -/
theorem quiet (h : FreshRoot L roots held space kr r s s₁ s₂) {w : Nat → Nat}
    {W : Nat → Option Leaf}
    (hov : Overlay L (Function.update roots space (some r)) space r w W s₂ s') :
    Quiet L roots s s' := by
  have hne : ∀ {space' r'}, roots space' = some r' → space' ≠ space := by
    rintro space' r' hr' rfl
    rw [h.absent] at hr'
    cases hr'
  have hmmu : s₂.mmu = s.mmu := by
    rw [h.state]
    exact h.alloc.mmu
  refine ⟨?_, ?_, ?_, ?_, ?_⟩
  · intro space' r' vpn hr' hvpn
    rw [hov.other (by rw [Function.update_of_ne (hne hr')]; exact hr') (hne hr') hvpn]
    exact h.same.walk hr' hvpn
  · intro p hp hcount
    obtain ⟨hno, hpr⟩ := h.noTable hp hcount
    rw [hov.grown.page hno, h.page hpr]
    intro hm
    rw [h.count hm, if_neg hpr]
    exact hcount hm
  · intro p hm hcount
    have hpr : p ≠ r := by
      rintro rfl
      exact hcount h.wasFree
    have hstep : refcntOf L s₂.alloc p = refcntOf L s.alloc p := by
      rw [h.count hm, if_neg hpr]
    rw [hov.grown.count_stable hm (by rw [hstep]; exact hcount), hstep]
  · rw [hov.satp, hmmu]
  · intro space' hactive htlb
    refine hov.tlb (hne hactive) ?_ ?_
    · rw [Function.update_of_ne (hne hactive), hmmu]
      exact hactive
    · intro e he
      rw [hmmu] at he ⊢
      obtain ⟨hlt, hwalk⟩ := htlb e he
      refine ⟨hlt, ?_⟩
      unfold hwWalk at hwalk ⊢
      rw [h.same.walk hactive hlt]
      exact hwalk

end FreshRoot

/-- Allocating the root and copying the kernel root into it. -/
theorem VmInv.freshRoot (h : VmInv L roots held s.alloc s.mem) (hk : roots none = some kr)
    (hnone : roots space = none) (hal : Allocated L r 1 s s₁) :
    FreshRoot L roots held space kr r s s₁ (s₁.setPage (r * 4096) (s₁.mem kr)) := by
  have hin : ∀ p, inBlock r 1 p ↔ p = r := by
    intro p
    unfold inBlock
    omega
  have hm : L.Managed r := hal.managed r ((hin r).mpr rfl)
  obtain ⟨hsame, hinv₁⟩ := h.allocate hal
  have hheld : held r = 0 := by
    have := h.refs_le hm
    rw [hal.wasFree r ((hin r).mpr rfl)] at this
    omega
  have hno : VmInv.NoTable roots s₁.mem r := hinv₁.noTable_of_held hm (by simp [hin])
  have hkr : kr ≠ r := by
    rintro rfl
    exact hno.1 none hk
  have hmem : (s₁.setPage (r * 4096) (s₁.mem kr)).mem = Function.update s₁.mem r (s₁.mem kr) := by
    simp only [Phys.setPage, Nat.mul_div_cancel _ (show 0 < 4096 by decide)]
  have hsame₂ := VmInv.sameTables_update hno (s₁.mem kr)
  have hsame' : SameTables roots s.mem (Function.update s₁.mem r (s₁.mem kr)) := by
    intro space' r' hr'
    obtain ⟨hroot, htable⟩ := hsame space' r' hr'
    obtain ⟨hroot₂, htable₂⟩ := hsame₂ space' r' hr'
    refine ⟨by rw [hroot₂, hroot], fun k hlt t ht => ?_⟩
    rw [htable₂ k hlt t (by rw [tableAt_congr hroot]; exact ht), htable k hlt t ht]
  refine ⟨hal, hk, hnone, rfl, ?_, by rw [hmem]; exact hsame'⟩
  rw [hmem]
  have hinv₂ := hinv₁.congr_mem hsame₂
  refine VmInv.addRoot hinv₂ hnone hm
    ?_ ((hinv₂.kernelOnly hk).copy ?_) ?_ ?_
  · show refcntOf L s₁.alloc r = 1
    rw [hal.count r hm, if_pos ((hin r).mpr rfl)]
  · rw [Function.update_self, Function.update_of_ne hkr]
  · simp [hin]
  · intro p hp
    simp [hin, hp]

/-- The space under construction at its start. -/
theorem FreshRoot.overlay (h : FreshRoot L roots held space kr r s s₁ s₂) :
    Overlay L (Function.update roots space (some r)) space r held (Mm.walk s.mem kr) s₂ s₂ := by
  exact ⟨h.inv, Grown.refl s₂, fun hvpn => h.walk hvpn, fun _ _ _ => rfl,
    .inr ⟨rfl, fun _ hk => h.flat hk⟩, rfl, fun _ _ htlb => htlb⟩

/-- Giving up a space under construction: the caller holds its root and the stack
pages; the tables are lost. -/
theorem FreshRoot.giveUp (h : FreshRoot L roots held space kr r s s₁ s₂)
    (hinv : VmInv L roots held s.alloc s.mem) (hstack : StackBlock L held s.alloc q) {j : Nat}
    (hj : j ≤ 2) {W : Nat → Option Leaf} (hshows : Shows L W q j)
    (hov : Overlay L (Function.update roots space (some r)) space r (heldAfter held q j) W s₂ s') :
    VmInv L roots (fun p => held p + if p = r then 1 else 0) s'.alloc s'.mem := by
  have hr : Function.update roots space (some r) space = some r := Function.update_self ..
  have hblock : ∀ {p}, inBlock q j p → inBlock q 2 p := by
    intro p hin
    unfold inBlock at *
    omega
  have hstackNe : ∀ {p}, inBlock q 2 p → p ≠ r := by
    rintro p hin rfl
    have := (hstack p hin).2.2
    rw [h.wasFree] at this
    cases this
  have hheld : held r = 0 := by
    have := hinv.refs_le h.managed
    rw [h.wasFree] at this
    omega
  have hroots : Function.update (Function.update roots space (some r)) space none = roots := by
    rw [Function.update_idem, ← h.absent, Function.update_eq_self]
  have hleaf : ∀ {vpn : Fin 1048576} {p}, L.Managed p →
      target (Function.update roots space (some r)) s'.mem (.leaf space vpn) = some p →
      inBlock q j p := by
    intro vpn p hm ht
    simp only [target, hr, Option.bind_some] at ht
    rw [hov.walk vpn.isLt] at ht
    exact (hshows p hm).mp ⟨vpn, vpn.isLt, ht⟩
  rw [← hroots]
  refine hov.inv.dropRoot ?_ ?_ ?_
  · intro site p hs hm ht
    cases site with
    | root space' => exact hov.inv.root_single ht
    | table space' k => exact hov.inv.table_single ht
    | leaf space' vpn =>
        simp only [Site.space] at hs
        subst hs
        have hin := hblock (hleaf hm ht)
        have hone : refcntOf L s₂.alloc p = 1 := by
          rw [h.count hm, if_neg (hstackNe hin)]
          exact (hstack p hin).2.2
        rw [hov.grown.count_stable hm (by omega), hone]
  · intro site p hs hm ht
    cases site with
    | root space' =>
        simp only [Site.space] at hs
        subst hs
        rw [target, hr] at ht
        rw [← Option.some.inj ht, hheld, if_pos rfl]
    | table space' k =>
        have hzero := hov.inv.held_zero_of_single hm (hov.inv.table_single ht) ht
        have hne : p ≠ r := by
          rintro rfl
          have := hov.inv.root_unique hr _ ht
          cases this
        simp only [heldAfter] at hzero
        rw [if_neg hne]
        split at hzero <;> omega
    | leaf space' vpn =>
        simp only [Site.space] at hs
        subst hs
        have hin := hblock (hleaf hm ht)
        have hle := hinv.refs_le hm
        rw [(hstack p hin).2.2] at hle
        rw [if_neg (hstackNe hin)]
        omega
  · intro p hm hfree
    have hpr : p ≠ r := by
      rintro rfl
      exact hfree (.root space) rfl hr
    have hout : ¬ inBlock q j p := by
      intro hin
      obtain ⟨vpn, hvpn, hpage⟩ := (hshows p hm).mpr hin
      refine hfree (.leaf space ⟨vpn, hvpn⟩) rfl ?_
      simp only [target, hr, Option.bind_some]
      rw [hov.walk hvpn]
      exact hpage
    unfold heldAfter
    rw [if_neg hpr, if_neg hout]
    rfl

/-- A space that shows its stack has a table: there was a page for one. -/
theorem FreshRoot.roomy (h : FreshRoot L roots held space kr r s s₁ s₂) (hm : L.Managed q)
    {w : Nat → Nat} {W : Nat → Option Leaf} (hshows : Shows L W q 2)
    (hov : Overlay L (Function.update roots space (some r)) space r w W s₂ s') :
    reservePages 1 s₁.alloc ≠ none := by
  rcases hov.fresh with ⟨-, hres⟩ | ⟨-, hflat⟩
  · rw [h.alloc_eq] at hres
    exact hres
  · obtain ⟨vpn, hvpn, hpage⟩ := (hshows q hm).mpr (by unfold inBlock; omega)
    have honly : KernelOnly s'.mem r := ⟨fun hk => hflat _ hk, hov.inv.superpage (Function.update_self ..)⟩
    rw [← hov.walk hvpn, honly.userPage hvpn] at hpage
    cases hpage

/-- The specification of `vm_build_user_satp`. -/
theorem vmBuildUserSatp_spec (h : VmInv L roots held s.alloc s.mem) (hk : roots none = some kr)
    (hnone : roots space = none) (hstack : StackBlock L held s.alloc q) :
    Outcome (vmBuildUserSatp L (kr * 4096) (stackVpn * 4096) (q * 4096) 2 s)
      (fun out => Quiet L roots s out.2 ∧
        ((out.1 = none ∧ VmInv L roots held out.2.alloc out.2.mem ∧ BuildLeak L s out.2) ∨
          ∃ r, out.1 = some (vmMakeSatp (r * 4096)) ∧ Built L roots held space kr q r s out.2))
      (fun _ => False) := by
  unfold vmBuildUserSatp
  cases halloc : allocPagesTry L 1 s with
  | mk result s₁ =>
      cases result with
      | none =>
          obtain ⟨rfl, hwhy⟩ := allocPagesTry_none h.alloc halloc
          refine ⟨⟨fun _ _ => rfl, fun _ _ => rfl, fun _ _ => rfl, rfl, fun _ htlb => htlb⟩, .inl
            ⟨rfl, h, .inl ⟨hwhy.resolve_left (by decide), rfl⟩⟩⟩
      | some paddr =>
          obtain ⟨r, rfl, hal⟩ := allocPagesTry_some h.alloc (by decide) halloc
          have hfresh := h.freshRoot hk hnone hal
          have hdiv : kr * 4096 / 4096 = kr := Nat.mul_div_cancel _ (by decide)
          simp only [hdiv]
          have hr : Function.update roots space (some r) space = some r := Function.update_self ..
          have hstack₂ : StackBlock L held (s₁.setPage (r * 4096) (s₁.mem kr)).alloc q := by
            intro p hin
            obtain ⟨hm, hheld, hone⟩ := hstack p hin
            have hpr : p ≠ r := by
              rintro rfl
              rw [hfresh.wasFree] at hone
              cases hone
            refine ⟨hm, hheld, ?_⟩
            rw [hfresh.count hm, if_neg hpr]
            exact hone
          have hhidden : Hidden L (Mm.walk s.mem kr) := by
            intro vpn p hvpn hpage
            rw [(h.kernelOnly hk).userPage hvpn] at hpage
            cases hpage
          cases himage : mapUserImage L (r * 4096) (stackVpn * 4096) (q * 4096) 2
              (s₁.setPage (r * 4096) (s₁.mem kr)) with
          | mk done s₃ =>
              obtain ⟨W, j, hj, hov, hshows, hdone, hex⟩ :=
                mapUserImage_spec hfresh.overlay hr hfresh.space_ne hhidden hstack₂ himage
              have hquiet := hfresh.quiet hov
              cases done with
              | true =>
                  obtain ⟨rfl, rfl⟩ := hdone rfl
                  have hq := (hstack q (by unfold inBlock; omega)).1
                  exact ⟨hquiet, .inr ⟨r, rfl, hfresh.managed, hfresh.wasFree,
                    ⟨s₁, halloc, hfresh.roomy hq hshows hov⟩, hov.inv, hov.walk⟩⟩
              | false =>
                  have hinv₃ := hfresh.giveUp h hstack hj hshows hov
                  have hheld : held r = 0 := by
                    have := h.refs_le hfresh.managed
                    rw [hfresh.wasFree] at this
                    omega
                  obtain ⟨a', hfree, hinv', hdrop⟩ := (hinv₃.freePages (w := held) hfresh.managed
                    (by simp) (by simp [hheld]) (fun p hp => by simp [hp])).exists_ok
                  simp only [Phys.withAlloc, hfree]
                  refine ⟨⟨hquiet.walk, hquiet.page, ?_, hquiet.satp, hquiet.tlb⟩, .inl
                    ⟨rfl, hinv', .inr ⟨r, s₁, halloc, hal, ?_⟩⟩⟩
                  · intro p hm hcount
                    have hpr : p ≠ r := by
                      rintro rfl
                      exact hcount hfresh.wasFree
                    rw [← hquiet.count hm hcount]
                    obtain ⟨-, hcounts | ⟨-, -, rfl⟩⟩ := hdrop
                    · rw [hcounts p hm, if_neg hpr]
                    · rfl
                  · rcases hov.fresh with ⟨⟨k, t, hkt, ht⟩, hres⟩ | ⟨heq, -⟩
                    · -- A table is linked: it is lost.
                      have htable : target (Function.update roots space (some r)) s₃.mem
                          (.table space ⟨k, hkt⟩) = some t := by
                        simp [target, ht]
                      have hone := hov.inv.table_single htable
                      have hm := hov.inv.managed_of_table htable
                      obtain ⟨-, hzero⟩ := hov.grown.table_new hkt (hfresh.flat hkt) ht
                      have htr : t ≠ r := by
                        rintro rfl
                        have := hov.inv.root_unique hr _ htable
                        cases this
                      rw [hfresh.count hm, if_neg htr] at hzero
                      refine .inr ⟨hres, hinv'.alloc, t, hm, hzero, ?_⟩
                      obtain ⟨-, hcounts | ⟨-, -, rfl⟩⟩ := hdrop
                      · show refcntOf L a' t = 1
                        rw [hcounts t hm, if_neg htr, hone]
                      · exact hone
                    · refine .inl ⟨?_, ?_⟩
                      · have := hex rfl
                        rw [heq] at this
                        exact this
                      · rw [heq] at hfree
                        exact hfree

end Root

end Sugimotos.Mm
