/-
# `proc_vm_clone`

Fork shares every page of the writable VMAs without write permission: the
parent's entry loses it, the page gets one more reference, and the child's entry
is replaced.  The page the child had there before is freed, which stops the
kernel if that page is not managed.
-/

import Sugimotos.Proc.MemOps

namespace Sugimotos.Proc

open Sugimotos.Math Sugimotos.Mm

variable {L : Layout} {roots : Space → Option Nat} {vmas : Fin procMax → Vmas} {kr : Nat}
  {s s' : Phys} {p c : Fin procMax} {rp rc vpn cow : Nat} {leaf : Leaf}

/-! ## Protections -/

theorem walk_rwx {mem : Memory} {r vpn : Nat} {leaf : Leaf} (h : walk mem r vpn = some leaf) :
    leaf.perm &&& pteRwx ≠ 0 := by
  have hmask : ∀ pte : Nat, pte &&& pteRwxu &&& pteRwx = pte &&& pteRwx := by
    intro pte
    rw [Nat.and_assoc]
    rfl
  unfold walk at h
  simp only at h
  split at h
  · cases h
  · split at h
    · rename_i hrwx
      rw [← Option.some.inj h]
      show _ &&& pteRwxu &&& pteRwx ≠ 0
      rw [hmask]
      exact hrwx
    · unfold decodeLeaf at h
      split at h
      · cases h
      · rename_i hcond
        rw [not_or] at hcond
        rw [← Option.some.inj h]
        show _ &&& pteRwxu &&& pteRwx ≠ 0
        rw [hmask]
        exact hcond.2

/-- A page shared under protection zero was mapped for writing. -/
theorem write_of_cow_zero {prot perm : Nat} (hlt : prot < 8) (hzero : cowProt prot = 0)
    (hperm : perm = 2 * prot + 16 ∨ perm = 2 * cowProt prot + 16) (hrwx : perm &&& pteRwx ≠ 0) :
    perm &&& pteW ≠ 0 := by
  interval_cases prot <;> rcases hperm with rfl | rfl <;> revert hzero hrwx <;> decide

/-- A page mapped without write permission is mapped as it is shared. -/
theorem leaf_of_shared {prot perm : Nat} (hlt : prot < 8) (hwrite : prot &&& vmaProtW ≠ 0)
    (hperm : perm = 2 * prot + 16 ∨ perm = 2 * cowProt prot + 16) (hrwx : perm &&& pteRwx ≠ 0)
    (hshared : perm &&& pteW = 0) : perm = 2 * cowProt prot + 16 ∧ cowProt prot ≠ 0 := by
  interval_cases prot <;> rcases hperm with rfl | rfl <;> revert hwrite hrwx hshared <;> decide

/-! ## The parent's side -/

/-- The references held once a page of the parent is shared: one for the child's
entry, and one more if the parent's own entry is gone. -/
def sharedHeld (L : Layout) (page cow : Nat) : Nat → Nat :=
  fun q => if L.Managed q ∧ q = page then if cow = 0 then 2 else 1 else 0

/-- The parent's entry at `vpn` is shared and its page has one more reference. -/
structure Lowered (L : Layout) (roots : Space → Option Nat) (p : Fin procMax) (rp vpn : Nat)
    (leaf : Leaf) (cow : Nat) (s s' : Phys) : Prop where
  inv : VmInv L roots (sharedHeld L leaf.ppn cow) s'.alloc s'.mem
  walk : ∀ {space r vpn'}, roots space = some r → vpn' < 1048576 →
    Mm.walk s'.mem r vpn' =
      if space = some p ∧ vpn' = vpn then userLeaf leaf.ppn cow else Mm.walk s.mem r vpn'
  page : ∀ {q}, VmInv.NoTable roots s.mem q → (L.Managed q → refcntOf L s.alloc q ≠ 0) →
    s'.mem q = s.mem q ∧ VmInv.NoTable roots s'.mem q ∧
      (L.Managed q → refcntOf L s'.alloc q =
        refcntOf L s.alloc q + if q = leaf.ppn then 1 else 0)
  table : ∀ {space r k}, roots space = some r → space ≠ some p →
    tableAt s'.mem r k = tableAt s.mem r k
  satp : s'.mmu.satp = s.mmu.satp
  tlb : ∀ {space}, roots space = some (rootPage s.mmu.satp) →
    space ≠ some p ∨ Mm.walk s.mem rp vpn = userLeaf leaf.ppn cow → TlbOk s → TlbOk s'

theorem lower_spec {satp : Nat} (h : VmInv L roots (fun _ => 0) s.alloc s.mem)
    (hrp : roots (some p) = some rp) (hsatp : rootPage satp = rp) (hvpn : vpn < 1048576)
    (hwalk : walk s.mem rp vpn = some leaf) (hU : leaf.perm &&& pteU ≠ 0)
    (hppn : leaf.ppn < 1048576) (hcow : cow < 8) (hwrite : cow &&& vmaProtW = 0) :
    ∃ s₁ s₂, vmMapUserPage L satp (vpn * 4096) (leaf.ppn * 4096) cow s = (true, s₁) ∧
      s₁.withAlloc (pageIncRef L (leaf.ppn * 4096)) = .ok s₂ ∧
      Lowered L roots p rp vpn leaf cow s s₂ := by
  have htarget := VmInv.target_leaf hrp hvpn hwalk hU
  obtain ⟨t, ht⟩ := h.table_of_user hrp hvpn hwalk hU
  have hpage : userPage (walk s.mem rp vpn) = some leaf.ppn := by
    rw [hwalk, userPage, Option.bind_some, if_pos hU]
  cases hmap : vmMapUserPage L satp (vpn * 4096) (leaf.ppn * 4096) cow s with
  | mk done s₁ =>
      cases done with
      | false =>
          obtain ⟨-, hnone, -⟩ := vmMapUserPage_false h hsatp hvpn hcow hmap
          rw [ht] at hnone
          cases hnone
      | true =>
          -- Other mappings of the page are at the same virtual page.
          obtain ⟨hinv₁, hmapped, hmmu⟩ := vmMapUserPage_true
            (w := fun q => if L.Managed q ∧ q = leaf.ppn ∧ cow = 0 then 1 else 0)
            h hrp (by simp) hsatp hvpn hppn hcow
            (by
              refine ⟨fun hm hnew hsite => ?_, fun hnew _ hW _ => ?_⟩
              · rw [userPage_userLeaf hcow] at hnew
                split at hnew
                · cases hnew
                · rw [← Option.some.inj hnew] at hm hsite
                  have := h.same_vpn hm hsite htarget
                  rw [this]
              · unfold userLeaf at hnew
                split at hnew
                · cases hnew
                · rw [← Option.some.inj hnew] at hW
                  exact absurd ((userPerm_write hcow).mpr hwrite) hW)
            (by
              intro q hq
              rw [userPage_userLeaf hcow, hpage]
              by_cases hc : cow = 0
              · by_cases hql : q = leaf.ppn
                · subst hql
                  simp [hc, hq]
                · simp [hc, hql, Ne.symm hql]
              · by_cases hql : q = leaf.ppn
                · subst hql
                  simp [hc]
                · simp [hc, hql, Ne.symm hql])
            hmap
          have hgrown := hmapped.toGrown
          have hstay : ∀ {q}, VmInv.NoTable roots s.mem q →
              (L.Managed q → refcntOf L s.alloc q ≠ 0) →
              s₁.mem q = s.mem q ∧ VmInv.NoTable roots s₁.mem q ∧
                (L.Managed q → refcntOf L s₁.alloc q = refcntOf L s.alloc q) :=
            fun hno hcount => ⟨hgrown.page hno hcount, hgrown.noTable hrp hno hcount,
              fun hm => hgrown.count_stable hm (hcount hm)⟩
          have htables : ∀ {space r k}, roots space = some r → space ≠ some p →
              tableAt s₁.mem r k = tableAt s.mem r k := fun hr hne => hgrown.table_other hr hne
          have hsatp' : s₁.mmu.satp = s.mmu.satp := by rw [hmmu]; rfl
          have htlb : ∀ {space}, roots space = some (rootPage s.mmu.satp) →
              space ≠ some p ∨ walk s.mem rp vpn = userLeaf leaf.ppn cow → TlbOk s → TlbOk s₁ :=
            fun hactive hold htlb => htlb.mapped hmapped hmmu hrp hactive (hold.imp_right .inr)
          by_cases hm : L.Managed leaf.ppn
          · obtain ⟨hno, hcount⟩ := leaf_in_use h hrp hvpn hwalk hU
            have hloose : Loose roots s₁.mem leaf.ppn := by
              refine ⟨(hstay hno hcount).2.1, ?_⟩
              rintro space' r' vpn' leaf' hr' hvpn' hwalk' hU' hW' heq
              rw [hmapped.walk hr' hvpn'] at hwalk'
              split at hwalk'
              · unfold userLeaf at hwalk'
                split at hwalk'
                · cases hwalk'
                · rw [← Option.some.inj hwalk'] at hW'
                  exact hW' ((userPerm_write hcow).mpr hwrite)
              · rename_i hne
                have hsite := h.write_unique ⟨vpn', hvpn'⟩ hr' hwalk' hU' hW'
                  (by rw [heq]; exact hm)
                  (by rw [heq]; exact htarget)
                simp only [Site.leaf.injEq, Fin.mk.injEq] at hsite
                exact hne ⟨hsite.1.symm, hsite.2.symm⟩
            have hpos : 0 < refs (target roots s₁.mem) leaf.ppn +
                (if L.Managed leaf.ppn ∧ leaf.ppn = leaf.ppn ∧ cow = 0 then 1 else 0) := by
              by_cases hc : cow = 0
              · simp [hc, hm]
              · have hsite : target roots s₁.mem (.leaf (some p) ⟨vpn, hvpn⟩) = some leaf.ppn := by
                  simp only [target, hrp, Option.bind_some]
                  rw [hmapped.walk hrp hvpn, if_pos ⟨rfl, rfl⟩, userPage_userLeaf hcow, if_neg hc]
                have := refs_pos hsite
                omega
            obtain ⟨a₂, hinc, hinv₂, -, hcount₂⟩ := (hinv₁.pageIncRef
              (w := sharedHeld L leaf.ppn cow) hm hloose hpos (by split <;> omega)
              (by
                unfold sharedHeld
                by_cases hc : cow = 0
                · simp [hc, hm]
                · simp [hc, hm])
              (fun q hq => by simp [sharedHeld, hq])).exists_ok
            refine ⟨s₁, { s₁ with alloc := a₂ }, rfl, ?_,
              ⟨hinv₂, hmapped.walk, ?_, htables, hsatp', htlb⟩⟩
            · simp only [Phys.withAlloc, hinc]
            · intro q hno' hcount'
              obtain ⟨hmem, hnot, hsame⟩ := hstay hno' hcount'
              refine ⟨hmem, hnot, fun hmq => ?_⟩
              show refcntOf L a₂ q = _
              rw [hcount₂ q hmq, hsame hmq]
          · refine ⟨s₁, s₁, rfl, ?_,
              ⟨hinv₁.congr_held fun q hq => ?_, hmapped.walk, ?_, htables, hsatp', htlb⟩⟩
            · simp only [Phys.withAlloc, pageIncRef_unmanaged hinv₁.alloc hm]
            · have hq' : q ≠ leaf.ppn := by
                rintro rfl
                exact hm hq
              simp [sharedHeld, hq']
            · intro q hno' hcount'
              obtain ⟨hmem, hnot, hsame⟩ := hstay hno' hcount'
              refine ⟨hmem, hnot, fun hmq => ?_⟩
              have hq' : q ≠ leaf.ppn := by
                rintro rfl
                exact hm hmq
              rw [hsame hmq, if_neg hq', Nat.add_zero]

/-! ## The child's side -/

/-- The address spaces of a fork. -/
structure Forking (roots : Space → Option Nat) (p c : Fin procMax) (rp rc parentSatp childSatp : Nat) :
    Prop where
  parent : roots (some p) = some rp
  child : roots (some c) = some rc
  ne : p ≠ c
  parentRoot : rootPage parentSatp = rp
  childRoot : rootPage childSatp = rc

/-- The entry of a child where nothing has been shared yet. -/
def FreshLeaf (L : Layout) (vpn : Nat) (old : Option Leaf) : Prop :=
  (windowPage vpn ∧ old = none) ∨ (stackPage vpn ∧ ∃ q, L.Managed q ∧ old = some ⟨q, 22⟩) ∨
    (dataPage L vpn ∧ old = some ⟨vpn, 22⟩)

/-- A page that cloning leaves alone: in use, no page table, and not a page the
child alone can write to. -/
structure Solid (L : Layout) (roots : Space → Option Nat) (rc : Nat) (s : Phys) (q : Nat) :
    Prop where
  noTable : VmInv.NoTable roots s.mem q
  count : L.Managed q → refcntOf L s.alloc q ≠ 0
  shown : ∀ {vpn leaf}, vpn < 1048576 → Mm.walk s.mem rc vpn = some leaf →
    leaf.perm &&& pteU ≠ 0 → leaf.perm &&& pteW ≠ 0 → L.Managed leaf.ppn → leaf.ppn ≠ q

/-- What one turn of the loop of `proc_vm_clone` does; `done` says whether it went
through. -/
structure PageCloned (L : Layout) (roots : Space → Option Nat) (p c : Fin procMax)
    (rp rc vpn cow : Nat) (done : Bool) (s s' : Phys) : Prop where
  parent : Mm.walk s'.mem rp vpn = (Mm.walk s.mem rp vpn).bind fun leaf => userLeaf leaf.ppn cow
  child : Mm.walk s'.mem rc vpn =
    if done = true ∧ (Mm.walk s.mem rp vpn).isSome = true then Mm.walk s'.mem rp vpn
    else Mm.walk s.mem rc vpn
  other : ∀ {space r vpn'}, roots space = some r → vpn' < 1048576 →
    ¬ (vpn' = vpn ∧ (space = some p ∨ space = some c)) →
    Mm.walk s'.mem r vpn' = Mm.walk s.mem r vpn'
  solid : ∀ {q}, Solid L roots rc s q → s'.mem q = s.mem q ∧ Solid L roots rc s' q
  satp : s'.mmu.satp = s.mmu.satp
  tlb : ∀ {space}, roots space = some (rootPage s.mmu.satp) → space ≠ some c →
    space ≠ some p ∨ (∀ leaf, Mm.walk s.mem rp vpn = some leaf → leaf.perm &&& pteW = 0) →
    TlbOk s → TlbOk s'

section Child

variable {parentSatp childSatp : Nat} {s₁ s₂ s₃ : Phys}

theorem clonePage_unmapped (hf : Forking roots p c rp rc parentSatp childSatp)
    (hvpn : vpn < 1048576) (hwalk : walk s.mem rp vpn = none) :
    clonePage L parentSatp childSatp cow (vpn * 4096) s = .ok (true, s) := by
  have hquery := vmQueryUserPage_eq parentSatp (vpn * 4096) (by omega) (by omega) s
  rw [Nat.mul_div_cancel _ (by decide), hf.parentRoot, hwalk] at hquery
  unfold clonePage
  rw [hquery]
  rfl

/-- The rest of the turn once the parent's entry is shared. -/
theorem clonePage_mapped (hf : Forking roots p c rp rc parentSatp childSatp) (hvpn : vpn < 1048576)
    (hwalk : walk s.mem rp vpn = some leaf)
    (hmap : vmMapUserPage L parentSatp (vpn * 4096) (leaf.ppn * 4096) cow s = (true, s₁))
    (hinc : s₁.withAlloc (pageIncRef L (leaf.ppn * 4096)) = .ok s₂) :
    clonePage L parentSatp childSatp cow (vpn * 4096) s =
      match vmMapUserPage L childSatp (vpn * 4096) (leaf.ppn * 4096) cow s₂ with
      | (false, s) => do
          let s ← s.withAlloc (pageDecRef L (leaf.ppn * 4096))
          return (false, s)
      | (true, s₃) =>
          match walk s.mem rc vpn with
          | none => return (true, s₃)
          | some old =>
              if old.ppn * 4096 ≠ leaf.ppn * 4096 then do
                let s ← s₃.withAlloc (freePages L (old.ppn * 4096) 1)
                return (true, s)
              else return (true, s₃) := by
  have hquery : ∀ {satp r}, rootPage satp = r → vmQueryUserPage satp (vpn * 4096) s =
      (walk s.mem r vpn).map fun leaf => (leaf.ppn * 4096, leaf.perm) := by
    intro satp r hsatp
    have := vmQueryUserPage_eq satp (vpn * 4096) (by omega) (by omega) s
    rw [Nat.mul_div_cancel _ (by decide), hsatp] at this
    exact this
  unfold clonePage
  rw [hquery hf.parentRoot, hquery hf.childRoot, hwalk]
  simp only [Option.map_some, hmap, hinc]
  cases walk s.mem rc vpn with
  | none => rfl
  | some old => rfl

/-- The references held once the child's entry is written too. -/
def clonedHeld (L : Layout) (page cow : Nat) (old : Option Leaf) : Nat → Nat :=
  fun q => (if L.Managed q ∧ q = page ∧ cow = 0 then 2 else 0) +
    if userPage old = some q then 1 else 0

theorem Lowered.mapChild (hlow : Lowered L roots p rp vpn leaf cow s s₂)
    (hf : Forking roots p c rp rc parentSatp childSatp) (hvpn : vpn < 1048576)
    (hppn : leaf.ppn < 1048576) (hcow : cow < 8) (hwrite : cow &&& vmaProtW = 0)
    (hmap : vmMapUserPage L childSatp (vpn * 4096) (leaf.ppn * 4096) cow s₂ = (true, s₃)) :
    VmInv L roots (clonedHeld L leaf.ppn cow (Mm.walk s.mem rc vpn)) s₃.alloc s₃.mem ∧
      Mapped L roots (some c) rc vpn (userLeaf leaf.ppn cow) s₂ s₃ ∧ s₃.mmu = s₂.tick.mmu := by
  have hne : (some c : Space) ≠ some p := by simpa using hf.ne.symm
  have hold : Mm.walk s₂.mem rc vpn = Mm.walk s.mem rc vpn := by
    rw [hlow.walk hf.child hvpn, if_neg (fun hc => hne hc.1)]
  refine vmMapUserPage_true hlow.inv hf.child (by simp) hf.childRoot hvpn hppn hcow ?_ ?_ hmap
  · refine ⟨fun hm hnew hsite => ?_, fun hnew _ hW _ => ?_⟩
    · -- The parent shows the page at `vpn`, so every other user leaf of it is there.
      rw [userPage_userLeaf hcow] at hnew
      split at hnew
      · cases hnew
      · rename_i hc
        have hparent : target roots s₂.mem (.leaf (some p) ⟨vpn, hvpn⟩) = some leaf.ppn := by
          simp only [target, hf.parent, Option.bind_some]
          rw [hlow.walk hf.parent hvpn, if_pos ⟨rfl, rfl⟩, userPage_userLeaf hcow, if_neg hc]
        rw [← Option.some.inj hnew] at hm hsite
        rw [hlow.inv.same_vpn hm hsite hparent]
    · unfold userLeaf at hnew
      split at hnew
      · cases hnew
      · rw [← Option.some.inj hnew] at hW
        exact absurd ((userPerm_write hcow).mpr hwrite) hW
  · intro q hq
    rw [userPage_userLeaf hcow, hold]
    unfold clonedHeld sharedHeld
    by_cases hc : cow = 0
    · by_cases hql : q = leaf.ppn
      · simp [hc, hql]
      · simp [hc, hql]
    · by_cases hql : q = leaf.ppn
      · subst hql
        simp [hc, hq]
        omega
      · simp [hc, hql, Ne.symm hql]

/-- One turn, assembled from the parent's side and the child's. -/
theorem Lowered.pageCloned {done : Bool} (hlow : Lowered L roots p rp vpn leaf cow s s₂)
    (hf : Forking roots p c rp rc parentSatp childSatp) (hvpn : vpn < 1048576)
    (hwalk : Mm.walk s.mem rp vpn = some leaf) (hcow : cow < 8) (hwrite : cow &&& vmaProtW = 0)
    (hshared : leaf.perm &&& pteW = 0 → Mm.walk s.mem rp vpn = userLeaf leaf.ppn cow)
    (hchild : ∀ {space r vpn'}, roots space = some r → vpn' < 1048576 →
      Mm.walk s'.mem r vpn' =
        if done = true ∧ space = some c ∧ vpn' = vpn then userLeaf leaf.ppn cow
        else Mm.walk s₂.mem r vpn')
    (hpage : ∀ {q}, VmInv.NoTable roots s₂.mem q → (L.Managed q → refcntOf L s₂.alloc q ≠ 0) →
      s'.mem q = s₂.mem q ∧ VmInv.NoTable roots s'.mem q)
    (hcount : ∀ {q}, Solid L roots rc s q → L.Managed q → refcntOf L s'.alloc q ≠ 0)
    (hsatp : s'.mmu.satp = s₂.mmu.satp)
    (htlb : ∀ {space}, roots space = some (rootPage s₂.mmu.satp) → space ≠ some c →
      TlbOk s₂ → TlbOk s') :
    PageCloned L roots p c rp rc vpn cow done s s' := by
  have hne : (some c : Space) ≠ some p := by simpa using hf.ne.symm
  have hparent : Mm.walk s'.mem rp vpn = userLeaf leaf.ppn cow := by
    rw [hchild hf.parent hvpn, if_neg (fun hc => hne hc.2.1.symm), hlow.walk hf.parent hvpn,
      if_pos ⟨rfl, rfl⟩]
  refine ⟨?_, ?_, ?_, ?_, hsatp.trans hlow.satp, ?_⟩
  · rw [hparent, hwalk]
    rfl
  · have hkeep : Mm.walk s₂.mem rc vpn = Mm.walk s.mem rc vpn := by
      rw [hlow.walk hf.child hvpn, if_neg (fun hc => hne hc.1)]
    rw [hparent, hchild hf.child hvpn, hkeep, hwalk]
    simp
  · intro space r vpn' hr hvpn' hout
    rw [hchild hr hvpn', if_neg (fun hc => hout ⟨hc.2.2, .inr hc.2.1⟩), hlow.walk hr hvpn',
      if_neg (fun hc => hout ⟨hc.2, .inl hc.1⟩)]
  · intro q hq
    obtain ⟨hmem, hno, hc⟩ := hlow.page hq.noTable hq.count
    obtain ⟨hmem', hno'⟩ := hpage hno fun hm => by
      rw [hc hm]
      have := hq.count hm
      omega
    refine ⟨hmem'.trans hmem, hno', hcount hq, ?_⟩
    intro vpn' leaf' hvpn' hwalk' hU hW hm
    rw [hchild hf.child hvpn'] at hwalk'
    split at hwalk'
    · -- The shared entry is not writable.
      unfold userLeaf at hwalk'
      split at hwalk'
      · cases hwalk'
      · rw [← Option.some.inj hwalk'] at hW
        exact absurd ((userPerm_write hcow).mpr hwrite) hW
    · rw [hlow.walk hf.child hvpn', if_neg (fun hc => hne hc.1)] at hwalk'
      exact hq.shown hvpn' hwalk' hU hW hm
  · intro space hactive hnotc hold hok
    refine htlb (by rw [hlow.satp]; exact hactive) hnotc (hlow.tlb hactive ?_ hok)
    exact hold.imp_right fun hall => hshared (hall leaf hwalk)

/-- A turn at which nothing is mapped in the parent. -/
theorem PageCloned.refl (hwalk : Mm.walk s.mem rp vpn = none) :
    PageCloned L roots p c rp rc vpn cow true s s := by
  refine ⟨by rw [hwalk]; rfl, by simp [hwalk], fun _ _ _ => rfl, fun hq => ⟨rfl, hq⟩, rfl,
    fun _ _ _ htlb => htlb⟩

/-- The shared entry is allowed wherever the old one was, except for a private
copy of a writable section. -/
theorem LeafFits.shared {v : Vmas} {mem mem' : Memory} (hv : VmaInv L v)
    (h : LeafFits L v mem vpn leaf) {j : Fin procVmaMax} (hcov : (v j).Covers vpn)
    (hwrite : (v j).prot &&& vmaProtW ≠ 0) (hgood : ¬ (dataPage L vpn ∧ L.Managed leaf.ppn)) :
    LeafFits L v mem' vpn ⟨leaf.ppn, 2 * cowProt (v j).prot + 16⟩ := by
  cases hv.region hcov with
  | window hw hpos hlt =>
      rw [leafFits_window hw] at h ⊢
      exact ⟨h.managed, j, hcov, .inr rfl, fun hprot => absurd hprot hwrite⟩
  | stack hs hprot =>
      rw [leafFits_stack hs] at h ⊢
      rw [hprot]
      exact ⟨h.1, .inr rfl⟩
  | data hd hprot =>
      rw [leafFits_data hd] at h ⊢
      rw [hprot]
      rcases h with ⟨hppn, -⟩ | ⟨hm, -⟩
      · exact .inl ⟨hppn, .inr rfl⟩
      · exact absurd ⟨hd, hm⟩ hgood
  | fixed hw hs hd hprot =>
      rcases hprot with hprot | hprot <;> rw [hprot] at hwrite <;> exact absurd rfl hwrite

/-- The child cannot be without a table where it has an entry. -/
theorem Lowered.child_table (hlow : Lowered L roots p rp vpn leaf cow s s₂)
    (hf : Forking roots p c rp rc parentSatp childSatp) (h : VmInv L roots (fun _ => 0) s.alloc s.mem)
    (hvpn : vpn < 1048576) {old : Leaf} (hold : Mm.walk s.mem rc vpn = some old)
    (hU : old.perm &&& pteU ≠ 0) : tableAt s₂.mem rc (vpn / 1024) ≠ none := by
  obtain ⟨t, ht⟩ := h.table_of_user hf.child hvpn hold hU
  rw [hlow.table hf.child (by simpa using hf.ne.symm), ht]
  exact Option.some_ne_none t

/-- The turn fails for lack of a table for the child. -/
theorem Lowered.fail (hlow : Lowered L roots p rp vpn leaf cow s s₂)
    (hone : cow = 0 → refcntOf L s.alloc leaf.ppn = 1) (hm : L.Managed leaf.ppn)
    (hinuse : VmInv.NoTable roots s.mem leaf.ppn ∧ refcntOf L s.alloc leaf.ppn ≠ 0)
    (hclone : ∀ s', s'.mem = s₂.mem → s'.mmu = s₂.tick.mmu →
      (∀ {q}, L.Managed q → refcntOf L s.alloc q ≠ 0 → VmInv.NoTable roots s.mem q →
        refcntOf L s'.alloc q ≠ 0) → PageCloned L roots p c rp rc vpn cow false s s') :
    Outcome (s₂.tick.withAlloc (pageDecRef L (leaf.ppn * 4096)))
      (fun s' => s'.mem = s₂.mem ∧ VmInv L roots (fun _ => 0) s'.alloc s'.mem ∧
        PageCloned L roots p c rp rc vpn cow false s s')
      (fun _ => False) := by
  have hcount := (hlow.page hinuse.1 fun _ => hinuse.2).2.2 hm
  rw [if_pos rfl] at hcount
  obtain ⟨a', hdec, hinv', hdrop⟩ := (hlow.inv.pageDecRef
    (w := fun q => if L.Managed q ∧ q = leaf.ppn ∧ cow = 0 then 1 else 0) hm
    (by unfold sharedHeld; rw [if_pos ⟨hm, rfl⟩]; split <;> omega)
    (by unfold sharedHeld; by_cases hc : cow = 0 <;> simp [hc, hm])
    (fun q hq => by simp [sharedHeld, hq])).exists_ok
  simp only [Phys.withAlloc, Phys.tick_alloc, hdec]
  -- One reference went back, so no count dropped below what it was.
  have hcounts : ∀ {q}, L.Managed q →
      refcntOf L a' q = if q = leaf.ppn then refcntOf L s.alloc leaf.ppn
        else refcntOf L s₂.alloc q := by
    intro q hq
    rcases hdrop.2 with hless | ⟨hlast, -⟩
    · rw [hless q hq]
      by_cases hql : q = leaf.ppn
      · rw [if_pos hql, if_pos hql]
        omega
      · rw [if_neg hql, if_neg hql]
    · omega
  refine ⟨rfl, ?_, hclone _ rfl rfl ?_⟩
  · by_cases hc : cow = 0
    · refine VmInv.lose (n := 1) hinv' hm (by omega) ?_ (by simp [hc, hm]) (fun q hq _ => by simp [hq])
      rw [hcounts hm, if_pos rfl]
      exact hone hc
    · exact hinv'.congr_held fun q _ => by simp [hc]
  · intro q hq hne hno
    show refcntOf L a' q ≠ 0
    rw [hcounts hq]
    split
    · exact hinuse.2
    · rename_i hql
      rw [(hlow.page hno fun _ => hne).2.2 hq, if_neg hql]
      exact hne

theorem TlbOk.congr_phys (h : TlbOk s) (hmem : s'.mem = s.mem) (hmmu : s'.mmu = s.mmu) : TlbOk s' :=
  h.of_walk hmmu fun _ => by rw [hmem]

/-- The turn goes through: what follows from the two sides when the last step only
changes counts. -/
theorem Lowered.cloned (hlow : Lowered L roots p rp vpn leaf cow s s₂)
    (hf : Forking roots p c rp rc parentSatp childSatp) (hvpn : vpn < 1048576)
    (hwalk : Mm.walk s.mem rp vpn = some leaf) (hcow : cow < 8) (hwrite : cow &&& vmaProtW = 0)
    (hshared : leaf.perm &&& pteW = 0 → Mm.walk s.mem rp vpn = userLeaf leaf.ppn cow)
    (hmapped : Mapped L roots (some c) rc vpn (userLeaf leaf.ppn cow) s₂ s₃)
    (hmmu : s₃.mmu = s₂.tick.mmu) (hmem' : s'.mem = s₃.mem) (hmmu' : s'.mmu = s₃.mmu)
    (hcount : ∀ {q}, Solid L roots rc s q → L.Managed q →
      refcntOf L s'.alloc q = refcntOf L s₃.alloc q) :
    PageCloned L roots p c rp rc vpn cow true s s' := by
  have hne : (some c : Space) ≠ some p := by simpa using hf.ne.symm
  have hstay : ∀ {q}, Solid L roots rc s q → L.Managed q → refcntOf L s₂.alloc q ≠ 0 := by
    intro q hq hm
    rw [(hlow.page hq.noTable hq.count).2.2 hm]
    have := hq.count hm
    omega
  refine hlow.pageCloned hf hvpn hwalk hcow hwrite hshared ?_ ?_ ?_ ?_ ?_
  · intro space r vpn' hr hvpn'
    rw [hmem', hmapped.walk hr hvpn']
    simp
  · intro q hno hc
    rw [hmem']
    exact ⟨hmapped.page hno hc, hmapped.noTable hf.child hno hc⟩
  · intro q hq hm
    rw [hcount hq hm, hmapped.count_stable hm (hstay hq hm)]
    exact hstay hq hm
  · rw [hmmu', hmmu]
    rfl
  · intro space hactive hnotc htlb
    have := htlb.mapped hmapped hmmu hf.child hactive (.inl hnotc)
    exact TlbOk.congr_phys this hmem' hmmu'

/-- A turn of the loop of `proc_vm_clone` at a page of a writable VMA, once the
parent's entry is shared. -/
structure Turn (L : Layout) (roots : Space → Option Nat) (vmas : Fin procMax → Vmas) (kr : Nat)
    (p c : Fin procMax) (rp rc parentSatp childSatp vpn : Nat) (leaf : Leaf) (j : Fin procVmaMax)
    (s s₂ : Phys) : Prop where
  inv : MmInv L roots (fun _ => 0) vmas kr s
  forking : Forking roots p c rp rc parentSatp childSatp
  vmas_eq : vmas c = vmas p
  vpn_lt : vpn < 1048576
  covers : (vmas p j).Covers vpn
  write : (vmas p j).prot &&& vmaProtW ≠ 0
  walk : Mm.walk s.mem rp vpn = some leaf
  lowered : Lowered L roots p rp vpn leaf (cowProt (vmas p j).prot) s s₂

namespace Turn

variable {j : Fin procVmaMax}

theorem prot_lt (h : Turn L roots vmas kr p c rp rc parentSatp childSatp vpn leaf j s s₂) :
    (vmas p j).prot < 8 :=
  ((h.inv.vma h.forking.parent).region h.covers).prot_lt.2

theorem user (h : Turn L roots vmas kr p c rp rc parentSatp childSatp vpn leaf j s s₂) :
    leaf.perm &&& pteU ≠ 0 :=
  h.inv.leaf_user h.forking.parent h.vpn_lt h.walk h.covers

theorem kind (h : Turn L roots vmas kr p c rp rc parentSatp childSatp vpn leaf j s s₂) :
    L.Managed leaf.ppn ∨ leaf.ppn = vpn :=
  (h.inv.leaf_perm h.forking.parent h.vpn_lt h.walk h.covers).2

theorem ppn_lt (h : Turn L roots vmas kr p c rp rc parentSatp childSatp vpn leaf j s s₂) :
    leaf.ppn < 1048576 := by
  rcases h.kind with hm | heq
  · exact hm.lt
  · rw [heq]
    exact h.vpn_lt

theorem fits (h : Turn L roots vmas kr p c rp rc parentSatp childSatp vpn leaf j s s₂) :
    LeafFits L (vmas p) s.mem vpn leaf :=
  h.inv.fits h.forking.parent h.vpn_lt h.walk

theorem in_use (h : Turn L roots vmas kr p c rp rc parentSatp childSatp vpn leaf j s s₂) :
    VmInv.NoTable roots s.mem leaf.ppn ∧ (L.Managed leaf.ppn → refcntOf L s.alloc leaf.ppn ≠ 0) :=
  leaf_in_use h.inv.vm h.forking.parent h.vpn_lt h.walk h.user

/-- An entry that was not writable does not change. -/
theorem same (h : Turn L roots vmas kr p c rp rc parentSatp childSatp vpn leaf j s s₂)
    (hno : leaf.perm &&& pteW = 0) :
    Mm.walk s.mem rp vpn = userLeaf leaf.ppn (cowProt (vmas p j).prot) := by
  obtain ⟨heq, hne⟩ := leaf_of_shared h.prot_lt h.write
    (h.inv.leaf_perm h.forking.parent h.vpn_lt h.walk h.covers).1 (walk_rwx h.walk) hno
  rw [userLeaf_pos hne, ← heq]
  exact h.walk

/-- A page whose entry goes away altogether had one reference. -/
theorem single (h : Turn L roots vmas kr p c rp rc parentSatp childSatp vpn leaf j s s₂)
    (hzero : cowProt (vmas p j).prot = 0) (hm : L.Managed leaf.ppn) :
    refcntOf L s.alloc leaf.ppn = 1 := by
  have hperm := (h.inv.leaf_perm h.forking.parent h.vpn_lt h.walk h.covers).1
  exact h.inv.vm.write_single h.forking.parent h.vpn_lt h.walk h.user
    (write_of_cow_zero h.prot_lt hzero hperm (walk_rwx h.walk)) hm

/-- The shared entry is allowed in both processes. -/
theorem fits_shared (h : Turn L roots vmas kr p c rp rc parentSatp childSatp vpn leaf j s s₂)
    (hgood : ¬ (dataPage L vpn ∧ L.Managed leaf.ppn)) {v : Vmas} (hv : v = vmas p) {mem : Memory}
    {new : Leaf} (hnew : userLeaf leaf.ppn (cowProt (vmas p j).prot) = some new) :
    LeafFits L v mem vpn new := by
  unfold userLeaf at hnew
  split at hnew
  · cases hnew
  · rw [← Option.some.inj hnew, hv]
    exact h.fits.shared (h.inv.vma h.forking.parent) h.covers h.write hgood

/-- There is no page for the child's table. -/
theorem exhausted (h : Turn L roots vmas kr p c rp rc parentSatp childSatp vpn leaf j s s₂)
    (hw : windowPage vpn) :
    Outcome (s₂.tick.withAlloc (pageDecRef L (leaf.ppn * 4096)))
      (fun s' => MmInv L roots (fun _ => 0) vmas kr s' ∧
        PageCloned L roots p c rp rc vpn (cowProt (vmas p j).prot) false s s')
      (fun _ => False) := by
  have hm := ((leafFits_window hw).mp h.fits).managed
  have hgood : ¬ (dataPage L vpn ∧ L.Managed leaf.ppn) := fun hc => (dataPage_not_low hc.1).1 hw
  have hlow := h.lowered
  refine (hlow.fail (c := c) (fun hzero => h.single hzero hm) hm
    ⟨h.in_use.1, h.in_use.2 hm⟩ (fun s' hmem hmmu hcount => ?_)).imp
    fun s' ⟨hmem, hinv, hcloned⟩ => ⟨?_, hcloned⟩
  · refine hlow.pageCloned h.forking h.vpn_lt h.walk (cowProt_lt h.prot_lt)
      (cowProt_write _ h.prot_lt) h.same ?_ ?_ ?_ ?_ ?_
    · intro space r vpn' _ _
      rw [hmem]
      simp
    · intro q hno _
      rw [hmem]
      exact ⟨rfl, hno⟩
    · intro q hq hmq
      exact hcount hmq (hq.count hmq) hq.noTable
    · rw [hmmu]
      rfl
    · intro space _ _ htlb
      exact TlbOk.congr_phys htlb.tick hmem hmmu
  · exact h.inv.remap hinv (fun hr hv => by rw [hmem]; exact hlow.walk hr hv)
      (fun hno hc => by rw [hmem]; exact (hlow.page hno hc).1)
      fun new hnew => h.fits_shared hgood rfl hnew

/-- The child's entry is written. -/
theorem mapChild (h : Turn L roots vmas kr p c rp rc parentSatp childSatp vpn leaf j s s₂)
    (hmap : vmMapUserPage L childSatp (vpn * 4096) (leaf.ppn * 4096) (cowProt (vmas p j).prot) s₂ =
      (true, s₃)) :
    VmInv L roots (clonedHeld L leaf.ppn (cowProt (vmas p j).prot) (Mm.walk s.mem rc vpn))
        s₃.alloc s₃.mem ∧
      Mapped L roots (some c) rc vpn (userLeaf leaf.ppn (cowProt (vmas p j).prot)) s₂ s₃ ∧
      s₃.mmu = s₂.tick.mmu :=
  h.lowered.mapChild h.forking h.vpn_lt h.ppn_lt (cowProt_lt h.prot_lt)
    (cowProt_write _ h.prot_lt) hmap

/-- The state after both entries are written and the counts are settled. -/
theorem finish (h : Turn L roots vmas kr p c rp rc parentSatp childSatp vpn leaf j s s₂)
    (hgood : ¬ (dataPage L vpn ∧ L.Managed leaf.ppn))
    (hmap : vmMapUserPage L childSatp (vpn * 4096) (leaf.ppn * 4096) (cowProt (vmas p j).prot) s₂ =
      (true, s₃)) (hmem : s'.mem = s₃.mem) (hmmu : s'.mmu = s₃.mmu)
    (hinv : VmInv L roots (fun _ => 0) s'.alloc s'.mem)
    (hcount : ∀ {q}, Solid L roots rc s q → L.Managed q →
      refcntOf L s'.alloc q = refcntOf L s₃.alloc q) :
    MmInv L roots (fun _ => 0) vmas kr s' ∧
      PageCloned L roots p c rp rc vpn (cowProt (vmas p j).prot) true s s' := by
  obtain ⟨hinv₃, hmapped, hmmu₃⟩ := h.mapChild hmap
  have hlow := h.lowered
  have h₂ := h.inv.remap hlow.inv hlow.walk (fun hno hc => (hlow.page hno hc).1)
    fun new hnew => h.fits_shared hgood rfl hnew
  have h₃ := h₂.mapped hinv₃ hmapped fun new hnew => h.fits_shared hgood h.vmas_eq hnew
  exact ⟨h₃.of_alloc hinv hmem, hlow.cloned h.forking h.vpn_lt h.walk (cowProt_lt h.prot_lt)
    (cowProt_write _ h.prot_lt) h.same hmapped hmmu₃ hmem hmmu hcount⟩

/-- A page of the window, where the child has nothing yet.  If no permission is
left to share it under, the page is lost. -/
theorem window (h : Turn L roots vmas kr p c rp rc parentSatp childSatp vpn leaf j s s₂)
    (hw : windowPage vpn) (hold : Mm.walk s.mem rc vpn = none)
    (hmap : vmMapUserPage L childSatp (vpn * 4096) (leaf.ppn * 4096) (cowProt (vmas p j).prot) s₂ =
      (true, s₃)) :
    MmInv L roots (fun _ => 0) vmas kr s₃ ∧
      PageCloned L roots p c rp rc vpn (cowProt (vmas p j).prot) true s s₃ := by
  have hm := ((leafFits_window hw).mp h.fits).managed
  obtain ⟨hinv₃, hmapped, -⟩ := h.mapChild hmap
  rw [hold] at hinv₃
  refine h.finish (fun hc => (dataPage_not_low hc.1).1 hw) hmap rfl rfl ?_ fun _ _ => rfl
  by_cases hzero : cowProt (vmas p j).prot = 0
  · have hcount := (h.lowered.page h.in_use.1 h.in_use.2).2.2 hm
    rw [if_pos rfl, h.single hzero hm] at hcount
    refine VmInv.lose (n := 2) hinv₃ hm (by omega) ?_ (by simp [clonedHeld, hm, hzero, userPage])
      (fun q hq _ => by simp [clonedHeld, hq, userPage])
    rw [hmapped.count_stable hm (by omega), hcount]
  · exact hinv₃.congr_held fun q _ => by simp [clonedHeld, hzero, userPage]

/-- A stack page: the child's own page is given back. -/
theorem stack (h : Turn L roots vmas kr p c rp rc parentSatp childSatp vpn leaf j s s₂)
    (hs : stackPage vpn) {q : Nat} (hmq : L.Managed q) (hold : Mm.walk s.mem rc vpn = some ⟨q, 22⟩)
    (hmap : vmMapUserPage L childSatp (vpn * 4096) (leaf.ppn * 4096) (cowProt (vmas p j).prot) s₂ =
      (true, s₃)) :
    q ≠ leaf.ppn ∧ Outcome (s₃.withAlloc (freePages L (q * 4096) 1))
      (fun s' => MmInv L roots (fun _ => 0) vmas kr s' ∧
        PageCloned L roots p c rp rc vpn (cowProt (vmas p j).prot) true s s')
      (fun _ => False) := by
  have hU : 22 &&& pteU ≠ 0 := by decide
  have hW : 22 &&& pteW ≠ 0 := by decide
  -- The child alone can write to its page, so it is not the parent's.
  have hqp : q ≠ leaf.ppn := by
    intro heq
    have htarget := VmInv.target_leaf h.forking.parent h.vpn_lt h.walk h.user
    have hsite := h.inv.vm.write_unique ⟨vpn, h.vpn_lt⟩ h.forking.child hold hU hW hmq
      (by rw [heq]; exact htarget)
    simp only [Site.leaf.injEq, Option.some.injEq] at hsite
    exact h.forking.ne hsite.1
  have hprot : cowProt (vmas p j).prot ≠ 0 := by
    cases (h.inv.vma h.forking.parent).region h.covers with
    | window hw => exact absurd hs (windowPage_not_stack hw)
    | stack hs' hprot =>
        rw [hprot]
        decide
    | data hd => exact absurd hs (dataPage_not_low hd).2
    | fixed hw' hs' => exact absurd hs hs'
  have hpage : userPage (some ⟨q, 22⟩) = some q := by
    rw [userPage, Option.bind_some, if_pos hU]
  obtain ⟨hinv₃, -, -⟩ := h.mapChild hmap
  rw [hold] at hinv₃
  obtain ⟨a', hfree, hinv', hdrop⟩ := (hinv₃.freePages (w := fun _ => 0) hmq
    (by simp [clonedHeld, hpage]) (by simp [clonedHeld, hpage, hprot])
    (fun q' hq' => by simp [clonedHeld, hpage, hprot, Ne.symm hq'])).exists_ok
  simp only [Phys.withAlloc, hfree]
  refine ⟨hqp, h.finish (fun hc => (dataPage_not_low hc.1).2 hs) hmap
    rfl rfl hinv' fun {q'} hsolid hm' => ?_⟩
  have hne : q' ≠ q := fun heq => hsolid.shown h.vpn_lt hold hU hW hmq heq.symm
  rcases hdrop.2 with hless | ⟨-, -, hsame⟩
  · exact (hless q' hm').trans (if_neg hne)
  · rw [hsame]
    rfl

/-- A page of the writable sections that both processes map to itself. -/
theorem data (h : Turn L roots vmas kr p c rp rc parentSatp childSatp vpn leaf j s s₂)
    (hd : dataPage L vpn) (hold : Mm.walk s.mem rc vpn = some ⟨vpn, 22⟩) (hm : ¬ L.Managed leaf.ppn)
    (hmap : vmMapUserPage L childSatp (vpn * 4096) (leaf.ppn * 4096) (cowProt (vmas p j).prot) s₂ =
      (true, s₃)) :
    MmInv L roots (fun _ => 0) vmas kr s₃ ∧
      PageCloned L roots p c rp rc vpn (cowProt (vmas p j).prot) true s s₃ := by
  have hun : ¬ L.Managed vpn := fun hc => (managed_rest hc).2.2 hd
  obtain ⟨hinv₃, -, -⟩ := h.mapChild hmap
  rw [hold] at hinv₃
  refine h.finish (fun hc => hm hc.2) hmap rfl rfl (hinv₃.congr_held fun q hq => ?_) fun _ _ => rfl
  have hqv : vpn ≠ q := fun hc => hun (hc ▸ hq)
  have hql : q ≠ leaf.ppn := fun hc => hm (hc ▸ hq)
  simp [clonedHeld, userPage, hqv, hql]

end Turn

/-- One turn of the loop of `proc_vm_clone`, where the child's entry is still
fresh.  The kernel stops exactly at a private copy of a writable section. -/
theorem clonePage_spec (h : MmInv L roots (fun _ => 0) vmas kr s)
    (hf : Forking roots p c rp rc parentSatp childSatp) (hvmas : vmas c = vmas p)
    (hvpn : vpn < 1048576) {j : Fin procVmaMax} (hcov : (vmas p j).Covers vpn)
    (hwrite : (vmas p j).prot &&& vmaProtW ≠ 0) (hfresh : FreshLeaf L vpn (walk s.mem rc vpn)) :
    Outcome (clonePage L parentSatp childSatp (cowProt (vmas p j).prot) (vpn * 4096) s)
      (fun out => MmInv L roots (fun _ => 0) vmas kr out.2 ∧
        PageCloned L roots p c rp rc vpn (cowProt (vmas p j).prot) out.1 s out.2)
      (fun e => e = .freeOutOfManagedRange ∧ dataPage L vpn ∧
        ∃ leaf, walk s.mem rp vpn = some leaf ∧ L.Managed leaf.ppn) := by
  cases hwalk : walk s.mem rp vpn with
  | none =>
      rw [clonePage_unmapped hf hvpn hwalk]
      exact ⟨h, PageCloned.refl hwalk⟩
  | some leaf =>
      have hlt := ((h.vma hf.parent).region hcov).prot_lt.2
      have hppn : leaf.ppn < 1048576 := by
        rcases (h.leaf_perm hf.parent hvpn hwalk hcov).2 with hm | heq
        · exact hm.lt
        · omega
      obtain ⟨s₁, s₂, hmap, hinc, hlow⟩ := lower_spec h.vm hf.parent hf.parentRoot hvpn hwalk
        (h.leaf_user hf.parent hvpn hwalk hcov) hppn (cowProt_lt hlt) (cowProt_write _ hlt)
      have hturn : Turn L roots vmas kr p c rp rc parentSatp childSatp vpn leaf j s s₂ :=
        ⟨h, hf, hvmas, hvpn, hcov, hwrite, hwalk, hlow⟩
      rw [clonePage_mapped hf hvpn hwalk hmap hinc]
      cases hmap' : vmMapUserPage L childSatp (vpn * 4096) (leaf.ppn * 4096)
          (cowProt (vmas p j).prot) s₂ with
      | mk done s₃ =>
          cases done with
          | false =>
              obtain ⟨rfl, hnone, -⟩ :=
                vmMapUserPage_false hlow.inv hf.childRoot hvpn (cowProt_lt hlt) hmap'
              -- Only a page of the window can be without a table in the child.
              have hw : windowPage vpn := by
                rcases hfresh with ⟨hw, -⟩ | ⟨-, q, -, hold⟩ | ⟨-, hold⟩
                · exact hw
                · exact absurd hnone
                    (hlow.child_table hf h.vm hvpn hold (show 22 &&& pteU ≠ 0 by decide))
                · exact absurd hnone
                    (hlow.child_table hf h.vm hvpn hold (show 22 &&& pteU ≠ 0 by decide))
              obtain ⟨s', hdec, hdone⟩ := (hturn.exhausted hw).exists_ok
              simp only [hdec]
              exact hdone
          | true =>
              rcases hfresh with ⟨hw, hold⟩ | ⟨hs, q, hmq, hold⟩ | ⟨hd, hold⟩
              · rw [hold]
                exact hturn.window hw hold hmap'
              · obtain ⟨hqp, hfree⟩ := hturn.stack hs hmq hold hmap'
                obtain ⟨s', hrun, hdone⟩ := hfree.exists_ok
                have hneq : q * 4096 ≠ leaf.ppn * 4096 := by omega
                rw [hold]
                simp only [if_pos hneq, hrun]
                exact hdone
              · have hun : ¬ L.Managed vpn := fun hm => (managed_rest hm).2.2 hd
                rw [hold]
                by_cases hm : L.Managed leaf.ppn
                · have hneq : vpn * 4096 ≠ leaf.ppn * 4096 := by
                    intro heq
                    have : vpn = leaf.ppn := by omega
                    exact hun (this ▸ hm)
                  obtain ⟨hinv₃, -, -⟩ := hturn.mapChild hmap'
                  simp only [if_pos hneq, Phys.withAlloc, freePages_unmanaged hinv₃.alloc hun]
                  exact ⟨rfl, hd, leaf, rfl, hm⟩
                · have hsame : ¬ (vpn * 4096 ≠ leaf.ppn * 4096) := by
                    rw [hturn.kind.resolve_left hm]
                    simp
                  simp only [if_neg hsame]
                  exact hturn.data hd hold hm hmap'

end Child

/-! ## The loop -/

/-- The pages to share, with the protection each is shared under, belong to
writable VMAs and are visited once. -/
structure Shareable (v : Vmas) (items : List (Nat × Nat)) : Prop where
  vma : ∀ {cow vpn}, (cow, vpn) ∈ items → ∃ j, (v j).Covers vpn ∧ (v j).prot &&& vmaProtW ≠ 0 ∧
    cow = cowProt (v j).prot
  vpn_lt : ∀ {cow vpn}, (cow, vpn) ∈ items → vpn < 1048576
  nodup : (items.map (·.2)).Nodup

theorem Shareable.tail {v : Vmas} {item : Nat × Nat} {items : List (Nat × Nat)}
    (h : Shareable v (item :: items)) : Shareable v items :=
  ⟨fun hmem => h.vma (List.mem_cons_of_mem _ hmem), fun hmem => h.vpn_lt (List.mem_cons_of_mem _ hmem),
    (List.nodup_cons.mp h.nodup).2⟩

/-- What the loop of `proc_vm_clone` over `items` does; `done` says whether it
went through. -/
structure Cloned (L : Layout) (roots : Space → Option Nat) (p c : Fin procMax) (rp rc : Nat)
    (items : List (Nat × Nat)) (done : Bool) (s s' : Phys) : Prop where
  parent : ∀ {cow vpn}, (cow, vpn) ∈ items →
    Mm.walk s'.mem rp vpn = ((Mm.walk s.mem rp vpn).bind fun leaf => userLeaf leaf.ppn cow) ∨
      (done = false ∧ Mm.walk s'.mem rp vpn = Mm.walk s.mem rp vpn)
  child : done = true → ∀ {cow vpn}, (cow, vpn) ∈ items → Mm.walk s'.mem rc vpn =
    if (Mm.walk s.mem rp vpn).isSome = true then Mm.walk s'.mem rp vpn else Mm.walk s.mem rc vpn
  other : ∀ {space r vpn}, roots space = some r → vpn < 1048576 →
    ¬ (vpn ∈ items.map (·.2) ∧ (space = some p ∨ space = some c)) →
    Mm.walk s'.mem r vpn = Mm.walk s.mem r vpn
  solid : ∀ {q}, Solid L roots rc s q → s'.mem q = s.mem q ∧ Solid L roots rc s' q
  satp : s'.mmu.satp = s.mmu.satp
  tlb : ∀ {space}, roots space = some (rootPage s.mmu.satp) → space ≠ some c →
    space ≠ some p ∨ (∀ {cow vpn leaf}, (cow, vpn) ∈ items → Mm.walk s.mem rp vpn = some leaf →
      leaf.perm &&& pteW = 0) → TlbOk s → TlbOk s'

section Loop

variable {parentSatp childSatp : Nat} {s₁ : Phys} {v : Vmas} {items : List (Nat × Nat)} {done : Bool}

theorem Cloned.nil (s : Phys) : Cloned L roots p c rp rc [] true s s := by
  refine ⟨?_, ?_, fun _ _ _ => rfl, fun hq => ⟨rfl, hq⟩, rfl, fun _ _ _ htlb => htlb⟩
  · intro cow vpn hmem
    exact absurd hmem List.not_mem_nil
  · intro _ cow vpn hmem
    exact absurd hmem List.not_mem_nil

theorem Shareable.head_out {item : Nat × Nat} (h : Shareable v (item :: items)) {cow' vpn' : Nat}
    (hmem : (cow', vpn') ∈ items) : vpn' ≠ item.2 := by
  rintro rfl
  exact (List.nodup_cons.mp h.nodup).1 (List.mem_map_of_mem (f := (·.2)) hmem)

/-- A turn that fails ends the loop. -/
theorem PageCloned.stop (h : PageCloned L roots p c rp rc vpn cow false s s')
    (hf : Forking roots p c rp rc parentSatp childSatp) (hitems : Shareable v ((cow, vpn) :: items)) :
    Cloned L roots p c rp rc ((cow, vpn) :: items) false s s' := by
  refine ⟨?_, fun hc => absurd hc (by simp), ?_, h.solid, h.satp, ?_⟩
  · intro cow' vpn' hmem
    rcases List.mem_cons.mp hmem with heq | hmem
    · obtain ⟨rfl, rfl⟩ := Prod.mk.inj heq
      exact .inl h.parent
    · exact .inr ⟨rfl, h.other hf.parent (hitems.tail.vpn_lt hmem) fun hc =>
        hitems.head_out hmem hc.1⟩
  · intro space r vpn' hr hvpn' hnot
    exact h.other hr hvpn' fun hc => hnot ⟨by simp [hc.1], hc.2⟩
  · intro space hactive hnotc hold htlb
    exact h.tlb hactive hnotc (hold.imp_right fun hall leaf hwalk => hall (List.mem_cons_self ..) hwalk) htlb

/-- A turn that goes through, followed by the rest of the loop. -/
theorem PageCloned.cons (h : PageCloned L roots p c rp rc vpn cow true s s₁)
    (hf : Forking roots p c rp rc parentSatp childSatp) (hitems : Shareable v ((cow, vpn) :: items))
    (hrest : Cloned L roots p c rp rc items done s₁ s') :
    Cloned L roots p c rp rc ((cow, vpn) :: items) done s s' := by
  obtain ⟨hout, -⟩ := List.nodup_cons.mp hitems.nodup
  simp only at hout
  have hvpn := hitems.vpn_lt (List.mem_cons_self ..)
  have hlater : ∀ {space r cow' vpn'}, roots space = some r → (cow', vpn') ∈ items →
      Mm.walk s₁.mem r vpn' = Mm.walk s.mem r vpn' := by
    intro space r cow' vpn' hr hmem
    exact h.other hr (hitems.tail.vpn_lt hmem) fun hc => hitems.head_out hmem hc.1
  have hfirst : ∀ {space r}, roots space = some r →
      Mm.walk s'.mem r vpn = Mm.walk s₁.mem r vpn :=
    fun hr => hrest.other hr hvpn fun hc => hout hc.1
  refine ⟨?_, ?_, ?_, ?_, hrest.satp.trans h.satp, ?_⟩
  · intro cow' vpn' hmem
    rcases List.mem_cons.mp hmem with heq | hmem
    · obtain ⟨rfl, rfl⟩ := Prod.mk.inj heq
      left
      rw [hfirst hf.parent]
      exact h.parent
    · have := hrest.parent hmem
      rw [hlater hf.parent hmem] at this
      exact this
  · intro hdone cow' vpn' hmem
    rcases List.mem_cons.mp hmem with heq | hmem
    · obtain ⟨rfl, rfl⟩ := Prod.mk.inj heq
      rw [hfirst hf.child, hfirst hf.parent, h.child]
      simp
    · have := hrest.child hdone hmem
      rw [hlater hf.parent hmem, hlater hf.child hmem] at this
      exact this
  · intro space r vpn' hr hvpn' hnot
    simp only [List.map_cons, List.mem_cons] at hnot
    rw [hrest.other hr hvpn' fun hc => hnot ⟨.inr hc.1, hc.2⟩,
      h.other hr hvpn' fun hc => hnot ⟨.inl hc.1, hc.2⟩]
  · intro q hq
    obtain ⟨hmem, hq₁⟩ := h.solid hq
    obtain ⟨hmem', hq'⟩ := hrest.solid hq₁
    exact ⟨hmem'.trans hmem, hq'⟩
  · intro space hactive hnotc hold htlb
    refine hrest.tlb (by rw [h.satp]; exact hactive) hnotc (hold.imp_right ?_)
      (h.tlb hactive hnotc (hold.imp_right fun hall leaf hwalk => hall (List.mem_cons_self ..) hwalk) htlb)
    intro hall cow' vpn' leaf hmem hwalk
    rw [hlater hf.parent hmem] at hwalk
    exact hall (List.mem_cons_of_mem _ hmem) hwalk

theorem clonePages_spec (hf : Forking roots p c rp rc parentSatp childSatp)
    (hvmas : vmas c = vmas p) (items : List (Nat × Nat)) (h : MmInv L roots (fun _ => 0) vmas kr s)
    (hitems : Shareable (vmas p) items)
    (hfresh : ∀ {cow vpn}, (cow, vpn) ∈ items → FreshLeaf L vpn (walk s.mem rc vpn)) :
    Outcome (clonePages L parentSatp childSatp (items.map fun item => (item.1, item.2 * 4096)) s)
      (fun out => MmInv L roots (fun _ => 0) vmas kr out.2 ∧
        Cloned L roots p c rp rc items out.1 s out.2)
      (fun e => e = .freeOutOfManagedRange ∧ ∃ cow vpn leaf, (cow, vpn) ∈ items ∧ dataPage L vpn ∧
        walk s.mem rp vpn = some leaf ∧ L.Managed leaf.ppn) := by
  induction items generalizing s with
  | nil => exact ⟨h, Cloned.nil s⟩
  | cons item rest ih =>
      obtain ⟨cow, vpn⟩ := item
      obtain ⟨j, hcov, hwrite, rfl⟩ := hitems.vma (List.mem_cons_self ..)
      have hpage := clonePage_spec h hf hvmas (hitems.vpn_lt (List.mem_cons_self ..)) hcov hwrite
        (hfresh (List.mem_cons_self ..))
      rw [List.map_cons, clonePages]
      cases hcall : clonePage L parentSatp childSatp (cowProt (vmas p j).prot) (vpn * 4096) s with
      | error e =>
          rw [hcall] at hpage
          obtain ⟨he, hd, leaf, hwalk, hm⟩ := hpage
          exact ⟨he, _, vpn, leaf, List.mem_cons_self .., hd, hwalk, hm⟩
      | ok out =>
          rw [hcall] at hpage
          obtain ⟨done, s₁⟩ := out
          obtain ⟨h₁, hcloned⟩ := hpage
          cases done with
          | false => exact ⟨h₁, hcloned.stop hf hitems⟩
          | true =>
              have hlater : ∀ {space r cow' vpn'}, roots space = some r → (cow', vpn') ∈ rest →
                  walk s₁.mem r vpn' = walk s.mem r vpn' := by
                intro space r cow' vpn' hr hmem
                exact hcloned.other hr (hitems.tail.vpn_lt hmem) fun hc =>
                  hitems.head_out hmem hc.1
              refine (ih h₁ hitems.tail ?_).mono ?_ ?_
              · intro cow' vpn' hmem
                rw [hlater hf.child hmem]
                exact hfresh (List.mem_cons_of_mem _ hmem)
              · intro out ⟨h', hrest⟩
                exact ⟨h', hcloned.cons hf hitems hrest⟩
              · rintro e ⟨he, cow', vpn', leaf, hmem, hd, hwalk, hm⟩
                rw [hlater hf.parent hmem] at hwalk
                exact ⟨he, cow', vpn', leaf, List.mem_cons_of_mem _ hmem, hd, hwalk, hm⟩

end Loop

end Sugimotos.Proc
