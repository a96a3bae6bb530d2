/-
# The flat map behind the page tables

`vm_query_user_page` presents a two-level table as a map from addresses.  The
operations change that map at one page of one address space, whatever they are
asked to map there and whether or not a 4 MiB leaf had to be split.  Nothing is
assumed of the new page: it may even be a page table, since the tables are
written before anybody uses the translation.
-/

import Sugimotos.Mm.VmOps

namespace Sugimotos.Mm

open Sugimotos.Math

variable {L : Layout} {roots : Space → Option Nat} {held : Nat → Nat} {space : Space}
  {s s' : Phys} {r va pa flags : Nat}

/-! ## Mapping -/

/-- The first half of `vm_map_page` changes no translation. -/
theorem vmTableFor_walk {k l0 : Nat} (h : VmInv L roots held s.alloc s.mem)
    (hr : roots space = some r) (hk : k < 1024)
    (hcall : vmTableFor L (r * 4096) k s = (some l0, s')) :
    ∃ t, l0 = t * 4096 ∧ tableAt s'.mem r k = some t ∧ Apart roots s'.mem ∧
      ∀ {space' r' vpn}, roots space' = some r' → vpn < 1048576 →
        walk s'.mem r' vpn = walk s.mem r' vpn := by
  cases ht : tableAt s.mem r k with
  | some t =>
      rw [vmTableFor_linked ht] at hcall
      cases hcall
      exact ⟨t, rfl, ht, h.apart, fun _ _ => rfl⟩
  | none =>
      rw [vmTableFor_unlinked ht] at hcall
      cases halloc : allocPagesTry L 1 s with
      | mk result s₁ =>
          rw [halloc] at hcall
          cases result with
          | none => cases hcall
          | some l =>
              obtain ⟨t, rfl, hal⟩ := allocPagesTry_some h.alloc (by decide) halloc
              cases hcall
              obtain ⟨hlink, hmem⟩ := h.freshLinking hr hk ht hal
              obtain ⟨hsame, hinv₁⟩ := h.allocate hal
              rw [hmem]
              refine ⟨t, rfl, ?_, hinv₁.apart.linkTable hlink, fun hr' hvpn => ?_⟩
              · rw [tableAt_linkTable hinv₁.apart hlink _ hr, if_pos ⟨rfl, rfl⟩]
              · rw [walk_linkTable hinv₁.apart hlink hr' hvpn]
                exact hsame.walk hr' hvpn

/-- Writing an entry of a table that is linked in one place. -/
theorem walk_write32 {t vpn word : Nat} (h : Apart roots s.mem) (hr : roots space = some r)
    (hvpn : vpn < 1048576) (ht : tableAt s.mem r (vpn / 1024) = some t) (hword : word < 4294967296)
    {space' : Space} {r' vpn' : Nat} (hr' : roots space' = some r') (hvpn' : vpn' < 1048576) :
    walk (s.write32 (t * 4096) (vpn % 1024) word).mem r' vpn' =
      if space' = space ∧ vpn' = vpn then decodeLeaf word else walk s.mem r' vpn' := by
  have hmem : (s.write32 (t * 4096) (vpn % 1024) word).mem = setEntry s.mem t (vpn % 1024) word := by
    simp only [Phys.write32, Phys.setPage, Nat.mul_div_cancel _ (show 0 < 4096 by decide)]
    rfl
  rw [hmem]
  exact walk_setEntry h hr hvpn ht hword hr' hvpn'

/-- A successful `vm_map_page` sets one translation, also in the kernel's own
space and for any physical page. -/
theorem vmMapPage_walk (h : VmInv L roots held s.alloc s.mem) (hr : roots space = some r)
    (hva : va < 4294967296) (hpa : pa < 4294967296) (hflags : flags < 16)
    (hcall : vmMapPage L (r * 4096) va pa flags s = (true, s')) {space' : Space} {r' vpn' : Nat}
    (hr' : roots space' = some r') (hvpn' : vpn' < 1048576) :
    walk s'.mem r' vpn' =
      if space' = space ∧ vpn' = va / 4096 then entryLeaf (pa / 4096) (2 * flags)
      else walk s.mem r' vpn' := by
  unfold vmMapPage at hcall
  rw [vpn1_eq hva, vpn0_eq] at hcall
  dsimp only at hcall
  cases htable : vmTableFor L (r * 4096) (va / 4096 / 1024) s.tick with
  | mk result s₁ =>
      rw [htable] at hcall
      cases result with
      | none => cases hcall
      | some l0 =>
          cases hcall
          obtain ⟨t, rfl, ht, hapart, hwalk⟩ := vmTableFor_walk (s := s.tick) h hr (by omega) htable
          rw [walk_write32 hapart hr (by omega) ht (pteFromPa_flags_lt hpa hflags) hr' hvpn',
            decodeLeaf_flags hpa hflags, hwalk hr' hvpn']
          rfl

/-! ## User pages -/

/-- Only the low three bits of a protection matter. -/
theorem land_prot (prot : Nat) {m : Nat} (hm : m < 8) : prot &&& m = prot % 8 &&& m := by
  have hmod := Nat.and_two_pow_sub_one_eq_mod prot 3
  rw [show 2 ^ 3 - 1 = 7 by norm_num, show 2 ^ 3 = 8 by norm_num] at hmod
  rw [← hmod, Nat.and_assoc]
  congr 1
  interval_cases m <;> rfl

/-- The flags a VMA protection becomes: its own bits and user access. -/
theorem userFlags_mod (prot : Nat) : userFlags prot = prot % 8 + 8 := by
  have hlow : userFlags prot = userFlags (prot % 8) := by
    unfold userFlags
    rw [land_prot prot (show vmaProtR < 8 by decide), land_prot prot (show vmaProtW < 8 by decide),
      land_prot prot (show vmaProtX < 8 by decide)]
  rw [hlow, userFlags_eq (Nat.mod_lt _ (by decide))]

/-- The permissions a page mapped under a protection shows: user access and the
requested bits. -/
def userPerm (prot : Nat) : Nat := pteU ||| 2 * (prot % 8)

theorem entryLeaf_userFlags {p prot : Nat} (hprot : prot % 8 ≠ 0) :
    entryLeaf p (2 * userFlags prot) = some ⟨p, userPerm prot⟩ := by
  have hlt : prot % 8 < 8 := Nat.mod_lt _ (by decide)
  rw [userFlags_mod]
  unfold entryLeaf userPerm
  generalize prot % 8 = bits at hprot hlt ⊢
  interval_cases bits <;> first | rfl | exact absurd rfl hprot

/-- `vm_map_user_page`: the page is mapped as asked, or nothing changed. -/
theorem vmMapUserPage_walk {satp prot : Nat} {done : Bool} (h : VmInv L roots held s.alloc s.mem)
    (hr : roots space = some (rootPage satp)) (hva : va < 4294967296) (hpa : pa < 4294967296)
    (hprot : prot % 8 ≠ 0) (hcall : vmMapUserPage L satp va pa prot s = (done, s'))
    {space' : Space} {r' vpn' : Nat} (hr' : roots space' = some r') (hvpn' : vpn' < 1048576) :
    walk s'.mem r' vpn' =
      if done = true ∧ space' = space ∧ vpn' = va / 4096 then some ⟨pa / 4096, userPerm prot⟩
      else walk s.mem r' vpn' := by
  unfold vmMapUserPage at hcall
  split at hcall
  · cases hcall
    rw [if_neg (by simp)]
  · rw [rootPage_eq] at hcall
    cases done with
    | false =>
        obtain ⟨rfl, -, -⟩ := vmMapPage_false h hva hcall
        rw [if_neg (by simp)]
        rfl
    | true =>
        rw [vmMapPage_walk h hr hva hpa (by rw [userFlags_mod]; omega) hcall hr' hvpn',
          entryLeaf_userFlags hprot]
        simp only [true_and]

/-- `vm_unmap_user_page` takes away at most the translation of its page. -/
theorem vmUnmapUserPage_walk {satp : Nat} {done : Bool} (h : VmInv L roots held s.alloc s.mem)
    (hr : roots space = some (rootPage satp)) (hva : va < 4294967296)
    (hcall : vmUnmapUserPage satp va s = (done, s')) {space' : Space} {r' vpn' : Nat}
    (hr' : roots space' = some r') (hvpn' : vpn' < 1048576) :
    walk s'.mem r' vpn' =
      if done = true ∧ space' = space ∧ vpn' = va / 4096 then none else walk s.mem r' vpn' := by
  unfold vmUnmapUserPage at hcall
  split at hcall
  · cases hcall
    rw [if_neg (by simp)]
  · have hread : s.read32 (rootPage satp * 4096) (va / 4096 / 1024) =
        loadWord (s.mem (rootPage satp)) (va / 4096 / 1024) := by
      unfold Phys.read32
      rw [Nat.mul_div_cancel _ (by decide)]
    rw [rootPage_eq, vpn1_eq hva, vpn0_eq] at hcall
    dsimp only at hcall
    rw [hread] at hcall
    split at hcall
    · -- nothing is mapped in the 4 MiB around the page
      rename_i hinvalid
      cases hcall
      split
      · rename_i hsame
        obtain ⟨-, rfl, rfl⟩ := hsame
        rw [hr] at hr'
        cases hr'
        unfold walk
        dsimp only
        rw [if_pos hinvalid]
      · rfl
    · rename_i hvalid
      split at hcall
      · cases hcall
        rw [if_neg (by simp)]
      · rename_i hrwx
        cases hcall
        have ht : tableAt s.mem (rootPage satp) (va / 4096 / 1024) =
            some (ptePage (loadWord (s.mem (rootPage satp)) (va / 4096 / 1024))) := by
          unfold tableAt
          rw [if_pos ⟨hvalid, not_not.mp hrwx⟩]
        rw [u32_pte_addr]
        have hwrite := walk_write32 (s := s.tick) h.apart hr (by omega) ht
          (show 0 < 4294967296 by decide) hr' hvpn'
        rw [decodeLeaf_zero] at hwrite
        simp only [true_and]
        exact hwrite

end Sugimotos.Mm
