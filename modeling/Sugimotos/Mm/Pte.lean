/-
# Words, entries and walks

Arithmetic of the encodings: storing and loading words of a page, what the bits
of an entry built by `pte_from_pa` read back as, and how the address arithmetic
of `vm.c` (shifts and masks) relates to page numbers.
-/

import Sugimotos.Mm.Vm
import Mathlib.Tactic.IntervalCases

namespace Sugimotos.Mm

/-! ## Words of a page -/

theorem ofNat_toNat (n : Nat) : (UInt8.ofNat n).toNat = n % 256 := by
  simp

theorem loadWord_wordPage (word : Nat → Nat) (i : Nat) :
    loadWord (wordPage word) i = word i % 4294967296 := by
  have h0 : 4 * i / 4 = i := by omega
  have h1 : (4 * i + 1) / 4 = i := by omega
  have h2 : (4 * i + 2) / 4 = i := by omega
  have h3 : (4 * i + 3) / 4 = i := by omega
  have m0 : 4 * i % 4 = 0 := by omega
  have m1 : (4 * i + 1) % 4 = 1 := by omega
  have m2 : (4 * i + 2) % 4 = 2 := by omega
  have m3 : (4 * i + 3) % 4 = 3 := by omega
  simp only [loadWord, wordPage, h0, h1, h2, h3, m0, m1, m2, m3, ofNat_toNat]
  norm_num
  omega

theorem loadWord_storeWord_self (page : PageBytes) (i word : Nat) :
    loadWord (storeWord page i word) i = word % 4294967296 := by
  rw [← loadWord_wordPage (fun _ => word) i]
  have h0 : 4 * i / 4 = i := by omega
  have h1 : (4 * i + 1) / 4 = i := by omega
  have h2 : (4 * i + 2) / 4 = i := by omega
  have h3 : (4 * i + 3) / 4 = i := by omega
  simp only [loadWord, storeWord, wordPage, h0, h1, h2, h3, if_true]

theorem loadWord_storeWord_of_ne (page : PageBytes) {i j : Nat} (word : Nat) (h : j ≠ i) :
    loadWord (storeWord page i word) j = loadWord page j := by
  have h0 : 4 * j / 4 ≠ i := by omega
  have h1 : (4 * j + 1) / 4 ≠ i := by omega
  have h2 : (4 * j + 2) / 4 ≠ i := by omega
  have h3 : (4 * j + 3) / 4 ≠ i := by omega
  simp only [loadWord, storeWord, if_neg h0, if_neg h1, if_neg h2, if_neg h3]

@[simp]
theorem loadWord_zeroPage (i : Nat) : loadWord zeroPage i = 0 := by
  simp [loadWord, zeroPage]

/-! ## Bits of an entry -/

/-- A mask below bit 10 only sees the low ten bits. -/
theorem land_low (x : Nat) {mask : Nat} (h : mask < 1024) : x &&& mask = x % 1024 &&& mask := by
  have hmask : mask = 1023 &&& mask := by
    have := Nat.and_two_pow_sub_one_of_lt_two_pow (n := 10) (x := mask) (by omega)
    rw [Nat.and_comm]
    exact this.symm
  calc x &&& mask = x &&& (1023 &&& mask) := by rw [← hmask]
    _ = (x &&& 1023) &&& mask := (Nat.and_assoc _ _ _).symm
    _ = x % 1024 &&& mask := by
        rw [show (1023 : Nat) = 2 ^ 10 - 1 by norm_num, Nat.and_two_pow_sub_one_eq_mod]

/-- `pte_from_pa` puts the page number above ten flag bits. -/
theorem pteFromPa_eq (pa : Nat) {perm : Nat} (h : perm < 1024) :
    pteFromPa pa perm = pa / 4096 * 1024 + (perm ||| 193) := by
  have hflags : perm ||| 193 < 2 ^ 10 := Nat.or_lt_two_pow (by omega) (by norm_num)
  unfold pteFromPa
  rw [Nat.or_assoc, Nat.or_assoc, Nat.or_assoc, show pteV ||| (pteA ||| pteD) = 193 by decide,
    ← Nat.shiftLeft_add_eq_or_of_lt hflags, Nat.shiftLeft_eq, Nat.shiftRight_eq_div_pow]

theorem pteFromPa_lt {pa perm : Nat} (hpa : pa < 4294967296) (h : perm < 1024) :
    pteFromPa pa perm < 4294967296 := by
  have hflags : perm ||| 193 < 2 ^ 10 := Nat.or_lt_two_pow (by omega) (by norm_num)
  rw [pteFromPa_eq pa h]
  omega

theorem pteFromPa_page {pa perm : Nat} (hpa : pa < 4294967296) (h : perm < 1024) :
    ptePage (pteFromPa pa perm) = pa / 4096 := by
  have hflags : perm ||| 193 < 2 ^ 10 := Nat.or_lt_two_pow (by omega) (by norm_num)
  rw [pteFromPa_eq pa h, ptePage, Nat.shiftRight_eq_div_pow]
  omega

theorem pteFromPa_land (pa : Nat) {perm mask : Nat} (h : perm < 1024) (hmask : mask < 1024) :
    pteFromPa pa perm &&& mask = (perm ||| 193) &&& mask := by
  have hflags : perm ||| 193 < 2 ^ 10 := Nat.or_lt_two_pow (by omega) (by norm_num)
  rw [land_low _ hmask, pteFromPa_eq pa h]
  congr 1
  omega

theorem pteFromPa_valid (pa : Nat) {perm : Nat} (h : perm < 1024) :
    pteFromPa pa perm &&& pteV = 1 := by
  rw [pteFromPa_land pa h (by decide), Nat.and_or_distrib_right, show 193 &&& pteV = 1 by decide]
  have hbit : perm &&& pteV ≤ 1 := Nat.and_le_right
  interval_cases hp : perm &&& pteV <;> decide

/-- The permission bits of an entry are those it was built with. -/
theorem pteFromPa_land_rwxu (pa : Nat) {perm mask : Nat} (h : perm < 1024)
    (hmask : mask = pteRwx ∨ mask = pteRwxu ∨ mask = pteR ∨ mask = pteW ∨ mask = pteX ∨
      mask = pteU) : pteFromPa pa perm &&& mask = perm &&& mask := by
  have hzero : 193 &&& mask = 0 := by
    rcases hmask with rfl | rfl | rfl | rfl | rfl | rfl <;> decide
  have hlt : mask < 1024 := by
    rcases hmask with rfl | rfl | rfl | rfl | rfl | rfl <;> decide
  rw [pteFromPa_land pa h hlt, Nat.and_or_distrib_right, hzero, Nat.or_zero]

theorem decodeLeaf_zero : decodeLeaf 0 = none := by decide

/-- What an entry built by `pte_from_pa` stands for. -/
theorem decodeLeaf_pteFromPa {pa perm : Nat} (hpa : pa < 4294967296) (h : perm < 1024) :
    decodeLeaf (pteFromPa pa perm) =
      if perm &&& pteRwx = 0 then none else some ⟨pa / 4096, perm &&& pteRwxu⟩ := by
  unfold decodeLeaf
  rw [pteFromPa_valid pa h, pteFromPa_land_rwxu pa h (.inl rfl),
    pteFromPa_land_rwxu pa h (.inr (.inl rfl)), pteFromPa_page hpa h]
  simp

/-- The four flag bits of `vm.c` become the four permission bits of the entry. -/
theorem ptePermFromFlags_eq {flags : Nat} (h : flags < 16) : ptePermFromFlags flags = 2 * flags := by
  interval_cases flags <;> decide

theorem userFlags_eq {prot : Nat} (h : prot < 8) : userFlags prot = prot + 8 := by
  interval_cases prot <;> decide

/-! ## Links to second-level tables -/

/-- The entry that links a second-level table. -/
def linkPte (page : Nat) : Nat := page * 1024 + 1

theorem linkPte_eq {pa : Nat} : ((pa >>> 12) <<< 10) ||| pteV = linkPte (pa / 4096) := by
  rw [← Nat.shiftLeft_add_eq_or_of_lt (by decide), Nat.shiftLeft_eq, Nat.shiftRight_eq_div_pow]
  rfl

theorem linkPte_lt {page : Nat} (h : page < 1048576) : linkPte page < 4294967296 := by
  unfold linkPte
  omega

theorem linkPte_valid (page : Nat) : linkPte page &&& pteV = 1 := by
  rw [land_low _ (by decide), show linkPte page % 1024 = 1 by unfold linkPte; omega]
  decide

theorem linkPte_rwx (page : Nat) : linkPte page &&& pteRwx = 0 := by
  rw [land_low _ (by decide), show linkPte page % 1024 = 1 by unfold linkPte; omega]
  decide

theorem linkPte_page {page : Nat} (h : page < 1048576) : ptePage (linkPte page) = page := by
  unfold ptePage linkPte
  rw [Nat.shiftRight_eq_div_pow]
  omega

/-! ## Addresses -/

theorem ptePage_lt (pte : Nat) : ptePage pte < 1048576 := Nat.mod_lt _ (by decide)

theorem u32_pte_addr (pte : Nat) : u32 ((pte >>> 10) <<< 12) = ptePage pte * 4096 := by
  unfold u32 ptePage
  rw [Nat.shiftLeft_eq]
  omega

theorem vpn1_eq {va : Nat} (h : va < 4294967296) : (va >>> 22) &&& 0x3ff = va / 4096 / 1024 := by
  rw [Nat.shiftRight_eq_div_pow, show (0x3ff : Nat) = 2 ^ 10 - 1 by norm_num,
    Nat.and_two_pow_sub_one_eq_mod]
  omega

theorem vpn0_eq (va : Nat) : (va >>> 12) &&& 0x3ff = va / 4096 % 1024 := by
  rw [Nat.shiftRight_eq_div_pow, show (0x3ff : Nat) = 2 ^ 10 - 1 by norm_num,
    Nat.and_two_pow_sub_one_eq_mod]

theorem rootPage_eq (satp : Nat) : vmRootFromSatp satp = rootPage satp * 4096 := by
  unfold rootPage vmRootFromSatp u32
  rw [Nat.shiftLeft_eq]
  omega

/-- `satp` values name the root page they were made from. -/
theorem rootPage_vmMakeSatp {page : Nat} (h : page < 1048576) :
    rootPage (vmMakeSatp (page * 4096)) = page := by
  have hppn : vmMakeSatp (page * 4096) &&& satpPpnMask = page := by
    unfold vmMakeSatp
    rw [Nat.shiftRight_eq_div_pow, show page * 4096 / 2 ^ 12 = page by omega,
      Nat.and_or_distrib_right, show satpModeSv32 &&& satpPpnMask = 0 by decide, Nat.zero_or,
      show satpPpnMask = 2 ^ 22 - 1 by norm_num, Nat.and_two_pow_sub_one_eq_mod]
    omega
  unfold rootPage vmRootFromSatp u32
  rw [hppn, Nat.shiftLeft_eq]
  omega

theorem vmMakeSatp_ne_zero (pa : Nat) : vmMakeSatp pa ≠ 0 := by
  have : satpModeSv32 ≤ vmMakeSatp pa := Nat.left_le_or
  intro h
  rw [h] at this
  exact absurd this (by decide)

/-- The page offset of an address survives the disjunction with a page base. -/
theorem page_or_offset (p off : Nat) (h : off < 4096) : p * 4096 ||| off = p * 4096 + off := by
  have := Nat.two_pow_add_eq_or_of_lt (i := 12) (b := off) (by omega) p
  rw [Nat.mul_comm p 4096]
  exact this.symm

/-- What a query makes of the translation of an address. -/
def leafQuery (va : Nat) (leaf : Leaf) : Nat × Nat := (leaf.ppn * 4096 + va % 4096, leaf.perm)

/-- `vm_query_user_page` is the page walk. -/
theorem vmQueryUserPage_walk (satp va : Nat) (hva : va < 4294967296) (s : Phys) :
    vmQueryUserPage satp va s =
      (walk s.mem (rootPage satp) (va / 4096)).map (leafQuery va) := by
  have hroot : vmRootFromSatp satp / 4096 = rootPage satp := rfl
  have hoff : va &&& 0xfff = va % 4096 := by
    rw [show (0xfff : Nat) = 2 ^ 12 - 1 by norm_num, Nat.and_two_pow_sub_one_eq_mod]
  have hsuper : va &&& 0x3fffff = va / 4096 % 1024 * 4096 + va % 4096 := by
    rw [show (0x3fffff : Nat) = 2 ^ 22 - 1 by norm_num, Nat.and_two_pow_sub_one_eq_mod]
    omega
  have hadd : ∀ x : Nat, x * 4096 ||| va % 4096 = x * 4096 + va % 4096 :=
    fun x => page_or_offset x _ (Nat.mod_lt _ (by decide))
  have hmul : ∀ x y : Nat, x * 4096 ||| (y * 4096 + va % 4096) =
      (x ||| y) * 4096 + va % 4096 := by
    intro x y
    have hshift := Nat.shiftLeft_or_distrib (a := x) (b := y) (i := 12)
    simp only [Nat.shiftLeft_eq] at hshift
    rw [← hadd y, ← Nat.or_assoc, ← hadd (x ||| y)]
    exact congrArg (· ||| va % 4096) hshift.symm
  unfold vmQueryUserPage walk
  simp only [Phys.read32, vpn1_eq hva, vpn0_eq, hroot, u32_pte_addr, hoff,
    Nat.mul_div_cancel _ (show 0 < 4096 by decide), hsuper, hmul, hadd]
  split
  · rfl
  · split
    · rfl
    · simp only [decodeLeaf]
      split <;> rfl

/-- A query at the start of a page. -/
theorem vmQueryUserPage_eq (satp va : Nat) (hva : va < 4294967296) (halign : va % 4096 = 0)
    (s : Phys) :
    vmQueryUserPage satp va s =
      (walk s.mem (rootPage satp) (va / 4096)).map fun leaf => (leaf.ppn * 4096, leaf.perm) := by
  have hstart : leafQuery va = fun leaf => (leaf.ppn * 4096, leaf.perm) := by
    funext leaf
    unfold leafQuery
    rw [halign, Nat.add_zero]
  rw [vmQueryUserPage_walk satp va hva, hstart]

end Sugimotos.Mm
