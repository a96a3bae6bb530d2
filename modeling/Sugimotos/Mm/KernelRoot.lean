/-
# The kernel's own address space

`vm_init` runs on the allocator's static initialisers.  It allocates one page and
fills it with 4 MiB leaves for the devices and for RAM.
-/

import Sugimotos.Mm.UserSatp

namespace Sugimotos.Mm

open Sugimotos.Math

variable {L : Layout}

/-- The translations of the kernel root: the interrupt controllers, the devices
and RAM, each page mapped to itself. -/
def kernelLeaf (vpn : Nat) : Option Leaf :=
  if inBlock 512 16 (vpn / 1024) then some ⟨vpn, 14⟩
  else if inBlock 64 8 (vpn / 1024) ∨ inBlock 48 1 (vpn / 1024) ∨ inBlock 8 1 (vpn / 1024) then
    some ⟨vpn, 6⟩
  else none

/-- The 4 MiB leaves written for the root entries `k₀` to `k₀ + n - 1`. -/
structure Mapped4m (r k₀ n flags : Nat) (s s' : Phys) : Prop where
  alloc : s'.alloc = s.alloc
  mmu : s'.mmu = s.mmu
  page : ∀ p, p ≠ r → s'.mem p = s.mem p
  word : ∀ k, loadWord (s'.mem r) k =
    if inBlock k₀ n k then pteFromPa (k * 0x400000) (ptePermFromFlags flags) % 4294967296
    else loadWord (s.mem r) k

theorem write32_leaf {r k flags : Nat} (s : Phys) :
    Mapped4m r k 1 flags s
      (s.write32 (r * 4096) k (pteFromPa (k * 0x400000) (ptePermFromFlags flags))) := by
  have hmem : (s.write32 (r * 4096) k (pteFromPa (k * 0x400000) (ptePermFromFlags flags))).mem =
      Function.update s.mem r
        (storeWord (s.mem r) k (pteFromPa (k * 0x400000) (ptePermFromFlags flags))) := by
    simp only [Phys.write32, Phys.setPage, Nat.mul_div_cancel _ (show 0 < 4096 by decide)]
  refine ⟨rfl, rfl, fun p hp => ?_, fun j => ?_⟩
  · rw [hmem, Function.update_of_ne hp]
  · rw [hmem, Function.update_self]
    by_cases hj : j = k
    · have hin : inBlock k 1 j := by
        unfold inBlock
        omega
      rw [if_pos hin, hj, loadWord_storeWord_self]
    · have hout : ¬ inBlock k 1 j := by
        unfold inBlock
        omega
      rw [if_neg hout, loadWord_storeWord_of_ne _ _ hj]

theorem Mapped4m.snoc {r k₀ n flags : Nat} {s s₁ s' : Phys} (h : Mapped4m r k₀ n flags s s₁)
    (h' : Mapped4m r (k₀ + n) 1 flags s₁ s') : Mapped4m r k₀ (n + 1) flags s s' := by
  refine ⟨h'.alloc.trans h.alloc, h'.mmu.trans h.mmu, fun p hp => ?_, fun k => ?_⟩
  · rw [h'.page p hp, h.page p hp]
  · rw [h'.word k, h.word k]
    by_cases hlast : inBlock (k₀ + n) 1 k
    · have hin : inBlock k₀ (n + 1) k := by
        unfold inBlock at *
        omega
      rw [if_pos hlast, if_pos hin]
    · rw [if_neg hlast]
      by_cases hin : inBlock k₀ n k
      · have hin' : inBlock k₀ (n + 1) k := by
          unfold inBlock at *
          omega
        rw [if_pos hin, if_pos hin']
      · have hin' : ¬ inBlock k₀ (n + 1) k := by
          unfold inBlock at *
          omega
        rw [if_neg hin, if_neg hin']

/-- The loop of `vm_map_range_4m` over aligned addresses that map to themselves. -/
theorem vmMapRange4m_spec {r k₀ n flags : Nat} (hfits : k₀ + n ≤ 1024) (s : Phys) :
    Mapped4m r k₀ n flags s
      (vmMapRange4m (r * 4096) (k₀ * 0x400000) (k₀ * 0x400000) (n * 0x400000) flags s) := by
  have hcount : (n * 0x400000 + 0x3fffff) / 0x400000 = n := by omega
  unfold vmMapRange4m
  rw [hcount]
  clear hcount
  induction n with
  | zero =>
      refine ⟨rfl, rfl, fun _ _ => rfl, fun k => ?_⟩
      have hout : ¬ inBlock k₀ 0 k := by
        unfold inBlock
        omega
      rw [if_neg hout, List.range_zero, List.foldl_nil]
  | succ n ih =>
      have hva : u32 (k₀ * 0x400000 + n * 0x400000) = (k₀ + n) * 0x400000 := by
        rw [← Nat.add_mul]
        exact u32_of_lt (by omega)
      have hk : ((k₀ + n) * 0x400000) >>> 22 &&& 0x3ff = k₀ + n := by
        rw [vpn1_eq (by omega)]
        omega
      rw [List.range_succ, List.foldl_append, List.foldl_cons, List.foldl_nil, hva, hk]
      exact (ih (by omega)).snoc (write32_leaf _)

/-- The root words `vm_init` leaves. -/
def kernelWord (k : Nat) : Nat :=
  if inBlock 512 16 k then pteFromPa (k * 0x400000) 14
  else if inBlock 64 8 k ∨ inBlock 48 1 k ∨ inBlock 8 1 k then pteFromPa (k * 0x400000) 6
  else 0

/-- A kernel leaf: valid, no user access, aligned to 4 MiB. -/
theorem kernelPte {k perm : Nat} (hk : k < 1024) (hperm : perm = 14 ∨ perm = 6) :
    pteFromPa (k * 0x400000) perm &&& pteV ≠ 0 ∧
      pteFromPa (k * 0x400000) perm &&& pteRwx ≠ 0 ∧
      pteFromPa (k * 0x400000) perm &&& pteU = 0 ∧
      pteFromPa (k * 0x400000) perm &&& pteRwxu = perm ∧
      ptePage (pteFromPa (k * 0x400000) perm) = k * 1024 := by
  have hlt : perm < 1024 := by
    rcases hperm with rfl | rfl <;> decide
  rw [pteFromPa_valid _ hlt, pteFromPa_land_rwxu _ hlt (.inl rfl),
    pteFromPa_land_rwxu _ hlt (.inr (.inl rfl)),
    pteFromPa_land_rwxu _ hlt (.inr (.inr (.inr (.inr (.inr rfl))))),
    pteFromPa_page (by omega) hlt]
  refine ⟨by decide, ?_, ?_, ?_, by omega⟩ <;> rcases hperm with rfl | rfl <;> decide

theorem kernelWord_cases (k : Nat) :
    (kernelWord k = 0 ∧ ∀ j, j < 1024 → kernelLeaf (k * 1024 + j) = none) ∨
      ∃ perm, (perm = 14 ∨ perm = 6) ∧ kernelWord k = pteFromPa (k * 0x400000) perm ∧
        ∀ j, j < 1024 → kernelLeaf (k * 1024 + j) = some ⟨k * 1024 + j, perm⟩ := by
  have hdiv : ∀ j, j < 1024 → (k * 1024 + j) / 1024 = k := by omega
  unfold kernelWord kernelLeaf
  by_cases hram : inBlock 512 16 k
  · right
    refine ⟨14, .inl rfl, by rw [if_pos hram], fun j hj => ?_⟩
    rw [hdiv j hj, if_pos hram]
  · by_cases hdev : inBlock 64 8 k ∨ inBlock 48 1 k ∨ inBlock 8 1 k
    · right
      refine ⟨6, .inr rfl, by rw [if_neg hram, if_pos hdev], fun j hj => ?_⟩
      rw [hdiv j hj, if_neg hram, if_pos hdev]
    · left
      refine ⟨by rw [if_neg hram, if_neg hdev], fun j hj => ?_⟩
      rw [hdiv j hj, if_neg hram, if_neg hdev]

theorem kernelOnly_of_words {mem : Memory} {r : Nat}
    (h : ∀ k, k < 1024 → loadWord (mem r) k = kernelWord k) : KernelOnly mem r := by
  refine ⟨fun {k} hk => ?_, fun {k} hk hv hrwx => ?_⟩
  · unfold tableAt
    simp only
    rw [if_neg]
    rintro ⟨hv, hrwx⟩
    rw [h k hk] at hv hrwx
    rcases kernelWord_cases _ with ⟨hzero, -⟩ | ⟨perm, hperm, hword, -⟩
    · rw [hzero] at hv
      exact hv (by decide)
    · rw [hword] at hrwx
      exact (kernelPte hk hperm).2.1 hrwx
  · rw [h k hk] at hv hrwx ⊢
    rcases kernelWord_cases _ with ⟨hzero, -⟩ | ⟨perm, hperm, hword, -⟩
    · rw [hzero] at hv
      exact absurd (by decide) hv
    · obtain ⟨-, -, hU, -, hpage⟩ := kernelPte hk hperm
      rw [hword]
      exact ⟨hU, by rw [hpage]; omega⟩

theorem walk_of_words {mem : Memory} {r : Nat}
    (h : ∀ k, k < 1024 → loadWord (mem r) k = kernelWord k) {vpn : Nat} (hvpn : vpn < 1048576) :
    walk mem r vpn = kernelLeaf vpn := by
  have hsplit : vpn = vpn / 1024 * 1024 + vpn % 1024 := by omega
  have hk : vpn / 1024 < 1024 := by omega
  have hj : vpn % 1024 < 1024 := by omega
  have hor : vpn / 1024 * 1024 ||| vpn % 1024 = vpn / 1024 * 1024 + vpn % 1024 := by
    have := Nat.two_pow_add_eq_or_of_lt (i := 10) (b := vpn % 1024) (by omega) (vpn / 1024)
    rw [Nat.mul_comm _ 1024]
    exact this.symm
  unfold walk
  rw [h _ hk]
  simp only
  rcases kernelWord_cases _ with ⟨hzero, hleaf⟩ | ⟨perm, hperm, hword, hleaf⟩
  · rw [hzero, if_pos (by decide)]
    have := hleaf _ hj
    rw [← hsplit] at this
    exact this.symm
  · obtain ⟨hv, hrwx, -, hrwxu, hpage⟩ := kernelPte hk hperm
    rw [hword, if_neg hv, if_pos hrwx, hrwxu, hpage, hor]
    have := hleaf _ hj
    rw [← hsplit] at this ⊢
    exact this.symm

/-- Before the first allocation nothing is referred to. -/
theorem VmInv.empty {a : Allocator} (ha : a.Inv L) (hzero : ∀ i, a.pageRefcnt i = 0)
    (mem : Memory) : VmInv L (fun _ => none) (fun _ => 0) a mem := by
  have hnone : ∀ site, target (fun _ => none) mem site = none := by
    intro site
    cases site <;> rfl
  refine ⟨ha, ?_, ?_, ?_, ?_, ?_, ?_, ?_, ?_, ?_⟩
  · intro space r hr
    cases hr
  · intro space r k t hr
    cases hr
  · intro space r k hr
    cases hr
  · intro r k hr
    cases hr
  · intro p _
    left
    have hrefs : refs (target (fun _ => none) mem) p = 0 := by
      rw [refs_eq_zero]
      intro site ht
      rw [hnone site] at ht
      cases ht
    rw [hrefs]
    exact hzero _
  · intro space p ht
    rw [hnone] at ht
    cases ht
  · intro space k p ht
    rw [hnone] at ht
    cases ht
  · intro space r vpn leaf hr
    cases hr
  · intro space space' vpn vpn' p _ ht
    rw [hnone] at ht
    cases ht

/-- The roots when only the kernel has an address space. -/
def kernelRoots (kr : Nat) : Space → Option Nat
  | none => some kr
  | some _ => none

/-- The first page is there. -/
theorem reservePages_fresh {a : Allocator} (hruns : a.freeRuns = []) (hnext : a.nextPaddr = L.freeRam)
    (htop : a.metaTop = refTop L) : reservePages 1 a ≠ none := by
  have hfits := L.freeRam_fits
  have hnew : u32 (L.freeRam + u32 (1 * pageSize)) = L.freeRam + 4096 := by
    rw [show u32 (1 * pageSize) = 4096 by decide]
    exact u32_of_lt (by omega)
  have hroom : ¬ (refTop L < L.freeRam + 4096 ∨ L.freeRam + 4096 < L.freeRam) := by
    unfold refTop Layout.freeRamEnd
    omega
  unfold reservePages
  rw [hruns, hnext, htop]
  simp only [takeFirstFit, hnew, if_neg hroom]
  exact Option.some_ne_none _

/-- The root `vm_init` fills. -/
theorem vmInit_words {r : Nat} (s : Phys) (hzero : s.mem r = zeroPage) :
    let s₁ := vmMapRange4m (r * 4096) 0x02000000 0x02000000 0x00400000 (vmFlgR ||| vmFlgW) s
    let s₂ := vmMapRange4m (r * 4096) 0x0c000000 0x0c000000 0x00400000 (vmFlgR ||| vmFlgW) s₁
    let s₃ := vmMapRange4m (r * 4096) 0x10000000 0x10000000 0x02000000 (vmFlgR ||| vmFlgW) s₂
    let s₄ := vmMapRange4m (r * 4096) 0x80000000 0x80000000 0x04000000
      (vmFlgR ||| vmFlgW ||| vmFlgX) s₃
    s₄.alloc = s.alloc ∧ (∀ p, p ≠ r → s₄.mem p = s.mem p) ∧
      ∀ k, k < 1024 → loadWord (s₄.mem r) k = kernelWord k := by
  intro s₁ s₂ s₃ s₄
  have h₁ : Mapped4m r 8 1 (vmFlgR ||| vmFlgW) s s₁ := vmMapRange4m_spec (by decide) s
  have h₂ : Mapped4m r 48 1 (vmFlgR ||| vmFlgW) s₁ s₂ := vmMapRange4m_spec (by decide) s₁
  have h₃ : Mapped4m r 64 8 (vmFlgR ||| vmFlgW) s₂ s₃ := vmMapRange4m_spec (by decide) s₂
  have h₄ : Mapped4m r 512 16 (vmFlgR ||| vmFlgW ||| vmFlgX) s₃ s₄ :=
    vmMapRange4m_spec (by decide) s₃
  refine ⟨by rw [h₄.alloc, h₃.alloc, h₂.alloc, h₁.alloc], fun p hp => ?_, fun k hk => ?_⟩
  · rw [h₄.page p hp, h₃.page p hp, h₂.page p hp, h₁.page p hp]
  · have hlt : ∀ perm, perm < 1024 → pteFromPa (k * 0x400000) perm % 4294967296 =
        pteFromPa (k * 0x400000) perm := fun perm hperm =>
      Nat.mod_eq_of_lt (pteFromPa_lt (by omega) hperm)
    rw [h₄.word k, h₃.word k, h₂.word k, h₁.word k, hzero, loadWord_zeroPage,
      show ptePermFromFlags (vmFlgR ||| vmFlgW) = 6 by decide,
      show ptePermFromFlags (vmFlgR ||| vmFlgW ||| vmFlgX) = 14 by decide,
      hlt 6 (by decide), hlt 14 (by decide)]
    unfold kernelWord
    by_cases hram : inBlock 512 16 k
    · rw [if_pos hram, if_pos hram]
    · rw [if_neg hram, if_neg hram]
      by_cases hdev : inBlock 64 8 k
      · rw [if_pos hdev, if_pos (.inl hdev)]
      · rw [if_neg hdev]
        by_cases hplic : inBlock 48 1 k
        · rw [if_pos hplic, if_pos (.inr (.inl hplic))]
        · rw [if_neg hplic]
          by_cases hclint : inBlock 8 1 k
          · rw [if_pos hclint, if_pos (.inr (.inr hclint))]
          · rw [if_neg hclint, if_neg (by tauto)]

/-- `vm_init` succeeds on the static initialisers and activates the kernel root. -/
theorem vmInit_spec (s : Phys) (hstatic : s.alloc = Allocator.static L) :
    ∃ kr s', vmInit L s = (some (vmMakeSatp (kr * 4096)), s') ∧ L.Managed kr ∧
      VmInv L (kernelRoots kr) (fun _ => 0) s'.alloc s'.mem ∧
      (∀ {vpn}, vpn < 1048576 → walk s'.mem kr vpn = kernelLeaf vpn) ∧
      s'.mmu.satp = vmMakeSatp (kr * 4096) ∧ s'.mmu.tlb = [] := by
  obtain ⟨a₀, hinit, hinv₀, hzero, hruns, hnext, htop⟩ :=
    initAllocatorIfNeeded_static (L := L) (a := s.alloc) (by rw [hstatic]; rfl)
  -- The first call initialises the allocator and then allocates.
  have hcall : allocPagesTry L 1 s = allocPagesTry L 1 { s with alloc := a₀ } := by
    unfold allocPagesTry allocPagesMeta
    rw [hinit, initAllocatorIfNeeded_of_inv hinv₀]
  have hempty : VmInv L (fun _ => none) (fun _ => 0) a₀ s.mem := VmInv.empty hinv₀ hzero s.mem
  cases halloc : allocPagesTry L 1 { s with alloc := a₀ } with
  | mk result s₁ =>
      cases result with
      | none =>
          obtain ⟨-, hwhy⟩ := allocPagesTry_none (s := { s with alloc := a₀ }) hinv₀ halloc
          exact absurd (hwhy.resolve_left (by decide)) (reservePages_fresh hruns hnext htop)
      | some paddr =>
          obtain ⟨kr, rfl, hal⟩ := allocPagesTry_some (s := { s with alloc := a₀ }) hinv₀ (by decide)
            halloc
          have hin : ∀ p, inBlock kr 1 p ↔ p = kr := by
            intro p
            unfold inBlock
            omega
          have hm : L.Managed kr := hal.managed kr ((hin kr).mpr rfl)
          obtain ⟨-, hinv₁⟩ := VmInv.allocate (s := { s with alloc := a₀ }) hempty hal
          have hdiv : kr * 4096 / 4096 = kr := Nat.mul_div_cancel _ (by decide)
          obtain ⟨halloc₄, hpage₄, hword₄⟩ := vmInit_words (r := kr) (s₁.setPage (kr * 4096) zeroPage)
            (by simp only [Phys.setPage, hdiv, Function.update_self])
          unfold vmInit
          rw [hcall, halloc]
          simp only
          generalize vmMapRange4m (kr * 4096) 0x80000000 0x80000000 0x04000000
            (vmFlgR ||| vmFlgW ||| vmFlgX) _ = s₄ at halloc₄ hpage₄ hword₄ ⊢
          have hkernel : KernelOnly s₄.mem kr := kernelOnly_of_words hword₄
          refine ⟨kr, _, rfl, hm, ?_, fun hvpn => walk_of_words hword₄ hvpn, rfl, rfl⟩
          show VmInv L (kernelRoots kr) (fun _ => 0) s₄.alloc s₄.mem
          have hinv₄ : VmInv L (fun _ => none) (fun p => 0 + if inBlock kr 1 p then 1 else 0)
              s₄.alloc s₄.mem := by
            rw [halloc₄]
            refine VmInv.congr_mem hinv₁ ?_
            intro space r hr
            cases hr
          have hroots : Function.update (fun _ => none) none (some kr) = kernelRoots kr := by
            funext space
            cases space with
            | none => rfl
            | some i => rfl
          rw [← hroots]
          refine hinv₄.addRoot rfl hm ?_ hkernel ?_ ?_
          · rw [halloc₄]
            show refcntOf L s₁.alloc kr = 1
            rw [hal.count kr hm, if_pos ((hin kr).mpr rfl)]
          · simp [hin]
          · intro p hp
            simp [hin, hp]

end Sugimotos.Mm
