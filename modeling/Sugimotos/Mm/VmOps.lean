/-
# Specifications of the page-table operations

One lemma for each function of `vm.c` on an address space that satisfies the
ownership invariant.  A mapping changes one translation of one space; a failed
one changes nothing, because the only thing that can fail is the allocation of a
second-level table.
-/

import Sugimotos.Mm.Roots

namespace Sugimotos.Mm

open Sugimotos.Math

variable {L : Layout} {roots : Space → Option Nat} {held : Nat → Nat}

/-! ## The second-level table behind a root entry -/

theorem splitTable_invalid {pte1 : Nat} (hv : pte1 &&& pteV = 0) (j : Nat) :
    decodeLeaf (loadWord (splitTable pte1) j) = none := by
  unfold splitTable
  rw [if_neg (fun hc => hc.1 hv), loadWord_zeroPage]
  exact decodeLeaf_zero

/-- Splitting a 4 MiB leaf yields its 1024 small pages. -/
theorem splitTable_superpage {pte1 : Nat} (hv : pte1 &&& pteV ≠ 0) (hrwx : pte1 &&& pteRwx ≠ 0)
    (halign : ptePage pte1 % 1024 = 0) {j : Nat} (hj : j < 1024) :
    decodeLeaf (loadWord (splitTable pte1) j) = some ⟨ptePage pte1 ||| j, pte1 &&& pteRwxu⟩ := by
  have hlt := ptePage_lt pte1
  have hperm : pte1 &&& (pteRwxu ||| pteA ||| pteD) < 1024 :=
    Nat.lt_of_le_of_lt Nat.and_le_right (by decide)
  have hbase : u32 ((pte1 >>> 10) <<< 12) / 0x400000 * 0x400000 = ptePage pte1 * 4096 := by
    rw [u32_pte_addr]
    omega
  have hpa : u32 (ptePage pte1 * 4096 + j * pageSize) = (ptePage pte1 + j) * 4096 := by
    unfold pageSize
    rw [u32_of_lt (by omega)]
    ring
  have hor : ptePage pte1 ||| j = ptePage pte1 + j := by
    have := Nat.two_pow_add_eq_or_of_lt (i := 10) (b := j) (by omega) (ptePage pte1 / 1024)
    have hmul : 2 ^ 10 * (ptePage pte1 / 1024) = ptePage pte1 := by omega
    rw [hmul] at this
    exact this.symm
  have hrwx' : pte1 &&& (pteRwxu ||| pteA ||| pteD) &&& pteRwx = pte1 &&& pteRwx := by
    rw [Nat.and_assoc]
    rfl
  have hrwxu : pte1 &&& (pteRwxu ||| pteA ||| pteD) &&& pteRwxu = pte1 &&& pteRwxu := by
    rw [Nat.and_assoc]
    rfl
  unfold splitTable
  rw [if_pos ⟨hv, hrwx⟩, loadWord_wordPage]
  simp only [hbase, hpa]
  rw [Nat.mod_eq_of_lt (pteFromPa_lt (by omega) hperm),
    decodeLeaf_pteFromPa (by omega) hperm, hrwx', if_neg hrwx, hrwxu, hor]
  congr 2
  omega

theorem splitTable_entries {a : Allocator} {mem : Memory} (h : VmInv L roots held a mem)
    {space : Space} {r k : Nat} (hr : roots space = some r) (hk : k < 1024)
    (hnone : tableAt mem r k = none) {j : Nat} (hj : j < 1024) :
    decodeLeaf (loadWord (splitTable (loadWord (mem r) k)) j) = walk mem r (k * 1024 + j) := by
  have hdiv : (k * 1024 + j) / 1024 = k := by omega
  have hmod : (k * 1024 + j) % 1024 = j := by omega
  unfold walk
  rw [hdiv, hmod]
  simp only
  by_cases hv : loadWord (mem r) k &&& pteV = 0
  · rw [if_pos hv]
    exact splitTable_invalid hv j
  · rw [if_neg hv]
    by_cases hrwx : loadWord (mem r) k &&& pteRwx = 0
    · rw [tableAt, if_pos ⟨hv, hrwx⟩] at hnone
      cases hnone
    · rw [if_pos hrwx]
      exact splitTable_superpage hv hrwx (h.superpage hr hk hv hrwx).2 hj

/-- How the tables of a space grow: what was in use keeps its count and its
contents, tables stay linked, and the only pages that may have become used are
new tables of that space. -/
structure Grown (L : Layout) (roots : Space → Option Nat) (space : Space) (r : Nat)
    (s s' : Phys) : Prop where
  page : ∀ {p}, VmInv.NoTable roots s.mem p → (L.Managed p → refcntOf L s.alloc p ≠ 0) →
    s'.mem p = s.mem p
  count_stable : ∀ {p}, L.Managed p → refcntOf L s.alloc p ≠ 0 →
    refcntOf L s'.alloc p = refcntOf L s.alloc p
  count_new : ∀ {p}, L.Managed p → refcntOf L s'.alloc p ≠ refcntOf L s.alloc p →
    ∃ k, k < 1024 ∧ tableAt s.mem r k = none ∧ tableAt s'.mem r k = some p
  table_other : ∀ {space' r' k}, roots space' = some r' → space' ≠ space →
    tableAt s'.mem r' k = tableAt s.mem r' k
  table_keep : ∀ {k t}, k < 1024 → tableAt s.mem r k = some t → tableAt s'.mem r k = some t
  table_new : ∀ {k t}, k < 1024 → tableAt s.mem r k = none → tableAt s'.mem r k = some t →
    L.Managed t ∧ refcntOf L s.alloc t = 0

namespace Grown

variable {space : Space} {r : Nat} {s s₁ s' : Phys}

theorem refl (s : Phys) : Grown L roots space r s s := by
  refine ⟨fun _ _ => rfl, fun _ _ => rfl, ?_, fun _ _ => rfl, fun _ ht => ht, ?_⟩
  · intro p _ hne
    exact absurd rfl hne
  · intro k t _ hnone hsome
    rw [hnone] at hsome
    cases hsome

/-- A page that is in use and no table does not become one. -/
theorem noTable (h : Grown L roots space r s s') (hr : roots space = some r) {p : Nat}
    (hp : VmInv.NoTable roots s.mem p) (hcount : L.Managed p → refcntOf L s.alloc p ≠ 0) :
    VmInv.NoTable roots s'.mem p := by
  refine ⟨hp.1, fun space' k htarget => ?_⟩
  cases hr' : roots space' with
  | none => simp [target, hr'] at htarget
  | some r' =>
      simp only [target, hr', Option.bind_some] at htarget
      by_cases hspace : space' = space
      · subst hspace
        rw [hr] at hr'
        obtain rfl := Option.some.inj hr'
        cases hold : tableAt s.mem r k with
        | none =>
            obtain ⟨hm, hzero⟩ := h.table_new k.isLt hold htarget
            exact hcount hm hzero
        | some t =>
            have hkeep := h.table_keep k.isLt hold
            rw [htarget] at hkeep
            exact hp.2 space' k (by simp [target, hr, hold, hkeep])
      · rw [h.table_other hr' hspace] at htarget
        exact hp.2 space' k (by simp [target, hr', htarget])

theorem count_ne_zero (h : Grown L roots space r s s') {p : Nat}
    (hcount : L.Managed p → refcntOf L s.alloc p ≠ 0) :
    L.Managed p → refcntOf L s'.alloc p ≠ 0 := by
  intro hm
  rw [h.count_stable hm (hcount hm)]
  exact hcount hm

theorem trans (h : Grown L roots space r s s₁) (h' : Grown L roots space r s₁ s')
    (hr : roots space = some r) : Grown L roots space r s s' := by
  have hnone : ∀ {k}, k < 1024 → tableAt s₁.mem r k = none → tableAt s.mem r k = none := by
    intro k hk hnone
    cases hold : tableAt s.mem r k with
    | none => rfl
    | some t =>
        rw [h.table_keep hk hold] at hnone
        cases hnone
  refine ⟨?_, ?_, ?_, ?_, ?_, ?_⟩
  · intro p hp hcount
    rw [h'.page (h.noTable hr hp hcount) (h.count_ne_zero hcount), h.page hp hcount]
  · intro p hm hcount
    rw [h'.count_stable hm (h.count_ne_zero (fun _ => hcount) hm), h.count_stable hm hcount]
  · intro p hm hne
    by_cases hfirst : refcntOf L s₁.alloc p = refcntOf L s.alloc p
    · rw [← hfirst] at hne
      obtain ⟨k, hk, hold, hnew⟩ := h'.count_new hm hne
      exact ⟨k, hk, hnone hk hold, hnew⟩
    · obtain ⟨k, hk, hold, hnew⟩ := h.count_new hm hfirst
      exact ⟨k, hk, hold, h'.table_keep hk hnew⟩
  · intro space' r' k hr' hne
    rw [h'.table_other hr' hne, h.table_other hr' hne]
  · intro k t hk ht
    exact h'.table_keep hk (h.table_keep hk ht)
  · intro k t hk hold hnew
    cases hmid : tableAt s₁.mem r k with
    | none =>
        obtain ⟨hm, hzero⟩ := h'.table_new hk hmid hnew
        refine ⟨hm, ?_⟩
        by_contra hne
        exact h.count_ne_zero (fun _ => hne) hm hzero
    | some t' =>
        have hkeep := h'.table_keep hk hmid
        rw [hnew] at hkeep
        rw [Option.some.inj hkeep]
        exact h.table_new hk hold hmid

/-- Caching translations changes neither memory nor counts. -/
theorem of_tick (h : Grown L roots space r s.tick s') : Grown L roots space r s s' :=
  ⟨h.page, h.count_stable, h.count_new, h.table_other, h.table_keep, h.table_new⟩

end Grown

theorem vmTableFor_linked {s : Phys} {r k t : Nat} (ht : tableAt s.mem r k = some t) :
    vmTableFor L (r * 4096) k s = (some (t * 4096), s) := by
  unfold tableAt at ht
  simp only at ht
  split at ht
  · rename_i hcond
    obtain ⟨hv, hrwx⟩ := hcond
    have hread : s.read32 (r * 4096) k = loadWord (s.mem r) k := by
      unfold Phys.read32
      rw [Nat.mul_div_cancel _ (by decide)]
    unfold vmTableFor
    rw [hread]
    simp only
    rw [if_neg, u32_pte_addr, Option.some.inj ht]
    rintro (hc | hc)
    · exact hv hc
    · exact hc hrwx
  · cases ht

theorem vmTableFor_unlinked {s : Phys} {r k : Nat} (ht : tableAt s.mem r k = none) :
    vmTableFor L (r * 4096) k s =
      match allocPagesTry L 1 s with
      | (none, s') => (none, s')
      | (some l0, s') =>
          (some l0, (s'.setPage l0 (splitTable (loadWord (s.mem r) k))).write32 (r * 4096) k
            (linkPte (l0 / 4096))) := by
  have hread : s.read32 (r * 4096) k = loadWord (s.mem r) k := by
    unfold Phys.read32
    rw [Nat.mul_div_cancel _ (by decide)]
  have hcond : loadWord (s.mem r) k &&& pteV = 0 ∨ loadWord (s.mem r) k &&& pteRwx ≠ 0 := by
    by_contra hcon
    simp only [not_or, ne_eq, not_not] at hcon
    rw [tableAt, if_pos hcon] at ht
    cases ht
  unfold vmTableFor
  rw [hread]
  dsimp only
  rw [if_pos hcond]
  cases allocPagesTry L 1 s with
  | mk table s' =>
      cases table with
      | none => rfl
      | some l0 =>
          dsimp only
          rw [linkPte_eq]

theorem vmTableFor_none {s s' : Phys} (h : VmInv L roots held s.alloc s.mem) {r k : Nat}
    (hcall : vmTableFor L (r * 4096) k s = (none, s')) :
    s' = s ∧ tableAt s.mem r k = none ∧ reservePages 1 s.alloc = none := by
  cases ht : tableAt s.mem r k with
  | some t =>
      rw [vmTableFor_linked ht] at hcall
      cases hcall
  | none =>
      rw [vmTableFor_unlinked ht] at hcall
      cases halloc : allocPagesTry L 1 s with
      | mk result s₁ =>
          rw [halloc] at hcall
          cases result with
          | some l0 => cases hcall
          | none =>
              obtain ⟨rfl, hwhy⟩ := allocPagesTry_none h.alloc halloc
              simp only [Prod.mk.injEq, true_and] at hcall
              subst hcall
              exact ⟨rfl, rfl, hwhy.resolve_left (by decide)⟩

/-- A page just allocated and filled with the translations behind a root entry can
be linked there. -/
theorem VmInv.freshLinking {s s₁ : Phys} (h : VmInv L roots held s.alloc s.mem) {space : Space}
    {r k t : Nat} (hr : roots space = some r) (hk : k < 1024) (ht : tableAt s.mem r k = none)
    (hal : Allocated L t 1 s s₁) :
    Linking roots s₁.mem space r k t (splitTable (loadWord (s.mem r) k)) ∧
      ((s₁.setPage (t * 4096) (splitTable (loadWord (s.mem r) k))).write32 (r * 4096) k
        (linkPte (t * 4096 / 4096))).mem =
          Mm.linkTable s₁.mem r k t (splitTable (loadWord (s.mem r) k)) := by
  have hin : inBlock t 1 t := ⟨le_refl t, Nat.lt_succ_self t⟩
  have hmt : L.Managed t := hal.managed t hin
  obtain ⟨hsame, hinv₁⟩ := h.allocate hal
  have hno : VmInv.NoTable roots s₁.mem t := hinv₁.noTable_of_held hmt (by simp [hin])
  have htr : r ≠ t := by
    rintro rfl
    exact hno.1 space hr
  refine ⟨⟨hr, hk, ?_, hno, hmt.lt, fun j hj => ?_⟩, ?_⟩
  · rw [tableAt_congr (hsame space r hr).1]
    exact ht
  · rw [splitTable_entries h hr hk ht hj, hsame.walk hr (by omega)]
  · simp only [Phys.write32, Phys.setPage, Nat.mul_div_cancel _ (show 0 < 4096 by decide)]
    unfold Mm.linkTable
    rw [Function.update_of_ne htr]

theorem vmTableFor_some {s s' : Phys} (h : VmInv L roots held s.alloc s.mem) {space : Space}
    {r k l0 : Nat} (hr : roots space = some r) (hspace : space ≠ none) (hk : k < 1024)
    (hcall : vmTableFor L (r * 4096) k s = (some l0, s')) :
    ∃ t, l0 = t * 4096 ∧ tableAt s'.mem r k = some t ∧
      (tableAt s.mem r k = none → reservePages 1 s.alloc ≠ none) ∧
      VmInv L roots held s'.alloc s'.mem ∧
      (∀ {space' r' vpn}, roots space' = some r' → vpn < 1048576 →
        walk s'.mem r' vpn = walk s.mem r' vpn) ∧
      Grown L roots space r s s' ∧ s'.mmu = s.mmu := by
  cases ht : tableAt s.mem r k with
  | some t =>
      rw [vmTableFor_linked ht] at hcall
      simp only [Prod.mk.injEq, Option.some.injEq] at hcall
      obtain ⟨rfl, rfl⟩ := hcall
      exact ⟨t, rfl, ht, (fun hc => by cases hc), h, fun _ _ => rfl, Grown.refl s, rfl⟩
  | none =>
      rw [vmTableFor_unlinked ht] at hcall
      cases halloc : allocPagesTry L 1 s with
      | mk result s₁ =>
          rw [halloc] at hcall
          cases result with
          | none => cases hcall
          | some l =>
              obtain ⟨t, rfl, hal⟩ := allocPagesTry_some h.alloc (by decide) halloc
              simp only [Prod.mk.injEq, Option.some.injEq] at hcall
              obtain ⟨rfl, rfl⟩ := hcall
              have hmt : L.Managed t := hal.managed t (by unfold inBlock; omega)
              have hwas : refcntOf L s.alloc t = 0 := hal.wasFree t (by unfold inBlock; omega)
              have hin : ∀ p, inBlock t 1 p ↔ p = t := by
                intro p
                unfold inBlock
                omega
              obtain ⟨hsame, hinv₁⟩ := h.allocate hal
              have hheld : held t = 0 := by
                have := h.refs_le hmt
                omega
              have hone : refcntOf L s₁.alloc t = 1 := by
                rw [hal.count t hmt, if_pos ((hin t).mpr rfl)]
              obtain ⟨hlinking, hmem⟩ := h.freshLinking hr hk ht hal
              have hlink : Linkable L roots (fun p => held p + if inBlock t 1 p then 1 else 0)
                  s₁.alloc s₁.mem space r k t (splitTable (loadWord (s.mem r) k)) :=
                ⟨hr, hspace, hk, hlinking.unlinked, hmt, by simp [hin], hone, hlinking.entries⟩
              have hinv := hinv₁.linkTable hlink (w := held)
                (by simp [hin]) (fun p hp => by simp [hin, hp])
              refine ⟨t, rfl, ?_, fun _ => hal.reserved, ?_, ?_, ⟨?_, ?_, ?_, ?_, ?_, ?_⟩, hal.mmu⟩
              · rw [hmem, tableAt_linkTable hinv₁.apart hlinking _ hr, if_pos ⟨rfl, rfl⟩]
              · rw [hmem]
                exact hinv
              · intro space' r' vpn hr' hvpn
                rw [hmem, walk_linkTable hinv₁.apart hlinking hr' hvpn]
                exact hsame.walk hr' hvpn
              · intro p hp hcount
                have hpt : p ≠ t := by
                  rintro rfl
                  exact hcount hmt hwas
                have hpr : p ≠ r := by
                  rintro rfl
                  exact hp.1 space hr
                rw [hmem, linkTable_other hpr hpt, hal.mem, if_neg (fun hc => hpt ((hin p).mp hc))]
              · intro p hp hcount
                have hpt : p ≠ t := by
                  rintro rfl
                  exact hcount hwas
                show refcntOf L s₁.alloc p = _
                rw [hal.count p hp, if_neg (fun hc => hpt ((hin p).mp hc))]
              · intro p hp hne
                have hpt : p = t := by
                  by_contra hpt
                  apply hne
                  show refcntOf L s₁.alloc p = _
                  rw [hal.count p hp, if_neg (fun hc => hpt ((hin p).mp hc))]
                refine ⟨k, hk, ht, ?_⟩
                rw [hmem, tableAt_linkTable hinv₁.apart hlinking _ hr, if_pos ⟨rfl, rfl⟩, hpt]
              · intro space' r' k' hr' hne
                rw [hmem, tableAt_linkTable hinv₁.apart hlinking _ hr', if_neg (fun hc => hne hc.1),
                  tableAt_congr (hsame space' r' hr').1]
              · intro k' t' hk' ht'
                have hne : k' ≠ k := by
                  rintro rfl
                  rw [ht] at ht'
                  cases ht'
                rw [hmem, tableAt_linkTable hinv₁.apart hlinking _ hr, if_neg (fun hc => hne hc.2),
                  tableAt_congr (hsame space r hr).1, ht']
              · intro k' t' hk' hold hnew
                rw [hmem, tableAt_linkTable hinv₁.apart hlinking _ hr] at hnew
                split at hnew
                · rw [← Option.some.inj hnew]
                  exact ⟨hmt, hwas⟩
                · rw [tableAt_congr (hsame space r hr).1, hold] at hnew
                  cases hnew

/-! ## Mapping and unmapping one page -/

/-- The translation an entry with the given page and permission bits stands for. -/
def entryLeaf (p perm : Nat) : Option Leaf :=
  if perm &&& pteRwx = 0 then none else some ⟨p, perm⟩

/-- Translation `vpn` of a space is now `new`; all other translations stay. -/
structure Mapped (L : Layout) (roots : Space → Option Nat) (space : Space) (r vpn : Nat)
    (new : Option Leaf) (s s' : Phys) : Prop extends
    Grown L roots space r s s' where
  linked : ∃ t, tableAt s'.mem r (vpn / 1024) = some t
  reserved : tableAt s.mem r (vpn / 1024) = none → reservePages 1 s.alloc ≠ none
  walk : ∀ {space' r' vpn'}, roots space' = some r' → vpn' < 1048576 →
    Mm.walk s'.mem r' vpn' = if space' = space ∧ vpn' = vpn then new else Mm.walk s.mem r' vpn'

/-- Overwriting an entry of a table that is linked. -/
theorem VmInv.mapEntry {s : Phys} (h : VmInv L roots held s.alloc s.mem) {space : Space}
    {r vpn t word : Nat} (hr : roots space = some r) (hvpn : vpn < 1048576)
    (ht : tableAt s.mem r (vpn / 1024) = some t) (hword : word < 4294967296)
    (hnew : NewLeaf L roots s.alloc s.mem vpn (decodeLeaf word)) {w : Nat → Nat}
    (hheld : ∀ p, L.Managed p →
      w p + (if userPage (decodeLeaf word) = some p then 1 else 0) =
        held p + (if userPage (walk s.mem r vpn) = some p then 1 else 0)) :
    VmInv L roots w s.alloc (s.write32 (t * 4096) (vpn % 1024) word).mem ∧
      Mapped L roots space r vpn (decodeLeaf word) s (s.write32 (t * 4096) (vpn % 1024) word) := by
  have hmem : (s.write32 (t * 4096) (vpn % 1024) word).mem =
      Mm.setEntry s.mem t (vpn % 1024) word := by
    simp only [Phys.write32, Phys.setPage, Nat.mul_div_cancel _ (show 0 < 4096 by decide)]
    rfl
  rw [hmem]
  have htables : ∀ {space' r' k}, roots space' = some r' →
      tableAt (s.write32 (t * 4096) (vpn % 1024) word).mem r' k = tableAt s.mem r' k := by
    intro space' r' k hr'
    rw [hmem, tableAt_congr (setEntry_root h.apart hr hvpn ht _ hr')]
  refine ⟨h.setEntry hr hvpn ht hword hnew hheld, ⟨?_, ?_, ?_, ?_, ?_, ?_⟩, ?_, ?_, ?_⟩
  · intro p hp _
    rw [hmem]
    apply Function.update_of_ne
    rintro rfl
    exact hp.2 space ⟨vpn / 1024, by omega⟩ (by simp [target, hr, ht])
  · intro p _ _
    rfl
  · intro p _ hne
    exact absurd rfl hne
  · intro space' r' k' hr' _
    exact htables hr'
  · intro k' t' _ ht'
    rw [htables hr, ht']
  · intro k' t' _ hold hsome
    rw [htables hr, hold] at hsome
    cases hsome
  · exact ⟨t, by rw [htables hr, ht]⟩
  · intro hnone
    rw [ht] at hnone
    cases hnone
  · intro space' r' vpn' hr' hvpn'
    rw [hmem]
    exact walk_setEntry h.apart hr hvpn ht hword hr' hvpn'

/-- `vm_map_page` fails only for lack of a second-level table. -/
theorem vmMapPage_false {s s' : Phys} (h : VmInv L roots held s.alloc s.mem)
    {r va pa flags : Nat} (hva : va < 4294967296)
    (hcall : vmMapPage L (r * 4096) va pa flags s = (false, s')) :
    s' = s.tick ∧ tableAt s.mem r (va / 4096 / 1024) = none ∧ reservePages 1 s.alloc = none := by
  unfold vmMapPage at hcall
  rw [vpn1_eq hva] at hcall
  simp only at hcall
  cases htable : vmTableFor L (r * 4096) (va / 4096 / 1024) s.tick with
  | mk result s₁ =>
      rw [htable] at hcall
      cases result with
      | some l0 => cases hcall
      | none =>
          obtain ⟨rfl, hnone, hreserve⟩ := vmTableFor_none (s := s.tick) h htable
          simp only [Prod.mk.injEq, true_and] at hcall
          subst hcall
          exact ⟨rfl, hnone, hreserve⟩

/-- The entry `vm_map_page` stores. -/
theorem decodeLeaf_flags {pa flags : Nat} (hpa : pa < 4294967296) (hflags : flags < 16) :
    decodeLeaf (pteFromPa pa (ptePermFromFlags flags)) = entryLeaf (pa / 4096) (2 * flags) := by
  rw [ptePermFromFlags_eq hflags, decodeLeaf_pteFromPa hpa (by omega)]
  unfold entryLeaf
  congr 2
  rw [Leaf.mk.injEq]
  refine ⟨rfl, ?_⟩
  interval_cases flags <;> decide

theorem pteFromPa_flags_lt {pa flags : Nat} (hpa : pa < 4294967296) (hflags : flags < 16) :
    pteFromPa pa (ptePermFromFlags flags) < 4294967296 := by
  rw [ptePermFromFlags_eq hflags]
  exact pteFromPa_lt hpa (by omega)

/-- A successful `vm_map_page` sets one translation.  The references held make
up for the page that is no longer mapped and for the one that now is. -/
theorem vmMapPage_true {s s' : Phys} (h : VmInv L roots held s.alloc s.mem) {space : Space}
    {r va pa flags : Nat} (hr : roots space = some r) (hspace : space ≠ none)
    (hva : va < 4294967296) (hpa : pa < 4294967296) (hflags : flags < 16)
    (hnew : NewLeaf L roots s.alloc s.mem (va / 4096) (entryLeaf (pa / 4096) (2 * flags)))
    {w : Nat → Nat}
    (hheld : ∀ p, L.Managed p →
      w p + (if userPage (entryLeaf (pa / 4096) (2 * flags)) = some p then 1 else 0) =
        held p + (if userPage (walk s.mem r (va / 4096)) = some p then 1 else 0))
    (hcall : vmMapPage L (r * 4096) va pa flags s = (true, s')) :
    VmInv L roots w s'.alloc s'.mem ∧
      Mapped L roots space r (va / 4096) (entryLeaf (pa / 4096) (2 * flags)) s s' ∧
      s'.mmu = s.tick.mmu := by
  have hvpn : va / 4096 < 1048576 := by omega
  have hdecode := decodeLeaf_flags hpa hflags
  have hword := pteFromPa_flags_lt hpa hflags
  unfold vmMapPage at hcall
  rw [vpn1_eq hva, vpn0_eq] at hcall
  simp only at hcall
  cases htable : vmTableFor L (r * 4096) (va / 4096 / 1024) s.tick with
  | mk result s₁ =>
      rw [htable] at hcall
      cases result with
      | none => cases hcall
      | some l0 =>
          simp only [Prod.mk.injEq, true_and] at hcall
          subst hcall
          obtain ⟨t, rfl, ht, hreserved, hinv₁, hwalk, hgrown, hmmu⟩ :=
            vmTableFor_some (s := s.tick) h hr hspace (by omega) htable
          have hleaves : ∀ space' vpn', target roots s₁.mem (.leaf space' vpn') =
              target roots s.mem (.leaf space' vpn') := by
            intro space' vpn'
            cases hr' : roots space' with
            | none => simp [target, hr']
            | some r' =>
                simp only [target, hr', Option.bind_some]
                rw [hwalk hr' vpn'.isLt]
                rfl
          have hnew₁ : NewLeaf L roots s₁.alloc s₁.mem (va / 4096)
              (decodeLeaf (pteFromPa pa (ptePermFromFlags flags))) := by
            rw [hdecode]
            refine ⟨fun hp hpage hsite => ?_, fun hleaf hU hW hm => ?_⟩
            · rw [hleaves] at hsite
              exact hnew.same_vpn hp hpage hsite
            · have hone := hnew.write_single hleaf hU hW hm
              rw [hgrown.count_stable hm (by rw [Phys.tick_alloc]; omega)]
              exact hone
          obtain ⟨hinv, hmapped⟩ := hinv₁.mapEntry hr hvpn ht hword hnew₁ (by
            rw [hdecode, hwalk hr hvpn]
            exact hheld)
          rw [hdecode] at hmapped
          refine ⟨hinv, ?_, ?_⟩
          · refine ⟨(hgrown.trans hmapped.toGrown hr).of_tick, hmapped.linked, hreserved,
              fun hr' hvpn' => ?_⟩
            rw [hmapped.walk hr' hvpn', hwalk hr' hvpn']
            rfl
          · exact hmmu

/-- The leaf `vm_map_user_page` installs for a protection; a protection of zero
leaves an entry that is no leaf. -/
def userLeaf (p prot : Nat) : Option Leaf := if prot = 0 then none else some ⟨p, 2 * prot + 16⟩

@[simp]
theorem userLeaf_zero (p : Nat) : userLeaf p 0 = none := rfl

theorem userLeaf_pos {p prot : Nat} (h : prot ≠ 0) : userLeaf p prot = some ⟨p, 2 * prot + 16⟩ :=
  if_neg h

theorem entryLeaf_user {p prot : Nat} (h : prot < 8) :
    entryLeaf p (2 * (prot + 8)) = userLeaf p prot := by
  unfold entryLeaf userLeaf
  interval_cases prot <;> rfl

theorem userPerm_user {prot : Nat} (h : prot < 8) : (2 * prot + 16) &&& pteU ≠ 0 := by
  interval_cases prot <;> decide

theorem userPerm_write {prot : Nat} (h : prot < 8) :
    (2 * prot + 16) &&& pteW = 0 ↔ prot &&& vmaProtW = 0 := by
  interval_cases prot <;> decide

theorem userPage_userLeaf {p prot : Nat} (h : prot < 8) :
    userPage (userLeaf p prot) = if prot = 0 then none else some p := by
  unfold userLeaf userPage
  split
  · rfl
  · rw [Option.bind_some, if_pos (userPerm_user h)]

/-- A user leaf is always behind a second-level table. -/
theorem VmInv.table_of_user {a : Allocator} {mem : Memory} (h : VmInv L roots held a mem)
    {space : Space} {r vpn : Nat} {leaf : Leaf} (hr : roots space = some r)
    (hvpn : vpn < 1048576) (hwalk : walk mem r vpn = some leaf) (hU : leaf.perm &&& pteU ≠ 0) :
    ∃ t, tableAt mem r (vpn / 1024) = some t := by
  unfold walk at hwalk
  simp only at hwalk
  split at hwalk
  · cases hwalk
  · rename_i hv
    split at hwalk
    · rename_i hrwx
      obtain ⟨hzero, -⟩ := h.superpage hr (by omega) hv hrwx
      rw [← Option.some.inj hwalk] at hU
      refine absurd ?_ hU
      show loadWord (mem r) (vpn / 1024) &&& pteRwxu &&& pteU = 0
      rw [Nat.and_assoc]
      exact hzero
    · rename_i hrwx
      refine ⟨ptePage (loadWord (mem r) (vpn / 1024)), ?_⟩
      rw [tableAt, if_pos ⟨hv, not_not.mp hrwx⟩]

/-- Overwriting an entry of a linked table touches no other page and no link. -/
theorem noTable_setEntry {a : Allocator} {mem : Memory} (h : VmInv L roots held a mem)
    {space : Space} {r vpn t word : Nat} (hr : roots space = some r) (hvpn : vpn < 1048576)
    (ht : tableAt mem r (vpn / 1024) = some t) {p : Nat} (hp : VmInv.NoTable roots mem p) :
    setEntry mem t (vpn % 1024) word p = mem p ∧
      VmInv.NoTable roots (setEntry mem t (vpn % 1024) word) p := by
  refine ⟨?_, hp.1, fun space' k htarget => ?_⟩
  · apply Function.update_of_ne
    rintro rfl
    exact hp.2 space ⟨vpn / 1024, by omega⟩ (by simp [target, hr, ht])
  · cases hr' : roots space' with
    | none => simp [target, hr'] at htarget
    | some r' =>
        simp only [target, hr', Option.bind_some] at htarget
        rw [tableAt_congr (setEntry_root h.apart hr hvpn ht _ hr')] at htarget
        exact hp.2 space' k (by simp [target, hr', htarget])

section UserPage

variable {space : Space} {r satp vpn p prot : Nat} {s s' : Phys}

theorem vmMapUserPage_eq (hsatp : rootPage satp = r) (hprot : prot < 8) :
    vmMapUserPage L satp (vpn * 4096) (p * 4096) prot s =
      vmMapPage L (r * 4096) (vpn * 4096) (p * 4096) (prot + 8) s := by
  have hva : isAligned (vpn * 4096) = true := by
    rw [isAligned_iff]
    omega
  have hpa : isAligned (p * 4096) = true := by
    rw [isAligned_iff]
    omega
  unfold vmMapUserPage
  rw [hva, hpa, if_neg (by simp), rootPage_eq, hsatp, userFlags_eq hprot]

/-- A failed `vm_map_user_page` changes no memory. -/
theorem vmMapUserPage_false (h : VmInv L roots held s.alloc s.mem) (hsatp : rootPage satp = r)
    (hvpn : vpn < 1048576) (hprot : prot < 8)
    (hcall : vmMapUserPage L satp (vpn * 4096) (p * 4096) prot s = (false, s')) :
    s' = s.tick ∧ tableAt s.mem r (vpn / 1024) = none ∧ reservePages 1 s.alloc = none := by
  rw [vmMapUserPage_eq hsatp hprot] at hcall
  have := vmMapPage_false h (by omega) hcall
  rw [Nat.mul_div_cancel _ (by decide)] at this
  exact this

/-- A successful `vm_map_user_page`. -/
theorem vmMapUserPage_true (h : VmInv L roots held s.alloc s.mem) (hr : roots space = some r)
    (hspace : space ≠ none) (hsatp : rootPage satp = r) (hvpn : vpn < 1048576)
    (hp : p < 1048576) (hprot : prot < 8)
    (hnew : NewLeaf L roots s.alloc s.mem vpn (userLeaf p prot)) {w : Nat → Nat}
    (hheld : ∀ q, L.Managed q →
      w q + (if userPage (userLeaf p prot) = some q then 1 else 0) =
        held q + (if userPage (walk s.mem r vpn) = some q then 1 else 0))
    (hcall : vmMapUserPage L satp (vpn * 4096) (p * 4096) prot s = (true, s')) :
    VmInv L roots w s'.alloc s'.mem ∧ Mapped L roots space r vpn (userLeaf p prot) s s' ∧
      s'.mmu = s.tick.mmu := by
  rw [vmMapUserPage_eq hsatp hprot] at hcall
  have hvdiv : vpn * 4096 / 4096 = vpn := Nat.mul_div_cancel _ (by decide)
  have hpdiv : p * 4096 / 4096 = p := Nat.mul_div_cancel _ (by decide)
  have := vmMapPage_true h hr hspace (by omega) (by omega) (by omega)
    (by rw [hvdiv, hpdiv, entryLeaf_user hprot]; exact hnew)
    (by rw [hvdiv, hpdiv, entryLeaf_user hprot]; exact hheld) hcall
  rw [hvdiv, hpdiv, entryLeaf_user hprot] at this
  exact this

/-- `vm_unmap_user_page` of a mapped user page: its reference is now held by the
caller and the cached translations are gone. -/
theorem vmUnmapUserPage_spec (h : VmInv L roots held s.alloc s.mem) (hr : roots space = some r)
    (hsatp : rootPage satp = r) (hvpn : vpn < 1048576) {leaf : Leaf}
    (hwalk : walk s.mem r vpn = some leaf) (hU : leaf.perm &&& pteU ≠ 0) {w : Nat → Nat}
    (hmore : w leaf.ppn = held leaf.ppn + 1)
    (hother : ∀ q, q ≠ leaf.ppn → w q = held q) :
    ∃ s', vmUnmapUserPage satp (vpn * 4096) s = (true, s') ∧ s'.alloc = s.alloc ∧
      VmInv L roots w s'.alloc s'.mem ∧ Mapped L roots space r vpn none s s' ∧
      (∃ t, tableAt s.mem r (vpn / 1024) = some t ∧
        s'.mem = Mm.setEntry s.mem t (vpn % 1024) 0) ∧
      s'.mmu = { s.tick.mmu with tlb := [] } := by
  obtain ⟨t, ht⟩ := h.table_of_user hr hvpn hwalk hU
  have halign : isAligned (vpn * 4096) = true := by
    rw [isAligned_iff]
    omega
  have hcond : loadWord (s.mem r) (vpn / 1024) &&& pteV ≠ 0 ∧
      loadWord (s.mem r) (vpn / 1024) &&& pteRwx = 0 ∧
      ptePage (loadWord (s.mem r) (vpn / 1024)) = t := by
    unfold tableAt at ht
    simp only at ht
    split at ht
    · rename_i hc
      exact ⟨hc.1, hc.2, Option.some.inj ht⟩
    · cases ht
  have hcall : vmUnmapUserPage satp (vpn * 4096) s =
      (true, (s.tick.write32 (t * 4096) (vpn % 1024) 0).sfenceVma) := by
    unfold vmUnmapUserPage
    rw [halign, if_neg (by simp), rootPage_eq, hsatp, vpn1_eq (by omega), vpn0_eq]
    simp only [Phys.read32, Nat.mul_div_cancel _ (show 0 < 4096 by decide)]
    rw [if_neg hcond.1, if_neg (by rw [hcond.2.1]; simp), u32_pte_addr, hcond.2.2]
  have hpage : userPage (walk s.mem r vpn) = some leaf.ppn := by
    rw [hwalk, userPage, Option.bind_some, if_pos hU]
  obtain ⟨hinv, hmapped⟩ := VmInv.mapEntry (s := s.tick) h hr hvpn ht
    (show 0 < 4294967296 by decide) (by rw [decodeLeaf_zero]; exact NewLeaf.empty) (by
      intro q hq
      rw [decodeLeaf_zero]
      show w q + 0 = held q + (if userPage (walk s.mem r vpn) = some q then 1 else 0)
      rw [hpage]
      by_cases hq : q = leaf.ppn
      · subst hq
        simp [hmore]
      · rw [hother q hq, if_neg (fun hc => hq (Option.some.inj hc).symm)])
  rw [decodeLeaf_zero] at hmapped
  have hmem : (s.tick.write32 (t * 4096) (vpn % 1024) 0).mem =
      Mm.setEntry s.mem t (vpn % 1024) 0 := by
    simp only [Phys.write32, Phys.setPage, Nat.mul_div_cancel _ (show 0 < 4096 by decide)]
    rfl
  refine ⟨_, hcall, rfl, hinv, ?_, ⟨t, ht, hmem⟩, rfl⟩
  have hgrown : Grown L roots space r s (s.tick.write32 (t * 4096) (vpn % 1024) 0) :=
    hmapped.toGrown.of_tick
  exact ⟨⟨hgrown.page, hgrown.count_stable, hgrown.count_new, hgrown.table_other,
    hgrown.table_keep, hgrown.table_new⟩, hmapped.linked, hmapped.reserved, hmapped.walk⟩

end UserPage

/-! ## Cached translations -/

/-- Every cached translation is one the active tables give. -/
def TlbOk (s : Phys) : Prop :=
  ∀ e ∈ s.mmu.tlb, e.vpn < 1048576 ∧ hwWalk s.mem (rootPage s.mmu.satp) e.vpn = some e.leaf

theorem TlbOk.of_empty {s : Phys} (h : s.mmu.tlb = []) : TlbOk s := by
  intro e he
  rw [h] at he
  cases he

theorem TlbOk.tick {s : Phys} (h : TlbOk s) : TlbOk s.tick := by
  intro e he
  simp only [Phys.tick, List.mem_append, List.mem_filterMap, Option.map_eq_some_iff] at he
  rcases he with ⟨vpn, -, leaf, hwalk, rfl⟩ | he
  · exact ⟨vpn.isLt, hwalk⟩
  · exact h e he

theorem TlbOk.of_walk {s s' : Phys} (h : TlbOk s) (hmmu : s'.mmu = s.mmu)
    (hwalk : ∀ {vpn}, vpn < 1048576 →
      walk s'.mem (rootPage s.mmu.satp) vpn = walk s.mem (rootPage s.mmu.satp) vpn) : TlbOk s' := by
  intro e he
  rw [hmmu] at he ⊢
  obtain ⟨hlt, hleaf⟩ := h e he
  refine ⟨hlt, ?_⟩
  unfold hwWalk at hleaf ⊢
  rw [hwalk hlt]
  exact hleaf

/-- A new mapping leaves the cache right if it is in another space, if nothing
was mapped there before, or if it repeats what was there. -/
theorem TlbOk.mapped {s s' : Phys} {space space' : Space} {r vpn : Nat} {new : Option Leaf}
    (h : TlbOk s) (hmapped : Mapped L roots space r vpn new s s') (hmmu : s'.mmu = s.tick.mmu)
    (hr : roots space = some r) (hactive : roots space' = some (rootPage s.mmu.satp))
    (hold : space' ≠ space ∨ walk s.mem r vpn = none ∨ walk s.mem r vpn = new) : TlbOk s' := by
  intro e he
  rw [hmmu] at he ⊢
  obtain ⟨hlt, hwalk⟩ := h.tick e he
  refine ⟨hlt, ?_⟩
  have hsatp : s.tick.mmu.satp = s.mmu.satp := rfl
  rw [hsatp] at hwalk ⊢
  unfold hwWalk at hwalk ⊢
  rw [hmapped.walk hactive hlt]
  split
  · rename_i hsame
    obtain ⟨rfl, hvpn⟩ := hsame
    rw [hr] at hactive
    rw [← Option.some.inj hactive, Phys.tick_mem, hvpn] at hwalk
    rcases hold with hne | hnone | hsame
    · exact absurd rfl hne
    · rw [hnone] at hwalk
      cases hwalk
    · rw [← hsame]
      exact hwalk
  · exact hwalk

end Sugimotos.Mm
