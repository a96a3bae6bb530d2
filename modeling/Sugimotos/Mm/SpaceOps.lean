/-
# Elementary changes of the ownership state

Each lemma takes `VmInv` through one elementary change: handing out pages,
taking or dropping a reference, writing one entry of a second-level table,
linking a new table, adding a root, or forgetting a whole address space.  The
functions of `vm.c` and `process_vm.c` are compositions of these.
-/

import Sugimotos.Math.Outcome
import Sugimotos.Mm.Spaces

namespace Sugimotos.Mm

open Sugimotos.Math

variable {L : Layout} {roots : Space → Option Nat} {held : Nat → Nat} {a : Allocator}
  {mem : Memory}

/-! ## Changes of the counts -/

/-- A page that is no page table and that nobody can write to. -/
structure Loose (roots : Space → Option Nat) (mem : Memory) (p : Nat) : Prop where
  noTable : VmInv.NoTable roots mem p
  noWriter : ∀ {space r vpn leaf}, roots space = some r → vpn < 1048576 →
    walk mem r vpn = some leaf → leaf.perm &&& pteU ≠ 0 → leaf.perm &&& pteW ≠ 0 → leaf.ppn ≠ p

namespace VmInv

theorem target_leaf {space : Space} {r vpn : Nat} {leaf : Leaf} (hr : roots space = some r)
    (hvpn : vpn < 1048576) (hwalk : walk mem r vpn = some leaf) (hU : leaf.perm &&& pteU ≠ 0) :
    target roots mem (.leaf space ⟨vpn, hvpn⟩) = some leaf.ppn := by
  simp [target, hr, hwalk, userPage, hU]

theorem loose_of_refcnt_zero (h : VmInv L roots held a mem) {p : Nat} (hp : L.Managed p)
    (hzero : refcntOf L a p = 0) : Loose roots mem p := by
  refine ⟨h.noTable_of_refcnt_zero hp hzero, ?_⟩
  rintro space r vpn leaf hr hvpn hwalk hU hW rfl
  exact h.target_ne_of_refcnt_zero hp hzero _ (target_leaf hr hvpn hwalk hU)

theorem loose_of_held (h : VmInv L roots held a mem) {p : Nat} (hp : L.Managed p)
    (hheld : 0 < held p) : Loose roots mem p := by
  refine ⟨h.noTable_of_held hp hheld, ?_⟩
  rintro space r vpn leaf hr hvpn hwalk hU hW rfl
  have hone := h.write_single hr hvpn hwalk hU hW hp
  have := h.held_zero_of_single hp hone (target_leaf hr hvpn hwalk hU)
  omega

/-- New counts and new held references, as long as every page whose numbers
change is loose and balances afterwards. -/
theorem change_counts (h : VmInv L roots held a mem) {a' : Allocator} {w : Nat → Nat}
    (hinv : a'.Inv L)
    (hcounts : ∀ p, L.Managed p →
      (refcntOf L a' p = refcntOf L a p ∧ w p = held p) ∨
        (Loose roots mem p ∧
          (refcntOf L a' p = refs (target roots mem) p + w p ∨
            (refs (target roots mem) p = 0 ∧ w p = 0 ∧ refcntOf L a' p ≤ 2)))) :
    VmInv L roots w a' mem := by
  refine ⟨hinv, h.root_managed, h.table_managed, h.superpage, h.kernel_flat, ?_, ?_, ?_, ?_,
    h.same_vpn⟩
  · intro p hp
    rcases hcounts p hp with ⟨hcount, hheld⟩ | ⟨-, hacc⟩
    · rw [hcount, hheld]
      exact h.account hp
    · exact hacc
  · intro space p ht
    rcases hcounts p (h.managed_of_root ht) with ⟨hcount, -⟩ | ⟨hloose, -⟩
    · rw [hcount]
      exact h.root_single ht
    · exact absurd ht (hloose.noTable.1 space)
  · intro space k p ht
    rcases hcounts p (h.managed_of_table ht) with ⟨hcount, -⟩ | ⟨hloose, -⟩
    · rw [hcount]
      exact h.table_single ht
    · exact absurd ht (hloose.noTable.2 space k)
  · intro space r vpn leaf hr hvpn hwalk hU hW hm
    rcases hcounts leaf.ppn hm with ⟨hcount, -⟩ | ⟨hloose, -⟩
    · rw [hcount]
      exact h.write_single hr hvpn hwalk hU hW hm
    · exact absurd rfl (hloose.noWriter hr hvpn hwalk hU hW)

/-- Give up one held reference without touching its count: the page is lost. -/
theorem forget (h : VmInv L roots held a mem) {w : Nat → Nat} {p : Nat} (hp : L.Managed p)
    (hloose : Loose roots mem p) (hrefs : refs (target roots mem) p = 0)
    (hcount : refcntOf L a p ≤ 2) (hzero : w p = 0) (hother : ∀ q, q ≠ p → w q = held q) :
    VmInv L roots w a mem := by
  refine h.change_counts h.alloc fun q hq => ?_
  by_cases hqp : q = p
  · subst hqp
    exact .inr ⟨hloose, .inr ⟨hrefs, hzero, hcount⟩⟩
  · exact .inl ⟨rfl, hother q hqp⟩

end VmInv

/-- A block of `n` pages from page `q` on. -/
def inBlock (q n p : Nat) : Prop := q ≤ p ∧ p < q + n

instance (q n p : Nat) : Decidable (inBlock q n p) := inferInstanceAs (Decidable (_ ∧ _))

/-- A failed allocation changes nothing. -/
theorem allocPagesTry_none {n : Nat} {s s' : Phys} (h : s.alloc.Inv L)
    (halloc : allocPagesTry L n s = (none, s')) : s' = s ∧ (n = 0 ∨ reservePages n s.alloc = none) := by
  unfold allocPagesTry at halloc
  cases hmeta : allocPagesMeta L n s.alloc with
  | mk result b =>
      cases result with
      | none =>
          obtain ⟨rfl, hwhy⟩ := allocPagesMeta_none h hmeta
          simp only [hmeta, Prod.mk.injEq, true_and] at halloc
          exact ⟨halloc.symm, hwhy⟩
      | some paddr => simp [hmeta] at halloc

/-- What a successful allocation of `n` pages gives: a block of pages nobody
referred to, now of count one, zero-filled; nothing else changes. -/
structure Allocated (L : Layout) (q n : Nat) (s s' : Phys) : Prop where
  pos : 0 < n
  reserved : reservePages n s.alloc ≠ none
  managed : ∀ p, inBlock q n p → L.Managed p
  wasFree : ∀ p, inBlock q n p → refcntOf L s.alloc p = 0
  below : (q + n) * 4096 ≤ s.alloc.metaTop
  inv : s'.alloc.Inv L
  count : ∀ p, L.Managed p →
    refcntOf L s'.alloc p = if inBlock q n p then 1 else refcntOf L s.alloc p
  mem : ∀ p, s'.mem p = if inBlock q n p then zeroPage else s.mem p
  mmu : s'.mmu = s.mmu

theorem allocPagesMeta_reserved (h : a.Inv L) {n paddr : Nat} {b : Allocator}
    (halloc : allocPagesMeta L n a = (some paddr, b)) : reservePages n a ≠ none := by
  intro hnone
  rw [allocPagesMeta, initAllocatorIfNeeded_of_inv h] at halloc
  simp only [hnone] at halloc
  split at halloc <;> cases halloc

theorem allocPagesTry_some {n paddr : Nat} {s s' : Phys} (h : s.alloc.Inv L) (hn : n < 1048576)
    (halloc : allocPagesTry L n s = (some paddr, s')) :
    ∃ q, paddr = q * 4096 ∧ Allocated L q n s s' := by
  unfold allocPagesTry at halloc
  cases hmeta : allocPagesMeta L n s.alloc with
  | mk result b =>
      cases result with
      | none => simp [hmeta] at halloc
      | some p =>
          simp only [hmeta, Prod.mk.injEq, Option.some.injEq] at halloc
          obtain ⟨rfl, rfl⟩ := halloc
          obtain ⟨hinv, hpos, -, k, rfl, hblock, hcount⟩ := allocPagesMeta_some h hn hmeta
          have hbound := hblock.bound
          have hfree := L.freePage_mul
          refine ⟨L.freePage + k, by unfold pageAddr; omega, hpos, allocPagesMeta_reserved h hmeta,
            ?_, ?_, ?_, hinv, ?_, ?_, rfl⟩
          · intro p hp
            unfold inBlock at hp
            unfold Layout.Managed
            omega
          · intro p hp
            unfold inBlock at hp
            exact hblock.free _ (by omega) (by omega)
          · have := hblock.fits
            unfold pageAddr at this
            omega
          · intro p hp
            unfold Layout.Managed at hp
            show b.pageRefcnt (p - L.freePage) = _
            simp only [hcount]
            by_cases hin : inBlock (L.freePage + k) n p
            · rw [if_pos hin]
              unfold inBlock at hin
              rw [if_pos (by omega)]
            · rw [if_neg hin]
              unfold inBlock at hin
              rw [if_neg (by omega)]
              rfl
          · intro p
            have hbytes : u32 (n * pageSize) = n * 4096 := u32_of_lt (by unfold pageSize; omega)
            simp only [zeroPages, hbytes]
            by_cases hin : inBlock (L.freePage + k) n p
            · rw [if_pos hin]
              unfold inBlock at hin
              unfold pageAddr
              rw [if_pos (by omega)]
            · rw [if_neg hin]
              unfold inBlock at hin
              unfold pageAddr
              rw [if_neg (by omega)]

namespace VmInv

/-- Pages just handed out are held by the caller. -/
theorem allocate {s s' : Phys} {q n : Nat} (h : VmInv L roots held s.alloc s.mem)
    (halloc : Allocated L q n s s') :
    SameTables roots s.mem s'.mem ∧
      VmInv L roots (fun p => held p + if inBlock q n p then 1 else 0) s'.alloc s'.mem := by
  have hsame : SameTables roots s.mem s'.mem := by
    intro space r hr
    refine ⟨?_, fun k hk t ht => ?_⟩ <;> rw [halloc.mem] <;> refine if_neg fun hin => ?_
    · exact h.target_ne_of_refcnt_zero (halloc.managed r hin) (halloc.wasFree r hin) (.root space) hr
    · refine h.target_ne_of_refcnt_zero (halloc.managed t hin) (halloc.wasFree t hin)
        (.table space ⟨k, hk⟩) ?_
      simp [target, hr, ht]
  refine ⟨hsame, VmInv.congr_mem ?_ hsame⟩
  refine h.change_counts halloc.inv fun p hp => ?_
  rw [halloc.count p hp]
  by_cases hin : inBlock q n p
  · have hzero := halloc.wasFree p hin
    have hle := h.refs_le hp
    refine .inr ⟨h.loose_of_refcnt_zero hp hzero, .inl ?_⟩
    simp only [if_pos hin]
    omega
  · rw [if_neg hin]
    refine .inl ⟨rfl, ?_⟩
    rw [if_neg hin, Nat.add_zero]

end VmInv

/-- The effect of dropping one reference to page `p` on the counts: one less, or
the page is lost because the allocator has no list node for it. -/
def Dropped (L : Layout) (p : Nat) (a a' : Allocator) : Prop :=
  a'.Inv L ∧
    ((∀ q, L.Managed q →
        refcntOf L a' q = if q = p then refcntOf L a p - 1 else refcntOf L a q) ∨
      (refcntOf L a p = 1 ∧ NoNode a ∧ a' = { a with freeMetaOomWarned := true }))

theorem dropRef_page {p : Nat} (h : a.Inv L) (hp : L.Managed p) (hpos : refcntOf L a p ≠ 0) :
    Outcome (dropRef (p * 4096) (p - L.freePage) a) (Dropped L p a) (fun _ => False) := by
  obtain ⟨haddr, hidx⟩ := hp.addr
  rw [haddr]
  refine (dropRef_spec h hidx hpos).imp fun a' hdrop => ⟨hdrop.1, ?_⟩
  rcases hdrop.2 with ⟨hcount, -⟩ | hleak
  · left
    intro q hq
    unfold refcntOf
    rw [hcount]
    by_cases hqp : q = p
    · subst hqp
      simp
    · rw [if_neg hqp, Function.update_of_ne]
      unfold Layout.Managed at hp hq
      omega
  · exact .inr hleak

theorem freePages_page {p : Nat} (h : a.Inv L) (hp : L.Managed p) (hpos : refcntOf L a p ≠ 0) :
    freePages L (p * 4096) 1 a = dropRef (p * 4096) (p - L.freePage) a := by
  obtain ⟨haddr, hidx⟩ := hp.addr
  rw [haddr]
  exact freePages_pageAddr_one h hidx hpos

theorem pageDecRef_page {p : Nat} (h : a.Inv L) (hp : L.Managed p) (hpos : refcntOf L a p ≠ 0) :
    pageDecRef L (p * 4096) a = dropRef (p * 4096) (p - L.freePage) a := by
  obtain ⟨haddr, hidx⟩ := hp.addr
  rw [haddr]
  exact pageDecRef_pageAddr h hidx hpos

/-- Unmanaged pages are not counted. -/
theorem pageIdxIfManaged_unmanaged {p : Nat} (h : a.Inv L) (hp : ¬ L.Managed p) :
    pageIdxIfManaged L a (p * 4096) = none := by
  by_contra hsome
  obtain ⟨i, hi⟩ := Option.ne_none_iff_exists'.mp hsome
  obtain ⟨hlt, haddr⟩ := (pageIdxIfManaged_eq_some h.count).mp hi
  obtain ⟨haddr', hm⟩ := pageAddr_page (L := L) hlt
  rw [haddr'] at haddr
  have : p = L.freePage + i := by omega
  exact hp (this ▸ hm)

theorem pageDecRef_unmanaged {p : Nat} (h : a.Inv L) (hp : ¬ L.Managed p) :
    pageDecRef L (p * 4096) a = .ok a := by
  simp [pageDecRef, initAllocatorIfNeeded_of_inv h, pageIdxIfManaged_unmanaged h hp]

theorem pageIncRef_unmanaged {p : Nat} (h : a.Inv L) (hp : ¬ L.Managed p) :
    pageIncRef L (p * 4096) a = .ok a := by
  simp [pageIncRef, initAllocatorIfNeeded_of_inv h, pageIdxIfManaged_unmanaged h hp]

/-- Freeing a page outside managed memory stops the kernel. -/
theorem freePages_unmanaged {p : Nat} (h : a.Inv L) (hp : ¬ L.Managed p) :
    freePages L (p * 4096) 1 a = .error .freeOutOfManagedRange := by
  have halign : isAligned (p * 4096) = true := by
    rw [isAligned_iff]
    omega
  have hrange : p * 4096 < L.freeRam ∨ L.freeRamEnd < p * 4096 + 1 * pageSize := by
    have := L.freePage_mul
    unfold Layout.Managed at hp
    unfold Layout.freeRamEnd pageSize
    omega
  simp only [freePages, initAllocatorIfNeeded_of_inv h, halign, if_pos hrange]
  rfl

namespace VmInv

/-- Dropping a held reference. -/
theorem drop (h : VmInv L roots held a mem) {p : Nat} (hp : L.Managed p) (hheld : 0 < held p)
    {w : Nat → Nat} (hless : w p = held p - 1) (hother : ∀ q, q ≠ p → w q = held q)
    {a' : Allocator} (hdrop : Dropped L p a a') : VmInv L roots w a' mem := by
  have hle := h.refs_le hp
  have hloose := h.loose_of_held hp hheld
  obtain ⟨hinv, hcount | ⟨hone, -, rfl⟩⟩ := hdrop
  · refine h.change_counts hinv fun q hq => ?_
    rw [hcount q hq]
    by_cases hqp : q = p
    · subst hqp
      refine .inr ⟨hloose, .inl ?_⟩
      rcases h.account hp with hacc | ⟨-, hzero, -⟩
      · rw [if_pos rfl]
        omega
      · omega
    · rw [if_neg hqp]
      exact .inl ⟨rfl, hother q hqp⟩
  · refine h.change_counts hinv fun q hq => ?_
    by_cases hqp : q = p
    · subst hqp
      refine .inr ⟨hloose, .inr ⟨by omega, by omega, ?_⟩⟩
      show refcntOf L a q ≤ 2
      omega
    · exact .inl ⟨rfl, hother q hqp⟩

/-- `free_pages` of a held page. -/
theorem freePages (h : VmInv L roots held a mem) {p : Nat} (hp : L.Managed p)
    (hheld : 0 < held p) {w : Nat → Nat} (hless : w p = held p - 1)
    (hother : ∀ q, q ≠ p → w q = held q) :
    Outcome (freePages L (p * 4096) 1 a)
      (fun a' => VmInv L roots w a' mem ∧ Dropped L p a a') (fun _ => False) := by
  have hle := h.refs_le hp
  rw [freePages_page h.alloc hp (by omega)]
  exact (dropRef_page h.alloc hp (by omega)).imp fun a' hdrop =>
    ⟨h.drop hp hheld hless hother hdrop, hdrop⟩

/-- `page_dec_ref` of a held page. -/
theorem pageDecRef (h : VmInv L roots held a mem) {p : Nat} (hp : L.Managed p)
    (hheld : 0 < held p) {w : Nat → Nat} (hless : w p = held p - 1)
    (hother : ∀ q, q ≠ p → w q = held q) :
    Outcome (pageDecRef L (p * 4096) a)
      (fun a' => VmInv L roots w a' mem ∧ Dropped L p a a') (fun _ => False) := by
  have hle := h.refs_le hp
  rw [pageDecRef_page h.alloc hp (by omega)]
  exact (dropRef_page h.alloc hp (by omega)).imp fun a' hdrop =>
    ⟨h.drop hp hheld hless hother hdrop, hdrop⟩

/-- `page_inc_ref` of a loose page in use: the new reference is held. -/
theorem pageIncRef (h : VmInv L roots held a mem) {p : Nat} (hp : L.Managed p)
    (hloose : Loose roots mem p) (hpos : 0 < refs (target roots mem) p + held p)
    (hfew : held p ≤ 2) {w : Nat → Nat} (hmore : w p = held p + 1)
    (hother : ∀ q, q ≠ p → w q = held q) :
    Outcome (pageIncRef L (p * 4096) a)
      (fun a' => VmInv L roots w a' mem ∧ a'.freeRuns = a.freeRuns ∧
        ∀ q, L.Managed q → refcntOf L a' q = refcntOf L a q + if q = p then 1 else 0) (fun _ => False) := by
  obtain ⟨haddr, hidx⟩ := hp.addr
  have hrefs := h.refs_le_spaces hp hloose.noTable.1 hloose.noTable.2
  have hcount : refcntOf L a p = refs (target roots mem) p + held p := by
    rcases h.account hp with hacc | ⟨hz, hz', -⟩
    · exact hacc
    · omega
  rw [haddr]
  refine (pageIncRef_spec h.alloc hidx (by unfold refcntOf at hcount; omega)
    (by unfold refcntOf at hcount; omega)).imp ?_
  rintro a' ⟨hinv, ha'⟩
  have hnew : ∀ q, L.Managed q →
      refcntOf L a' q = refcntOf L a q + if q = p then 1 else 0 := by
    intro q hq
    rw [ha']
    unfold refcntOf
    by_cases hqp : q = p
    · subst hqp
      simp
    · have hidx : q - L.freePage ≠ p - L.freePage := by
        unfold Layout.Managed at hp hq
        omega
      rw [if_neg hqp, Nat.add_zero]
      exact Function.update_of_ne hidx _ _
  refine ⟨h.change_counts hinv fun q hq => ?_, by rw [ha'], hnew⟩
  rw [hnew q hq]
  by_cases hqp : q = p
  · subst hqp
    refine .inr ⟨hloose, .inl ?_⟩
    rw [if_pos rfl]
    omega
  · rw [if_neg hqp]
    exact .inl ⟨rfl, hother q hqp⟩

end VmInv

/-! ## Changes of one site -/

namespace VmInv

/-- The accounting when one site changes its page and the references held by the
kernel make up for the difference. -/
theorem account_change (h : VmInv L roots held a mem) {roots' : Space → Option Nat}
    {mem' : Memory} {w : Nat → Nat} {site : Site}
    (hother : ∀ other, other ≠ site → target roots' mem' other = target roots mem other)
    {p : Nat} (hp : L.Managed p)
    (hheld : w p + (if target roots' mem' site = some p then 1 else 0) =
      held p + (if target roots mem site = some p then 1 else 0)) :
    refcntOf L a p = refs (target roots' mem') p + w p ∨
      (refs (target roots' mem') p = 0 ∧ w p = 0 ∧ refcntOf L a p ≤ 2) := by
  have hchange := refs_change hother p
  rcases h.account hp with hacc | ⟨hrefs, hzero, hsmall⟩
  · left
    omega
  · right
    have hold : target roots mem site ≠ some p := refs_eq_zero.mp hrefs site
    rw [if_neg hold] at hchange hheld
    omega

end VmInv

/-- One entry of the table in page `t` is overwritten. -/
def setEntry (mem : Memory) (t i word : Nat) : Memory :=
  Function.update mem t (storeWord (mem t) i word)

section SetEntry

variable {space : Space} {r t vpn word : Nat}

theorem setEntry_root (h : Apart roots mem) (hr : roots space = some r)
    (hvpn : vpn < 1048576) (ht : tableAt mem r (vpn / 1024) = some t) (i : Nat) {space' : Space}
    {r' : Nat} (hr' : roots space' = some r') : setEntry mem t i word r' = mem r' := by
  apply Function.update_of_ne
  rintro rfl
  exact h.notRoot hr (by omega) ht space' hr'

/-- Overwriting an entry of a linked table changes one translation. -/
theorem walk_setEntry (h : Apart roots mem) (hr : roots space = some r)
    (hvpn : vpn < 1048576) (ht : tableAt mem r (vpn / 1024) = some t) (hword : word < 4294967296)
    {space' : Space} {r' vpn' : Nat} (hr' : roots space' = some r') (hvpn' : vpn' < 1048576) :
    walk (setEntry mem t (vpn % 1024) word) r' vpn' =
      if space' = space ∧ vpn' = vpn then decodeLeaf word else walk mem r' vpn' := by
  have hroot : setEntry mem t (vpn % 1024) word r' = mem r' :=
    setEntry_root h hr hvpn ht (vpn % 1024) hr'
  by_cases hsame : space' = space ∧ vpn' / 1024 = vpn / 1024
  · obtain ⟨rfl, hk⟩ := hsame
    have hrr : r' = r := by
      rw [hr] at hr'
      exact (Option.some.inj hr').symm
    subst hrr
    rw [walk_of_table (t := t) (by rw [tableAt_congr hroot, hk]; exact ht),
      walk_of_table (t := t) (by rw [hk]; exact ht)]
    unfold setEntry
    rw [Function.update_self]
    by_cases hj : vpn' % 1024 = vpn % 1024
    · have heq : vpn' = vpn := by omega
      rw [if_pos ⟨rfl, heq⟩, hj, loadWord_storeWord_self, Nat.mod_eq_of_lt hword]
    · rw [loadWord_storeWord_of_ne _ _ hj, if_neg]
      rintro ⟨-, rfl⟩
      exact hj rfl
  · rw [if_neg]
    · apply walk_congr hroot
      intro t' ht'
      apply Function.update_of_ne
      rintro rfl
      exact hsame (h.table hr hr' (by omega) (by omega) ht ht')
    · rintro ⟨rfl, rfl⟩
      exact hsame ⟨rfl, rfl⟩

theorem target_setEntry_of_ne (h : VmInv L roots held a mem) (hr : roots space = some r)
    (hvpn : vpn < 1048576) (ht : tableAt mem r (vpn / 1024) = some t) (hword : word < 4294967296)
    {site : Site} (hsite : site ≠ .leaf space ⟨vpn, hvpn⟩) :
    target roots (setEntry mem t (vpn % 1024) word) site = target roots mem site := by
  cases site with
  | root space' => rfl
  | table space' k =>
      cases hr' : roots space' with
      | none => simp [target, hr']
      | some r' =>
          simp only [target, hr', Option.bind_some]
          rw [tableAt_congr (setEntry_root h.apart hr hvpn ht _ hr')]
  | leaf space' vpn' =>
      cases hr' : roots space' with
      | none => simp [target, hr']
      | some r' =>
          simp only [target, hr', Option.bind_some]
          rw [walk_setEntry h.apart hr hvpn ht hword hr' vpn'.isLt, if_neg]
          rintro ⟨rfl, rfl⟩
          exact hsite rfl

theorem target_setEntry_self (h : VmInv L roots held a mem) (hr : roots space = some r)
    (hvpn : vpn < 1048576) (ht : tableAt mem r (vpn / 1024) = some t) (hword : word < 4294967296) :
    target roots (setEntry mem t (vpn % 1024) word) (.leaf space ⟨vpn, hvpn⟩) =
      userPage (decodeLeaf word) := by
  simp only [target, hr, Option.bind_some]
  rw [walk_setEntry h.apart hr hvpn ht hword hr hvpn, if_pos ⟨rfl, rfl⟩]

/-- What must hold of a new translation for `vpn`: other user leaves of the same
page are at the same virtual page, and a page exposed for writing has one
reference. -/
structure NewLeaf (L : Layout) (roots : Space → Option Nat) (a : Allocator) (mem : Memory)
    (vpn : Nat) (new : Option Leaf) : Prop where
  same_vpn : ∀ {space' vpn' p}, L.Managed p → userPage new = some p →
    target roots mem (.leaf space' vpn') = some p → vpn'.val = vpn
  write_single : ∀ {leaf}, new = some leaf → leaf.perm &&& pteU ≠ 0 → leaf.perm &&& pteW ≠ 0 →
    L.Managed leaf.ppn → refcntOf L a leaf.ppn = 1

theorem NewLeaf.empty {a : Allocator} {mem : Memory} {vpn : Nat} :
    NewLeaf L roots a mem vpn none := by
  refine ⟨fun _ hnew => ?_, fun hnew => ?_⟩
  · cases hnew
  · cases hnew

theorem VmInv.setEntry (h : VmInv L roots held a mem) (hr : roots space = some r)
    (hvpn : vpn < 1048576) (ht : tableAt mem r (vpn / 1024) = some t) (hword : word < 4294967296)
    (hnew : NewLeaf L roots a mem vpn (decodeLeaf word)) {w : Nat → Nat}
    (hheld : ∀ p, L.Managed p →
      w p + (if userPage (decodeLeaf word) = some p then 1 else 0) =
        held p + (if userPage (walk mem r vpn) = some p then 1 else 0)) :
    VmInv L roots w a (setEntry mem t (vpn % 1024) word) := by
  have hroot : ∀ {space' r'}, roots space' = some r' →
      Mm.setEntry mem t (vpn % 1024) word r' = mem r' :=
    fun hr' => setEntry_root h.apart hr hvpn ht _ hr'
  have hself := target_setEntry_self h hr hvpn ht hword
  have hold : target roots mem (.leaf space ⟨vpn, hvpn⟩) = userPage (walk mem r vpn) := by
    simp [target, hr]
  have hother : ∀ {site}, site ≠ .leaf space ⟨vpn, hvpn⟩ →
      target roots (Mm.setEntry mem t (vpn % 1024) word) site = target roots mem site :=
    fun hsite => target_setEntry_of_ne h hr hvpn ht hword hsite
  refine ⟨h.alloc, h.root_managed, ?_, ?_, ?_, ?_, ?_, ?_, ?_, ?_⟩
  · intro space' r' k t' hr' hk ht'
    rw [tableAt_congr (hroot hr')] at ht'
    exact h.table_managed hr' hk ht'
  · intro space' r' k hr' hk
    rw [hroot hr']
    exact h.superpage hr' hk
  · intro r' k hr' hk
    rw [tableAt_congr (hroot hr')]
    exact h.kernel_flat hr' hk
  · intro p hp
    refine h.account_change (fun other hne => hother hne) hp ?_
    rw [hself, hold]
    exact hheld p hp
  · intro space' p htarget
    rw [hother (by rintro ⟨⟩)] at htarget
    exact h.root_single htarget
  · intro space' k p htarget
    rw [hother (by rintro ⟨⟩)] at htarget
    exact h.table_single htarget
  · intro space' r' vpn' leaf hr' hvpn' hwalk hU hW hm
    rw [walk_setEntry h.apart hr hvpn ht hword hr' hvpn'] at hwalk
    split at hwalk
    · exact hnew.write_single hwalk hU hW hm
    · exact h.write_single hr' hvpn' hwalk hU hW hm
  · intro space₁ space₂ vpn₁ vpn₂ p hp h₁ h₂
    by_cases hs₁ : Site.leaf space₁ vpn₁ = .leaf space ⟨vpn, hvpn⟩
    · rw [hs₁, hself] at h₁
      by_cases hs₂ : Site.leaf space₂ vpn₂ = .leaf space ⟨vpn, hvpn⟩
      · simp only [Site.leaf.injEq] at hs₁ hs₂
        rw [hs₁.2, hs₂.2]
      · rw [hother hs₂] at h₂
        simp only [Site.leaf.injEq] at hs₁
        rw [hs₁.2]
        exact Fin.ext (hnew.same_vpn hp h₁ h₂).symm
    · rw [hother hs₁] at h₁
      by_cases hs₂ : Site.leaf space₂ vpn₂ = .leaf space ⟨vpn, hvpn⟩
      · rw [hs₂, hself] at h₂
        simp only [Site.leaf.injEq] at hs₂
        rw [hs₂.2]
        exact Fin.ext (hnew.same_vpn hp h₂ h₁)
      · rw [hother hs₂] at h₂
        exact h.same_vpn hp h₁ h₂

end SetEntry

end Sugimotos.Mm
