/-
# Address spaces and who owns which page

The page tables of all processes and of the kernel live in the same memory as
the pages they map.  This module states the ownership discipline that keeps them
apart.  A *site* is a place that refers to a physical page: a root register, a
link to a second-level table, or a user leaf entry.  `VmInv` says that the
reference count of every managed page equals the number of sites that refer to
it plus the references `held` by code in progress (or that the page is lost and
nothing refers to it any more), and that a page table, like a page somebody can
write to, has exactly one reference.

Everything else about address spaces is derived from this accounting.
-/

import Sugimotos.Math.RefCount
import Sugimotos.Math.Ring
import Sugimotos.Mm.PageAllocInv
import Sugimotos.Mm.Pte
import Mathlib.Data.Fintype.Option
import Mathlib.Data.Fintype.Sigma
import Mathlib.Data.Fintype.Sum
import Mathlib.Tactic.DeriveFintype

namespace Sugimotos.Mm

open Sugimotos.Math

/-- `PROC_MAX`. -/
abbrev procMax : Nat := 8

/-- The kernel's address space, or that of the process in a slot. -/
abbrev Space := Option (Fin procMax)

/-- The second-level table linked behind word `k` of the root in page `root`. -/
def tableAt (mem : Memory) (root k : Nat) : Option Nat :=
  let pte1 := loadWord (mem root) k
  if pte1 &&& pteV ≠ 0 ∧ pte1 &&& pteRwx = 0 then some (ptePage pte1) else none

/-- The page a translation exposes to user mode. -/
def userPage (leaf : Option Leaf) : Option Nat :=
  leaf.bind fun l => if l.perm &&& pteU ≠ 0 then some l.ppn else none

/-- The places that refer to physical pages. -/
inductive Site
  | root (space : Space)
  | table (space : Space) (k : Fin 1024)
  | leaf (space : Space) (vpn : Fin 1048576)
  deriving DecidableEq, Fintype

/-- The page a site refers to. -/
def target (roots : Space → Option Nat) (mem : Memory) : Site → Option Nat
  | .root space => roots space
  | .table space k => (roots space).bind fun r => tableAt mem r k
  | .leaf space vpn => (roots space).bind fun r => userPage (walk mem r vpn)

variable (L : Layout)

/-- The reference count of a physical page. -/
def refcntOf (a : Allocator) (p : Nat) : Nat := a.pageRefcnt (p - L.freePage)

/-- Ownership of physical pages.  `held` counts the references that only a
running kernel function has. -/
structure VmInv (roots : Space → Option Nat) (held : Nat → Nat) (a : Allocator) (mem : Memory) :
    Prop where
  alloc : a.Inv L
  root_managed : ∀ {space r}, roots space = some r → L.Managed r
  table_managed : ∀ {space r k t}, roots space = some r → k < 1024 →
    tableAt mem r k = some t → L.Managed t
  /-- Leaves in a root are kernel mappings of aligned 4 MiB. -/
  superpage : ∀ {space r k}, roots space = some r → k < 1024 →
    loadWord (mem r) k &&& pteV ≠ 0 → loadWord (mem r) k &&& pteRwx ≠ 0 →
    loadWord (mem r) k &&& pteU = 0 ∧ ptePage (loadWord (mem r) k) % 1024 = 0
  kernel_flat : ∀ {r k}, roots none = some r → k < 1024 → tableAt mem r k = none
  account : ∀ {p}, L.Managed p →
    refcntOf L a p = refs (target roots mem) p + held p ∨
      (refs (target roots mem) p = 0 ∧ held p = 0 ∧ refcntOf L a p ≤ 2)
  root_single : ∀ {space p}, target roots mem (.root space) = some p → refcntOf L a p = 1
  table_single : ∀ {space k p}, target roots mem (.table space k) = some p →
    refcntOf L a p = 1
  write_single : ∀ {space r vpn leaf}, roots space = some r → vpn < 1048576 →
    walk mem r vpn = some leaf → leaf.perm &&& pteU ≠ 0 → leaf.perm &&& pteW ≠ 0 →
    L.Managed leaf.ppn → refcntOf L a leaf.ppn = 1
  same_vpn : ∀ {space space' vpn vpn' p}, L.Managed p →
    target roots mem (.leaf space vpn) = some p → target roots mem (.leaf space' vpn') = some p →
    vpn = vpn'

variable {L} {roots : Space → Option Nat} {held : Nat → Nat} {a : Allocator} {mem : Memory}

/-! ## Pages and indices -/

theorem Layout.Managed.addr {p : Nat} (h : L.Managed p) :
    p * 4096 = pageAddr L (p - L.freePage) ∧ p - L.freePage < 8192 := by
  have := L.freePage_mul
  unfold Layout.Managed at h
  unfold pageAddr
  omega

theorem Layout.Managed.lt {p : Nat} (h : L.Managed p) : p < 1048576 := by
  have := L.freePage_mul
  have := L.freeRam_fits
  unfold Layout.Managed at h
  omega

theorem pageAddr_page {i : Nat} (hi : i < 8192) :
    pageAddr L i = (L.freePage + i) * 4096 ∧ L.Managed (L.freePage + i) := by
  have := L.freePage_mul
  unfold pageAddr Layout.Managed
  omega

/-! ## What the accounting implies -/

namespace VmInv

theorem refs_le (h : VmInv L roots held a mem) {p : Nat} (hp : L.Managed p) :
    refs (target roots mem) p + held p ≤ refcntOf L a p := by
  rcases h.account hp with heq | ⟨hrefs, hheld, -⟩
  · omega
  · omega

/-- A page with count zero is referred to by nothing. -/
theorem target_ne_of_refcnt_zero (h : VmInv L roots held a mem) {p : Nat} (hp : L.Managed p)
    (hzero : refcntOf L a p = 0) (site : Site) : target roots mem site ≠ some p := by
  have hle := h.refs_le hp
  exact refs_eq_zero.mp (by omega) site

theorem managed_of_root (h : VmInv L roots held a mem) {space : Space} {p : Nat}
    (ht : target roots mem (.root space) = some p) : L.Managed p := h.root_managed ht

theorem managed_of_table (h : VmInv L roots held a mem) {space : Space} {k : Fin 1024} {p : Nat}
    (ht : target roots mem (.table space k) = some p) : L.Managed p := by
  simp only [target, Option.bind_eq_some_iff] at ht
  obtain ⟨r, hr, ht⟩ := ht
  exact h.table_managed hr k.isLt ht

/-- A page of count one has one reference, in a site or held. -/
theorem site_unique (h : VmInv L roots held a mem) {p : Nat} (hp : L.Managed p)
    (hone : refcntOf L a p = 1) {first second : Site} (hfirst : target roots mem first = some p)
    (hsecond : target roots mem second = some p) : first = second := by
  have hle := h.refs_le hp
  exact site_unique_of_refs_le_one (by omega) hfirst hsecond

theorem held_zero_of_single (h : VmInv L roots held a mem) {p : Nat} (hp : L.Managed p)
    (hone : refcntOf L a p = 1) {site : Site} (hsite : target roots mem site = some p) :
    held p = 0 := by
  have hle := h.refs_le hp
  have hpos := refs_pos hsite
  omega

/-- A root page is nobody's table and nobody else's root. -/
theorem root_unique (h : VmInv L roots held a mem) {space : Space} {r : Nat}
    (hr : roots space = some r) (site : Site) (hsite : target roots mem site = some r) :
    site = .root space :=
  h.site_unique (h.root_managed hr) (h.root_single hr) hsite hr

/-- A second-level table is linked in one place only. -/
theorem table_unique (h : VmInv L roots held a mem) {space : Space} {r k t : Nat}
    (hr : roots space = some r) (hk : k < 1024) (ht : tableAt mem r k = some t) (site : Site)
    (hsite : target roots mem site = some t) : site = .table space ⟨k, hk⟩ := by
  have htable : target roots mem (.table space ⟨k, hk⟩) = some t := by
    simp [target, hr, ht]
  exact h.site_unique (h.table_managed hr hk ht) (h.table_single htable) hsite htable

theorem root_injective (h : VmInv L roots held a mem) {space space' : Space} {r : Nat}
    (hr : roots space = some r) (hr' : roots space' = some r) : space' = space := by
  have := h.root_unique hr (.root space') hr'
  simpa using this

/-- A user leaf never exposes a root or a second-level table. -/
theorem leaf_not_root (h : VmInv L roots held a mem) {space : Space} {r : Nat}
    (hr : roots space = some r) {space' : Space} {vpn : Fin 1048576} :
    target roots mem (.leaf space' vpn) ≠ some r := by
  intro ht
  have := h.root_unique hr _ ht
  cases this

/-- A managed page somebody can write to through a user leaf is mapped by that
leaf alone. -/
theorem write_unique (h : VmInv L roots held a mem) {space : Space} {r : Nat}
    (vpn : Fin 1048576) {leaf : Leaf} (hr : roots space = some r)
    (hwalk : walk mem r vpn = some leaf) (hU : leaf.perm &&& pteU ≠ 0)
    (hW : leaf.perm &&& pteW ≠ 0) (hm : L.Managed leaf.ppn) {site : Site}
    (hsite : target roots mem site = some leaf.ppn) : site = .leaf space vpn := by
  have hleaf : target roots mem (.leaf space vpn) = some leaf.ppn := by
    simp [target, hr, hwalk, userPage, hU]
  exact h.site_unique hm (h.write_single hr vpn.isLt hwalk hU hW hm) hsite hleaf

/-- A page that is no page table has at most one user leaf in each address
space, all at the same virtual page; so its counter is far from wrapping. -/
theorem refs_le_spaces (h : VmInv L roots held a mem) {p : Nat} (hp : L.Managed p)
    (hno : ∀ space, target roots mem (.root space) ≠ some p)
    (hnot : ∀ space k, target roots mem (.table space k) ≠ some p) :
    refs (target roots mem) p ≤ 9 := by
  have hcard : Fintype.card Space = 9 := by decide
  rw [← hcard]
  apply refs_le_card (fun site => match site with
    | .root space => space
    | .table space _ => space
    | .leaf space _ => space)
  intro first second hfirst hsecond heq
  cases first with
  | root space => exact absurd hfirst (hno space)
  | table space k => exact absurd hfirst (hnot space k)
  | leaf space vpn =>
      cases second with
      | root space' => exact absurd hsecond (hno space')
      | table space' k => exact absurd hsecond (hnot space' k)
      | leaf space' vpn' =>
          have hvpn := h.same_vpn hp hfirst hsecond
          simp only at heq
          rw [heq, hvpn]

end VmInv

/-! ## Walks only read page tables -/

/-- The walk from `r` reads one word of the root and one of the table behind it. -/
theorem walk_congr_word {mem mem' : Memory} {r r' vpn : Nat}
    (hword : loadWord (mem' r') (vpn / 1024) = loadWord (mem r) (vpn / 1024))
    (htable : ∀ t, tableAt mem r (vpn / 1024) = some t → mem' t = mem t) :
    walk mem' r' vpn = walk mem r vpn := by
  unfold walk
  rw [hword]
  simp only
  split
  · rfl
  · rename_i hv
    split
    · rfl
    · rename_i hrwx
      rw [htable (ptePage (loadWord (mem r) (vpn / 1024)))]
      simp only [tableAt]
      rw [if_pos ⟨hv, by simpa using hrwx⟩]

theorem walk_congr {mem mem' : Memory} {r vpn : Nat} (hroot : mem' r = mem r)
    (htable : ∀ t, tableAt mem r (vpn / 1024) = some t → mem' t = mem t) :
    walk mem' r vpn = walk mem r vpn :=
  walk_congr_word (by rw [hroot]) htable

theorem tableAt_congr_word {mem mem' : Memory} {r r' k : Nat}
    (hword : loadWord (mem' r') k = loadWord (mem r) k) :
    tableAt mem' r' k = tableAt mem r k := by
  simp [tableAt, hword]

theorem tableAt_congr {mem mem' : Memory} {r k : Nat} (hroot : mem' r = mem r) :
    tableAt mem' r k = tableAt mem r k :=
  tableAt_congr_word (by rw [hroot])

/-- Through a linked table, the walk reads one entry of it. -/
theorem walk_of_table {mem : Memory} {r vpn t : Nat}
    (ht : tableAt mem r (vpn / 1024) = some t) :
    walk mem r vpn = decodeLeaf (loadWord (mem t) (vpn % 1024)) := by
  simp only [tableAt] at ht
  split at ht
  · rename_i hcond
    simp only [Option.some.injEq] at ht
    simp only [walk]
    rw [if_neg hcond.1, if_neg (by simp [hcond.2]), ht]
  · cases ht

/-- The memories agree on every root and every second-level table. -/
def SameTables (roots : Space → Option Nat) (mem mem' : Memory) : Prop :=
  ∀ space r, roots space = some r →
    mem' r = mem r ∧ ∀ k, k < 1024 → ∀ t, tableAt mem r k = some t → mem' t = mem t

theorem SameTables.walk {mem mem' : Memory} (h : SameTables roots mem mem') {space : Space}
    {r vpn : Nat} (hr : roots space = some r) (hvpn : vpn < 1048576) :
    walk mem' r vpn = walk mem r vpn := by
  obtain ⟨hroot, htable⟩ := h space r hr
  exact walk_congr hroot (htable (vpn / 1024) (by omega))

theorem SameTables.target {mem mem' : Memory} (h : SameTables roots mem mem') :
    target roots mem' = target roots mem := by
  funext site
  cases site with
  | root space => rfl
  | table space k =>
      cases hr : roots space with
      | none => simp [Mm.target, hr]
      | some r => simp [Mm.target, hr, tableAt_congr (h space r hr).1]
  | leaf space vpn =>
      cases hr : roots space with
      | none => simp [Mm.target, hr]
      | some r => simp [Mm.target, hr, h.walk hr vpn.isLt]

namespace VmInv

/-- Memory outside the page tables does not matter. -/
theorem congr_mem (h : VmInv L roots held a mem) {mem' : Memory}
    (hsame : SameTables roots mem mem') : VmInv L roots held a mem' := by
  have htarget := hsame.target
  refine ⟨h.alloc, h.root_managed, ?_, ?_, ?_, ?_, ?_, ?_, ?_, ?_⟩
  · intro space r k t hr hk ht
    rw [tableAt_congr (hsame space r hr).1] at ht
    exact h.table_managed hr hk ht
  · intro space r k hr hk
    rw [(hsame space r hr).1]
    exact h.superpage hr hk
  · intro r k hr hk
    rw [tableAt_congr (hsame none r hr).1]
    exact h.kernel_flat hr hk
  · rw [htarget]
    exact h.account
  · rw [htarget]
    exact h.root_single
  · rw [htarget]
    exact h.table_single
  · intro space r vpn leaf hr hvpn hwalk
    rw [hsame.walk hr hvpn] at hwalk
    exact h.write_single hr hvpn hwalk
  · rw [htarget]
    exact h.same_vpn

/-- A page that no root register and no link refers to. -/
def NoTable (roots : Space → Option Nat) (mem : Memory) (p : Nat) : Prop :=
  (∀ space, target roots mem (.root space) ≠ some p) ∧
    ∀ space k, target roots mem (.table space k) ≠ some p

theorem noTable_of_refcnt_zero (h : VmInv L roots held a mem) {p : Nat} (hp : L.Managed p)
    (hzero : refcntOf L a p = 0) : NoTable roots mem p :=
  ⟨fun _ => h.target_ne_of_refcnt_zero hp hzero _, fun _ _ => h.target_ne_of_refcnt_zero hp hzero _⟩

theorem noTable_of_held (h : VmInv L roots held a mem) {p : Nat} (hp : L.Managed p)
    (hheld : 0 < held p) : NoTable roots mem p := by
  refine ⟨fun space ht => ?_, fun space k ht => ?_⟩
  · have := h.held_zero_of_single hp (h.root_single ht) ht
    omega
  · have := h.held_zero_of_single hp (h.table_single ht) ht
    omega

theorem noTable_of_unmanaged (h : VmInv L roots held a mem) {p : Nat} (hp : ¬ L.Managed p) :
    NoTable roots mem p :=
  ⟨fun _ ht => hp (h.managed_of_root ht), fun _ _ ht => hp (h.managed_of_table ht)⟩

theorem noTable_of_leaf (h : VmInv L roots held a mem) {space : Space} {vpn : Fin 1048576}
    {p : Nat} (hleaf : target roots mem (.leaf space vpn) = some p) : NoTable roots mem p := by
  refine ⟨fun space' ht => ?_, fun space' k ht => ?_⟩
  · have := h.site_unique (h.managed_of_root ht) (h.root_single ht) hleaf ht
    cases this
  · have := h.site_unique (h.managed_of_table ht) (h.table_single ht) hleaf ht
    cases this

/-- Writing a page that is no page table. -/
theorem sameTables_update {p : Nat} (hp : NoTable roots mem p) (page : PageBytes) :
    SameTables roots mem (Function.update mem p page) := by
  intro space r hr
  refine ⟨Function.update_of_ne ?_ _ _, fun k hk t ht => Function.update_of_ne ?_ _ _⟩
  · rintro rfl
    exact hp.1 space hr
  · rintro rfl
    exact hp.2 space ⟨k, hk⟩ (by simp [target, hr, ht])

end VmInv

/-! ## Tables in different places -/

/-- No two spaces share a root, and a second-level table is linked in one place
and is nobody's root. -/
structure Apart (roots : Space → Option Nat) (mem : Memory) : Prop where
  root : ∀ {space space' r}, roots space = some r → roots space' = some r → space' = space
  table : ∀ {space space' r r' k k' t}, roots space = some r → roots space' = some r' →
    k < 1024 → k' < 1024 → tableAt mem r k = some t → tableAt mem r' k' = some t →
    space' = space ∧ k' = k
  notRoot : ∀ {space r k t}, roots space = some r → k < 1024 → tableAt mem r k = some t →
    ∀ space', roots space' ≠ some t

/-- The accounting keeps the tables apart. -/
theorem VmInv.apart (h : VmInv L roots held a mem) : Apart roots mem := by
  refine ⟨fun hr hr' => h.root_injective hr hr', ?_, ?_⟩
  · intro space space' r r' k k' t hr hr' hk hk' ht ht'
    have hsite := h.table_unique hr hk ht (.table space' ⟨k', hk'⟩) (by simp [target, hr', ht'])
    simpa using hsite
  · intro space r k t hr hk ht space' hroot
    have hsite := h.table_unique hr hk ht (.root space') hroot
    cases hsite

end Sugimotos.Mm
