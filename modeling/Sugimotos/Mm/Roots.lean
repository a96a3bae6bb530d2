/-
# Linking tables, adding and dropping address spaces

The changes of the ownership state that alter the shape of an address space: a
second-level table is linked into a root without changing any translation, a
copy of the kernel root becomes a new address space, and an address space is
given up as a whole.  Giving one up turns its tables and whatever it still maps
into lost pages, unless the caller keeps hold of them.
-/

import Sugimotos.Mm.SpaceOps

namespace Sugimotos.Mm

open Sugimotos.Math

variable {L : Layout} {roots : Space → Option Nat} {held : Nat → Nat} {a : Allocator}
  {mem : Memory}

/-! ## Linking a second-level table -/

/-- Page `t` gets the contents of a table and word `k` of the root links it. -/
def linkTable (mem : Memory) (r k t : Nat) (page : PageBytes) : Memory :=
  Function.update (Function.update mem t page) r (storeWord (mem r) k (linkPte t))

/-- A held page of count one that is about to become the table behind word `k`
of a process root, filled with the translations the root already gives. -/
structure Linkable (L : Layout) (roots : Space → Option Nat) (held : Nat → Nat) (a : Allocator)
    (mem : Memory) (space : Space) (r k t : Nat) (page : PageBytes) : Prop where
  root : roots space = some r
  process : space ≠ none
  index : k < 1024
  unlinked : tableAt mem r k = none
  managed : L.Managed t
  held : 0 < held t
  single : refcntOf L a t = 1
  entries : ∀ j, j < 1024 → decodeLeaf (loadWord page j) = walk mem r (k * 1024 + j)

/-- What matters for the translations: the page is no table yet, and its entries
are the translations the root gives. -/
structure Linking (roots : Space → Option Nat) (mem : Memory) (space : Space) (r k t : Nat)
    (page : PageBytes) : Prop where
  root : roots space = some r
  index : k < 1024
  unlinked : tableAt mem r k = none
  noTable : VmInv.NoTable roots mem t
  page_lt : t < 1048576
  entries : ∀ j, j < 1024 → decodeLeaf (loadWord page j) = walk mem r (k * 1024 + j)

section Link

variable {space : Space} {r k t : Nat} {page : PageBytes}

theorem Linkable.linking (h : VmInv L roots held a mem)
    (hlink : Linkable L roots held a mem space r k t page) :
    Linking roots mem space r k t page :=
  ⟨hlink.root, hlink.index, hlink.unlinked, h.noTable_of_held hlink.managed hlink.held,
    hlink.managed.lt, hlink.entries⟩

theorem linkTable_other {p : Nat} (hr : p ≠ r) (ht : p ≠ t) : linkTable mem r k t page p = mem p := by
  unfold linkTable
  rw [Function.update_of_ne hr, Function.update_of_ne ht]

theorem linkTable_word (h : Apart roots mem) (hlink : Linking roots mem space r k t page)
    {space' : Space} {r' : Nat} (k' : Nat) (hr' : roots space' = some r') :
    loadWord (linkTable mem r k t page r') k' =
      if space' = space ∧ k' = k then linkPte t else loadWord (mem r') k' := by
  have hne : r' ≠ t := by
    rintro rfl
    exact hlink.noTable.1 space' hr'
  by_cases hspace : space' = space
  · subst hspace
    have hrr : r' = r := by
      have := hlink.root
      rw [hr'] at this
      exact Option.some.inj this
    subst hrr
    unfold linkTable
    rw [Function.update_self]
    by_cases hk : k' = k
    · rw [if_pos ⟨rfl, hk⟩, hk, loadWord_storeWord_self,
        Nat.mod_eq_of_lt (linkPte_lt hlink.page_lt)]
    · rw [if_neg (fun hc => hk hc.2), loadWord_storeWord_of_ne _ _ hk]
  · have hrr : r' ≠ r := by
      rintro rfl
      exact hspace (h.root hlink.root hr')
    rw [if_neg (fun hc => hspace hc.1), linkTable_other hrr hne]

theorem tableAt_linkTable (h : Apart roots mem) (hlink : Linking roots mem space r k t page)
    {space' : Space} {r' : Nat} (k' : Nat) (hr' : roots space' = some r') :
    tableAt (linkTable mem r k t page) r' k' =
      if space' = space ∧ k' = k then some t else tableAt mem r' k' := by
  have hword := linkTable_word h hlink k' hr'
  by_cases hsame : space' = space ∧ k' = k
  · rw [if_pos hsame] at hword
    rw [if_pos hsame]
    simp only [tableAt, hword, linkPte_valid, linkPte_rwx, linkPte_page hlink.page_lt]
    simp
  · rw [if_neg hsame] at hword
    rw [if_neg hsame, tableAt_congr_word hword]

/-- Linking a table that repeats the root's translations changes none of them. -/
theorem walk_linkTable (h : Apart roots mem) (hlink : Linking roots mem space r k t page)
    {space' : Space} {r' vpn : Nat} (hr' : roots space' = some r') (hvpn : vpn < 1048576) :
    walk (linkTable mem r k t page) r' vpn = walk mem r' vpn := by
  have htr : t ≠ r := by
    rintro rfl
    exact hlink.noTable.1 space hlink.root
  by_cases hsame : space' = space ∧ vpn / 1024 = k
  · have htable := tableAt_linkTable h hlink (vpn / 1024) hr'
    rw [if_pos hsame] at htable
    obtain ⟨rfl, rfl⟩ := hsame
    have hrr : r' = r := by
      have := hlink.root
      rw [hr'] at this
      exact Option.some.inj this
    subst hrr
    rw [walk_of_table htable]
    unfold linkTable
    rw [Function.update_of_ne htr, Function.update_self, hlink.entries _ (by omega)]
    congr 1
    omega
  · have hword := linkTable_word h hlink (vpn / 1024) hr'
    rw [if_neg hsame] at hword
    apply walk_congr_word hword
    intro t' ht'
    apply linkTable_other
    · rintro rfl
      exact h.notRoot hr' (by omega) ht' space hlink.root
    · rintro rfl
      exact hlink.noTable.2 space' ⟨vpn / 1024, by omega⟩ (by simp [target, hr', ht'])

/-- The tables stay apart. -/
theorem Apart.linkTable (h : Apart roots mem) (hlink : Linking roots mem space r k t page) :
    Apart roots (linkTable mem r k t page) := by
  have hold : ∀ {space' r' k' t'}, roots space' = some r' → k' < 1024 →
      tableAt (Mm.linkTable mem r k t page) r' k' = some t' →
      (space' = space ∧ k' = k ∧ t' = t) ∨ (tableAt mem r' k' = some t' ∧ t' ≠ t) := by
    intro space' r' k' t' hr' hk' ht'
    rw [tableAt_linkTable h hlink k' hr'] at ht'
    split at ht'
    · rename_i hsame
      exact Or.inl ⟨hsame.1, hsame.2, (Option.some.inj ht').symm⟩
    · refine Or.inr ⟨ht', ?_⟩
      rintro rfl
      exact hlink.noTable.2 space' ⟨k', hk'⟩ (by simp [target, hr', ht'])
  refine ⟨h.root, ?_, ?_⟩
  · intro space₁ space₂ r₁ r₂ k₁ k₂ t' hr₁ hr₂ hk₁ hk₂ ht₁ ht₂
    rcases hold hr₁ hk₁ ht₁ with ⟨rfl, rfl, rfl⟩ | ⟨ht₁, hne⟩
    · rcases hold hr₂ hk₂ ht₂ with ⟨rfl, rfl, -⟩ | ⟨-, hne⟩
      · exact ⟨rfl, rfl⟩
      · exact absurd rfl hne
    · rcases hold hr₂ hk₂ ht₂ with ⟨-, -, heq⟩ | ⟨ht₂, -⟩
      · exact absurd heq hne
      · exact h.table hr₁ hr₂ hk₁ hk₂ ht₁ ht₂
  · intro space₁ r₁ k₁ t' hr₁ hk₁ ht₁ space₂
    rcases hold hr₁ hk₁ ht₁ with ⟨-, -, rfl⟩ | ⟨ht₁, -⟩
    · exact hlink.noTable.1 space₂
    · exact h.notRoot hr₁ hk₁ ht₁ space₂

theorem target_linkTable_of_ne (h : VmInv L roots held a mem)
    (hlink : Linkable L roots held a mem space r k t page) {site : Site}
    (hsite : site ≠ .table space ⟨k, hlink.index⟩) :
    target roots (linkTable mem r k t page) site = target roots mem site := by
  cases site with
  | root space' => rfl
  | table space' k' =>
      cases hr' : roots space' with
      | none => simp [target, hr']
      | some r' =>
          simp only [target, hr', Option.bind_some]
          rw [tableAt_linkTable h.apart (hlink.linking h) _ hr', if_neg]
          rintro ⟨rfl, rfl⟩
          exact hsite rfl
  | leaf space' vpn =>
      cases hr' : roots space' with
      | none => simp [target, hr']
      | some r' =>
          simp only [target, hr', Option.bind_some]
          rw [walk_linkTable h.apart (hlink.linking h) hr' vpn.isLt]

theorem VmInv.linkTable (h : VmInv L roots held a mem)
    (hlink : Linkable L roots held a mem space r k t page) {w : Nat → Nat}
    (hless : w t + 1 = held t) (hother : ∀ p, p ≠ t → w p = held p) :
    VmInv L roots w a (linkTable mem r k t page) := by
  have htargets : ∀ {site}, site ≠ .table space ⟨k, hlink.index⟩ →
      target roots (Mm.linkTable mem r k t page) site = target roots mem site :=
    fun hsite => target_linkTable_of_ne h hlink hsite
  have hself : target roots (Mm.linkTable mem r k t page) (.table space ⟨k, hlink.index⟩) =
      some t := by
    simp only [target, hlink.root, Option.bind_some]
    rw [tableAt_linkTable h.apart (hlink.linking h) _ hlink.root, if_pos ⟨rfl, rfl⟩]
  have hold : target roots mem (.table space ⟨k, hlink.index⟩) = none := by
    simp only [target, hlink.root, Option.bind_some]
    exact hlink.unlinked
  refine ⟨h.alloc, h.root_managed, ?_, ?_, ?_, ?_, ?_, ?_, ?_, ?_⟩
  · intro space' r' k' t' hr' hk' ht'
    rw [tableAt_linkTable h.apart (hlink.linking h) _ hr'] at ht'
    split at ht'
    · rw [← Option.some.inj ht']
      exact hlink.managed
    · exact h.table_managed hr' hk' ht'
  · intro space' r' k' hr' hk' hv hrwx
    rw [linkTable_word h.apart (hlink.linking h) _ hr'] at hrwx hv ⊢
    split at hrwx
    · exact absurd (linkPte_rwx t) hrwx
    · rename_i hne
      rw [if_neg hne] at hv ⊢
      exact h.superpage hr' hk' hv hrwx
  · intro r' k' hr' hk'
    rw [tableAt_linkTable h.apart (hlink.linking h) _ hr',
      if_neg (fun hc => hlink.process hc.1.symm)]
    exact h.kernel_flat hr' hk'
  · intro p hp
    refine h.account_change
      (fun other hne => htargets hne) hp ?_
    rw [hself, hold]
    by_cases hpt : p = t
    · subst hpt
      simpa using hless
    · rw [hother p hpt, if_neg (fun hc => hpt (Option.some.inj hc).symm), if_neg (by simp)]
  · intro space' p htarget
    rw [htargets (by rintro ⟨⟩)] at htarget
    exact h.root_single htarget
  · intro space' k' p htarget
    by_cases hsite : Site.table space' k' = .table space ⟨k, hlink.index⟩
    · rw [hsite, hself] at htarget
      rw [← Option.some.inj htarget]
      exact hlink.single
    · rw [htargets hsite] at htarget
      exact h.table_single htarget
  · intro space' r' vpn leaf hr' hvpn hwalk
    rw [walk_linkTable h.apart (hlink.linking h) hr' hvpn] at hwalk
    exact h.write_single hr' hvpn hwalk
  · intro space₁ space₂ vpn₁ vpn₂ p hp h₁ h₂
    rw [htargets (by rintro ⟨⟩)] at h₁ h₂
    exact h.same_vpn hp h₁ h₂

end Link

/-! ## Adding an address space -/

/-- A root that maps kernel memory only, in aligned 4 MiB leaves. -/
structure KernelOnly (mem : Memory) (r : Nat) : Prop where
  flat : ∀ {k}, k < 1024 → tableAt mem r k = none
  superpage : ∀ {k}, k < 1024 → loadWord (mem r) k &&& pteV ≠ 0 →
    loadWord (mem r) k &&& pteRwx ≠ 0 →
    loadWord (mem r) k &&& pteU = 0 ∧ ptePage (loadWord (mem r) k) % 1024 = 0

theorem VmInv.kernelOnly (h : VmInv L roots held a mem) {kr : Nat} (hk : roots none = some kr) :
    KernelOnly mem kr :=
  ⟨h.kernel_flat hk, h.superpage hk⟩

theorem KernelOnly.copy {mem : Memory} {kr r : Nat} (h : KernelOnly mem kr)
    (hcopy : mem r = mem kr) : KernelOnly mem r := by
  refine ⟨fun hk => ?_, ?_⟩
  · rw [tableAt_congr_word (r := kr) (by rw [hcopy])]
    exact h.flat hk
  · rw [hcopy]
    exact h.superpage

theorem KernelOnly.userPage {mem : Memory} {r vpn : Nat} (h : KernelOnly mem r)
    (hvpn : vpn < 1048576) : userPage (walk mem r vpn) = none := by
  have hflat := h.flat (k := vpn / 1024) (by omega)
  unfold walk
  simp only
  split
  · rfl
  · rename_i hv
    by_cases hrwx : loadWord (mem r) (vpn / 1024) &&& pteRwx = 0
    · rw [tableAt, if_pos ⟨hv, hrwx⟩] at hflat
      cases hflat
    · obtain ⟨hU, -⟩ := h.superpage (by omega) hv hrwx
      have hperm : loadWord (mem r) (vpn / 1024) &&& pteRwxu &&& pteU = 0 := by
        rw [Nat.and_assoc, show pteRwxu &&& pteU = pteU by decide]
        exact hU
      rw [if_pos hrwx]
      simp [Mm.userPage, hperm]

/-- A held root that maps kernel memory only becomes the root of a space. -/
theorem VmInv.addRoot (h : VmInv L roots held a mem) {space : Space} {r : Nat}
    (hnone : roots space = none) (hm : L.Managed r) (hone : refcntOf L a r = 1)
    (hkernel : KernelOnly mem r)
    {w : Nat → Nat} (hless : w r + 1 = held r) (hother : ∀ p, p ≠ r → w p = held p) :
    VmInv L (Function.update roots space (some r)) w a mem := by
  have hnew : ∀ {space' r'}, Function.update roots space (some r) space' = some r' →
      (space' = space ∧ r' = r) ∨ (space' ≠ space ∧ roots space' = some r') := by
    intro space' r' hr'
    by_cases hs : space' = space
    · subst hs
      rw [Function.update_self] at hr'
      exact .inl ⟨rfl, (Option.some.inj hr').symm⟩
    · rw [Function.update_of_ne hs] at hr'
      exact .inr ⟨hs, hr'⟩
  have htargets : ∀ {site}, site ≠ .root space →
      target (Function.update roots space (some r)) mem site = target roots mem site := by
    intro site hsite
    cases site with
    | root space' =>
        exact Function.update_of_ne (fun hs => hsite (by rw [hs])) _ _
    | table space' k =>
        by_cases hs : space' = space
        · subst hs
          simp [target, hnone, hkernel.flat k.isLt]
        · simp [target, Function.update_of_ne hs]
    | leaf space' vpn =>
        by_cases hs : space' = space
        · subst hs
          simp [target, hnone, hkernel.userPage vpn.isLt]
        · simp [target, Function.update_of_ne hs]
  refine ⟨h.alloc, ?_, ?_, ?_, ?_, ?_, ?_, ?_, ?_, ?_⟩
  · intro space' r' hr'
    rcases hnew hr' with ⟨-, rfl⟩ | ⟨-, hr'⟩
    · exact hm
    · exact h.root_managed hr'
  · intro space' r' k t hr' hk' ht
    rcases hnew hr' with ⟨-, rfl⟩ | ⟨-, hr'⟩
    · rw [hkernel.flat hk'] at ht
      cases ht
    · exact h.table_managed hr' hk' ht
  · intro space' r' k hr' hk'
    rcases hnew hr' with ⟨-, rfl⟩ | ⟨-, hr'⟩
    · exact hkernel.superpage hk'
    · exact h.superpage hr' hk'
  · intro r' k hr' hk'
    rcases hnew hr' with ⟨-, rfl⟩ | ⟨-, hr'⟩
    · exact hkernel.flat hk'
    · exact h.kernel_flat hr' hk'
  · intro p hp
    refine h.account_change (fun other hne => htargets hne) hp ?_
    simp only [target, Function.update_self, hnone]
    by_cases hpr : p = r
    · subst hpr
      simpa using hless
    · rw [hother p hpr, if_neg (fun hc => hpr (Option.some.inj hc).symm), if_neg (by simp)]
  · intro space' p htarget
    rcases hnew htarget with ⟨-, rfl⟩ | ⟨-, hr'⟩
    · exact hone
    · exact h.root_single hr'
  · intro space' k p htarget
    rw [htargets (by rintro ⟨⟩)] at htarget
    exact h.table_single htarget
  · intro space' r' vpn leaf hr' hvpn hwalk hU
    rcases hnew hr' with ⟨-, rfl⟩ | ⟨-, hr'⟩
    · have huser := hkernel.userPage hvpn
      simp [hwalk, userPage, hU] at huser
    · exact h.write_single hr' hvpn hwalk hU
  · intro space₁ space₂ vpn₁ vpn₂ p hp h₁ h₂
    rw [htargets (by rintro ⟨⟩)] at h₁ h₂
    exact h.same_vpn hp h₁ h₂

/-! ## Giving up an address space -/

/-- The space a site belongs to. -/
def Site.space : Site → Space
  | .root space => space
  | .table space _ => space
  | .leaf space _ => space

/-- An address space whose pages all have count one is given up.  Each of its
pages is kept by the caller or lost. -/
theorem VmInv.dropRoot (h : VmInv L roots held a mem) {space : Space}
    (hsingle : ∀ {site p}, site.space = space → L.Managed p → target roots mem site = some p →
      refcntOf L a p = 1)
    {w : Nat → Nat}
    (hkeep : ∀ {site p}, site.space = space → L.Managed p → target roots mem site = some p →
      w p ≤ 1)
    (hother : ∀ {p}, L.Managed p →
      (∀ site : Site, site.space = space → target roots mem site ≠ some p) → w p = held p) :
    VmInv L (Function.update roots space none) w a mem := by
  have hnew : ∀ {space' r'}, Function.update roots space none space' = some r' →
      space' ≠ space ∧ roots space' = some r' := by
    intro space' r' hr'
    by_cases hs : space' = space
    · subst hs
      rw [Function.update_self] at hr'
      cases hr'
    · rw [Function.update_of_ne hs] at hr'
      exact ⟨hs, hr'⟩
  have hgone : ∀ {site : Site}, site.space = space →
      target (Function.update roots space none) mem site = none := by
    intro site hs
    cases site <;> (simp only [Site.space] at hs; subst hs; simp [target])
  have hstay : ∀ {site : Site}, site.space ≠ space →
      target (Function.update roots space none) mem site = target roots mem site := by
    intro site hs
    cases site <;> (simp only [Site.space] at hs; simp [target, Function.update_of_ne hs])
  have hsub : ∀ {site : Site} {p}, target (Function.update roots space none) mem site = some p →
      target roots mem site = some p := by
    intro site p ht
    by_cases hs : site.space = space
    · rw [hgone hs] at ht
      cases ht
    · rw [hstay hs] at ht
      exact ht
  refine ⟨h.alloc, ?_, ?_, ?_, ?_, ?_, ?_, ?_, ?_, ?_⟩
  · intro space' r' hr'
    exact h.root_managed (hnew hr').2
  · intro space' r' k t hr' hk ht
    exact h.table_managed (hnew hr').2 hk ht
  · intro space' r' k hr' hk
    exact h.superpage (hnew hr').2 hk
  · intro r' k hr' hk
    exact h.kernel_flat (hnew hr').2 hk
  · intro p hp
    by_cases hused : ∃ site : Site, site.space = space ∧ target roots mem site = some p
    · -- The only reference to `p` was in the space that goes away.
      obtain ⟨site, hs, ht⟩ := hused
      have hone := hsingle hs hp ht
      have hle := hkeep hs hp ht
      have hrefs : refs (target (Function.update roots space none) mem) p = 0 := by
        rw [refs_eq_zero]
        intro site' ht'
        have heq := h.site_unique hp hone (hsub ht') ht
        subst heq
        rw [hgone hs] at ht'
        cases ht'
      rw [hrefs]
      omega
    · have hfree : ∀ site : Site, site.space = space → target roots mem site ≠ some p :=
        fun site hs ht => hused ⟨site, hs, ht⟩
      have hrefs : refs (target (Function.update roots space none) mem) p =
          refs (target roots mem) p := by
        apply refs_congr
        intro site
        by_cases hs : site.space = space
        · rw [hgone hs]
          simp [hfree site hs]
        · rw [hstay hs]
      rw [hrefs, hother hp hfree]
      exact h.account hp
  · intro space' p ht
    exact h.root_single (hsub ht)
  · intro space' k p ht
    exact h.table_single (hsub ht)
  · intro space' r' vpn leaf hr' hvpn hwalk
    exact h.write_single (hnew hr').2 hvpn hwalk
  · intro space₁ space₂ vpn₁ vpn₂ p hp h₁ h₂
    exact h.same_vpn hp (hsub h₁) (hsub h₂)

end Sugimotos.Mm
