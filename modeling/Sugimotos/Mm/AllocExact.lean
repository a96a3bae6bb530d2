/-
# What one call does to the free pages

Giving a page back and taking pages out, as operations on the set of free pages: which
pages are free afterwards, and when there is an error instead.  At the end the byte size
of a request is followed through its reductions to 32 bits.
-/

import Sugimotos.Mm.AllocRuns
import Sugimotos.Mm.GiveBack

namespace Sugimotos.Mm

open Sugimotos.Math

variable {L : Layout} {a b : Allocator}

/-- The free list is sorted, and no two of its runs could be one. -/
structure Allocator.Canonical (L : Layout) (a : Allocator) : Prop where
  separated : a.freeRuns.Pairwise fun r s => r.stop < s.base
  whole : ∀ r ∈ a.freeRuns,
    L.freeRam ≤ r.base ∧ r.base % 4096 = 0 ∧ 0 < r.pages ∧ r.stop ≤ a.nextPaddr

theorem Runs.canonical (h : Runs L.freeRam a.nextPaddr a.freeRuns) : a.Canonical L :=
  ⟨h.pairwise, fun _ hr => h.mem hr⟩

/-! ## Giving a page back -/

/-- The page cannot join a run, and no list node is left for it: none was released, and
another one below `meta_top` would reach the pages. -/
structure NeedsNode (a : Allocator) (paddr : Nat) : Prop where
  apart : ∀ r ∈ a.freeRuns, r.stop ≠ paddr ∧ r.base ≠ paddr + 4096
  node : NoNode a

/-- The page is free now, and nothing else changed but the nodes. -/
structure Freed (L : Layout) (a : Allocator) (paddr : Nat) (b : Allocator) : Prop where
  set : ∀ q, Covers b.freeRuns q ↔ Covers a.freeRuns q ∨ (paddr ≤ q ∧ q < paddr + 4096)
  canonical : b.Canonical L
  same : SameCounts a b

/-- What `free_single_page_raw` makes of a page: a panic, when it is free, or `-1`, or the
page is free. -/
def FreesExactly (L : Layout) (a : Allocator) (paddr : Nat) : Prop :=
  Outcome (freeSinglePageRaw paddr a)
    (fun result => ¬ Covers a.freeRuns paddr ∧
      match result with
      | none => NeedsNode a paddr
      | some b => Freed L a paddr b)
    (fun _ => Covers a.freeRuns paddr)

/-- A page right below the run behind `cur` joins it. -/
theorem freeAt_joins {paddr : Nat} {cur next : PageRun} {tail : List PageRun}
    (hbase : next.base = paddr + 4096) : freeAt paddr a cur (next :: tail) ≠ .ok .noNode := by
  unfold freeAt
  dsimp only
  split
  · nofun
  · rw [if_neg (by unfold pageSize; omega)]
    split
    · split <;> nofun
    · rw [if_pos hbase.symm]
      nofun

theorem freeAfter_joins {paddr lo hi : Nat} {cur : PageRun} {rest : List PageRun}
    (hruns : Runs lo hi (cur :: rest)) (hcur : cur.base ≤ paddr) {run : PageRun}
    (hrun : run ∈ rest) (hbase : run.base = paddr + 4096) :
    freeAfter paddr a cur rest ≠ .ok .noNode := by
  induction rest generalizing cur lo with
  | nil => cases hrun
  | cons next tail ih =>
      have hnext := hruns.2.2.2.2
      unfold freeAfter
      cases List.mem_cons.mp hrun with
      | inl heq =>
          rw [if_neg (by rw [← heq, hbase]; omega)]
          exact freeAt_joins (heq ▸ hbase)
      | inr hmem =>
          -- The scan goes on: the run before that one ends below it, and so below the page.
          have hbelow : next.base < paddr := by
            have hsep := (hnext.2.2.2.2.mem hmem).1
            have hpos := hnext.2.2.1
            have hnextAlign := hnext.2.1
            have hrunAlign := (hnext.2.2.2.2.mem hmem).2.1
            unfold PageRun.stop pageSize at hsep
            omega
          rw [if_pos hbelow]
          intro hres
          have hrec := ih hnext hbelow.le hmem
          cases hcall : freeAfter paddr a next tail with
          | error e =>
              rw [hcall] at hres
              cases hres
          | ok result =>
              rw [hcall] at hres hrec
              cases result with
              | noNode => exact hrec rfl
              | extended runs a' => cases hres
              | inserted runs a' => cases hres

/-- A page right below a free run needs no list node. -/
theorem freeSinglePageRaw_joins {paddr lo hi : Nat} (hruns : Runs lo hi a.freeRuns) {run : PageRun}
    (hrun : run ∈ a.freeRuns) (hbase : run.base = paddr + 4096) :
    freeSinglePageRaw paddr a ≠ .ok none := by
  unfold freeSinglePageRaw
  cases hlist : a.freeRuns with
  | nil =>
      rw [hlist] at hrun
      cases hrun
  | cons head rest =>
      rw [hlist] at hruns hrun
      dsimp only
      cases List.mem_cons.mp hrun with
      | inl heq =>
          rw [if_pos (by rw [← heq, hbase]; omega), if_neg (by rw [← heq, hbase]; exact Nat.lt_irrefl _),
            if_pos (heq ▸ hbase.symm)]
          nofun
      | inr hmem =>
          have hhead : ¬ paddr < head.base := by
            have hsep := (hruns.2.2.2.2.mem hmem).1
            have hpos := hruns.2.2.1
            unfold PageRun.stop pageSize at hsep
            omega
          rw [if_neg hhead]
          have hafter := freeAfter_joins (a := a) hruns (Nat.le_of_not_lt hhead) hmem hbase
          cases hcall : freeAfter paddr a head rest with
          | error e => nofun
          | ok result =>
              cases result with
              | noNode => exact absurd hcall hafter
              | extended runs a' => nofun
              | inserted runs a' => nofun

/-- `free_single_page_raw` is exact, whatever the counts are. -/
theorem Allocator.Inv.freesExactly (h : a.Inv L) (counts : Nat → Nat) {paddr : Nat}
    (halign : paddr % 4096 = 0) (hlo : L.freeRam ≤ paddr) (hhi : paddr < a.nextPaddr) :
    FreesExactly L { a with pageRefcnt := counts } paddr := by
  have hend : paddr + 4096 ≤ a.nextPaddr := by
    have hnext := h.next_align
    omega
  have hmeta : MetaOk L (runNodes a.freeRuns) { a with pageRefcnt := counts } :=
    ⟨h.nodes.top_le, h.nodes.top_mod, h.nodes.next_le, h.nodes.nodes⟩
  have hspec := freeSinglePageRaw_spec (a := { a with pageRefcnt := counts }) h.next_lt h.runs hmeta
    halign hlo hend
  unfold FreesExactly
  cases hcall : freeSinglePageRaw paddr { a with pageRefcnt := counts } with
  | error e =>
      rw [hcall] at hspec
      exact hspec
  | ok result =>
      rw [hcall] at hspec
      obtain ⟨hfree, hresult⟩ := hspec
      refine ⟨hfree, ?_⟩
      cases result with
      | none =>
          refine ⟨fun r hr => ⟨?_, ?_⟩, hresult⟩
          · intro hstop
            exact freeSinglePageRaw_above (a := { a with pageRefcnt := counts }) h.runs hr hstop hcall
          · intro hbase
            exact freeSinglePageRaw_joins (a := { a with pageRefcnt := counts }) h.runs hr hbase hcall
      | some b =>
          obtain ⟨hruns, hset, -, hsame⟩ := hresult
          have hnext : b.nextPaddr = a.nextPaddr := hsame.nextPaddr
          refine ⟨hset, Runs.canonical ?_, hsame⟩
          rw [hnext]
          exact hruns

/-! ## Taking pages out -/

/-- What `alloc_pages_try` does: take the first pages of the lowest run that is long
enough, or the pages at the bump pointer, or nothing. -/
inductive AllocCase (L : Layout) (n : Nat) (a : Allocator) : Option Nat → Allocator → Prop
  | fit {r : PageRun} {b : Allocator} (hfirst : FirstFit n a.freeRuns r)
      (hset : ∀ q, Covers b.freeRuns q ↔
        Covers a.freeRuns q ∧ ¬ (r.base ≤ q ∧ q < r.base + n * 4096))
      (hcanonical : b.Canonical L) (hnext : b.nextPaddr = a.nextPaddr) :
      AllocCase L n a (some r.base) b
  | bump {b : Allocator} (hshort : ∀ r ∈ a.freeRuns, r.pages < n)
      (hroom : a.nextPaddr + n * 4096 ≤ a.metaTop) (hruns : b.freeRuns = a.freeRuns)
      (hnext : b.nextPaddr = a.nextPaddr + n * 4096) : AllocCase L n a (some a.nextPaddr) b
  | full (hshort : ∀ r ∈ a.freeRuns, r.pages < n)
      (hroom : a.metaTop < a.nextPaddr + n * 4096) : AllocCase L n a none a

/-- Marking changes counts only. -/
theorem markAllocated_frame (paddr n : Nat) (a : Allocator) :
    markAllocated L paddr n a =
      { a with pageRefcnt := (markAllocated L paddr n a).pageRefcnt } := by
  unfold markAllocated
  refine List.foldlRecOn (motive := fun b : Allocator => b = { a with pageRefcnt := b.pageRefcnt })
    _ _ rfl ?_
  intro b hb i _
  split
  · exact hb
  · rw [hb]

/-- The bump path for a size of any number of pages: what counts of it are the low 20
bits. -/
theorem reservePages_bump (h : a.Inv L) {n : Nat} (hshort : ∀ r ∈ a.freeRuns, r.pages < n) :
    reservePages n a =
      if a.metaTop < a.nextPaddr + n % 1048576 * 4096 then none
      else some (a.nextPaddr, { a with nextPaddr := a.nextPaddr + n % 1048576 * 4096 }) := by
  have hnext := h.next_lt
  have halign := h.next_align
  have htop : a.metaTop < 4294967296 := by
    have hle := h.nodes.top_le
    have hram := L.freeRam_fits
    unfold refTop Layout.freeRamEnd at hle
    omega
  have hbytes : u32 (n * pageSize) = n % 1048576 * 4096 := by
    unfold u32 pageSize
    omega
  unfold reservePages
  rw [takeFirstFit_eq_none.mpr hshort]
  dsimp only
  rw [hbytes]
  by_cases hwrap : a.nextPaddr + n % 1048576 * 4096 < 4294967296
  · rw [u32_of_lt hwrap]
    by_cases hroom : a.metaTop < a.nextPaddr + n % 1048576 * 4096
    · rw [if_pos (.inl hroom), if_pos hroom]
    · rw [if_neg (by omega), if_neg hroom]
  · -- The sum wraps once, and so lands below the bump pointer.
    have hsum : u32 (a.nextPaddr + n % 1048576 * 4096) < a.nextPaddr := by
      unfold u32
      omega
    rw [if_pos (.inr hsum), if_pos (by omega)]

theorem allocPagesMeta_pos (h : a.Inv L) {n : Nat} (hpos : 0 < n) :
    allocPagesMeta L n a =
      match reservePages n a with
      | none => (none, a)
      | some (paddr, b) => (some paddr, markAllocated L paddr n b) := by
  unfold allocPagesMeta
  rw [initAllocatorIfNeeded_of_inv h]
  exact if_neg hpos.ne'

/-- A request that a run of the free list can meet. -/
theorem Allocator.Inv.allocFit (h : a.Inv L) {n : Nat} (hpos : 0 < n)
    {found : Nat × List PageRun × Option Nat} (htake : takeFirstFit n a.freeRuns = some found) :
    AllocCase L n a (allocPagesMeta L n a).1 (allocPagesMeta L n a).2 := by
  obtain ⟨paddr, runs, node⟩ := found
  obtain ⟨hruns, ⟨r, hfirst, rfl⟩, hset, -⟩ := takeFirstFit_spec h.next_lt hpos h.runs htake
  have hres : ∃ b, reservePages n a = some (r.base, b) ∧ b.freeRuns = runs ∧
      b.nextPaddr = a.nextPaddr := by
    unfold reservePages
    rw [htake]
    cases node with
    | none => exact ⟨_, rfl, rfl, rfl⟩
    | some node => exact ⟨_, rfl, rfl, rfl⟩
  obtain ⟨b, hres, hlist, hnext⟩ := hres
  rw [allocPagesMeta_pos h hpos, hres]
  dsimp only
  rw [markAllocated_frame]
  refine .fit hfirst ?_ (Runs.canonical ?_) hnext
  · intro q
    rw [← hset q, ← hlist]
  · show Runs L.freeRam b.nextPaddr b.freeRuns
    rw [hnext, hlist]
    exact hruns

theorem Allocator.Inv.allocCase (h : a.Inv L) {n : Nat} (hpos : 0 < n) (hn : n < 1048576) :
    AllocCase L n a (allocPagesMeta L n a).1 (allocPagesMeta L n a).2 := by
  cases htake : takeFirstFit n a.freeRuns with
  | some found => exact h.allocFit hpos htake
  | none =>
      have hshort := takeFirstFit_eq_none.mp htake
      have hres := reservePages_bump h hshort
      rw [Nat.mod_eq_of_lt hn] at hres
      rw [allocPagesMeta_pos h hpos, hres]
      by_cases hroom : a.metaTop < a.nextPaddr + n * 4096
      · rw [if_pos hroom]
        exact .full hshort hroom
      · rw [if_neg hroom]
        dsimp only
        rw [markAllocated_frame]
        exact .bump hshort (Nat.le_of_not_lt hroom) rfl rfl

/-! ## The first call -/

/-- What a call works on: the allocator, which the first call has to set up.  Setting it
up places the counts, and leaves the free pages and the counts as they were. -/
structure Started (L : Layout) (s a : Allocator) : Prop where
  init : initAllocatorIfNeeded L s = some a
  same : s.initialized = true → a = s
  freeRuns : a.freeRuns = s.freeRuns
  nextPaddr : a.nextPaddr = s.nextPaddr
  pageRefcnt : a.pageRefcnt = s.pageRefcnt

theorem Allocator.Ready.started {s : Allocator} (h : s.Ready L) : ∃ a, Started L s a ∧ a.Inv L := by
  cases h with
  | inl hstatic =>
      subst hstatic
      obtain ⟨a, hinit, hinv, hzero, hruns, hnext, -⟩ :=
        initAllocatorIfNeeded_static (L := L) (a := Allocator.static L) rfl
      exact ⟨a, ⟨hinit, nofun, hruns, hnext, funext hzero⟩, hinv⟩
  | inr hinv => exact ⟨s, ⟨initAllocatorIfNeeded_of_inv hinv, fun _ => rfl, rfl, rfl, rfl⟩, hinv⟩

theorem Started.answer {s : Phys} (hstart : Started L s.alloc a) (h : a.Inv L) (n : Nat) :
    (allocPagesTry L n s).1 = (allocPagesMeta L n a).1 ∧
      (allocPagesTry L n s).2.alloc = (allocPagesMeta L n a).2 := by
  unfold allocPagesTry
  rw [allocPagesMeta_init hstart.init h]
  cases hmeta : allocPagesMeta L n a with
  | mk result c => cases result <;> exact ⟨rfl, rfl⟩

/-- In every state of every run of allocator calls, giving one page back and taking pages
out are exact operations on the set of free pages. -/
theorem allocator_exact {s : Ledger} (h : LedgerReachable L s) :
    ∃ a, Started L s.phys.alloc a ∧ a.Canonical L ∧
      (∀ counts paddr, paddr % 4096 = 0 → L.freeRam ≤ paddr → paddr < a.nextPaddr →
        FreesExactly L { a with pageRefcnt := counts } paddr) ∧
      ∀ n, 1 ≤ n → n < 1048576 →
        AllocCase L n a (allocPagesTry L n s.phys).1 (allocPagesTry L n s.phys).2.alloc := by
  obtain ⟨a, hstart, hinv⟩ := h.ok.ready.started
  refine ⟨a, hstart, hinv.runs.canonical, ?_, ?_⟩
  · intro counts paddr halign hlo hhi
    exact hinv.freesExactly counts halign hlo hhi
  · intro n hpos hn
    rw [(hstart.answer hinv n).1, (hstart.answer hinv n).2]
    exact hinv.allocCase hpos hn

/-- The page between the two that were given back joins them, and the next page that is taken is
the lowest of the three. -/
theorem allocator_exact_reused : ∃ s b, reusedRun = .ok s ∧ s.phys.alloc.freeRuns.length = 2 ∧
    freeSinglePageRaw 0x80207000 s.phys.alloc = .ok (some b) ∧ b.freeRuns.length = 1 ∧
    Freed Proc.smallLayout s.phys.alloc 0x80207000 b ∧
    AllocCase Proc.smallLayout 1 s.phys.alloc (some 0x80206000)
      (allocPagesTry Proc.smallLayout 1 s.phys).2.alloc := by
  have hrun : reusedRun.toOption.any (fun s =>
      s.phys.alloc.initialized && decide (s.phys.alloc.nextPaddr = 0x8020b000) &&
        decide (s.phys.alloc.freeRuns.length = 2) &&
        decide ((allocPagesTry Proc.smallLayout 1 s.phys).1 = some 0x80206000) &&
        (freeSinglePageRaw 0x80207000 s.phys.alloc).toOption.any fun out =>
          out.any fun b => decide (b.freeRuns.length = 1)) = true := by
    decide +kernel
  obtain ⟨s, hs, hvals⟩ := Proc.ok_of_any hrun
  rw [Bool.and_eq_true, Bool.and_eq_true, Bool.and_eq_true, Bool.and_eq_true, decide_eq_true_iff,
    decide_eq_true_iff, decide_eq_true_iff] at hvals
  obtain ⟨⟨⟨⟨hinit, hnext⟩, htwo⟩, hfirst⟩, hfree⟩ := hvals
  obtain ⟨out, hcall, hout⟩ := Proc.ok_of_any hfree
  obtain ⟨b, rfl, hone⟩ := (Option.any_eq_true _ _).mp hout
  obtain ⟨a, hstart, -, hexact, hcase⟩ := allocator_exact (reusedRun_reachable hs)
  obtain rfl := hstart.same hinit
  have hfreed : FreesExactly Proc.smallLayout s.phys.alloc 0x80207000 :=
    hexact s.phys.alloc.pageRefcnt 0x80207000 (by decide) (by decide) (by rw [hnext]; decide)
  have halloc := hcase 1 (by decide) (by decide)
  rw [hfirst] at halloc
  refine ⟨s, b, hs, htwo, hcall, of_decide_eq_true hone, ?_, halloc⟩
  exact (Outcome.of_eq_ok hfreed hcall).2

/-! ## Sizes of 32 bits -/

/-- The pages of a call are inside the managed memory, were not allocated, and are the only ones
whose counts change, or nothing changes. -/
def SizeExact (L : Layout) (n : Nat) (s : Phys) : Prop :=
  match allocPagesTry L n s with
  | (some paddr, t) =>
      L.freeRam ≤ paddr ∧ paddr + 4096 * n ≤ t.alloc.metaTop ∧
        (∀ i, InPages L paddr n i → s.alloc.pageRefcnt i = 0) ∧
        ∀ i, t.alloc.pageRefcnt i = if InPages L paddr n i then 1 else s.alloc.pageRefcnt i
  | (none, t) =>
      t.alloc.freeRuns = s.alloc.freeRuns ∧ t.alloc.nextPaddr = s.alloc.nextPaddr ∧
        t.alloc.pageRefcnt = s.alloc.pageRefcnt

/-- The product of the size and `PAGE_SIZE` does not wrap, or what is left of it does not
fit below `meta_top`. -/
def SizeFits (L : Layout) (n : Nat) (s : Phys) : Prop :=
  n < 1048576 ∨ ∀ a, initAllocatorIfNeeded L s.alloc = some a →
    a.metaTop < a.nextPaddr + n % 1048576 * 4096

/-- No run of the free list is as long as a size whose product wraps. -/
theorem Allocator.Inv.short (h : a.Inv L) {n : Nat} (hn : 1048576 ≤ n) :
    ∀ r ∈ a.freeRuns, r.pages < n := by
  intro r hr
  have hstop := (h.runs.mem hr).2.2.2
  have hnext := h.next_lt
  unfold PageRun.stop pageSize at hstop
  omega

theorem sizeExact_small {s : Phys} (h : s.alloc.Ready L) {n : Nat} (hn : n < 1048576) :
    SizeExact L n s := by
  obtain ⟨a, hstart, hinv⟩ := h.started
  obtain ⟨hresult, hafter⟩ := hstart.answer hinv n
  unfold SizeExact
  cases halloc : allocPagesTry L n s with
  | mk result t =>
      rw [halloc] at hresult hafter
      cases result with
      | none =>
          have hmeta : allocPagesMeta L n a = (none, t.alloc) := Prod.ext hresult.symm hafter.symm
          have hsame := (allocPagesMeta_none hinv hmeta).1
          dsimp only
          rw [hsame]
          exact ⟨hstart.freeRuns, hstart.nextPaddr, hstart.pageRefcnt⟩
      | some paddr =>
          obtain ⟨-, -, -, k, rfl, -, hfits, hfree, hcount⟩ := h.allocate hn halloc
          have hend : pageAddr L k + 4096 * n = pageAddr L (k + n) := by
            unfold pageAddr
            ring
          refine ⟨Nat.le_add_right _ _, ?_, ?_, ?_⟩
          · rw [hend]
            exact hfits
          · intro i hin
            rw [inPages_pageAddr] at hin
            exact hfree i hin.1 hin.2
          · intro i
            rw [hcount]
            simp only [inPages_pageAddr]

theorem Started.sizeFits_iff {s : Phys} (hstart : Started L s.alloc a) {n : Nat}
    (hn : 1048576 ≤ n) :
    SizeFits L n s ↔ a.metaTop < a.nextPaddr + n % 1048576 * 4096 := by
  unfold SizeFits
  rw [or_iff_right (Nat.not_lt.mpr hn)]
  constructor
  · intro hevery
    exact hevery a hstart.init
  · intro hone b hb
    rw [hstart.init] at hb
    exact Option.some.inj hb ▸ hone

/-- A size whose product wraps is refused, or answered with what is left of it. -/
theorem Started.allocLarge {s : Phys} (hstart : Started L s.alloc a) (h : a.Inv L) {n : Nat}
    (hn : 1048576 ≤ n) :
    (SizeFits L n s → (allocPagesTry L n s).1 = none ∧ (allocPagesTry L n s).2.alloc = a) ∧
    (¬ SizeFits L n s → (allocPagesTry L n s).1 = some a.nextPaddr ∧
      (allocPagesTry L n s).2.alloc.metaTop = a.metaTop) := by
  have hpos : 0 < n := by omega
  have hcall := hstart.answer h n
  rw [allocPagesMeta_pos h hpos, reservePages_bump h (h.short hn)] at hcall
  rw [hstart.sizeFits_iff hn]
  constructor
  · intro hroom
    rw [if_pos hroom] at hcall
    exact hcall
  · intro hroom
    rw [if_neg hroom] at hcall
    refine ⟨hcall.1, ?_⟩
    rw [hcall.2]
    dsimp only
    rw [markAllocated_frame]

theorem sizeExact_large {s : Phys} (h : s.alloc.Ready L) {n : Nat} (hn : 1048576 ≤ n) :
    SizeExact L n s ↔ SizeFits L n s := by
  obtain ⟨a, hstart, hinv⟩ := h.started
  obtain ⟨hrefused, hanswered⟩ := hstart.allocLarge hinv hn
  unfold SizeExact
  cases halloc : allocPagesTry L n s with
  | mk result t =>
      rw [halloc] at hrefused hanswered
      by_cases hfits : SizeFits L n s
      · obtain ⟨hresult, hafter⟩ := hrefused hfits
        dsimp only at hresult hafter
        subst hresult
        dsimp only
        rw [hafter]
        exact iff_of_true ⟨hstart.freeRuns, hstart.nextPaddr, hstart.pageRefcnt⟩ hfits
      · obtain ⟨hresult, htop⟩ := hanswered hfits
        dsimp only at hresult htop
        subst hresult
        dsimp only
        rw [htop]
        refine iff_of_false ?_ hfits
        rintro ⟨-, hend, -⟩
        have hle := hinv.nodes.top_le
        have hram := L.freeRam_fits
        unfold refTop Layout.freeRamEnd at hle
        omega

theorem sizeExact_iff_sizeFits {s : Phys} (h : s.alloc.Ready L) (n : Nat) :
    SizeExact L n s ↔ SizeFits L n s := by
  by_cases hn : n < 1048576
  · exact iff_of_true (sizeExact_small h hn) (Or.inl hn)
  · exact sizeExact_large h (Nat.le_of_not_lt hn)

/-- The calls of a run in which sizes are any numbers of 32 bits that fit. -/
def AllocCall.Sized (L : Layout) (s : Ledger) : AllocCall → Prop
  | .allocPagesTry n => n < 2 ^ 32 ∧ SizeFits L n s.phys
  | c => c.Admissible L s

/-- The states of runs of such calls. -/
inductive SizedReachable (L : Layout) : Ledger → Prop
  | boot (mem : Memory) (mmu : Mmu) : SizedReachable L (Ledger.boot L mem mmu)
  | step {s t : Ledger} (c : AllocCall) (h : SizedReachable L s) (hsized : c.Sized L s)
      (hrun : c.run L s = .ok t) : SizedReachable L t

/-- A size that wraps and fits is refused, as every size that does not wrap may be. -/
theorem Ledger.Ok.sizedStep {s t : Ledger} (h : s.Ok L) (c : AllocCall) (hsized : c.Sized L s)
    (hrun : c.run L s = .ok t) : t.Ok L := by
  cases c with
  | allocPagesTry n =>
      by_cases hn : n < 1048576
      · exact h.step (.allocPagesTry n) hn hrun
      · obtain ⟨a, hstart, hinv⟩ := h.ready.started
        have hnone := ((hstart.allocLarge hinv (Nat.le_of_not_lt hn)).1 hsized.2).1
        obtain ⟨u, hrefused⟩ : ∃ u, Mm.allocPagesTry L n s.phys = (none, u) :=
          ⟨_, Prod.ext hnone rfl⟩
        obtain ⟨hafter, hcount, hwarned⟩ := h.ready.refuse hrefused
        simp only [AllocCall.run, hrefused, Except.ok.injEq] at hrun
        subst hrun
        exact ⟨.inr hafter, h.balanced.of_eq hcount hwarned⟩
  | freePages paddr n => exact h.step (.freePages paddr n) hsized hrun
  | pageIncRef paddr => exact h.step (.pageIncRef paddr) hsized hrun
  | pageDecRef paddr => exact h.step (.pageDecRef paddr) hsized hrun
  | store i page => exact h.step (.store i page) hsized hrun

theorem SizedReachable.ok {s : Ledger} (h : SizedReachable L s) : s.Ok L := by
  induction h with
  | boot mem mmu => exact ⟨.inl rfl, ⟨fun _ _ => le_rfl, fun _ _ _ => rfl⟩⟩
  | step c _ hsized hrun ih => exact ih.sizedStep c hsized hrun

/-- In every state of every run of calls whose sizes fit, a call is exact if and only if
its size fits. -/
theorem alloc_size_exact_iff {s : Ledger} (h : SizedReachable L s) (n : UInt32) :
    SizeExact L n.toNat s.phys ↔ SizeFits L n.toNat s.phys :=
  sizeExact_iff_sizeFits h.ok.ready n.toNat

/-- The first call after boot asks for as many pages as a word can count. -/
theorem alloc_size_exact_refused :
    SizeExact Proc.smallLayout (2 ^ 32 - 1)
      (Ledger.boot Proc.smallLayout (fun _ _ => 1) ⟨0, [], fun _ => [], 0⟩).phys :=
  (alloc_size_exact_iff (.boot (fun _ _ => 1) ⟨0, [], fun _ => [], 0⟩) 4294967295).mpr <| by
    obtain ⟨a, hstart, hinv⟩ := (LedgerReachable.boot (L := Proc.smallLayout) (fun _ _ => 1)
      ⟨0, [], fun _ => [], 0⟩).ok.ready.started
    apply (hstart.sizeFits_iff (by decide)).mpr
    show a.metaTop < a.nextPaddr + 1048575 * 4096
    have htop := hinv.nodes.top_le
    have hlow := hinv.next_lo
    have hram := Proc.smallLayout.freeRam_fits
    unfold refTop Layout.freeRamEnd at htop
    omega

/-- Of `2 ^ 20` pages nothing is left after the product wraps, and the call succeeds. -/
theorem alloc_size_wraps : ¬ ∀ (L : Layout) (s : Ledger) (n : UInt32), LedgerReachable L s →
    SizeExact L n.toNat s.phys := by
  intro hall
  have hexact := hall Proc.smallLayout
    (Ledger.boot Proc.smallLayout (fun _ _ => 1) ⟨0, [], fun _ => [], 0⟩) (2 ^ 20) (.boot _ _)
  obtain ⟨a, hstart, hinv⟩ := (LedgerReachable.boot (L := Proc.smallLayout) (fun _ _ => 1)
    ⟨0, [], fun _ => [], 0⟩).ok.ready.started
  have hroom := (hstart.sizeFits_iff (n := 2 ^ 20) le_rfl).mp
    ((sizeExact_large (.inl rfl) le_rfl).mp hexact)
  have hnext := hinv.nodes.next_le
  omega

end Sugimotos.Mm
