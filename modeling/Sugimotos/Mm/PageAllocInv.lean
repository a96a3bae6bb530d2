/-
# The allocator invariant

`Allocator.Inv` ties the free list, the bump pointer, the list nodes and the
reference counts together: a page has count zero exactly when it is in a free
run or was never handed out.  Every entry point of the allocator keeps it, and
its effect on the counts is stated exactly, the leak fallback of a free without
a list node included.
-/

import Sugimotos.Mm.PageRuns

namespace Sugimotos.Mm

open Sugimotos.Math

variable (L : Layout)

/-- Address of the managed page with index `i`. -/
def pageAddr (i : Nat) : Nat := L.freeRam + i * 4096

/-- What holds of the allocator between two calls. -/
structure Allocator.Inv (a : Allocator) : Prop where
  initialized : a.initialized = true
  count : a.managedPageCount = 8192
  runs : Runs L.freeRam a.nextPaddr a.freeRuns
  next_lo : L.freeRam ≤ a.nextPaddr
  next_align : a.nextPaddr % 4096 = 0
  nodes : MetaOk L (runNodes a.freeRuns) a
  refcnt_zero : ∀ i, i < 8192 →
    (a.pageRefcnt i = 0 ↔ Covers a.freeRuns (pageAddr L i) ∨ a.nextPaddr ≤ pageAddr L i)

variable {L} {a : Allocator}

namespace Allocator.Inv

theorem next_lt (h : a.Inv L) : a.nextPaddr < 4294967296 := by
  have h1 := h.nodes.next_le
  have h2 := h.nodes.top_le
  have h3 := L.freeRam_fits
  unfold refTop Layout.freeRamEnd at h2
  omega

/-- The bump pointer is at a page boundary of managed memory. -/
theorem next_eq (h : a.Inv L) : ∃ k, k ≤ 8188 ∧ a.nextPaddr = pageAddr L k := by
  have h1 := h.nodes.next_le
  have h2 := h.nodes.top_le
  have h3 := h.next_lo
  have h4 := h.next_align
  have h5 := L.freeRam_aligned
  unfold refTop Layout.freeRamEnd at h2
  refine ⟨(a.nextPaddr - L.freeRam) / 4096, by omega, ?_⟩
  unfold pageAddr
  omega

end Allocator.Inv

/-! ## Initialisation -/

theorem initAllocatorIfNeeded_of_inv (h : a.Inv L) : initAllocatorIfNeeded L a = some a := by
  simp [initAllocatorIfNeeded, h.initialized]

/-- The state the first call sets up. -/
theorem initAllocatorIfNeeded_static (h : a.initialized = false) :
    ∃ b, initAllocatorIfNeeded L a = some b ∧ b.Inv L ∧ (∀ i, b.pageRefcnt i = 0) ∧
      b.freeRuns = [] ∧ b.nextPaddr = L.freeRam ∧ b.metaTop = refTop L := by
  have halign := L.freeRam_aligned
  have hcount : (L.freeRamEnd - L.freeRam) / pageSize = 8192 := by
    unfold Layout.freeRamEnd
    rw [Nat.add_sub_cancel_left, show 0x2000000 / pageSize = 8192 by decide]
  have htop : (L.freeRamEnd - 8192 * 2) / 4 * 4 = refTop L := by
    unfold refTop Layout.freeRamEnd
    omega
  have hroom : ¬ refTop L ≤ L.freeRam := by
    unfold refTop Layout.freeRamEnd
    omega
  simp only [initAllocatorIfNeeded, h, Bool.false_eq_true, if_false, hcount, htop, if_neg hroom]
  refine ⟨_, rfl, ?_, fun _ => rfl, rfl, rfl, rfl⟩
  refine ⟨rfl, rfl, trivial, le_rfl, halign, ⟨le_rfl, ?_, ?_, ?_⟩, ?_⟩
  · simp
  · exact Nat.le_of_not_le hroom
  · simp [runNodes, carvedNodes]
  · intro i _
    simp [pageAddr]

/-! ## Indices -/

theorem pageIdxIfManaged_pageAddr (h : a.managedPageCount = 8192) {i : Nat} (hi : i < 8192) :
    pageIdxIfManaged L a (pageAddr L i) = some i := by
  have halign := L.freeRam_aligned
  have hlt : ¬ (pageAddr L i < L.freeRam ∨ L.freeRamEnd ≤ pageAddr L i) := by
    unfold pageAddr Layout.freeRamEnd
    omega
  have haligned : isAligned (pageAddr L i) = true := by
    rw [isAligned_iff]
    unfold pageAddr
    omega
  have hidx : (pageAddr L i - L.freeRam) / pageSize = i := by
    unfold pageAddr pageSize
    omega
  simp only [pageIdxIfManaged, if_neg hlt, haligned, not_true_eq_false, if_false, hidx, h]
  rw [if_neg (by omega)]

theorem pageIdxIfManaged_eq_some (h : a.managedPageCount = 8192) {paddr i : Nat} :
    pageIdxIfManaged L a paddr = some i ↔ i < 8192 ∧ paddr = pageAddr L i := by
  constructor
  · intro hidx
    simp only [pageIdxIfManaged] at hidx
    split at hidx
    · cases hidx
    · split at hidx
      · cases hidx
      · rename_i hrange halign
        split at hidx
        · cases hidx
        · rename_i hcount
          have hbase := L.freeRam_aligned
          simp only [Option.some.injEq, pageSize] at hidx hcount
          simp only [isAligned_iff, not_not] at halign
          rw [h] at hcount
          unfold pageAddr
          omega
  · rintro ⟨hi, rfl⟩
    exact pageIdxIfManaged_pageAddr h hi

theorem pageAddr_lt {i : Nat} (hi : i < 8192) : pageAddr L i < 4294967296 := by
  have := L.freeRam_fits
  unfold pageAddr
  omega

theorem pageAddr_inj {i j : Nat} : pageAddr L i = pageAddr L j ↔ i = j := by
  unfold pageAddr
  omega

/-! ## Allocation -/

/-- The marking loop writes one into the counts of `n` consecutive pages. -/
theorem markAllocated_eq (h : a.managedPageCount = 8192) {k n : Nat} (hn : k + n ≤ 8192) :
    markAllocated L (pageAddr L k) n a =
      { a with pageRefcnt := fun i => if k ≤ i ∧ i < k + n then 1 else a.pageRefcnt i } := by
  induction n with
  | zero =>
      have hnone : ∀ i, ¬ (k ≤ i ∧ i < k + 0) := by
        intro i
        omega
      simp only [markAllocated, List.range_zero, List.foldl_nil, if_neg (hnone _)]
  | succ n ih =>
      have haddr : u32 (pageAddr L k + u32 (n * pageSize)) = pageAddr L (k + n) := by
        have := L.freeRam_fits
        rw [u32_of_lt (n := n * pageSize) (by unfold pageSize; omega)]
        rw [u32_of_lt (by unfold pageAddr pageSize; omega)]
        unfold pageAddr pageSize
        ring
      have hprev := ih (by omega)
      unfold markAllocated at hprev ⊢
      rw [List.range_succ, List.foldl_append, hprev]
      simp only [List.foldl_cons, List.foldl_nil, haddr]
      have hidx : pageIdxIfManaged L { a with
          pageRefcnt := fun i => if k ≤ i ∧ i < k + n then 1 else a.pageRefcnt i }
          (pageAddr L (k + n)) = some (k + n) := pageIdxIfManaged_pageAddr h (by omega)
      simp only [hidx]
      congr 1
      funext i
      by_cases hi : i = k + n
      · subst hi
        simp
      · rw [Function.update_of_ne hi]
        by_cases hin : k ≤ i ∧ i < k + n
        · rw [if_pos hin, if_pos (by omega)]
        · rw [if_neg hin, if_neg (by omega)]

/-- Pages of a free run have count zero. -/
theorem Allocator.Inv.refcnt_of_covers (h : a.Inv L) {i : Nat}
    (hc : Covers a.freeRuns (pageAddr L i)) : i < 8192 ∧ a.pageRefcnt i = 0 := by
  have hb := h.runs.covers_bounds hc
  have h1 := h.nodes.next_le
  have h2 := h.nodes.top_le
  have hi : i < 8192 := by
    unfold refTop Layout.freeRamEnd at h2
    unfold pageAddr at hb
    omega
  exact ⟨hi, (h.refcnt_zero i hi).mpr (.inl hc)⟩

/-- A set of `n` pages that starts at index `k` and is free in `a`. -/
structure FreeBlock (a : Allocator) (L : Layout) (k n : Nat) : Prop where
  fits : pageAddr L (k + n) ≤ a.metaTop
  bound : k + n ≤ 8188
  free : ∀ i, k ≤ i → i < k + n → a.pageRefcnt i = 0

/-- What `alloc_pages_try` takes out of the allocator, before counting it. -/
theorem reservePages_spec (h : a.Inv L) {n paddr : Nat} {b : Allocator} (hpos : 0 < n)
    (hn : n < 1048576) (hres : reservePages n a = some (paddr, b)) :
    ∃ k, paddr = pageAddr L k ∧ FreeBlock a L k n ∧
      b.initialized = true ∧ b.managedPageCount = 8192 ∧ b.metaTop = a.metaTop ∧
      b.pageRefcnt = a.pageRefcnt ∧ Runs L.freeRam b.nextPaddr b.freeRuns ∧
      L.freeRam ≤ b.nextPaddr ∧ b.nextPaddr % 4096 = 0 ∧ MetaOk L (runNodes b.freeRuns) b ∧
      (∀ i, i < 8192 → (Covers b.freeRuns (pageAddr L i) ∨ b.nextPaddr ≤ pageAddr L i ↔
        (Covers a.freeRuns (pageAddr L i) ∨ a.nextPaddr ≤ pageAddr L i) ∧
          ¬ (k ≤ i ∧ i < k + n))) := by
  have hnext := h.next_lt
  have htop := h.nodes.top_le
  have hnle := h.nodes.next_le
  have halign := L.freeRam_aligned
  unfold reservePages at hres
  cases htake : takeFirstFit n a.freeRuns with
  | some t =>
      obtain ⟨p, runs, node⟩ := t
      obtain ⟨hruns, ⟨r, ⟨before, after, hsplit, hfit, -⟩, hbase⟩, hset, hnodes⟩ :=
        takeFirstFit_spec hnext hpos h.runs htake
      have hr := h.runs.mem (r := r) (by rw [hsplit]; simp)
      simp only [PageRun.stop, pageSize] at hr
      -- Either way the new allocator is the old one with `runs` and the node given back.
      have hb : paddr = p ∧ b = { a with
          freeRuns := runs, freeMetaNodes := node.toList ++ a.freeMetaNodes } := by
        cases node with
        | none =>
            simp only [htake, Option.some.injEq, Prod.mk.injEq] at hres
            exact ⟨hres.1.symm, by rw [← hres.2]; rfl⟩
        | some m =>
            simp only [htake, Option.some.injEq, Prod.mk.injEq] at hres
            exact ⟨hres.1.symm, by rw [← hres.2]; rfl⟩
      obtain ⟨rfl, rfl⟩ := hb
      have hk : paddr = pageAddr L ((paddr - L.freeRam) / 4096) := by
        unfold pageAddr
        omega
      refine ⟨(paddr - L.freeRam) / 4096, hk, ⟨?_, ?_, ?_⟩, h.initialized, h.count, rfl, rfl, hruns,
        h.next_lo, h.next_align, ⟨h.nodes.top_le, h.nodes.top_mod, h.nodes.next_le, ?_⟩, ?_⟩
      · unfold pageAddr at hk ⊢
        omega
      · unfold refTop Layout.freeRamEnd at htop
        omega
      · intro i hlo hhi
        refine (h.refcnt_of_covers ⟨r, by rw [hsplit]; simp, ?_⟩).2
        simp only [PageRun.Covers, PageRun.stop, pageSize]
        unfold pageAddr
        omega
      · show (runNodes runs ++ (node.toList ++ a.freeMetaNodes)).Perm _
        rw [← List.append_assoc]
        exact ((List.perm_append_comm.trans hnodes).append_right _).trans h.nodes.nodes
      · intro i hi
        have hcov : paddr ≤ pageAddr L i ∧ pageAddr L i < paddr + n * 4096 ↔
            (paddr - L.freeRam) / 4096 ≤ i ∧ i < (paddr - L.freeRam) / 4096 + n := by
          unfold pageAddr
          omega
        have hout : a.nextPaddr ≤ pageAddr L i →
            ¬ (paddr ≤ pageAddr L i ∧ pageAddr L i < paddr + n * 4096) := by
          intro hle
          omega
        show Covers runs _ ∨ _ ↔ _
        rw [hset, ← hcov]
        constructor
        · rintro (⟨hc, hno⟩ | hle)
          · exact ⟨.inl hc, hno⟩
          · exact ⟨.inr hle, hout hle⟩
        · rintro ⟨hc | hle, hno⟩
          · exact .inl ⟨hc, hno⟩
          · exact .inr hle
  | none =>
      simp only [htake] at hres
      split at hres
      · cases hres
      · rename_i hroom
        simp only [Option.some.injEq, Prod.mk.injEq] at hres
        obtain ⟨rfl, rfl⟩ := hres
        obtain ⟨k, hk8, hk⟩ := h.next_eq
        have hmul : u32 (n * pageSize) = n * 4096 := u32_of_lt (by unfold pageSize; omega)
        rw [hmul] at hroom ⊢
        have hnew : u32 (a.nextPaddr + n * 4096) = a.nextPaddr + n * 4096 := by
          -- A sum that wrapped would lie below `next_paddr` and be refused.
          by_cases hwrap : a.nextPaddr + n * 4096 < 4294967296
          · exact u32_of_lt hwrap
          · exfalso
            unfold u32 at hroom
            omega
        rw [hnew] at hroom ⊢
        refine ⟨k, hk, ⟨?_, ?_, ?_⟩, h.initialized, h.count, rfl, rfl, ?_, ?_, ?_, ?_, ?_⟩
        · unfold pageAddr at hk ⊢
          omega
        · unfold refTop Layout.freeRamEnd at htop
          unfold pageAddr at hk
          omega
        · intro i hlo hhi
          refine (h.refcnt_zero i ?_).mpr (.inr ?_)
          · unfold refTop Layout.freeRamEnd at htop
            unfold pageAddr at hk
            omega
          · rw [hk]
            unfold pageAddr
            omega
        · exact h.runs.mono_hi (Nat.le_add_right _ _)
        · exact h.next_lo.trans (Nat.le_add_right _ _)
        · have := h.next_align
          show (a.nextPaddr + n * 4096) % 4096 = 0
          omega
        · refine ⟨h.nodes.top_le, h.nodes.top_mod, ?_, h.nodes.nodes⟩
          show a.nextPaddr + n * 4096 ≤ a.metaTop
          omega
        · intro i hi
          show Covers a.freeRuns _ ∨ a.nextPaddr + n * 4096 ≤ _ ↔ _
          have hbelow : Covers a.freeRuns (pageAddr L i) → ¬ (k ≤ i ∧ i < k + n) := by
            intro hc hin
            have := (h.runs.covers_bounds hc).2
            rw [hk] at this
            unfold pageAddr at this
            omega
          rw [hk]
          unfold pageAddr at hbelow ⊢
          constructor
          · rintro (hc | hle)
            · exact ⟨.inl hc, hbelow hc⟩
            · exact ⟨.inr (by omega), by omega⟩
          · rintro ⟨hc | hle, hno⟩
            · exact .inl hc
            · right
              omega

/-- A failed `alloc_pages_try` changes nothing. -/
theorem allocPagesMeta_none (h : a.Inv L) {n : Nat} {b : Allocator}
    (halloc : allocPagesMeta L n a = (none, b)) :
    b = a ∧ (n = 0 ∨ reservePages n a = none) := by
  unfold allocPagesMeta at halloc
  rw [initAllocatorIfNeeded_of_inv h] at halloc
  by_cases hzero : n = 0
  · simp only [if_pos hzero, Prod.mk.injEq, true_and] at halloc
    exact ⟨halloc.symm, .inl hzero⟩
  simp only [if_neg hzero] at halloc
  cases hres : reservePages n a with
  | none =>
      simp only [hres, Prod.mk.injEq, true_and] at halloc
      exact ⟨halloc.symm, .inr rfl⟩
  | some pair => simp [hres] at halloc

/-- A successful `alloc_pages_try` hands out a block of free pages and gives each
of them the count one. -/
theorem allocPagesMeta_some (h : a.Inv L) {n paddr : Nat} (hn : n < 1048576) {b : Allocator}
    (halloc : allocPagesMeta L n a = (some paddr, b)) :
    b.Inv L ∧ 0 < n ∧ b.metaTop = a.metaTop ∧ ∃ k, paddr = pageAddr L k ∧ FreeBlock a L k n ∧
      b.pageRefcnt = fun i => if k ≤ i ∧ i < k + n then 1 else a.pageRefcnt i := by
  unfold allocPagesMeta at halloc
  rw [initAllocatorIfNeeded_of_inv h] at halloc
  by_cases hzero : n = 0
  · simp [hzero] at halloc
  have hpos := Nat.pos_of_ne_zero hzero
  simp only [if_neg hzero] at halloc
  cases hres : reservePages n a with
  | none => simp [hres] at halloc
  | some pair =>
      obtain ⟨p, c⟩ := pair
      simp only [hres, Prod.mk.injEq, Option.some.injEq] at halloc
      obtain ⟨rfl, hb⟩ := halloc
      obtain ⟨k, rfl, hblock, hinit, hcount, htop, href, hruns, hlo, halign, hmeta, hset⟩ :=
        reservePages_spec h hpos hn hres
      have hbound := hblock.bound
      rw [markAllocated_eq hcount (by omega)] at hb
      subst hb
      refine ⟨⟨hinit, hcount, hruns, hlo, halign,
        ⟨hmeta.top_le, hmeta.top_mod, hmeta.next_le, hmeta.nodes⟩, ?_⟩,
        hpos, htop, k, rfl, hblock, by simp [href]⟩
      intro i hi
      show (if k ≤ i ∧ i < k + n then 1 else c.pageRefcnt i) = 0 ↔ _
      rw [hset i hi, ← h.refcnt_zero i hi, href]
      by_cases hin : k ≤ i ∧ i < k + n
      · simp [hin]
      · simp [hin]

/-! ## Release -/

/-- `free_single_page_raw` adds exactly the page, keeps the list canonical, and
stops exactly on a page that is already free. -/
theorem freeSinglePageRaw_spec {paddr : Nat} (hnext : a.nextPaddr < 4294967296)
    (hruns : Runs L.freeRam a.nextPaddr a.freeRuns) (hmeta : MetaOk L (runNodes a.freeRuns) a)
    (halign : paddr % 4096 = 0) (hlo : L.freeRam ≤ paddr) (hhi : paddr + 4096 ≤ a.nextPaddr) :
    Outcome (freeSinglePageRaw paddr a)
      (fun result => ¬ Covers a.freeRuns paddr ∧
        match result with
        | none => NoNode a
        | some b => Runs L.freeRam a.nextPaddr b.freeRuns ∧
            (∀ q, Covers b.freeRuns q ↔ Covers a.freeRuns q ∨ (paddr ≤ q ∧ q < paddr + 4096)) ∧
            MetaOk L (runNodes b.freeRuns) b ∧ SameCounts a b)
      (fun _ => Covers a.freeRuns paddr) := by
  unfold freeSinglePageRaw
  cases hlist : a.freeRuns with
  | nil =>
      rw [hlist] at hmeta
      cases halloc : allocRunNode a with
      | none =>
          exact ⟨covers_nil paddr, (allocRunNode_eq_none hmeta).mp halloc⟩
      | some pair =>
          obtain ⟨n, b⟩ := pair
          obtain ⟨hmeta', hsame, -⟩ := allocRunNode_spec hmeta halloc
          refine ⟨covers_nil paddr, ⟨hlo, halign, Nat.one_pos, ?_, trivial⟩, ?_, ?_, ?_⟩
          · simp only [PageRun.stop, pageSize]
            omega
          · intro q
            simp only [covers_cons, PageRun.Covers, PageRun.stop, pageSize, covers_nil, or_false,
              false_or, Nat.one_mul]
          · exact ⟨hmeta'.top_le, hmeta'.top_mod, hmeta'.next_le,
              by simpa [runNodes] using hmeta'.nodes⟩
          · exact ⟨hsame.1, hsame.2, hsame.3, hsame.4, hsame.5⟩
  | cons head rest =>
      rw [hlist] at hruns hmeta
      by_cases hbelow : paddr < head.base
      · -- The page lies below the whole list.
        simp only [if_pos hbelow]
        have hfar : ∀ q, Covers (head :: rest) q → head.base ≤ q := by
          intro q hq
          have hall : Runs head.base a.nextPaddr (head :: rest) := ⟨le_rfl, hruns.2⟩
          exact (hall.covers_bounds hq).1
        have hfree : ¬ Covers (head :: rest) paddr := fun hc => absurd (hfar _ hc) (by omega)
        obtain ⟨hbase, hhalign, hhpos, hhstop, hhrest⟩ := hruns
        simp only [PageRun.stop, pageSize] at hhstop
        by_cases hover : head.base < paddr + pageSize
        · exfalso
          simp only [pageSize] at hover
          omega
        simp only [if_neg hover]
        by_cases hadj : paddr + pageSize = head.base
        · simp only [if_pos hadj]
          simp only [pageSize] at hadj
          refine ⟨hfree, ⟨hlo, halign, Nat.succ_pos _, ?_, ?_⟩, ?_, ?_, ⟨rfl, rfl, rfl, rfl, rfl⟩⟩
          · simp only [PageRun.stop, pageSize]
            omega
          · refine hhrest.mono_lo ?_
            simp only [PageRun.stop, pageSize]
            omega
          · intro q
            simp only [covers_cons, PageRun.Covers, PageRun.stop, pageSize]
            constructor
            · rintro (hq | hq)
              · by_cases hlow : q < paddr + 4096
                · right; omega
                · left; left; omega
              · exact .inl (.inr hq)
            · rintro ((hq | hq) | hq)
              · left; omega
              · exact .inr hq
              · left; omega
          · exact ⟨hmeta.top_le, hmeta.top_mod, hmeta.next_le, hmeta.nodes⟩
        · simp only [if_neg hadj]
          simp only [pageSize] at hadj hover
          cases halloc : allocRunNode a with
          | none => exact ⟨hfree, (allocRunNode_eq_none hmeta).mp halloc⟩
          | some pair =>
              obtain ⟨n, b⟩ := pair
              obtain ⟨hmeta', hsame, -⟩ := allocRunNode_spec hmeta halloc
              refine ⟨hfree, ⟨hlo, halign, Nat.one_pos, ?_, ?_, hhalign, hhpos, ?_, hhrest⟩, ?_, ?_,
                ⟨hsame.1, hsame.2, hsame.3, hsame.4, hsame.5⟩⟩
              · simp only [PageRun.stop, pageSize]
                omega
              · simp only [PageRun.stop, pageSize]
                omega
              · simp only [PageRun.stop, pageSize]
                omega
              · intro q
                rw [covers_cons]
                simp only [PageRun.Covers, PageRun.stop, pageSize, Nat.one_mul]
                rw [or_comm]
              · exact ⟨hmeta'.top_le, hmeta'.top_mod, hmeta'.next_le,
                  by simpa [runNodes] using hmeta'.nodes⟩
      · simp only [if_neg hbelow]
        have hspec := freeAfter_spec (L := L) [] hruns halign (Nat.le_of_not_lt hbelow)
          hhi hmeta
        cases hres : freeAfter paddr a head rest with
        | error e =>
            rw [hres] at hspec
            exact hspec
        | ok result =>
            rw [hres] at hspec
            cases result with
            | noNode => exact ⟨hspec.2, hspec.1⟩
            | extended runs b =>
                obtain ⟨⟨hruns', hset, hmeta', hsame, -⟩, hfree⟩ := hspec
                exact ⟨hfree, hruns', hset,
                  ⟨hmeta'.top_le, hmeta'.top_mod, hmeta'.next_le, hmeta'.nodes⟩,
                  ⟨hsame.1, hsame.2, hsame.3, hsame.4, hsame.5⟩⟩
            | inserted runs b =>
                obtain ⟨⟨hruns', hset, hmeta', hsame, -⟩, hfree⟩ := hspec
                show _ ∧ _
                -- The coalescing pass finds nothing to do.
                rw [coalesceFreeRuns_of_runs hnext { b with freeRuns := runs } hruns']
                exact ⟨hfree, hruns', hset,
                  ⟨hmeta'.top_le, hmeta'.top_mod, hmeta'.next_le, hmeta'.nodes⟩,
                  ⟨hsame.1, hsame.2, hsame.3, hsame.4, hsame.5⟩⟩

/-- Dropping a reference lowers one count; the page of a last reference becomes
free, unless there is no list node, in which case nothing but the warning flag
changes. -/
theorem dropRef_spec (h : a.Inv L) {i : Nat} (hi : i < 8192) (hpos : a.pageRefcnt i ≠ 0) :
    Outcome (dropRef (pageAddr L i) i a)
      (fun b => b.Inv L ∧
        ((b.pageRefcnt = Function.update a.pageRefcnt i (a.pageRefcnt i - 1) ∧
            b.freeMetaOomWarned = a.freeMetaOomWarned) ∨
          (a.pageRefcnt i = 1 ∧ NoNode a ∧ b = { a with freeMetaOomWarned := true })))
      (fun _ => False) := by
  have hfree : ¬ (Covers a.freeRuns (pageAddr L i) ∨ a.nextPaddr ≤ pageAddr L i) :=
    fun hc => hpos ((h.refcnt_zero i hi).mpr hc)
  rw [not_or] at hfree
  have halign : pageAddr L i % 4096 = 0 := by
    have := L.freeRam_aligned
    unfold pageAddr
    omega
  unfold dropRef
  simp only [Function.update_self]
  by_cases hlast : a.pageRefcnt i - 1 = 0
  · rw [if_pos hlast]
    have hone : a.pageRefcnt i = 1 := by omega
    set c : Allocator :=
      { a with pageRefcnt := Function.update a.pageRefcnt i (a.pageRefcnt i - 1) } with hc
    have hroom : pageAddr L i + 4096 ≤ a.nextPaddr := by
      have := h.next_align
      omega
    have hspec := freeSinglePageRaw_spec (L := L) (a := c) h.next_lt h.runs
      ⟨h.nodes.top_le, h.nodes.top_mod, h.nodes.next_le, h.nodes.nodes⟩ halign
      (by unfold pageAddr; omega) hroom
    cases hres : freeSinglePageRaw (pageAddr L i) c with
    | error e =>
        rw [hres] at hspec
        exact absurd hspec hfree.1
    | ok result =>
        rw [hres] at hspec
        cases result with
        | none =>
            have hsame : ({ c with
                pageRefcnt := Function.update c.pageRefcnt i 1
                freeMetaOomWarned := true } : Allocator) =
                { a with freeMetaOomWarned := true } := by
              simp only [hc, Function.update_idem]
              rw [← hone, Function.update_eq_self]
            show _ ∧ _
            rw [hsame]
            exact ⟨⟨h.initialized, h.count, h.runs, h.next_lo, h.next_align,
              ⟨h.nodes.top_le, h.nodes.top_mod, h.nodes.next_le, h.nodes.nodes⟩, h.refcnt_zero⟩,
              .inr ⟨hone, hspec.2, rfl⟩⟩
        | some b =>
            obtain ⟨-, hruns, hset, hmeta, hsame⟩ := hspec
            refine ⟨⟨hsame.initialized.trans h.initialized,
              hsame.managedPageCount.trans h.count, ?_, ?_, ?_, hmeta, ?_⟩,
              .inl ⟨hsame.pageRefcnt, hsame.freeMetaOomWarned⟩⟩
            · rw [hsame.nextPaddr]
              exact hruns
            · rw [hsame.nextPaddr]
              exact h.next_lo
            · rw [hsame.nextPaddr]
              exact h.next_align
            · intro j hj
              rw [hsame.pageRefcnt, hsame.nextPaddr, hset]
              show Function.update a.pageRefcnt i (a.pageRefcnt i - 1) j = 0 ↔
                (Covers a.freeRuns _ ∨ _) ∨ a.nextPaddr ≤ _
              by_cases hji : j = i
              · subst hji
                rw [Function.update_self]
                simp [hlast]
              · rw [Function.update_of_ne hji, h.refcnt_zero j hj]
                have : ¬ (pageAddr L i ≤ pageAddr L j ∧ pageAddr L j < pageAddr L i + 4096) := by
                  unfold pageAddr
                  omega
                simp only [this, or_false]
  · rw [if_neg hlast]
    refine ⟨⟨h.initialized, h.count, h.runs, h.next_lo, h.next_align,
      ⟨h.nodes.top_le, h.nodes.top_mod, h.nodes.next_le, h.nodes.nodes⟩, ?_⟩, .inl ⟨rfl, rfl⟩⟩
    intro j hj
    show Function.update a.pageRefcnt i (a.pageRefcnt i - 1) j = 0 ↔ _
    by_cases hji : j = i
    · subst hji
      rw [Function.update_self]
      simp [hlast, hfree]
    · rw [Function.update_of_ne hji]
      exact h.refcnt_zero j hj

/-- `page_dec_ref` on a managed page in use. -/
theorem pageDecRef_pageAddr (h : a.Inv L) {i : Nat} (hi : i < 8192) (hpos : a.pageRefcnt i ≠ 0) :
    pageDecRef L (pageAddr L i) a = dropRef (pageAddr L i) i a := by
  simp only [pageDecRef, initAllocatorIfNeeded_of_inv h, pageIdxIfManaged_pageAddr h.count hi,
    if_neg hpos]

/-- `free_pages` of one managed page in use. -/
theorem freePages_pageAddr_one (h : a.Inv L) {i : Nat} (hi : i < 8192)
    (hpos : a.pageRefcnt i ≠ 0) :
    freePages L (pageAddr L i) 1 a = dropRef (pageAddr L i) i a := by
  have halign : isAligned (pageAddr L i) = true := by
    have := L.freeRam_aligned
    rw [isAligned_iff]
    unfold pageAddr
    omega
  have hrange : ¬ (pageAddr L i < L.freeRam ∨ L.freeRamEnd < pageAddr L i + 1 * pageSize) := by
    unfold pageAddr Layout.freeRamEnd pageSize
    omega
  have haddr : u32 (pageAddr L i + u32 (0 * pageSize)) = pageAddr L i := by
    rw [Nat.zero_mul, u32_of_lt (n := 0) (by decide), Nat.add_zero, u32_of_lt (pageAddr_lt hi)]
  simp only [freePages, initAllocatorIfNeeded_of_inv h, halign, not_true_eq_false, if_false,
    if_neg hrange, Nat.one_ne_zero, List.range_one, List.foldlM_cons, List.foldlM_nil, freePage,
    haddr, pageIdxIfManaged_pageAddr h.count hi, if_neg hpos]
  cases dropRef (pageAddr L i) i a <;> rfl

/-- `page_inc_ref` on a managed page in use whose counter has room. -/
theorem pageIncRef_spec (h : a.Inv L) {i : Nat} (hi : i < 8192) (hpos : a.pageRefcnt i ≠ 0)
    (hroom : a.pageRefcnt i < 65535) :
    Outcome (pageIncRef L (pageAddr L i) a)
      (fun b => b.Inv L ∧ b = { a with
        pageRefcnt := Function.update a.pageRefcnt i (a.pageRefcnt i + 1) })
      (fun _ => False) := by
  simp only [pageIncRef, initAllocatorIfNeeded_of_inv h, pageIdxIfManaged_pageAddr h.count hi,
    if_neg hpos]
  rw [Nat.mod_eq_of_lt (by omega)]
  refine ⟨⟨h.initialized, h.count, h.runs, h.next_lo, h.next_align,
    ⟨h.nodes.top_le, h.nodes.top_mod, h.nodes.next_le, h.nodes.nodes⟩, ?_⟩, rfl⟩
  intro j hj
  show Function.update a.pageRefcnt i (a.pageRefcnt i + 1) j = 0 ↔ _
  by_cases hji : j = i
  · subst hji
    rw [Function.update_self, ← h.refcnt_zero j hj]
    omega
  · rw [Function.update_of_ne hji]
    exact h.refcnt_zero j hj

end Sugimotos.Mm
