/-
# Runs of the page allocator

A run is any sequence of calls to the allocator, from the static variables on,
with stores by the holders of pages in between.  `Ledger` adds to the machine
what the callers know: how many references to each page they were given and have
not given back.  A call that panics ends the run.
-/

import Sugimotos.Mm.SpaceOps
import Sugimotos.Proc.Run

namespace Sugimotos.Mm

open Sugimotos.Math

variable (L : Layout)

/-! ## Calls -/

/-- The machine, and the references outstanding for each managed page. -/
structure Ledger where
  phys : Phys
  held : Nat → Nat

/-- The calls of the allocator, and a store by whoever holds page `i`. -/
inductive AllocCall
  | allocPagesTry (n : Nat)
  | freePages (paddr n : Nat)
  | pageIncRef (paddr : Nat)
  | pageDecRef (paddr : Nat)
  | store (i : Nat) (page : PageBytes)

/-- Page `i` is one of the `n` pages from address `paddr` on. -/
def InPages (paddr n i : Nat) : Prop :=
  paddr ≤ pageAddr L i ∧ pageAddr L i < paddr + n * 4096

instance (paddr n i : Nat) : Decidable (InPages L paddr n i) :=
  inferInstanceAs (Decidable (_ ∧ _))

namespace Ledger

/-- The references after pages were handed out: one for each. -/
def give (paddr n : Nat) (held : Nat → Nat) : Nat → Nat :=
  fun i => if InPages L paddr n i then 1 else held i

/-- The references after one to each page was given back. -/
def take (paddr n : Nat) (held : Nat → Nat) : Nat → Nat :=
  fun i => if InPages L paddr n i then held i - 1 else held i

/-- The references after another one to a page was made. -/
def share (paddr : Nat) (held : Nat → Nat) : Nat → Nat :=
  fun i => if paddr = pageAddr L i then held i + 1 else held i

end Ledger

/-- One call, with its effect on the references outstanding. -/
def AllocCall.run (s : Ledger) : AllocCall → Except Panic Ledger
  | .allocPagesTry n =>
      match Mm.allocPagesTry L n s.phys with
      | (none, t) => .ok ⟨t, s.held⟩
      | (some paddr, t) => .ok ⟨t, Ledger.give L paddr n s.held⟩
  | .freePages paddr n =>
      (s.phys.withAlloc (Mm.freePages L paddr n)).map fun t => ⟨t, Ledger.take L paddr n s.held⟩
  | .pageIncRef paddr =>
      (s.phys.withAlloc (Mm.pageIncRef L paddr)).map fun t => ⟨t, Ledger.share L paddr s.held⟩
  | .pageDecRef paddr =>
      (s.phys.withAlloc (Mm.pageDecRef L paddr)).map fun t =>
        ⟨t, if isAligned paddr then Ledger.take L paddr 1 s.held else s.held⟩
  | .store i page => .ok { s with phys := s.phys.setPage (pageAddr L i) page }

/-- The calls a run may make: what all callers of `alloc_pages_try` ask for, no
count pushed past the range of `uint16_t`, stores to allocated pages only. -/
def AllocCall.Admissible (s : Ledger) : AllocCall → Prop
  | .allocPagesTry n => n < 1048576
  | .pageIncRef paddr =>
      ∀ i, i < 8192 → paddr = pageAddr L i → s.phys.alloc.pageRefcnt i < 65535
  | .store i _ => i < 8192 ∧ s.phys.alloc.pageRefcnt i ≠ 0
  | .freePages _ _ | .pageDecRef _ => True

/-- Before any call, with anything in memory. -/
def Ledger.boot (mem : Memory) (mmu : Mmu) : Ledger :=
  ⟨⟨Allocator.static L, mem, mmu⟩, fun _ => 0⟩

/-- The states of runs without a panic. -/
inductive LedgerReachable : Ledger → Prop
  | boot (mem : Memory) (mmu : Mmu) : LedgerReachable (Ledger.boot L mem mmu)
  | step {s t : Ledger} (c : AllocCall) (h : LedgerReachable s) (hadm : c.Admissible L s)
      (hrun : c.run L s = .ok t) : LedgerReachable t

/-! ## What holds of the allocator at all times -/

/-- The free list, the bump pointer, the counts and the nodes fit together. -/
structure Allocator.Consistent (a : Allocator) : Prop where
  /-- Strictly ascending, disjoint and not adjacent. -/
  ascending : a.freeRuns.Pairwise fun r s => r.stop < s.base
  runs : ∀ r ∈ a.freeRuns,
    0 < r.pages ∧ r.base % 4096 = 0 ∧ L.freeRam ≤ r.base ∧ r.stop ≤ a.nextPaddr
  next_align : a.nextPaddr % 4096 = 0
  next_le : a.nextPaddr ≤ a.metaTop
  refcnt_zero : ∀ i, i < 8192 →
    (a.pageRefcnt i = 0 ↔ Covers a.freeRuns (pageAddr L i) ∨ a.nextPaddr ≤ pageAddr L i)
  /-- A carved node is in the free list or in the list of released nodes, ... -/
  nodes : ∀ node, node ∈ carvedNodes L a.metaTop ↔
    node ∈ runNodes a.freeRuns ∨ node ∈ a.freeMetaNodes
  /-- ... in one of them, and once. -/
  nodup : (runNodes a.freeRuns ++ a.freeMetaNodes).Nodup
  node_range : ∀ node ∈ carvedNodes L a.metaTop, a.metaTop ≤ node ∧ node + pageRunSize ≤ refTop L
  node_apart : (carvedNodes L a.metaTop).Pairwise fun m n =>
    m + pageRunSize ≤ n ∨ n + pageRunSize ≤ m

/-- What a caller of `alloc_pages_try` can rely on. -/
structure Granted (s : Ledger) (n paddr : Nat) (t : Phys) : Prop where
  pos : 0 < n
  aligned : paddr % 4096 = 0
  managed : L.freeRam ≤ paddr
  below : paddr + n * 4096 ≤ t.alloc.metaTop
  counts : t.alloc.metaTop ≤ refTop L
  zero : ∀ p, paddr / 4096 ≤ p → p < paddr / 4096 + n → t.mem p = zeroPage
  fresh : ∀ i, i < 8192 → s.held i ≠ 0 ∨ s.phys.alloc.pageRefcnt i ≠ 0 → ¬ InPages L paddr n i
  nodes : ∀ node, node ∈ runNodes t.alloc.freeRuns ∨ node ∈ t.alloc.freeMetaNodes →
    paddr + n * 4096 ≤ node

variable {L}

/-! ## Nodes -/

theorem mem_carvedNodes {top node : Nat} :
    node ∈ carvedNodes L top ↔
      ∃ k, k < (refTop L - top) / 12 ∧ refTop L - 12 * (k + 1) = node := by
  simp [carvedNodes]

/-- A carved node lies between `meta_top` and the counts. -/
theorem carvedNodes_range {top node : Nat} (hnode : node ∈ carvedNodes L top) :
    top ≤ node ∧ node + 12 ≤ refTop L := by
  obtain ⟨k, hk, rfl⟩ := mem_carvedNodes.mp hnode
  omega

/-- Carved nodes do not overlap. -/
theorem carvedNodes_apart (top : Nat) :
    (carvedNodes L top).Pairwise fun m n => m + 12 ≤ n ∨ n + 12 ≤ m := by
  unfold carvedNodes
  refine List.Pairwise.map _ (R := fun i j => i < j ∧ j < (refTop L - top) / 12) ?_ ?_
  · intro i j hij
    right
    omega
  · refine List.Pairwise.imp_of_mem ?_ List.pairwise_lt_range
    intro i j _ hj hij
    exact ⟨hij, List.mem_range.mp hj⟩

theorem carvedNodes_nodup (top : Nat) : (carvedNodes L top).Nodup :=
  (carvedNodes_apart top).imp fun h heq => by
    subst heq
    omega

/-! ## Pages -/

theorem inPages_pageAddr {k n i : Nat} :
    InPages L (pageAddr L k) n i ↔ k ≤ i ∧ i < k + n := by
  unfold InPages pageAddr
  omega

/-! ## Before the first call -/

/-- Either no call was made yet, or the invariant holds. -/
def Allocator.Ready (L : Layout) (a : Allocator) : Prop :=
  a = Allocator.static L ∨ a.Inv L

namespace Allocator.Ready

variable {a : Allocator}

/-- Every call starts from an allocator that satisfies the invariant, with the
counts and the free list it had before. -/
theorem init (h : a.Ready L) :
    ∃ b, initAllocatorIfNeeded L a = some b ∧ b.Inv L ∧ b.pageRefcnt = a.pageRefcnt ∧
      b.freeMetaOomWarned = a.freeMetaOomWarned := by
  rcases h with rfl | h
  · obtain ⟨b, hinit, hinv, hzero, -⟩ :=
      initAllocatorIfNeeded_static (L := L) (a := Allocator.static L) rfl
    refine ⟨b, hinit, hinv, funext hzero, ?_⟩
    simp only [initAllocatorIfNeeded, Allocator.static, Bool.false_eq_true, if_false] at hinit
    split at hinit
    · cases hinit
    · simp only [Option.some.injEq] at hinit
      rw [← hinit]
      rfl
  · exact ⟨a, initAllocatorIfNeeded_of_inv h, h, rfl, rfl⟩

theorem consistent (h : a.Ready L) : a.Consistent L := by
  rcases h with rfl | h
  · have hnone : carvedNodes L (Allocator.static L).metaTop = [] := by
      have : refTop L - L.freeRamEnd = 0 := by
        unfold refTop
        omega
      simp [carvedNodes, Allocator.static, this]
    refine ⟨List.Pairwise.nil, ?_, L.freeRam_aligned, ?_, ?_, ?_, ?_, ?_, ?_⟩
    · intro r hr
      cases hr
    · show L.freeRam ≤ L.freeRamEnd
      unfold Layout.freeRamEnd
      omega
    · intro i _
      simp [Allocator.static, pageAddr]
    · intro node
      rw [hnone]
      simp [Allocator.static, runNodes]
    · exact List.nodup_nil
    · rw [hnone]
      intro node hnode
      cases hnode
    · rw [hnone]
      exact List.Pairwise.nil
  · refine ⟨h.runs.pairwise, ?_, h.next_align, h.nodes.next_le, h.refcnt_zero, ?_, ?_, ?_,
      carvedNodes_apart _⟩
    · intro r hr
      obtain ⟨hlo, halign, hpos, hhi⟩ := h.runs.mem hr
      exact ⟨hpos, halign, hlo, hhi⟩
    · intro node
      rw [← h.nodes.nodes.mem_iff, List.mem_append]
    · exact h.nodes.nodes.nodup_iff.mpr (carvedNodes_nodup _)
    · intro node hnode
      exact carvedNodes_range hnode

end Allocator.Ready

/-! ## References and counts -/

/-- No more references are outstanding than counted, and exactly as many as long
as no page was leaked. -/
structure Balanced (a : Allocator) (held : Nat → Nat) : Prop where
  le : ∀ i, i < 8192 → held i ≤ a.pageRefcnt i
  eq : a.freeMetaOomWarned = false → ∀ i, i < 8192 → held i = a.pageRefcnt i

namespace Balanced

variable {a b : Allocator} {held : Nat → Nat}

theorem congr {held' : Nat → Nat} (h : Balanced a held) (heq : ∀ i, i < 8192 → held' i = held i) :
    Balanced a held' := by
  refine ⟨fun i hi => ?_, fun hno i hi => ?_⟩
  · rw [heq i hi]
    exact h.le i hi
  · rw [heq i hi]
    exact h.eq hno i hi

theorem of_eq (h : Balanced a held) (hcount : b.pageRefcnt = a.pageRefcnt)
    (hwarned : b.freeMetaOomWarned = a.freeMetaOomWarned) : Balanced b held := by
  refine ⟨fun i hi => ?_, fun hno i hi => ?_⟩
  · rw [hcount]
    exact h.le i hi
  · rw [hcount]
    exact h.eq (hwarned.symm.trans hno) i hi

/-- Giving back one reference. -/
theorem drop (h : Balanced a held) (hinv : a.Inv L) {i : Nat} (hi : i < 8192)
    (hpos : a.pageRefcnt i ≠ 0) :
    Outcome (dropRef (pageAddr L i) i a)
      (fun b => b.Inv L ∧ Balanced b (Function.update held i (held i - 1))) (fun _ => False) := by
  refine (dropRef_spec hinv hi hpos).imp ?_
  rintro b ⟨hb, hcount⟩
  refine ⟨hb, ?_⟩
  have hle := h.le i hi
  rcases hcount with ⟨hcount, hwarned⟩ | ⟨hone, -, rfl⟩
  · refine ⟨fun j hj => ?_, fun hno j hj => ?_⟩
    · rw [hcount]
      by_cases hji : j = i
      · subst hji
        simp only [Function.update_self]
        omega
      · simp only [Function.update_of_ne hji]
        exact h.le j hj
    · rw [hcount]
      have heq := h.eq (hwarned.symm.trans hno)
      by_cases hji : j = i
      · subst hji
        simp only [Function.update_self, heq j hj]
      · simp only [Function.update_of_ne hji]
        exact heq j hj
  · -- The page is leaked: it keeps the count one, with nobody holding it.
    refine ⟨fun j hj => ?_, fun hno => ?_⟩
    · show Function.update held i (held i - 1) j ≤ a.pageRefcnt j
      by_cases hji : j = i
      · subst hji
        simp only [Function.update_self]
        omega
      · simp only [Function.update_of_ne hji]
        exact h.le j hj
    · cases hno

/-- Another reference to a page in use. -/
theorem share (h : Balanced a held) {i : Nat} :
    Balanced { a with pageRefcnt := Function.update a.pageRefcnt i (a.pageRefcnt i + 1) }
      (Ledger.share L (pageAddr L i) held) := by
  have hshare : ∀ j, Ledger.share L (pageAddr L i) held j =
      if j = i then held j + 1 else held j := by
    intro j
    simp only [Ledger.share, pageAddr_inj, eq_comm]
  refine ⟨fun j hj => ?_, fun hno j hj => ?_⟩
  · have hle := h.le j hj
    rw [hshare]
    show _ ≤ Function.update a.pageRefcnt i (a.pageRefcnt i + 1) j
    by_cases hji : j = i
    · subst hji
      rw [if_pos rfl, Function.update_self]
      omega
    · rw [if_neg hji, Function.update_of_ne hji]
      exact hle
  · have heq := h.eq hno j hj
    rw [hshare]
    show _ = Function.update a.pageRefcnt i (a.pageRefcnt i + 1) j
    by_cases hji : j = i
    · subst hji
      rw [if_pos rfl, Function.update_self, heq]
    · rw [if_neg hji, Function.update_of_ne hji]
      exact heq

/-- New pages, one reference each. -/
theorem give (h : Balanced a held) {k n : Nat} (hwarned : b.freeMetaOomWarned = a.freeMetaOomWarned)
    (hcount : b.pageRefcnt = fun i => if k ≤ i ∧ i < k + n then 1 else a.pageRefcnt i) :
    Balanced b (Ledger.give L (pageAddr L k) n held) := by
  have hgive : ∀ i, Ledger.give L (pageAddr L k) n held i =
      if k ≤ i ∧ i < k + n then 1 else held i := by
    intro i
    simp only [Ledger.give, inPages_pageAddr]
  have hcounts : ∀ i, b.pageRefcnt i = if k ≤ i ∧ i < k + n then 1 else a.pageRefcnt i := by
    intro i
    rw [hcount]
  refine ⟨fun i hi => ?_, fun hno i hi => ?_⟩
  · rw [hgive, hcounts]
    by_cases hin : k ≤ i ∧ i < k + n
    · rw [if_pos hin, if_pos hin]
    · rw [if_neg hin, if_neg hin]
      exact h.le i hi
  · rw [hgive, hcounts]
    by_cases hin : k ≤ i ∧ i < k + n
    · rw [if_pos hin, if_pos hin]
    · rw [if_neg hin, if_neg hin]
      exact h.eq (hwarned.symm.trans hno) i hi

/-- The loop of `free_pages`: one reference to each page is given back, unless
it stops on a page that is free. -/
theorem freeLoop (h : Balanced a held) (hinv : a.Inv L) {k n : Nat} (hn : k + n ≤ 8192) :
    Outcome ((List.range n).foldlM (freePage L (pageAddr L k)) a)
      (fun b => b.Inv L ∧ Balanced b (Ledger.take L (pageAddr L k) n held)) (fun _ => True) := by
  induction n with
  | zero =>
      refine ⟨hinv, ?_⟩
      have hnone : Ledger.take L (pageAddr L k) 0 held = held := by
        funext i
        refine if_neg ?_
        rw [inPages_pageAddr]
        omega
      rw [hnone]
      exact h
  | succ n ih =>
      rw [List.range_succ, List.foldlM_append]
      refine (ih (by omega)).bind ?_
      rintro b ⟨hb, hbal⟩
      have haddr : u32 (pageAddr L k + u32 (n * pageSize)) = pageAddr L (k + n) := by
        have := L.freeRam_fits
        rw [u32_of_lt (n := n * pageSize) (by unfold pageSize; omega)]
        rw [u32_of_lt (by unfold pageAddr pageSize; omega)]
        unfold pageAddr pageSize
        ring
      have hlast : Ledger.take L (pageAddr L k) (n + 1) held =
          Function.update (Ledger.take L (pageAddr L k) n held) (k + n)
            (Ledger.take L (pageAddr L k) n held (k + n) - 1) := by
        funext i
        by_cases hi : i = k + n
        · subst hi
          simp only [Function.update_self, Ledger.take, inPages_pageAddr]
          rw [if_pos (by omega), if_neg (by omega)]
        · rw [Function.update_of_ne hi]
          simp only [Ledger.take, inPages_pageAddr]
          by_cases hin : k ≤ i ∧ i < k + n
          · rw [if_pos hin, if_pos (by omega)]
          · rw [if_neg hin, if_neg (by omega)]
      have hidx := pageIdxIfManaged_pageAddr (L := L) hb.count (i := k + n) (by omega)
      simp only [List.foldlM_cons, List.foldlM_nil, freePage, haddr, hidx]
      by_cases hzero : b.pageRefcnt (k + n) = 0
      · rw [if_pos hzero]
        trivial
      · rw [if_neg hzero, hlast]
        refine ((hbal.drop hb (by omega) hzero).mono (fun _ hc => hc) fun _ hc => hc.elim).bind ?_
        intro c hc
        exact hc

end Balanced

/-! ## Calls -/

variable {a b : Allocator}

theorem allocPagesMeta_init {n : Nat} (hinit : initAllocatorIfNeeded L a = some b) (hb : b.Inv L) :
    allocPagesMeta L n a = allocPagesMeta L n b := by
  simp only [allocPagesMeta, hinit, initAllocatorIfNeeded_of_inv hb]

theorem freePages_init {paddr n : Nat} (hinit : initAllocatorIfNeeded L a = some b)
    (hb : b.Inv L) : freePages L paddr n a = freePages L paddr n b := by
  simp only [freePages, hinit, initAllocatorIfNeeded_of_inv hb]

theorem pageIncRef_init {paddr : Nat} (hinit : initAllocatorIfNeeded L a = some b)
    (hb : b.Inv L) : pageIncRef L paddr a = pageIncRef L paddr b := by
  simp only [pageIncRef, hinit, initAllocatorIfNeeded_of_inv hb]

theorem pageDecRef_init {paddr : Nat} (hinit : initAllocatorIfNeeded L a = some b)
    (hb : b.Inv L) : pageDecRef L paddr a = pageDecRef L paddr b := by
  simp only [pageDecRef, hinit, initAllocatorIfNeeded_of_inv hb]

/-- An allocation does not touch the warning flag. -/
theorem allocPagesMeta_warned (h : a.Inv L) {n paddr : Nat} (hn : n < 1048576)
    (halloc : allocPagesMeta L n a = (some paddr, b)) :
    b.freeMetaOomWarned = a.freeMetaOomWarned := by
  unfold allocPagesMeta at halloc
  rw [initAllocatorIfNeeded_of_inv h] at halloc
  by_cases hzero : n = 0
  · simp [hzero] at halloc
  simp only [if_neg hzero] at halloc
  cases hres : reservePages n a with
  | none => simp [hres] at halloc
  | some pair =>
      obtain ⟨p, c⟩ := pair
      obtain ⟨k, rfl, hblock, -, hcount, -⟩ :=
        reservePages_spec h (Nat.pos_of_ne_zero hzero) hn hres
      have hbound := hblock.bound
      simp only [hres, markAllocated_eq hcount (show k + n ≤ 8192 by omega), Prod.mk.injEq] at halloc
      rw [← halloc.2]
      show c.freeMetaOomWarned = _
      unfold reservePages at hres
      split at hres
      · simp only [Option.some.injEq, Prod.mk.injEq] at hres
        rw [← hres.2]
        rfl
      · simp only [Option.some.injEq, Prod.mk.injEq] at hres
        rw [← hres.2]
      · dsimp only at hres
        split at hres
        · cases hres
        · simp only [Option.some.injEq, Prod.mk.injEq] at hres
          rw [← hres.2]

/-- What `alloc_pages_try` does when it succeeds, on the first call or later. -/
theorem Allocator.Ready.allocate {s t : Phys} {n paddr : Nat} (h : s.alloc.Ready L)
    (hn : n < 1048576) (halloc : allocPagesTry L n s = (some paddr, t)) :
    t.alloc.Inv L ∧ t.alloc.freeMetaOomWarned = s.alloc.freeMetaOomWarned ∧
      t.mem = zeroPages s.mem paddr (n * 4096) ∧
      ∃ k, paddr = pageAddr L k ∧ 0 < n ∧ pageAddr L (k + n) ≤ t.alloc.metaTop ∧
        (∀ i, k ≤ i → i < k + n → s.alloc.pageRefcnt i = 0) ∧
        t.alloc.pageRefcnt = fun i => if k ≤ i ∧ i < k + n then 1 else s.alloc.pageRefcnt i := by
  obtain ⟨b, hinit, hb, hcount, hwarned⟩ := h.init
  unfold allocPagesTry at halloc
  rw [allocPagesMeta_init hinit hb] at halloc
  cases hmeta : allocPagesMeta L n b with
  | mk result c =>
      cases result with
      | none => simp [hmeta] at halloc
      | some p =>
          simp only [hmeta, Prod.mk.injEq, Option.some.injEq] at halloc
          obtain ⟨rfl, rfl⟩ := halloc
          obtain ⟨hc, hpos, htop, k, hk, hblock, href⟩ := allocPagesMeta_some hb hn hmeta
          have hbytes : u32 (n * pageSize) = n * 4096 := u32_of_lt (by unfold pageSize; omega)
          refine ⟨hc, (allocPagesMeta_warned hb hn hmeta).trans hwarned, ?_, k, hk, hpos, ?_, ?_, ?_⟩
          · rw [hbytes]
          · rw [htop]
            exact hblock.fits
          · rw [← hcount]
            exact hblock.free
          · rw [← hcount]
            exact href

/-- A failed allocation at most makes the first initialisation. -/
theorem Allocator.Ready.refuse {s t : Phys} {n : Nat} (h : s.alloc.Ready L)
    (halloc : allocPagesTry L n s = (none, t)) :
    t.alloc.Inv L ∧ t.alloc.pageRefcnt = s.alloc.pageRefcnt ∧
      t.alloc.freeMetaOomWarned = s.alloc.freeMetaOomWarned := by
  obtain ⟨b, hinit, hb, hcount, hwarned⟩ := h.init
  unfold allocPagesTry at halloc
  rw [allocPagesMeta_init hinit hb] at halloc
  cases hmeta : allocPagesMeta L n b with
  | mk result c =>
      cases result with
      | none =>
          obtain ⟨rfl, -⟩ := allocPagesMeta_none hb hmeta
          simp only [hmeta, Prod.mk.injEq, true_and] at halloc
          subst halloc
          exact ⟨hb, hcount, hwarned⟩
      | some p => simp [hmeta] at halloc

/-! ## Runs -/

/-- The invariant of a run. -/
structure Ledger.Ok (L : Layout) (s : Ledger) : Prop where
  ready : s.phys.alloc.Ready L
  balanced : Balanced s.phys.alloc s.held

/-- An allocator call that does not panic, on the machine. -/
theorem withAlloc_ok {s : Phys} {call : Allocator → Except Panic Allocator} {f : Phys → Ledger}
    {t : Ledger} (h : (s.withAlloc call).map f = .ok t) :
    ∃ c, call s.alloc = .ok c ∧ t = f { s with alloc := c } := by
  unfold Phys.withAlloc at h
  cases hcall : call s.alloc with
  | error e =>
      rw [hcall] at h
      cases h
  | ok c =>
      rw [hcall] at h
      cases h
      exact ⟨c, rfl, rfl⟩

namespace Ledger.Ok

variable {s t : Ledger}

theorem stepFree (h : s.Ok L) {paddr n : Nat}
    (hrun : (AllocCall.freePages paddr n).run L s = .ok t) : t.Ok L := by
  obtain ⟨c, hcall, rfl⟩ := withAlloc_ok hrun
  obtain ⟨b, hinit, hb, hcount, hwarned⟩ := h.ready.init
  have hbal := h.balanced.of_eq hcount hwarned
  rw [freePages_init hinit hb] at hcall
  unfold freePages at hcall
  rw [initAllocatorIfNeeded_of_inv hb] at hcall
  by_cases hzero : n = 0
  · simp [hzero] at hcall
  simp only [if_neg hzero] at hcall
  by_cases halign : isAligned paddr
  · simp only [halign, not_true_eq_false, if_false] at hcall
    split at hcall
    · cases hcall
    · rename_i hrange
      rw [isAligned_iff] at halign
      have hbase := L.freeRam_aligned
      have hk : paddr = pageAddr L ((paddr - L.freeRam) / 4096) := by
        unfold pageAddr
        omega
      have hn : (paddr - L.freeRam) / 4096 + n ≤ 8192 := by
        unfold Layout.freeRamEnd pageSize at hrange
        omega
      rw [hk] at hcall ⊢
      have hloop := (hbal.freeLoop hb hn).of_eq_ok hcall
      exact ⟨.inr hloop.1, hloop.2⟩
  · simp [halign] at hcall

theorem stepInc (h : s.Ok L) {paddr : Nat} (hadm : (AllocCall.pageIncRef paddr).Admissible L s)
    (hrun : (AllocCall.pageIncRef paddr).run L s = .ok t) : t.Ok L := by
  obtain ⟨c, hcall, rfl⟩ := withAlloc_ok hrun
  obtain ⟨b, hinit, hb, hcount, hwarned⟩ := h.ready.init
  have hbal := h.balanced.of_eq hcount hwarned
  rw [pageIncRef_init hinit hb] at hcall
  cases hidx : pageIdxIfManaged L b paddr with
  | none =>
      simp only [pageIncRef, initAllocatorIfNeeded_of_inv hb, hidx] at hcall
      cases hcall
      refine ⟨.inr hb, hbal.congr fun i hi => if_neg fun hp => ?_⟩
      rw [hp, pageIdxIfManaged_pageAddr hb.count hi] at hidx
      cases hidx
  | some i =>
      obtain ⟨hi, rfl⟩ := (pageIdxIfManaged_eq_some hb.count).mp hidx
      by_cases hzero : b.pageRefcnt i = 0
      · simp [pageIncRef, initAllocatorIfNeeded_of_inv hb, hidx, hzero] at hcall
      · have hroom : b.pageRefcnt i < 65535 := by
          rw [hcount]
          exact hadm i hi rfl
        obtain ⟨hc, rfl⟩ := (pageIncRef_spec hb hi hzero hroom).of_eq_ok hcall
        exact ⟨.inr hc, hbal.share⟩

theorem stepDec (h : s.Ok L) {paddr : Nat}
    (hrun : (AllocCall.pageDecRef paddr).run L s = .ok t) : t.Ok L := by
  obtain ⟨c, hcall, rfl⟩ := withAlloc_ok hrun
  obtain ⟨b, hinit, hb, hcount, hwarned⟩ := h.ready.init
  have hbal := h.balanced.of_eq hcount hwarned
  rw [pageDecRef_init hinit hb] at hcall
  cases hidx : pageIdxIfManaged L b paddr with
  | none =>
      simp only [pageDecRef, initAllocatorIfNeeded_of_inv hb, hidx] at hcall
      cases hcall
      refine ⟨.inr hb, hbal.congr fun i hi => ?_⟩
      show (if isAligned paddr then Ledger.take L paddr 1 s.held else s.held) i = _
      by_cases halign : isAligned paddr
      · rw [if_pos halign]
        rw [isAligned_iff] at halign
        refine if_neg fun hin => ?_
        have hbase := L.freeRam_aligned
        have hp : paddr = pageAddr L i := by
          unfold InPages pageAddr at hin
          unfold pageAddr
          omega
        rw [hp, pageIdxIfManaged_pageAddr hb.count hi] at hidx
        cases hidx
      · rw [if_neg halign]
  | some i =>
      obtain ⟨hi, rfl⟩ := (pageIdxIfManaged_eq_some hb.count).mp hidx
      by_cases hzero : b.pageRefcnt i = 0
      · simp [pageDecRef, initAllocatorIfNeeded_of_inv hb, hidx, hzero] at hcall
      · rw [pageDecRef_pageAddr hb hi hzero] at hcall
        obtain ⟨hc, hdrop⟩ := (hbal.drop hb hi hzero).of_eq_ok hcall
        have halign : isAligned (pageAddr L i) := by
          have := L.freeRam_aligned
          rw [isAligned_iff]
          unfold pageAddr
          omega
        refine ⟨.inr hc, ?_⟩
        rw [if_pos halign]
        refine hdrop.congr fun j _ => ?_
        simp only [Ledger.take, inPages_pageAddr]
        by_cases hji : j = i
        · subst hji
          rw [Function.update_self, if_pos (by omega)]
        · rw [Function.update_of_ne hji, if_neg (by omega)]

/-- Every admissible call keeps the invariant. -/
theorem step (h : s.Ok L) (c : AllocCall) (hadm : c.Admissible L s)
    (hrun : c.run L s = .ok t) : t.Ok L := by
  cases c with
  | allocPagesTry n =>
      unfold AllocCall.run at hrun
      cases halloc : Mm.allocPagesTry L n s.phys with
      | mk result t' =>
          cases result with
          | none =>
              simp only [halloc, Except.ok.injEq] at hrun
              subst hrun
              obtain ⟨hinv, hcount, hwarned⟩ := h.ready.refuse halloc
              exact ⟨.inr hinv, h.balanced.of_eq hcount hwarned⟩
          | some paddr =>
              simp only [halloc, Except.ok.injEq] at hrun
              subst hrun
              obtain ⟨hinv, hwarned, -, k, rfl, -, -, -, hcount⟩ := h.ready.allocate hadm halloc
              exact ⟨.inr hinv, h.balanced.give hwarned hcount⟩
  | freePages paddr n => exact h.stepFree hrun
  | pageIncRef paddr => exact h.stepInc hadm hrun
  | pageDecRef paddr => exact h.stepDec hrun
  | store i page =>
      cases hrun
      exact ⟨h.ready, h.balanced⟩

end Ledger.Ok

/-- The invariant holds in every state of a run. -/
theorem LedgerReachable.ok {s : Ledger} (h : LedgerReachable L s) : s.Ok L := by
  induction h with
  | boot mem mmu => exact ⟨.inl rfl, ⟨fun _ _ => le_rfl, fun _ _ _ => rfl⟩⟩
  | step c _ hadm hrun ih => exact ih.step c hadm hrun

/-- What `alloc_pages_try` hands out in the course of a run. -/
theorem Ledger.Ok.granted {s : Ledger} {t : Phys} {n paddr : Nat} (h : s.Ok L) (hn : n < 1048576)
    (halloc : allocPagesTry L n s.phys = (some paddr, t)) : Granted L s n paddr t := by
  obtain ⟨hinv, -, hmem, k, rfl, hpos, hfits, hfree, -⟩ := h.ready.allocate hn halloc
  have hbase := L.freeRam_aligned
  have hend : pageAddr L k + n * 4096 = pageAddr L (k + n) := by
    unfold pageAddr
    ring
  refine ⟨hpos, ?_, ?_, ?_, hinv.nodes.top_le, ?_, ?_, ?_⟩
  · unfold pageAddr
    omega
  · unfold pageAddr
    omega
  · rw [hend]
    exact hfits
  · intro p hlo hhi
    rw [hmem]
    refine if_pos ⟨hlo, ?_⟩
    omega
  · intro i hi hused hin
    rw [inPages_pageAddr] at hin
    have hzero := hfree i hin.1 hin.2
    have hle := h.balanced.le i hi
    omega
  · intro node hnode
    have hcarved := ((Allocator.Ready.consistent (.inr hinv)).nodes node).mpr hnode
    have := (carvedNodes_range hcarved).1
    omega

/-- In every state of every run of allocator calls the free list, the counts and
the nodes fit together, no page has more references than its count, and the
pages of the next allocation are zero and nobody else's. -/
theorem allocator_safe {s : Ledger} (h : LedgerReachable L s) :
    s.phys.alloc.Consistent L ∧ (∀ i, i < 8192 → s.held i ≤ s.phys.alloc.pageRefcnt i) ∧
      ∀ n, n < 1048576 → ∀ paddr t, allocPagesTry L n s.phys = (some paddr, t) →
        Granted L s n paddr t :=
  ⟨h.ok.ready.consistent, h.ok.balanced.le, fun _ hn _ _ halloc => h.ok.granted hn halloc⟩

/-- Calls that may be made in every state. -/
theorem LedgerReachable.foldlM {calls : List AllocCall} {s t : Ledger} (h : LedgerReachable L s)
    (hadm : ∀ c ∈ calls, ∀ s, c.Admissible L s) (hrun : calls.foldlM (AllocCall.run L) s = .ok t) :
    LedgerReachable L t := by
  induction calls generalizing s with
  | nil =>
      cases hrun
      exact h
  | cons c calls ih =>
      rw [List.foldlM_cons] at hrun
      cases hcall : c.run L s with
      | error e =>
          rw [hcall] at hrun
          cases hrun
      | ok s₁ =>
          rw [hcall] at hrun
          exact ih (h.step c (hadm c List.mem_cons_self s) hcall)
            (fun c' hc' => hadm c' (List.mem_cons_of_mem _ hc')) hrun

/-- Six pages are taken, and the second and the fourth are given back. -/
def reusedCalls : List AllocCall :=
  [.allocPagesTry 3, .allocPagesTry 2, .allocPagesTry 1, .freePages 0x80206000 1,
    .freePages 0x80208000 1]

/-- The calls, from boot on, in memory full of ones. -/
def reusedRun : Except Panic Ledger :=
  reusedCalls.foldlM (AllocCall.run Proc.smallLayout)
    (Ledger.boot Proc.smallLayout (fun _ _ => 1) ⟨0, [], fun _ => [], 0⟩)

theorem reusedRun_reachable {s : Ledger} (h : reusedRun = .ok s) :
    LedgerReachable Proc.smallLayout s := by
  refine LedgerReachable.foldlM (.boot _ _) ?_ h
  intro c hc s
  simp only [reusedCalls, List.mem_cons, List.not_mem_nil, or_false] at hc
  rcases hc with rfl | rfl | rfl | rfl | rfl
  · exact (by decide : 3 < 1048576)
  · exact (by decide : 2 < 1048576)
  · exact (by decide : 1 < 1048576)
  · trivial
  · trivial

/-- The lower page that was given back is handed out again. -/
theorem allocator_safe_reused : ∃ s t, reusedRun = .ok s ∧
    allocPagesTry Proc.smallLayout 1 s.phys = (some 0x80206000, t) ∧
    s.phys.alloc.Consistent Proc.smallLayout ∧ Granted Proc.smallLayout s 1 0x80206000 t := by
  have hrun : reusedRun.toOption.any (fun s =>
      decide ((allocPagesTry Proc.smallLayout 1 s.phys).1 = some 0x80206000)) = true := by
    decide +kernel
  obtain ⟨s, hs, hfirst⟩ := Proc.ok_of_any hrun
  have hcall : allocPagesTry Proc.smallLayout 1 s.phys =
      (some 0x80206000, (allocPagesTry Proc.smallLayout 1 s.phys).2) :=
    Prod.ext (of_decide_eq_true hfirst) rfl
  have hsafe := allocator_safe (reusedRun_reachable hs)
  exact ⟨s, _, hs, hcall, hsafe.1, hsafe.2.2 1 (by decide) _ _ hcall⟩

end Sugimotos.Mm
