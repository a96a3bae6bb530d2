/-
# The free list as a set of pages

`Runs lo hi` is the canonical form of the free list: runs are non-empty, page
aligned, lie in `[lo, hi]`, and each starts strictly after the end of the one
before it, so that no two of them could be merged.  `Covers` is the set of
addresses a list stands for.

The two list algorithms of the allocator are specified here against these two
notions: the first-fit scan removes a prefix of the lowest run that is long
enough, and the insertion of a page adds exactly that page, keeps the canonical
form, and stops exactly on a page that is already there.
-/

import Sugimotos.Math.Outcome
import Sugimotos.Mm.PageAlloc

namespace Sugimotos.Mm

open Sugimotos.Math

namespace PageRun

/-- End address of a run. -/
def stop (r : PageRun) : Nat := r.base + r.pages * pageSize

/-- The addresses inside a run. -/
def Covers (r : PageRun) (q : Nat) : Prop := r.base ≤ q ∧ q < r.stop

end PageRun

/-- The addresses inside some run of the list. -/
def Covers (runs : List PageRun) (q : Nat) : Prop := ∃ r ∈ runs, r.Covers q

@[simp]
theorem covers_nil (q : Nat) : ¬ Covers [] q := by
  rintro ⟨r, hr, -⟩
  cases hr

@[simp]
theorem covers_cons (r : PageRun) (runs : List PageRun) (q : Nat) :
    Covers (r :: runs) q ↔ r.Covers q ∨ Covers runs q := by
  simp [Covers]

/-- Canonical free lists between `lo` and `hi`. -/
def Runs (lo hi : Nat) : List PageRun → Prop
  | [] => True
  | r :: rest =>
      lo ≤ r.base ∧ r.base % 4096 = 0 ∧ 0 < r.pages ∧ r.stop ≤ hi ∧ Runs (r.stop + 1) hi rest

namespace Runs

variable {lo hi : Nat} {runs : List PageRun}

theorem mono_lo {lo' : Nat} (h : Runs lo hi runs) (hlo : lo' ≤ lo) : Runs lo' hi runs := by
  cases runs with
  | nil => trivial
  | cons r rest => exact ⟨hlo.trans h.1, h.2⟩

theorem mono_hi {hi' : Nat} (h : Runs lo hi runs) (hhi : hi ≤ hi') : Runs lo hi' runs := by
  induction runs generalizing lo with
  | nil => trivial
  | cons r rest ih =>
      obtain ⟨hbase, halign, hpos, hstop, hrest⟩ := h
      exact ⟨hbase, halign, hpos, hstop.trans hhi, ih hrest⟩

theorem mem {r : PageRun} (h : Runs lo hi runs) (hr : r ∈ runs) :
    lo ≤ r.base ∧ r.base % 4096 = 0 ∧ 0 < r.pages ∧ r.stop ≤ hi := by
  induction runs generalizing lo with
  | nil => cases hr
  | cons s rest ih =>
      obtain ⟨hbase, halign, hpos, hstop, hrest⟩ := h
      rcases List.mem_cons.mp hr with rfl | hr
      · exact ⟨hbase, halign, hpos, hstop⟩
      · obtain ⟨hlo, hrest'⟩ := ih hrest hr
        refine ⟨?_, hrest'⟩
        simp only [PageRun.stop] at hlo
        omega

theorem covers_bounds {q : Nat} (h : Runs lo hi runs) (hq : Covers runs q) :
    lo ≤ q ∧ q < hi := by
  obtain ⟨r, hr, hrq⟩ := hq
  obtain ⟨hlo, -, -, hhi⟩ := h.mem hr
  exact ⟨hlo.trans hrq.1, hrq.2.trans_le hhi⟩

/-- Successive runs are strictly separated: ascending, disjoint, non-adjacent. -/
theorem pairwise (h : Runs lo hi runs) : runs.Pairwise fun r s => r.stop < s.base := by
  induction runs generalizing lo with
  | nil => exact List.Pairwise.nil
  | cons r rest ih =>
      obtain ⟨-, -, -, -, hrest⟩ := h
      refine List.Pairwise.cons (fun s hs => ?_) (ih hrest)
      exact (hrest.mem hs).1

end Runs

/-! ## Coalescing -/

/-- On a canonical list there is nothing to merge. -/
theorem coalesceFrom_of_runs {lo hi : Nat} (hhi : hi < 4294967296) (cur : PageRun)
    (rest : List PageRun) (metas : List Nat) (h : Runs lo hi (cur :: rest)) :
    coalesceFrom cur rest metas = (cur :: rest, metas) := by
  induction rest generalizing lo cur with
  | nil => rfl
  | cons next rest ih =>
      obtain ⟨-, -, -, hstop, hrest⟩ := h
      have hnext := hrest.1
      have hcur : u32 (cur.base + u32 (cur.pages * pageSize)) = cur.stop := by
        simp only [PageRun.stop, pageSize] at hstop ⊢
        rw [u32_of_lt (n := cur.pages * 4096) (by omega), u32_of_lt (by omega)]
      rw [coalesceFrom, if_neg (by omega), ih next hrest]

theorem coalesceFreeRuns_of_runs {lo hi : Nat} (hhi : hi < 4294967296) (a : Allocator)
    (h : Runs lo hi a.freeRuns) : coalesceFreeRuns a = a := by
  cases hruns : a.freeRuns with
  | nil => simp [coalesceFreeRuns, hruns]
  | cons cur rest =>
      rw [hruns] at h
      simp only [coalesceFreeRuns, hruns, coalesceFrom_of_runs hhi cur rest _ h]
      rw [← hruns]

/-! ## First fit -/

/-- The lowest run with at least `n` pages, as the first-fit scan finds it. -/
def FirstFit (n : Nat) (runs : List PageRun) (r : PageRun) : Prop :=
  ∃ before after, runs = before ++ r :: after ∧ n ≤ r.pages ∧ ∀ s ∈ before, s.pages < n

/-- The nodes of a list of runs. -/
def runNodes (runs : List PageRun) : List Nat := runs.map PageRun.node

/-- The scan fails exactly when no run is long enough. -/
theorem takeFirstFit_eq_none {n : Nat} {runs : List PageRun} :
    takeFirstFit n runs = none ↔ ∀ r ∈ runs, r.pages < n := by
  induction runs with
  | nil => simp [takeFirstFit]
  | cons cur rest ih =>
      by_cases hfit : n ≤ cur.pages
      · have : ∀ o, (takeFirstFit n (cur :: rest)) = o → o ≠ none := by
          rintro o rfl
          rw [takeFirstFit, if_pos hfit]
          split <;> simp
        simp only [this _ rfl, false_iff]
        intro hall
        exact absurd (hall cur (by simp)) (by omega)
      · rw [takeFirstFit, if_neg hfit]
        simp only [List.mem_cons, forall_eq_or_imp, show cur.pages < n by omega, true_and, ← ih]
        cases takeFirstFit n rest with
        | none => simp
        | some t => simp

/-- What a successful scan returns: the start of the first run that fits; the
list without the first `n` pages of it; and its node if it is used up. -/
theorem takeFirstFit_spec {lo hi n : Nat} (hhi : hi < 4294967296) (hn : 0 < n)
    {runs runs' : List PageRun} {paddr : Nat} {node : Option Nat} (h : Runs lo hi runs)
    (htake : takeFirstFit n runs = some (paddr, runs', node)) :
    Runs lo hi runs' ∧
      (∃ r, FirstFit n runs r ∧ r.base = paddr) ∧
      (∀ q, Covers runs' q ↔ Covers runs q ∧ ¬ (paddr ≤ q ∧ q < paddr + n * 4096)) ∧
      (node.toList ++ runNodes runs').Perm (runNodes runs) := by
  induction runs generalizing lo runs' with
  | nil => simp [takeFirstFit] at htake
  | cons cur rest ih =>
      have hcur := h
      obtain ⟨hbase, halign, hpos, hstop, hrest⟩ := h
      simp only [PageRun.stop, pageSize] at hstop
      have hcovers : ∀ q, Covers rest q → cur.base + cur.pages * 4096 < q := by
        intro q hq
        have := (hrest.covers_bounds hq).1
        simp only [PageRun.stop, pageSize] at this
        omega
      rw [takeFirstFit] at htake
      by_cases hfit : n ≤ cur.pages
      · have hfirst : FirstFit n (cur :: rest) cur := ⟨[], rest, rfl, hfit, by simp⟩
        rw [if_pos hfit] at htake
        by_cases hexact : cur.pages - n = 0
        · -- The run is used up and its node released.
          rw [if_pos hexact] at htake
          simp only [Option.some.injEq, Prod.mk.injEq] at htake
          obtain ⟨rfl, rfl, rfl⟩ := htake
          refine ⟨hrest.mono_lo ?_, ⟨cur, hfirst, rfl⟩, ?_, by simp [runNodes]⟩
          · simp only [PageRun.stop, pageSize]
            omega
          · intro q
            have := hcovers q
            simp only [covers_cons, PageRun.Covers, PageRun.stop, pageSize]
            constructor
            · intro hq
              have := this hq
              exact ⟨.inr hq, by omega⟩
            · rintro ⟨hq | hq, hout⟩
              · omega
              · exact hq
        · -- The run loses its first `n` pages.
          rw [if_neg hexact] at htake
          simp only [Option.some.injEq, Prod.mk.injEq] at htake
          obtain ⟨rfl, rfl, rfl⟩ := htake
          have hnew : u32 (cur.base + u32 (n * pageSize)) = cur.base + n * 4096 := by
            rw [u32_of_lt (n := n * pageSize) (by simp only [pageSize]; omega),
              u32_of_lt (by simp only [pageSize]; omega)]
          rw [hnew]
          refine ⟨⟨?_, ?_, ?_, ?_, ?_⟩, ⟨cur, hfirst, rfl⟩, ?_, by simp [runNodes]⟩
          · show lo ≤ cur.base + n * 4096
            omega
          · show (cur.base + n * 4096) % 4096 = 0
            omega
          · show 0 < cur.pages - n
            omega
          · simp only [PageRun.stop, pageSize]
            omega
          · refine hrest.mono_lo ?_
            simp only [PageRun.stop, pageSize]
            omega
          · intro q
            have := hcovers q
            simp only [covers_cons, PageRun.Covers, PageRun.stop, pageSize]
            constructor
            · rintro (hq | hq)
              · omega
              · have := this hq
                exact ⟨.inr hq, by omega⟩
            · rintro ⟨hq | hq, hout⟩
              · left
                omega
              · exact .inr hq
      · rw [if_neg hfit] at htake
        cases htail : takeFirstFit n rest with
        | none => simp [htail] at htake
        | some t =>
            obtain ⟨p, tail, nd⟩ := t
            simp only [htail, Option.some.injEq, Prod.mk.injEq] at htake
            obtain ⟨rfl, rfl, rfl⟩ := htake
            obtain ⟨hruns, ⟨r, ⟨before, after, hsplit, hr, hbefore⟩, hrbase⟩, hset, hnodes⟩ :=
              ih hrest htail
            refine ⟨⟨hbase, halign, hpos, hcur.2.2.2.1, hruns⟩,
              ⟨r, ⟨cur :: before, after, by simp [hsplit], hr, ?_⟩, hrbase⟩, ?_, ?_⟩
            · intro s hs
              rcases List.mem_cons.mp hs with rfl | hs
              · omega
              · exact hbefore s hs
            · have hlow : cur.stop + 1 ≤ p := by
                rw [← hrbase]
                exact (hrest.mem (by rw [hsplit]; simp)).1
              intro q
              simp only [covers_cons, hset q]
              constructor
              · rintro (hq | ⟨hq, hout⟩)
                · refine ⟨.inl hq, ?_⟩
                  have := hq.2
                  omega
                · exact ⟨.inr hq, hout⟩
              · rintro ⟨hq | hq, hout⟩
                · exact .inl hq
                · exact .inr ⟨hq, hout⟩
            · simp only [runNodes, List.map_cons] at hnodes ⊢
              exact List.perm_middle.trans (List.Perm.cons _ hnodes)

/-! ## List nodes -/

variable (L : Layout)

/-- Address of the reference-count array. -/
def refTop : Nat := L.freeRamEnd - 16384

/-- The nodes carved so far when `metaTop` has come down to the given address. -/
def carvedNodes (metaTop : Nat) : List Nat :=
  (List.range ((refTop L - metaTop) / 12)).map fun k => refTop L - 12 * (k + 1)

/-- The nodes `used` by a list, together with the released ones, are exactly the
carved nodes, each once. -/
structure MetaOk (used : List Nat) (a : Allocator) : Prop where
  top_le : a.metaTop ≤ refTop L
  top_mod : (refTop L - a.metaTop) % 12 = 0
  next_le : a.nextPaddr ≤ a.metaTop
  nodes : (used ++ a.freeMetaNodes).Perm (carvedNodes L a.metaTop)

/-- `a'` differs from `a` at most in the free list and its nodes. -/
structure SameCounts (a a' : Allocator) : Prop where
  nextPaddr : a'.nextPaddr = a.nextPaddr
  initialized : a'.initialized = a.initialized
  pageRefcnt : a'.pageRefcnt = a.pageRefcnt
  managedPageCount : a'.managedPageCount = a.managedPageCount
  freeMetaOomWarned : a'.freeMetaOomWarned = a.freeMetaOomWarned

theorem SameCounts.refl (a : Allocator) : SameCounts a a := ⟨rfl, rfl, rfl, rfl, rfl⟩

variable {L}

theorem refTop_mod : refTop L % 4 = 0 := by
  have h := L.freeRam_aligned
  unfold refTop Layout.freeRamEnd
  omega

theorem MetaOk.top_align {used : List Nat} {a : Allocator} (h : MetaOk L used a) :
    a.metaTop % 4 = 0 := by
  have h1 := h.top_le
  have h2 := h.top_mod
  have h3 := refTop_mod (L := L)
  omega

/-- No node can be had: none is released and the next one would reach the pages. -/
def NoNode (a : Allocator) : Prop := a.freeMetaNodes = [] ∧ a.metaTop - 12 ≤ a.nextPaddr

theorem carvedNodes_carve {top : Nat} (hle : top ≤ refTop L) (hmod : (refTop L - top) % 12 = 0)
    (hpos : 12 ≤ top) : carvedNodes L (top - 12) = carvedNodes L top ++ [top - 12] := by
  have hcount : (refTop L - (top - 12)) / 12 = (refTop L - top) / 12 + 1 := by omega
  simp only [carvedNodes, hcount, List.range_succ, List.map_append, List.map_cons, List.map_nil]
  rw [show refTop L - 12 * ((refTop L - top) / 12 + 1) = top - 12 by omega]

theorem allocRunNode_eq_none {used : List Nat} {a : Allocator} (h : MetaOk L used a) :
    allocRunNode a = none ↔ NoNode a := by
  have halign := h.top_align
  unfold allocRunNode NoNode
  cases hmeta : a.freeMetaNodes with
  | nil =>
      have : (a.metaTop - 12) / 4 * 4 = a.metaTop - 12 := by omega
      simp only [pageRunSize, this, true_and]
      split <;> simp_all
  | cons n rest => simp

theorem allocRunNode_spec {used : List Nat} {a a' : Allocator} {n : Nat} (h : MetaOk L used a)
    (halloc : allocRunNode a = some (n, a')) :
    MetaOk L (n :: used) a' ∧ SameCounts a a' ∧ a'.freeRuns = a.freeRuns := by
  have halign := h.top_align
  unfold allocRunNode at halloc
  cases hmeta : a.freeMetaNodes with
  | cons m rest =>
      simp only [hmeta, Option.some.injEq, Prod.mk.injEq] at halloc
      obtain ⟨rfl, rfl⟩ := halloc
      refine ⟨⟨h.top_le, h.top_mod, h.next_le, ?_⟩, ⟨rfl, rfl, rfl, rfl, rfl⟩, rfl⟩
      have hnodes := h.nodes
      rw [hmeta] at hnodes
      exact (List.perm_middle (a := m)).symm.trans hnodes
  | nil =>
      have htop : (a.metaTop - 12) / 4 * 4 = a.metaTop - 12 := by omega
      simp only [hmeta, pageRunSize, htop] at halloc
      split at halloc
      · cases halloc
      · rename_i hroom
        simp only [Option.some.injEq, Prod.mk.injEq] at halloc
        obtain ⟨rfl, rfl⟩ := halloc
        have hle := h.top_le
        have hmod := h.top_mod
        refine ⟨⟨?_, ?_, ?_, ?_⟩, ⟨rfl, rfl, rfl, rfl, rfl⟩, rfl⟩
        · show a.metaTop - 12 ≤ refTop L
          omega
        · show (refTop L - (a.metaTop - 12)) % 12 = 0
          omega
        · show a.nextPaddr ≤ a.metaTop - 12
          omega
        · have hnodes := h.nodes
          simp only [hmeta, List.append_nil] at hnodes ⊢
          rw [carvedNodes_carve hle hmod (by omega)]
          exact (List.Perm.cons _ hnodes).trans (List.perm_append_singleton _ _).symm

/-! ## Insertion of a page -/

/-- What a step of the insertion does to the list `runs` of a canonical free
list whose other nodes are `before`: the page `paddr` is added, or there is no
node for it. -/
def Added (L : Layout) (before : List Nat) (lo hi paddr : Nat) (a : Allocator)
    (runs runs' : List PageRun) (a' : Allocator) : Prop :=
  Runs lo hi runs' ∧
    (∀ q, Covers runs' q ↔ Covers runs q ∨ (paddr ≤ q ∧ q < paddr + 4096)) ∧
    MetaOk L (before ++ runNodes runs') a' ∧ SameCounts a a' ∧ a'.freeRuns = a.freeRuns

/-- The specification of one insertion result. -/
def FreeResult.Spec (L : Layout) (before : List Nat) (lo hi paddr : Nat) (a : Allocator)
    (runs : List PageRun) : FreeResult → Prop
  | .noNode => NoNode a ∧ ¬ Covers runs paddr
  | .extended runs' a' => Added L before lo hi paddr a runs runs' a' ∧ ¬ Covers runs paddr
  | .inserted runs' a' => Added L before lo hi paddr a runs runs' a' ∧ ¬ Covers runs paddr

theorem metaOk_cons_middle (before mid : List Nat) {n : Nat} {a : Allocator}
    (h : MetaOk L (n :: (before ++ mid)) a) : MetaOk L (before ++ n :: mid) a :=
  ⟨h.top_le, h.top_mod, h.next_le,
    ((List.perm_middle (a := n)).append_right _).trans h.nodes⟩

theorem metaOk_release (before mid : List Nat) {n : Nat} {a : Allocator}
    (h : MetaOk L (before ++ n :: mid) a) :
    MetaOk L (before ++ mid) (releaseRunNode n a) := by
  refine ⟨h.top_le, h.top_mod, h.next_le, ?_⟩
  have hmove : (before ++ mid ++ n :: a.freeMetaNodes).Perm
      (n :: (before ++ mid) ++ a.freeMetaNodes) := List.perm_middle
  have hback : (n :: (before ++ mid) ++ a.freeMetaNodes).Perm
      (before ++ n :: mid ++ a.freeMetaNodes) := by
    refine List.Perm.append_right _ ?_
    exact (List.perm_middle (a := n)).symm
  exact hmove.trans (hback.trans h.nodes)

/-- Insertion behind `cur`, when the next run does not start below `paddr`. -/
theorem freeAt_spec {before : List Nat} {lo hi paddr : Nat} {a : Allocator} {cur : PageRun}
    {rest : List PageRun} (hruns : Runs lo hi (cur :: rest)) (halign : paddr % 4096 = 0)
    (hcur : cur.base ≤ paddr) (hhi : paddr + 4096 ≤ hi)
    (hnext : ∀ next ∈ rest.head?, paddr ≤ next.base)
    (hmeta : MetaOk L (before ++ runNodes (cur :: rest)) a) :
    Outcome (freeAt paddr a cur rest) (FreeResult.Spec L before lo hi paddr a (cur :: rest))
      (fun _ => Covers (cur :: rest) paddr) := by
  have hall := hruns
  obtain ⟨hbase, hcalign, hpos, hstop, hrest⟩ := hruns
  simp only [PageRun.stop, pageSize] at hstop
  unfold freeAt
  simp only [pageSize]
  by_cases hover : paddr < cur.base + cur.pages * 4096
  · rw [if_pos hover]
    show Covers (cur :: rest) paddr
    rw [covers_cons]
    exact .inl ⟨hcur, hover⟩
  rw [if_neg hover]
  cases rest with
  | nil =>
      have hfree : ¬ Covers [cur] paddr := by
        simp only [covers_cons, PageRun.Covers, PageRun.stop, pageSize, covers_nil, or_false]
        omega
      by_cases hextend : cur.base + cur.pages * 4096 = paddr
      · simp only [if_pos hextend]
        refine ⟨⟨?_, ?_, hmeta, SameCounts.refl a, rfl⟩, hfree⟩
        · refine ⟨hbase, hcalign, ?_, ?_, trivial⟩
          · show 0 < cur.pages + 1
            omega
          · simp only [PageRun.stop, pageSize]
            lia
        · intro q
          simp only [covers_cons, PageRun.Covers, PageRun.stop, pageSize, covers_nil, or_false]
          omega
      · simp only [if_neg hextend]
        cases halloc : allocRunNode a with
        | none => exact ⟨(allocRunNode_eq_none hmeta).mp halloc, hfree⟩
        | some pair =>
            obtain ⟨n, a'⟩ := pair
            obtain ⟨hmeta', hsame, hfr⟩ := allocRunNode_spec hmeta halloc
            refine ⟨⟨?_, ?_, ?_, hsame, hfr⟩, hfree⟩
            · refine ⟨hbase, hcalign, hpos, ?_, ?_, halign, Nat.one_pos, ?_, trivial⟩
              · simp only [PageRun.stop, pageSize]
                omega
              · simp only [PageRun.stop, pageSize]
                omega
              · simp only [PageRun.stop, pageSize]
                omega
            · intro q
              simp only [covers_cons, PageRun.Covers, PageRun.stop, pageSize, covers_nil, or_false,
                Nat.one_mul]
            · have := metaOk_cons_middle (before ++ [cur.node]) [] (n := n)
                (a := a') (by simpa [runNodes] using hmeta')
              simpa [runNodes] using this
  | cons next tail =>
      obtain ⟨hnbase, hnalign, hnpos, hnstop, htail⟩ := hrest
      have hle : paddr ≤ next.base := hnext next rfl
      simp only [PageRun.stop, pageSize] at hnbase hnstop
      have hfar : ∀ q, Covers tail q → next.base + next.pages * 4096 < q := by
        intro q hq
        have := (htail.covers_bounds hq).1
        simp only [PageRun.stop, pageSize] at this
        omega
      by_cases hcover : next.base < paddr + 4096
      · simp only [if_pos hcover]
        show Covers (cur :: next :: tail) paddr
        have : next.base = paddr := by omega
        simp only [covers_cons, PageRun.Covers, PageRun.stop, pageSize]
        omega
      have hfree : ¬ Covers (cur :: next :: tail) paddr := by
        intro hc
        simp only [covers_cons, PageRun.Covers, PageRun.stop, pageSize] at hc
        rcases hc with hc | hc | hc
        · omega
        · omega
        · have := hfar paddr hc
          omega
      simp only [if_neg hcover]
      by_cases hextend : cur.base + cur.pages * 4096 = paddr
      · simp only [if_pos hextend]
        by_cases hmerge : cur.base + (cur.pages + 1) * 4096 = next.base
        · -- The page closes the gap: the next run is absorbed.
          simp only [if_pos hmerge]
          refine ⟨⟨?_, ?_, ?_, ⟨rfl, rfl, rfl, rfl, rfl⟩, rfl⟩, hfree⟩
          · refine ⟨hbase, hcalign, ?_, ?_, ?_⟩
            · show 0 < cur.pages + 1 + next.pages
              omega
            · simp only [PageRun.stop, pageSize]
              lia
            · refine htail.mono_lo ?_
              simp only [PageRun.stop, pageSize]
              lia
          · intro q
            simp only [covers_cons, PageRun.Covers, PageRun.stop, pageSize]
            constructor
            · rintro (hq | hq)
              · omega
              · exact .inl (.inr (.inr hq))
            · rintro ((hq | hq | hq) | hq)
              · left; lia
              · left; omega
              · exact .inr hq
              · left; omega
          · have := metaOk_release (before ++ [cur.node]) (runNodes tail)
              (n := next.node) (a := a) (by simpa [runNodes] using hmeta)
            simpa [runNodes] using this
        · simp only [if_neg hmerge]
          refine ⟨⟨?_, ?_, hmeta, SameCounts.refl a, rfl⟩, hfree⟩
          · refine ⟨hbase, hcalign, ?_, ?_, ?_, hnalign, hnpos, hnstop, htail⟩
            · show 0 < cur.pages + 1
              omega
            · simp only [PageRun.stop, pageSize]
              lia
            · simp only [PageRun.stop, pageSize]
              lia
          · intro q
            simp only [covers_cons, PageRun.Covers, PageRun.stop, pageSize]
            constructor
            · rintro (hq | hq | hq)
              · omega
              · exact .inl (.inr (.inl hq))
              · exact .inl (.inr (.inr hq))
            · rintro ((hq | hq | hq) | hq)
              · left; lia
              · exact .inr (.inl hq)
              · exact .inr (.inr hq)
              · left; omega
      · simp only [if_neg hextend]
        by_cases hdown : paddr + 4096 = next.base
        · -- The page sits right below the next run, which grows downwards.
          simp only [if_pos hdown]
          refine ⟨⟨?_, ?_, hmeta, SameCounts.refl a, rfl⟩, hfree⟩
          · refine ⟨hbase, hcalign, hpos, ?_, ?_, halign, ?_, ?_, ?_⟩
            · simp only [PageRun.stop, pageSize]
              omega
            · simp only [PageRun.stop, pageSize]
              omega
            · show 0 < next.pages + 1
              omega
            · simp only [PageRun.stop, pageSize]
              omega
            · refine htail.mono_lo ?_
              simp only [PageRun.stop, pageSize]
              omega
          · intro q
            simp only [covers_cons, PageRun.Covers, PageRun.stop, pageSize]
            constructor
            · rintro (hq | hq | hq)
              · exact .inl (.inl hq)
              · by_cases hlow : q < paddr + 4096
                · right; omega
                · left; right; left; omega
              · exact .inl (.inr (.inr hq))
            · rintro ((hq | hq | hq) | hq)
              · exact .inl hq
              · right; left; omega
              · exact .inr (.inr hq)
              · right; left; omega
        · simp only [if_neg hdown]
          cases halloc : allocRunNode a with
          | none => exact ⟨(allocRunNode_eq_none hmeta).mp halloc, hfree⟩
          | some pair =>
              obtain ⟨n, a'⟩ := pair
              obtain ⟨hmeta', hsame, hfr⟩ := allocRunNode_spec hmeta halloc
              refine ⟨⟨?_, ?_, ?_, hsame, hfr⟩, hfree⟩
              · refine ⟨hbase, hcalign, hpos, ?_, ?_, halign, Nat.one_pos, ?_, ?_, hnalign, hnpos,
                  hnstop, htail⟩
                · simp only [PageRun.stop, pageSize]
                  omega
                · simp only [PageRun.stop, pageSize]
                  omega
                · simp only [PageRun.stop, pageSize]
                  omega
                · simp only [PageRun.stop, pageSize]
                  omega
              · intro q
                simp only [covers_cons, PageRun.Covers, PageRun.stop, pageSize]
                constructor
                · rintro (hq | hq | hq | hq)
                  · exact .inl (.inl hq)
                  · right; omega
                  · exact .inl (.inr (.inl hq))
                  · exact .inl (.inr (.inr hq))
                · rintro ((hq | hq | hq) | hq)
                  · exact .inl hq
                  · exact .inr (.inr (.inl hq))
                  · exact .inr (.inr (.inr hq))
                  · right; left; omega
              · have := metaOk_cons_middle (before ++ [cur.node]) (runNodes (next :: tail))
                  (n := n) (a := a')
                  (by simpa [runNodes] using hmeta')
                simpa [runNodes] using this

/-- Pushing an untouched run back in front keeps the specification. -/
theorem FreeResult.Spec.push {before : List Nat} {lo hi paddr : Nat} {a : Allocator}
    {cur : PageRun} {rest : List PageRun} {result : FreeResult}
    (hcur : Runs lo hi (cur :: rest)) (hbelow : cur.stop ≤ paddr)
    (h : result.Spec L (before ++ [cur.node]) (cur.stop + 1) hi paddr a rest) :
    (result.push cur).Spec L before lo hi paddr a (cur :: rest) := by
  obtain ⟨hbase, halign, hpos, hstop, -⟩ := hcur
  have hnot : ¬ cur.Covers paddr := fun hc => absurd hc.2 (by omega)
  have key : ∀ runs' a', Added L (before ++ [cur.node]) (cur.stop + 1) hi paddr a rest runs' a' →
      Added L before lo hi paddr a (cur :: rest) (cur :: runs') a' := by
    rintro runs' a' ⟨hruns, hset, hmeta, hsame, hfr⟩
    refine ⟨⟨hbase, halign, hpos, hstop, hruns⟩, ?_, by simpa [runNodes] using hmeta, hsame, hfr⟩
    intro q
    simp only [covers_cons, hset q, or_assoc]
  cases result with
  | noNode =>
      refine ⟨h.1, ?_⟩
      rw [covers_cons]
      exact fun hc => hc.elim hnot h.2
  | extended runs' a' =>
      refine ⟨key runs' a' h.1, ?_⟩
      rw [covers_cons]
      exact fun hc => hc.elim hnot h.2
  | inserted runs' a' =>
      refine ⟨key runs' a' h.1, ?_⟩
      rw [covers_cons]
      exact fun hc => hc.elim hnot h.2

theorem freeAfter_spec (before : List Nat) {lo hi paddr : Nat} {a : Allocator} {cur : PageRun}
    {rest : List PageRun} (hruns : Runs lo hi (cur :: rest)) (halign : paddr % 4096 = 0)
    (hcur : cur.base ≤ paddr) (hhi : paddr + 4096 ≤ hi)
    (hmeta : MetaOk L (before ++ runNodes (cur :: rest)) a) :
    Outcome (freeAfter paddr a cur rest) (FreeResult.Spec L before lo hi paddr a (cur :: rest))
      (fun _ => Covers (cur :: rest) paddr) := by
  induction rest generalizing cur lo before with
  | nil =>
      unfold freeAfter
      exact freeAt_spec hruns halign hcur hhi (by simp) hmeta
  | cons next tail ih =>
      unfold freeAfter
      by_cases hlt : next.base < paddr
      · have hbelow : cur.stop ≤ paddr := by
          have := hruns.2.2.2.2.1
          omega
        have hrec := ih (before ++ [cur.node]) hruns.2.2.2.2 hlt.le
          (by simpa [runNodes] using hmeta)
        rw [if_pos hlt]
        cases hres : freeAfter paddr a next tail with
        | error e =>
            rw [hres] at hrec
            show Covers (cur :: next :: tail) paddr
            rw [covers_cons]
            exact .inr hrec
        | ok result =>
            rw [hres] at hrec
            exact FreeResult.Spec.push hruns hbelow hrec
      · rw [if_neg hlt]
        exact freeAt_spec hruns halign hcur hhi (by simpa using Nat.le_of_not_lt hlt) hmeta

end Sugimotos.Mm
