/-
# Giving pages back when memory has run out

An allocation that finds no page leaves an empty free list.  The pages given back after that
start the list anew, and each needs a list node, unless the page right below it came back
before.  A page that needs a node and gets none is lost.
-/

import Sugimotos.Mm.SpaceOps

namespace Sugimotos.Mm

open Sugimotos.Math

variable {L : Layout} {a b c : Allocator} {p q r : Nat}

/-! ## The free list -/

/-- No page is left when not even one can be reserved. -/
theorem freeRuns_of_exhausted (h : a.Inv L) (hres : reservePages 1 a = none) : a.freeRuns = [] := by
  have hscan : takeFirstFit 1 a.freeRuns = none := by
    cases hfound : takeFirstFit 1 a.freeRuns with
    | none => rfl
    | some found =>
        obtain ⟨paddr, runs, node⟩ := found
        unfold reservePages at hres
        rw [hfound] at hres
        cases node <;> cases hres
  rw [List.eq_nil_iff_forall_not_mem]
  intro run hrun
  have hshort := takeFirstFit_eq_none.mp hscan run hrun
  have hpos := (h.runs.mem hrun).2.2.1
  omega

theorem freeAt_below {paddr : Nat} {cur : PageRun} {rest : List PageRun} (hstop : cur.stop = paddr) :
    freeAt paddr a cur rest ≠ .ok .noNode := by
  have hend : cur.base + cur.pages * pageSize = paddr := hstop
  unfold freeAt
  dsimp only
  rw [hend, if_neg (Nat.lt_irrefl _)]
  cases rest with
  | nil =>
      dsimp only
      rw [if_pos rfl]
      nofun
  | cons next tail =>
      dsimp only
      split
      · nofun
      · rw [if_pos rfl]
        split <;> nofun

theorem freeAfter_below {paddr lo hi : Nat} {cur : PageRun} {rest : List PageRun}
    (hruns : Runs lo hi (cur :: rest)) {run : PageRun} (hrun : run ∈ cur :: rest)
    (hstop : run.stop = paddr) : freeAfter paddr a cur rest ≠ .ok .noNode := by
  induction rest generalizing cur lo with
  | nil =>
      rw [List.mem_singleton] at hrun
      subst hrun
      exact freeAt_below hstop
  | cons next tail ih =>
      have hnext := hruns.2.2.2.2
      unfold freeAfter
      split
      · rename_i hlow
        have hmem : run ∈ next :: tail := by
          rcases List.mem_cons.mp hrun with rfl | hmem
          · -- the run right below the page is the last one that starts below it
            have hgap := hnext.1
            omega
          · exact hmem
        intro hres
        have hrec := ih hnext hmem
        cases hcall : freeAfter paddr a next tail with
        | error e =>
            rw [hcall] at hres
            cases hres
        | ok result =>
            rw [hcall] at hres hrec
            cases result with
            | noNode => exact hrec rfl
            | extended runs a' => cases hres
            | inserted runs a' => cases hres
      · rename_i hhigh
        rcases List.mem_cons.mp hrun with rfl | hmem
        · exact freeAt_below hstop
        · exfalso
          have hall : Runs next.base hi (next :: tail) := ⟨le_rfl, hnext.2⟩
          obtain ⟨hbase, -, hpos, -⟩ := hall.mem hmem
          unfold PageRun.stop pageSize at hstop
          omega

/-- A page right above a free run needs no list node. -/
theorem freeSinglePageRaw_above {paddr lo hi : Nat} (hruns : Runs lo hi a.freeRuns) {run : PageRun}
    (hrun : run ∈ a.freeRuns) (hstop : run.stop = paddr) : freeSinglePageRaw paddr a ≠ .ok none := by
  unfold freeSinglePageRaw
  cases hlist : a.freeRuns with
  | nil =>
      rw [hlist] at hrun
      cases hrun
  | cons head rest =>
      rw [hlist] at hruns hrun
      dsimp only
      have hall : Runs head.base hi (head :: rest) := ⟨le_rfl, hruns.2⟩
      obtain ⟨hbase, -, hpos, -⟩ := hall.mem hrun
      have hlow : ¬ paddr < head.base := by
        unfold PageRun.stop pageSize at hstop
        omega
      rw [if_neg hlow]
      have hafter := freeAfter_below (a := a) hall hrun hstop
      cases hcall : freeAfter paddr a head rest with
      | error e => nofun
      | ok result =>
          cases result with
          | noNode => exact absurd hcall hafter
          | extended runs a' => nofun
          | inserted runs a' => nofun

/-- A page away from the only free run needs a list node. -/
theorem freeSinglePageRaw_apart {paddr : Nat} {run : PageRun} (hlist : a.freeRuns = [run])
    (hapart : paddr + 4096 < run.base ∨ run.stop < paddr) :
    freeSinglePageRaw paddr a = .ok none ↔ allocRunNode a = none := by
  unfold freeSinglePageRaw
  rw [hlist]
  dsimp only
  unfold PageRun.stop at hapart
  rcases hapart with hbelow | habove
  · have hlow : paddr < run.base := by omega
    have hfit : ¬ run.base < paddr + pageSize := by
      unfold pageSize
      omega
    have hgap : ¬ paddr + pageSize = run.base := by
      unfold pageSize
      omega
    rw [if_pos hlow, if_neg hfit, if_neg hgap]
    cases allocRunNode a with
    | none => simp
    | some pair => simp
  · have hlow : ¬ paddr < run.base := by omega
    have hfit : ¬ paddr < run.base + run.pages * pageSize := by omega
    have hgap : ¬ run.base + run.pages * pageSize = paddr := by omega
    rw [if_neg hlow]
    unfold freeAfter freeAt
    dsimp only
    rw [if_neg hfit, if_neg hgap]
    cases allocRunNode a with
    | none => simp
    | some pair => simp

/-- Whether there is a list node depends on the nodes and the two ends of the gap only. -/
theorem allocRunNode_none_congr (hnodes : b.freeMetaNodes = a.freeMetaNodes)
    (htop : b.metaTop = a.metaTop) (hnext : b.nextPaddr = a.nextPaddr) :
    allocRunNode b = none ↔ allocRunNode a = none := by
  unfold allocRunNode
  rw [hnodes, htop, hnext]
  cases a.freeMetaNodes with
  | nil =>
      dsimp only
      split <;> simp
  | cons n rest => simp

theorem freeSinglePageRaw_empty {paddr : Nat} (hlist : a.freeRuns = []) :
    freeSinglePageRaw paddr a =
      .ok ((allocRunNode a).map fun out => { out.2 with freeRuns := [⟨out.1, paddr, 1⟩] }) := by
  unfold freeSinglePageRaw
  rw [hlist]
  dsimp only
  cases allocRunNode a <;> rfl

/-! ## Dropping the last reference -/

/-- The allocator with the count of a page set. -/
def Allocator.setCount (a : Allocator) (idx n : Nat) : Allocator :=
  { a with pageRefcnt := Function.update a.pageRefcnt idx n }

theorem allocRunNode_setCount (idx n : Nat) :
    allocRunNode (a.setCount idx n) =
      (allocRunNode a).map fun out => (out.1, out.2.setCount idx n) := by
  unfold allocRunNode Allocator.setCount
  cases a.freeMetaNodes with
  | nil =>
      dsimp only
      split <;> rfl
  | cons m rest => rfl

/-- Dropping the last reference gives the page to the free list, or loses it. -/
theorem dropRef_last {paddr idx : Nat} (hone : a.pageRefcnt idx = 1) :
    dropRef paddr idx a = (freeSinglePageRaw paddr (a.setCount idx 0)).map
      fun found => found.getD { a with freeMetaOomWarned := true } := by
  have hsub : a.pageRefcnt idx - 1 = 0 := by omega
  have hrestore : Function.update (Function.update a.pageRefcnt idx 0) idx 1 = a.pageRefcnt := by
    rw [Function.update_idem, ← hone, Function.update_eq_self]
  unfold dropRef Allocator.setCount
  simp only [hsub, Function.update_self, hrestore, if_true]
  cases freeSinglePageRaw paddr { a with pageRefcnt := Function.update a.pageRefcnt idx 0 } with
  | error e => rfl
  | ok found => cases found <;> rfl

/-- The list insertion leaves the counts alone. -/
theorem freeSinglePageRaw_counts (h : a.Inv L) (hm : L.Managed p) (hpos : refcntOf L a p ≠ 0)
    (n : Nat) (hfree : freeSinglePageRaw (p * 4096) (a.setCount (p - L.freePage) n) = .ok (some b)) :
    b.pageRefcnt = Function.update a.pageRefcnt (p - L.freePage) n := by
  obtain ⟨haddr, hidx⟩ := hm.addr
  have hused := mt (h.refcnt_zero _ hidx).mpr hpos
  rw [← haddr, not_or] at hused
  have halign := h.next_align
  have hlow : L.freeRam ≤ p * 4096 := by
    rw [haddr]
    unfold pageAddr
    omega
  obtain ⟨-, -, -, -, hsame⟩ := (freeSinglePageRaw_spec (L := L) (a := a.setCount (p - L.freePage) n)
    h.next_lt h.runs ⟨h.nodes.top_le, h.nodes.top_mod, h.nodes.next_le, h.nodes.nodes⟩
    (Nat.mul_mod_left ..) hlow (by change _ ≤ a.nextPaddr; omega)).of_eq_ok hfree
  exact hsame.pageRefcnt

/-- Page `p` came back. -/
def CameBack (L : Layout) (p : Nat) (a b : Allocator) : Prop :=
  ∀ q, L.Managed q → refcntOf L b q = if q = p then 0 else refcntOf L a q

/-- What freeing the last reference to a page does: the page comes back, or it is lost. -/
structure FreedOne (L : Layout) (p : Nat) (a b : Allocator) : Prop where
  inv : b.Inv L
  back : freeSinglePageRaw (p * 4096) (a.setCount (p - L.freePage) 0) = .ok (some b) →
    CameBack L p a b
  cases : freeSinglePageRaw (p * 4096) (a.setCount (p - L.freePage) 0) = .ok (some b) ∨
    freeSinglePageRaw (p * 4096) (a.setCount (p - L.freePage) 0) = .ok none ∧
      b = { a with freeMetaOomWarned := true }

theorem dropRef_freed (h : a.Inv L) (hm : L.Managed p) (hone : refcntOf L a p = 1)
    (hdrop : dropRef (p * 4096) (p - L.freePage) a = .ok b) : FreedOne L p a b := by
  have hspec := (dropRef_page h hm (by rw [hone]; decide)).of_eq_ok hdrop
  have hlast : a.pageRefcnt (p - L.freePage) = 1 := hone
  rw [dropRef_last hlast] at hdrop
  refine ⟨hspec.1, fun hback q hq => ?_, ?_⟩
  · have hcounts := freeSinglePageRaw_counts h hm (by rw [hone]; decide) 0 hback
    unfold refcntOf
    rw [hcounts]
    by_cases hqp : q = p
    · rw [hqp, Function.update_self, if_pos rfl]
    · rw [if_neg hqp, Function.update_of_ne]
      unfold Layout.Managed at hm hq
      omega
  · cases hfree : freeSinglePageRaw (p * 4096) (a.setCount (p - L.freePage) 0) with
    | error e =>
        rw [hfree] at hdrop
        cases hdrop
    | ok found =>
        rw [hfree] at hdrop
        cases found with
        | none =>
            cases hdrop
            exact Or.inr ⟨rfl, rfl⟩
        | some b' =>
            cases hdrop
            exact Or.inl rfl

/-- A page that is right above a page that came back comes back as well. -/
theorem FreedOne.above (hfreed : FreedOne L (p + 1) a b) (h : a.Inv L)
    (hbelow : Covers a.freeRuns (p * 4096)) (hused : ¬ Covers a.freeRuns ((p + 1) * 4096)) :
    CameBack L (p + 1) a b := by
  rcases hfreed.cases with hback | ⟨hlost, -⟩
  · exact hfreed.back hback
  · exfalso
    obtain ⟨run, hrun, hlo, hhi⟩ := hbelow
    have halign := (h.runs.mem hrun).2.1
    have hstop : run.stop = (p + 1) * 4096 := by
      have hout : ¬ run.Covers ((p + 1) * 4096) := fun hin => hused ⟨run, hrun, hin⟩
      unfold PageRun.Covers PageRun.stop pageSize at *
      omega
    exact freeSinglePageRaw_above (a := a.setCount _ 0) h.runs hrun hstop hlost

/-- A lost page stays counted. -/
theorem FreedOne.lost (hfreed : FreedOne L p a b) {q : Nat}
    (hlost : freeSinglePageRaw (p * 4096) (a.setCount (p - L.freePage) 0) = .ok none) :
    refcntOf L b q = refcntOf L a q := by
  rcases hfreed.cases with hback | ⟨-, rfl⟩
  · rw [hlost] at hback
    cases hback
  · rfl

/-- Other counts stay. -/
theorem FreedOne.other (hfreed : FreedOne L p a b) {q : Nat} (hm : L.Managed q) (hne : q ≠ p) :
    refcntOf L b q = refcntOf L a q := by
  rcases hfreed.cases with hback | ⟨hlost, -⟩
  · rw [hfreed.back hback q hm, if_neg hne]
  · exact hfreed.lost hlost

/-- A free managed page below the bump pointer lies on the free list. -/
theorem covers_of_free (h : a.Inv L) (hm : L.Managed p) (hzero : refcntOf L a p = 0)
    (hbelow : p * 4096 < a.nextPaddr) : Covers a.freeRuns (p * 4096) := by
  obtain ⟨haddr, hidx⟩ := hm.addr
  have hfree := (h.refcnt_zero _ hidx).mp hzero
  rw [← haddr] at hfree
  exact hfree.resolve_right (Nat.not_le_of_lt hbelow)

theorem used_not_covers (h : a.Inv L) (hm : L.Managed p) (hpos : refcntOf L a p ≠ 0) :
    ¬ Covers a.freeRuns (p * 4096) ∧ p * 4096 < a.nextPaddr := by
  obtain ⟨haddr, hidx⟩ := hm.addr
  have hused := mt (h.refcnt_zero _ hidx).mpr hpos
  rw [← haddr, not_or, Nat.not_le] at hused
  exact hused

/-- One turn of the loop of `free_pages`. -/
theorem freePage_turn (h : a.Inv L) {j : Nat} (hm : L.Managed (q + j))
    (hpos : refcntOf L a (q + j) ≠ 0) :
    freePage L (q * 4096) a j = dropRef ((q + j) * 4096) (q + j - L.freePage) a := by
  have hlt := hm.lt
  obtain ⟨haddr, hidx⟩ := hm.addr
  have hcur : u32 (q * 4096 + u32 (j * pageSize)) = (q + j) * 4096 := by
    unfold u32 pageSize
    omega
  have hfound : pageIdxIfManaged L a ((q + j) * 4096) = some (q + j - L.freePage) := by
    rw [haddr]
    exact pageIdxIfManaged_pageAddr h.count hidx
  unfold freePage
  simp only [hcur, hfound]
  exact if_neg hpos

/-- `free_pages` of two pages in use. -/
theorem freePages_two (h : a.Inv L) (hm : ∀ p, inBlock q 2 p → L.Managed p)
    (hone : ∀ p, inBlock q 2 p → refcntOf L a p = 1) (hfree : freePages L (q * 4096) 2 a = .ok c) :
    ∃ b, FreedOne L q a b ∧ FreedOne L (q + 1) b c := by
  have hin : inBlock q 2 q ∧ inBlock q 2 (q + 1) := by
    unfold inBlock
    omega
  have hfirst := hm q hin.1
  have hlast := hm (q + 1) hin.2
  have hbase := L.freePage_mul
  have hrange : ¬ (q * 4096 < L.freeRam ∨ L.freeRamEnd < q * 4096 + 2 * pageSize) := by
    unfold Layout.Managed at hfirst hlast
    unfold Layout.freeRamEnd pageSize
    omega
  have halign : isAligned (q * 4096) = true := by
    rw [isAligned_iff]
    omega
  have hturns : freePages L (q * 4096) 2 a =
      freePage L (q * 4096) a 0 >>= fun b => freePage L (q * 4096) b 1 >>= fun c => .ok c := by
    unfold freePages
    simp only [initAllocatorIfNeeded_of_inv h]
    rw [if_neg (by decide), if_neg (not_not.mpr halign), if_neg hrange]
    rfl
  have hzero : freePage L (q * 4096) a 0 = dropRef (q * 4096) (q - L.freePage) a :=
    freePage_turn h hfirst (by rw [Nat.add_zero, hone q hin.1]; decide)
  rw [hturns, hzero] at hfree
  cases hdrop : dropRef (q * 4096) (q - L.freePage) a with
  | error e =>
      rw [hdrop] at hfree
      cases hfree
  | ok b =>
      rw [hdrop] at hfree
      have hfreed := dropRef_freed h hfirst (hone q hin.1) hdrop
      have hsecond : refcntOf L b (q + 1) = 1 := by
        rw [hfreed.other hlast (by omega)]
        exact hone _ hin.2
      change (freePage L (q * 4096) b 1 >>= fun c => .ok c) = _ at hfree
      rw [freePage_turn hfreed.inv hlast (by rw [hsecond]; decide)] at hfree
      cases hdrop' : dropRef ((q + 1) * 4096) (q + 1 - L.freePage) b with
      | error e =>
          rw [hdrop'] at hfree
          cases hfree
      | ok c' =>
          rw [hdrop'] at hfree
          cases hfree
          exact ⟨b, hfreed, dropRef_freed hfreed.inv hlast hsecond hdrop'⟩

/-! ## Two pages, with or without a third one before -/

/-- Once the first of two neighbours is back, the second one comes back too. -/
theorem CameBack.pair (hm : ∀ p, inBlock q 2 p → L.Managed p)
    (hone : ∀ p, inBlock q 2 p → refcntOf L a p = 1) (hfirst : FreedOne L q a b)
    (hback : CameBack L q a b) (hlast : FreedOne L (q + 1) b c) {p : Nat} (hp : L.Managed p) :
    refcntOf L c p = if inBlock q 2 p then 0 else refcntOf L a p := by
  have hin : inBlock q 2 q ∧ inBlock q 2 (q + 1) := by
    unfold inBlock
    omega
  have hused : refcntOf L b (q + 1) ≠ 0 := by
    rw [hback _ (hm _ hin.2), if_neg (by omega), hone _ hin.2]
    decide
  have hfree : refcntOf L b q = 0 := by
    rw [hback _ (hm _ hin.1), if_pos rfl]
  obtain ⟨hout, hbelow⟩ := used_not_covers hfirst.inv (hm _ hin.2) hused
  have hlow : q * 4096 < b.nextPaddr :=
    (Nat.mul_le_mul_right 4096 (Nat.le_succ q)).trans_lt hbelow
  have hcov := covers_of_free hfirst.inv (hm _ hin.1) hfree hlow
  rw [hlast.above hfirst.inv hcov hout p hp]
  by_cases hpl : p = q + 1
  · rw [if_pos hpl, if_pos (by rw [hpl]; exact hin.2)]
  · rw [if_neg hpl, hback p hp]
    by_cases hpq : p = q
    · rw [if_pos hpq, if_pos (by rw [hpq]; exact hin.1)]
    · rw [if_neg hpq, if_neg (by unfold inBlock; omega)]

/-- A lost first page stays counted. -/
theorem FreedOne.pair_lost (hfirst : FreedOne L q a b) (hlast : FreedOne L (q + 1) b c)
    (hm : L.Managed q) (hone : refcntOf L a q = 1)
    (hlost : freeSinglePageRaw (q * 4096) (a.setCount (q - L.freePage) 0) = .ok none) :
    refcntOf L c q = 1 := by
  rw [hlast.other hm (by omega), hfirst.lost hlost, hone]

/-- The first page given back after memory ran out takes a list node. -/
theorem FreedOne.empty (hfreed : FreedOne L p a b) (hlist : a.freeRuns = []) :
    (allocRunNode a = none ∧ ∀ q, refcntOf L b q = refcntOf L a q) ∨
      ∃ n a', allocRunNode a = some (n, a') ∧ CameBack L p a b ∧
        b.freeRuns = [⟨n, p * 4096, 1⟩] ∧ (allocRunNode b = none ↔ allocRunNode a' = none) := by
  have hraw : freeSinglePageRaw (p * 4096) (a.setCount (p - L.freePage) 0) = _ :=
    freeSinglePageRaw_empty hlist
  rw [allocRunNode_setCount] at hraw
  cases halloc : allocRunNode a with
  | none =>
      rw [halloc] at hraw
      exact Or.inl ⟨rfl, fun q => hfreed.lost hraw⟩
  | some found =>
      obtain ⟨n, a'⟩ := found
      rw [halloc] at hraw
      right
      refine ⟨n, a', rfl, ?_⟩
      rcases hfreed.cases with hback | ⟨hlost, -⟩
      · refine ⟨hfreed.back hback, ?_⟩
        rw [hraw] at hback
        cases hback
        exact ⟨rfl, allocRunNode_none_congr rfl rfl rfl⟩
      · rw [hraw] at hlost
        cases hlost

/-- After another page came back, a page needs a node of its own unless it is right above. -/
theorem FreedOne.second (hfreed : FreedOne L q a b) (h : a.Inv L) {n : Nat}
    (hlist : a.freeRuns = [⟨n, r * 4096, 1⟩]) (hne : r ≠ q ∧ r ≠ q + 1) :
    (allocRunNode a = none ∧ r + 1 ≠ q ∧
        freeSinglePageRaw (q * 4096) (a.setCount (q - L.freePage) 0) = .ok none) ∨
      ((allocRunNode a ≠ none ∨ r + 1 = q) ∧ CameBack L q a b) := by
  by_cases habove : r + 1 = q
  · subst habove
    refine Or.inr ⟨Or.inr rfl, ?_⟩
    have hcov : ∀ {x}, Covers a.freeRuns x → x < (r + 1) * 4096 := by
      intro x hx
      rw [hlist, covers_cons] at hx
      rcases hx with ⟨-, hlt⟩ | hx
      · unfold PageRun.stop pageSize at hlt
        dsimp only at hlt
        omega
      · exact absurd hx (covers_nil _)
    apply hfreed.above h
    · rw [hlist, covers_cons]
      left
      unfold PageRun.Covers PageRun.stop pageSize
      dsimp only
      omega
    · intro hin
      exact absurd (hcov hin) (Nat.lt_irrefl _)
  · have hapart : q * 4096 + 4096 < (⟨n, r * 4096, 1⟩ : PageRun).base ∨
        (⟨n, r * 4096, 1⟩ : PageRun).stop < q * 4096 := by
      unfold PageRun.stop pageSize
      dsimp only
      omega
    have hraw := freeSinglePageRaw_apart (a := a.setCount (q - L.freePage) 0) hlist hapart
    have hnode : allocRunNode (a.setCount (q - L.freePage) 0) = none ↔ allocRunNode a = none :=
      allocRunNode_none_congr rfl rfl rfl
    rw [hnode] at hraw
    rcases hfreed.cases with hback | ⟨hlost, -⟩
    · right
      refine ⟨Or.inl fun hno => ?_, hfreed.back hback⟩
      rw [hraw.mpr hno] at hback
      cases hback
    · exact Or.inl ⟨hraw.mp hlost, habove, hlost⟩

/-- Two list nodes are left, or the stack can share the one of the root. -/
def TwoNodes (a : Allocator) (r q : Nat) : Prop :=
  ∃ n a', allocRunNode a = some (n, a') ∧ (allocRunNode a' ≠ none ∨ r + 1 = q)

/-- A block of two pages is given back to an empty free list. -/
theorem freePages_empty (h : a.Inv L) (hlist : a.freeRuns = [])
    (hm : ∀ p, inBlock q 2 p → L.Managed p) (hone : ∀ p, inBlock q 2 p → refcntOf L a p = 1)
    (hfree : freePages L (q * 4096) 2 a = .ok c) :
    (allocRunNode a = none ∧ refcntOf L c q = 1) ∨ (allocRunNode a ≠ none ∧
      ∀ p, L.Managed p → refcntOf L c p = if inBlock q 2 p then 0 else refcntOf L a p) := by
  have hin : inBlock q 2 q := by
    unfold inBlock
    omega
  obtain ⟨b, hfirst, hlast⟩ := freePages_two h hm hone hfree
  rcases hfirst.empty hlist with ⟨hno, hsame⟩ | ⟨n, a', halloc, hback, -, -⟩
  · left
    refine ⟨hno, ?_⟩
    rw [hlast.other (hm q hin) (by omega), hsame, hone q hin]
  · right
    refine ⟨by rw [halloc]; nofun, fun p hp => ?_⟩
    exact hback.pair hm hone hfirst hlast hp

/-- A page and then a block of two pages are given back to an empty free list. -/
theorem freePages_after (h : a.Inv L) (hlist : a.freeRuns = []) (hr : L.Managed r)
    (hcount : refcntOf L a r = 1) (hm : ∀ p, inBlock q 2 p → L.Managed p)
    (hone : ∀ p, inBlock q 2 p → refcntOf L a p = 1) (hout : ¬ inBlock q 2 r)
    (hroot : freePages L (r * 4096) 1 a = .ok b) (hfree : freePages L (q * 4096) 2 b = .ok c) :
    (¬ TwoNodes a r q ∧ ∃ p, L.Managed p ∧ (p = r ∨ inBlock q 2 p) ∧ refcntOf L c p = 1) ∨
      (TwoNodes a r q ∧ ∀ p, L.Managed p →
        refcntOf L c p = if p = r ∨ inBlock q 2 p then 0 else refcntOf L a p) := by
  have hin : inBlock q 2 q := by
    unfold inBlock
    omega
  have hne : r ≠ q ∧ r ≠ q + 1 := by
    unfold inBlock at hout
    omega
  rw [freePages_page h hr (by rw [hcount]; decide)] at hroot
  have hfreed := dropRef_freed h hr hcount hroot
  have hone' : ∀ p, inBlock q 2 p → refcntOf L b p = 1 := by
    intro p hp
    rw [hfreed.other (hm p hp) (by rintro rfl; exact hout hp)]
    exact hone p hp
  obtain ⟨d, hfirst, hlast⟩ := freePages_two hfreed.inv hm hone' hfree
  rcases hfreed.empty hlist with ⟨hno, hsame⟩ | ⟨n, a', halloc, hback, hruns, hnode⟩
  · -- the root is lost already
    left
    refine ⟨?_, r, hr, Or.inl rfl, ?_⟩
    · rintro ⟨n, a', hsome, -⟩
      rw [hno] at hsome
      cases hsome
    · rw [hlast.other hr hne.2, hfirst.other hr hne.1, hsame, hcount]
  · rcases hfirst.second hfreed.inv hruns hne with ⟨hno, habove, hlost⟩ | ⟨hsecond, hback'⟩
    · -- the first page of the stack is lost
      left
      refine ⟨?_, q, hm q hin, Or.inr hin, ?_⟩
      · rintro ⟨n', a'', hsome, hrest⟩
        rw [halloc] at hsome
        cases hsome
        rcases hrest with hsome | heq
        · exact hsome (hnode.mp hno)
        · exact habove heq
      · exact hfirst.pair_lost hlast (hm q hin) (hone' q hin) hlost
    · right
      refine ⟨⟨n, a', halloc, hsecond.imp_left (mt hnode.mpr)⟩, fun p hp => ?_⟩
      rw [hback'.pair hm hone' hfirst hlast hp, hback p hp]
      by_cases hpr : p = r
      · rw [if_pos hpr, if_pos (Or.inl hpr), ite_self]
      · rw [if_neg hpr]
        exact if_congr (by rw [or_iff_right hpr]) rfl rfl

/-! ## Undoing an allocation -/

section Allocated

variable {n : Nat} {s s₁ : Phys}

theorem Allocated.one (hal : Allocated L q n s s₁) (hin : inBlock q n p) :
    refcntOf L s₁.alloc p = 1 := by
  rw [hal.count p (hal.managed p hin), if_pos hin]

/-- A page that was free after an allocation was free before it. -/
theorem Allocated.free (hal : Allocated L q n s s₁) (hm : L.Managed p)
    (hfree : refcntOf L s₁.alloc p = 0) : ¬ inBlock q n p ∧ refcntOf L s.alloc p = 0 := by
  have hout : ¬ inBlock q n p := by
    intro hin
    rw [hal.one hin] at hfree
    cases hfree
  rw [hal.count p hm, if_neg hout] at hfree
  exact ⟨hout, hfree⟩

/-- Once the pages are back the counts are those from before. -/
theorem Allocated.undone (hal : Allocated L q n s s₁)
    (hback : ∀ p, L.Managed p →
      refcntOf L a p = if inBlock q n p then 0 else refcntOf L s₁.alloc p)
    (hm : L.Managed p) : refcntOf L a p = refcntOf L s.alloc p := by
  rw [hback p hm]
  by_cases hin : inBlock q n p
  · rw [if_pos hin, hal.wasFree p hin]
  · rw [if_neg hin, hal.count p hm, if_neg hin]

end Allocated

end Sugimotos.Mm
