/-
# The physical page allocator

Model of `mm/page_alloc.c`.  Managed memory is `[__free_ram, __free_ram_end)`.
Pages are handed out from the bottom upwards (`nextPaddr`), the reference-count
array sits at the very top, and the nodes of the free list are carved below it,
from the top downwards (`metaTop`).  Freed pages go back to `freeRuns`, an
ascending list of runs.

A linked list of `struct page_run` is a Lean list of runs, each carrying the
address of its node; `freeMetaNodes` is the list of recycled node addresses.
`-1` and a zero address are `none`; `PANIC` is `Except.error`.
-/

import Sugimotos.Mm.Layout

namespace Sugimotos.Mm

/-- The `PANIC` branches of the allocator. -/
inductive Panic
  | allocatorUnavailable
  | freeZeroPages
  | freeUnaligned
  | freeOutOfManagedRange
  | freeOverlap
  | doubleFree
  | incRefOnFreePage
  | decRefOnFreePage
  deriving DecidableEq, Repr

/-- `struct page_run`: `pages` free pages from `base` on.  `node` is the address
of the structure itself. -/
structure PageRun where
  node : Nat
  base : Nat
  pages : Nat
  deriving DecidableEq, Repr

/-- `sizeof(struct page_run)`. -/
abbrev pageRunSize : Nat := 12

/-- The static variables of the allocator.  `pageRefcnt` is indexed by the page
number inside managed memory. -/
structure Allocator where
  freeRuns : List PageRun
  freeMetaNodes : List Nat
  nextPaddr : Nat
  metaTop : Nat
  initialized : Bool
  pageRefcnt : Nat → Nat
  managedPageCount : Nat
  freeMetaOomWarned : Bool

variable (L : Layout)

/-- The static initialisers. -/
def Allocator.static : Allocator where
  freeRuns := []
  freeMetaNodes := []
  nextPaddr := L.freeRam
  metaTop := L.freeRamEnd
  initialized := false
  pageRefcnt := fun _ => 0
  managedPageCount := 0
  freeMetaOomWarned := false

/-- `init_allocator_if_needed`: on the first call, place the reference-count
array (two bytes a page) at the top of managed memory. -/
def initAllocatorIfNeeded (a : Allocator) : Option Allocator :=
  if a.initialized then some a
  else
    let managedPageCount := (L.freeRamEnd - L.freeRam) / pageSize
    let refBytes := managedPageCount * 2
    let refTop := (L.freeRamEnd - refBytes) / 4 * 4
    if refTop ≤ L.freeRam then none
    else
      some { a with
        freeRuns := []
        freeMetaNodes := []
        nextPaddr := L.freeRam
        metaTop := refTop
        managedPageCount := managedPageCount
        pageRefcnt := fun _ => 0
        initialized := true }

/-- `page_idx_if_managed`. -/
def pageIdxIfManaged (a : Allocator) (paddr : Nat) : Option Nat :=
  if paddr < L.freeRam ∨ L.freeRamEnd ≤ paddr then none
  else if ¬ isAligned paddr then none
  else
    let idx := (paddr - L.freeRam) / pageSize
    if a.managedPageCount ≤ idx then none else some idx

/-- `alloc_run_node`: reuse a released node, or carve one below `meta_top`. -/
def allocRunNode (a : Allocator) : Option (Nat × Allocator) :=
  match a.freeMetaNodes with
  | n :: rest => some (n, { a with freeMetaNodes := rest })
  | [] =>
      let newTop := (a.metaTop - pageRunSize) / 4 * 4
      if newTop ≤ a.nextPaddr then none
      else some (newTop, { a with metaTop := newTop })

/-- `release_run_node`. -/
def releaseRunNode (node : Nat) (a : Allocator) : Allocator :=
  { a with freeMetaNodes := node :: a.freeMetaNodes }

/-- The loop of `coalesce_free_runs`, with `cur` the run it stands on.  The
second component collects the released nodes, latest first. -/
def coalesceFrom (cur : PageRun) : List PageRun → List Nat → List PageRun × List Nat
  | [], metas => ([cur], metas)
  | next :: rest, metas =>
      if u32 (cur.base + u32 (cur.pages * pageSize)) = next.base then
        coalesceFrom { cur with pages := cur.pages + next.pages } rest (next.node :: metas)
      else
        let tail := coalesceFrom next rest metas
        (cur :: tail.1, tail.2)

/-- `coalesce_free_runs`. -/
def coalesceFreeRuns (a : Allocator) : Allocator :=
  match a.freeRuns with
  | [] => a
  | cur :: rest =>
      let merged := coalesceFrom cur rest a.freeMetaNodes
      { a with freeRuns := merged.1, freeMetaNodes := merged.2 }

/-- What the list insertion of `free_single_page_raw` does behind the head:
extend an existing run, or link a new node (which is followed by a coalescing
pass over the whole list), or fail for lack of a node. -/
inductive FreeResult
  | noNode
  | extended (runs : List PageRun) (a : Allocator)
  | inserted (runs : List PageRun) (a : Allocator)

/-- Put a run back in front of the part of the list that was rebuilt. -/
def FreeResult.push (r : PageRun) : FreeResult → FreeResult
  | .noNode => .noNode
  | .extended runs a => .extended (r :: runs) a
  | .inserted runs a => .inserted (r :: runs) a

/-- The body of `free_single_page_raw` once `cur` is the last run whose
successor does not start below `paddr`. -/
def freeAt (paddr : Nat) (a : Allocator) (cur : PageRun) (rest : List PageRun) :
    Except Panic FreeResult :=
  let stop := paddr + pageSize
  let curEnd := cur.base + cur.pages * pageSize
  if paddr < curEnd then .error .freeOverlap
  else
    match rest with
    | [] =>
        if curEnd = paddr then
          .ok (.extended [{ cur with pages := cur.pages + 1 }] a)
        else
          match allocRunNode a with
          | none => .ok .noNode
          | some (n, a') => .ok (.inserted [cur, ⟨n, paddr, 1⟩] a')
    | next :: tail =>
        if next.base < stop then .error .freeOverlap
        else if curEnd = paddr then
          if cur.base + (cur.pages + 1) * pageSize = next.base then
            .ok (.extended ({ cur with pages := cur.pages + 1 + next.pages } :: tail)
              (releaseRunNode next.node a))
          else
            .ok (.extended ({ cur with pages := cur.pages + 1 } :: next :: tail) a)
        else if stop = next.base then
          .ok (.extended (cur :: { next with base := paddr, pages := next.pages + 1 } :: tail) a)
        else
          match allocRunNode a with
          | none => .ok .noNode
          | some (n, a') => .ok (.inserted (cur :: ⟨n, paddr, 1⟩ :: next :: tail) a')

/-- The scan of `free_single_page_raw` for the run to insert behind. -/
def freeAfter (paddr : Nat) (a : Allocator) (cur : PageRun) :
    List PageRun → Except Panic FreeResult
  | [] => freeAt paddr a cur []
  | next :: rest =>
      if next.base < paddr then (freeAfter paddr a next rest).map (FreeResult.push cur)
      else freeAt paddr a cur (next :: rest)

/-- `free_single_page_raw`: return one page to the free list.  `none` is `-1`,
no list node could be had. -/
def freeSinglePageRaw (paddr : Nat) (a : Allocator) : Except Panic (Option Allocator) :=
  let stop := paddr + pageSize
  match a.freeRuns with
  | [] =>
      match allocRunNode a with
      | none => .ok none
      | some (n, a') => .ok (some { a' with freeRuns := [⟨n, paddr, 1⟩] })
  | head :: rest =>
      if paddr < head.base then
        if head.base < stop then .error .freeOverlap
        else if stop = head.base then
          .ok (some { a with
            freeRuns := { head with base := paddr, pages := head.pages + 1 } :: rest })
        else
          match allocRunNode a with
          | none => .ok none
          | some (n, a') => .ok (some { a' with freeRuns := ⟨n, paddr, 1⟩ :: head :: rest })
      else
        match freeAfter paddr a head rest with
        | .error e => .error e
        | .ok .noNode => .ok none
        | .ok (.extended runs a') => .ok (some { a' with freeRuns := runs })
        | .ok (.inserted runs a') => .ok (some (coalesceFreeRuns { a' with freeRuns := runs }))

/-- The first-fit scan of `alloc_pages_try`: the address handed out, the list
that remains, and the node of a run that was used up. -/
def takeFirstFit (n : Nat) : List PageRun → Option (Nat × List PageRun × Option Nat)
  | [] => none
  | cur :: rest =>
      if n ≤ cur.pages then
        if cur.pages - n = 0 then some (cur.base, rest, some cur.node)
        else
          some (cur.base,
            { cur with base := u32 (cur.base + u32 (n * pageSize)), pages := cur.pages - n }
              :: rest,
            none)
      else
        match takeFirstFit n rest with
        | none => none
        | some (paddr, runs, node) => some (paddr, cur :: runs, node)

/-- The loop that sets the count of every page of a new allocation to one. -/
def markAllocated (paddr n : Nat) (a : Allocator) : Allocator :=
  (List.range n).foldl
    (fun b i =>
      match pageIdxIfManaged L b (u32 (paddr + u32 (i * pageSize))) with
      | none => b
      | some idx => { b with pageRefcnt := Function.update b.pageRefcnt idx 1 })
    a

/-- The choice made by `alloc_pages_try`, before any count is written: the
address of the pages and the allocator without them. -/
def reservePages (n : Nat) (a : Allocator) : Option (Nat × Allocator) :=
  match takeFirstFit n a.freeRuns with
  | some (paddr, runs, some node) => some (paddr, releaseRunNode node { a with freeRuns := runs })
  | some (paddr, runs, none) => some (paddr, { a with freeRuns := runs })
  | none =>
      let newNext := u32 (a.nextPaddr + u32 (n * pageSize))
      -- Check for overflow and OOM
      if a.metaTop < newNext ∨ newNext < a.nextPaddr then none
      else some (a.nextPaddr, { a with nextPaddr := newNext })

/-- `alloc_pages_try` on the allocator's own variables.  The zero fill of the
pages is done by the caller of this function, on memory. -/
def allocPagesMeta (n : Nat) (a : Allocator) : Option Nat × Allocator :=
  match initAllocatorIfNeeded L a with
  | none => (none, a)
  | some a =>
      if n = 0 then (none, a)
      else
        match reservePages n a with
        | none => (none, a)
        | some (paddr, a') => (some paddr, markAllocated L paddr n a')

/-- Drop one reference to a page whose count is positive; the last one returns
the page to the free list, or leaks it when no list node is left. -/
def dropRef (paddr idx : Nat) (a : Allocator) : Except Panic Allocator :=
  let a := { a with pageRefcnt := Function.update a.pageRefcnt idx (a.pageRefcnt idx - 1) }
  if a.pageRefcnt idx = 0 then
    match freeSinglePageRaw paddr a with
    | .error e => .error e
    | .ok (some a') => .ok a'
    | .ok none =>
        .ok { a with
          pageRefcnt := Function.update a.pageRefcnt idx 1
          freeMetaOomWarned := true }
  else .ok a

/-- One turn of the loop of `free_pages`. -/
def freePage (paddr : Nat) (a : Allocator) (i : Nat) : Except Panic Allocator :=
  let cur := u32 (paddr + u32 (i * pageSize))
  match pageIdxIfManaged L a cur with
  | none => .ok a
  | some idx => if a.pageRefcnt idx = 0 then .error .doubleFree else dropRef cur idx a

/-- `free_pages`. -/
def freePages (paddr n : Nat) (a : Allocator) : Except Panic Allocator :=
  match initAllocatorIfNeeded L a with
  | none => .error .allocatorUnavailable
  | some a =>
      if n = 0 then .error .freeZeroPages
      else if ¬ isAligned paddr then .error .freeUnaligned
      else if paddr < L.freeRam ∨ L.freeRamEnd < paddr + n * pageSize then
        .error .freeOutOfManagedRange
      else (List.range n).foldlM (freePage L paddr) a

/-- `page_inc_ref`: the count is a `uint16_t`. -/
def pageIncRef (paddr : Nat) (a : Allocator) : Except Panic Allocator :=
  match initAllocatorIfNeeded L a with
  | none => .error .allocatorUnavailable
  | some a =>
      match pageIdxIfManaged L a paddr with
      | none => .ok a
      | some idx =>
          if a.pageRefcnt idx = 0 then .error .incRefOnFreePage
          else
            .ok { a with
              pageRefcnt := Function.update a.pageRefcnt idx ((a.pageRefcnt idx + 1) % 65536) }

/-- `page_dec_ref`. -/
def pageDecRef (paddr : Nat) (a : Allocator) : Except Panic Allocator :=
  match initAllocatorIfNeeded L a with
  | none => .error .allocatorUnavailable
  | some a =>
      match pageIdxIfManaged L a paddr with
      | none => .ok a
      | some idx => if a.pageRefcnt idx = 0 then .error .decRefOnFreePage else dropRef paddr idx a

end Sugimotos.Mm
