/-
# User address spaces

Model of `mm/process_vm.c`.  The functions work on one process record and the
machine; those that the source applies to `current_proc` get that record as an
argument.  All numbers are `uint32_t`.
-/

import Sugimotos.Proc.State

namespace Sugimotos.Proc

open Sugimotos.Mm

abbrev userMmapBase : Nat := 0x20000000
abbrev userMmapEnd : Nat := 0x3f000000
abbrev mapFixed : Nat := 4

/-! ## VMA lookup -/

/-- The loop of `proc_add_vma` that refuses overlaps. -/
def overlapsAny (vmas : Vmas) (start stop : Nat) : Bool :=
  (List.finRange procVmaMax).any fun i =>
    (vmas i).used && !(decide (stop ≤ (vmas i).start) || decide ((vmas i).stop ≤ start))

/-- `proc_find_free_vma_slot`. -/
def procFindFreeVmaSlot (vmas : Vmas) : Option (Fin procVmaMax) :=
  (List.finRange procVmaMax).find? fun i => !(vmas i).used

/-- `proc_add_vma`. -/
def procAddVma (vmas : Vmas) (start stop prot : Nat) : Option Vmas :=
  if stop ≤ start then none
  else if ¬ isAligned start ∨ ¬ isAligned stop then none
  else if overlapsAny vmas start stop then none
  else
    (procFindFreeVmaSlot vmas).map fun i => Function.update vmas i ⟨true, start, stop, prot⟩

/-- `proc_find_vma_index`. -/
def procFindVmaIndex (vmas : Vmas) (addr : Nat) : Option (Fin procVmaMax) :=
  (List.finRange procVmaMax).find? fun i =>
    (vmas i).used && decide ((vmas i).start ≤ addr) && decide (addr < (vmas i).stop)

/-- The loop of `proc_vma_range_ok`.  Every turn moves `cur` up, so `stop - cur`
turns are enough. -/
def vmaRangeLoop (vmas : Vmas) (stop protNeed : Nat) : Nat → Nat → Bool
  | 0, _ => true
  | turns + 1, cur =>
      if cur < stop then
        match procFindVmaIndex vmas cur with
        | none => false
        | some i =>
            if (vmas i).prot &&& protNeed ≠ protNeed then false
            else if stop ≤ (vmas i).stop then true
            else vmaRangeLoop vmas stop protNeed turns (vmas i).stop
      else true

/-- `proc_vma_range_ok`. -/
def procVmaRangeOk (proc : Process) (addr len protNeed : Nat) : Bool :=
  if ¬ proc.isUser then false
  else if len = 0 then false
  else
    let stop := u32 (addr + len)
    if stop < addr then false
    else vmaRangeLoop proc.vmas stop protNeed (stop - addr) addr

/-! ## Giving pages back -/

/-- The addresses visited by `for (va = start; va < stop; va += PAGE_SIZE)`. -/
def pagesOf (start stop : Nat) : List Nat := (pageOffsets (stop - start)).map (start + ·)

variable (L : Layout)

/-- The body shared by the loops that give pages back: a mapped page is unmapped
and freed. -/
def unmapAndFree (satp : Nat) (s : Phys) (va : Nat) : Except Panic Phys :=
  match vmQueryUserPage satp va s with
  | none => .ok s
  | some (pa, _) =>
      match vmUnmapUserPage satp va s with
      | (true, s') => s'.withAlloc (freePages L pa 1)
      | (false, s') => .ok s'

/-- Whether a VMA lies in the mmap window. -/
def Vma.inWindow (v : Vma) : Bool := decide (userMmapBase ≤ v.start) && decide (v.stop ≤ userMmapEnd)

/-- The pages of the VMAs in the mmap window, in slot order. -/
def windowPages (vmas : Vmas) : List Nat :=
  (List.finRange procVmaMax).flatMap fun i =>
    if (vmas i).used && (vmas i).inWindow then pagesOf (vmas i).start (vmas i).stop else []

/-- `proc_vm_release`. -/
def procVmRelease (proc : Process) (s : Phys) : Except Panic Phys :=
  if ¬ proc.isUser then .ok s
  else do
    let s ← (windowPages proc.vmas).foldlM (unmapAndFree L proc.satp) s
    -- COW can replace each stack page independently; the original allocation
    -- is no longer the owner of the live stack after a fork.
    if proc.satp = 0 then
      if proc.userStackPaddr ≠ 0 ∧ 0 < proc.userStackPages then
        s.withAlloc (freePages L proc.userStackPaddr proc.userStackPages)
      else .ok s
    else
      ((List.range proc.userStackPages).map fun i => u32 (proc.userStackBase + i * pageSize)).foldlM
        (unmapAndFree L proc.satp) s

/-- `proc_vm_reset`: unmap the mmap window and forget its VMAs. -/
def procVmReset (proc : Process) (s : Phys) : Except Panic (Process × Phys) :=
  match (windowPages proc.vmas).foldlM (unmapAndFree L proc.satp) s with
  | .error e => .error e
  | .ok s =>
      .ok ({ proc with vmas := fun i =>
              if (proc.vmas i).used && (proc.vmas i).inWindow then .zero else proc.vmas i }, s)

/-! ## The fixed VMAs -/

/-- The VMAs `proc_vm_init` adds: the user sections and the stack. -/
def fixedVmas (proc : Process) : List Vma :=
  [⟨true, pageFloor L.userTextStart, pageCeil L.userTextEnd, vmaProtR ||| vmaProtX⟩,
   ⟨true, pageFloor L.userRodataStart, pageCeil L.userRodataEnd, vmaProtR⟩,
   ⟨true, pageFloor L.userDataStart, pageCeil L.userDataEnd, vmaProtR ||| vmaProtW⟩,
   ⟨true, pageFloor L.userBssStart, pageCeil L.userBssEnd, vmaProtR ||| vmaProtW⟩,
   ⟨true, proc.userStackBase, u32 (proc.userStackBase + proc.userStackPages * pageSize),
     vmaProtR ||| vmaProtW⟩]

/-- The lines `if (end > start && proc_add_vma(...) < 0) return -1;` of
`proc_vm_init`. -/
def addFixedVmas : List Vma → Vmas → Bool × Vmas
  | [], vmas => (true, vmas)
  | v :: rest, vmas =>
      if v.start < v.stop then
        match procAddVma vmas v.start v.stop v.prot with
        | none => (false, vmas)
        | some vmas => addFixedVmas rest vmas
      else addFixedVmas rest vmas

/-- `proc_vm_init`; `false` is the `-1` return. -/
def procVmInit (proc : Process) : Bool × Process :=
  let (ok, vmas) := addFixedVmas (fixedVmas L proc) fun _ => .zero
  (ok, { proc with vmas := vmas })

/-! ## Fork -/

/-- The body of `proc_vm_clone` for one page; `false` is the `-1` return. -/
def clonePage (parentSatp childSatp cowProt va : Nat) (s : Phys) : Except Panic (Bool × Phys) :=
  match vmQueryUserPage parentSatp va s with
  | none => .ok (true, s)
  | some (parentPa, _) =>
      let oldChild := vmQueryUserPage childSatp va s
      match vmMapUserPage L parentSatp va parentPa cowProt s with
      | (false, s) => .ok (false, s)
      | (true, s) => do
          let s ← s.withAlloc (pageIncRef L parentPa)
          match vmMapUserPage L childSatp va parentPa cowProt s with
          | (false, s) => do
              let s ← s.withAlloc (pageDecRef L parentPa)
              return (false, s)
          | (true, s) =>
              match oldChild with
              | none => return (true, s)
              | some (oldChildPa, _) =>
                  if oldChildPa ≠ parentPa then do
                    let s ← s.withAlloc (freePages L oldChildPa 1)
                    return (true, s)
                  else return (true, s)

/-- A loop over pages that stops at the first failure. -/
def clonePages (parentSatp childSatp : Nat) : List (Nat × Nat) → Phys → Except Panic (Bool × Phys)
  | [], s => .ok (true, s)
  | (cowProt, va) :: rest, s =>
      match clonePage L parentSatp childSatp cowProt va s with
      | .error e => .error e
      | .ok (false, s) => .ok (false, s)
      | .ok (true, s) => clonePages parentSatp childSatp rest s

/-- `prot & ~VMA_PROT_W`. -/
def cowProt (prot : Nat) : Nat := prot - (prot &&& vmaProtW)

/-- The pages `proc_vm_clone` visits, each with the protection it is shared
under: those of the writable VMAs. -/
def cowPages (vmas : Vmas) : List (Nat × Nat) :=
  (List.finRange procVmaMax).flatMap fun i =>
    if (vmas i).used && decide ((vmas i).prot &&& vmaProtW ≠ 0) then
      (pagesOf (vmas i).start (vmas i).stop).map fun va => (cowProt (vmas i).prot, va)
    else []

/-- `proc_vm_clone`. -/
def procVmClone (parent child : Process) (s : Phys) : Except Panic (Bool × Phys) :=
  clonePages L parent.satp child.satp (cowPages parent.vmas) s

/-! ## Page faults -/

/-- Whether the kernel may read the page at virtual page number `vpn` under the
given tables: a page user mode can see needs `sstatus.SUM`. -/
def kernelReadOk (sum : Bool) (satp vpn : Nat) (s : Phys) : Bool :=
  match hwWalk s.mem (rootPage satp) vpn with
  | none => false
  | some leaf => decide (leaf.perm &&& pteR ≠ 0) && (sum || decide (leaf.perm &&& pteU = 0))

/-- `proc_try_cow_fault`.  The copy reads the old page at its own physical
address.  For a page of `.user.data` or `.user.bss` this address is mapped for
user mode, so with `SUM` clear the copy faults, the handler finds the page
readable and the copy faults again for ever. -/
def procTryCowFault (sum : Bool) (proc : Process) (va : Nat) (v : Vma) (s : Phys) :
    Except Stop (Bool × Phys) :=
  if v.prot &&& vmaProtW = 0 then .ok (false, s)
  else
    match vmQueryUserPage proc.satp va s with
    | none => .ok (false, s)
    | some (oldPa, mapped) =>
        if mapped &&& pteW ≠ 0 then .ok (false, s)
        else
          match allocPagesTry L 1 s with
          | (none, s) => .ok (false, s)
          | (some newPa, s) =>
              if ¬ kernelReadOk sum proc.satp (oldPa / 4096) s then .error .faultLoop
              else
                let s := s.setPage newPa (s.mem (oldPa / 4096))
                match vmMapUserPage L proc.satp va newPa v.prot s with
                | (false, s) => liftPanic do
                    let s ← s.withAlloc (freePages L newPa 1)
                    return (false, s)
                | (true, s) => liftPanic do
                    let s ← s.withAlloc (pageDecRef L oldPa)
                    return (true, s)

/-- `prot_to_query_bits`. -/
def protToQueryBits (prot : Nat) : Nat :=
  (if prot &&& vmaProtR ≠ 0 then pteR else 0) ||| (if prot &&& vmaProtW ≠ 0 then pteW else 0) |||
    (if prot &&& vmaProtX ≠ 0 then pteX else 0)

/-- `proc_handle_user_page_fault`; `true` is the zero return. -/
def procHandleUserPageFault (sum : Bool) (proc : Process) (faultAddr access : Nat) (s : Phys) :
    Except Stop (Bool × Phys) :=
  if ¬ proc.isUser then .ok (false, s)
  else if access ≠ vmaProtX ∧ access ≠ vmaProtR ∧ access ≠ vmaProtW then .ok (false, s)
  else
    let va := pageFloor faultAddr
    match procFindVmaIndex proc.vmas va with
    | none => .ok (false, s)
    | some i =>
        let v := proc.vmas i
        if v.prot &&& access ≠ access then .ok (false, s)
        else
          match vmQueryUserPage proc.satp va s with
          | some (_, mappedProt) =>
              if mappedProt &&& protToQueryBits access = protToQueryBits access then .ok (true, s)
              else if access = vmaProtW then procTryCowFault L sum proc va v s
              else .ok (false, s)
          | none =>
              match allocPagesTry L 1 s with
              | (none, s) => .ok (false, s)
              | (some pa, s) =>
                  match vmMapUserPage L proc.satp va pa v.prot s with
                  | (false, s) => liftPanic do
                      let s ← s.withAlloc (freePages L pa 1)
                      return (false, s)
                  | (true, s) => .ok (true, s)

/-! ## Mapping and unmapping -/

/-- `proc_range_overlaps_any_vma`. -/
def procRangeOverlapsAnyVma (vmas : Vmas) (start stop : Nat) : Bool :=
  (List.finRange procVmaMax).any fun i =>
    (vmas i).used && decide (start < (vmas i).stop) && decide ((vmas i).start < stop)

/-- The inner loop of `proc_find_free_mmap_range`: the first VMA in the way. -/
def firstOverlap (vmas : Vmas) (addr stop : Nat) : Option (Fin procVmaMax) :=
  (List.finRange procVmaMax).find? fun i =>
    (vmas i).used && decide (addr < (vmas i).stop) && decide ((vmas i).start < stop)

/-- The loop of `proc_find_free_mmap_range`.  Every turn moves `addr` up, so the
size of the window bounds the number of turns. -/
def findFreeLoop (vmas : Vmas) (len : Nat) : Nat → Nat → Option Nat
  | 0, _ => none
  | turns + 1, addr =>
      let stop := u32 (addr + len)
      if addr ≤ stop ∧ stop ≤ userMmapEnd then
        match firstOverlap vmas addr stop with
        | some i => findFreeLoop vmas len turns (pageCeil (vmas i).stop)
        | none => some addr
      else none

/-- `proc_find_free_mmap_range`. -/
def procFindFreeMmapRange (vmas : Vmas) (len : Nat) : Option Nat :=
  findFreeLoop vmas len (userMmapEnd - userMmapBase + 1) userMmapBase

/-- One turn of the loop of `proc_munmap` over the VMAs: the range is cut out of
VMA `i`.  `none` is the `-1` return; the flag says whether anything changed. -/
def cutVma (addr stop : Nat) (state : Vmas × Bool) (i : Fin procVmaMax) : Option (Vmas × Bool) :=
  let (vmas, changed) := state
  let v := vmas i
  if ¬ v.used then some (vmas, changed)
  else if v.stop ≤ addr ∨ stop ≤ v.start then some (vmas, changed)
  else
    let cutS := if v.start < addr then addr else v.start
    let cutE := if stop < v.stop then stop else v.stop
    if cutE ≤ cutS then some (vmas, changed)
    else if cutS = v.start ∧ cutE = v.stop then some (Function.update vmas i .zero, true)
    else if cutS = v.start then some (Function.update vmas i { v with start := cutE }, true)
    else if cutE = v.stop then some (Function.update vmas i { v with stop := cutS }, true)
    else
      match procFindFreeVmaSlot vmas with
      | none => none
      | some j =>
          let vmas := Function.update vmas j ⟨true, cutE, v.stop, v.prot⟩
          some (Function.update vmas i { vmas i with stop := cutS }, true)

/-- The loop of `proc_munmap` over the VMAs.  It writes the process record in
place, so a failure keeps the cuts made so far. -/
def cutVmas (addr stop : Nat) : List (Fin procVmaMax) → Vmas × Bool → Bool × Vmas × Bool
  | [], state => (true, state)
  | i :: rest, state =>
      match cutVma addr stop state i with
      | none => (false, state.1, true)
      | some state => cutVmas addr stop rest state

/-- `proc_munmap`; `true` is the zero return. -/
def procMunmap (proc : Process) (addr len : Nat) (s : Phys) :
    Except Panic (Bool × Process × Phys) :=
  if ¬ proc.isUser then .ok (false, proc, s)
  else if ¬ isAligned addr then .ok (false, proc, s)
  else if len = 0 then .ok (false, proc, s)
  else
    let len := pageCeil len
    let stop := u32 (addr + len)
    if stop < addr then .ok (false, proc, s)
    else if addr < userMmapBase ∨ userMmapEnd < stop then .ok (false, proc, s)
    else
      match cutVmas addr stop (List.finRange procVmaMax) (proc.vmas, false) with
      | (false, vmas, _) => .ok (false, { proc with vmas := vmas }, s)
      | (true, vmas, false) => .ok (true, { proc with vmas := vmas }, s)
      | (true, vmas, true) => do
          let s ← (pagesOf addr stop).foldlM (unmapAndFree L proc.satp) s
          return (true, { proc with vmas := vmas }, s)

/-- Where `proc_mmap` puts a mapping without `MAP_FIXED`: at the hint if it is
free, else at the first gap. -/
def mmapPlace (vmas : Vmas) (addrHint len : Nat) : Option Nat :=
  let hintEnd := u32 (addrHint + len)
  let addr :=
    if addrHint ≠ 0 ∧ isAligned addrHint ∧ userMmapBase ≤ addrHint ∧ hintEnd ≤ userMmapEnd ∧
        addrHint ≤ hintEnd ∧ ¬ procRangeOverlapsAnyVma vmas addrHint hintEnd then addrHint
    else 0
  if addr = 0 then procFindFreeMmapRange vmas len else some addr

/-- The last step of `proc_mmap`. -/
def mmapAdd (proc : Process) (addr len prot : Nat) : Option Nat × Process :=
  match procAddVma proc.vmas addr (u32 (addr + len)) prot with
  | none => (none, proc)
  | some vmas => (some addr, { proc with vmas := vmas })

/-- `proc_mmap`: the address, or `none` for `-1`. -/
def procMmap (proc : Process) (addrHint len prot flags : Nat) (s : Phys) :
    Except Panic (Option Nat × Process × Phys) :=
  if ¬ proc.isUser then .ok (none, proc, s)
  else if len = 0 then .ok (none, proc, s)
  else if 8 ≤ prot ∨ prot = 0 then .ok (none, proc, s)
  else
    let len := pageCeil len
    if flags &&& mapFixed ≠ 0 then
      if ¬ isAligned addrHint then .ok (none, proc, s)
      else if addrHint < userMmapBase ∨ userMmapEnd < u32 (addrHint + len) ∨
          u32 (addrHint + len) < addrHint then .ok (none, proc, s)
      else
        match procMunmap L proc addrHint len s with
        | .error e => .error e
        | .ok (false, proc, s) => .ok (none, proc, s)
        | .ok (true, proc, s) =>
            let (result, proc) := mmapAdd proc addrHint len prot
            .ok (result, proc, s)
    else
      match mmapPlace proc.vmas addrHint len with
      | none => .ok (none, proc, s)
      | some addr =>
          let (result, proc) := mmapAdd proc addr len prot
          .ok (result, proc, s)

end Sugimotos.Proc
