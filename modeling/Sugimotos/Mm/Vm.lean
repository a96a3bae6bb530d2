/-
# Sv32 page tables

Model of `mm/vm.c`.  Addresses are physical or virtual byte addresses; a table
is addressed by the physical address of its page.  Functions that return `-1`
return `false` or `none`.
-/

import Sugimotos.Mm.Phys

namespace Sugimotos.Mm

abbrev vmFlgR : Nat := 1
abbrev vmFlgW : Nat := 2
abbrev vmFlgX : Nat := 4
abbrev vmFlgU : Nat := 8

abbrev vmaProtR : Nat := 1
abbrev vmaProtW : Nat := 2
abbrev vmaProtX : Nat := 4

/-- `pte_from_pa`. -/
def pteFromPa (pa perm : Nat) : Nat :=
  ((pa >>> 12) <<< 10) ||| perm ||| pteV ||| pteA ||| pteD

/-- `pte_perm_from_flags`. -/
def ptePermFromFlags (flags : Nat) : Nat :=
  (if flags &&& vmFlgR ≠ 0 then pteR else 0) |||
    (if flags &&& vmFlgW ≠ 0 then pteW else 0) |||
    (if flags &&& vmFlgX ≠ 0 then pteX else 0) |||
    (if flags &&& vmFlgU ≠ 0 then pteU else 0)

variable (L : Layout)

/-- The second-level table `vm_map_page` builds in front of a store: empty, or
the 1024 small pages of the 4 MiB leaf that was there. -/
def splitTable (pte1 : Nat) : PageBytes :=
  if pte1 &&& pteV ≠ 0 ∧ pte1 &&& pteRwx ≠ 0 then
    let perm := pte1 &&& (pteRwxu ||| pteA ||| pteD)
    let pa4m := u32 ((pte1 >>> 10) <<< 12) / 0x400000 * 0x400000
    wordPage fun i => pteFromPa (u32 (pa4m + i * pageSize)) perm
  else zeroPage

/-- First half of `vm_map_page`: the second-level table behind `root[vpn1]`,
allocated and linked if there is none. -/
def vmTableFor (root vpn1 : Nat) (s : Phys) : Option Nat × Phys :=
  let pte1 := s.read32 root vpn1
  if pte1 &&& pteV = 0 ∨ pte1 &&& pteRwx ≠ 0 then
    match allocPagesTry L 1 s with
    | (none, s') => (none, s')
    | (some l0, s') =>
        let s' := s'.setPage l0 (splitTable pte1)
        (some l0, s'.write32 root vpn1 (((l0 >>> 12) <<< 10) ||| pteV))
  else (some (u32 ((pte1 >>> 10) <<< 12)), s)

/-- `vm_map_page`.  The translation hardware may have cached anything up to the
moment the tables change. -/
def vmMapPage (root va pa flags : Nat) (s : Phys) : Bool × Phys :=
  let vpn1 := (va >>> 22) &&& 0x3ff
  let vpn0 := (va >>> 12) &&& 0x3ff
  match vmTableFor L root vpn1 s.tick with
  | (none, s') => (false, s')
  | (some l0, s') => (true, s'.write32 l0 vpn0 (pteFromPa pa (ptePermFromFlags flags)))

/-- The offsets visited by `for (off = 0; off < len; off += PAGE_SIZE)`. -/
def pageOffsets (len : Nat) : List Nat :=
  (List.range ((len + (pageSize - 1)) / pageSize)).map (· * pageSize)

/-- The loop of `vm_map_range_4k`. -/
def vmMapOffsets (root va pa flags : Nat) : List Nat → Phys → Bool × Phys
  | [], s => (true, s)
  | off :: rest, s =>
      match vmMapPage L root (u32 (va + off)) (u32 (pa + off)) flags s with
      | (false, s') => (false, s')
      | (true, s') => vmMapOffsets root va pa flags rest s'

/-- `vm_map_range_4k`. -/
def vmMapRange4k (root va pa len flags : Nat) (s : Phys) : Bool × Phys :=
  vmMapOffsets L root va pa flags (pageOffsets len) s

/-- `vm_map_range_4m`: one root entry for each 4 MiB. -/
def vmMapRange4m (root va pa len flags : Nat) (s : Phys) : Phys :=
  (List.range ((len + 0x3fffff) / 0x400000)).foldl
    (fun s i =>
      s.write32 root ((u32 (va + i * 0x400000) >>> 22) &&& 0x3ff)
        (pteFromPa (u32 (pa + i * 0x400000)) (ptePermFromFlags flags)))
    s

/-- `vm_map_identity_segment`. -/
def vmMapIdentitySegment (root start stop flags : Nat) (s : Phys) : Bool × Phys :=
  if stop ≤ start then (true, s) else vmMapRange4k L root start start (stop - start) flags s

/-- `vm_activate`. -/
def vmActivate (satp : Nat) (s : Phys) : Phys :=
  let s := s.tick
  { s with mmu := { s.mmu with satp := satp } }.sfenceVma

/-- `vm_query_user_page`: the physical address and the permission bits. -/
def vmQueryUserPage (satp va : Nat) (s : Phys) : Option (Nat × Nat) :=
  let root := vmRootFromSatp satp
  let vpn1 := (va >>> 22) &&& 0x3ff
  let vpn0 := (va >>> 12) &&& 0x3ff
  let pte1 := s.read32 root vpn1
  if pte1 &&& pteV = 0 then none
  else if pte1 &&& pteRwx ≠ 0 then
    some (u32 ((pte1 >>> 10) <<< 12) ||| (va &&& 0x3fffff), pte1 &&& pteRwxu)
  else
    let l0 := u32 ((pte1 >>> 10) <<< 12)
    let pte0 := s.read32 l0 vpn0
    if pte0 &&& pteV = 0 ∨ pte0 &&& pteRwx = 0 then none
    else some (u32 ((pte0 >>> 10) <<< 12) ||| (va &&& 0xfff), pte0 &&& pteRwxu)

/-- The flags `vm_map_user_page` passes on for a VMA protection. -/
def userFlags (prot : Nat) : Nat :=
  (if prot &&& vmaProtR ≠ 0 then vmFlgR else 0) |||
    (if prot &&& vmaProtW ≠ 0 then vmFlgW else 0) |||
    (if prot &&& vmaProtX ≠ 0 then vmFlgX else 0) ||| vmFlgU

/-- `vm_map_user_page`. -/
def vmMapUserPage (satp va pa prot : Nat) (s : Phys) : Bool × Phys :=
  if ¬ isAligned va ∨ ¬ isAligned pa then (false, s)
  else vmMapPage L (vmRootFromSatp satp) va pa (userFlags prot) s

/-- `vm_unmap_user_page`. -/
def vmUnmapUserPage (satp va : Nat) (s : Phys) : Bool × Phys :=
  if ¬ isAligned va then (false, s)
  else
    let root := vmRootFromSatp satp
    let vpn1 := (va >>> 22) &&& 0x3ff
    let vpn0 := (va >>> 12) &&& 0x3ff
    let pte1 := s.read32 root vpn1
    if pte1 &&& pteV = 0 then (true, s)
    else if pte1 &&& pteRwx ≠ 0 then (false, s)
    else
      let l0 := u32 ((pte1 >>> 10) <<< 12)
      (true, (s.tick.write32 l0 vpn0 0).sfenceVma)

/-- `vm_init`: the kernel root with its 4 MiB leaves.  Returns the `satp` value
the kernel runs with. -/
def vmInit (s : Phys) : Option Nat × Phys :=
  match allocPagesTry L 1 s with
  | (none, s') => (none, s')
  | (some rootPa, s') =>
      let s' := s'.setPage rootPa zeroPage
      let s' := vmMapRange4m rootPa 0x02000000 0x02000000 0x00400000 (vmFlgR ||| vmFlgW) s'
      let s' := vmMapRange4m rootPa 0x0c000000 0x0c000000 0x00400000 (vmFlgR ||| vmFlgW) s'
      let s' := vmMapRange4m rootPa 0x10000000 0x10000000 0x02000000 (vmFlgR ||| vmFlgW) s'
      let s' := vmMapRange4m rootPa 0x80000000 0x80000000 0x04000000
        (vmFlgR ||| vmFlgW ||| vmFlgX) s'
      (some (vmMakeSatp rootPa), vmActivate (vmMakeSatp rootPa) s')

/-- One entry of the segment table of `vm_build_user_satp`. -/
structure VmIdentitySegment where
  start : Nat
  stop : Nat
  flags : Nat

/-- The segment table of `vm_build_user_satp`. -/
def userSegments : List VmIdentitySegment :=
  [⟨pageFloor L.rodataStart, pageCeil L.rodataEnd, vmFlgR ||| vmFlgU⟩,
   ⟨pageFloor L.userTextStart, pageCeil L.userTextEnd, vmFlgR ||| vmFlgX ||| vmFlgU⟩,
   ⟨pageFloor L.userRodataStart, pageCeil L.userRodataEnd, vmFlgR ||| vmFlgU⟩,
   ⟨pageFloor L.userDataStart, pageCeil L.userDataEnd, vmFlgR ||| vmFlgW ||| vmFlgU⟩,
   ⟨pageFloor L.userBssStart, pageCeil L.userBssEnd, vmFlgR ||| vmFlgW ||| vmFlgU⟩]

/-- The loop of `vm_build_user_satp` over the segment table. -/
def mapSegments (root : Nat) : List VmIdentitySegment → Phys → Bool × Phys
  | [], s => (true, s)
  | seg :: rest, s =>
      match vmMapIdentitySegment L root seg.start seg.stop seg.flags s with
      | (false, s') => (false, s')
      | (true, s') => mapSegments root rest s'

/-- The mappings `vm_build_user_satp` puts into a fresh root: the segments, then
the stack. -/
def mapUserImage (root stackBase stackPaddr stackPages : Nat) (s : Phys) : Bool × Phys :=
  match mapSegments L root (userSegments L) s with
  | (false, s') => (false, s')
  | (true, s') =>
      if 0 < stackPages then
        vmMapRange4k L root stackBase stackPaddr (u32 (stackPages * pageSize))
          (vmFlgR ||| vmFlgW ||| vmFlgU) s'
      else (true, s')

/-- `vm_build_user_satp`: `none` is the zero return.  On failure only the root
is given back. -/
def vmBuildUserSatp (kernelRoot stackBase stackPaddr stackPages : Nat) (s : Phys) :
    Except Panic (Option Nat × Phys) :=
  match allocPagesTry L 1 s with
  | (none, s') => .ok (none, s')
  | (some rootPa, s') =>
      let s' := s'.setPage rootPa (s'.mem (kernelRoot / 4096))
      match mapUserImage L rootPa stackBase stackPaddr stackPages s' with
      | (true, s') => .ok (some (vmMakeSatp rootPa), s')
      | (false, s') =>
          match s'.withAlloc (freePages L rootPa 1) with
          | .error e => .error e
          | .ok s' => .ok (none, s')

end Sugimotos.Mm
