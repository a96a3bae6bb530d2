/-
# Physical memory and the memory-management unit

Memory is a map from physical page numbers to pages of bytes; a page table is a
page read as 1024 little-endian words.  The state also holds what the hardware
caches: a TLB that may at any time remember any leaf translation of the active
page table.  Which translations it picks, and when, is left open: the schedule
`refill` is an arbitrary function of a clock that advances whenever the kernel
touches the memory-management unit.
-/

import Sugimotos.Mm.PageAlloc

namespace Sugimotos.Mm

/-- The bytes of one page. -/
abbrev PageBytes := Nat → UInt8

/-- A page as `memset` to zero leaves it. -/
def zeroPage : PageBytes := fun _ => 0

/-- The little-endian 32-bit word with index `i` of a page. -/
def loadWord (page : PageBytes) (i : Nat) : Nat :=
  (page (4 * i)).toNat + 256 * (page (4 * i + 1)).toNat + 65536 * (page (4 * i + 2)).toNat +
    16777216 * (page (4 * i + 3)).toNat

/-- Store a 32-bit word. -/
def storeWord (page : PageBytes) (i word : Nat) : PageBytes :=
  fun off => if off / 4 = i then UInt8.ofNat (word / 256 ^ (off % 4)) else page off

/-- A page filled with 1024 words. -/
def wordPage (word : Nat → Nat) : PageBytes :=
  fun off => UInt8.ofNat (word (off / 4) / 256 ^ (off % 4))

/-! ## Page-table entries -/

abbrev pteV : Nat := 1
abbrev pteR : Nat := 2
abbrev pteW : Nat := 4
abbrev pteX : Nat := 8
abbrev pteU : Nat := 16
abbrev pteA : Nat := 64
abbrev pteD : Nat := 128

/-- `PTE_R | PTE_W | PTE_X`: an entry with one of them is a leaf. -/
abbrev pteRwx : Nat := 14

/-- `PTE_R | PTE_W | PTE_X | PTE_U`. -/
abbrev pteRwxu : Nat := 30

/-- The physical page number of an entry, as the shifts `>> 10 << 12` of a
`uint32_t` leave it. -/
def ptePage (pte : Nat) : Nat := (pte >>> 10) % 1048576

/-- A leaf translation: the physical page and the bits R, W, X and U. -/
structure Leaf where
  ppn : Nat
  perm : Nat
  deriving DecidableEq, Repr

/-- The leaf translation a second-level entry stands for, if it is one. -/
def decodeLeaf (pte : Nat) : Option Leaf :=
  if pte &&& pteV = 0 ∨ pte &&& pteRwx = 0 then none
  else some ⟨ptePage pte, pte &&& pteRwxu⟩

abbrev Memory := Nat → PageBytes

/-- The two-level walk from the root in physical page `root`, for virtual page
number `vpn`.  A leaf in the root maps 4 MiB. -/
def walk (mem : Memory) (root vpn : Nat) : Option Leaf :=
  let pte1 := loadWord (mem root) (vpn / 1024)
  if pte1 &&& pteV = 0 then none
  else if pte1 &&& pteRwx ≠ 0 then some ⟨ptePage pte1 ||| vpn % 1024, pte1 &&& pteRwxu⟩
  else decodeLeaf (loadWord (mem (ptePage pte1)) (vpn % 1024))

/-- The hardware refuses the reserved encoding "writable but not readable". -/
def Leaf.reserved (leaf : Leaf) : Bool := leaf.perm &&& pteW ≠ 0 ∧ leaf.perm &&& pteR = 0

/-- The translation the hardware finds. -/
def hwWalk (mem : Memory) (root vpn : Nat) : Option Leaf :=
  (walk mem root vpn).filter fun leaf => !leaf.reserved

/-! ## The machine -/

/-- A cached translation. -/
structure TlbEntry where
  vpn : Nat
  leaf : Leaf
  deriving DecidableEq, Repr

/-- The translation hardware: the active `satp`, the cached translations, and
the schedule by which the hardware caches more of them. -/
structure Mmu where
  satp : Nat
  tlb : List TlbEntry
  refill : Nat → List (Fin 1048576)
  clock : Nat

/-- Memory, the allocator that manages it, and the translation hardware. -/
structure Phys where
  alloc : Allocator
  mem : Memory
  mmu : Mmu

abbrev satpModeSv32 : Nat := 0x80000000
abbrev satpPpnMask : Nat := 0x3fffff

/-- `vm_make_satp`. -/
def vmMakeSatp (rootPa : Nat) : Nat := satpModeSv32 ||| (rootPa >>> 12)

/-- `vm_root_from_satp`. -/
def vmRootFromSatp (satp : Nat) : Nat := u32 ((satp &&& satpPpnMask) <<< 12)

/-- Number of the page that holds the root table of a `satp` value. -/
def rootPage (satp : Nat) : Nat := vmRootFromSatp satp / 4096

namespace Phys

/-- The hardware caches the translations its schedule picks at this moment. -/
def tick (s : Phys) : Phys :=
  { s with mmu := { s.mmu with
      tlb := (s.mmu.refill s.mmu.clock).filterMap (fun vpn =>
        (hwWalk s.mem (rootPage s.mmu.satp) vpn.val).map fun leaf => ⟨vpn.val, leaf⟩) ++ s.mmu.tlb
      clock := s.mmu.clock + 1 } }

/-- `sfence.vma zero, zero`. -/
def sfenceVma (s : Phys) : Phys := { s with mmu := { s.mmu with tlb := [] } }

/-- Word `i` of the table at the page-aligned physical address `base`. -/
def read32 (s : Phys) (base i : Nat) : Nat := loadWord (s.mem (base / 4096)) i

/-- Replace the contents of the page at a physical address. -/
def setPage (s : Phys) (base : Nat) (page : PageBytes) : Phys :=
  { s with mem := Function.update s.mem (base / 4096) page }

/-- Store word `i` of the table at the page-aligned physical address `base`. -/
def write32 (s : Phys) (base i word : Nat) : Phys :=
  s.setPage base (storeWord (s.mem (base / 4096)) i word)

@[simp] theorem tick_alloc (s : Phys) : s.tick.alloc = s.alloc := rfl
@[simp] theorem tick_mem (s : Phys) : s.tick.mem = s.mem := rfl
@[simp] theorem sfenceVma_alloc (s : Phys) : s.sfenceVma.alloc = s.alloc := rfl
@[simp] theorem sfenceVma_mem (s : Phys) : s.sfenceVma.mem = s.mem := rfl
@[simp] theorem setPage_alloc (s : Phys) (base : Nat) (page : PageBytes) :
    (s.setPage base page).alloc = s.alloc := rfl
@[simp] theorem setPage_mmu (s : Phys) (base : Nat) (page : PageBytes) :
    (s.setPage base page).mmu = s.mmu := rfl

end Phys

variable (L : Layout)

/-- `memset((void *) paddr, 0, bytes)` for a page-aligned address and length. -/
def zeroPages (mem : Memory) (paddr bytes : Nat) : Memory :=
  fun p => if paddr / 4096 ≤ p ∧ p < (paddr + bytes) / 4096 then zeroPage else mem p

/-- `alloc_pages_try`: the pages handed out are zero-filled. -/
def allocPagesTry (n : Nat) (s : Phys) : Option Nat × Phys :=
  match allocPagesMeta L n s.alloc with
  | (none, a) => (none, { s with alloc := a })
  | (some paddr, a) =>
      (some paddr, { s with alloc := a, mem := zeroPages s.mem paddr (u32 (n * pageSize)) })

/-- An allocator call that touches no memory, run on the machine. -/
def Phys.withAlloc (s : Phys) (call : Allocator → Except Panic Allocator) : Except Panic Phys :=
  match call s.alloc with
  | .error e => .error e
  | .ok a => .ok { s with alloc := a }

end Sugimotos.Mm
