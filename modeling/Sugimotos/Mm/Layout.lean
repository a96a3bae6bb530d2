/-
# Machine words, pages and the linker layout

All C integers of the memory subsystem are `uint32_t`.  They are modelled as
natural numbers, and every place where the C expression can leave the 32-bit
range is reduced explicitly with `u32`.

`Layout` collects the linker symbols the memory code reads.  Its fields are the
facts `arch/riscv32/kernel.ld` establishes about them: every user section and
`__free_ram` start on a page boundary, the sections follow one another in the
order of the script, and the managed memory is 32 MiB inside the 64 MiB of RAM
that `vm_init` maps.
-/

import Mathlib.Data.Nat.Basic
import Mathlib.Tactic.Ring

namespace Sugimotos.Mm

/-- `PAGE_SIZE`. -/
abbrev pageSize : Nat := 4096

/-- Reduction of an arithmetic result to `uint32_t`. -/
def u32 (n : Nat) : Nat := n % 4294967296

theorem u32_of_lt {n : Nat} (h : n < 4294967296) : u32 n = n := Nat.mod_eq_of_lt h

theorem u32_lt (n : Nat) : u32 n < 4294967296 := Nat.mod_lt _ (by decide)

/-- `is_aligned(value, PAGE_SIZE)`. -/
def isAligned (value : Nat) : Bool := value % pageSize == 0

@[simp]
theorem isAligned_iff (value : Nat) : isAligned value = true ↔ value % 4096 = 0 := by
  simp [isAligned]

/-- `page_floor`: clear the page offset. -/
def pageFloor (value : Nat) : Nat := value / pageSize * pageSize

/-- `page_ceil`: round up to a page boundary.  The addition wraps first. -/
def pageCeil (value : Nat) : Nat := u32 (value + (pageSize - 1)) / pageSize * pageSize

/-- The linker symbols used by the memory code, with what the linker script
guarantees about them. -/
structure Layout where
  userTextStart : Nat
  userTextEnd : Nat
  rodataStart : Nat
  userRodataStart : Nat
  userRodataEnd : Nat
  userDataStart : Nat
  userDataEnd : Nat
  userBssStart : Nat
  userBssEnd : Nat
  freeRam : Nat
  userTextStart_aligned : userTextStart % 4096 = 0
  userTextEnd_aligned : userTextEnd % 4096 = 0
  rodataStart_aligned : rodataStart % 4096 = 0
  userRodataStart_aligned : userRodataStart % 4096 = 0
  userRodataEnd_aligned : userRodataEnd % 4096 = 0
  userDataStart_aligned : userDataStart % 4096 = 0
  userDataEnd_aligned : userDataEnd % 4096 = 0
  userBssStart_aligned : userBssStart % 4096 = 0
  userBssEnd_aligned : userBssEnd % 4096 = 0
  freeRam_aligned : freeRam % 4096 = 0
  text_base : 0x80200000 ≤ userTextStart
  userText_le : userTextStart ≤ userTextEnd
  userTextEnd_le_rodata : userTextEnd ≤ rodataStart
  rodata_le_userRodata : rodataStart ≤ userRodataStart
  userRodata_le : userRodataStart ≤ userRodataEnd
  userRodataEnd_le_data : userRodataEnd ≤ userDataStart
  userData_le : userDataStart ≤ userDataEnd
  userDataEnd_le_bss : userDataEnd ≤ userBssStart
  userBss_le : userBssStart ≤ userBssEnd
  userBssEnd_le_freeRam : userBssEnd ≤ freeRam
  freeRam_mapped : freeRam + 0x2000000 ≤ 0x84000000

namespace Layout

variable (L : Layout)

/-- `__free_ram_end`: the script reserves 32 MiB. -/
def freeRamEnd : Nat := L.freeRam + 0x2000000

/-- `__rodata_end`: the script sets it together with `__user_rodata_end`. -/
def rodataEnd : Nat := L.userRodataEnd

/-- Number of the first managed physical page. -/
def freePage : Nat := L.freeRam / pageSize

/-- The physical page numbers the allocator manages. -/
def Managed (p : Nat) : Prop := L.freePage ≤ p ∧ p < L.freePage + 8192

instance (p : Nat) : Decidable (L.Managed p) :=
  inferInstanceAs (Decidable (_ ∧ _))

theorem freeRam_fits : L.freeRam + 0x2000000 < 4294967296 := by
  have h := L.freeRam_mapped
  omega

theorem freePage_mul : L.freePage * 4096 = L.freeRam := by
  have h := L.freeRam_aligned
  simp only [freePage, pageSize]
  omega

end Layout

end Sugimotos.Mm
