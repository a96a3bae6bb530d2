/-
# The instructions of the trap and switch code

The part of a RISC-V hart that the assembly of `arch/riscv32` works on, and the instructions
it is made of.  Memory is read and written by aligned words.  Every branch in that assembly
goes forward, so a branch says how many instructions it skips, and a piece of code is run
from its first instruction to the first one that leaves it.
-/

import Sugimotos.Math.Spill
import Sugimotos.Proc.State

namespace Sugimotos.Arch

open Sugimotos.Math Sugimotos.Proc

/-- The control and status registers that the assembly reads or writes. -/
inductive Csr
  | sscratch
  | sepc
  | sstatus
  deriving DecidableEq, Repr

@[ext]
structure Hart where
  reg : Reg → UInt32
  csr : Csr → UInt32
  mem : UInt32 → UInt32
  pc : UInt32
  user : Bool

abbrev sstatusSie : UInt32 := 0x2
abbrev sstatusSpie : UInt32 := 0x20
abbrev sstatusSpp : UInt32 := 0x100
abbrev sstatusSum : UInt32 := 0x40000

/-- Operands are written as in the source; `none` stands for the register `zero`. -/
inductive Instr
  | csrrw (rd : Reg) (csr : Csr) (rs : Reg)
  | csrrci (rd : Reg) (csr : Csr) (imm : UInt32)
  | csrr (rd : Reg) (csr : Csr)
  | csrw (csr : Csr) (rs : Option Reg)
  | li (rd : Reg) (imm : UInt32)
  | mv (rd rs : Reg)
  | addi (rd rs : Reg) (imm : UInt32)
  | andi (rd rs : Reg) (imm : UInt32)
  | add (rd rs₁ rs₂ : Reg)
  | lw (rd : Reg) (offset : UInt32) (base : Reg)
  | sw (rs : Reg) (offset : UInt32) (base : Reg)
  | bnez (rs : Reg) (skip : Nat)
  | call
  | ret
  | sret
  deriving DecidableEq, Repr

def Hart.setReg (h : Hart) (rd : Reg) (value : UInt32) : Hart :=
  { h with reg := Function.update h.reg rd value }

def Hart.setCsr (h : Hart) (csr : Csr) (value : UInt32) : Hart :=
  { h with csr := Function.update h.csr csr value }

def Hart.store (h : Hart) (addr value : UInt32) : Hart :=
  { h with mem := Function.update h.mem addr value }

/-- What an instruction does that neither branches nor leaves the code. -/
def Hart.exec (h : Hart) : Instr → Hart
  | .csrrw rd csr rs => (h.setCsr csr (h.reg rs)).setReg rd (h.csr csr)
  | .csrrci rd csr imm => (h.setCsr csr (h.csr csr &&& ~~~imm)).setReg rd (h.csr csr)
  | .csrr rd csr => h.setReg rd (h.csr csr)
  | .csrw csr none => h.setCsr csr 0
  | .csrw csr (some rs) => h.setCsr csr (h.reg rs)
  | .li rd imm => h.setReg rd imm
  | .mv rd rs => h.setReg rd (h.reg rs)
  | .addi rd rs imm => h.setReg rd (h.reg rs + imm)
  | .andi rd rs imm => h.setReg rd (h.reg rs &&& imm)
  | .add rd rs₁ rs₂ => h.setReg rd (h.reg rs₁ + h.reg rs₂)
  | .lw rd offset base => h.setReg rd (h.mem (h.reg base + offset))
  | .sw rs offset base => h.store (h.reg base + offset) (h.reg rs)
  | _ => h

/-! ## Traps -/

/-- The status register after a trap is taken: interrupts are off, and what they were before
is kept with the privilege mode. -/
def trapStatus (user : Bool) (status : UInt32) : UInt32 :=
  let cleared := status &&& ~~~(sstatusSpp ||| sstatusSpie ||| sstatusSie)
  let mode := if user then 0 else sstatusSpp
  let enabled := if status &&& sstatusSie = 0 then 0 else sstatusSpie
  cleared ||| mode ||| enabled

/-- The status register after `sret`. -/
def sretStatus (status : UInt32) : UInt32 :=
  let cleared := status &&& ~~~(sstatusSpp ||| sstatusSie)
  let enabled := if status &&& sstatusSpie = 0 then 0 else sstatusSie
  cleared ||| sstatusSpie ||| enabled

/-- Whether a saved status register returns to user mode. -/
def fromUser (status : UInt32) : Bool := decide (status &&& sstatusSpp = 0)

theorem or_and_right (x y z : UInt32) : (x ||| y) &&& z = x &&& z ||| y &&& z :=
  UInt32.toBitVec_inj.1 BitVec.and_or_distrib_right

/-- Bits that a mask has cleared. -/
theorem and_mask {mask bits : UInt32} (h : mask &&& bits = 0) (x : UInt32) :
    x &&& mask &&& bits = 0 := by
  rw [UInt32.and_assoc, h]
  exact UInt32.and_zero

/-- The mode is found in the status register that a trap leaves. -/
theorem fromUser_trapStatus (user : Bool) (status : UInt32) :
    fromUser (trapStatus user status) = user := by
  have henabled : (if status &&& sstatusSie = 0 then 0 else sstatusSpie) &&& sstatusSpp = 0 := by
    split <;> rfl
  unfold fromUser trapStatus
  dsimp only
  rw [or_and_right, or_and_right, and_mask rfl, henabled]
  cases user <;> rfl

/-- `sret` enables interrupts again if they were enabled when the trap was taken. -/
theorem sretStatus_trapStatus (user : Bool) (status : UInt32) :
    sretStatus (trapStatus user status) &&& sstatusSie = 0 ↔ status &&& sstatusSie = 0 := by
  have hmode : (if user then 0 else sstatusSpp) &&& sstatusSpie = 0 := by
    split <;> rfl
  have hkept : trapStatus user status &&& sstatusSpie =
      if status &&& sstatusSie = 0 then 0 else sstatusSpie := by
    unfold trapStatus
    dsimp only
    rw [or_and_right, or_and_right, and_mask rfl, hmode]
    split <;> rfl
  unfold sretStatus
  dsimp only
  rw [or_and_right, or_and_right, and_mask rfl, hkept]
  by_cases hsie : status &&& sstatusSie = 0
  · rw [if_pos hsie]
    exact iff_of_true rfl hsie
  · rw [if_neg hsie]
    exact iff_of_false (by decide) hsie

/-- The hart takes a trap and starts at the trap vector. -/
def Hart.trap (h : Hart) (vector : UInt32) : Hart :=
  { h with
    csr := Function.update (Function.update h.csr .sepc h.pc) .sstatus
      (trapStatus h.user (h.csr .sstatus))
    pc := vector
    user := false }

def Hart.sret (h : Hart) : Hart :=
  { h with
    csr := Function.update h.csr .sstatus (sretStatus (h.csr .sstatus))
    pc := h.csr .sepc
    user := fromUser (h.csr .sstatus) }

/-! ## Pieces of code -/

/-- Runs a piece of code, of which the first `skip` instructions are jumped over, up to the
instruction that leaves it.  The rest is what a call returns to. -/
def runLine : Nat → List Instr → Hart → Hart × List Instr
  | _, [], h => (h, [])
  | skip + 1, _ :: rest, h => runLine skip rest h
  | 0, i :: rest, h =>
      match i with
      | .bnez rs skip => runLine (if h.reg rs = 0 then 0 else skip) rest h
      | .call => (h, rest)
      | .ret => ({ h with pc := h.reg .ra }, rest)
      | .sret => (h.sret, rest)
      | i => runLine 0 rest (h.exec i)

/-- The instruction neither branches nor leaves the code. -/
def Instr.plain : Instr → Bool
  | .bnez .. | .call | .ret | .sret => false
  | _ => true

theorem runLine_plain {i : Instr} (hi : i.plain = true) (rest : List Instr) (h : Hart) :
    runLine 0 (i :: rest) h = runLine 0 rest (h.exec i) := by
  cases i <;> first | rfl | cases hi

theorem runLine_skip (skip : Nat) (i : Instr) (rest : List Instr) (h : Hart) :
    runLine (skip + 1) (i :: rest) h = runLine skip rest h := rfl

theorem runLine_ret (rest : List Instr) (h : Hart) :
    runLine 0 (.ret :: rest) h = ({ h with pc := h.reg .ra }, rest) := rfl

theorem runLine_sret (rest : List Instr) (h : Hart) :
    runLine 0 (.sret :: rest) h = (h.sret, rest) := rfl

/-- A branch that is not taken. -/
theorem runLine_bnez_zero {rs : Reg} {h : Hart} (hzero : h.reg rs = 0) (skip : Nat)
    (rest : List Instr) : runLine 0 (.bnez rs skip :: rest) h = runLine 0 rest h := by
  show runLine (if h.reg rs = 0 then 0 else skip) rest h = _
  rw [if_pos hzero]

/-- A branch that is taken. -/
theorem runLine_bnez {rs : Reg} {h : Hart} (hne : h.reg rs ≠ 0) (skip : Nat)
    (rest : List Instr) : runLine 0 (.bnez rs skip :: rest) h = runLine skip rest h := by
  show runLine (if h.reg rs = 0 then 0 else skip) rest h = _
  rw [if_neg hne]

/-! ## Rows of stores and loads -/

section Rows

variable (offset : Reg → UInt32) (base : Reg)

/-- The stores of some registers, each at its offset. -/
def saveRow (rs : List Reg) : List Instr := rs.map fun r => .sw r (offset r) base

/-- The loads of some registers, each from its offset. -/
def loadRow (rs : List Reg) : List Instr := rs.map fun r => .lw r (offset r) base

theorem runLine_saveRow (rs : List Reg) (rest : List Instr) (h : Hart) :
    runLine 0 (saveRow offset base rs ++ rest) h =
      runLine 0 rest
        { h with mem := spill (fun r => h.reg base + offset r) h.reg rs h.mem } := by
  induction rs generalizing h with
  | nil => rfl
  | cons r rs ih => exact ih (h.exec (.sw r (offset r) base))

/-- The base register is not among those loaded, so every load finds the same addresses. -/
theorem runLine_loadRow {rs : List Reg} (hbase : base ∉ rs) (rest : List Instr) (h : Hart) :
    runLine 0 (loadRow offset base rs ++ rest) h =
      runLine 0 rest
        { h with reg := fill (fun r => h.reg base + offset r) h.mem rs h.reg } := by
  induction rs generalizing h with
  | nil => rfl
  | cons r rs ih =>
      have hne : base ≠ r := fun heq => hbase (heq ▸ List.mem_cons_self)
      have hkept : (h.exec (.lw r (offset r) base)).reg base = h.reg base :=
        Function.update_of_ne hne ..
      have hrest := ih (fun hin => hbase (List.mem_cons_of_mem r hin))
        (h.exec (.lw r (offset r) base))
      rw [hkept] at hrest
      exact hrest

end Rows

end Sugimotos.Arch
