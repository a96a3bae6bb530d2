/-
# Switching between kernel stacks

The assembly of `context.c`.  A process that gives up the processor stores the registers its
caller expects to keep on its own stack, and its stack pointer in its record; the next one
takes them up again where it left them.
-/

import Sugimotos.Arch.Entry

namespace Sugimotos.Arch

open Sugimotos.Math Sugimotos.Proc

/-- The registers that `switch_context` keeps. -/
def calleeRegs : List Reg := [.ra, .s0, .s1, .s2, .s3, .s4, .s5, .s6, .s7, .s8, .s9, .s10, .s11]

/-- Where `switch_context` keeps them, from the stack pointer on. -/
def calleeOffset (r : Reg) : UInt32 := .ofNat (4 * calleeRegs.idxOf r)

/-- Where `switch_context` keeps `sstatus`. -/
abbrev statusOffset : UInt32 := 52

/-- Sixteen words. -/
def switchSize : UInt32 := 64

def switchContextSave : List Instr :=
  [.csrrci .t0 .sstatus 2,
    .addi .sp .sp (-switchSize)]

def switchContextStacks : List Instr :=
  [.sw .t0 statusOffset .sp,
    .sw .sp 0 .a0,
    .lw .sp 0 .a1,
    .lw .t0 statusOffset .sp,
    .csrw .sstatus (some .t0)]

def switchContextReturn : List Instr :=
  [.addi .sp .sp switchSize,
    .ret]

/-- `switch_context`. -/
def switchContext : List Instr :=
  switchContextSave ++ (saveRow calleeOffset .sp calleeRegs ++
    (switchContextStacks ++ (loadRow calleeOffset .sp calleeRegs ++ switchContextReturn)))

/-! ## The words on a stack -/

/-- What a process needs to go on after `switch_context`. -/
structure SwitchFrame where
  reg : Reg → UInt32
  sstatus : UInt32

/-- The words that lie on a stack where a process left it. -/
def switchAt (mem : UInt32 → UInt32) (base : UInt32) : SwitchFrame where
  reg r := mem (base + calleeOffset r)
  sstatus := mem (base + statusOffset)

/-- The registers that `switch_context` keeps, and `sstatus`, written to a stack. -/
def putSwitch (base : UInt32) (f : SwitchFrame) (mem : UInt32 → UInt32) : UInt32 → UInt32 :=
  Function.update (spill (fun r => base + calleeOffset r) f.reg calleeRegs mem)
    (base + statusOffset) f.sstatus

/-- Two processes go on alike: the registers that are not kept do not matter. -/
structure SwitchFrame.Same (f g : SwitchFrame) : Prop where
  reg : ∀ r ∈ calleeRegs, f.reg r = g.reg r
  sstatus : f.sstatus = g.sstatus

theorem sp_notMem_calleeRegs : Reg.sp ∉ calleeRegs := by decide

theorem calleeOffset_toNat {r : Reg} (h : r ∈ calleeRegs) :
    (calleeOffset r).toNat = 4 * calleeRegs.idxOf r ∧ (calleeOffset r).toNat < 52 := by
  revert r
  decide

theorem calleeOffset_inj {r s : Reg} (hr : r ∈ calleeRegs) (hs : s ∈ calleeRegs)
    (h : calleeOffset r = calleeOffset s) : r = s := by
  have hnat := congrArg UInt32.toNat h
  rw [(calleeOffset_toNat hr).1, (calleeOffset_toNat hs).1] at hnat
  exact (List.idxOf_inj hr).mp (by omega)

/-- The address is one of a word that `switch_context` keeps at `base`. -/
def InSwitch (base addr : UInt32) : Prop := (addr - base).toNat < 56

theorem inSwitch_offset {base offset : UInt32} (h : offset.toNat < 56) :
    InSwitch base (base + offset) := by
  unfold InSwitch
  rw [UInt32.add_comm, UInt32.add_sub_cancel]
  exact h

theorem putSwitch_other {base addr : UInt32} (f : SwitchFrame) (mem : UInt32 → UInt32)
    (h : ¬ InSwitch base addr) : putSwitch base f mem addr = mem addr := by
  have hoff : ∀ offset : UInt32, offset.toNat < 56 → addr ≠ base + offset :=
    fun offset hlt heq => h (heq ▸ inSwitch_offset hlt)
  unfold putSwitch
  rw [Function.update_of_ne (hoff statusOffset (by decide)), spill_other]
  intro r hr heq
  exact hoff (calleeOffset r) (Nat.lt_trans (calleeOffset_toNat hr).2 (by decide)) heq.symm

theorem switchAt_putSwitch (base : UInt32) (f : SwitchFrame) (mem : UInt32 → UInt32) :
    (switchAt (putSwitch base f mem) base).Same f := by
  refine ⟨fun r hr => ?_, Function.update_self ..⟩
  have hne : base + calleeOffset r ≠ base + statusOffset := by
    intro heq
    have hnat := congrArg UInt32.toNat (UInt32.add_right_inj base |>.mp heq)
    exact absurd (calleeOffset_toNat hr).2 (hnat ▸ by decide)
  show putSwitch base f mem (base + calleeOffset r) = f.reg r
  unfold putSwitch
  rw [Function.update_of_ne hne]
  exact spill_at
    (fun s hs t ht heq => calleeOffset_inj hs ht (UInt32.add_right_inj base |>.mp heq)) hr

/-- The words are read from where they lie. -/
theorem switchAt_congr {mem mem' : UInt32 → UInt32} {base : UInt32}
    (h : ∀ addr, InSwitch base addr → mem' addr = mem addr) :
    (switchAt mem' base).Same (switchAt mem base) :=
  ⟨fun _ hr => h _ (inSwitch_offset (Nat.lt_trans (calleeOffset_toNat hr).2 (by decide))),
    h _ (inSwitch_offset (by decide))⟩

/-! ## The switch -/

/-- What the process that calls `switch_context` leaves on its stack. -/
def leftFrame (h : Hart) : SwitchFrame := ⟨h.reg, h.csr .sstatus⟩

/-- The memory once the old stack is complete and its pointer is stored where `a0` says. -/
def switchedMem (h : Hart) : UInt32 → UInt32 :=
  Function.update (putSwitch (h.reg .sp + -switchSize) (leftFrame h) h.mem) (h.reg .a0)
    (h.reg .sp + -switchSize)

/-- The hart after the return from `switch_context`, on the stack whose pointer is stored where
`a1` says. -/
def switched (h : Hart) : Hart :=
  let mem := switchedMem h
  let base := mem (h.reg .a1)
  { h with
    reg r :=
      if r ∈ calleeRegs then (switchAt mem base).reg r
      else if r = .sp then base + switchSize
      else if r = .t0 then (switchAt mem base).sstatus
      else h.reg r
    csr := Function.update h.csr .sstatus (switchAt mem base).sstatus
    mem := mem
    pc := (switchAt mem base).reg .ra }

section Switched

variable {h : Hart} {base : UInt32} (hbase : switchedMem h (h.reg .a1) = base)

include hbase

theorem switched_callee {r : Reg} (hr : r ∈ calleeRegs) :
    (switched h).reg r = (switchAt (switchedMem h) base).reg r := by
  subst hbase
  exact if_pos hr

theorem switched_sp : (switched h).reg .sp = base + switchSize := by
  subst hbase
  rfl

theorem switched_pc : (switched h).pc = (switchAt (switchedMem h) base).reg .ra := by
  subst hbase
  rfl

theorem switched_sstatus :
    (switched h).csr .sstatus = (switchAt (switchedMem h) base).sstatus := by
  subst hbase
  simp only [switched, Function.update_self]

end Switched

theorem switched_sscratch (h : Hart) : (switched h).csr .sscratch = h.csr .sscratch := by
  simp only [switched, Function.update_of_ne, ne_eq, reduceCtorEq, not_false_eq_true]

/-- The hart after the row of stores. -/
def rowStored (h : Hart) : Hart :=
  { h with
    reg := Function.update (Function.update h.reg .t0 (h.csr .sstatus)) .sp
      (h.reg .sp + -switchSize)
    csr := Function.update h.csr .sstatus (h.csr .sstatus &&& ~~~2)
    mem := spill (fun r => h.reg .sp + -switchSize + calleeOffset r) h.reg calleeRegs h.mem }

theorem switchContext_save (rest : List Instr) (h : Hart) :
    runLine 0 (switchContextSave ++ (saveRow calleeOffset .sp calleeRegs ++ rest)) h =
      runLine 0 rest (rowStored h) := by
  have hrow : spill (fun r => h.reg .sp + -switchSize + calleeOffset r)
      (Function.update (Function.update h.reg .t0 (h.csr .sstatus)) .sp (h.reg .sp + -switchSize))
      calleeRegs h.mem =
      spill (fun r => h.reg .sp + -switchSize + calleeOffset r) h.reg calleeRegs h.mem := by
    refine spill_congr fun r hr => ?_
    have hsp : r ≠ .sp := fun heq => sp_notMem_calleeRegs (heq ▸ hr)
    have ht0 : r ≠ .t0 := by
      rintro rfl
      exact absurd hr (by decide)
    rw [Function.update_of_ne hsp, Function.update_of_ne ht0]
  simp only [switchContextSave, List.cons_append, List.nil_append]
  rw [runLine_plain rfl, runLine_plain rfl, runLine_saveRow, rowStored, ← hrow]
  rfl

/-- The memory in the middle of `switch_context`, with the old stack pointer stored. -/
def stackedMem (h : Hart) : UInt32 → UInt32 :=
  Function.update (Function.update h.mem (h.reg .sp + statusOffset) (h.reg .t0)) (h.reg .a0)
    (h.reg .sp)

theorem switchContext_stacks (rest : List Instr) (h : Hart) :
    runLine 0 (switchContextStacks ++ rest) h =
      runLine 0 rest
        { h with
          reg := Function.update (Function.update h.reg .sp (stackedMem h (h.reg .a1))) .t0
            (stackedMem h (stackedMem h (h.reg .a1) + statusOffset))
          csr := Function.update h.csr .sstatus
            (stackedMem h (stackedMem h (h.reg .a1) + statusOffset))
          mem := stackedMem h } := by
  simp only [switchContextStacks, List.cons_append, List.nil_append]
  iterate 5 rw [runLine_plain rfl]
  congr 1
  simp only [Hart.exec, Hart.setReg, Hart.setCsr, Hart.store, Function.update_self, UInt32.add_zero,
    stackedMem]

theorem stackedMem_rowStored (h : Hart) : stackedMem (rowStored h) = switchedMem h := by
  simp only [stackedMem, switchedMem, putSwitch, leftFrame, rowStored, Function.update_self,
    Function.update_of_ne, ne_eq, reduceCtorEq, not_false_eq_true]

/-- The whole of `switch_context`. -/
theorem switchContext_switches (h : Hart) : runLine 0 switchContext h = (switched h, []) := by
  have ha1 : (rowStored h).reg .a1 = h.reg .a1 := rfl
  rw [switchContext, switchContext_save, switchContext_stacks,
    runLine_loadRow calleeOffset .sp sp_notMem_calleeRegs, stackedMem_rowStored, ha1,
    switchContextReturn, runLine_plain rfl, runLine_ret]
  have hrow : ∀ r, r ≠ .sp → r ≠ .t0 → (rowStored h).reg r = h.reg r := by
    intro r hsp ht0
    exact (Function.update_of_ne hsp ..).trans (Function.update_of_ne ht0 ..)
  congr 1
  refine Hart.ext (funext fun r => ?_) ?_ rfl ?_ rfl
  · simp only [Hart.exec, Hart.setReg, switched, Function.update_of_ne, ne_eq, reduceCtorEq,
      not_false_eq_true, Function.update_self]
    by_cases hr : r ∈ calleeRegs
    · have hsp : r ≠ .sp := fun heq => sp_notMem_calleeRegs (heq ▸ hr)
      rw [if_pos hr, Function.update_of_ne hsp, fill_at hr]
      rfl
    · rw [if_neg hr]
      by_cases hsp : r = .sp
      · rw [if_pos hsp, hsp, Function.update_self, fill_other sp_notMem_calleeRegs,
          Function.update_of_ne (by decide), Function.update_self]
      · rw [if_neg hsp, Function.update_of_ne hsp, fill_other hr]
        by_cases ht0 : r = .t0
        · rw [if_pos ht0, ht0, Function.update_self]
          rfl
        · rw [if_neg ht0, Function.update_of_ne ht0, Function.update_of_ne hsp, hrow r hsp ht0]
  · exact Function.update_idem ..
  · have hsp : Reg.ra ≠ .sp := by decide
    have hra : Reg.ra ∈ calleeRegs := by decide
    simp only [Hart.exec, Hart.setReg]
    rw [Function.update_of_ne hsp, fill_at hra]
    rfl

end Sugimotos.Arch
