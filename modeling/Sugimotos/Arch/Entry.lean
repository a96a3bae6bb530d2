/-
# The trap entry and exit code

The assembly of `trap/entry.c` and `trap/resume.c`, and what running it does.  The code
before the call of `handle_trap` stores a trap frame on a kernel stack; the code after it
goes back to where a trap frame says.
-/

import Sugimotos.Arch.Rv32

namespace Sugimotos.Arch

open Sugimotos.Math Sugimotos.Proc

/-! ## The trap frame in memory -/

/-- The registers that `kernel_entry` stores and loads in a row, in its order. -/
def rowRegs : List Reg :=
  [.ra, .gp, .tp, .t0, .t1, .t2, .t3, .t4, .t5, .t6, .a0, .a1, .a2, .a3, .a4, .a5, .a6, .a7,
    .s0, .s1, .s2, .s3, .s4, .s5, .s6, .s7, .s8, .s9, .s10, .s11]

/-- The registers of `struct trap_frame`. -/
def frameRegs : List Reg := rowRegs ++ [.sp]

/-- The offset of a register in `struct trap_frame`. -/
def frameOffset (r : Reg) : UInt32 := .ofNat (4 * frameRegs.idxOf r)

abbrev sepcOffset : UInt32 := 124
abbrev sstatusOffset : UInt32 := 128

/-- `sizeof(struct trap_frame)`: 33 words, aligned to 16 bytes. -/
def frameSize : UInt32 := 144

/-- The trap frame that lies at an address. -/
def frameAt (mem : UInt32 → UInt32) (base : UInt32) : TrapFrame where
  reg r := mem (base + frameOffset r)
  sepc := mem (base + sepcOffset)
  sstatus := mem (base + sstatusOffset)

/-- A trap frame written to memory. -/
def putFrame (base : UInt32) (f : TrapFrame) (mem : UInt32 → UInt32) : UInt32 → UInt32 :=
  let row := spill (fun r => base + frameOffset r) f.reg frameRegs mem
  Function.update (Function.update row (base + sepcOffset) f.sepc) (base + sstatusOffset) f.sstatus

/-! ## The code -/

/-- The start of `kernel_entry`, which finds the stack. -/
def kernelEntryStack : List Instr :=
  [.csrrw .sp .sscratch .sp,
    .bnez .sp 1,
    .csrrw .sp .sscratch .sp,
    .addi .sp .sp (-frameSize)]

/-- The instructions after the row of stores, which find the stack pointer to be stored. -/
def kernelEntrySp : List Instr :=
  [.csrr .t0 .sscratch,
    .bnez .t0 1,
    .addi .t0 .sp frameSize]

/-- From there to the call of `handle_trap`. -/
def kernelEntryCall : List Instr :=
  [.sw .t0 (frameOffset .sp) .sp,
    .csrr .t0 .sepc,
    .sw .t0 sepcOffset .sp,
    .csrr .t0 .sstatus,
    .sw .t0 sstatusOffset .sp,
    .csrw .sscratch none,
    .mv .a0 .sp,
    .call]

/-- The instructions after the call, up to the row of loads. -/
def kernelEntryMode : List Instr :=
  [.lw .t0 sepcOffset .sp,
    .csrw .sepc (some .t0),
    .lw .t0 sstatusOffset .sp,
    .csrw .sstatus (some .t0),
    .andi .t0 .t0 0x100,
    .bnez .t0 2,
    .addi .t0 .sp frameSize,
    .csrw .sscratch (some .t0)]

/-- A row of loads, the loading of the register that holds the address, and `sret`. -/
def resumeRow (base : Reg) (rs : List Reg) : List Instr :=
  loadRow frameOffset base rs ++ ([.lw base (frameOffset base) base, .sret] : List Instr)

/-- `kernel_entry` up to the call of `handle_trap`. -/
def kernelEntrySave : List Instr :=
  kernelEntryStack ++ (saveRow frameOffset .sp rowRegs ++ (kernelEntrySp ++ kernelEntryCall))

/-- `kernel_entry` after the call. -/
def kernelEntryRestore : List Instr := kernelEntryMode ++ resumeRow .sp rowRegs

/-- `kernel_entry`. -/
def kernelEntry : List Instr := kernelEntrySave ++ kernelEntryRestore

/-- The registers that `arch_resume_from_trap` loads in a row, in its order. -/
def resumeRegs : List Reg :=
  [.ra, .gp, .tp, .t0, .t1, .t2, .t3, .t4, .t5, .t6, .a0, .a1, .a2, .a3, .a4, .a5, .a7,
    .s0, .s1, .s2, .s3, .s4, .s5, .s6, .s7, .s8, .s9, .s10, .s11, .sp]

/-- The start of `arch_resume_from_trap`, with the address of `current_proc` and the offsets
of the trap frame and of the end of the stack in `struct process`. -/
def archResumeStart (currentProc tfOffset stackTopOffset : UInt32) : List Instr :=
  [.li .a6 currentProc,
    .lw .a6 0 .a6,
    .li .t0 tfOffset,
    .add .a6 .a6 .t0,
    .lw .t0 sepcOffset .a6,
    .csrw .sepc (some .t0),
    .lw .t0 sstatusOffset .a6,
    .csrw .sstatus (some .t0),
    .li .t0 currentProc,
    .lw .t0 0 .t0,
    .li .t1 stackTopOffset,
    .add .t0 .t0 .t1,
    .csrw .sscratch (some .t0)]

/-- `arch_resume_from_trap`. -/
def archResumeFromTrap (currentProc tfOffset stackTopOffset : UInt32) : List Instr :=
  archResumeStart currentProc tfOffset stackTopOffset ++ resumeRow .a6 resumeRegs

/-! ## Offsets -/

theorem mem_frameRegs (r : Reg) : r ∈ frameRegs := by
  cases r <;> decide

theorem frameOffset_toNat (r : Reg) :
    (frameOffset r).toNat = 4 * frameRegs.idxOf r ∧ (frameOffset r).toNat ≤ 120 := by
  cases r <;> decide

theorem frameOffset_inj {r s : Reg} (h : frameOffset r = frameOffset s) : r = s := by
  have hnat := congrArg UInt32.toNat h
  rw [(frameOffset_toNat r).1, (frameOffset_toNat s).1] at hnat
  exact (List.idxOf_inj (mem_frameRegs r)).mp (by omega)

theorem mem_rowRegs {r : Reg} (h : r ≠ .sp) : r ∈ rowRegs := by
  cases r <;> first | decide | exact absurd rfl h

theorem sp_notMem_rowRegs : Reg.sp ∉ rowRegs := by decide

theorem mem_resumeRegs {r : Reg} (h : r ≠ .a6) : r ∈ resumeRegs := by
  cases r <;> first | decide | exact absurd rfl h

theorem a6_notMem_resumeRegs : Reg.a6 ∉ resumeRegs := by decide

/-- The address is one of a word of the trap frame at `base`. -/
def InFrame (base addr : UInt32) : Prop := (addr - base).toNat < 132

theorem inFrame_offset {base offset : UInt32} (h : offset.toNat < 132) :
    InFrame base (base + offset) := by
  unfold InFrame
  rw [UInt32.add_comm, UInt32.add_sub_cancel]
  exact h

/-- A frame is read from its own words. -/
theorem frameAt_congr {mem mem' : UInt32 → UInt32} {base : UInt32}
    (h : ∀ addr, InFrame base addr → mem' addr = mem addr) :
    frameAt mem' base = frameAt mem base := by
  have hreg : ∀ r, mem' (base + frameOffset r) = mem (base + frameOffset r) := fun r =>
    h _ (inFrame_offset (Nat.lt_of_le_of_lt (frameOffset_toNat r).2 (by decide)))
  unfold frameAt
  simp only [hreg, h _ (inFrame_offset (show sepcOffset.toNat < 132 by decide)),
    h _ (inFrame_offset (show sstatusOffset.toNat < 132 by decide))]

theorem frameOffset_lt (r : Reg) : (frameOffset r).toNat < 132 :=
  Nat.lt_of_le_of_lt (frameOffset_toNat r).2 (by decide)

/-- A word of a frame is not found at a register's place. -/
theorem frameOffset_ne {offset : UInt32} (h : 120 < offset.toNat) (r : Reg) (base : UInt32) :
    base + frameOffset r ≠ base + offset := by
  intro heq
  have hnat := congrArg UInt32.toNat (UInt32.add_right_inj base |>.mp heq)
  have hle := (frameOffset_toNat r).2
  omega

theorem putFrame_other {base addr : UInt32} (f : TrapFrame) (mem : UInt32 → UInt32)
    (h : ¬ InFrame base addr) : putFrame base f mem addr = mem addr := by
  have hoff : ∀ offset : UInt32, offset.toNat < 132 → addr ≠ base + offset :=
    fun offset hlt heq => h (heq ▸ inFrame_offset hlt)
  unfold putFrame
  rw [Function.update_of_ne (hoff sstatusOffset (by decide)),
    Function.update_of_ne (hoff sepcOffset (by decide)), spill_other]
  exact fun r _ heq => hoff (frameOffset r) (frameOffset_lt r) heq.symm

theorem putFrame_sepc (base : UInt32) (f : TrapFrame) (mem : UInt32 → UInt32) :
    putFrame base f mem (base + sepcOffset) = f.sepc := by
  have hne : base + sepcOffset ≠ base + sstatusOffset := fun heq =>
    absurd (UInt32.add_right_inj base |>.mp heq) (by decide)
  unfold putFrame
  rw [Function.update_of_ne hne, Function.update_self]

theorem frameAt_putFrame (base : UInt32) (f : TrapFrame) (mem : UInt32 → UInt32) :
    frameAt (putFrame base f mem) base = f := by
  have hreg : (fun r => putFrame base f mem (base + frameOffset r)) = f.reg := by
    funext r
    unfold putFrame
    rw [Function.update_of_ne (frameOffset_ne (by decide) r base),
      Function.update_of_ne (frameOffset_ne (by decide) r base)]
    exact spill_at
      (fun s _ t _ heq => frameOffset_inj (UInt32.add_right_inj base |>.mp heq)) (mem_frameRegs r)
  have hsstatus : putFrame base f mem (base + sstatusOffset) = f.sstatus :=
    Function.update_self ..
  unfold frameAt
  rw [hreg, putFrame_sepc, hsstatus]

/-! ## Entering the kernel -/

/-- The stack that `kernel_entry` uses: the one in `sscratch`, unless that is zero. -/
def entrySp (h : Hart) : UInt32 := if h.csr .sscratch = 0 then h.reg .sp else h.csr .sscratch

/-- The address of the trap frame. -/
def entryBase (h : Hart) : UInt32 := entrySp h + -frameSize

/-- The stack pointer that `kernel_entry` stores: a zero one is taken for a trap from the
kernel. -/
def savedSp (h : Hart) : UInt32 :=
  if h.csr .sscratch = 0 ∨ h.reg .sp = 0 then entrySp h else h.reg .sp

/-- The context that `kernel_entry` stores. -/
def savedFrame (h : Hart) : TrapFrame :=
  ⟨Function.update h.reg .sp (savedSp h), h.csr .sepc, h.csr .sstatus⟩

/-- The hart when `handle_trap` is called. -/
def entered (h : Hart) : Hart :=
  { h with
    reg := Function.update
      (Function.update (Function.update h.reg .sp (entryBase h)) .t0 (h.csr .sstatus)) .a0
      (entryBase h)
    csr := Function.update h.csr .sscratch 0
    mem := putFrame (entryBase h) (savedFrame h) h.mem }

theorem entered_mem (h : Hart) :
    (entered h).mem = putFrame (entryBase h) (savedFrame h) h.mem := rfl

theorem entered_user (h : Hart) : (entered h).user = h.user := rfl

theorem entered_sscratch (h : Hart) : (entered h).csr .sscratch = 0 := by
  simp only [entered, Function.update_self]

theorem entered_sp (h : Hart) : (entered h).reg .sp = entryBase h := by
  simp only [entered, Function.update_self, Function.update_of_ne, ne_eq, reduceCtorEq,
    not_false_eq_true]

/-- The first four instructions find the stack. -/
theorem kernelEntry_stack (rest : List Instr) (h : Hart) :
    runLine 0 (kernelEntryStack ++ rest) h =
      runLine 0 rest
        { h with
          reg := Function.update h.reg .sp (entryBase h)
          csr := Function.update h.csr .sscratch
            (if h.csr .sscratch = 0 then 0 else h.reg .sp) } := by
  unfold entryBase entrySp
  simp only [kernelEntryStack, List.cons_append, List.nil_append]
  rw [runLine_plain rfl]
  by_cases hzero : h.csr .sscratch = 0
  · have hsp : (h.exec (.csrrw .sp .sscratch .sp)).reg .sp = 0 := by
      simp only [Hart.exec, Hart.setReg, Function.update_self, hzero]
    rw [runLine_bnez_zero hsp, runLine_plain rfl, runLine_plain rfl, if_pos hzero, if_pos hzero]
    simp only [Hart.exec, Hart.setReg, Hart.setCsr, Function.update_self, Function.update_idem,
      hzero]
  · have hsp : (h.exec (.csrrw .sp .sscratch .sp)).reg .sp ≠ 0 := by
      simpa only [Hart.exec, Hart.setReg, Function.update_self] using hzero
    rw [runLine_bnez hsp, runLine_skip, runLine_plain rfl, if_neg hzero, if_neg hzero]
    simp only [Hart.exec, Hart.setReg, Hart.setCsr, Function.update_self, Function.update_idem]

/-- The hart after the row of stores, once the stack pointer is in `t0`. -/
theorem kernelEntry_storedSp (rest : List Instr) (h : Hart) :
    runLine 0 (kernelEntrySp ++ rest) h =
      runLine 0 rest (h.setReg .t0
        (if h.csr .sscratch = 0 then h.reg .sp + frameSize else h.csr .sscratch)) := by
  simp only [kernelEntrySp, List.cons_append, List.nil_append]
  rw [runLine_plain rfl]
  by_cases hzero : h.csr .sscratch = 0
  · have ht0 : (h.exec (.csrr .t0 .sscratch)).reg .t0 = 0 := by
      simp only [Hart.exec, Hart.setReg, Function.update_self, hzero]
    rw [runLine_bnez_zero ht0, runLine_plain rfl, if_pos hzero]
    simp only [Hart.exec, Hart.setReg, Function.update_idem]
    rfl
  · have ht0 : (h.exec (.csrr .t0 .sscratch)).reg .t0 ≠ 0 := by
      simpa only [Hart.exec, Hart.setReg, Function.update_self] using hzero
    rw [runLine_bnez ht0, runLine_skip, if_neg hzero]
    rfl

/-- The rest of the frame, up to the call. -/
theorem kernelEntry_stored (rest : List Instr) (h : Hart) :
    runLine 0 (kernelEntryCall ++ rest) h =
      ({ h with
          reg := Function.update (Function.update h.reg .t0 (h.csr .sstatus)) .a0 (h.reg .sp)
          csr := Function.update h.csr .sscratch 0
          mem := Function.update
            (Function.update
              (Function.update h.mem (h.reg .sp + frameOffset .sp) (h.reg .t0))
              (h.reg .sp + sepcOffset) (h.csr .sepc))
            (h.reg .sp + sstatusOffset) (h.csr .sstatus) }, rest) := by
  have hidem : Function.update (Function.update h.reg .t0 (h.csr .sepc)) .t0 (h.csr .sstatus) =
      Function.update h.reg .t0 (h.csr .sstatus) := Function.update_idem ..
  rw [← hidem]
  rfl

/-- The row of stores and the stack pointer make up the registers of the frame. -/
theorem kernelEntry_row (h : Hart) (mem : UInt32 → UInt32) :
    Function.update
        (spill (fun r => entryBase h + frameOffset r) (Function.update h.reg .sp (entryBase h))
          rowRegs mem)
        (entryBase h + frameOffset .sp) (savedSp h) =
      spill (fun r => entryBase h + frameOffset r) (savedFrame h).reg frameRegs mem := by
  have hsame : ∀ r ∈ rowRegs, (savedFrame h).reg r = Function.update h.reg .sp (entryBase h) r := by
    intro r hr
    have hne : r ≠ .sp := fun heq => sp_notMem_rowRegs (heq ▸ hr)
    exact (Function.update_of_ne hne ..).trans (Function.update_of_ne hne ..).symm
  have hsp : (savedFrame h).reg .sp = savedSp h := by
    show Function.update h.reg .sp (savedSp h) .sp = savedSp h
    exact Function.update_self ..
  rw [frameRegs, spill_append, spill_congr hsame, spill, spill, hsp]

/-- What is in `t0` when it is stored as the stack pointer. -/
theorem savedSp_eq (h : Hart) :
    (if (if h.csr .sscratch = 0 then 0 else h.reg .sp) = 0 then entryBase h + frameSize
      else if h.csr .sscratch = 0 then 0 else h.reg .sp) = savedSp h := by
  have hback : entryBase h + frameSize = entrySp h := by
    unfold entryBase
    rw [UInt32.add_assoc, UInt32.add_left_neg, UInt32.add_zero]
  unfold savedSp
  rw [hback]
  by_cases hzero : h.csr .sscratch = 0
  · rw [if_pos hzero, if_pos rfl, if_pos (Or.inl hzero)]
  · rw [if_neg hzero]
    by_cases hsp : h.reg .sp = 0
    · rw [if_pos hsp, if_pos (Or.inr hsp)]
    · rw [if_neg hsp, if_neg fun hor => hor.elim hzero hsp]

/-- From the trap vector to `handle_trap`. -/
theorem kernelEntry_enters (h : Hart) :
    runLine 0 kernelEntry h = (entered h, kernelEntryRestore) := by
  rw [kernelEntry, kernelEntrySave, List.append_assoc, kernelEntry_stack, List.append_assoc,
    runLine_saveRow, List.append_assoc, kernelEntry_storedSp, kernelEntry_stored]
  simp only [Hart.setReg, Function.update_idem, Function.update_self, Function.update_of_ne, ne_eq,
    reduceCtorEq, not_false_eq_true, savedSp_eq, kernelEntry_row]
  rfl

/-! ## Leaving the kernel -/

/-- The hart that goes on where a trap frame says. -/
def resumed (h : Hart) (f : TrapFrame) (sscratch : UInt32) : Hart :=
  { h with
    reg := f.reg
    csr
      | .sscratch => sscratch
      | .sepc => f.sepc
      | .sstatus => sretStatus f.sstatus
    pc := f.sepc
    user := fromUser f.sstatus }

/-- What `sscratch` holds after the exit code: the end of the frame if user mode is next. -/
def exitScratch (h : Hart) (f : TrapFrame) : UInt32 :=
  if fromUser f.sstatus then h.reg .sp + frameSize else h.csr .sscratch

/-- The registers that decide where to go on. -/
theorem kernelEntry_mode (rest : List Instr) (h : Hart) :
    ∃ t0, runLine 0 (kernelEntryMode ++ rest) h =
      runLine 0 rest
        { h with
          reg := Function.update h.reg .t0 t0
          csr
            | .sscratch => exitScratch h (frameAt h.mem (h.reg .sp))
            | .sepc => (frameAt h.mem (h.reg .sp)).sepc
            | .sstatus => (frameAt h.mem (h.reg .sp)).sstatus } := by
  simp only [kernelEntryMode, List.cons_append, List.nil_append]
  iterate 5 rw [runLine_plain rfl]
  by_cases huser : h.mem (h.reg .sp + sstatusOffset) &&& 0x100 = 0
  · refine ⟨h.reg .sp + frameSize, ?_⟩
    rw [runLine_bnez_zero huser, runLine_plain rfl, runLine_plain rfl]
    have hscratch : exitScratch h (frameAt h.mem (h.reg .sp)) = h.reg .sp + frameSize :=
      if_pos (decide_eq_true huser)
    congr 1
    refine Hart.ext ?_ (funext fun csr => ?_) rfl rfl rfl
    · simp only [Hart.exec, Hart.setReg, Hart.setCsr, Function.update_idem]
      rfl
    · cases csr <;> first | rfl | exact hscratch.symm
  · refine ⟨h.mem (h.reg .sp + sstatusOffset) &&& 0x100, ?_⟩
    rw [runLine_bnez huser, runLine_skip, runLine_skip]
    have hscratch : exitScratch h (frameAt h.mem (h.reg .sp)) = h.csr .sscratch :=
      if_neg fun hof => huser (of_decide_eq_true hof)
    congr 1
    refine Hart.ext ?_ (funext fun csr => ?_) rfl rfl rfl
    · simp only [Hart.exec, Hart.setReg, Hart.setCsr, Function.update_idem]
      rfl
    · cases csr <;> first | rfl | exact hscratch.symm

/-- All registers are loaded from a frame, the one that holds its address last. -/
theorem runLine_loadFrame {base : Reg} {rs : List Reg} (hbase : base ∉ rs)
    (hrs : ∀ {r}, r ≠ base → r ∈ rs) (h : Hart) :
    runLine 0 (resumeRow base rs) h =
      ({ h with reg := (frameAt h.mem (h.reg base)).reg }.sret, []) := by
  rw [resumeRow, runLine_loadRow frameOffset base hbase, runLine_plain rfl, runLine_sret]
  have hkept : fill (fun r => h.reg base + frameOffset r) h.mem rs h.reg base = h.reg base :=
    fill_other hbase
  congr 2
  refine Hart.ext (funext fun r => ?_) rfl rfl rfl rfl
  simp only [Hart.exec, Hart.setReg, hkept]
  by_cases hr : r = base
  · rw [hr, Function.update_self]
    rfl
  · rw [Function.update_of_ne hr, fill_at (hrs hr)]
    rfl

/-- From the return of `handle_trap` on, with the stack pointer at a trap frame. -/
theorem kernelEntry_leaves (h : Hart) :
    runLine 0 kernelEntryRestore h =
      (resumed h (frameAt h.mem (h.reg .sp)) (exitScratch h (frameAt h.mem (h.reg .sp))), []) := by
  obtain ⟨t0, hmode⟩ := kernelEntry_mode (resumeRow .sp rowRegs) h
  have hsp : Function.update h.reg .t0 t0 .sp = h.reg .sp := Function.update_of_ne (by decide) ..
  rw [kernelEntryRestore, hmode, runLine_loadFrame sp_notMem_rowRegs mem_rowRegs]
  dsimp only
  rw [hsp]
  congr 1
  exact Hart.ext rfl (funext fun csr => by cases csr <;> rfl) rfl rfl rfl

/-- The code that starts a user process for the first time goes where the trap frame in its
record says. -/
theorem archResumeFromTrap_resumes (h : Hart) (currentProc tfOffset stackTopOffset : UInt32) :
    runLine 0 (archResumeFromTrap currentProc tfOffset stackTopOffset) h =
      (resumed h (frameAt h.mem (h.mem currentProc + tfOffset))
        (h.mem currentProc + stackTopOffset), []) := by
  simp only [archResumeFromTrap, archResumeStart, List.cons_append, List.nil_append]
  iterate 13 rw [runLine_plain rfl]
  rw [runLine_loadFrame a6_notMem_resumeRegs mem_resumeRegs]
  simp only [Hart.exec, Hart.setReg, Hart.setCsr, Function.update_self, Function.update_idem,
    Function.update_of_ne, ne_eq, reduceCtorEq, not_false_eq_true, UInt32.add_zero]
  congr 1
  exact Hart.ext rfl (funext fun csr => by cases csr <;> rfl) rfl rfl rfl

end Sugimotos.Arch
