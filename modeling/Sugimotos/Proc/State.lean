/-
# Processes and the kernel state

The records of `kernel/proc.h` and `arch/trap.h`, and the kernel's global
variables.  The kernel stack inside `struct process` and the saved `sp` belong
to the trap and switch code; the functions modelled here never read them.
-/

import Sugimotos.Mm.Spaces
import Sugimotos.Mm.Vm

namespace Sugimotos.Proc

open Sugimotos.Mm

abbrev fdMax : Nat := 16
abbrev procVmaMax : Nat := 16

/-- The registers of `struct trap_frame`, in its order. -/
inductive Reg
  | ra | gp | tp
  | t0 | t1 | t2 | t3 | t4 | t5 | t6
  | a0 | a1 | a2 | a3 | a4 | a5 | a6 | a7
  | s0 | s1 | s2 | s3 | s4 | s5 | s6 | s7 | s8 | s9 | s10 | s11
  | sp
  deriving DecidableEq, Repr

/-- `struct trap_frame`. -/
structure TrapFrame where
  reg : Reg → UInt32
  sepc : UInt32
  sstatus : UInt32

/-- A frame as `memset` to zero leaves it. -/
def TrapFrame.zero : TrapFrame := ⟨fun _ => 0, 0, 0⟩

/-- One register of the frame overwritten. -/
def TrapFrame.set (f : TrapFrame) (r : Reg) (value : UInt32) : TrapFrame :=
  { f with reg := Function.update f.reg r value }

/-- `struct user_vma`. -/
structure Vma where
  used : Bool
  start : Nat
  stop : Nat
  prot : Nat
  deriving DecidableEq, Repr

def Vma.zero : Vma := ⟨false, 0, 0, 0⟩

/-- `struct file_desc`. -/
structure FileDesc where
  used : Bool
  inode : Int
  offset : Nat
  flags : Nat
  deriving DecidableEq, Repr

def FileDesc.zero : FileDesc := ⟨false, 0, 0, 0⟩

/-- The values of `state`. -/
inductive ProcState
  | unused
  | runnable
  | blocked
  | zombie
  deriving DecidableEq, Repr

abbrev Vmas := Fin procVmaMax → Vma

/-- `struct process`. -/
structure Process where
  pid : Int
  state : ProcState
  priority : Int
  budget : Int
  parentPid : Int
  exitStatus : Int
  isUser : Bool
  userStackBase : Nat
  userStackPaddr : Nat
  userStackPages : Nat
  hasTrapFrame : Bool
  sepc : UInt32
  satp : Nat
  trapFrame : TrapFrame
  vmas : Vmas
  fds : Fin fdMax → FileDesc

/-- `mark_process_unused`: everything zero. -/
def Process.unused : Process where
  pid := 0
  state := .unused
  priority := 0
  budget := 0
  parentPid := 0
  exitStatus := 0
  isUser := false
  userStackBase := 0
  userStackPaddr := 0
  userStackPages := 0
  hasTrapFrame := false
  sepc := 0
  satp := 0
  trapFrame := .zero
  vmas := fun _ => .zero
  fds := fun _ => .zero

/-- Why the kernel never returns from a call: a `PANIC`, an access of its own
that faults again each time the fault handler reports success, or a fault taken
outside a user process, which shuts the machine down. -/
inductive Stop
  | panic (e : Panic)
  | faultLoop
  | shutdown
  deriving DecidableEq, Repr

/-- An allocator or page-table call that may panic. -/
def liftPanic {α : Type} : Except Panic α → Except Stop α
  | .ok x => .ok x
  | .error e => .error (.panic e)

/-- A user address the kernel dereferenced on behalf of the current process:
the kind of access (`VMA_PROT_R` or `VMA_PROT_W`), the address, and the VMAs of
that process at the moment of the access. -/
structure UserTouch where
  proc : Fin procMax
  access : Nat
  addr : Nat
  vmas : Vmas

/-- The machine and the globals of `process.c` and `vm.c`.  `touched` records the
accesses the kernel makes to user memory, latest first; no function reads it. -/
structure Kernel where
  phys : Phys
  procs : Fin procMax → Process
  currentProc : Option (Fin procMax)
  idleProc : Option (Fin procMax)
  kernelRootPt : Nat
  kernelSatpValue : Nat
  touched : List UserTouch

/-- One process replaced. -/
def Kernel.setProc (k : Kernel) (i : Fin procMax) (p : Process) : Kernel :=
  { k with procs := Function.update k.procs i p }

theorem Kernel.setProc_self (k : Kernel) (i : Fin procMax) (p : Process) :
    (k.setProc i p).procs i = p :=
  Function.update_self ..

theorem Kernel.setProc_other (k : Kernel) {i j : Fin procMax} (p : Process) (h : j ≠ i) :
    (k.setProc i p).procs j = k.procs j :=
  Function.update_of_ne h ..

end Sugimotos.Proc
