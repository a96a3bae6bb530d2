/-
# Processes on their kernel stacks

The hart together with the processes that share it.  Every process has a kernel stack of its
own, in its record in `procs`; the idle process runs on the stack that `boot` sets up.  A trap
puts a frame on the stack of the process that runs, and `yield` leaves one process where it
called `switch_context` and goes on with another.  Beside what the memory holds, a machine
remembers for every process how it was interrupted, so that it can be said what the memory
ought to hold.
-/

import Sugimotos.Arch.Switch
import Sugimotos.Proc.Process

namespace Sugimotos.Arch

open Sugimotos.Math Sugimotos.Mm Sugimotos.Proc

/-! ## Addresses -/

/-- `sizeof(struct process)`. -/
def processSize : Nat := 33488

/-- The offsets of `sp`, of the end of `stack` and of `trap_frame` in `struct process`. -/
def spOffset : UInt32 := 28

def stackTopOffset : UInt32 := 32816

def tfOffset : UInt32 := 32832

/-- `sizeof(proc->stack)`. -/
def stackSize : Nat := 32768

/-- The room for the boot stack in `kernel.ld`. -/
def bootStackSize : Nat := 262144

/-- Where the linker has put what the code uses.  The boot stack comes after everything else
that the kernel writes. -/
structure Image where
  procs : UInt32
  currentProc : UInt32
  stackTop : UInt32
  kernelEntry : UInt32
  archResumeFromTrap : UInt32
  procs_aligned : procs.toNat % 16 = 0
  stackTop_aligned : stackTop.toNat % 16 = 0
  stackTop_above : procs.toNat + procMax * processSize + bootStackSize ≤ stackTop.toNat
  currentProc_apart : currentProc.toNat + 4 ≤ procs.toNat ∨
    procs.toNat + procMax * processSize ≤ currentProc.toNat ∧
      currentProc.toNat + 4 + bootStackSize ≤ stackTop.toNat

namespace Image

variable (L : Image)

/-- `&procs[i]`. -/
def procAddr (i : Fin procMax) : UInt32 := L.procs + .ofNat (processSize * i)

/-- `&procs[i].sp`. -/
def spWord (i : Fin procMax) : UInt32 := L.procAddr i + spOffset

/-- `&procs[i].trap_frame`. -/
def trapFrame (i : Fin procMax) : UInt32 := L.procAddr i + tfOffset

/-- The end of the stack that a process runs on. -/
def top (i : Fin procMax) : UInt32 := if i = 0 then L.stackTop else L.procAddr i + stackTopOffset

/-- The lowest address of that stack. -/
def bottom (i : Fin procMax) : Nat :=
  (L.top i).toNat - if i = 0 then bootStackSize else stackSize

/-- The address lies on the stack of a process. -/
def InStack (i : Fin procMax) (addr : UInt32) : Prop :=
  L.bottom i ≤ addr.toNat ∧ addr.toNat < (L.top i).toNat

/-- The address belongs to a process: to its stack, or to one of the words of its record that
the assembly uses. -/
def InSlot (i : Fin procMax) (addr : UInt32) : Prop :=
  L.InStack i addr ∨ addr = L.spWord i ∨ InFrame (L.trapFrame i) addr

end Image

/-! ## Traps under way -/

/-- What `proc_exec` hands to `arch_init_user_context`. -/
structure ExecArgs where
  entry : Nat
  stackTop : Nat
  argc : Nat
  argv : Nat

/-- The `trap_frame` that `arch_init_user_context` makes. -/
def ExecArgs.context (args : ExecArgs) : TrapFrame :=
  (archInitUserContext .unused args.entry args.stackTop args.argc args.argv).trapFrame

/-- How far the kernel is with a trap. -/
inductive Stage
  /-- `handle_trap` runs, and has not gone to `arch_handle_ecall`. -/
  | taken
  /-- `syscall_dispatch` runs. -/
  | called
  /-- It runs, and `proc_exec` has made a new context. -/
  | execd (args : ExecArgs)
  /-- The system call has returned a value. -/
  | answered (value : UInt32)
  /-- The system call was an `exec` that has replaced the context. -/
  | replaced (args : ExecArgs)

/-- A trap that has not been returned from: where its frame lies, and what was interrupted. -/
structure Activation where
  base : UInt32
  context : TrapFrame
  stage : Stage

/-- The context as `kernel_entry` stores it: a process in user mode whose stack pointer is zero
gets that of the kernel. -/
def Activation.stored (a : Activation) : TrapFrame :=
  if fromUser a.context.sstatus = true ∧ a.context.reg .sp = 0 then
    a.context.set .sp (a.base + frameSize)
  else a.context

/-- What the frame of the trap has to hold. -/
def Activation.frame (a : Activation) : TrapFrame :=
  let next := { a.stored with sepc := a.context.sepc + 4 }
  match a.stage with
  | .taken => a.stored
  | .called => next
  | .execd _ => next
  | .answered value => next.set .a0 value
  | .replaced args => args.context

/-- What the `trap_frame` of the process has to hold during a system call from user mode. -/
def Activation.saved (a : Activation) : TrapFrame :=
  match a.stage with
  | .execd args => args.context
  | _ => a.frame

inductive Thread
  | unused
  | running (acts : List Activation)
  | parked (sp : UInt32) (frame : SwitchFrame) (acts : List Activation)

/-- The traps that have not been returned from, the latest first. -/
def Thread.acts : Thread → List Activation
  | .unused => []
  | .running acts => acts
  | .parked _ _ acts => acts

structure Machine where
  hart : Hart
  current : Fin procMax
  thread : Fin procMax → Thread

/-! ## The C code between the assembly -/

/-- `arch_handle_ecall` up to the call of `syscall_dispatch`, with the frame at `base` and the
current process's `trap_frame` at `tf`. -/
def archHandleEcallStart (tf base : UInt32) (h : Hart) : Hart :=
  let f := frameAt h.mem base
  let f := { f with sepc := f.sepc + 4 }
  let mem := putFrame base f h.mem
  if fromUser f.sstatus = true then
    { h with
      mem := putFrame tf f mem
      csr := Function.update h.csr .sstatus (h.csr .sstatus ||| sstatusSum) }
  else { h with mem := mem }

/-- The frame once the result of the system call is in it. -/
def resultFrame (tf : TrapFrame) (value : UInt32) (contextReplaced : Bool) (f : TrapFrame) :
    TrapFrame :=
  if contextReplaced = true ∧ fromUser f.sstatus = true then tf else f.set .a0 value

/-- The rest of `arch_handle_ecall`. -/
def archHandleEcallEnd (tf base : UInt32) (value : UInt32) (contextReplaced : Bool) (h : Hart) :
    Hart :=
  let f := resultFrame (frameAt h.mem tf) value contextReplaced (frameAt h.mem base)
  let mem := putFrame base f h.mem
  if fromUser (frameAt h.mem base).sstatus = true then { h with mem := putFrame tf f mem }
  else { h with mem := mem }

/-- What `arch_handle_ecall` writes: the frame, and the process's copy if user mode called. -/
def ecallMem (tf base : UInt32) (user : Bool) (f : TrapFrame) (mem : UInt32 → UInt32) :
    UInt32 → UInt32 :=
  if user = true then putFrame tf f (putFrame base f mem) else putFrame base f mem

theorem archHandleEcallStart_kept (tf base : UInt32) (h : Hart) :
    (archHandleEcallStart tf base h).reg = h.reg ∧ (archHandleEcallStart tf base h).user = h.user ∧
      (archHandleEcallStart tf base h).csr .sscratch = h.csr .sscratch := by
  unfold archHandleEcallStart
  dsimp only
  split
  · refine ⟨rfl, rfl, ?_⟩
    simp only [Function.update_of_ne, ne_eq, reduceCtorEq, not_false_eq_true]
  · exact ⟨rfl, rfl, rfl⟩

theorem archHandleEcallStart_mem (tf base : UInt32) (h : Hart) :
    (archHandleEcallStart tf base h).mem =
      ecallMem tf base (fromUser (frameAt h.mem base).sstatus)
        { frameAt h.mem base with sepc := (frameAt h.mem base).sepc + 4 } h.mem := by
  unfold archHandleEcallStart ecallMem
  dsimp only
  split <;> rfl

theorem archHandleEcallEnd_kept (tf base value : UInt32) (contextReplaced : Bool) (h : Hart) :
    (archHandleEcallEnd tf base value contextReplaced h).reg = h.reg ∧
      (archHandleEcallEnd tf base value contextReplaced h).user = h.user ∧
      (archHandleEcallEnd tf base value contextReplaced h).csr .sscratch = h.csr .sscratch := by
  unfold archHandleEcallEnd
  dsimp only
  split <;> exact ⟨rfl, rfl, rfl⟩

theorem archHandleEcallEnd_mem (tf base value : UInt32) (contextReplaced : Bool) (h : Hart) :
    (archHandleEcallEnd tf base value contextReplaced h).mem =
      ecallMem tf base (fromUser (frameAt h.mem base).sstatus)
        (resultFrame (frameAt h.mem tf) value contextReplaced (frameAt h.mem base)) h.mem := by
  unfold archHandleEcallEnd ecallMem
  dsimp only
  split <;> rfl

/-- What `arch_init_switch_context` leaves on the stack of a new process. -/
def initSwitchFrame (entry status : UInt32) : SwitchFrame where
  reg r := if r = .ra then entry else 0
  sstatus := status

/-- `arch_init_switch_context`, for the record at `proc`. -/
def archInitSwitchContext (proc entry : UInt32) (isUser : Bool) (h : Hart) : UInt32 → UInt32 :=
  let sp := proc + stackTopOffset + -switchSize
  let status := h.csr .sstatus &&& ~~~(sstatusSie ||| sstatusSum)
  Function.update
    (putSwitch sp (initSwitchFrame entry (if isUser then status else status ||| sstatusSie)) h.mem)
    (proc + spOffset) sp

/-- How a process comes into being. -/
inductive Birth
  /-- `create_process`. -/
  | kernel (entry : UInt32)
  /-- `create_user_process`. -/
  | user (entry stackTop : Nat)
  /-- `proc_fork`. -/
  | fork (userStackBase : UInt32)

namespace Birth

def isUser : Birth → Bool
  | .kernel _ => false
  | _ => true

/-- Where the process starts after its first `switch_context`. -/
def entry (L : Image) : Birth → UInt32
  | .kernel entry => entry
  | _ => L.archResumeFromTrap

/-- The `trap_frame` of the new process, made from that of the current one. -/
def context (parent : TrapFrame) : Birth → TrapFrame
  | .kernel _ => .zero
  | .user entry stackTop => (archInitUserContext .unused entry stackTop 0 0).trapFrame
  | .fork userStackBase =>
      let spOffset := parent.reg .sp - userStackBase
      (archCloneUserContext .unused { Process.unused with trapFrame := parent }
        (userStackBase + spOffset).toNat).trapFrame

end Birth

namespace Machine

variable (L : Image) (m : Machine)

/-- The traps that the current process has not returned from. -/
def acts : List Activation := (m.thread m.current).acts

/-- The current process with other traps under way, and the hart after that. -/
def go (hart : Hart) (acts : List Activation) : Machine :=
  { m with hart := hart, thread := Function.update m.thread m.current (.running acts) }

/-- The context that a trap interrupts. -/
def context : TrapFrame := ⟨m.hart.reg, m.hart.pc, trapStatus m.hart.user (m.hart.csr .sstatus)⟩

/-- A trap is taken and `kernel_entry` runs up to the call of `handle_trap`. -/
def trap : Machine :=
  let h := m.hart.trap L.kernelEntry
  m.go (runLine 0 kernelEntry h).1 (⟨entryBase h, m.context, .taken⟩ :: m.acts)

/-- `handle_trap` has returned, and `kernel_entry` runs to its end. -/
def leave : Machine := m.go (runLine 0 kernelEntryRestore m.hart).1 m.acts.tail

/-- The latest trap with another stage. -/
def restage (stage : Stage) : List Activation :=
  match m.acts with
  | [] => []
  | a :: rest => { a with stage := stage } :: rest

def ecallStart (base : UInt32) : Machine :=
  m.go (archHandleEcallStart (L.trapFrame m.current) base m.hart) (m.restage .called)

/-- The rest of `arch_handle_ecall` after any system call but a successful `exec`. -/
def ecallEnd (base value : UInt32) : Machine :=
  m.go (archHandleEcallEnd (L.trapFrame m.current) base value false m.hart)
    (m.restage (.answered value))

/-- And after that. -/
def ecallReplaced (base : UInt32) (args : ExecArgs) : Machine :=
  m.go (archHandleEcallEnd (L.trapFrame m.current) base 0 true m.hart) (m.restage (.replaced args))

/-- `arch_init_user_context`, called by `proc_exec`. -/
def exec (args : ExecArgs) : Machine :=
  m.go { m.hart with mem := putFrame (L.trapFrame m.current) args.context m.hart.mem }
    (m.restage (.execd args))

/-- The hart once `yield` has set `current_proc` and `switch_context` has returned.  A user
process that has not run yet returns to `arch_resume_from_trap`. -/
def switchHart (j : Fin procMax) : Hart :=
  let h := { m.hart with mem := Function.update m.hart.mem L.currentProc (L.procAddr j) }
  let h := (runLine 0 switchContext h).1
  if h.pc = L.archResumeFromTrap then
    (runLine 0 (Arch.archResumeFromTrap L.currentProc tfOffset stackTopOffset) h).1
  else h

/-- The end of `yield`, when another process is next. -/
def switchTo (j : Fin procMax) : Machine where
  hart := m.switchHart L j
  current := j
  thread := Function.update
    (Function.update m.thread m.current
      (.parked (m.hart.reg .sp + -switchSize) (leftFrame m.hart) m.acts)) j
    (.running (m.thread j).acts)

/-- A new process in slot `j`. -/
def create (j : Fin procMax) (birth : Birth) : Machine :=
  let sp := L.procAddr j + stackTopOffset + -switchSize
  let mem := archInitSwitchContext (L.procAddr j) (birth.entry L) birth.isUser m.hart
  { m with
    hart := { m.hart with
      mem := putFrame (L.trapFrame j)
        (birth.context (frameAt m.hart.mem (L.trapFrame m.current))) mem }
    thread := Function.update m.thread j (.parked sp (switchAt mem sp) []) }

/-- The words that only the assembly, or the C code above, reads and writes. -/
def Held (addr : UInt32) : Prop :=
  addr = L.currentProc ∨ ∃ i, InFrame (L.trapFrame i) addr ∨
    (∃ a ∈ (m.thread i).acts, InFrame a.base addr) ∨
    ∃ sp frame acts, m.thread i = .parked sp frame acts ∧ (addr = L.spWord i ∨ InSwitch sp addr)

/-- The stack pointer may go up to the latest trap frame, or to the end of the stack. -/
def ceiling : Nat :=
  match m.acts with
  | [] => (L.top m.current).toNat
  | a :: _ => a.base.toNat

end Machine

/-! ## Runs -/

/-- What can happen next. -/
inductive Step (L : Image) (m : Machine) : Machine → Prop
  /-- A process runs in user mode, where the memory of the kernel cannot be written. -/
  | userRun {h : Hart} (huser : m.hart.user = true) (hmode : h.user = true)
      (hcsr : h.csr = m.hart.csr)
      (hmem : ∀ addr, addr = L.currentProc ∨ (∃ i, L.InSlot i addr) → h.mem addr = m.hart.mem addr) :
      Step L m { m with hart := h }
  /-- Other code of the kernel runs. -/
  | kernelRun {h : Hart} (huser : m.hart.user = false) (hmode : h.user = false)
      (hscratch : h.csr .sscratch = m.hart.csr .sscratch)
      (hmem : ∀ addr, m.Held L addr → h.mem addr = m.hart.mem addr)
      (haligned : (h.reg .sp).toNat % 16 = 0) (hbottom : L.bottom m.current ≤ (h.reg .sp).toNat)
      (hceiling : (h.reg .sp).toNat ≤ m.ceiling L) :
      Step L m { m with hart := h }
  /-- A trap, for which there is room on the stack. -/
  | trap (hroom : m.hart.user = false →
      L.bottom m.current + frameSize.toNat ≤ (m.hart.reg .sp).toNat) :
      Step L m (m.trap L)
  | leave {a : Activation} {rest : List Activation} (huser : m.hart.user = false)
      (hacts : m.acts = a :: rest) (hstage : a.stage ≠ .called)
      (hexecd : ∀ args, a.stage ≠ .execd args) (hsp : m.hart.reg .sp = a.base) : Step L m m.leave
  | ecallStart {a : Activation} {rest : List Activation} (huser : m.hart.user = false)
      (hacts : m.acts = a :: rest) (hstage : a.stage = .taken) :
      Step L m (m.ecallStart L a.base)
  /-- `proc_exec`, which only a process of users can call, makes the context for its program. -/
  | exec {a : Activation} {rest : List Activation} (args : ExecArgs) (huser : m.hart.user = false)
      (hacts : m.acts = a :: rest) (hstage : a.stage = .called)
      (hmode : fromUser a.context.sstatus = true) : Step L m (m.exec L args)
  | ecallEnd {a : Activation} {rest : List Activation} (value : UInt32)
      (huser : m.hart.user = false) (hacts : m.acts = a :: rest) (hstage : a.stage = .called) :
      Step L m (m.ecallEnd L a.base value)
  | ecallReplaced {a : Activation} {rest : List Activation} {args : ExecArgs}
      (huser : m.hart.user = false) (hacts : m.acts = a :: rest) (hstage : a.stage = .execd args) :
      Step L m (m.ecallReplaced L a.base args)
  /-- `yield` calls `switch_context(&prev->sp, &next->sp)` from its own code. -/
  | switchTo {j : Fin procMax} {sp : UInt32} {frame : SwitchFrame} {acts : List Activation}
      (huser : m.hart.user = false) (hj : m.thread j = .parked sp frame acts)
      (hprev : m.hart.reg .a0 = L.spWord m.current) (hnext : m.hart.reg .a1 = L.spWord j)
      (hra : m.hart.reg .ra ≠ L.archResumeFromTrap)
      (hroom : L.bottom m.current + switchSize.toNat ≤ (m.hart.reg .sp).toNat) :
      Step L m (m.switchTo L j)
  | create {j : Fin procMax} (birth : Birth) (huser : m.hart.user = false)
      (hj : m.thread j = .unused) : Step L m (m.create L j birth)
  /-- `mark_process_unused` clears the record of another process. -/
  | release {j : Fin procMax} {sp : UInt32} {frame : SwitchFrame} {acts : List Activation}
      {mem : UInt32 → UInt32} (huser : m.hart.user = false) (hj : m.thread j = .parked sp frame acts)
      (hidle : j ≠ 0) (hmem : ∀ addr, ¬ L.InSlot j addr → mem addr = m.hart.mem addr)
      (hzero : frameAt mem (L.trapFrame j) = .zero) :
      Step L m
        { m with
          hart := { m.hart with mem := mem }
          thread := Function.update m.thread j .unused }

/-- The machine when `kernel_main` has created the idle process: the records are clear, and the
stack of `boot` is in use. -/
structure Initial (L : Image) (m : Machine) : Prop where
  user : m.hart.user = false
  sscratch : m.hart.csr .sscratch = 0
  current : m.current = 0
  currentProc : m.hart.mem L.currentProc = L.procAddr 0
  thread : m.thread = Function.update (fun _ => .unused) 0 (.running [])
  trapFrame : ∀ i, frameAt m.hart.mem (L.trapFrame i) = .zero
  aligned : (m.hart.reg .sp).toNat % 16 = 0
  inside : L.bottom 0 ≤ (m.hart.reg .sp).toNat ∧ (m.hart.reg .sp).toNat ≤ L.stackTop.toNat

/-- The machines that occur. -/
inductive Reachable (L : Image) : Machine → Prop
  | initial {m : Machine} (h : Initial L m) : Reachable L m
  | step {m m' : Machine} (h : Reachable L m) (hstep : Step L m m') : Reachable L m'

end Sugimotos.Arch
