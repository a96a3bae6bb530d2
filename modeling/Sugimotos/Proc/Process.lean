/-
# Process life cycle

Model of `kernel/process/process.c` and of the parts of `arch/process.c` that
write the process record.  A call that the kernel makes on behalf of a process
may end without returning to it: the kernel stops, or the process exits inside
the call because one of its pages cannot be brought in.
-/

import Sugimotos.Proc.ProcessVm

namespace Sugimotos.Proc

open Sugimotos.Mm

abbrev userStackPages : Nat := 2
abbrev userStackTop : Nat := 0x40000000
abbrev procPriorityMin : Int := 1
abbrev procPriorityDef : Int := 4
abbrev sstatusSpie : UInt32 := 0x20

/-! ## Process records -/

/-- `alloc_process_slot`. -/
def allocProcessSlot (procs : Fin procMax → Process) : Option (Fin procMax) :=
  (List.finRange procMax).find? fun i => decide ((procs i).state = .unused)

/-- `init_process_common`. -/
def initProcessCommon (pid parentPid : Int) (isUser : Bool) (priority : Int) : Process :=
  { Process.unused with
    pid := pid
    state := .runnable
    priority := priority
    budget := priority
    parentPid := parentPid
    isUser := isUser }

/-- The pid given to the process in a slot. -/
def slotPid (i : Fin procMax) : Int := (i.val : Int) + 1

/-- `find_process_by_pid`. -/
def findProcessByPid (procs : Fin procMax → Process) (pid : Int) : Option (Fin procMax) :=
  (List.finRange procMax).find? fun i =>
    decide ((procs i).state ≠ .unused) && decide ((procs i).pid = pid)

/-- `proc_user_stack_end`. -/
def procUserStackEnd (proc : Process) : Nat :=
  u32 (proc.userStackBase + proc.userStackPages * pageSize)

/-- `proc_sp_within_user_stack`. -/
def procSpWithinUserStack (proc : Process) (sp : Nat) : Bool :=
  decide (proc.userStackBase ≤ sp) && decide (sp ≤ procUserStackEnd proc)

/-- `arch_init_user_context`. -/
def archInitUserContext (proc : Process) (entry stackTop argc argv : Nat) : Process :=
  { proc with
    trapFrame :=
      { (((TrapFrame.zero.set .sp (.ofNat stackTop)).set .a0 (.ofNat argc)).set .a1 (.ofNat argv)) with
        sepc := .ofNat entry
        sstatus := sstatusSpie }
    sepc := .ofNat entry
    hasTrapFrame := true }

/-- `arch_user_stack_pointer`. -/
def archUserStackPointer (proc : Process) : Nat := (proc.trapFrame.reg .sp).toNat

/-- `arch_clone_user_context`. -/
def archCloneUserContext (child parent : Process) (childSp : Nat) : Process :=
  { child with
    trapFrame := (parent.trapFrame.set .a0 0).set .sp (.ofNat childSp)
    sepc := parent.trapFrame.sepc
    hasTrapFrame := true }

variable (L : Layout)

/-- `reset_process_with_released_resources` of the process under construction in
slot `i`. -/
def resetProcess (k : Kernel) (i : Fin procMax) (proc : Process) (s : Phys) :
    Except Panic Kernel :=
  match procVmRelease L proc s with
  | .error e => .error e
  | .ok s => .ok ({ k with phys := s }.setProc i .unused)

/-! ## Creation -/

/-- `create_process`. -/
def createProcess (k : Kernel) : Option (Fin procMax) × Kernel :=
  match allocProcessSlot k.procs with
  | none => (none, k)
  | some i =>
      let proc := initProcessCommon (slotPid i) 0 false procPriorityMin
      (some i, k.setProc i { proc with satp := k.kernelSatpValue })

/-- `create_user_process`: `none` is the `NULL` return. -/
def createUserProcess (entryPc : Nat) (k : Kernel) :
    Except Panic (Option (Fin procMax) × Kernel) :=
  match allocProcessSlot k.procs with
  | none => .ok (none, k)
  | some i =>
      let proc := { initProcessCommon (slotPid i) 0 true procPriorityDef with
        userStackPages := userStackPages }
      match allocPagesTry L proc.userStackPages k.phys with
      | (none, s) => .ok (none, { k with phys := s }.setProc i .unused)
      | (some stackPaddr, s) =>
          let proc := { proc with
            userStackPaddr := stackPaddr
            userStackBase := userStackTop - proc.userStackPages * pageSize }
          match vmBuildUserSatp L k.kernelRootPt proc.userStackBase stackPaddr proc.userStackPages s
          with
          | .error e => .error e
          | .ok (none, s) =>
              match resetProcess L k i proc s with
              | .error e => .error e
              | .ok k => .ok (none, k)
          | .ok (some satp, s) =>
              match procVmInit L { proc with satp := satp } with
              | (false, proc) =>
                  match resetProcess L k i proc s with
                  | .error e => .error e
                  | .ok k => .ok (none, k)
              | (true, proc) =>
                  let proc := archInitUserContext proc entryPc (procUserStackEnd proc) 0 0
                  .ok (some i, { k with phys := s }.setProc i proc)

/-- `proc_fork`: the pid of the child, or `none` for `-1`. -/
def procFork (k : Kernel) : Except Panic (Option Int × Kernel) :=
  match k.currentProc with
  | none => .ok (none, k)
  | some p =>
      let parent := k.procs p
      if ¬ parent.isUser ∨ ¬ parent.hasTrapFrame then .ok (none, k)
      else
        match allocProcessSlot k.procs with
        | none => .ok (none, k)
        | some i =>
            let child := { initProcessCommon (slotPid i) parent.pid true parent.priority with
              userStackPages := parent.userStackPages }
            match allocPagesTry L child.userStackPages k.phys with
            | (none, s) => .ok (none, { k with phys := s }.setProc i .unused)
            | (some stackPaddr, s) =>
                let child := { child with
                  userStackPaddr := stackPaddr
                  userStackBase := parent.userStackBase }
                match vmBuildUserSatp L k.kernelRootPt child.userStackBase stackPaddr
                  child.userStackPages s with
                | .error e => .error e
                | .ok (none, s) =>
                    match resetProcess L k i child s with
                    | .error e => .error e
                    | .ok k => .ok (none, k)
                | .ok (some satp, s) =>
                    let child := { child with satp := satp, vmas := parent.vmas, fds := parent.fds }
                    let parentSp := archUserStackPointer parent
                    if ¬ procSpWithinUserStack parent parentSp then
                      match resetProcess L k i child s with
                      | .error e => .error e
                      | .ok k => .ok (none, k)
                    else
                      let spOffset := parentSp - parent.userStackBase
                      let child := archCloneUserContext child parent (child.userStackBase + spOffset)
                      match procVmClone L parent child s with
                      | .error e => .error e
                      | .ok (false, s) =>
                          match resetProcess L k i child s with
                          | .error e => .error e
                          | .ok k => .ok (none, k)
                      | .ok (true, s) =>
                          -- Stack pages are now shared COW with parent.
                          let child := { child with userStackPaddr := parent.userStackPaddr }
                          .ok (some child.pid, { k with phys := s }.setProc i child)

/-! ## Exit and reaping -/

/-- `proc_exit`, up to the loop that gives up the processor for good. -/
def procExit (status : Int) (k : Kernel) : Kernel :=
  match k.currentProc with
  | none => k
  | some i =>
      let proc := { k.procs i with
        fds := fun fd => if ((k.procs i).fds fd).used then .zero else (k.procs i).fds fd
        exitStatus := status
        state := .zombie }
      let k := k.setProc i proc
      match findProcessByPid k.procs proc.parentPid with
      | none => k
      | some p =>
          if (k.procs p).state = .blocked then
            k.setProc p { k.procs p with state := .runnable }
          else k

/-- `proc_vm_release(proc); mark_process_unused(proc);` for the process in a slot. -/
def reap (k : Kernel) (i : Fin procMax) : Except Panic Kernel :=
  resetProcess L k i (k.procs i) k.phys

/-- `proc_reap_orphan_zombies`. -/
def procReapOrphanZombies (k : Kernel) : Except Panic Kernel :=
  (List.finRange procMax).foldlM
    (fun k i =>
      let proc := k.procs i
      if k.idleProc = some i then .ok k
      else if proc.state ≠ .zombie ∨ ¬ proc.isUser ∨ proc.parentPid ≠ 0 then .ok k
      else reap L k i)
    k

/-- What one scan of `proc_waitpid` over the process table finds. -/
inductive WaitScan
  | reaped (pid exitStatus : Int)
  | noChild
  | noZombie
  deriving DecidableEq, Repr

/-- The child `proc_waitpid` considers in a slot. -/
def isChild (k : Kernel) (pid : Int) (self i : Fin procMax) : Bool :=
  decide ((k.procs i).state ≠ .unused) && decide ((k.procs i).parentPid = (k.procs self).pid) &&
    !(decide (0 < pid) && decide ((k.procs i).pid ≠ pid))

/-- One pass of the loop body of `proc_waitpid`, for the current process `self`. -/
def waitpidScan (pid : Int) (self : Fin procMax) (k : Kernel) : Except Panic (WaitScan × Kernel) :=
  match (List.finRange procMax).find? fun i =>
      isChild k pid self i && decide ((k.procs i).state = .zombie) with
  | some i =>
      match reap L k i with
      | .error e => .error e
      | .ok k' => .ok (.reaped (k.procs i).pid (k.procs i).exitStatus, k')
  | none =>
      if (List.finRange procMax).any (isChild k pid self) then .ok (.noZombie, k)
      else .ok (.noChild, k)

/-! ## Kernel accesses to user memory -/

/-- How a call ends without returning to the process: the kernel stops, after the
accesses to user memory that it has made so far, or the process exits inside the
call. -/
inductive Halt
  | stop (e : Stop) (touched : List UserTouch)
  | exited (k : Kernel)

/-- The physical address the kernel reaches at a virtual one with `SUM` set, if
the tables allow the access. -/
def kernelTranslate (satp va access : Nat) (s : Phys) : Option Nat :=
  match hwWalk s.mem (rootPage satp) (va / 4096) with
  | none => none
  | some leaf =>
      if leaf.perm &&& protToQueryBits access = protToQueryBits access then
        some (leaf.ppn * 4096 + va % 4096)
      else none

/-- One access of the kernel to a user address.  A page fault goes through
`handle_trap`: resolved, the access is made again; not resolved, the process
exits with status 128. -/
def touch (access va : Nat) (k : Kernel) : Except Halt (Nat × Kernel) :=
  match k.currentProc with
  | none => .error (.stop .shutdown k.touched)
  | some i =>
      let proc := k.procs i
      let k := { k with touched := ⟨i, access, va, proc.vmas⟩ :: k.touched }
      match kernelTranslate proc.satp va access k.phys with
      | some pa => .ok (pa, k)
      | none =>
          if ¬ proc.isUser then .error (.stop .shutdown k.touched)
          else
            match procHandleUserPageFault L true proc va access k.phys with
            | .error e => .error (.stop e k.touched)
            | .ok (false, s) => .error (.exited (procExit 128 { k with phys := s }))
            | .ok (true, s) =>
                match kernelTranslate proc.satp va access s with
                | some pa => .ok (pa, { k with phys := s })
                | none => .error (.stop .faultLoop k.touched)

/-- `*(const char *) va`. -/
def loadByte (va : Nat) (k : Kernel) : Except Halt (UInt8 × Kernel) :=
  match touch L vmaProtR va k with
  | .error e => .error e
  | .ok (pa, k) => .ok (k.phys.mem (pa / 4096) (pa % 4096), k)

/-- `*(char *) va = value`. -/
def storeByte (va : Nat) (value : UInt8) (k : Kernel) : Except Halt Kernel :=
  match touch L vmaProtW va k with
  | .error e => .error e
  | .ok (pa, k) =>
      let page := Function.update (k.phys.mem (pa / 4096)) (pa % 4096) value
      .ok { k with phys := k.phys.setPage pa page }

/-- `proc_user_readable_ok`. -/
def procUserReadableOk (k : Kernel) (addr len : Nat) : Bool :=
  match k.currentProc with
  | none => true
  | some i => if ¬ (k.procs i).isUser then true else procVmaRangeOk (k.procs i) addr len vmaProtR

/-- `proc_user_writable_ok`. -/
def procUserWritableOk (k : Kernel) (addr len : Nat) : Bool :=
  match k.currentProc with
  | none => true
  | some i => if ¬ (k.procs i).isUser then true else procVmaRangeOk (k.procs i) addr len vmaProtW

/-- The loop of `proc_user_cstr_ok` from offset `i` on. -/
def cstrLoop (addr : Nat) : Nat → Nat → Kernel → Except Halt (Bool × Kernel)
  | 0, _, k => .ok (false, k)
  | left + 1, i, k =>
      if ¬ procUserReadableOk k (u32 (addr + i)) 1 then .ok (false, k)
      else
        match loadByte L (u32 (addr + i)) k with
        | .error e => .error e
        | .ok (byte, k) => if byte = 0 then .ok (true, k) else cstrLoop addr left (i + 1) k

/-- `proc_user_cstr_ok` for a user process. -/
def procUserCstrOk (addr maxLen : Nat) (k : Kernel) : Except Halt (Bool × Kernel) :=
  if maxLen = 0 then .ok (false, k)
  else if ¬ procUserReadableOk k addr 1 then .ok (false, k)
  else cstrLoop L addr maxLen 0 k

/-- `*(const uint32_t *) va`. -/
def loadU32 (va : Nat) (k : Kernel) : Except Halt (Nat × Kernel) := do
  let (b0, k) ← loadByte L va k
  let (b1, k) ← loadByte L (u32 (va + 1)) k
  let (b2, k) ← loadByte L (u32 (va + 2)) k
  let (b3, k) ← loadByte L (u32 (va + 3)) k
  return (b0.toNat + 256 * b1.toNat + 65536 * b2.toNat + 16777216 * b3.toNat, k)

/-- The loop of `proc_user_exec_argv_ok` from argument `i` on: the number of
arguments, or `none` for `-1`. -/
def argvLoop (argvPtr : Nat) : Nat → Nat → Kernel → Except Halt (Option Nat × Kernel)
  | 0, _, k => .ok (none, k)
  | left + 1, i, k =>
      let slot := u32 (argvPtr + i * 4)
      if ¬ procUserReadableOk k slot 4 then .ok (none, k)
      else
        match loadU32 L slot k with
        | .error e => .error e
        | .ok (argp, k) =>
            if argp = 0 then .ok (some i, k)
            else
              match procUserCstrOk L argp 128 k with
              | .error e => .error e
              | .ok (false, k) => .ok (none, k)
              | .ok (true, k) => argvLoop argvPtr left (i + 1) k

/-- `proc_user_exec_argv_ok` for a user process. -/
def procUserExecArgvOk (argvPtr : Nat) (k : Kernel) : Except Halt (Option Nat × Kernel) :=
  if argvPtr = 0 then .ok (some 0, k) else argvLoop L argvPtr 32 0 k

/-- `proc_exec`; `true` is the zero return. -/
def procExec (entryPc argv : Nat) (k : Kernel) : Except Halt (Bool × Kernel) :=
  match k.currentProc with
  | none => .ok (false, k)
  | some i =>
      if ¬ (k.procs i).isUser then .ok (false, k)
      else if entryPc = 0 then .ok (false, k)
      else
        match procUserExecArgvOk L argv k with
        | .error e => .error e
        | .ok (none, k) => .ok (false, k)
        | .ok (some argc, k) =>
            match procVmReset L (k.procs i) k.phys with
            | .error e => .error (.stop (.panic e) k.touched)
            | .ok (proc, s) =>
                let k := { k with phys := s }
                match procVmInit L proc with
                | (false, proc) => .ok (false, k.setProc i proc)
                | (true, proc) =>
                    let proc := archInitUserContext proc entryPc (procUserStackEnd proc) argc argv
                    .ok (true, k.setProc i proc)

end Sugimotos.Proc
