/-
# Runs of the kernel

The kernel as a transition system.  One step is one call that runs without
giving up the processor: the kernel is not preemptible.  Which runnable process
comes next is left open, so the runs include those of every scheduler.
-/

import Sugimotos.Proc.Process

namespace Sugimotos.Proc

open Sugimotos.Mm

variable (L : Layout)

/-- `kernel_main` up to the point where the idle process runs: `vm_init`, then
`create_process`. -/
def boot (mem : Memory) (mmu : Mmu) : Option Kernel :=
  match vmInit L ⟨Allocator.static L, mem, mmu⟩ with
  | (none, _) => none
  | (some satp, s) =>
      let (idle, k) := createProcess
        { phys := s
          procs := fun _ => .unused
          currentProc := none
          idleProc := none
          kernelRootPt := vmRootFromSatp satp
          kernelSatpValue := satp
          touched := [] }
      some { k with currentProc := idle, idleProc := idle }

/-- The operations of a run.  Those after `switchTo` are made by the current
process or on its behalf. -/
inductive Op
  | createProcess
  | createUserProcess (entryPc : UInt32)
  | reapOrphanZombies
  | switchTo (next : Fin procMax)
  | wake (i : Fin procMax)
  /-- A trap from user mode stores the registers in the process record. -/
  | saveFrame (f : TrapFrame)
  | fork
  | exec (entryPc argv : UInt32)
  | exit (status : Int)
  | waitpid (pid : Int) (options : UInt32)
  | mmap (addrHint len prot flags : UInt32)
  | munmap (addr len : UInt32)
  /-- A page fault in user mode. -/
  | pageFault (addr : UInt32) (access : Nat)
  /-- A store instruction in user mode. -/
  | userStore (addr : UInt32) (value : UInt8)
  /-- The kernel reads or writes user memory inside a system call. -/
  | kernelLoad (addr : UInt32)
  | kernelStore (addr : UInt32) (value : UInt8)

/-- The process that executes, if it may. -/
def Kernel.running (k : Kernel) : Option (Fin procMax) :=
  k.currentProc.filter fun i => decide ((k.procs i).state = .runnable)

/-- The running process is a user process and the range check for the byte at
`addr` has passed. -/
def checked (k : Kernel) (addr : UInt32) (protNeed : Nat) : Bool :=
  match k.running with
  | none => false
  | some i => (k.procs i).isUser && procVmaRangeOk (k.procs i) addr.toNat 1 protNeed

/-- Whether an operation can happen next.  The kernel reads and writes user
memory only where it has checked the VMAs. -/
def enabled (k : Kernel) : Op → Bool
  | .switchTo next => decide ((k.procs next).state = .runnable) || decide (k.idleProc = some next)
  | .kernelLoad addr => checked k addr vmaProtR
  | .kernelStore addr _ => checked k addr vmaProtW
  | _ => k.running.isSome

/-- `yield`, once it has picked the next process. -/
def switchTo (next : Fin procMax) (k : Kernel) : Kernel :=
  if k.currentProc = some next then k
  else { k with
    phys := vmActivate (k.procs next).satp k.phys
    currentProc := some next }

/-- The state a call leaves, whether it returned or the process exited in it. -/
def settle {α : Type} : Except Halt (α × Kernel) → Except Stop Kernel
  | .ok (_, k) => .ok k
  | .error (.exited k) => .ok k
  | .error (.stop e _) => .error e

/-- The end of `handle_trap` for a page fault: success resumes the process,
failure makes it exit with status 128. -/
def faultDone (k : Kernel) : Except Stop (Bool × Phys) → Except Stop Kernel
  | .error e => .error e
  | .ok (true, s) => .ok { k with phys := s }
  | .ok (false, s) => .ok (procExit 128 { k with phys := s })

/-- The physical address a user-mode access reaches. -/
def userTranslate (satp va access : Nat) (s : Phys) : Option Nat :=
  match hwWalk s.mem (rootPage satp) (va / 4096) with
  | none => none
  | some leaf =>
      if leaf.perm &&& pteU ≠ 0 ∧
          leaf.perm &&& protToQueryBits access = protToQueryBits access then
        some (leaf.ppn * 4096 + va % 4096)
      else none

/-- A page fault taken in user mode by the process in slot `i`; `SUM` is clear. -/
def userPageFault (i : Fin procMax) (addr access : Nat) (k : Kernel) : Except Stop Kernel :=
  faultDone k (procHandleUserPageFault L false (k.procs i) addr access k.phys)

/-- One execution of a store instruction in user mode. -/
def userStore (i : Fin procMax) (addr : Nat) (value : UInt8) (k : Kernel) : Except Stop Kernel :=
  match userTranslate (k.procs i).satp addr vmaProtW k.phys with
  | some pa =>
      let page := Function.update (k.phys.mem (pa / 4096)) (pa % 4096) value
      .ok { k with phys := k.phys.setPage pa page }
  | none => userPageFault L i addr vmaProtW k

/-- `WNOHANG`. -/
abbrev wnohang : UInt32 := 1

/-- One pass of `proc_waitpid`; a process without a zombie child blocks. -/
def waitpidStep (i : Fin procMax) (pid : Int) (options : UInt32) (k : Kernel) :
    Except Stop Kernel :=
  if options &&& ~~~wnohang ≠ 0 then .ok k
  else
    match waitpidScan L pid i k with
    | .error e => .error (.panic e)
    | .ok (.noZombie, k) =>
        if options &&& wnohang ≠ 0 then .ok k
        else .ok (k.setProc i { k.procs i with state := .blocked })
    | .ok (_, k) => .ok k

/-- What an operation does. -/
def step (op : Op) (k : Kernel) : Except Stop Kernel :=
  match op with
  | .createProcess => .ok (createProcess k).2
  | .createUserProcess entryPc => liftPanic ((createUserProcess L entryPc.toNat k).map (·.2))
  | .reapOrphanZombies => liftPanic (procReapOrphanZombies L k)
  | .switchTo next => .ok (switchTo next k)
  | .wake i =>
      if (k.procs i).state = .blocked then .ok (k.setProc i { k.procs i with state := .runnable })
      else .ok k
  | _ =>
      match k.running with
      | none => .ok k
      | some i =>
          match op with
          | .saveFrame f =>
              .ok (k.setProc i { k.procs i with
                trapFrame := f
                sepc := f.sepc
                hasTrapFrame := true })
          | .fork => liftPanic ((procFork L k).map (·.2))
          | .exec entryPc argv => settle (procExec L entryPc.toNat argv.toNat k)
          | .exit status => .ok (procExit status k)
          | .waitpid pid options => waitpidStep L i pid options k
          | .mmap addrHint len prot flags =>
              liftPanic ((procMmap L (k.procs i) addrHint.toNat len.toNat prot.toNat flags.toNat
                k.phys).map fun out => { k with phys := out.2.2 }.setProc i out.2.1)
          | .munmap addr len =>
              liftPanic ((procMunmap L (k.procs i) addr.toNat len.toNat k.phys).map
                fun out => { k with phys := out.2.2 }.setProc i out.2.1)
          | .pageFault addr access => userPageFault L i addr.toNat access k
          | .userStore addr value => userStore L i addr.toNat value k
          | .kernelLoad addr => settle (loadByte L addr.toNat k)
          | .kernelStore addr value => settle ((storeByte L addr.toNat value k).map fun k => ((), k))
          | _ => .ok k

/-- The states the kernel can be in. -/
inductive Reachable : Kernel → Prop
  | boot {mem mmu k} (h : boot L mem mmu = some k) : Reachable k
  | step {k k'} (op : Op) (hk : Reachable k) (hop : enabled k op = true)
      (h : step L op k = .ok k') : Reachable k'

/-- A list of operations, each of which can happen when its turn comes; `none` if
one cannot or the kernel stops. -/
def runEnabled : List Op → Kernel → Option Kernel
  | [], k => some k
  | op :: ops, k =>
      if enabled k op then
        match step L op k with
        | .ok k' => runEnabled ops k'
        | .error _ => none
      else none

theorem Reachable.runEnabled {L : Layout} {ops : List Op} {k k' : Kernel} (hk : Reachable L k)
    (h : runEnabled L ops k = some k') : Reachable L k' := by
  induction ops generalizing k with
  | nil =>
      cases h
      exact hk
  | cons op ops ih =>
      unfold Proc.runEnabled at h
      split at h
      · rename_i hop
        split at h
        · rename_i k₁ hstep
          exact ih (hk.step op hop hstep) h
        · cases h
      · cases h

/-- A list of operations, each of which can happen and passes a test when its turn comes. -/
def runWhile (ok : Kernel → Op → Bool) : List Op → Kernel → Option Kernel
  | [], k => some k
  | op :: ops, k =>
      if enabled k op && ok k op then
        match step L op k with
        | .ok k' => runWhile ok ops k'
        | .error _ => none
      else none

/-- What every operation that passes the test keeps. -/
theorem runWhile_rule {L : Layout} {P : Kernel → Prop} {ok : Kernel → Op → Bool} {ops : List Op}
    {k k' : Kernel} (hstep : ∀ k op k', P k → enabled k op = true → ok k op = true →
      step L op k = .ok k' → P k') (hstart : P k) (h : runWhile L ok ops k = some k') : P k' := by
  induction ops generalizing k with
  | nil =>
      cases h
      exact hstart
  | cons op ops ih =>
      unfold runWhile at h
      split at h
      · rename_i hop
        rw [Bool.and_eq_true] at hop
        split at h
        · rename_i k₁ hcall
          exact ih (hstep k op k₁ hstart hop.1 hop.2 hcall) h
        · cases h
      · cases h

/-! ## A small machine -/

/-- A kernel image with one page of user text and one of user data. -/
def smallLayout : Layout where
  userTextStart := 0x80201000
  userTextEnd := 0x80202000
  rodataStart := 0x80202000
  userRodataStart := 0x80203000
  userRodataEnd := 0x80203000
  userDataStart := 0x80203000
  userDataEnd := 0x80204000
  userBssStart := 0x80204000
  userBssEnd := 0x80204000
  freeRam := 0x80205000
  userTextStart_aligned := by decide
  userTextEnd_aligned := by decide
  rodataStart_aligned := by decide
  userRodataStart_aligned := by decide
  userRodataEnd_aligned := by decide
  userDataStart_aligned := by decide
  userDataEnd_aligned := by decide
  userBssStart_aligned := by decide
  userBssEnd_aligned := by decide
  freeRam_aligned := by decide
  text_base := by decide
  userText_le := by decide
  userTextEnd_le_rodata := by decide
  rodata_le_userRodata := by decide
  userRodata_le := by decide
  userRodataEnd_le_data := by decide
  userData_le := by decide
  userDataEnd_le_bss := by decide
  userBss_le := by decide
  userBssEnd_le_freeRam := by decide
  freeRam_mapped := by decide

/-- The machine of `smallLayout` after boot, from memory full of zeros. -/
def smallBoot : Option Kernel :=
  boot smallLayout (fun _ => zeroPage) ⟨0, [], fun _ => [], 0⟩

/-- The first instruction of the user text. -/
def smallEntry : UInt32 := 0x80201000

/-- The small machine after the given operations. -/
def smallRun (ops : List Op) : Option Kernel := smallBoot.bind (runEnabled smallLayout ops)

theorem smallRun_reachable {ops : List Op} {k : Kernel} (h : smallRun ops = some k) :
    Reachable smallLayout k := by
  obtain ⟨k₀, hboot, hrun⟩ := Option.bind_eq_some_iff.mp h
  exact (Reachable.boot hboot).runEnabled hrun

/-- What a call on a run of the small machine returns. -/
theorem ok_of_any {ε α : Type} {m : Except ε α} {p : α → Bool} (h : m.toOption.any p = true) :
    ∃ out, m = .ok out ∧ p out = true := by
  cases m with
  | error e => cases h
  | ok out => exact ⟨out, rfl, h⟩

end Sugimotos.Proc
