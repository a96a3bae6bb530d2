/-
# System calls

Model of `kernel/syscall/`: the dispatcher, the handlers, and the copies that `fs_read`,
`fs_write` and `fs_listdir` make from and to the memory of the caller.  A handler runs as the
current process; it returns, or the process blocks, exits, or takes the kernel down.
-/

import Sugimotos.Event.Kevent
import Sugimotos.Fs.Listdir
import Sugimotos.Proc.UserCopy
import Sugimotos.Syscall.Sbi

namespace Sugimotos.Syscall

open Sugimotos.Mm Sugimotos.Proc Sugimotos.Fs Sugimotos.Event

/-! ## The numbers of `uapi/syscall.h` -/

@[match_pattern] abbrev sysPutcharNo : Nat := 1
@[match_pattern] abbrev sysGetcharNo : Nat := 2
@[match_pattern] abbrev sysYieldNo : Nat := 3
@[match_pattern] abbrev sysExitNo : Nat := 4
@[match_pattern] abbrev sysForkNo : Nat := 5
@[match_pattern] abbrev sysExecNo : Nat := 6
@[match_pattern] abbrev sysWaitNo : Nat := 7
@[match_pattern] abbrev sysWaitpidNo : Nat := 8
@[match_pattern] abbrev sysOpenNo : Nat := 20
@[match_pattern] abbrev sysCloseNo : Nat := 21
@[match_pattern] abbrev sysReadNo : Nat := 22
@[match_pattern] abbrev sysWriteNo : Nat := 23
@[match_pattern] abbrev sysUnlinkNo : Nat := 24
@[match_pattern] abbrev sysRenameNo : Nat := 25
@[match_pattern] abbrev sysListdirNo : Nat := 26
@[match_pattern] abbrev sysMmapNo : Nat := 40
@[match_pattern] abbrev sysMunmapNo : Nat := 41
@[match_pattern] abbrev sysGpuInfoNo : Nat := 60
@[match_pattern] abbrev sysGpuFlushNo : Nat := 61
@[match_pattern] abbrev sysGetEventNo : Nat := 62
@[match_pattern] abbrev sysWmctlNo : Nat := 63

/-! ## State -/

/-- What the calls see of the display: `vg_ready`, its size, and how often it was presented. -/
structure Display where
  ready : Bool
  width : UInt32
  height : UInt32
  pitch : UInt32
  presented : Nat

/-- The kernel with its files, its event queue, the console and the display.  `pad` is what the
stack holds in the four bytes of padding of a `struct sys_event`. -/
structure Os where
  files : System
  events : Kevents
  sbi : Sbi
  display : Display
  pad : UInt32

abbrev Os.kernel (s : Os) : Kernel := s.files.kernel

/-- The system with another kernel state. -/
def Os.withKernel (s : Os) (k : Kernel) : Os := { s with files := { s.files with kernel := k } }

/-- How a call ends without returning to its caller. -/
inductive SysHalt
  | stop (e : Stop) (touched : List UserTouch)
  /-- The process waits for a child inside `sys_waitpid`. -/
  | blocked (call : WaitCall) (s : Os)
  | exited (s : Os)

/-- A call that returns a value. -/
abbrev SysCall (α : Type) : Type := Os → Except SysHalt (α × Os)

/-- Part of a call that concerns the kernel alone. -/
def Os.onKernel (s : Os) {α : Type} : Except Halt (α × Kernel) → Except SysHalt (α × Os)
  | .ok (a, k) => .ok (a, s.withKernel k)
  | .error (.stop e touched) => .error (.stop e touched)
  | .error (.exited k) => .error (.exited (s.withKernel k))

/-- Part of a call that cannot fail but by a panic. -/
def Os.orPanic (s : Os) {α : Type} : Except Panic (α × Kernel) → Except SysHalt (α × Os)
  | .ok (a, k) => .ok (a, s.withKernel k)
  | .error e => .error (.stop (.panic e) s.kernel.touched)

/-- The end of a call of the file system. -/
def Os.onFiles (s : Os) (out : Int × System) : Except SysHalt (Int × Os) :=
  .ok (out.1, { s with files := out.2 })

/-! ## The file system on user memory -/

variable (L : Layout)

/-- `memcpy` of `n` bytes at `buf` in user memory to an inode, from `offset` on. -/
def copyToInode (slot : Fin ramfsMaxFiles) : Nat → Nat → Nat → SysCall Unit
  | _, _, 0, s => .ok ((), s)
  | offset, buf, n + 1, s =>
      match s.onKernel (loadByte L buf s.kernel) with
      | .error e => .error e
      | .ok (byte, s) =>
          let inode := s.files.inodes slot
          let inodes := Function.update s.files.inodes slot
            { inode with data := Function.update inode.data offset byte }
          copyToInode slot (offset + 1) (u32 (buf + 1)) n
            { s with files := { s.files with inodes := inodes } }

/-- `memcpy` to user memory. -/
def copyFromKernel (buf : Nat) (src : List UInt8) : SysCall Unit := fun s =>
  s.onKernel ((storeAll L buf src s.kernel).map fun k => ((), k))

/-- `fs_read` to user memory: the bytes are copied before the offset moves. -/
def fsReadUser (fd : Int) (buf len : Nat) : SysCall Int := fun s =>
  match copyFromKernel L buf (fsRead fd buf len s.files).2.1 s with
  | .error e => .error e
  | .ok ((), s) =>
      let out := fsRead fd buf len s.files
      s.onFiles (out.1, out.2.2)

/-- `fs_write` from user memory: the bytes are copied before the offset and the size change. -/
def fsWriteUser (fd : Int) (buf len : Nat) : SysCall Int := fun s =>
  if buf = 0 then .ok (-1, s)
  else
    match getOpenFd fd s.kernel with
    | none => .ok (-1, s)
    | some (p, i) =>
        let d := (s.kernel.procs p).fds i
        match FileDesc.slot d with
        | none => .ok (-1, s)
        | some slot =>
            if ¬ (d.flags &&& 3 = oWronly ∨ d.flags &&& 3 = oRdwr) then .ok (-1, s)
            else
              let offset := writeOffset d (s.files.inodes slot)
              let s := s.withKernel (Kernel.setFd s.kernel p i { d with offset := offset })
              if ramfsDataMax ≤ offset then .ok (0, s)
              else
                let n := writeCount offset len
                match copyToInode L slot offset buf n s with
                | .error e => .error e
                | .ok ((), s) =>
                    let inode := s.files.inodes slot
                    s.onFiles ((n : Int),
                      { kernel := Kernel.setFd s.kernel p i { d with offset := offset + n }
                        inodes := Function.update s.files.inodes slot { inode with
                          size := if inode.size < offset + n then offset + n else inode.size } })

/-- `fs_listdir` to user memory. -/
def fsListdirUser (buf len : Nat) : SysCall Int := fun s =>
  let out := fsListdir buf len s.files.inodes
  match copyFromKernel L buf out.2 s with
  | .error e => .error e
  | .ok ((), s) => .ok (out.1, s)

/-! ## Handlers -/

abbrev userPathMax : Nat := 256

def sysPutchar (ch : UInt32) : SysCall Int := fun s =>
  .ok (0, { s with sbi := putchar ch.toUInt8 s.sbi })

def sysGetchar : SysCall Int := fun s =>
  .ok ((getchar s.sbi).1, { s with sbi := (getchar s.sbi).2 })

/-- `sys_yield`; the processor is given up afterwards, by a step of the run. -/
def sysYield : SysCall Int := fun s => .ok (0, s)

def sysExit (status : UInt32) : SysCall Int := fun s =>
  .error (.exited (s.withKernel (procExit status.toInt32.toInt s.kernel)))

def sysFork : SysCall Int := fun s =>
  match s.orPanic (procFork L s.kernel) with
  | .error e => .error e
  | .ok (pid, s) => .ok (pid.getD (-1), s)

def sysExec (entryPc argv : UInt32) : SysCall Int := fun s =>
  match s.onKernel (procExec L entryPc.toNat argv.toNat s.kernel) with
  | .error e => .error e
  | .ok (ok, s) => .ok (if ok then 0 else -1, s)

/-- `sys_waitpid`, as far as it gets before it gives up the processor. -/
def sysWaitpid (pid : Int) (statusPtr options : UInt32) : SysCall Int := fun s =>
  match s.kernel.currentProc with
  | none => .error (.stop .shutdown s.kernel.touched)
  | some self =>
      match Proc.sysWaitpid L self ⟨pid, statusPtr, options⟩ s.kernel with
      | .stop e touched => .error (.stop e touched)
      | .blocked k => .error (.blocked ⟨pid, statusPtr, options⟩ (s.withKernel k))
      | .returned result k => .ok (result, s.withKernel k)
      | .exited k => .error (.exited (s.withKernel k))

def sysWait (statusPtr : UInt32) : SysCall Int := sysWaitpid L (-1) statusPtr 0

/-- `sys_open`. -/
def sysOpen (userPath flags : UInt32) : SysCall Int := fun s =>
  match s.onKernel (copyStringFromUser L userPath.toNat userPathMax s.kernel) with
  | .error e => .error e
  | .ok (none, s) => .ok (-1, s)
  | .ok (some kpath, s) => s.onFiles (fsOpen (some kpath) flags.toNat s.files)

def sysClose (fd : Int) : SysCall Int := fun s => s.onFiles (fsClose fd s.files)

def sysRead (fd : Int) (userBuf len : UInt32) : SysCall Int := fun s =>
  if len ≠ 0 ∧ ¬ procUserWritableOk s.kernel userBuf.toNat len.toNat then .ok (-1, s)
  else fsReadUser L fd userBuf.toNat len.toNat s

def sysWrite (fd : Int) (userBuf len : UInt32) : SysCall Int := fun s =>
  if len ≠ 0 ∧ ¬ procUserReadableOk s.kernel userBuf.toNat len.toNat then .ok (-1, s)
  else fsWriteUser L fd userBuf.toNat len.toNat s

def sysUnlink (userPath : UInt32) : SysCall Int := fun s =>
  match s.onKernel (copyStringFromUser L userPath.toNat userPathMax s.kernel) with
  | .error e => .error e
  | .ok (none, s) => .ok (-1, s)
  | .ok (some kpath, s) => s.onFiles (fsUnlink (some kpath) s.files)

def sysRename (userOldPath userNewPath : UInt32) : SysCall Int := fun s =>
  match s.onKernel (copyStringFromUser L userOldPath.toNat userPathMax s.kernel) with
  | .error e => .error e
  | .ok (none, s) => .ok (-1, s)
  | .ok (some koldPath, s) =>
      match s.onKernel (copyStringFromUser L userNewPath.toNat userPathMax s.kernel) with
      | .error e => .error e
      | .ok (none, s) => .ok (-1, s)
      | .ok (some knewPath, s) => s.onFiles (fsRename (some koldPath) (some knewPath) s.files)

def sysListdir (userBuf len : UInt32) : SysCall Int := fun s =>
  if len ≠ 0 ∧ ¬ procUserWritableOk s.kernel userBuf.toNat len.toNat then .ok (-1, s)
  else fsListdirUser L userBuf.toNat len.toNat s

def sysMmap (userAddr length prot flags : UInt32) : SysCall Int := fun s =>
  match s.kernel.currentProc with
  | none => .error (.stop .shutdown s.kernel.touched)
  | some i =>
      let out := procMmap L (s.kernel.procs i) userAddr.toNat length.toNat prot.toNat flags.toNat
        s.kernel.phys
      match s.orPanic (out.map fun r => (r.1, { s.kernel with phys := r.2.2 }.setProc i r.2.1)) with
      | .error e => .error e
      | .ok (some addr, s) => .ok (addr, s)
      | .ok (none, s) => .ok (-1, s)

def sysMunmap (userAddr length : UInt32) : SysCall Int := fun s =>
  match s.kernel.currentProc with
  | none => .error (.stop .shutdown s.kernel.touched)
  | some i =>
      let out := procMunmap L (s.kernel.procs i) userAddr.toNat length.toNat s.kernel.phys
      match s.orPanic (out.map fun r => (r.1, { s.kernel with phys := r.2.2 }.setProc i r.2.1)) with
      | .error e => .error e
      | .ok (ok, s) => .ok (if ok then 0 else -1, s)

/-- A `uint32_t` in memory. -/
def wordBytes (w : UInt32) : List UInt8 := intBytes w.toNat

/-- `GPU_FORMAT_BGRA8888`. -/
abbrev gpuFormatBgra8888 : UInt32 := 1

/-- A `struct gpu_info` in memory. -/
def gpuInfoBytes (d : Display) : List UInt8 :=
  wordBytes d.width ++ wordBytes d.height ++ wordBytes d.pitch ++ wordBytes gpuFormatBgra8888 ++
    wordBytes 0

def sysGpuInfo (userInfo : UInt32) : SysCall Int := fun s =>
  match s.onKernel (copyToUser L userInfo.toNat (gpuInfoBytes s.display) s.kernel) with
  | .error e => .error e
  | .ok (ok, s) => .ok (if ok then 0 else -1, s)

/-- `sys_gpu_flush`; what `virtio_gpu_present` sends to the device is not part of the state. -/
def sysGpuFlush : SysCall Int := fun s =>
  if ¬ s.display.ready then .ok (-1, s)
  else .ok (0, { s with display := { s.display with presented := s.display.presented + 1 } })

/-- A `struct sys_event` in memory; `seq` is eight bytes long and aligned to eight. -/
def sysEventBytes (pad : UInt32) (e : KEvent) : List UInt8 :=
  wordBytes e.type ++ wordBytes e.a ++ wordBytes e.b ++ wordBytes e.c ++ wordBytes e.d ++
    wordBytes pad ++ wordBytes e.seq.toUInt32 ++ wordBytes (e.seq >>> 32).toUInt32

/-- `sizeof(struct sys_event)`. -/
abbrev sysEventSize : Nat := 32

def sysGetEvent (userEvent : UInt32) : SysCall Int := fun s =>
  if userEvent = 0 ∨ ¬ procUserWritableOk s.kernel userEvent.toNat sysEventSize then .ok (-1, s)
  else
    match keventPop (some ⟨0, 0, 0, 0, 0, 0⟩) s.events with
    | (result, event, events) =>
        let s := { s with events := events }
        match event with
        | none => .ok (result, s)
        | some event =>
            if result ≤ 0 then .ok (result, s)
            else
              match s.onKernel (copyToUser L userEvent.toNat (sysEventBytes s.pad event) s.kernel) with
              | .error e => .error e
              | .ok (false, s) => .ok (-1, s)
              | .ok (true, s) => .ok (1, s)

def sysWmctl (_cmd _userArg : UInt32) : SysCall Int := fun s => .ok (-1, s)

/-! ## The dispatcher -/

/-- `struct syscall_result`. -/
structure SyscallResult where
  value : Int
  contextReplaced : Bool
  deriving DecidableEq, Repr

/-- The six arguments of a call. -/
structure SyscallArgs where
  arg0 : UInt32
  arg1 : UInt32
  arg2 : UInt32
  arg3 : UInt32
  arg4 : UInt32
  arg5 : UInt32

/-- The handler of a number, for the calls that return a value. -/
def handler (number : UInt32) (args : SyscallArgs) : SysCall Int :=
  match number.toNat with
  | sysPutcharNo => sysPutchar args.arg0
  | sysGetcharNo => sysGetchar
  | sysYieldNo => sysYield
  | sysExitNo => sysExit args.arg0
  | sysForkNo => sysFork L
  | sysWaitNo => sysWait L args.arg0
  | sysWaitpidNo => sysWaitpid L args.arg0.toInt32.toInt args.arg1 args.arg2
  | sysOpenNo => sysOpen L args.arg0 args.arg1
  | sysCloseNo => sysClose args.arg0.toInt32.toInt
  | sysReadNo => sysRead L args.arg0.toInt32.toInt args.arg1 args.arg2
  | sysWriteNo => sysWrite L args.arg0.toInt32.toInt args.arg1 args.arg2
  | sysUnlinkNo => sysUnlink L args.arg0
  | sysRenameNo => sysRename L args.arg0 args.arg1
  | sysListdirNo => sysListdir L args.arg0 args.arg1
  | sysMmapNo => sysMmap L args.arg0 args.arg1 args.arg2 args.arg3
  | sysMunmapNo => sysMunmap L args.arg0 args.arg1
  | sysGpuInfoNo => sysGpuInfo L args.arg0
  | sysGpuFlushNo => sysGpuFlush
  | sysGetEventNo => sysGetEvent L args.arg0
  | sysWmctlNo => sysWmctl args.arg0 args.arg1
  | sysExecNo => sysExec L args.arg0 args.arg1
  | _ => fun s => .ok (-1, s)

/-- `syscall_dispatch`. -/
def syscallDispatch (number : UInt32) (args : SyscallArgs) : SysCall SyscallResult := fun s =>
  match handler L number args s with
  | .error e => .error e
  | .ok (value, s) => .ok (⟨value, number.toNat = sysExecNo && value = 0⟩, s)

end Sugimotos.Syscall
