/-
# What a process sees

A process does not see pages, frames, faults or page tables.  `Flat` is what it does see: the
bytes it can read, the addresses it may write, the files, its descriptors, the devices.  Its
loads, its stores, its page faults and those of its system calls that do not concern processes
or the address space behave as they would on this flat machine.
-/

import Sugimotos.Proc.UserReach
import Sugimotos.Syscall.Runs

namespace Sugimotos.Syscall

open Sugimotos.Math Sugimotos.Mm Sugimotos.Proc Sugimotos.Fs Sugimotos.Event

/-! ## The flat machine -/

/-- The files and the descriptors of all processes, with no machine below. -/
structure Files where
  inodes : Inodes
  current : Option (Fin procMax)
  fds : Fin procMax → Fin fdMax → FileDesc

/-- The files of a system. -/
def Files.of (s : System) : Files where
  inodes := s.inodes
  current := s.kernel.currentProc
  fds := fun p => (s.kernel.procs p).fds

/-- A memory of zeros that nobody manages. -/
def noMemory : Phys where
  alloc := ⟨[], [], 0, 0, false, fun _ => 0, 0, false⟩
  mem := fun _ => zeroPage
  mmu := ⟨0, [], fun _ => [], 0⟩

/-- A system with nothing in it but files. -/
def Files.bare (f : Files) : System where
  kernel :=
    { phys := noMemory
      procs := fun p => { Process.unused with fds := f.fds p }
      currentProc := f.current
      idleProc := none
      kernelRootPt := 0
      kernelSatpValue := 0
      touched := [] }
  inodes := f.inodes

/-- What a process sees. -/
structure Flat where
  files : Files
  mem : View
  prot : Nat → Option Nat
  events : Kevents
  sbi : Sbi
  display : Display
  pad : UInt32

/-- What process `i` sees of the system. -/
def Flat.of (i : Fin procMax) (s : Os) : Flat where
  files := .of s.files
  mem := s.kernel.view i
  prot := protMap (s.kernel.procs i).vmas
  events := s.events
  sbi := s.sbi
  display := s.display
  pad := s.pad

namespace Flat

/-- All of the `len` addresses from `addr` on may be accessed in one way. -/
def allows (f : Flat) (addr len need : Nat) : Prop :=
  addr + len < 4294967296 ∧
    ∀ a, addr ≤ a → a < addr + len → ∃ prot, f.prot a = some prot ∧ prot &&& need = need

/-- A call of the file system. -/
def file (call : System → Int × System) (f : Flat) : Int × Flat :=
  ((call f.files.bare).1, { f with files := .of (call f.files.bare).2 })

/-- A call with a path, which ends before the end of the buffer for it. -/
def withPath (ptr : UInt32) (call : List UInt8 → Flat → Int × Flat) (f : Flat) : Int × Flat :=
  match (if ptr.toNat = 0 then none else f.mem.cstr ptr.toNat userPathMax 0) with
  | none => (-1, f)
  | some kpath => call kpath f

section Buffers

open Classical

/-- A call with a buffer of the process, which may be anything when it has no bytes. -/
noncomputable def withBuffer (addr len : UInt32) (need : Nat) (call : Flat → Int × Flat) (f : Flat) :
    Int × Flat :=
  if len = 0 ∨ f.allows addr.toNat len.toNat need then call f else (-1, f)

/-- Bytes for the process. -/
def store (addr : UInt32) (bytes : List UInt8) (f : Flat) : Flat :=
  { f with mem := f.mem.write addr.toNat bytes }

def read (fd : Int) (buf len : UInt32) (f : Flat) : Int × Flat :=
  let out := fsRead fd buf.toNat len.toNat f.files.bare
  (out.1, { f with files := .of out.2.2 }.store buf out.2.1)

/-- The bytes that a write finds in the memory of the process. -/
def source (f : Flat) (buf : UInt32) : Nat → UInt8 := fun j => (f.mem (buf.toNat + j)).getD 0

def write (fd : Int) (buf len : UInt32) (f : Flat) : Int × Flat :=
  f.file (fsWrite fd buf.toNat (f.source buf) len.toNat)

def listdir (buf len : UInt32) (f : Flat) : Int × Flat :=
  let out := fsListdir buf.toNat len.toNat f.files.inodes
  (out.1, f.store buf out.2)

/-- A call that fills in a structure of the process. -/
noncomputable def fillIn (addr : UInt32) (bytes : List UInt8) (f : Flat) : Int × Flat :=
  if addr ≠ 0 ∧ f.allows addr.toNat bytes.length vmaProtW then (0, f.store addr bytes) else (-1, f)

/-- The next event goes to the process; it stays in the queue when there is no place for it. -/
noncomputable def getEvent (addr : UInt32) (f : Flat) : Int × Flat :=
  if addr ≠ 0 ∧ f.allows addr.toNat sysEventSize vmaProtW then
    match keventPop (some ⟨0, 0, 0, 0, 0, 0⟩) f.events with
    | (result, some event, events) =>
        if result ≤ 0 then (result, { f with events := events })
        else (1, { f with events := events }.store addr (sysEventBytes f.pad event))
    | (result, none, events) => (result, { f with events := events })
  else (-1, f)

/-- The calls that concern neither processes nor the address space. -/
noncomputable def call (number : UInt32) (args : SyscallArgs) : Option (Flat → Int × Flat) :=
  match number.toNat with
  | sysPutcharNo => some fun f => (0, { f with sbi := putchar args.arg0.toUInt8 f.sbi })
  | sysGetcharNo => some fun f => ((getchar f.sbi).1, { f with sbi := (getchar f.sbi).2 })
  | sysYieldNo => some fun f => (0, f)
  | sysExitNo => none
  | sysForkNo => none
  | sysWaitNo => none
  | sysWaitpidNo => none
  | sysOpenNo =>
      some (withPath args.arg0 fun kpath => file (fsOpen (some kpath) args.arg1.toNat))
  | sysCloseNo => some (file (fsClose args.arg0.toInt32.toInt))
  | sysReadNo =>
      some (withBuffer args.arg1 args.arg2 vmaProtW
        (read args.arg0.toInt32.toInt args.arg1 args.arg2))
  | sysWriteNo =>
      some (withBuffer args.arg1 args.arg2 vmaProtR
        (write args.arg0.toInt32.toInt args.arg1 args.arg2))
  | sysUnlinkNo => some (withPath args.arg0 fun kpath => file (fsUnlink (some kpath)))
  | sysRenameNo =>
      some (withPath args.arg0 fun koldPath =>
        withPath args.arg1 fun knewPath => file (fsRename (some koldPath) (some knewPath)))
  | sysListdirNo =>
      some (withBuffer args.arg0 args.arg1 vmaProtW (listdir args.arg0 args.arg1))
  | sysMmapNo => none
  | sysMunmapNo => none
  | sysGpuInfoNo => some fun f => f.fillIn args.arg0 (gpuInfoBytes f.display)
  | sysGpuFlushNo =>
      some fun f =>
        if f.display.ready then
          (0, { f with display := { f.display with presented := f.display.presented + 1 } })
        else (-1, f)
  | sysGetEventNo => some (getEvent args.arg0)
  | sysExecNo => none
  | _ => some fun f => (-1, f)

end Buffers

end Flat

/-! ## Systems with the same files -/

/-- Two systems with the same files, which no file call tells apart. -/
def Alike (s s' : System) : Prop := Files.of s = Files.of s'

namespace Alike

variable {s s' : System}

theorem bare (s : System) : Alike s (Files.of s).bare := rfl

theorem inodes (h : Alike s s') : s.inodes = s'.inodes := congrArg Files.inodes h

theorem current (h : Alike s s') : s.kernel.currentProc = s'.kernel.currentProc :=
  congrArg Files.current h

theorem fds (h : Alike s s') (p : Fin procMax) :
    (s.kernel.procs p).fds = (s'.kernel.procs p).fds :=
  congrFun (congrArg Files.fds h) p

theorem of_parts {k k' : Kernel} {inodes inodes' : Inodes} (hinodes : inodes = inodes')
    (hcurrent : k.currentProc = k'.currentProc)
    (hfds : ∀ p, (k.procs p).fds = (k'.procs p).fds) : Alike ⟨k, inodes⟩ ⟨k', inodes'⟩ := by
  unfold Alike Files.of
  dsimp only
  rw [hinodes, hcurrent, funext hfds]

theorem withInodes (h : Alike s s') (inodes : Inodes) :
    Alike { s with inodes := inodes } { s' with inodes := inodes } :=
  of_parts rfl h.current h.fds

theorem setFd (h : Alike s s') (p : Fin procMax) (i : Fin fdMax) (d : FileDesc) (inodes : Inodes) :
    Alike ⟨Kernel.setFd s.kernel p i d, inodes⟩ ⟨Kernel.setFd s'.kernel p i d, inodes⟩ := by
  refine of_parts rfl h.current fun q => ?_
  unfold Kernel.setFd
  by_cases hq : q = p
  · subst hq
    rw [Kernel.setProc_self, Kernel.setProc_self]
    dsimp only
    rw [h.fds q]
  · rw [Kernel.setProc_other _ _ hq, Kernel.setProc_other _ _ hq]
    exact h.fds q

theorem getOpenFd (h : Alike s s') (fd : Int) :
    Fs.getOpenFd fd s.kernel = Fs.getOpenFd fd s'.kernel := by
  unfold Fs.getOpenFd
  simp only [h.current, h.fds]

/-- A file call that gives the same on systems with the same files. -/
def Same {α : Type} (out out' : α × System) : Prop := out.1 = out'.1 ∧ Alike out.2 out'.2

theorem installFd (h : Alike s s') (inode : Int) (flags offset : Nat) (inodes : Inodes) :
    Same ((Fs.installFd inode flags offset s.kernel).1,
        ⟨(Fs.installFd inode flags offset s.kernel).2, inodes⟩)
      ((Fs.installFd inode flags offset s'.kernel).1,
        ⟨(Fs.installFd inode flags offset s'.kernel).2, inodes⟩) := by
  have halloc : ∀ p, allocFd (s.kernel.procs p) = allocFd (s'.kernel.procs p) := by
    intro p
    unfold allocFd
    rw [h.fds p]
  unfold Fs.installFd
  rw [h.current]
  cases s'.kernel.currentProc with
  | none => exact ⟨rfl, h.withInodes inodes⟩
  | some p =>
      dsimp only
      rw [halloc p]
      cases allocFd (s'.kernel.procs p) with
      | none => exact ⟨rfl, h.withInodes inodes⟩
      | some i => exact ⟨rfl, h.setFd p i _ inodes⟩

theorem fsOpen (h : Alike s s') (path : Option (List UInt8)) (flags : Nat) :
    Same (Fs.fsOpen path flags s) (Fs.fsOpen path flags s') := by
  unfold Fs.fsOpen
  rw [h.inodes]
  split
  · exact ⟨rfl, h⟩
  · split
    · exact ⟨rfl, h⟩
    · exact h.installFd ..

theorem fsClose (h : Alike s s') (fd : Int) : Same (Fs.fsClose fd s) (Fs.fsClose fd s') := by
  unfold Fs.fsClose
  rw [h.getOpenFd, h.inodes]
  split
  · exact ⟨rfl, h⟩
  · exact ⟨rfl, h.setFd ..⟩

theorem fsUnlink (h : Alike s s') (path : Option (List UInt8)) :
    Same (Fs.fsUnlink path s) (Fs.fsUnlink path s') := by
  unfold Fs.fsUnlink
  rw [h.inodes]
  split
  · exact ⟨rfl, h⟩
  · split
    · exact ⟨rfl, h⟩
    · refine ⟨rfl, of_parts rfl h.current fun p => ?_⟩
      unfold revoke
      dsimp only
      rw [h.fds p]

theorem fsRename (h : Alike s s') (oldPath newPath : Option (List UInt8)) :
    Same (Fs.fsRename oldPath newPath s) (Fs.fsRename oldPath newPath s') := by
  unfold Fs.fsRename
  rw [h.inodes]
  split
  · split
    · exact ⟨rfl, h⟩
    split
    · exact ⟨rfl, h⟩
    split
    · exact ⟨rfl, h⟩
    · exact ⟨rfl, h.withInodes _⟩
  · exact ⟨rfl, h⟩

theorem fsWrite (h : Alike s s') (fd : Int) (buf : Nat) (src : Nat → UInt8) (len : Nat) :
    Same (Fs.fsWrite fd buf src len s) (Fs.fsWrite fd buf src len s') := by
  unfold Fs.fsWrite
  rw [h.getOpenFd, h.inodes]
  split
  · exact ⟨rfl, h⟩
  split
  · exact ⟨rfl, h⟩
  rename_i p i hget
  dsimp only
  rw [h.fds p]
  split
  · exact ⟨rfl, h⟩
  split
  · exact ⟨rfl, h⟩
  split
  · exact ⟨rfl, h.setFd ..⟩
  · exact ⟨rfl, h.setFd ..⟩

/-- Reads give the same bytes, too. -/
theorem fsRead (h : Alike s s') (fd : Int) (buf len : Nat) :
    (Fs.fsRead fd buf len s).1 = (Fs.fsRead fd buf len s').1 ∧
      (Fs.fsRead fd buf len s).2.1 = (Fs.fsRead fd buf len s').2.1 ∧
      Alike (Fs.fsRead fd buf len s).2.2 (Fs.fsRead fd buf len s').2.2 := by
  unfold Fs.fsRead
  rw [h.getOpenFd, h.inodes]
  split
  · exact ⟨rfl, rfl, h⟩
  split
  · exact ⟨rfl, rfl, h⟩
  rename_i p i hget
  dsimp only
  rw [h.fds p]
  split
  · exact ⟨rfl, rfl, h⟩
  split
  · exact ⟨rfl, rfl, h⟩
  split
  · exact ⟨rfl, rfl, h⟩
  · exact ⟨rfl, rfl, h.setFd ..⟩

end Alike

end Sugimotos.Syscall
