/-
# The ramfs

Model of `fs/fs.c`.  `fs_init` leaves `ext4_ready` false and nothing sets it, so
the calls below never reach the ext4 reader: `open_ext4_readonly` fails at its
first check, and `ext4_read_file` returns `-1` because nothing is mounted.  A C
string is the list of its bytes before the terminating zero.
-/

import Sugimotos.Proc.Process

namespace Sugimotos.Fs

open Sugimotos.Mm Sugimotos.Proc

abbrev ramfsMaxFiles : Nat := 32
abbrev ramfsNameMax : Nat := 32
abbrev ramfsDataMax : Nat := 1024

abbrev oRdonly : Nat := 0x0001
abbrev oWronly : Nat := 0x0002
abbrev oRdwr : Nat := 0x0003
abbrev oCreat : Nat := 0x0100
abbrev oTrunc : Nat := 0x0200
abbrev oAppend : Nat := 0x0400

/-- `'/'`. -/
abbrev slash : UInt8 := 47

/-- `struct ramfs_inode`. -/
structure RamfsInode where
  used : Bool
  name : List UInt8
  data : Nat → UInt8
  size : Nat

/-- An inode as `memset` to zero leaves it. -/
def RamfsInode.zero : RamfsInode := ⟨false, [], fun _ => 0, 0⟩

abbrev Inodes := Fin ramfsMaxFiles → RamfsInode

/-- The processes with their descriptors, and the inodes. -/
structure System where
  kernel : Kernel
  inodes : Inodes

/-! ## Names -/

/-- The copying loop of `normalize_name`; `none` is the `-1` return. -/
def nameLoop : List UInt8 → List UInt8 → Option (List UInt8)
  | [], name => some name
  | c :: rest, name =>
      if c = slash then none
      else if ramfsNameMax ≤ name.length + 1 then none
      else nameLoop rest (name ++ [c])

/-- `normalize_name`; a `NULL` path is `none`. -/
def normalizeName (path : Option (List UInt8)) : Option (List UInt8) :=
  match path with
  | none => none
  | some path =>
      if path = [] then none
      else
        let p := path.dropWhile (· = slash)
        if p = [] then none else nameLoop p []

/-- `find_inode_by_name`. -/
def findInodeByName (inodes : Inodes) (name : List UInt8) : Option (Fin ramfsMaxFiles) :=
  (List.finRange ramfsMaxFiles).find? fun i =>
    (inodes i).used && decide ((inodes i).name = name)

/-- `alloc_inode`. -/
def allocInode (inodes : Inodes) : Option (Fin ramfsMaxFiles) :=
  (List.finRange ramfsMaxFiles).find? fun i => !(inodes i).used

/-! ## Descriptors -/

/-- `alloc_fd`. -/
def allocFd (proc : Process) : Option (Fin fdMax) :=
  (List.finRange fdMax).find? fun i => !(proc.fds i).used

/-- `get_open_fd`: the index of a descriptor of the current process that is in use. -/
def getOpenFd (fd : Int) (k : Kernel) : Option (Fin procMax × Fin fdMax) :=
  match k.currentProc with
  | none => none
  | some p =>
      if h : 0 ≤ fd ∧ fd.toNat < fdMax then
        let i : Fin fdMax := ⟨fd.toNat, h.2⟩
        if ((k.procs p).fds i).used then some (p, i) else none
      else none

/-- One descriptor of a process overwritten. -/
def Kernel.setFd (k : Kernel) (p : Fin procMax) (i : Fin fdMax) (d : FileDesc) : Kernel :=
  k.setProc p { k.procs p with fds := Function.update (k.procs p).fds i d }

/-- `install_fd` for the current process. -/
def installFd (inode : Int) (flags offset : Nat) (k : Kernel) : Int × Kernel :=
  match k.currentProc with
  | none => (-1, k)
  | some p =>
      match allocFd (k.procs p) with
      | none => (-1, k)
      | some i => (i.val, Kernel.setFd k p i ⟨true, inode, offset, flags⟩)

/-! ## The calls -/

/-- `ensure_ramfs_inode`. -/
def ensureRamfsInode (name : List UInt8) (flags : Nat) (inodes : Inodes) :
    Option (Fin ramfsMaxFiles × Inodes) :=
  match findInodeByName inodes name with
  | some i => some (i, inodes)
  | none =>
      if flags &&& oCreat = 0 then none
      else
        match allocInode inodes with
        | none => none
        | some i =>
            some (i, Function.update inodes i { RamfsInode.zero with used := true, name := name })

/-- The bytes of a string literal. -/
def bytesOf (s : String) : List UInt8 := s.toList.map fun c => .ofNat c.toNat

/-- The text stored by `fs_init`. -/
def readmeText : List UInt8 := bytesOf "ramfs ready\n"

/-- `fs_init`: one file in the first slot. -/
def fsInit : Inodes :=
  Function.update (fun _ => RamfsInode.zero) 0
    { used := true
      name := bytesOf "README"
      data := fun p => readmeText.getD p 0
      size := readmeText.length }

/-- The line `if (flags & O_TRUNC) inodes[inode].size = 0;`. -/
def truncateIf (flags : Nat) (i : Fin ramfsMaxFiles) (inodes : Inodes) : Inodes :=
  if flags &&& oTrunc ≠ 0 then Function.update inodes i { inodes i with size := 0 } else inodes

/-- `fs_open`. -/
def fsOpen (path : Option (List UInt8)) (flags : Nat) (s : System) : Int × System :=
  match normalizeName path with
  | none => (-1, s)
  | some name =>
      match ensureRamfsInode name flags s.inodes with
      | none => (-1, s)
      | some (i, inodes) =>
          let inodes := truncateIf flags i inodes
          let offset := if flags &&& oAppend ≠ 0 then (inodes i).size else 0
          let (fd, k) := installFd i.val flags offset s.kernel
          (fd, ⟨k, inodes⟩)

/-- `fs_close`. -/
def fsClose (fd : Int) (s : System) : Int × System :=
  match getOpenFd fd s.kernel with
  | none => (-1, s)
  | some (p, i) => (0, { s with kernel := Kernel.setFd s.kernel p i .zero })

/-- The slot of a descriptor on the ramfs; an ext4 descriptor has a negative one. -/
def FileDesc.slot (d : FileDesc) : Option (Fin ramfsMaxFiles) :=
  if h : 0 ≤ d.inode ∧ d.inode.toNat < ramfsMaxFiles then some ⟨d.inode.toNat, h.2⟩ else none

/-- `fs_read`: the result, and the bytes copied to `buf` on success. -/
def fsRead (fd : Int) (buf len : Nat) (s : System) : Int × List UInt8 × System :=
  if buf = 0 then (-1, [], s)
  else
    match getOpenFd fd s.kernel with
    | none => (-1, [], s)
    | some (p, i) =>
        let d := (s.kernel.procs p).fds i
        if d.flags &&& 3 = oWronly then (-1, [], s)
        else
          match FileDesc.slot d with
          | none => (-1, [], s)
          | some slot =>
              let inode := s.inodes slot
              if inode.size ≤ d.offset then (0, [], s)
              else
                let remain := inode.size - d.offset
                let n := if len < remain then len else remain
                ((n : Int), (List.range n).map fun j => inode.data (d.offset + j),
                  { s with kernel := Kernel.setFd s.kernel p i { d with offset := d.offset + n } })

/-- `memcpy(&data[offset], buf, n)`. -/
def storeBytes (data : Nat → UInt8) (offset n : Nat) (src : Nat → UInt8) : Nat → UInt8 :=
  fun p => if offset ≤ p ∧ p < offset + n then src (p - offset) else data p

/-- Where a write through a descriptor starts. -/
def writeOffset (d : FileDesc) (inode : RamfsInode) : Nat :=
  if d.flags &&& oAppend ≠ 0 then inode.size else d.offset

/-- How many bytes a write of `len` bytes at `offset` stores. -/
def writeCount (offset len : Nat) : Nat :=
  if len < ramfsDataMax - offset then len else ramfsDataMax - offset

/-- `fs_write` of the bytes `src` at address `buf`. -/
def fsWrite (fd : Int) (buf : Nat) (src : Nat → UInt8) (len : Nat) (s : System) : Int × System :=
  if buf = 0 then (-1, s)
  else
    match getOpenFd fd s.kernel with
    | none => (-1, s)
    | some (p, i) =>
        let d := (s.kernel.procs p).fds i
        match FileDesc.slot d with
        | none => (-1, s)
        | some slot =>
            if ¬ (d.flags &&& 3 = oWronly ∨ d.flags &&& 3 = oRdwr) then (-1, s)
            else
              let inode := s.inodes slot
              let offset := writeOffset d inode
              if ramfsDataMax ≤ offset then
                (0, { s with kernel := Kernel.setFd s.kernel p i { d with offset := offset } })
              else
                let n := writeCount offset len
                ((n : Int),
                  { kernel := Kernel.setFd s.kernel p i { d with offset := offset + n }
                    inodes := Function.update s.inodes slot { inode with
                      data := storeBytes inode.data offset n src
                      size := if inode.size < offset + n then offset + n else inode.size } })

/-- The loop of `fs_unlink` over the descriptors of every process. -/
def revoke (inode : Int) (procs : Fin procMax → Process) : Fin procMax → Process := fun p =>
  { procs p with fds := fun fd =>
      let d := (procs p).fds fd
      if d.used = true ∧ d.inode = inode then { d with used := false } else d }

/-- `fs_unlink`. -/
def fsUnlink (path : Option (List UInt8)) (s : System) : Int × System :=
  match normalizeName path with
  | none => (-1, s)
  | some name =>
      match findInodeByName s.inodes name with
      | none => (-1, s)
      | some i =>
          (0, { kernel := { s.kernel with procs := revoke i.val s.kernel.procs }
                inodes := Function.update s.inodes i .zero })

/-- `fs_rename`. -/
def fsRename (oldPath newPath : Option (List UInt8)) (s : System) : Int × System :=
  match normalizeName oldPath, normalizeName newPath with
  | some oldName, some newName =>
      if oldName = newName then (0, s)
      else
        match findInodeByName s.inodes oldName with
        | none => (-1, s)
        | some i =>
            match findInodeByName s.inodes newName with
            | some _ => (-1, s)
            | none =>
                (0, { s with inodes :=
                  Function.update s.inodes i { s.inodes i with name := newName } })
  | _, _ => (-1, s)

end Sugimotos.Fs
