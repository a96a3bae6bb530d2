/-
# Runs of the ramfs

Any interleaving of file calls with the other calls of the kernel, together
with a history that the code does not keep: which incarnation of a file a slot
holds, which incarnation each descriptor was opened on, and every byte written
and every truncation, latest first.
-/

import Sugimotos.Fs.Ramfs
import Sugimotos.Proc.Life

namespace Sugimotos.Fs

open Sugimotos.Mm Sugimotos.Proc

/-- What happened to a file. -/
inductive Event
  | write (file pos : Nat) (byte : UInt8)
  | truncate (file : Nat)
  deriving DecidableEq, Repr

/-- The file an event is about. -/
def Event.file : Event → Nat
  | .write file _ _ => file
  | .truncate file => file

/-- The byte most recently written at a position of a file, if any. -/
def lastWritten (file pos : Nat) : List Event → Option UInt8
  | [] => none
  | .write f p b :: rest => if f = file ∧ p = pos then some b else lastWritten file pos rest
  | .truncate _ :: rest => lastWritten file pos rest

/-- The byte most recently written at a position since the file was last
truncated, if any. -/
def writtenSince (file pos : Nat) : List Event → Option UInt8
  | [] => none
  | .write f p b :: rest => if f = file ∧ p = pos then some b else writtenSince file pos rest
  | .truncate f :: rest => if f = file then none else writtenSince file pos rest

/-- The history of a run.  Incarnations are numbered in the order of creation. -/
structure History where
  born : Nat
  incarnation : Fin ramfsMaxFiles → Nat
  opened : Fin procMax → Fin fdMax → Nat
  events : List Event

/-- A state with its history. -/
structure Traced where
  sys : System
  hist : History

/-- The events of a write of `n` bytes of `src` at `offset`. -/
def writeEvents (file offset n : Nat) (src : Nat → UInt8) : List Event :=
  (List.range n).map fun j => .write file (offset + j) (src j)

/-- The history after `fs_init`: the text of the first file counts as written. -/
def History.init : History where
  born := 1
  incarnation := fun _ => 0
  opened := fun _ _ => 0
  events := writeEvents 0 0 readmeText.length fun j => readmeText.getD j 0

/-- A file created by the open gets the next number. -/
def History.create (h : History) (i : Fin ramfsMaxFiles) : History :=
  { h with born := h.born + 1, incarnation := Function.update h.incarnation i h.born }

/-- The descriptor installed by an open. -/
def History.install (h : History) (k : Kernel) (file : Nat) : History :=
  match k.currentProc with
  | none => h
  | some p =>
      match allocFd (k.procs p) with
      | none => h
      | some fd =>
          { h with opened := Function.update h.opened p (Function.update (h.opened p) fd file) }

/-- The history after `fs_open`. -/
def recordOpen (path : Option (List UInt8)) (flags : Nat) (t : Traced) : History :=
  match normalizeName path with
  | none => t.hist
  | some name =>
      match ensureRamfsInode name flags t.sys.inodes with
      | none => t.hist
      | some (i, _) =>
          let h := if (findInodeByName t.sys.inodes name).isSome then t.hist else t.hist.create i
          let file := h.incarnation i
          let h := if flags &&& oTrunc ≠ 0 then { h with events := .truncate file :: h.events } else h
          h.install t.sys.kernel file

/-- The history after `fs_write`: as many bytes as the call reports. -/
def recordWrite (fd : Int) (buf : Nat) (src : Nat → UInt8) (len : Nat) (t : Traced) : History :=
  match getOpenFd fd t.sys.kernel with
  | none => t.hist
  | some (p, i) =>
      let d := (t.sys.kernel.procs p).fds i
      match FileDesc.slot d with
      | none => t.hist
      | some slot =>
          let count := (fsWrite fd buf src len t.sys).1.toNat
          let offset := writeOffset d (t.sys.inodes slot)
          { t.hist with
            events := writeEvents (t.hist.opened p i) offset count src ++ t.hist.events }

/-- A slot of the process table that was free can only get descriptors by a fork
of the current process, which copies them. -/
def inherit (k : Kernel) (opened : Fin procMax → Fin fdMax → Nat) : Fin procMax → Fin fdMax → Nat :=
  match k.currentProc with
  | none => opened
  | some c => fun p => if (k.procs p).state = .unused then opened c else opened p

/-- The operations of a run. -/
inductive FsOp
  | kernel (op : Op)
  | fsOpen (path : Option (List UInt8)) (flags : UInt32)
  | fsClose (fd : Int)
  | fsRead (fd : Int) (buf len : UInt32)
  | fsWrite (fd : Int) (buf : UInt32) (src : Nat → UInt8) (len : UInt32)
  | fsUnlink (path : Option (List UInt8))
  | fsRename (oldPath newPath : Option (List UInt8))

/-- Whether an operation can happen next. -/
def FsOp.enabled (t : Traced) : FsOp → Bool
  | .kernel op => Proc.enabled t.sys.kernel op
  | _ => t.sys.kernel.running.isSome

/-- What an operation does. -/
def fsStep (L : Layout) (op : FsOp) (t : Traced) : Except Stop Traced :=
  match op with
  | .kernel op =>
      (step L op t.sys.kernel).map fun k =>
        ⟨{ t.sys with kernel := k },
          { t.hist with opened := inherit t.sys.kernel t.hist.opened }⟩
  | .fsOpen path flags => .ok ⟨(fsOpen path flags.toNat t.sys).2, recordOpen path flags.toNat t⟩
  | .fsClose fd => .ok { t with sys := (fsClose fd t.sys).2 }
  | .fsRead fd buf len => .ok { t with sys := (fsRead fd buf.toNat len.toNat t.sys).2.2 }
  | .fsWrite fd buf src len =>
      .ok ⟨(fsWrite fd buf.toNat src len.toNat t.sys).2,
        recordWrite fd buf.toNat src len.toNat t⟩
  | .fsUnlink path => .ok { t with sys := (fsUnlink path t.sys).2 }
  | .fsRename oldPath newPath => .ok { t with sys := (fsRename oldPath newPath t.sys).2 }

/-- The states of a run whose steps all meet the condition `ok`. -/
inductive FsReachable (L : Layout) (ok : Traced → FsOp → Prop) : Traced → Prop
  | boot {mem mmu k} (h : boot L mem mmu = some k) : FsReachable L ok ⟨⟨k, fsInit⟩, .init⟩
  | step {t t'} (op : FsOp) (ht : FsReachable L ok t) (hop : op.enabled t = true) (hok : ok t op)
      (h : fsStep L op t = .ok t') : FsReachable L ok t'

/-- A list of operations, each of which can happen and passes the check when its
turn comes. -/
def fsRun (L : Layout) (check : Traced → FsOp → Bool) : List FsOp → Traced → Option Traced
  | [], t => some t
  | op :: ops, t =>
      if op.enabled t && check t op then
        match fsStep L op t with
        | .ok t' => fsRun L check ops t'
        | .error _ => none
      else none

theorem FsReachable.run {L : Layout} {ok : Traced → FsOp → Prop} {check : Traced → FsOp → Bool}
    (hcheck : ∀ t op, check t op = true → ok t op) {ops : List FsOp} {t t' : Traced}
    (ht : FsReachable L ok t) (h : fsRun L check ops t = some t') : FsReachable L ok t' := by
  induction ops generalizing t with
  | nil =>
      cases h
      exact ht
  | cons op ops ih =>
      unfold fsRun at h
      split at h
      · rename_i hop
        rw [Bool.and_eq_true] at hop
        split at h
        · rename_i t₁ hstep
          exact ih (ht.step op hop.1 (hcheck t op hop.2) hstep) h
        · cases h
      · cases h

/-- The small machine with its files, after the given operations. -/
def smallFs (check : Traced → FsOp → Bool) (ops : List FsOp) : Option Traced :=
  smallBoot.bind fun k => fsRun smallLayout check ops ⟨⟨k, fsInit⟩, .init⟩

theorem smallFs_reachable {ok : Traced → FsOp → Prop} {check : Traced → FsOp → Bool}
    (hcheck : ∀ t op, check t op = true → ok t op) {ops : List FsOp} {t : Traced}
    (h : smallFs check ops = some t) : FsReachable smallLayout ok t := by
  obtain ⟨k, hk, hrun⟩ := Option.bind_eq_some_iff.mp h
  exact (FsReachable.boot hk).run hcheck hrun

/-! ## Reading the history -/

theorem lastWritten_append {file pos : Nat} (es rest : List Event) :
    lastWritten file pos (es ++ rest) =
      (lastWritten file pos es).or (lastWritten file pos rest) := by
  induction es with
  | nil => rfl
  | cons e es ih =>
      cases e with
      | write f p b =>
          simp only [List.cons_append, lastWritten]
          split
          · rfl
          · exact ih
      | truncate f => exact ih

/-- A position of a write finds its byte; other positions and files find nothing. -/
theorem lastWritten_writeEvents (file pos f offset n : Nat) (src : Nat → UInt8) :
    lastWritten file pos (writeEvents f offset n src) =
      if f = file ∧ offset ≤ pos ∧ pos < offset + n then some (src (pos - offset)) else none := by
  induction n with
  | zero =>
      rw [if_neg (by omega)]
      rfl
  | succ n ih =>
      have hsplit : writeEvents f offset (n + 1) src =
          writeEvents f offset n src ++ [.write f (offset + n) (src n)] := by
        simp [writeEvents, List.range_succ]
      rw [hsplit, lastWritten_append, ih]
      by_cases hf : f = file
      · by_cases hpos : pos = offset + n
        · subst hpos
          rw [if_neg (by omega), if_pos (by omega)]
          simp [lastWritten, hf]
        · by_cases hin : offset ≤ pos ∧ pos < offset + n
          · rw [if_pos ⟨hf, hin⟩, if_pos (by omega)]
            rfl
          · rw [if_neg (by omega), if_neg (by omega)]
            simp [lastWritten, Ne.symm hpos]
      · rw [if_neg (by tauto), if_neg (by tauto)]
        simp [lastWritten, hf]

/-- Writes alone do not truncate. -/
theorem writtenSince_append {file pos : Nat} {f offset n : Nat} {src : Nat → UInt8}
    (rest : List Event) :
    writtenSince file pos (writeEvents f offset n src ++ rest) =
      (lastWritten file pos (writeEvents f offset n src)).or (writtenSince file pos rest) := by
  unfold writeEvents
  induction (List.range n) with
  | nil => rfl
  | cons j js ih =>
      simp only [List.map_cons, List.cons_append, writtenSince, lastWritten]
      split
      · rfl
      · exact ih

/-- A file no event is about has not been written. -/
theorem lastWritten_eq_none {file pos : Nat} {es : List Event} (h : ∀ e ∈ es, e.file ≠ file) :
    lastWritten file pos es = none := by
  induction es with
  | nil => rfl
  | cons e es ih =>
      have hrest := ih fun e he => h e (List.mem_cons_of_mem _ he)
      have hhead := h e List.mem_cons_self
      cases e with
      | write f p b =>
          simp only [lastWritten]
          rw [if_neg fun hfp => hhead hfp.1]
          exact hrest
      | truncate f => exact hrest

theorem writtenSince_eq_none {file pos : Nat} {es : List Event} (h : ∀ e ∈ es, e.file ≠ file) :
    writtenSince file pos es = none := by
  induction es with
  | nil => rfl
  | cons e es ih =>
      have hrest := ih fun e he => h e (List.mem_cons_of_mem _ he)
      have hhead := h e List.mem_cons_self
      cases e with
      | write f p b =>
          simp only [writtenSince]
          rw [if_neg fun hfp => hhead hfp.1]
          exact hrest
      | truncate f =>
          have hne : f ≠ file := hhead
          simp only [writtenSince]
          rw [if_neg hne]
          exact hrest

end Sugimotos.Fs
