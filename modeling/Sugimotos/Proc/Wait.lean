/-
# Waiting for children

Model of `sys_wait` and `sys_waitpid` with their blocking, over runs that
interleave them at yield points with every other call.  A blocked call is
remembered with its arguments; when its process runs again it marks itself
runnable and scans the table once more.  The ledger beside a run records which
incarnation exited with which status and which incarnations were reaped.
-/

import Sugimotos.Proc.Parentage

namespace Sugimotos.Proc

open Sugimotos.Mm

/-! ## The calls -/

/-- The arguments of a `sys_waitpid` call. -/
structure WaitCall where
  pid : Int
  statusPtr : UInt32
  options : UInt32
  deriving DecidableEq, Repr

/-- The four bytes of an `int`, lowest first. -/
def intBytes (value : Int) : List UInt8 :=
  (List.range 4).map fun i => .ofNat ((value % 4294967296).toNat / 256 ^ i % 256)

variable (L : Layout)

/-- `memcpy` to user memory. -/
def storeAll (dst : Nat) : List UInt8 → Kernel → Except Halt Kernel
  | [], k => .ok k
  | byte :: rest, k =>
      match storeByte L dst byte k with
      | .error e => .error e
      | .ok k => storeAll (u32 (dst + 1)) rest k

/-- `copy_to_user` from a kernel buffer; `false` is the `-1` return. -/
def copyToUser (dst : Nat) (src : List UInt8) (k : Kernel) : Except Halt (Bool × Kernel) :=
  if src.length = 0 then .ok (true, k)
  else if dst = 0 ∨ ¬ procUserWritableOk k dst src.length then .ok (false, k)
  else
    match storeAll L dst src k with
    | .error e => .error e
    | .ok k => .ok (true, k)

/-- How far a `sys_waitpid` call gets before it gives up the processor. -/
inductive WaitOut
  | stop (e : Stop) (touched : List UserTouch)
  | blocked (k : Kernel)
  | returned (result : Int) (k : Kernel)
  | exited (k : Kernel)

/-- The rest of `sys_waitpid` once `proc_waitpid` has returned a pid. -/
def deliver (call : WaitCall) (pid status : Int) (k : Kernel) : WaitOut :=
  if 0 < pid ∧ call.statusPtr ≠ 0 then
    match copyToUser L call.statusPtr.toNat (intBytes status) k with
    | .error (.stop e touched) => .stop e touched
    | .error (.exited k) => .exited k
    | .ok (false, k) => .returned (-1) k
    | .ok (true, k) => .returned pid k
  else .returned pid k

/-- One pass of the loop of `proc_waitpid` inside `sys_waitpid`. -/
def waitPass (self : Fin procMax) (call : WaitCall) (k : Kernel) : WaitOut :=
  match waitpidScan L call.pid self k with
  | .error e => .stop (.panic e) k.touched
  | .ok (.reaped pid status, k) => deliver L call pid status k
  | .ok (.noChild, k) => .returned (-1) k
  | .ok (.noZombie, k) =>
      if call.options &&& wnohang ≠ 0 then .returned 0 k
      else .blocked (k.setProc self { k.procs self with state := .blocked })

/-- `sys_waitpid` from its start. -/
def sysWaitpid (self : Fin procMax) (call : WaitCall) (k : Kernel) : WaitOut :=
  if call.statusPtr ≠ 0 ∧ ¬ procUserWritableOk k call.statusPtr.toNat 4 then .returned (-1) k
  else if call.options &&& ~~~wnohang ≠ 0 then .returned (-1) k
  else waitPass L self call k

/-- `sys_wait`. -/
def sysWait (self : Fin procMax) (statusPtr : UInt32) (k : Kernel) : WaitOut :=
  sysWaitpid L self ⟨-1, statusPtr, 0⟩ k

/-- `sys_waitpid` after `yield` has returned to it. -/
def resumeWait (self : Fin procMax) (call : WaitCall) (k : Kernel) : WaitOut :=
  waitPass L self call (k.setProc self { k.procs self with state := .runnable })

/-! ## Runs -/

/-- Who exited, with the status given to `proc_exit`, and who was reaped; latest
first. -/
structure Ledger where
  born : Nat
  incarnation : Fin procMax → Nat
  exits : List (Nat × Int)
  reaped : List Nat

def Ledger.init : Ledger := ⟨procMax, fun j => j.val, [], []⟩

/-- The slots in which a process became a zombie. -/
def newZombies (k k' : Kernel) : List (Fin procMax) :=
  (List.finRange procMax).filter fun j =>
    decide ((k.procs j).state ≠ .zombie) && decide ((k'.procs j).state = .zombie)

/-- The slots in which a zombie was reaped. -/
def newlyReaped (k k' : Kernel) : List (Fin procMax) :=
  (List.finRange procMax).filter fun j =>
    decide ((k.procs j).state = .zombie) && decide ((k'.procs j).state = .unused)

/-- The ledger after a call in which any exit was a `proc_exit(status)`. -/
def Ledger.after (g : Ledger) (status : Int) (k k' : Kernel) : Ledger where
  born := g.born + 1
  incarnation j := if filled k k' j then g.born else g.incarnation j
  exits := (newZombies k k').map (fun j => (g.incarnation j, status)) ++ g.exits
  reaped := (newlyReaped k k').map g.incarnation ++ g.reaped

/-- The kernel, the calls of `sys_waitpid` that are blocked, and the ledger. -/
structure WaitState where
  kernel : Kernel
  waiting : Fin procMax → Option WaitCall
  ledger : Ledger

/-- The operations of a run. -/
inductive WaitOp
  | kernel (op : Op)
  /-- A blocked process is made runnable for any reason. -/
  | wake (i : Fin procMax)
  /-- The current process blocks for a reason other than its children. -/
  | sleep
  | sysWaitpid (call : WaitCall)
  /-- The current process comes back from the `yield` inside `proc_waitpid`. -/
  | resume

/-- The current process is not inside a blocked `sys_waitpid`. -/
def WaitState.free (s : WaitState) : Bool :=
  match s.kernel.currentProc with
  | none => true
  | some i => (s.waiting i).isNone

/-- The caller of `sys_waitpid`, a system call, is a user process, unless the kernel itself waits
and wants no status. -/
def WaitCall.mayCall (call : WaitCall) (proc : Process) : Bool :=
  decide (call.statusPtr = 0) || proc.isUser

/-- Whether an operation can happen next.  Waiting is done by `sysWaitpid`. -/
def WaitOp.enabled (s : WaitState) : WaitOp → Bool
  | .kernel (.waitpid _ _) => false
  | .kernel (.switchTo next) => Proc.enabled s.kernel (.switchTo next)
  | .kernel op => Proc.enabled s.kernel op && s.free
  | .wake _ => true
  | .sleep => s.kernel.running.isSome && s.free
  | .sysWaitpid call => s.kernel.running.any (fun i => call.mayCall (s.kernel.procs i)) && s.free
  | .resume => !s.free

/-- The state a pass of `sys_waitpid` by process `i` leaves. -/
def settleWait (s : WaitState) (i : Fin procMax) (call : WaitCall) : WaitOut → Except Stop WaitState
  | .stop e _ => .error e
  | .blocked k => .ok ⟨k, Function.update s.waiting i (some call), s.ledger.after 128 s.kernel k⟩
  | .returned _ k => .ok ⟨k, Function.update s.waiting i none, s.ledger.after 128 s.kernel k⟩
  | .exited k => .ok ⟨k, Function.update s.waiting i none, s.ledger.after 128 s.kernel k⟩

/-- What an operation does. -/
def waitStep (op : WaitOp) (s : WaitState) : Except Stop WaitState :=
  match op with
  | .kernel op =>
      (step L op s.kernel).map fun k =>
        { s with kernel := k, ledger := s.ledger.after (exitArg op) s.kernel k }
  | .wake i =>
      (step L (.wake i) s.kernel).map fun k =>
        { s with kernel := k, ledger := s.ledger.after 128 s.kernel k }
  | .sleep =>
      match s.kernel.running with
      | none => .ok s
      | some i =>
          let k := s.kernel.setProc i { s.kernel.procs i with state := .blocked }
          .ok { s with kernel := k, ledger := s.ledger.after 128 s.kernel k }
  | .sysWaitpid call =>
      match s.kernel.running with
      | none => .ok s
      | some i => settleWait s i call (sysWaitpid L i call s.kernel)
  | .resume =>
      match s.kernel.currentProc with
      | none => .ok s
      | some i =>
          match s.waiting i with
          | none => .ok s
          | some call => settleWait s i call (resumeWait L i call s.kernel)

/-- The states of a run. -/
inductive WaitReachable : WaitState → Prop
  | boot {mem mmu k} (h : boot L mem mmu = some k) : WaitReachable ⟨k, fun _ => none, .init⟩
  | step {s s'} (op : WaitOp) (hs : WaitReachable s) (hop : op.enabled s = true)
      (h : waitStep L op s = .ok s') : WaitReachable s'

/-! ## The ledger -/

/-- What a call may do to the states of the processes, if any exit in it is a
`proc_exit(status)`. -/
structure Moves (status : Int) (k k' : Kernel) : Prop where
  filledOnce : ∀ i j, filled k k' i → filled k k' j → i = j
  /-- A zombie was one before, or its process exited just now. -/
  zombie : ∀ j, (k'.procs j).state = .zombie →
    (k.procs j).state = .zombie ∧ (k'.procs j).exitStatus = (k.procs j).exitStatus ∨
    (k.procs j).state ≠ .zombie ∧ (k.procs j).state ≠ .unused ∧ (k'.procs j).exitStatus = status
  /-- Only a zombie's slot becomes free. -/
  gone : ∀ j, (k'.procs j).state = .unused →
    (k.procs j).state = .unused ∨ (k.procs j).state = .zombie
  stays : ∀ j, (k.procs j).state = .zombie →
    (k'.procs j).state = .zombie ∨ (k'.procs j).state = .unused

theorem Change.moves {status : Int} {k k' : Kernel} (h : Change status k k') :
    Moves status k k' := by
  constructor
  · intro i j hi hj
    cases h.slot i with
    | same life vmas => exact absurd ((congrArg Life.state life).trans hi.1) hi.2
    | woken old new => exact absurd (old.symm.trans hi.1) nofun
    | blocked old new =>
        exact absurd ((Kernel.running_eq_some.mp old).2.symm.trans hi.1) nofun
    | filled parentPid isUser fds old life others parent =>
        by_contra hne
        refine hj.2 ?_
        rw [others j (Ne.symm hne)]
        exact hj.1
    | cleared old new => exact absurd (congrArg Process.state new) hi.2
    | died running procs =>
        exact absurd ((Kernel.running_eq_some.mp running).2.symm.trans hi.1) nofun
    | reaped old new => exact absurd (congrArg Process.state new) hi.2
  · intro j hj
    cases h.slot j with
    | same life vmas =>
        have hstate := congrArg Life.state life
        exact Or.inl ⟨hstate.symm.trans hj, congrArg Life.exitStatus life⟩
    | woken old new => exact absurd ((congrArg Process.state new).symm.trans hj) nofun
    | blocked old new => exact absurd ((congrArg Process.state new).symm.trans hj) nofun
    | filled parentPid isUser fds old life others parent =>
        exact absurd ((congrArg Life.state life).symm.trans hj) nofun
    | cleared old new => exact absurd ((congrArg Process.state new).symm.trans hj) nofun
    | died running procs =>
        have hrun := (Kernel.running_eq_some.mp running).2
        rw [died_self procs, hrun]
        exact Or.inr ⟨nofun, nofun, rfl⟩
    | reaped old new => exact absurd ((congrArg Process.state new).symm.trans hj) nofun
  · intro j hj
    by_contra hno
    rw [not_or] at hno
    exact (h.alive hno.1 hno.2).1 hj
  · intro j hj
    cases h.slot j with
    | same life vmas => exact Or.inl ((congrArg Life.state life).trans hj)
    | woken old new => exact absurd (old.symm.trans hj) nofun
    | blocked old new => exact absurd ((Kernel.running_eq_some.mp old).2.symm.trans hj) nofun
    | filled parentPid isUser fds old life others parent => exact absurd (old.symm.trans hj) nofun
    | cleared old new => exact absurd (old.symm.trans hj) nofun
    | died running procs =>
        exact absurd ((Kernel.running_eq_some.mp running).2.symm.trans hj) nofun
    | reaped old new => exact Or.inr (congrArg Process.state new)

/-- A call that fills no slot and makes no zombie. -/
structure Quiet (k k' : Kernel) : Prop where
  free : ∀ j, (k.procs j).state = .unused → (k'.procs j).state = .unused
  zombie : ∀ j, (k'.procs j).state = .zombie → (k.procs j).state = .zombie

/-- A quiet part of a call, and then one that fills no slot. -/
theorem Moves.trans {status : Int} {k k₁ k₂ : Kernel} (h : Moves status k k₁) (hquiet : Quiet k k₁)
    (h' : Moves status k₁ k₂)
    (hfree : ∀ j, (k₁.procs j).state = .unused → (k₂.procs j).state = .unused) :
    Moves status k k₂ := by
  refine ⟨fun i _ hi _ => absurd (hfree i (hquiet.free i hi.1)) hi.2, fun j hj => ?_, fun j hj => ?_,
    fun j hj => ?_⟩
  · rcases h'.zombie j hj with ⟨hold, hexit⟩ | ⟨hnot, hused, hexit⟩
    · rcases h.zombie j hold with ⟨hold', hexit'⟩ | ⟨hnot, -, -⟩
      · exact Or.inl ⟨hold', hexit.trans hexit'⟩
      · exact absurd (hquiet.zombie j hold) hnot
    · refine Or.inr ⟨fun hz => ?_, fun hz => hused (hquiet.free j hz), hexit⟩
      rcases h.stays j hz with hz | hz
      · exact hnot hz
      · exact hused hz
  · rcases h'.gone j hj with hgone | hgone
    · exact h.gone j hgone
    · exact Or.inr (hquiet.zombie j hgone)
  · rcases h.stays j hj with hz | hz
    · exact h'.stays j hz
    · exact Or.inr (hfree j hz)

/-- What the ledger says about the table: every incarnation exits at most once
and is reaped at most once. -/
structure LedgerOk (k : Kernel) (g : Ledger) : Prop where
  below : ∀ j, g.incarnation j < g.born
  distinct : ∀ i j, g.incarnation i = g.incarnation j → i = j
  exitsBelow : ∀ n ∈ g.exits.map Prod.fst, n < g.born
  exitsOnce : (g.exits.map Prod.fst).Nodup
  zombies : ∀ j, (k.procs j).state = .zombie →
    (g.incarnation j, (k.procs j).exitStatus) ∈ g.exits
  living : ∀ j, (k.procs j).state ≠ .unused → (k.procs j).state ≠ .zombie →
    g.incarnation j ∉ g.exits.map Prod.fst
  reapedExited : ∀ n ∈ g.reaped, n ∈ g.exits.map Prod.fst
  reapedOnce : g.reaped.Nodup
  reapedGone : ∀ j, (k.procs j).state ≠ .unused → g.incarnation j ∉ g.reaped

theorem mem_newZombies {k k' : Kernel} {j : Fin procMax} : j ∈ newZombies k k' ↔
    (k.procs j).state ≠ .zombie ∧ (k'.procs j).state = .zombie := by
  simp [newZombies]

theorem mem_newlyReaped {k k' : Kernel} {j : Fin procMax} : j ∈ newlyReaped k k' ↔
    (k.procs j).state = .zombie ∧ (k'.procs j).state = .unused := by
  simp [newlyReaped]

theorem map_fst_newZombies (g : Ledger) (status : Int) (js : List (Fin procMax)) :
    (js.map fun j => (g.incarnation j, status)).map Prod.fst = js.map g.incarnation := by
  rw [List.map_map]
  rfl

theorem LedgerOk.after {status : Int} {k k' : Kernel} {g : Ledger} (hg : LedgerOk k g)
    (h : Moves status k k') : LedgerOk k' (g.after status k k') := by
  have hexits : (g.after status k k').exits.map Prod.fst =
      (newZombies k k').map g.incarnation ++ g.exits.map Prod.fst := by
    simp only [Ledger.after, List.map_append, map_fst_newZombies]
  -- a process that became a zombie was living before
  have hfresh : ∀ j ∈ newZombies k k', (k.procs j).state ≠ .unused ∧
      (k.procs j).state ≠ .zombie := by
    intro j hj
    obtain ⟨hnot, hz⟩ := mem_newZombies.mp hj
    rcases h.zombie j hz with ⟨hold, -⟩ | ⟨-, hused, -⟩
    · exact absurd hold hnot
    · exact ⟨hused, hnot⟩
  have hinj : Function.Injective g.incarnation := fun i j => hg.distinct i j
  have hreapedOld : ∀ n ∈ (newlyReaped k k').map g.incarnation, n ∈ g.exits.map Prod.fst := by
    intro n hn
    obtain ⟨j, hj, rfl⟩ := List.mem_map.mp hn
    exact List.mem_map.mpr ⟨_, hg.zombies j (mem_newlyReaped.mp hj).1, rfl⟩
  constructor
  case below =>
    intro j
    simp only [Ledger.after]
    split
    · exact Nat.lt_succ_self _
    · exact (hg.below j).trans (Nat.lt_succ_self _)
  case distinct =>
    intro i j hij
    simp only [Ledger.after] at hij
    split at hij
    · rename_i hi
      split at hij
      · rename_i hj
        exact h.filledOnce i j hi hj
      · exact absurd hij.symm (hg.below j).ne
    · split at hij
      · exact absurd hij (hg.below i).ne
      · exact hg.distinct i j hij
  case exitsBelow =>
    intro n hn
    rw [hexits, List.mem_append] at hn
    rcases hn with hn | hn
    · obtain ⟨j, -, rfl⟩ := List.mem_map.mp hn
      exact (hg.below j).trans (Nat.lt_succ_self _)
    · exact (hg.exitsBelow n hn).trans (Nat.lt_succ_self _)
  case exitsOnce =>
    rw [hexits]
    refine List.Nodup.append ?_ hg.exitsOnce ?_
    · exact ((List.nodup_finRange procMax).filter _).map hinj
    · intro n hn hold
      obtain ⟨j, hj, rfl⟩ := List.mem_map.mp hn
      exact hg.living j (hfresh j hj).1 (hfresh j hj).2 hold
  case zombies =>
    intro j hj
    have hnot : ¬ filled k k' j := by
      rintro ⟨hold, -⟩
      rcases h.zombie j hj with ⟨hz, -⟩ | ⟨-, hused, -⟩
      · rw [hz] at hold
        cases hold
      · exact hused hold
    simp only [Ledger.after, if_neg hnot, List.mem_append, List.mem_map]
    rcases h.zombie j hj with ⟨hold, hexit⟩ | ⟨hno, -, hexit⟩
    · rw [hexit]
      exact Or.inr (hg.zombies j hold)
    · rw [hexit]
      exact Or.inl ⟨j, mem_newZombies.mpr ⟨hno, hj⟩, rfl⟩
  case living =>
    intro j hused hlive
    rw [hexits, List.mem_append, List.mem_map]
    simp only [Ledger.after]
    split
    · rintro (⟨i, -, hi⟩ | hold)
      · exact (hg.below i).ne hi
      · exact (hg.exitsBelow _ hold).ne rfl
    · rename_i hnot
      have hused' : (k.procs j).state ≠ .unused := fun hold => hnot ⟨hold, hused⟩
      have hlive' : (k.procs j).state ≠ .zombie := by
        intro hz
        rcases h.stays j hz with hz | hz
        · exact hlive hz
        · exact hused hz
      rintro (⟨i, hi, hij⟩ | hold)
      · rw [hg.distinct i j hij] at hi
        exact hlive (mem_newZombies.mp hi).2
      · exact hg.living j hused' hlive' hold
  case reapedExited =>
    intro n hn
    rw [hexits, List.mem_append]
    rcases List.mem_append.mp hn with hn | hn
    · exact Or.inr (hreapedOld n hn)
    · exact Or.inr (hg.reapedExited n hn)
  case reapedOnce =>
    refine List.Nodup.append ?_ hg.reapedOnce ?_
    · exact ((List.nodup_finRange procMax).filter _).map hinj
    · intro n hn hold
      obtain ⟨j, hj, rfl⟩ := List.mem_map.mp hn
      refine hg.reapedGone j ?_ hold
      rw [(mem_newlyReaped.mp hj).1]
      decide
  case reapedGone =>
    intro j hused hreaped
    have hmem := List.mem_append.mp hreaped
    simp only [Ledger.after] at hmem
    split at hmem
    · -- no process that was reaped has the new number
      rcases hmem with hnew | hold
      · exact (hg.exitsBelow _ (hreapedOld _ hnew)).ne rfl
      · exact (hg.exitsBelow _ (hg.reapedExited _ hold)).ne rfl
    · rename_i hnot
      have hused' : (k.procs j).state ≠ .unused := fun hold => hnot ⟨hold, hused⟩
      rcases hmem with hnew | hold
      · obtain ⟨i, hi, hij⟩ := List.mem_map.mp hnew
        rw [hg.distinct i j hij] at hi
        exact hused (mem_newlyReaped.mp hi).2
      · exact hg.reapedGone j hused' hold

/-! ## Blocked processes -/

/-- The range check of `sys_waitpid` on its status pointer holds of a record. -/
def statusOk (proc : Process) (call : WaitCall) : Prop :=
  call.statusPtr = 0 ∨ proc.isUser = true ∧
    procVmaRangeOk proc call.statusPtr.toNat 4 vmaProtW = true

/-- The range check reads the VMAs only. -/
theorem statusOk_congr {proc proc' : Process} {call : WaitCall} (hvmas : proc'.vmas = proc.vmas)
    (huser : proc'.isUser = proc.isUser) : statusOk proc' call ↔ statusOk proc call := by
  unfold statusOk procVmaRangeOk
  rw [hvmas, huser]

/-- What holds of a process inside a `sys_waitpid` that has blocked. -/
structure Awaits (k : Kernel) (i : Fin procMax) (call : WaitCall) : Prop where
  state : (k.procs i).state = .blocked ∨ (k.procs i).state = .runnable
  child : (k.procs i).state = .blocked → ∃ j, isChild k call.pid i j = true
  living : (k.procs i).state = .blocked → ∀ j, isChild k call.pid i j = true →
    (k.procs j).state ≠ .zombie
  status : statusOk (k.procs i) call

/-- A call leaves the memory of a process that is not the current one alone, and
does not block it. -/
theorem Change.bystander {status : Int} {k k' : Kernel} (h : Change status k k') {i : Fin procMax}
    (hcur : k.currentProc ≠ some i) (hused : (k.procs i).state ≠ .unused)
    (hlive : (k.procs i).state ≠ .zombie) :
    (k'.procs i).vmas = (k.procs i).vmas ∧ (k'.procs i).isUser = (k.procs i).isUser ∧
      ((k'.procs i).state = (k.procs i).state ∨ (k'.procs i).state = .runnable) := by
  cases h.slot i with
  | same life vmas =>
      exact ⟨vmas hcur, congrArg Life.isUser life, Or.inl (congrArg Life.state life)⟩
  | woken old new =>
      rw [new]
      exact ⟨rfl, rfl, Or.inr rfl⟩
  | blocked old new => exact absurd (Kernel.running_eq_some.mp old).1 hcur
  | filled parentPid isUser fds old life others parent => exact absurd old hused
  | cleared old new => exact absurd old hused
  | died running procs => exact absurd (Kernel.running_eq_some.mp running).1 hcur
  | reaped old new => exact absurd old.1 hlive

/-- A process that exits wakes its parent. -/
theorem exitTable_parent {procs : Fin procMax → Process} {i p : Fin procMax} (status : Int)
    (hpids : PidsOk procs) (hi : (procs i).state ≠ .unused) (hp : p ≠ i) (hblocked : (procs p).state = .blocked)
    (hparent : (procs i).parentPid = (procs p).pid) :
    (exitTable procs i status p).state = .runnable := by
  have hupdate : ∀ j, j ≠ i → Function.update procs i ((procs i).exited status) j = procs j :=
    fun j hj => Function.update_of_ne hj ..
  have hpids' : PidsOk (Function.update procs i ((procs i).exited status)) := by
    intro j hj
    by_cases hji : j = i
    · subst hji
      rw [Function.update_self]
      exact hpids j hi
    · rw [hupdate j hji] at hj ⊢
      exact hpids j hj
  have hfind : findProcessByPid (Function.update procs i ((procs i).exited status))
      (procs i).parentPid = some p := by
    rw [hparent, hpids p (by rw [hblocked]; decide)]
    exact hpids'.find (by rw [hupdate p hp, hblocked]; decide)
  have hfind' : findProcessByPid (Function.update procs i ((procs i).exited status))
      (Function.update procs i ((procs i).exited status) i).parentPid = some p := by
    rw [Function.update_self]
    exact hfind
  unfold exitTable
  dsimp only
  rw [hfind']
  dsimp only
  rw [if_pos (by rw [hupdate p hp]; exact hblocked), Function.update_self]

/-- The process that became a zombie is the running one. -/
theorem Change.zombie {status : Int} {k k' : Kernel} (h : Change status k k') {j : Fin procMax}
    (hold : (k.procs j).state ≠ .zombie) (hnew : (k'.procs j).state = .zombie) :
    k.running = some j ∧ k'.procs = exitTable k.procs j status := by
  cases h.slot j with
  | same life vmas => exact absurd ((congrArg Life.state life).symm.trans hnew) hold
  | woken old new => exact absurd ((congrArg Process.state new).symm.trans hnew) nofun
  | blocked old new => exact absurd ((congrArg Process.state new).symm.trans hnew) nofun
  | filled parentPid isUser fds old life others parent =>
      exact absurd ((congrArg Life.state life).symm.trans hnew) nofun
  | cleared old new => exact absurd ((congrArg Process.state new).symm.trans hnew) nofun
  | died running procs => exact ⟨running, procs⟩
  | reaped old new => exact absurd ((congrArg Process.state new).symm.trans hnew) nofun

/-- What another process does keeps a blocked waiter right: a child of the kind it
waits for that exits wakes it. -/
theorem Awaits.change {status : Int} {k k' : Kernel} {i : Fin procMax} {call : WaitCall}
    (hw : Awaits k i call) (hpids : PidsOk k.procs) (h : Change status k k')
    (hcur : k.currentProc ≠ some i) : Awaits k' i call := by
  have hused : (k.procs i).state ≠ .unused := by
    rcases hw.state with hs | hs <;> rw [hs] <;> decide
  have hlive : (k.procs i).state ≠ .zombie := by
    rcases hw.state with hs | hs <;> rw [hs] <;> decide
  obtain ⟨hvmas, huser, hstate⟩ := h.bystander hcur hused hlive
  have hused' := (h.alive hused hlive).1
  have hpid := (h.keeps hused hused').1
  have hblocked : (k'.procs i).state = .blocked → (k.procs i).state = .blocked := by
    intro hb
    rcases hstate with heq | heq
    · rw [← heq]
      exact hb
    · rw [heq] at hb
      cases hb
  -- a process that was there before is as much a child as it was
  have hchild : ∀ j, (k.procs j).state ≠ .unused → (k'.procs j).state ≠ .unused →
      (isChild k' call.pid i j = true ↔ isChild k call.pid i j = true) := by
    intro j hold hnew
    obtain ⟨hp, hparent⟩ := h.keeps hold hnew
    rw [isChild_eq_true, isChild_eq_true, hp, hparent, hpid]
    exact and_congr_left fun _ => ⟨fun _ => hold, fun _ => hnew⟩
  constructor
  · rcases hstate with heq | heq
    · rw [heq]
      exact hw.state
    · exact Or.inr heq
  · intro hb
    obtain ⟨j, hj⟩ := hw.child (hblocked hb)
    have hold := (isChild_eq_true.mp hj).1
    have hnew := (h.alive hold (hw.living (hblocked hb) j hj)).1
    exact ⟨j, (hchild j hold hnew).mpr hj⟩
  · intro hb j hj hz
    by_cases hold : (k.procs j).state = .zombie
    · have hj' := (hchild j (by rw [hold]; decide) (by rw [hz]; decide)).mp hj
      exact hw.living (hblocked hb) j hj' hold
    · -- the child exits in this very step, and wakes its parent
      obtain ⟨hrun, hprocs⟩ := h.zombie hold hz
      obtain ⟨hcurj, hrunnable⟩ := Kernel.running_eq_some.mp hrun
      have hij : i ≠ j := by
        rintro rfl
        exact hcur hcurj
      have hold' : (k.procs j).state ≠ .unused := by
        rw [hrunnable]
        decide
      have hj' := (hchild j hold' (by rw [hz]; decide)).mp hj
      have hwoken := exitTable_parent status hpids hold' hij (hblocked hb) (isChild_eq_true.mp hj').2.1
      rw [← hprocs, hb] at hwoken
      cases hwoken
  · exact (statusOk_congr hvmas huser).mpr hw.status

/-! ## One pass -/

variable {L}

theorem storeAll_calm (dst : Nat) (src : List UInt8) (k : Kernel) :
    Calm k ((storeAll L dst src k).map fun k => ((), k)) := by
  induction src generalizing dst k with
  | nil => exact ⟨rfl, rfl⟩
  | cons byte rest ih =>
      have hbyte := storeByte_calm (L := L) dst byte k
      unfold storeAll
      cases hres : storeByte L dst byte k with
      | error e =>
          rw [hres] at hbyte
          exact hbyte
      | ok k₁ =>
          rw [hres] at hbyte
          exact (ih (u32 (dst + 1)) k₁).trans hbyte.1 hbyte.2

/-- The range check of the current process. -/
theorem procUserWritableOk_eq {k : Kernel} {i : Fin procMax} (hcur : k.currentProc = some i)
    {call : WaitCall} (hptr : call.statusPtr ≠ 0) (huser : (k.procs i).isUser = true) :
    procUserWritableOk k call.statusPtr.toNat 4 = true ↔ statusOk (k.procs i) call := by
  unfold procUserWritableOk statusOk
  rw [hcur]
  simp [huser, hptr]

theorem statusOk.user {proc : Process} {call : WaitCall} (h : statusOk proc call)
    (hptr : call.statusPtr ≠ 0) : proc.isUser = true := (h.resolve_left hptr).1

theorem statusOk.mayCall {proc : Process} {call : WaitCall} (h : statusOk proc call) :
    call.mayCall proc = true := by
  unfold WaitCall.mayCall
  rw [Bool.or_eq_true, decide_eq_true_iff]
  exact h.imp_right And.left

/-- What a pass of `sys_waitpid` by process `i` does. -/
inductive PassResult (i : Fin procMax) (call : WaitCall) (k : Kernel) : WaitOut → Prop
  | stop (e : Stop) (touched : List UserTouch) : PassResult i call k (.stop e touched)
  | nothing (r : Int) (hr : r ≤ 0) : PassResult i call k (.returned r k)
  | blocked (status : statusOk (k.procs i) call) (child : ∃ j, isChild k call.pid i j = true)
      (living : ∀ j, isChild k call.pid i j = true → (k.procs j).state ≠ .zombie) :
      PassResult i call k (.blocked (k.setProc i { k.procs i with state := .blocked }))
  /-- Child `c` is reaped, and its status is stored unless there is no pointer. -/
  | reaped (c : Fin procMax) (k₁ k₂ : Kernel) (child : isChild k call.pid i c = true)
      (zombie : (k.procs c).state = .zombie)
      (gone : k₁.procs = Function.update k.procs c .unused)
      (cur : k₁.currentProc = k.currentProc)
      (stored : call.statusPtr = 0 ∧ k₂ = k₁ ∨ call.statusPtr ≠ 0 ∧
        storeAll L call.statusPtr.toNat (intBytes (k.procs c).exitStatus) k₁ = .ok k₂)
      (procs : k₂.procs = k₁.procs) (cur' : k₂.currentProc = k₁.currentProc) :
      PassResult i call k (.returned (k.procs c).pid k₂)
  /-- Child `c` is reaped, and the process exits because the page of its status
  pointer cannot be brought in. -/
  | exited (c : Fin procMax) (k₁ k₂ : Kernel) (child : isChild k call.pid i c = true)
      (zombie : (k.procs c).state = .zombie)
      (gone : k₁.procs = Function.update k.procs c .unused)
      (cur : k₁.currentProc = k.currentProc)
      (procs : k₂.procs = k₁.procs) (cur' : k₂.currentProc = k₁.currentProc) :
      PassResult i call k (.exited (procExit 128 k₂))

theorem intBytes_length (value : Int) : (intBytes value).length = 4 := by
  simp [intBytes]

/-- The range check made at the start of the call still holds after the child has
been reaped, so the copy never reports failure. -/
theorem copyToUser_checked {k : Kernel} {i : Fin procMax} {call : WaitCall} {status : Int}
    (hcur : k.currentProc = some i) (hptr : call.statusPtr ≠ 0)
    (hok : statusOk (k.procs i) call) :
    copyToUser L call.statusPtr.toNat (intBytes status) k =
      (storeAll L call.statusPtr.toNat (intBytes status) k).map fun k => (true, k) := by
  have hzero : call.statusPtr.toNat ≠ 0 := fun h => hptr (UInt32.toNat_inj.mp h)
  have hwritable := (procUserWritableOk_eq hcur hptr (hok.user hptr)).mpr hok
  unfold copyToUser
  rw [intBytes_length, if_neg (by decide), if_neg (by simp [hzero, hwritable])]
  cases storeAll L call.statusPtr.toNat (intBytes status) k <;> rfl

theorem waitPass_result {k : Kernel} {i : Fin procMax} {call : WaitCall} (hpids : PidsOk k.procs)
    (hrun : k.running = some i) (hok : statusOk (k.procs i) call) :
    PassResult (L := L) i call k (waitPass L i call k) := by
  obtain ⟨hcur, hrunnable⟩ := Kernel.running_eq_some.mp hrun
  unfold waitPass
  cases hscan : waitpidScan L call.pid i k with
  | error e => exact .stop _ _
  | ok out =>
      obtain ⟨r, k₁⟩ := out
      cases r with
      | noChild =>
          obtain ⟨hk, -⟩ := waitpidScan_none hscan fun _ _ hr => by cases hr
          rw [hk]
          exact .nothing (-1) (by decide)
      | noZombie =>
          obtain ⟨hk, hnone, hchild⟩ := waitpidScan_none hscan fun _ _ hr => by cases hr
          dsimp only
          rw [hk]
          split
          · exact .nothing 0 (le_refl 0)
          · exact .blocked hok (hchild.mp rfl) hnone
      | reaped pid status =>
          obtain ⟨c, hchild, hzombie, rfl, rfl, hprocs, hcur₁⟩ := waitpidScan_reaped hscan
          have hused : (k.procs c).state ≠ .unused := (isChild_eq_true.mp hchild).1
          have hpid : 0 < (k.procs c).pid := by
            rw [hpids c hused]
            exact slotPid_pos c
          have hci : i ≠ c := by
            rintro rfl
            rw [hrunnable] at hzombie
            cases hzombie
          dsimp only [deliver]
          by_cases hptr : call.statusPtr = 0
          · rw [if_neg fun h => h.2 hptr]
            exact .reaped c k₁ k₁ hchild hzombie hprocs hcur₁ (Or.inl ⟨hptr, rfl⟩) rfl rfl
          · have hok₁ : statusOk (k₁.procs i) call := by
              rw [hprocs, Function.update_of_ne hci]
              exact hok
            have hstore := storeAll_calm (L := L) call.statusPtr.toNat
              (intBytes (k.procs c).exitStatus) k₁
            rw [if_pos ⟨hpid, hptr⟩, copyToUser_checked (hcur₁.trans hcur) hptr hok₁]
            cases hres : storeAll L call.statusPtr.toNat (intBytes (k.procs c).exitStatus) k₁ with
            | ok k₂ =>
                rw [hres] at hstore
                exact .reaped c k₁ k₂ hchild hzombie hprocs hcur₁ (Or.inr ⟨hptr, hres⟩) hstore.1
                  hstore.2
            | error e =>
                rw [hres] at hstore
                cases e with
                | stop e touched => exact .stop e touched
                | exited k₂ =>
                    obtain ⟨k₃, hprocs₃, hcur₃, rfl⟩ := hstore
                    exact .exited c k₁ k₃ hchild hzombie hprocs hcur₁ hprocs₃ hcur₃

/-- What a call by process `i` that creates nobody keeps. -/
structure Passage (i : Fin procMax) (k k' : Kernel) : Prop where
  cur : k'.currentProc = k.currentProc
  pids : PidsOk k.procs → PidsOk k'.procs
  others : ∀ q call, q ≠ i → k.currentProc = some i → PidsOk k.procs → Awaits k q call →
    Awaits k' q call
  moves : Moves 128 k k'
  free : ∀ j, (k.procs j).state = .unused → (k'.procs j).state = .unused

theorem Change.passage {k k' : Kernel} {i : Fin procMax} (h : Change 128 k k')
    (hcur : k'.currentProc = k.currentProc)
    (hfree : ∀ j, (k.procs j).state = .unused → (k'.procs j).state = .unused) :
    Passage i k k' := by
  refine ⟨hcur, fun hpids => hpids.change h, fun q call hq hi hpids hw => ?_, h.moves, hfree⟩
  refine hw.change hpids h ?_
  rw [hi]
  exact fun heq => hq (Option.some.inj heq).symm

theorem Passage.trans {i : Fin procMax} {k k₁ k₂ : Kernel} (h : Passage i k k₁)
    (hzombie : ∀ j, (k₁.procs j).state = .zombie → (k.procs j).state = .zombie)
    (h' : Passage i k₁ k₂) : Passage i k k₂ where
  cur := h'.cur.trans h.cur
  pids hpids := h'.pids (h.pids hpids)
  others q call hq hcur hpids hw :=
    h'.others q call hq (h.cur.trans hcur) (h.pids hpids) (h.others q call hq hcur hpids hw)
  moves := h.moves.trans ⟨h.free, hzombie⟩ h'.moves h'.free
  free j hj := h'.free j (h.free j hj)

theorem Passage.refl (i : Fin procMax) (k : Kernel) : Passage i k k :=
  (Change.refl k).passage rfl fun _ hj => hj

/-- The kernel a pass leaves. -/
def WaitOut.kernel : WaitOut → Option Kernel
  | .stop _ _ => none
  | .blocked k => some k
  | .returned _ k => some k
  | .exited k => some k

/-- The process in slot `c` is reaped. -/
theorem reapedPassage {i c : Fin procMax} {call : WaitCall} {k k₁ : Kernel}
    (hcur : k.currentProc = some i) (hchild : isChild k call.pid i c = true)
    (hzombie : (k.procs c).state = .zombie) (hgone : k₁.procs = Function.update k.procs c .unused)
    (hcur₁ : k₁.currentProc = k.currentProc) :
    Passage i k k₁ ∧ ∀ j, (k₁.procs j).state = .zombie → (k.procs j).state = .zombie := by
  have hprocs : ∀ j, k₁.procs j = k.procs j ∨ Reapable k j ∧ k₁.procs j = .unused := by
    intro j
    by_cases hj : j = c
    · subst hj
      refine Or.inr ⟨⟨hzombie, Or.inl ⟨i, hcur, (isChild_eq_true.mp hchild).2.1⟩⟩, ?_⟩
      rw [hgone, Function.update_self]
    · exact Or.inl (by rw [hgone, Function.update_of_ne hj])
  refine ⟨(Change.reaped hcur₁ hprocs).passage hcur₁ fun j hj => ?_, fun j hj => ?_⟩
  · rcases hprocs j with heq | ⟨-, heq⟩
    · rw [heq]
      exact hj
    · rw [heq]
      rfl
  · rcases hprocs j with heq | ⟨-, heq⟩
    · rw [← heq]
      exact hj
    · rw [heq] at hj
      cases hj

theorem PassResult.passage {i : Fin procMax} {call : WaitCall} {k k' : Kernel} {out : WaitOut}
    (hrun : k.running = some i) (h : PassResult (L := L) i call k out) (hout : out.kernel = some k') :
    Passage i k k' := by
  obtain ⟨hcur, hrunnable⟩ := Kernel.running_eq_some.mp hrun
  cases h with
  | stop e => cases hout
  | nothing r hr =>
      cases hout
      exact .refl i k
  | blocked status child living =>
      cases hout
      have hblock : Change 128 k (k.setProc i { k.procs i with state := .blocked }) :=
        .blocked i rfl hrun rfl
      refine hblock.passage rfl fun j hj => ?_
      have hji : j ≠ i := by
        rintro rfl
        rw [hrunnable] at hj
        cases hj
      exact (congrArg Process.state (k.setProc_other _ hji)).trans hj
  | reaped c k₁ k₂ child zombie gone cur stored procs cur' =>
      cases hout
      obtain ⟨hpass, hz⟩ := reapedPassage hcur child zombie gone cur
      refine hpass.trans hz (Change.passage (.keep cur' (fun j => ?_) fun j _ => ?_) cur' fun j hj => ?_)
        <;> rw [procs]
      exact hj
  | exited c k₁ k₂ child zombie gone cur procs cur' =>
      cases hout
      obtain ⟨hpass, hz⟩ := reapedPassage hcur child zombie gone cur
      have hic : i ≠ c := by
        rintro rfl
        rw [hrunnable] at zombie
        cases zombie
      have hrun₁ : k₁.running = some i := by
        refine Kernel.running_eq_some.mpr ⟨cur.trans hcur, ?_⟩
        rw [gone, Function.update_of_ne hic]
        exact hrunnable
      have hexit : Change 128 k₁ (procExit 128 k₂) := .of_exited hrun₁ procs cur'
      refine hpass.trans hz (hexit.passage ((procExit_currentProc 128 k₂).trans cur') fun j hj => ?_)
      have hji : j ≠ i := by
        rintro rfl
        rw [(Kernel.running_eq_some.mp hrun₁).2] at hj
        cases hj
      rw [procExit_procs 128 (cur'.trans (cur.trans hcur)), procs]
      rcases exitTable_other 128 hji with heq | ⟨hblocked, -⟩
      · rw [heq]
        exact hj
      · rw [hblocked] at hj
        cases hj

/-! ## The invariant of a run -/

/-- What holds in every state of a run. -/
structure WaitInv (s : WaitState) : Prop where
  pids : PidsOk s.kernel.procs
  ledger : LedgerOk s.kernel s.ledger
  waits : ∀ i call, s.waiting i = some call → Awaits s.kernel i call

/-- A process marks itself runnable as it comes back from `yield`. -/
def Kernel.resumed (k : Kernel) (i : Fin procMax) : Kernel :=
  k.setProc i { k.procs i with state := .runnable }

/-- Waking a process keeps every waiter right. -/
theorem Awaits.woken {k : Kernel} {i j : Fin procMax} {call : WaitCall} (hw : Awaits k i call)
    (hpids : PidsOk k.procs) (hj : (k.procs j).state = .blocked) :
    Awaits (k.resumed j) i call := by
  -- who is current does not matter
  have hchange : Change 0 { k with currentProc := none } { k.resumed j with currentProc := none } :=
    .woken j rfl hj rfl
  have hw' : Awaits { k with currentProc := none } i call := ⟨hw.1, hw.2, hw.3, hw.4⟩
  have h := hw'.change hpids hchange nofun
  exact ⟨h.1, h.2, h.3, h.4⟩

/-- A call by the current process, which is not waiting. -/
theorem WaitInv.change {s : WaitState} {k' : Kernel} {status : Int} (hs : WaitInv s)
    (h : Change status s.kernel k') (hfree : s.free = true) :
    WaitInv ⟨k', s.waiting, s.ledger.after status s.kernel k'⟩ where
  pids := hs.pids.change h
  ledger := hs.ledger.after h.moves
  waits i call hi := by
    refine (hs.waits i call hi).change hs.pids h fun hcur => ?_
    have hi' : s.waiting i = some call := hi
    unfold WaitState.free at hfree
    rw [hcur] at hfree
    simp [hi'] at hfree

theorem WaitInv.switch {s : WaitState} (hs : WaitInv s) (next : Fin procMax) :
    WaitInv ⟨switchTo next s.kernel, s.waiting,
      s.ledger.after 128 s.kernel (switchTo next s.kernel)⟩ := by
  have h : Change 128 s.kernel (switchTo next s.kernel) := by
    unfold switchTo
    split
    · exact .refl _
    · exact .dispatch next rfl rfl
  have hprocs : (switchTo next s.kernel).procs = s.kernel.procs := by
    unfold switchTo
    split <;> rfl
  refine ⟨hs.pids.change h, hs.ledger.after h.moves, fun i call hi => ?_⟩
  obtain ⟨hstate, hchild, hliving, hstatus⟩ := hs.waits i call hi
  constructor <;> simpa only [isChild, hprocs]

theorem WaitInv.wake {s : WaitState} (hs : WaitInv s) {j : Fin procMax}
    (hj : (s.kernel.procs j).state = .blocked) : WaitInv ⟨s.kernel.resumed j, s.waiting,
      s.ledger.after 128 s.kernel (s.kernel.resumed j)⟩ := by
  have h : Change 128 s.kernel (s.kernel.resumed j) := .woken j rfl hj rfl
  exact ⟨hs.pids.change h, hs.ledger.after h.moves,
    fun i call hi => (hs.waits i call hi).woken hs.pids hj⟩

/-- A pass of `sys_waitpid` by the current process. -/
theorem WaitInv.settle {s s' : WaitState} {i : Fin procMax} {call : WaitCall} {k₀ : Kernel}
    {out : WaitOut} (hs : WaitInv s) (hcur : s.kernel.currentProc = some i)
    (hpass : Passage i s.kernel k₀)
    (hzombie : ∀ j, (k₀.procs j).state = .zombie → (s.kernel.procs j).state = .zombie)
    (hrun : k₀.running = some i) (hres : PassResult (L := L) i call k₀ out) (h : settleWait s i call out = .ok s') :
    WaitInv s' := by
  have htotal : ∀ k' waits, out.kernel = some k' →
      (∀ call', waits = some call' → Awaits k' i call') →
      WaitInv ⟨k', Function.update s.waiting i waits, s.ledger.after 128 s.kernel k'⟩ := by
    intro k' waits hout hself
    have hall := hpass.trans hzombie (hres.passage hrun hout)
    refine ⟨hall.pids hs.pids, hs.ledger.after hall.moves, fun q call' hq => ?_⟩
    change Function.update s.waiting i waits q = some call' at hq
    by_cases hqi : q = i
    · subst hqi
      rw [Function.update_self] at hq
      exact hself call' hq
    · rw [Function.update_of_ne hqi] at hq
      exact hall.others q call' hqi hcur hs.pids (hs.waits q call' hq)
  cases hres with
  | stop e => cases h
  | nothing r hr =>
      cases h
      exact htotal _ none rfl nofun
  | blocked status child living =>
      cases h
      refine htotal _ (some call) rfl fun call' hcall => ?_
      cases hcall
      have hself : (k₀.setProc i { k₀.procs i with state := .blocked }).procs i =
          { k₀.procs i with state := .blocked } := k₀.setProc_self i _
      -- blocking changes neither pids nor parents
      have hrecord : ∀ j, ((k₀.setProc i { k₀.procs i with state := .blocked }).procs j).pid =
            (k₀.procs j).pid ∧
          ((k₀.setProc i { k₀.procs i with state := .blocked }).procs j).parentPid =
            (k₀.procs j).parentPid ∧
          (j ≠ i → (k₀.setProc i { k₀.procs i with state := .blocked }).procs j = k₀.procs j) := by
        intro j
        by_cases hj : j = i
        · subst hj
          rw [hself]
          exact ⟨rfl, rfl, fun hne => absurd rfl hne⟩
        · have heq : (k₀.setProc i { k₀.procs i with state := .blocked }).procs j = k₀.procs j :=
            k₀.setProc_other _ hj
          rw [heq]
          exact ⟨rfl, rfl, fun _ => rfl⟩
      refine ⟨Or.inl (by rw [hself]), fun _ => ?_, fun _ j hj hz => ?_, by rw [hself]; exact status⟩
      · obtain ⟨j, hj⟩ := child
        obtain ⟨hused, hparent, hpid⟩ := isChild_eq_true.mp hj
        refine ⟨j, isChild_eq_true.mpr ⟨?_, ?_, ?_⟩⟩
        · by_cases hji : j = i
          · subst hji
            rw [hself]
            exact nofun
          · rw [(hrecord j).2.2 hji]
            exact hused
        · rw [(hrecord j).2.1, (hrecord i).1]
          exact hparent
        · rw [(hrecord j).1]
          exact hpid
      · have hji : j ≠ i := by
          rintro rfl
          rw [hself] at hz
          cases hz
        obtain ⟨hused, hparent, hpid⟩ := isChild_eq_true.mp hj
        rw [(hrecord j).2.1, (hrecord i).1] at hparent
        rw [(hrecord j).1] at hpid
        rw [(hrecord j).2.2 hji] at hused hz
        exact living j (isChild_eq_true.mpr ⟨hused, hparent, hpid⟩) hz
  | reaped c k₁ k₂ child zombie gone cur stored procs cur' =>
      cases h
      exact htotal _ none rfl nofun
  | exited c k₁ k₂ child zombie gone cur procs cur' =>
      cases h
      exact htotal _ none rfl nofun

/-- What `sys_waitpid` does from its start. -/
theorem sysWaitpid_result {k : Kernel} {i : Fin procMax} {call : WaitCall}
    (hpids : PidsOk k.procs) (hrun : k.running = some i) (hmay : call.mayCall (k.procs i) = true) :
    PassResult (L := L) i call k (sysWaitpid L i call k) := by
  have hcur := (Kernel.running_eq_some.mp hrun).1
  unfold sysWaitpid
  split
  · exact .nothing (-1) (by decide)
  · rename_i hcheck
    have hok : statusOk (k.procs i) call := by
      by_cases hptr : call.statusPtr = 0
      · exact Or.inl hptr
      · unfold WaitCall.mayCall at hmay
        rw [decide_eq_false hptr, Bool.false_or] at hmay
        refine (procUserWritableOk_eq hcur hptr hmay).mp ?_
        by_contra hno
        exact hcheck ⟨hptr, hno⟩
    split
    · exact .nothing (-1) (by decide)
    · exact waitPass_result hpids hrun hok

/-- Where a process comes back from `yield`: it is running again, and nothing else
has changed. -/
structure Resumes (i : Fin procMax) (call : WaitCall) (k : Kernel) : Prop where
  passage : Passage i k (k.resumed i)
  zombie : ∀ j, ((k.resumed i).procs j).state = .zombie → (k.procs j).state = .zombie
  running : (k.resumed i).running = some i
  status : statusOk ((k.resumed i).procs i) call

theorem Awaits.resumes {k : Kernel} {i : Fin procMax} {call : WaitCall} (hw : Awaits k i call)
    (hcur : k.currentProc = some i) : Resumes i call k := by
  have hself : (k.resumed i).procs i = { k.procs i with state := .runnable } :=
    k.setProc_self i _
  have hother : ∀ j, j ≠ i → (k.resumed i).procs j = k.procs j :=
    fun j hj => k.setProc_other _ hj
  have hchange : Change 128 k (k.resumed i) := by
    rcases hw.state with hs | hs
    · exact .woken i rfl hs rfl
    · have hsame : k.resumed i = k := by
        have hrecord : { k.procs i with state := .runnable } = k.procs i := by
          rw [← hs]
        unfold Kernel.resumed Kernel.setProc
        rw [hrecord, Function.update_eq_self]
      rw [hsame]
      exact .refl k
  refine ⟨hchange.passage rfl fun j hj => ?_, fun j hj => ?_, ?_, ?_⟩
  · rw [hother j]
    · exact hj
    · rintro rfl
      rcases hw.state with hs | hs <;> rw [hs] at hj <;> cases hj
  · by_cases hji : j = i
    · subst hji
      rw [hself] at hj
      cases hj
    · rw [hother j hji] at hj
      exact hj
  · exact Kernel.running_eq_some.mpr ⟨hcur, by rw [hself]⟩
  · rw [hself]
    exact hw.status

theorem WaitInv.step {s s' : WaitState} (hs : WaitInv s) (op : WaitOp) (hop : op.enabled s = true)
    (h : waitStep L op s = .ok s') : WaitInv s' := by
  cases op with
  | kernel op =>
      obtain ⟨k', hstep, rfl⟩ := map_ok h
      cases op with
      | switchTo next =>
          cases hstep
          exact hs.switch next
      | waitpid pid options => cases hop
      | _ => exact hs.change (step_change _ hstep) (Bool.and_eq_true_iff.mp hop).2
  | wake i =>
      obtain ⟨k', hstep, rfl⟩ := map_ok h
      simp only [Proc.step] at hstep
      split at hstep
      · rename_i hblocked
        cases hstep
        exact hs.wake hblocked
      · cases hstep
        exact ⟨hs.pids, hs.ledger.after (Change.refl _).moves, hs.waits⟩
  | sleep =>
      simp only [waitStep] at h
      split at h
      · cases h
        exact hs
      · rename_i i hrun
        cases h
        refine hs.change (.blocked i rfl hrun rfl) (Bool.and_eq_true_iff.mp hop).2
  | sysWaitpid call =>
      simp only [waitStep] at h
      split at h
      · cases h
        exact hs
      · rename_i i hrun
        have hcur := (Kernel.running_eq_some.mp hrun).1
        have hmay : call.mayCall (s.kernel.procs i) = true := by
          unfold WaitOp.enabled at hop
          rw [hrun] at hop
          exact (Bool.and_eq_true_iff.mp hop).1
        exact hs.settle hcur (.refl i _) (fun _ hz => hz) hrun (sysWaitpid_result hs.pids hrun hmay) h
  | resume =>
      simp only [waitStep] at h
      split at h
      · cases h
        exact hs
      · rename_i i hcur
        split at h
        · cases h
          exact hs
        · rename_i call hcall
          have hw := hs.waits i call hcall
          have hresume := hw.resumes hcur
          have hres := waitPass_result (L := L) (hresume.passage.pids hs.pids) hresume.running
            hresume.status
          exact hs.settle hcur hresume.passage hresume.zombie hresume.running hres h

theorem boot_waits {mem : Memory} {mmu : Mmu} {k : Kernel} (h : boot L mem mmu = some k) :
    WaitInv ⟨k, fun _ => none, .init⟩ := by
  have hpids := (boot_parents h).1
  obtain ⟨satp, s, -, rfl⟩ := boot_some h
  have hchange := createProcess_change 0 (bootKernel satp s)
  have hnone : ∀ j, ((createProcess (bootKernel satp s)).2.procs j).state ≠ .zombie := by
    intro j hz
    rcases hchange.moves.zombie j hz with ⟨hold, -⟩ | ⟨-, hused, -⟩
    · cases hold
    · exact hused rfl
  refine ⟨hpids, ?_, nofun⟩
  constructor
  · exact fun j => j.isLt
  · exact fun i j hij => Fin.ext hij
  · exact nofun
  · exact List.nodup_nil
  · exact fun j hz => absurd hz (hnone j)
  · exact fun _ _ _ => nofun
  · exact nofun
  · exact List.nodup_nil
  · exact fun _ _ => nofun

theorem WaitReachable.inv {s : WaitState} (h : WaitReachable L s) : WaitInv s := by
  induction h with
  | boot hboot => exact boot_waits hboot
  | step op _ hop hstep ih => exact ih.step op hop hstep

/-! ## Waiting is exact -/

/-- Process `i` makes a pass of `sys_waitpid`: it calls it, or it comes back from the
`yield` in it. -/
inductive Passes (L : Layout) (s : WaitState) (i : Fin procMax) (call : WaitCall) : WaitOut → Prop
  | call (hrun : s.kernel.running = some i) (hmay : call.mayCall (s.kernel.procs i) = true)
      (hfree : s.waiting i = none) : Passes L s i call (sysWaitpid L i call s.kernel)
  | resume (hcur : s.kernel.currentProc = some i) (hcall : s.waiting i = some call) :
      Passes L s i call (resumeWait L i call s.kernel)

/-- The pass reaps the child in slot `c`, which exited with `status`, and stores
that status, then returns with the kernel `k`. -/
structure Delivers (L : Layout) (s : WaitState) (i : Fin procMax) (call : WaitCall)
    (c : Fin procMax) (status : Int) (k : Kernel) : Prop where
  child : isChild s.kernel call.pid i c = true
  zombie : (s.kernel.procs c).state = .zombie
  exit : (s.ledger.incarnation c, status) ∈ s.ledger.exits
  exitOnce : ∀ status', (s.ledger.incarnation c, status') ∈ s.ledger.exits → status' = status
  notReaped : s.ledger.incarnation c ∉ s.ledger.reaped
  reaped : newlyReaped s.kernel k = [c]
  stored : call.statusPtr ≠ 0 → ∃ k₁, (k₁.procs c).state = .unused ∧
    storeAll L call.statusPtr.toNat (intBytes status) k₁ = .ok k

/-- Exit statuses are delivered exactly once and waiters are not left behind. -/
structure WaitsExact (L : Layout) (s : WaitState) : Prop where
  /-- A process that is blocked in `sys_waitpid` has a child to wait for, and none
  that has exited. -/
  asleep : ∀ i call, s.waiting i = some call → (s.kernel.procs i).state = .blocked →
    (∃ j, isChild s.kernel call.pid i j = true) ∧
      ∀ j, isChild s.kernel call.pid i j = true → (s.kernel.procs j).state ≠ .zombie
  exitsOnce : (s.ledger.exits.map Prod.fst).Nodup
  reapedOnce : s.ledger.reaped.Nodup
  reapedExited : ∀ n ∈ s.ledger.reaped, n ∈ s.ledger.exits.map Prod.fst
  /-- A pass that returns a pid delivers the status of that child. -/
  delivers : ∀ i call pid k, Passes L s i call (.returned pid k) → 0 < pid →
    ∃ c status, (s.kernel.procs c).pid = pid ∧ Delivers L s i call c status k
  /-- A pass that returns -1 or 0 has reaped no one. -/
  refuses : ∀ i call r k, Passes L s i call (.returned r k) → r ≤ 0 → newlyReaped s.kernel k = []
  /-- Neither has a pass that blocks. -/
  blocks : ∀ i call k, Passes L s i call (.blocked k) → newlyReaped s.kernel k = []
  /-- The copy of the status, after the child has been reaped, does not report a failure. -/
  copies : ∀ i call k status k₁, s.kernel.currentProc = some i → s.waiting i = some call →
    call.statusPtr ≠ 0 →
    waitpidScan L call.pid i (s.kernel.resumed i) = .ok (.reaped k status, k₁) →
    ∀ k₂, copyToUser L call.statusPtr.toNat (intBytes status) k₁ ≠ .ok (false, k₂)

/-- The kernel in which a pass of process `i` scans the table: only the state of `i`
may differ from the one before. -/
structure Scans (i : Fin procMax) (k k₀ : Kernel) : Prop where
  running : k₀.running = some i
  record : ∀ j, (k₀.procs j).pid = (k.procs j).pid ∧
    (k₀.procs j).parentPid = (k.procs j).parentPid ∧
    (k₀.procs j).exitStatus = (k.procs j).exitStatus
  zombie : ∀ j, (k₀.procs j).state = .zombie ↔ (k.procs j).state = .zombie
  unused : ∀ j, (k₀.procs j).state = .unused ↔ (k.procs j).state = .unused

theorem Scans.isChild {i : Fin procMax} {k k₀ : Kernel} (h : Scans i k k₀) (pid : Int)
    (j : Fin procMax) : isChild k₀ pid i j = true ↔ isChild k pid i j = true := by
  rw [isChild_eq_true, isChild_eq_true, (h.record j).1, (h.record j).2.1, (h.record i).1, ne_eq,
    ne_eq, h.unused j]

theorem Awaits.scans {k : Kernel} {i : Fin procMax} {call : WaitCall} (hw : Awaits k i call)
    (hcur : k.currentProc = some i) : Scans i k (k.resumed i) := by
  have hself : (k.resumed i).procs i = { k.procs i with state := .runnable } :=
    k.setProc_self i _
  have hother : ∀ j, j ≠ i → (k.resumed i).procs j = k.procs j :=
    fun j hj => k.setProc_other _ hj
  refine ⟨(hw.resumes hcur).running, fun j => ?_, fun j => ?_, fun j => ?_⟩ <;>
    by_cases hj : j = i
  · subst hj
    rw [hself]
    exact ⟨rfl, rfl, rfl⟩
  · rw [hother j hj]
    exact ⟨rfl, rfl, rfl⟩
  · subst hj
    rw [hself]
    rcases hw.state with hs | hs <;> simp [hs]
  · rw [hother j hj]
  · subst hj
    rw [hself]
    rcases hw.state with hs | hs <;> simp [hs]
  · rw [hother j hj]

theorem Passes.result {s : WaitState} {i : Fin procMax} {call : WaitCall} {out : WaitOut}
    (hs : WaitInv s) (h : Passes L s i call out) :
    ∃ k₀, Scans i s.kernel k₀ ∧ PassResult (L := L) i call k₀ out := by
  cases h with
  | call hrun hmay hfree =>
      refine ⟨s.kernel, ⟨hrun, ?_, fun _ => .rfl, fun _ => .rfl⟩,
        sysWaitpid_result hs.pids hrun hmay⟩
      exact fun j => ⟨rfl, rfl, rfl⟩
  | resume hcur hcall =>
      have hw := hs.waits i call hcall
      have hresume := hw.resumes hcur
      exact ⟨s.kernel.resumed i, hw.scans hcur,
        waitPass_result (hresume.passage.pids hs.pids) hresume.running hresume.status⟩

theorem newlyReaped_nil {k k' : Kernel}
    (h : ∀ j, (k.procs j).state = .zombie → (k'.procs j).state ≠ .unused) :
    newlyReaped k k' = [] :=
  List.eq_nil_iff_forall_not_mem.mpr fun j hj =>
    h j (mem_newlyReaped.mp hj).1 (mem_newlyReaped.mp hj).2

theorem newlyReaped_singleton {k k' : Kernel} {c : Fin procMax}
    (hzombie : (k.procs c).state = .zombie) (hgone : (k'.procs c).state = .unused)
    (hother : ∀ j, j ≠ c → (k.procs j).state = .zombie → (k'.procs j).state ≠ .unused) :
    newlyReaped k k' = [c] := by
  have hmem : ∀ j ∈ newlyReaped k k', j = c := by
    intro j hj
    by_contra hne
    exact hother j hne (mem_newlyReaped.mp hj).1 (mem_newlyReaped.mp hj).2
  have hnodup : (newlyReaped k k').Nodup := (List.nodup_finRange procMax).filter _
  have hc : c ∈ newlyReaped k k' := mem_newlyReaped.mpr ⟨hzombie, hgone⟩
  rw [List.eq_replicate_of_mem hmem] at hnodup hc ⊢
  have hlength : (newlyReaped k k').length ≤ 1 := List.nodup_replicate.mp hnodup
  have hpos : (newlyReaped k k').length ≠ 0 := (List.mem_replicate.mp hc).1
  rw [show (newlyReaped k k').length = 1 by omega]
  rfl

theorem LedgerOk.exitUnique {k : Kernel} {g : Ledger} (hg : LedgerOk k g) {n : Nat}
    {status status' : Int} (h : (n, status) ∈ g.exits) (h' : (n, status') ∈ g.exits) :
    status' = status := by
  have heq := List.inj_on_of_nodup_map hg.exitsOnce h' h rfl
  exact congrArg Prod.snd heq

/-- A pass that reaps child `c` delivers its status. -/
theorem WaitInv.delivers {s : WaitState} (hs : WaitInv s) {i c : Fin procMax} {call : WaitCall}
    {k₀ k₁ k₂ : Kernel} (hscan : Scans i s.kernel k₀) (hchild : isChild k₀ call.pid i c = true)
    (hzombie : (k₀.procs c).state = .zombie) (hgone : k₁.procs = Function.update k₀.procs c .unused)
    (hstored : call.statusPtr = 0 ∧ k₂ = k₁ ∨ call.statusPtr ≠ 0 ∧
      storeAll L call.statusPtr.toNat (intBytes (k₀.procs c).exitStatus) k₁ = .ok k₂)
    (hprocs : k₂.procs = k₁.procs) :
    Delivers L s i call c (s.kernel.procs c).exitStatus k₂ := by
  have hz := (hscan.zombie c).mp hzombie
  have hgone₁ : k₁.procs c = .unused := by
    rw [hgone, Function.update_self]
  have hexit := hs.ledger.zombies c hz
  refine ⟨(hscan.isChild _ c).mp hchild, hz, hexit, fun status' h' => hs.ledger.exitUnique hexit h',
    hs.ledger.reapedGone c (by rw [hz]; decide), ?_, fun hptr => ⟨k₁, by rw [hgone₁]; rfl, ?_⟩⟩
  · refine newlyReaped_singleton hz ?_ fun j hj hjz => ?_
    · rw [hprocs, hgone₁]
      rfl
    · rw [hprocs, hgone, Function.update_of_ne hj, (hscan.zombie j).mpr hjz]
      decide
  · rcases hstored with ⟨hnull, -⟩ | ⟨-, hstore⟩
    · exact absurd hnull hptr
    · rw [← (hscan.record c).2.2]
      exact hstore

/-- In every state of every run, waiting for children is exact. -/
theorem WaitReachable.exact {s : WaitState} (h : WaitReachable L s) : WaitsExact L s := by
  have hs := h.inv
  constructor
  · intro i call hcall hblocked
    have hw := hs.waits i call hcall
    exact ⟨hw.child hblocked, hw.living hblocked⟩
  · exact hs.ledger.exitsOnce
  · exact hs.ledger.reapedOnce
  · exact hs.ledger.reapedExited
  · intro i call pid k hpass hpos
    obtain ⟨k₀, hscan, hres⟩ := hpass.result hs
    cases hres with
    | nothing r hr => exact absurd hpos (not_lt.mpr hr)
    | reaped c k₁ k₂ child zombie gone cur stored procs cur' =>
        exact ⟨c, _, ((hscan.record c).1).symm, hs.delivers hscan child zombie gone stored procs⟩
  · intro i call r k hpass hr
    obtain ⟨k₀, hscan, hres⟩ := hpass.result hs
    cases hres with
    | nothing r hr' =>
        refine newlyReaped_nil fun j hj => ?_
        rw [(hscan.zombie j).mpr hj]
        decide
    | reaped c k₁ k₂ child zombie gone cur stored procs cur' =>
        -- pids of children are positive
        have hused : (s.kernel.procs c).state ≠ .unused := by
          rw [(hscan.zombie c).mp zombie]
          decide
        rw [(hscan.record c).1, hs.pids c hused] at hr
        exact absurd hr (not_le.mpr (slotPid_pos c))
  · intro i call k hpass
    obtain ⟨k₀, hscan, hres⟩ := hpass.result hs
    cases hres with
    | blocked status child living =>
        refine newlyReaped_nil fun j hj => ?_
        by_cases hji : j = i
        · subst hji
          rw [Kernel.setProc_self]
          exact nofun
        · rw [Kernel.setProc_other _ _ hji, (hscan.zombie j).mpr hj]
          decide
  · intro i call pid status k₁ hcur hcall hptr hscan k₂
    have hw := hs.waits i call hcall
    have hresume := hw.resumes hcur
    obtain ⟨c, hchild, hzombie, -, -, hprocs, hcur₁⟩ := waitpidScan_reaped hscan
    have hci : i ≠ c := by
      rintro rfl
      rw [(Kernel.running_eq_some.mp hresume.running).2] at hzombie
      cases hzombie
    have hok : statusOk (k₁.procs i) call := by
      rw [hprocs, Function.update_of_ne hci]
      exact hresume.status
    rw [copyToUser_checked (hcur₁.trans hcur) hptr hok]
    cases storeAll L call.statusPtr.toNat (intBytes status) k₁ <;> exact nofun

end Sugimotos.Proc
