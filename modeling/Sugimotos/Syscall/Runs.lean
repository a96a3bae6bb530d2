/-
# Runs of the whole system

User processes trap with any cause and any registers, processes wait for their children and
come back, kernel processes call the file system, devices change what they like.  The first
part is `handle_trap` and `arch_handle_ecall`; the second part says that in every state of
every run each access of the kernel to user memory was one that a VMA allowed.
-/

import Sugimotos.Syscall.Access

namespace Sugimotos.Syscall

open Sugimotos.Math Sugimotos.Mm Sugimotos.Proc Sugimotos.Fs Sugimotos.Event

/-! ## Traps -/

section Model

variable (L : Layout)

abbrev scauseEcallFromUmode : UInt32 := 8
abbrev scauseEcallFromSmode : UInt32 := 9
abbrev scauseSupervisorExternalIrq : UInt32 := 0x80000009
abbrev scauseInstPageFault : UInt32 := 12
abbrev scauseLoadPageFault : UInt32 := 13
abbrev scauseStorePageFault : UInt32 := 15

/-- `SSTATUS_SPP`. -/
abbrev sstatusSpp : UInt32 := 0x100

def isSyscallScause (scause : UInt32) : Bool :=
  scause = scauseEcallFromUmode || scause = scauseEcallFromSmode

def pageFaultAccess (scause : UInt32) : Nat :=
  if scause = scauseInstPageFault then vmaProtX
  else if scause = scauseLoadPageFault then vmaProtR
  else if scause = scauseStorePageFault then vmaProtW
  else 0

/-- The process whose frame a call from user mode keeps. -/
def fromUser (f : TrapFrame) (s : Os) : Option (Fin procMax) :=
  if f.sstatus &&& sstatusSpp = 0 then s.kernel.currentProc else none

/-- The arguments of a system call. -/
def ecallArgs (f : TrapFrame) : SyscallArgs :=
  ⟨f.reg .a0, f.reg .a1, f.reg .a2, f.reg .a3, f.reg .a4, f.reg .a5⟩

/-- `arch_handle_ecall` up to the dispatch. -/
def archHandleEcallStart (f : TrapFrame) (s : Os) : TrapFrame × Os :=
  let f := { f with sepc := f.sepc + 4 }
  match fromUser f s with
  | none => (f, s)
  | some i =>
      (f, s.withKernel (s.kernel.setProc i { s.kernel.procs i with
        trapFrame := f
        sepc := f.sepc
        hasTrapFrame := true }))

/-- `arch_handle_ecall` after the dispatch, for the process `proc` that made the call from
user mode. -/
def archHandleEcallEnd (proc : Option (Fin procMax)) (f : TrapFrame) (result : SyscallResult)
    (s : Os) : TrapFrame × Os :=
  match proc with
  | none => (f.set .a0 (.ofInt result.value), s)
  | some i =>
      let f :=
        if result.contextReplaced then (s.kernel.procs i).trapFrame
        else f.set .a0 (.ofInt result.value)
      (f, s.withKernel (s.kernel.setProc i { s.kernel.procs i with
        trapFrame := f
        sepc := f.sepc }))

/-- `arch_handle_ecall`. -/
def archHandleEcall (f : TrapFrame) : SysCall TrapFrame := fun s =>
  let start := archHandleEcallStart f s
  match syscallDispatch L (start.1.reg .a7) (ecallArgs start.1) start.2 with
  | .error e => .error e
  | .ok (result, s') => .ok (archHandleEcallEnd (fromUser f s) start.1 result s')

/-- `handle_trap`.  What the devices do in an external interrupt is an operation of its own. -/
def handleTrap (scause stval : UInt32) (f : TrapFrame) : SysCall TrapFrame := fun s =>
  if scause = scauseSupervisorExternalIrq then .ok (f, s)
  else if isSyscallScause scause then archHandleEcall L f s
  else
    match s.kernel.currentProc with
    | none => .error (.stop .shutdown s.kernel.touched)
    | some i =>
        if ¬ (s.kernel.procs i).isUser then .error (.stop .shutdown s.kernel.touched)
        else
          let access := pageFaultAccess scause
          let fault :=
            if access = 0 then .ok (false, s.kernel.phys)
            else procHandleUserPageFault L false (s.kernel.procs i) stval.toNat access s.kernel.phys
          match fault with
          | .error e => .error (.stop e s.kernel.touched)
          | .ok (true, phys) => .ok (f, s.withKernel { s.kernel with phys := phys })
          | .ok (false, phys) =>
              .error (.exited (s.withKernel (procExit 128 { s.kernel with phys := phys })))

/-! ## Operations -/

/-- A process that waits inside `sys_waitpid`, with the frame of its trap. -/
structure Waiter where
  frame : TrapFrame
  call : WaitCall

/-- The system and the processes that wait for a child. -/
structure OsRun where
  os : Os
  waiting : Fin procMax → Option Waiter

/-- A call of the file system with a buffer of the kernel. -/
inductive FileCall
  | fsOpen (path : Option (List UInt8)) (flags : UInt32)
  | fsClose (fd : Int)
  | fsRead (fd : Int) (buf len : UInt32)
  | fsWrite (fd : Int) (buf : UInt32) (src : Nat → UInt8) (len : UInt32)
  | fsUnlink (path : Option (List UInt8))
  | fsRename (oldPath newPath : Option (List UInt8))

def FileCall.run (files : System) : FileCall → System
  | .fsOpen path flags => (Fs.fsOpen path flags.toNat files).2
  | .fsClose fd => (Fs.fsClose fd files).2
  | .fsRead fd buf len => (Fs.fsRead fd buf.toNat len.toNat files).2.2
  | .fsWrite fd buf src len => (Fs.fsWrite fd buf.toNat src len.toNat files).2
  | .fsUnlink path => (Fs.fsUnlink path files).2
  | .fsRename oldPath newPath => (Fs.fsRename oldPath newPath files).2

/-- The operations of a run. -/
inductive OsOp
  | kernel (op : Op)
  /-- The running user process traps. -/
  | trap (scause stval : UInt32) (f : TrapFrame)
  /-- The current process comes back from the `yield` inside `proc_waitpid`. -/
  | resume
  /-- A blocked process is made runnable for any reason. -/
  | wake (i : Fin procMax)
  /-- The current process blocks for a reason other than its children. -/
  | sleep
  | file (call : FileCall)
  /-- Interrupts and the console: what they change is outside the kernel and its files. -/
  | devices (events : Kevents) (sbi : Sbi) (display : Display) (pad : UInt32)

/-- The current process does not wait for a child. -/
def OsRun.free (r : OsRun) : Bool :=
  match r.os.kernel.currentProc with
  | none => true
  | some i => (r.waiting i).isNone

/-- A user process runs. -/
def OsRun.userRuns (r : OsRun) : Bool :=
  r.os.kernel.running.any fun i => (r.os.kernel.procs i).isUser

/-- Whether an operation can happen next.  Waiting and every access to user memory are made by
traps. -/
def OsOp.enabled (r : OsRun) : OsOp → Bool
  | .kernel (.waitpid _ _) => false
  | .kernel (.kernelLoad _) => false
  | .kernel (.kernelStore _ _) => false
  | .kernel (.switchTo next) => Proc.enabled r.os.kernel (.switchTo next)
  | .kernel op => Proc.enabled r.os.kernel op && r.free
  | .trap _ _ _ => r.userRuns && r.free
  | .resume => !r.free
  | .wake _ => true
  | .sleep => r.os.kernel.running.isSome && r.free
  | .file _ => r.os.kernel.running.isSome && r.free
  | .devices _ _ _ _ => true

/-- The state that a trap of process `i` with the frame `f` leaves. -/
def OsRun.settle (r : OsRun) (i : Fin procMax) (f : TrapFrame) {α : Type} :
    Except SysHalt (α × Os) → Except Stop OsRun
  | .ok (_, s) => .ok { r with os := s }
  | .error (.stop e _) => .error e
  | .error (.exited s) => .ok { r with os := s }
  | .error (.blocked call s) => .ok ⟨s, Function.update r.waiting i (some ⟨f, call⟩)⟩

/-- The state that a pass of `sys_waitpid` leaves; a call that returns ends its trap. -/
def OsRun.settleWait (r : OsRun) (i : Fin procMax) (w : Waiter) : WaitOut → Except Stop OsRun
  | .stop e _ => .error e
  | .blocked k => .ok { r with os := r.os.withKernel k }
  | .returned result k =>
      let f := { w.frame with sepc := w.frame.sepc + 4 }
      let proc := if f.sstatus &&& sstatusSpp = 0 then some i else none
      .ok ⟨(archHandleEcallEnd proc f ⟨result, false⟩ (r.os.withKernel k)).2,
        Function.update r.waiting i none⟩
  | .exited k => .ok ⟨r.os.withKernel k, Function.update r.waiting i none⟩

/-- What an operation does. -/
def osStep (op : OsOp) (r : OsRun) : Except Stop OsRun :=
  match op with
  | .kernel op => (step L op r.os.kernel).map fun k => { r with os := r.os.withKernel k }
  | .trap scause stval f =>
      match r.os.kernel.running with
      | none => .ok r
      | some i => r.settle i f (handleTrap L scause stval f r.os)
  | .resume =>
      match r.os.kernel.currentProc with
      | none => .ok r
      | some i =>
          match r.waiting i with
          | none => .ok r
          | some w => r.settleWait i w (resumeWait L i w.call r.os.kernel)
  | .wake i => (step L (.wake i) r.os.kernel).map fun k => { r with os := r.os.withKernel k }
  | .sleep =>
      match r.os.kernel.running with
      | none => .ok r
      | some i =>
          let k := r.os.kernel.setProc i { r.os.kernel.procs i with state := .blocked }
          .ok { r with os := r.os.withKernel k }
  | .file call => .ok { r with os := { r.os with files := call.run r.os.files } }
  | .devices events sbi display pad =>
      .ok { r with os :=
        { files := r.os.files, events := events, sbi := sbi, display := display, pad := pad } }

/-- The states of a run. -/
inductive OsReachable : OsRun → Prop
  | boot {mem mmu k sbi display pad} (h : boot L mem mmu = some k) :
      OsReachable ⟨⟨⟨k, fsInit⟩, keventInit, sbi, display, pad⟩, fun _ => none⟩
  | step {r r'} (op : OsOp) (hr : OsReachable r) (hop : op.enabled r = true)
      (h : osStep L op r = .ok r') : OsReachable r'

end Model

variable {L : Layout} {i : Fin procMax} {s : Os} {r r' : OsRun}

/-! ## A trap keeps the invariant -/

/-- The registers of the process in its record. -/
theorem setFrame_serving {k : Kernel} (h : Serving L i k) (f : TrapFrame) (b : Bool) :
    Serving L i (k.setProc i { k.procs i with
      trapFrame := f
      sepc := f.sepc
      hasTrapFrame := b }) := by
  have hrecord : SameSpace (k.procs i) { k.procs i with
      trapFrame := f
      sepc := f.sepc
      hasTrapFrame := b } := ⟨rfl, rfl, rfl, rfl, rfl, Iff.rfl⟩
  refine (h.guarded.of_touched (h.inv.kept_record hrecord).inv rfl).serving ?_ ?_
  · refine Kernel.running_eq_some.mpr ⟨h.cur, ?_⟩
    rw [Kernel.setProc_self]
    exact (Kernel.running_eq_some.mp h.running).2
  · rw [Kernel.setProc_self]
    exact h.user

theorem archHandleEcallStart_serving (h : Serving L i s.kernel) (f : TrapFrame) :
    Serving L i (archHandleEcallStart f s).2.kernel ∧
      Spares i s.kernel (archHandleEcallStart f s).2.kernel := by
  unfold archHandleEcallStart fromUser
  dsimp only
  rw [h.cur]
  by_cases hspp : f.sstatus &&& sstatusSpp = 0
  · rw [if_pos hspp]
    exact ⟨setFrame_serving h { f with sepc := f.sepc + 4 } true, Spares.setProc _ i _ _⟩
  · rw [if_neg hspp]
    exact ⟨h, .refl i _⟩

/-- The end of a call writes the frame of the caller at most. -/
theorem archHandleEcallEnd_keeps {proc : Option (Fin procMax)} (hproc : ∀ j, proc = some j → j = i)
    (h : Guarded L s.kernel) (f : TrapFrame) (result : SyscallResult) :
    Guarded L (archHandleEcallEnd proc f result s).2.kernel ∧
      Spares i s.kernel (archHandleEcallEnd proc f result s).2.kernel := by
  cases proc with
  | none => exact ⟨h, .refl i _⟩
  | some j =>
      obtain rfl := hproc j rfl
      unfold archHandleEcallEnd
      dsimp only
      generalize (if result.contextReplaced = true then _ else _ : TrapFrame) = f'
      have hrecord : SameSpace (s.kernel.procs j) { s.kernel.procs j with
          trapFrame := f'
          sepc := f'.sepc } := ⟨rfl, rfl, rfl, rfl, rfl, Iff.rfl⟩
      exact ⟨h.of_touched (h.inv.kept_record hrecord).inv rfl, Spares.setProc _ j _ _⟩

theorem archHandleEcall_keeps (h : Serving L i s.kernel) (f : TrapFrame) :
    Keeps L i s.kernel (archHandleEcall L f s) := by
  obtain ⟨hserving, hspares⟩ := archHandleEcallStart_serving h f
  have hproc : ∀ j, fromUser f s = some j → j = i := by
    intro j hj
    unfold fromUser at hj
    rw [h.cur] at hj
    split at hj
    · exact (Option.some.inj hj).symm
    · cases hj
  unfold archHandleEcall syscallDispatch
  dsimp only
  generalize (archHandleEcallStart f s).1 = f₁
  generalize (archHandleEcallStart f s).2 = s₁ at hserving hspares
  have hcall := handler_keeps hserving (f₁.reg .a7) (ecallArgs f₁)
  refine Keeps.after hspares ?_
  cases hres : handler L (f₁.reg .a7) (ecallArgs f₁) s₁ with
  | error e =>
      rw [hres] at hcall
      exact hcall.error
  | ok out =>
      rw [hres] at hcall
      obtain ⟨hguarded, hleft⟩ := hcall
      obtain ⟨hend, hspared⟩ := archHandleEcallEnd_keeps hproc hguarded f₁
        ⟨out.1, (f₁.reg .a7).toNat = sysExecNo && out.1 = 0⟩
      exact ⟨hend, hleft.trans hspared⟩

/-- A page fault that is resolved, or that ends the process. -/
theorem faultDone_leaves {k k' : Kernel} (h : Serving L i k) {addr access : Nat}
    (hdone : userPageFault L i addr access k = .ok k') : Guarded L k' ∧ Spares i k k' :=
  ⟨h.guarded.of_touched (faultDone_kept h.inv h.running hdone).inv (faultDone_touched hdone),
    (faultDone_change h.running hdone).spares h.cur⟩

theorem handleTrap_keeps (h : Serving L i s.kernel) (scause stval : UInt32) (f : TrapFrame) :
    Keeps L i s.kernel (handleTrap L scause stval f s) := by
  unfold handleTrap
  split
  · exact Serving.keeps h _
  split
  · exact archHandleEcall_keeps h f
  rw [h.cur]
  dsimp only
  rw [if_neg (not_not_intro h.user)]
  by_cases haccess : pageFaultAccess scause = 0
  · rw [if_pos haccess]
    exact procExit_leaves h 128
  · rw [if_neg haccess]
    cases hfault : procHandleUserPageFault L false (s.kernel.procs i) stval.toNat
        (pageFaultAccess scause) s.kernel.phys with
    | error e => exact h.touches
    | ok out =>
        obtain ⟨ok, phys⟩ := out
        have hdone : ∀ {k'}, faultDone s.kernel (.ok (ok, phys)) = .ok k' →
            Guarded L k' ∧ Spares i s.kernel k' := by
          intro k' hk'
          have hfaulted : userPageFault L i stval.toNat (pageFaultAccess scause) s.kernel =
              .ok k' := by
            unfold userPageFault
            rw [hfault]
            exact hk'
          exact faultDone_leaves h hfaulted
        cases ok with
        | true => exact hdone rfl
        | false => exact hdone rfl

/-! ## Runs -/

/-- A process that waits for a child is a user process and has not exited. -/
structure OsInv (L : Layout) (r : OsRun) : Prop where
  guarded : Guarded L r.os.kernel
  waiters : ∀ i w, r.waiting i = some w → Present r.os.kernel i

theorem Present.spares {k k' : Kernel} {i j : Fin procMax} (h : Present k j) (hne : j ≠ i)
    (hspares : Spares i k k') : Present k' j := by
  obtain ⟨huser, hused, hlive⟩ := hspares j hne h.used h.live
  exact ⟨huser.trans h.user, hused, hlive⟩

/-- A step of process `i`, after which only `i` may have begun or ended to wait. -/
theorem OsInv.after {r' : OsRun} (h : OsInv L r) (hguarded : Guarded L r'.os.kernel)
    (hspares : Spares i r.os.kernel r'.os.kernel)
    (hwaiting : ∀ j, j ≠ i → r'.waiting j = r.waiting j)
    (hself : ∀ w, r'.waiting i = some w → Present r'.os.kernel i) : OsInv L r' := by
  refine ⟨hguarded, fun j w hw => ?_⟩
  by_cases hj : j = i
  · subst hj
    exact hself w hw
  · rw [hwaiting j hj] at hw
    exact (h.waiters j w hw).spares hj hspares

theorem OsRun.free_waiting (hfree : r.free = true) (hcur : r.os.kernel.currentProc = some i) :
    r.waiting i = none := by
  unfold OsRun.free at hfree
  rw [hcur] at hfree
  exact Option.isNone_iff_eq_none.mp hfree

/-- A trap leaves the run in order, however it ends. -/
theorem OsInv.settle {α : Type} (h : OsInv L r) (hnone : r.waiting i = none) {f : TrapFrame}
    {m : Except SysHalt (α × Os)} (hm : Keeps L i r.os.kernel m) (hsettle : r.settle i f m = .ok r') :
    OsInv L r' := by
  have hidle : ∀ {P : Prop} w, r.waiting i = some w → P := by
    intro P w hw
    rw [hnone] at hw
    cases hw
  cases m with
  | ok out =>
      cases hsettle
      exact h.after hm.1 hm.2 (fun _ _ => rfl) hidle
  | error e =>
      cases e with
      | stop e => cases hsettle
      | exited s =>
          cases hsettle
          exact h.after hm.1 hm.2 (fun _ _ => rfl) hidle
      | blocked call s =>
          cases hsettle
          exact h.after hm.1 hm.2.1 (fun _ hj => Function.update_of_ne hj _ _) fun _ _ => hm.2.2

/-- A pass of `sys_waitpid` leaves the run in order. -/
theorem OsInv.settleWait (h : OsInv L r) {w : Waiter} {out : WaitOut}
    (hout : WaitKeeps L i r.os.kernel out) (huser : (r.os.kernel.procs i).isUser = true)
    (hsettle : r.settleWait i w out = .ok r') : OsInv L r' := by
  cases out with
  | stop e => cases hsettle
  | blocked k =>
      cases hsettle
      exact h.after hout.1 hout.2.1 (fun _ _ => rfl) fun _ _ => blocked_present hout huser
  | exited k =>
      cases hsettle
      refine h.after hout.1 hout.2 (fun _ hj => Function.update_of_ne hj _ _) fun w hw => ?_
      cases (Function.update_self i none r.waiting).symm.trans hw
  | returned result k =>
      obtain rfl := Except.ok.inj hsettle
      have hproc : ∀ j, (if w.frame.sstatus &&& sstatusSpp = 0 then some i else none) = some j →
          j = i := by
        intro j hj
        split at hj
        · exact (Option.some.inj hj).symm
        · cases hj
      obtain ⟨hend, hspared⟩ := archHandleEcallEnd_keeps (s := r.os.withKernel k) hproc hout.1
        { w.frame with sepc := w.frame.sepc + 4 } ⟨result, false⟩
      refine h.after hend (hout.2.trans hspared) (fun _ hj => Function.update_of_ne hj _ _)
        fun w hw => ?_
      cases (Function.update_self i none r.waiting).symm.trans hw

/-- A process comes back to `sys_waitpid`. -/
theorem OsInv.resumed (h : OsInv L r) {w : Waiter} (hcur : r.os.kernel.currentProc = some i)
    (hw : r.waiting i = some w) :
    WaitKeeps L i r.os.kernel (resumeWait L i w.call r.os.kernel) := by
  have hpresent := h.waiters i w hw
  have hguarded := setState_guarded h.guarded hpresent.used
    (show ProcState.runnable ≠ .unused by nofun)
  have hself : (r.os.kernel.resumed i).procs i =
      { r.os.kernel.procs i with state := .runnable } := Kernel.setProc_self ..
  have hrun : (r.os.kernel.resumed i).running = some i :=
    Kernel.running_eq_some.mpr ⟨hcur, by rw [hself]⟩
  have hsame : ((r.os.kernel.resumed i).procs i).isUser = (r.os.kernel.procs i).isUser := by
    rw [hself]
  have hpass := waitPass_keeps hguarded hrun (WaitCall.mayCall_iff.mpr
    (.inr (hsame.trans hpresent.user)) : w.call.mayCall _ = true)
  exact hpass.after (Spares.setProc _ i _ _) hsame

/-- An operation of the kernel by a process that does not wait. -/
theorem OsInv.kernelStep (h : OsInv L r) {op : Op} {k' : Kernel}
    (hop : Proc.enabled r.os.kernel op = true) (hstep : step L op r.os.kernel = .ok k')
    (hcur : r.os.kernel.currentProc = some i) (hnone : r.waiting i = none) :
    OsInv L { r with os := r.os.withKernel k' } := by
  refine h.after (step_guarded h.guarded op hop hstep) ((step_change op hstep).spares hcur)
    (fun _ _ => rfl) fun w hw => ?_
  cases hnone.symm.trans hw

/-- Waking leaves the process there. -/
theorem OsInv.wake (h : OsInv L r) (i : Fin procMax) {k' : Kernel}
    (hstep : Proc.step L (.wake i) r.os.kernel = .ok k') :
    OsInv L { r with os := r.os.withKernel k' } := by
  simp only [Proc.step] at hstep
  split at hstep
  · rename_i hblocked
    cases hstep
    have hused : (r.os.kernel.procs i).state ≠ .unused := by
      rw [hblocked]
      decide
    exact h.after (setState_guarded h.guarded hused (by decide)) (Spares.setProc _ i _ _)
      (fun _ _ => rfl) fun w hw => .setState (h.waiters i w hw).user (by decide) (by decide)
  · cases hstep
    exact ⟨h.guarded, h.waiters⟩

theorem FileCall.run_fdsOnly (call : FileCall) (files : System) :
    FdsOnly files.kernel (call.run files).kernel := by
  cases call with
  | fsOpen path flags => exact fsOpen_fdsOnly ..
  | fsClose fd => exact fsClose_fdsOnly ..
  | fsRead fd buf len => exact fsRead_fdsOnly ..
  | fsWrite fd buf src len => exact fsWrite_fdsOnly ..
  | fsUnlink path => exact fsUnlink_fdsOnly ..
  | fsRename oldPath newPath => exact fsRename_fdsOnly ..

theorem OsInv.step (h : OsInv L r) (op : OsOp) (hop : op.enabled r = true)
    (hstep : osStep L op r = .ok r') : OsInv L r' := by
  cases op with
  | kernel op =>
      obtain ⟨k', hcall, rfl⟩ := map_ok hstep
      cases op with
      | switchTo next =>
          refine ⟨step_guarded h.guarded (.switchTo next) hop hcall, fun i w hw => ?_⟩
          cases hcall
          unfold Proc.switchTo
          split
          · exact h.waiters i w hw
          · exact ⟨(h.waiters i w hw).user, (h.waiters i w hw).used, (h.waiters i w hw).live⟩
      | waitpid pid options => cases hop
      | kernelLoad addr => cases hop
      | kernelStore addr value => cases hop
      | _ =>
          obtain ⟨hruns, hfree⟩ := Bool.and_eq_true_iff.mp hop
          obtain ⟨i, hrun⟩ := Option.isSome_iff_exists.mp hruns
          have hcur := (Kernel.running_eq_some.mp hrun).1
          exact h.kernelStep hruns hcall hcur (OsRun.free_waiting hfree hcur)
  | trap scause stval f =>
      simp only [osStep] at hstep
      split at hstep
      · cases hstep
        exact h
      · rename_i i hrun
        obtain ⟨huser, hfree⟩ := Bool.and_eq_true_iff.mp hop
        unfold OsRun.userRuns at huser
        rw [hrun] at huser
        have hserving := h.guarded.serving hrun huser
        exact h.settle (OsRun.free_waiting hfree hserving.cur)
          (handleTrap_keeps hserving scause stval f) hstep
  | resume =>
      simp only [osStep] at hstep
      split at hstep
      · cases hstep
        exact h
      rename_i i hcur
      split at hstep
      · cases hstep
        exact h
      rename_i w hw
      exact h.settleWait (h.resumed hcur hw) (h.waiters i w hw).user hstep
  | wake j =>
      obtain ⟨k', hcall, rfl⟩ := map_ok hstep
      exact h.wake j hcall
  | sleep =>
      simp only [osStep] at hstep
      split at hstep
      · cases hstep
        exact h
      · rename_i i hrun
        cases hstep
        obtain ⟨-, hfree⟩ := Bool.and_eq_true_iff.mp hop
        obtain ⟨hcur, hstate⟩ := Kernel.running_eq_some.mp hrun
        have hused : (r.os.kernel.procs i).state ≠ .unused := by
          rw [hstate]
          nofun
        refine h.after (setState_guarded h.guarded hused nofun) (Spares.setProc _ i _ _)
          (fun _ _ => rfl) fun w hw => ?_
        cases (OsRun.free_waiting hfree hcur).symm.trans hw
  | file call =>
      cases hstep
      have hfds := call.run_fdsOnly r.os.files
      exact ⟨hfds.guarded h.guarded, fun i w hw => hfds.present (h.waiters i w hw)⟩
  | devices events sbi display pad =>
      cases hstep
      exact ⟨h.guarded, h.waiters⟩

theorem OsReachable.inv (h : OsReachable L r) : OsInv L r := by
  induction h with
  | boot hboot =>
      refine ⟨⟨boot_inv hboot, ?_⟩, nofun⟩
      obtain ⟨satp, s, -, rfl⟩ := boot_some hboot
      have htouched : (createProcess (bootKernel satp s)).2.touched = [] := createProcess_touched _
      intro t ht
      cases htouched ▸ ht
  | step op _ hop hstep ih => exact ih.step op hop hstep

/-- In every state of every run, each access that the kernel has made to user memory lay, when
it was made, in a VMA of the process it worked for that allowed it. -/
theorem touches_allowed (h : OsReachable L r) : r.os.kernel.TouchesAllowed := h.inv.guarded.touches

/-! ## One call -/

/-- The accesses to user memory up to the point where a call ends without returning, or is left
to wait. -/
def SysHalt.touched : SysHalt → List UserTouch
  | .stop _ touched => touched
  | .blocked _ s => s.kernel.touched
  | .exited s => s.kernel.touched

/-- Up to the end of a call, however it ends. -/
def touchedBy {α : Type} : Except SysHalt (α × Os) → List UserTouch
  | .ok (_, s) => s.kernel.touched
  | .error e => e.touched

/-- Up to the end of a pass of `sys_waitpid`. -/
def touchedByWait : WaitOut → List UserTouch
  | .stop _ touched => touched
  | .blocked k => k.touched
  | .returned _ k => k.touched
  | .exited k => k.touched

theorem Keeps.touched {k : Kernel} {α : Type} {m : Except SysHalt (α × Os)} (h : Keeps L i k m) :
    ∀ t ∈ touchedBy m, t.Allowed := by
  cases m with
  | ok out => exact h.1.touches
  | error e =>
      cases e with
      | stop e touched => exact h
      | blocked call s => exact h.1.touches
      | exited s => exact h.1.touches

theorem waitKeeps_touched {k : Kernel} {out : WaitOut} (h : WaitKeeps L i k out) :
    ∀ t ∈ touchedByWait out, t.Allowed := by
  cases out with
  | stop e touched => exact h
  | blocked k' => exact h.1.touches
  | returned result k' => exact h.1.touches
  | exited k' => exact h.1.touches

/-- Whatever number and arguments a user process passes, in whatever state of a run: up to the
end of the call, each access to user memory lay, when it was made, in a VMA of the process that
called which allows it.  That is so, too, of a call that goes on after a wait. -/
theorem syscall_touches_allowed (h : OsReachable L r) (i : Fin procMax) :
    (r.os.kernel.running = some i → (r.os.kernel.procs i).isUser = true →
      ∀ (f : TrapFrame) (number : UInt32) (args : SyscallArgs),
        ∀ t ∈ touchedBy (syscallDispatch L number args (archHandleEcallStart f r.os).2),
          t.Allowed) ∧
    (r.os.kernel.currentProc = some i → ∀ w, r.waiting i = some w →
      ∀ t ∈ touchedByWait (resumeWait L i w.call r.os.kernel), t.Allowed) := by
  have hinv := h.inv
  refine ⟨fun hrun huser f number args => ?_, fun hcur w hw => waitKeeps_touched (hinv.resumed hcur hw)⟩
  have hserving := (archHandleEcallStart_serving (hinv.guarded.serving hrun huser) f).1
  have hcall := (handler_keeps hserving number args).touched
  unfold syscallDispatch
  cases hres : handler L number args (archHandleEcallStart f r.os).2 with
  | error e =>
      rw [hres] at hcall
      exact hcall
  | ok out =>
      rw [hres] at hcall
      exact hcall

/-! ## A small run -/

/-- A list of operations, each of which can happen when its turn comes. -/
def osRun (L : Layout) : List OsOp → OsRun → Option OsRun
  | [], r => some r
  | op :: ops, r =>
      if op.enabled r then
        match osStep L op r with
        | .ok r' => osRun L ops r'
        | .error _ => none
      else none

theorem OsReachable.run {ops : List OsOp} (hr : OsReachable L r) (h : osRun L ops r = some r') :
    OsReachable L r' := by
  induction ops generalizing r with
  | nil =>
      cases h
      exact hr
  | cons op ops ih =>
      unfold osRun at h
      split at h
      · rename_i hop
        split at h
        · rename_i r₁ hstep
          exact ih (hr.step op hop hstep) h
        · cases h
      · cases h

/-- The small machine with its files and devices, after the given operations. -/
def smallOs (ops : List OsOp) : Option OsRun :=
  smallBoot.bind fun k =>
    osRun smallLayout ops
      ⟨⟨⟨k, fsInit⟩, keventInit, .init [], ⟨true, 4, 2, 16, 0⟩, 0⟩, fun _ => none⟩

theorem smallOs_reachable {ops : List OsOp} {r : OsRun} (h : smallOs ops = some r) :
    OsReachable smallLayout r := by
  obtain ⟨k, hk, hrun⟩ := Option.bind_eq_some_iff.mp h
  exact (OsReachable.boot hk).run hrun

/-- A frame with a call in it. -/
def callFrame (number a0 a1 a2 : UInt32) : TrapFrame :=
  (((TrapFrame.zero.set .a7 number).set .a0 a0).set .a1 a1).set .a2 a2

/-- A process puts a name on its stack, opens a file of that name, writes the name to it and asks
for it to be read into the kernel, which is refused. -/
def fileTraps : List OsOp :=
  [.kernel (.createUserProcess smallEntry), .kernel (.switchTo 1),
    .kernel (.userStore 0x3FFFFFF0 97),
    .trap 8 0 (callFrame 20 0x3FFFFFF0 0x103 0),
    .trap 8 0 (callFrame 23 0 0x3FFFFFF0 2),
    .trap 8 0 (callFrame 22 0 0x80200000 2)]

theorem touches_allowed_small :
    ∃ r, smallOs fileTraps = some r ∧ r.os.kernel.touched.length = 4 ∧ r.os.kernel.TouchesAllowed := by
  have hsome : (smallOs fileTraps).any (fun r => decide (r.os.kernel.touched.length = 4)) = true := by
    decide +kernel
  obtain ⟨r, hr, hlength⟩ := (Option.any_eq_true _ _).mp hsome
  exact ⟨r, hr, of_decide_eq_true hlength, touches_allowed (smallOs_reachable hr)⟩

/-- A process has a file and a page that it can only write, and asks for the file to be read
there. -/
def writeOnlyTraps : List OsOp :=
  [.kernel (.createUserProcess smallEntry), .kernel (.switchTo 1),
    .kernel (.userStore 0x3FFFFFF0 97),
    .trap 8 0 (callFrame 20 0x3FFFFFF0 0x103 0),
    .trap 8 0 (callFrame 23 0 0x3FFFFFF0 2),
    .trap 8 0 (callFrame 20 0x3FFFFFF0 0 0),
    .trap 8 0 (callFrame 40 0x20000000 0x1000 2)]

/-- A process waits for its child, which exits. -/
def waitTraps : List OsOp :=
  [.kernel (.createUserProcess smallEntry), .kernel (.switchTo 1),
    .trap 8 0 ((callFrame 5 0 0 0).set .sp 0x3FFFFFF0),
    .trap 8 0 (callFrame 7 0x3FFFFFF0 0 0),
    .kernel (.switchTo 2), .trap 8 0 (callFrame 4 7 0 0), .kernel (.switchTo 1)]

/-- A read of two bytes that never comes to its end, and a wait that delivers a status. -/
theorem syscall_touches_allowed_small :
    (∃ r, smallOs writeOnlyTraps = some r ∧
      let touched := touchedBy (syscallDispatch smallLayout 22 ⟨1, 0x20000000, 2, 0, 0, 0⟩
        (archHandleEcallStart .zero r.os).2)
      touched.length = 7 ∧ ∀ t ∈ touched, t.Allowed) ∧
    ∃ r w, smallOs waitTraps = some r ∧ r.waiting 1 = some w ∧
      let touched := touchedByWait (resumeWait smallLayout 1 w.call r.os.kernel)
      touched.length = 4 ∧ ∀ t ∈ touched, t.Allowed := by
  constructor
  · have hsome : (smallOs writeOnlyTraps).any (fun r =>
        decide (r.os.kernel.running = some (1 : Fin procMax)) && (r.os.kernel.procs 1).isUser &&
        decide ((touchedBy (syscallDispatch smallLayout 22 ⟨1, 0x20000000, 2, 0, 0, 0⟩
          (archHandleEcallStart .zero r.os).2)).length = 7)) = true := by
      decide +kernel
    obtain ⟨r, hr, hall⟩ := (Option.any_eq_true _ _).mp hsome
    simp only [Bool.and_eq_true, decide_eq_true_eq] at hall
    obtain ⟨⟨hrun, huser⟩, hlength⟩ := hall
    exact ⟨r, hr, hlength,
      (syscall_touches_allowed (smallOs_reachable hr) 1).1 hrun huser .zero 22 _⟩
  · have hsome : (smallOs waitTraps).any (fun r =>
        decide (r.os.kernel.currentProc = some (1 : Fin procMax)) &&
        (r.waiting 1).any (fun w => decide ((touchedByWait
          (resumeWait smallLayout 1 w.call r.os.kernel)).length = 4))) = true := by
      decide +kernel
    obtain ⟨r, hr, hall⟩ := (Option.any_eq_true _ _).mp hsome
    rw [Bool.and_eq_true, decide_eq_true_eq] at hall
    obtain ⟨w, hw, hlength⟩ := (Option.any_eq_true _ _).mp hall.2
    exact ⟨r, w, hr, hw, of_decide_eq_true hlength,
      (syscall_touches_allowed (smallOs_reachable hr) 1).2 hall.1 w hw⟩

end Sugimotos.Syscall
