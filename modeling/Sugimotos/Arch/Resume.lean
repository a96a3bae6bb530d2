/-
# What a process finds when it goes on

The results about the trap and switch code, over whole runs of the machine: a trap never writes
to what anybody needs, a process goes on after a trap with the registers it had, whatever ran in
between, and so does one that called `yield`; a new process starts where it has been told to.
-/

import Sugimotos.Arch.Waiting

namespace Sugimotos.Arch

open Sugimotos.Math Sugimotos.Mm Sugimotos.Proc

/-! ## Where a trap writes -/

/-- A trap at any time writes to the stack of the process that runs, and to no word that the
return from another trap, a switch or the start of a process will read. -/
theorem trap_writes_free {L : Image} {m : Machine} (h : Reachable L m)
    (hroom : m.hart.user = false → L.bottom m.current + frameSize.toNat ≤ (m.hart.reg .sp).toNat)
    {addr : UInt32} (haddr : (m.trap L).hart.mem addr ≠ m.hart.mem addr) :
    L.InStack m.current addr ∧ ¬ m.Held L addr := by
  have hinv := h.inv
  have hframe : InFrame (entryBase (m.hart.trap L.kernelEntry)) addr := by
    by_contra hno
    rw [Machine.trap_mem] at haddr
    exact haddr (putFrame_other _ _ hno)
  obtain ⟨hin, hbelow⟩ := hinv.trap_inFrame hroom hframe
  refine ⟨hin, ?_⟩
  rintro (rfl | ⟨i, hheld⟩)
  · exact L.currentProc_notMem _ (.inl hin)
  · have hsame : i ≠ m.current → ¬ L.InSlot i addr := fun hi => Image.InSlot.apart hi.symm (.inl hin)
    rcases hheld with htf | ⟨a, ha, hf⟩ | ⟨sp, frame, acts, hthread, hword⟩
    · by_cases hi : i = m.current
      · subst hi
        exact L.trapFrame_notStack _ htf hin
      · exact hsame hi (.inr (.inr htf))
    · by_cases hi : i = m.current
      · subst hi
        cases huser : m.hart.user with
        | true =>
            have hnone : (m.thread m.current).acts = [] := (hinv.onStack.user huser).2
            rw [hnone] at ha
            cases ha
        | false =>
            have hsp := hinv.entrySp_kernel huser
            have hlow := ((hinv.onStack.stacked huser).inFrame ha hf).1
            rw [hsp] at hbelow
            omega
      · have hready := hinv.others i hi
        cases hthread : m.thread i with
        | unused =>
            rw [hthread] at ha
            cases ha
        | running acts =>
            rw [hthread] at hready
            exact hready
        | parked sp frame acts =>
            rw [hthread] at hready ha
            have hleft : Left L m.hart.mem i sp frame acts := hready
            exact hsame hi (.inl (hleft.inFrame ha hf))
    · have hleft := hinv.parked_left hthread
      refine hsame (hinv.parked_ne hthread) ?_
      rcases hword with heq | hw
      · exact .inr (.inl heq)
      · exact .inl (hleft.inSwitch hw)

/-- A system call is interrupted while the idle process waits. -/
theorem trap_writes_free_small : smallCall.acts.length = 1 ∧ smallCall.Waits 0 ∧
    smallImage.InStack 1 (entryBase (smallCall.hart.trap smallImage.kernelEntry) + sepcOffset) ∧
      ¬ smallCall.Held smallImage
        (entryBase (smallCall.hart.trap smallImage.kernelEntry) + sepcOffset) := by
  have hacts : smallCall.acts.length = 1 := by decide +kernel
  have hwaits : smallCall.Waits 0 := by decide +kernel
  have hwrites : (smallCall.trap smallImage).hart.mem
      (entryBase (smallCall.hart.trap smallImage.kernelEntry) + sepcOffset) ≠
        smallCall.hart.mem (entryBase (smallCall.hart.trap smallImage.kernelEntry) + sepcOffset) := by
    decide +kernel
  exact ⟨hacts, hwaits, trap_writes_free smallCall_reachable (by decide +kernel) hwrites⟩

/-! ## From a trap to its return -/

/-- Where the traps under way came from. -/
def Thread.origins (t : Thread) : List (UInt32 × TrapFrame) := t.acts.map fun a => (a.base, a.context)

theorem Machine.restage_origins (m : Machine) (stage : Stage) :
    (m.restage stage).map (fun a => (a.base, a.context)) =
      m.acts.map fun a => (a.base, a.context) := by
  unfold Machine.restage
  cases m.acts <;> rfl

/-- What `go` does to the traps under way. -/
theorem Machine.go_origins (m : Machine) (h : Hart) (acts : List Activation) (i : Fin procMax) :
    ((m.go h acts).thread i).origins =
      if i = m.current then acts.map fun a => (a.base, a.context) else (m.thread i).origins := by
  by_cases hi : i = m.current
  · subst hi
    have hself : (m.go h acts).thread m.current = .running acts := Function.update_self ..
    rw [hself, if_pos rfl]
    rfl
  · have hother : (m.go h acts).thread i = m.thread i := Function.update_of_ne hi ..
    rw [hother, if_neg hi]

/-- Where the traps under way came from does not depend on how far the kernel is with them. -/
theorem Machine.restaged_origins (m : Machine) (h : Hart) (stage : Stage) (i : Fin procMax) :
    ((m.go h (m.restage stage)).thread i).origins = (m.thread i).origins := by
  rw [Machine.go_origins, Machine.restage_origins]
  by_cases hi : i = m.current
  · rw [if_pos hi, hi]
    rfl
  · rw [if_neg hi]

/-- A step adds a trap, takes the latest one off or leaves the traps of a process as they are,
unless its record is cleared. -/
theorem Step.origins {L : Image} {m m' : Machine} (h : Step L m m') (i : Fin procMax) :
    (m'.thread i).origins = (m.thread i).origins ∨
      (∃ o, (m'.thread i).origins = o :: (m.thread i).origins) ∨
      (m'.thread i).origins = (m.thread i).origins.tail ∨ (m'.thread i).origins = [] := by
  have hcurrent : ∀ acts, m.acts = acts →
      (m.thread m.current).origins = acts.map fun a => (a.base, a.context) := by
    rintro acts rfl
    rfl
  cases h with
  | userRun | kernelRun => exact .inl rfl
  | trap hroom =>
      rw [Machine.trap, Machine.go_origins]
      by_cases hi : i = m.current
      · rw [if_pos hi, hi]
        exact .inr (.inl ⟨_, rfl⟩)
      · rw [if_neg hi]
        exact .inl rfl
  | leave huser hacts hstage hexecd hsp =>
      rw [Machine.leave, Machine.go_origins]
      by_cases hi : i = m.current
      · rw [if_pos hi, hi, List.map_tail]
        exact .inr (.inr (.inl rfl))
      · rw [if_neg hi]
        exact .inl rfl
  | ecallStart huser hacts hstage => exact .inl (m.restaged_origins _ _ i)
  | exec args huser hacts hstage hmode => exact .inl (m.restaged_origins _ _ i)
  | ecallEnd value huser hacts hstage => exact .inl (m.restaged_origins _ _ i)
  | ecallReplaced huser hacts hstage => exact .inl (m.restaged_origins _ _ i)
  | @switchTo j sp frame acts huser hj hprev hnext hra hroom =>
      have hthread : (m.switchTo L j).thread = Function.update
          (Function.update m.thread m.current
            (.parked (m.hart.reg .sp + -switchSize) (leftFrame m.hart) m.acts)) j
          (.running (m.thread j).acts) := rfl
      rw [hthread]
      by_cases hij : i = j
      · rw [hij, Function.update_self]
        exact .inl rfl
      · rw [Function.update_of_ne hij]
        by_cases hi : i = m.current
        · rw [hi, Function.update_self]
          exact .inl rfl
        · rw [Function.update_of_ne hi]
          exact .inl rfl
  | @create j birth huser hj =>
      have hthread : (m.create L j birth).thread = Function.update m.thread j
          (.parked (L.procAddr j + stackTopOffset + -switchSize)
            (switchAt (archInitSwitchContext (L.procAddr j) (birth.entry L) birth.isUser m.hart)
              (L.procAddr j + stackTopOffset + -switchSize)) []) := rfl
      rw [hthread]
      by_cases hij : i = j
      · rw [hij, Function.update_self]
        exact .inr (.inr (.inr rfl))
      · rw [Function.update_of_ne hij]
        exact .inl rfl
  | @release j sp frame acts mem huser hj hidle hmem hzero =>
      dsimp only
      by_cases hij : i = j
      · rw [hij, Function.update_self]
        exact .inr (.inr (.inr rfl))
      · rw [Function.update_of_ne hij]
        exact .inl rfl

/-- As long as a process has more traps under way than once, those are the same. -/
theorem Step.origins_kept {L : Image} {m m' : Machine} (h : Step L m m') {i : Fin procMax}
    {o : UInt32 × TrapFrame} {os : List (UInt32 × TrapFrame)}
    (hsuffix : o :: os <:+ (m.thread i).origins)
    (hdepth : os.length < (m'.thread i).acts.length) : o :: os <:+ (m'.thread i).origins := by
  have hlength : os.length < (m'.thread i).origins.length := by
    unfold Thread.origins
    rw [List.length_map]
    exact hdepth
  rcases h.origins i with heq | ⟨x, heq⟩ | heq | heq
  · rw [heq]
    exact hsuffix
  · rw [heq]
    exact hsuffix.trans (List.suffix_cons ..)
  · rw [heq] at hlength ⊢
    cases horigins : (m.thread i).origins with
    | nil =>
        rw [horigins] at hlength
        cases hlength
    | cons x xs =>
        rw [horigins] at hsuffix hlength
        rcases List.suffix_cons_iff.mp hsuffix with hall | htail
        · cases hall
          exact absurd hlength (lt_irrefl _)
        · exact htail
  · rw [heq] at hlength
    cases hlength

theorem RunWhile.origins {L : Image} {m m' : Machine} {i : Fin procMax}
    {o : UInt32 × TrapFrame} {os : List (UInt32 × TrapFrame)}
    (hrun : RunWhile L (fun m => os.length < (m.thread i).acts.length) m m')
    (hsuffix : o :: os <:+ (m.thread i).origins) : o :: os <:+ (m'.thread i).origins := by
  induction hrun with
  | refl => exact hsuffix
  | tail _ hstep ih => exact hstep.1.origins_kept ih hstep.2

/-- The registers that a process is given back: a user process whose stack pointer was zero gets
the end of its kernel stack. -/
def Machine.regBack (L : Image) (m : Machine) : Reg → UInt32 :=
  if m.hart.user = true ∧ m.hart.reg .sp = 0 then
    Function.update m.hart.reg .sp (L.top m.current)
  else m.hart.reg

theorem Machine.regBack_eq_iff (L : Image) (m : Machine) :
    m.regBack L = m.hart.reg ↔ ¬ (m.hart.user = true ∧ m.hart.reg .sp = 0) := by
  unfold Machine.regBack
  by_cases hzero : m.hart.user = true ∧ m.hart.reg .sp = 0
  · rw [if_pos hzero]
    refine iff_of_false (fun heq => ?_) fun hno => hno hzero
    have hsp : L.top m.current = m.hart.reg .sp := by
      rw [← Function.update_self Reg.sp (L.top m.current) m.hart.reg, heq]
    have htop := (L.bottom_le_top m.current).2
    rw [hsp, hzero.2] at htop
    exact absurd htop (by decide)
  · rw [if_neg hzero]
    exact iff_of_true rfl hzero

/-- The frame of a trap holds the registers that are given back. -/
theorem TrapInv.stored_reg {L : Image} {m : Machine} (hinv : TrapInv L m) {a : Activation}
    (hbase : a.base = entryBase (m.hart.trap L.kernelEntry)) (hcontext : a.context = m.context) :
    a.stored.reg = m.regBack L := by
  have hmode : fromUser m.context.sstatus = m.hart.user := fromUser_trapStatus ..
  have hold : m.context.reg = m.hart.reg := rfl
  unfold Activation.stored Machine.regBack
  rw [hcontext, hmode, hold]
  by_cases hzero : m.hart.user = true ∧ m.hart.reg .sp = 0
  · have hsp := hinv.entrySp_user hzero.1
    have hend : a.base + frameSize = L.top m.current := by
      rw [hbase, ← hsp]
      exact add_neg_add ..
    rw [if_pos hzero, if_pos hzero, hend]
    rfl
  · rw [if_neg hzero, if_neg hzero]
    rfl

/-- User mode is about to run the first instruction of a program. -/
structure StartsProgram (h : Hart) (args : ExecArgs) : Prop where
  user : h.user = true
  pc : h.pc = .ofNat args.entry
  sp : h.reg .sp = .ofNat args.stackTop
  a0 : h.reg .a0 = .ofNat args.argc
  a1 : h.reg .a1 = .ofNat args.argv
  rest : ∀ r, r ≠ .sp → r ≠ .a0 → r ≠ .a1 → h.reg r = 0
  interrupts : h.csr .sstatus &&& sstatusSie ≠ 0

theorem ExecArgs.starts (args : ExecArgs) (h : Hart) (sscratch : UInt32) :
    StartsProgram (resumed h args.context sscratch) args where
  user := args.context_fromUser
  pc := rfl
  sp := rfl
  a0 := rfl
  a1 := rfl
  rest r hsp ha0 ha1 := by
    show Function.update (Function.update (Function.update _ Reg.sp _) Reg.a0 _) Reg.a1 _ r = 0
    rw [Function.update_of_ne ha1, Function.update_of_ne ha0, Function.update_of_ne hsp]
    rfl
  interrupts := by
    show sretStatus args.context.sstatus &&& sstatusSie ≠ 0
    rw [args.context_sstatus]
    decide

/-- While the trap is under way, its record on the stack is that of when it was taken. -/
theorem RunWhile.trap_origin {L : Image} {m₁ m₂ : Machine}
    (hrun : RunWhile L (fun m => m₁.acts.length < (m.thread m₁.current).acts.length)
      (m₁.trap L) m₂) (hcurrent : m₂.current = m₁.current) {a : Activation}
    {rest : List Activation} (hacts : m₂.acts = a :: rest)
    (hdepth : rest.length = m₁.acts.length) :
    a.base = entryBase (m₁.hart.trap L.kernelEntry) ∧ a.context = m₁.context := by
  have htrap : ((m₁.trap L).thread m₁.current).origins =
      (entryBase (m₁.hart.trap L.kernelEntry), m₁.context) ::
        (m₁.thread m₁.current).origins := by
    rw [Machine.trap, Machine.go_origins, if_pos rfl]
    rfl
  have hlength : (m₁.thread m₁.current).origins.length = m₁.acts.length := List.length_map ..
  rw [← hlength] at hrun
  have hkept := hrun.origins ⟨[], htrap.symm⟩
  have hlast : (m₂.thread m₁.current).origins =
      (a.base, a.context) :: rest.map fun a => (a.base, a.context) := by
    rw [← hcurrent]
    show m₂.acts.map _ = _
    rw [hacts]
    rfl
  rw [hlast] at hkept
  have heq := hkept.eq_of_length (by
    rw [List.length_cons, List.length_cons, List.length_map, hlength, hdepth])
  have hhead := List.head_eq_of_cons_eq heq
  exact ⟨(congrArg Prod.fst hhead).symm, (congrArg Prod.snd hhead).symm⟩

/-- The process goes on where it was interrupted. -/
theorem RunWhile.goes_on {L : Image} {m₁ m₂ : Machine} (h : Reachable L m₁)
    (hroom : m₁.hart.user = false →
      L.bottom m₁.current + frameSize.toNat ≤ (m₁.hart.reg .sp).toNat)
    (hrun : RunWhile L (fun m => m₁.acts.length < (m.thread m₁.current).acts.length)
      (m₁.trap L) m₂) (hcurrent : m₂.current = m₁.current) {a : Activation}
    {rest : List Activation} (hacts : m₂.acts = a :: rest) (hdepth : rest.length = m₁.acts.length)
    (huser : m₂.hart.user = false) (hsp : m₂.hart.reg .sp = a.base) :
    m₂.leave.hart = resumed m₂.hart a.frame (exitScratch m₂.hart a.frame) ∧
      (∀ args, a.stage = .replaced args → m₁.hart.user = true) ∧
      ((∀ args, a.stage ≠ .replaced args) → m₂.leave.hart.user = m₁.hart.user ∧
        (m₂.leave.hart.csr .sstatus &&& sstatusSie = 0 ↔ m₁.hart.csr .sstatus &&& sstatusSie = 0)) ∧
      (a.stage = .taken → m₂.leave.hart.reg = m₁.regBack L ∧ m₂.leave.hart.pc = m₁.hart.pc) ∧
      ∀ value, a.stage = .answered value →
        m₂.leave.hart.reg = Function.update (m₁.regBack L) .a0 value ∧
          m₂.leave.hart.pc = m₁.hart.pc + 4 := by
  have hstart : Reachable L (m₁.trap L) := h.step (.trap hroom)
  have hinv := (hrun.reachable hstart).inv
  obtain ⟨hbase, hcontext⟩ := hrun.trap_origin hcurrent hacts hdepth
  have hreg := h.inv.stored_reg hbase hcontext
  have hmode : fromUser m₁.context.sstatus = m₁.hart.user := fromUser_trapStatus ..
  have hleave : m₂.leave.hart = resumed m₂.hart a.frame (exitScratch m₂.hart a.frame) := by
    rw [hinv.leave_hart huser hacts hsp]
    rfl
  refine ⟨hleave, fun args hstage => ?_, fun hstage => ?_, fun hstage => ?_,
    fun value hstage => ?_⟩ <;> try rw [hleave]
  · rw [← hmode, ← hcontext]
    cases hinv.stacked_cons huser hacts with
    | user hle htop hend hf hm hnext => exact hm
    | kernel hle haligned hf hm hc hs he hrest => exact absurd hstage (hs args)
  · have hstatus : a.frame.sstatus = trapStatus m₁.hart.user (m₁.hart.csr .sstatus) := by
      rw [Activation.frame_sstatus hstage, hcontext]
      rfl
    refine ⟨?_, ?_⟩
    · show fromUser a.frame.sstatus = m₁.hart.user
      rw [hstatus]
      exact fromUser_trapStatus ..
    · show sretStatus a.frame.sstatus &&& sstatusSie = 0 ↔ _
      rw [hstatus]
      exact sretStatus_trapStatus ..
  · refine ⟨?_, ?_⟩
    · show a.frame.reg = _
      rw [Activation.frame_taken hstage, hreg]
    · show a.frame.sepc = _
      rw [Activation.frame_taken hstage, a.stored_sepc, hcontext]
      rfl
  · refine ⟨?_, ?_⟩
    · show a.frame.reg = _
      rw [Activation.frame_answered hstage, ← hreg]
      rfl
    · show a.frame.sepc = _
      rw [Activation.frame_answered hstage, hcontext]
      rfl

/-- Whatever runs between a trap and the return from it (other traps on the same stack, other
processes, system calls of theirs), the process that was interrupted goes on where it was, in
the mode it had and with the registers it had.  After a system call it goes on behind the call
with the result in `a0`; after an `exec` it starts the program with what `proc_exec` has given. -/
theorem trap_returns {L : Image} {m₁ m₂ : Machine} (h : Reachable L m₁)
    (hroom : m₁.hart.user = false →
      L.bottom m₁.current + frameSize.toNat ≤ (m₁.hart.reg .sp).toNat)
    (hrun : RunWhile L (fun m => m₁.acts.length < (m.thread m₁.current).acts.length)
      (m₁.trap L) m₂) (hcurrent : m₂.current = m₁.current) {a : Activation}
    {rest : List Activation} (hacts : m₂.acts = a :: rest) (hdepth : rest.length = m₁.acts.length)
    (huser : m₂.hart.user = false) (hsp : m₂.hart.reg .sp = a.base) :
    let hart := m₂.leave.hart
    (∀ args, a.stage = .replaced args → m₁.hart.user = true ∧ StartsProgram hart args) ∧
      ((∀ args, a.stage ≠ .replaced args) → hart.user = m₁.hart.user ∧
        (hart.csr .sstatus &&& sstatusSie = 0 ↔ m₁.hart.csr .sstatus &&& sstatusSie = 0)) ∧
      (a.stage = .taken → hart.reg = m₁.regBack L ∧ hart.pc = m₁.hart.pc) ∧
      ∀ value, a.stage = .answered value →
        hart.reg = Function.update (m₁.regBack L) .a0 value ∧ hart.pc = m₁.hart.pc + 4 := by
  obtain ⟨hleave, hexec, hkept, htaken, hanswered⟩ :=
    hrun.goes_on h hroom hcurrent hacts hdepth huser hsp
  dsimp only
  refine ⟨fun args hstage => ⟨hexec args hstage, ?_⟩, hkept, htaken, hanswered⟩
  have hframe : a.frame = args.context := by
    unfold Activation.frame
    rw [hstage]
  rw [hleave, hframe]
  exact args.starts _ _

/-- What `proc_exec` gives to the new process. -/
def smallArgs : ExecArgs := ⟨0x80202000, 0x40000000, 2, 0x3ffffff0⟩

/-- The system call goes on after another trap. -/
def smallGoesOn : Machine := (smallCall.trap smallImage).leave

/-- It sleeps, and the idle process runs. -/
def smallSleeps : Machine := (smallGoesOn.withReg (smallReg 1 0)).switchTo smallImage 0

/-- It goes on again. -/
def smallWakes : Machine := (smallSleeps.withReg (smallReg 0 1)).switchTo smallImage 1

/-- It has been an `exec`. -/
def smallExec : Machine :=
  (smallWakes.exec smallImage smallArgs).ecallReplaced smallImage
    (entryBase (smallUser.hart.trap smallImage.kernelEntry)) smallArgs

theorem smallGoesOn_acts : smallGoesOn.acts = smallCall.acts := by
  unfold smallGoesOn
  rw [Machine.leave_acts, Machine.trap_acts, List.tail_cons]

theorem smallSleeps_acts : (smallSleeps.thread 1).acts = smallGoesOn.acts := by
  have hcurrent : (smallGoesOn.withReg (smallReg 1 0)).current = 1 := by decide +kernel
  have hleft := (smallGoesOn.withReg (smallReg 1 0)).switchTo_left_acts smallImage (j := 0)
    (by rw [hcurrent]; decide)
  rw [hcurrent, Machine.withReg_acts] at hleft
  unfold smallSleeps
  exact hleft

theorem smallWakes_acts : smallWakes.acts = smallCall.acts := by
  unfold smallWakes
  rw [Machine.switchTo_acts, Machine.withReg_thread, smallSleeps_acts, smallGoesOn_acts]

theorem smallWakes_exec_acts : (smallWakes.exec smallImage smallArgs).acts =
    ⟨entryBase (smallUser.hart.trap smallImage.kernelEntry), smallUser.context,
      .execd smallArgs⟩ :: smallUser.acts := by
  unfold Machine.exec
  rw [Machine.go_acts, TrapInv.restage_cons (smallWakes_acts.trans smallCall_acts)]

theorem smallExec_acts : smallExec.acts =
    ⟨entryBase (smallUser.hart.trap smallImage.kernelEntry), smallUser.context,
      .replaced smallArgs⟩ :: smallUser.acts := by
  unfold smallExec Machine.ecallReplaced
  rw [Machine.go_acts, TrapInv.restage_cons smallWakes_exec_acts]

/-- The system call has not returned. -/
abbrev SmallCalls (m : Machine) : Prop :=
  smallUser.acts.length < (m.thread smallUser.current).acts.length

theorem smallGoesOn_run :
    RunWhile smallImage SmallCalls (smallUser.trap smallImage) smallGoesOn := by
  have htrap : Step smallImage smallCall (smallCall.trap smallImage) := .trap (by decide +kernel)
  have hleave := Step.leave (L := smallImage) (m := smallCall.trap smallImage)
    (by decide +kernel) (smallCall.trap_acts smallImage) nofun nofun (by decide +kernel)
  have hcall : RunWhile smallImage SmallCalls (smallUser.trap smallImage) smallCall :=
    .single ⟨smallCall_step, by decide +kernel⟩
  exact (hcall.tail ⟨htrap, by decide +kernel⟩).tail ⟨hleave, by decide +kernel⟩

theorem smallSleeps_run : RunWhile smallImage SmallCalls smallGoesOn smallSleeps := by
  have hreg : Step smallImage smallGoesOn (smallGoesOn.withReg (smallReg 1 0)) :=
    .withReg (by decide +kernel) (by decide) (by decide +kernel) (by decide +kernel)
  have hyields : Yields smallImage (smallGoesOn.withReg (smallReg 1 0)) 0 :=
    .withReg (by decide +kernel) (by decide +kernel) (by decide +kernel) (by decide +kernel)
      (by decide) (by decide +kernel)
  have hrun : RunWhile smallImage SmallCalls smallGoesOn (smallGoesOn.withReg (smallReg 1 0)) :=
    .single ⟨hreg, by decide +kernel⟩
  exact hrun.tail ⟨hyields.step, by decide +kernel⟩

theorem smallWakes_run : RunWhile smallImage SmallCalls smallSleeps smallWakes := by
  have hreg : Step smallImage smallSleeps (smallSleeps.withReg (smallReg 0 1)) :=
    .withReg (by decide +kernel) (by decide) (by decide +kernel) (by decide +kernel)
  have hyields : Yields smallImage (smallSleeps.withReg (smallReg 0 1)) 1 :=
    .withReg (by decide +kernel) (by decide +kernel) (by decide +kernel) (by decide +kernel)
      (by decide) (by decide +kernel)
  have hrun : RunWhile smallImage SmallCalls smallSleeps (smallSleeps.withReg (smallReg 0 1)) :=
    .single ⟨hreg, by decide +kernel⟩
  exact hrun.tail ⟨hyields.step, by decide +kernel⟩

theorem smallExec_run : RunWhile smallImage SmallCalls smallWakes smallExec := by
  have hmode : fromUser smallUser.context.sstatus = true := by decide +kernel
  have hexec := Step.exec (L := smallImage) smallArgs (by decide +kernel)
    (smallWakes_acts.trans smallCall_acts) rfl hmode
  have hreplaces := Step.ecallReplaced (L := smallImage) (m := smallWakes.exec smallImage smallArgs)
    (by decide +kernel) smallWakes_exec_acts rfl
  have hrun : RunWhile smallImage SmallCalls smallWakes (smallWakes.exec smallImage smallArgs) :=
    .single ⟨hexec, by decide +kernel⟩
  exact hrun.tail ⟨hreplaces, by decide +kernel⟩

/-- The new process calls `exec`, is interrupted, sleeps while the idle process runs, and goes on
with its program. -/
theorem trap_returns_small :
    (smallCall.trap smallImage).leave.hart.reg = smallCall.regBack smallImage ∧
      StartsProgram smallExec.leave.hart smallArgs := by
  refine ⟨?_, ?_⟩
  · have hreturn := trap_returns smallCall_reachable (by decide +kernel) .refl (by decide +kernel)
      (smallCall.trap_acts smallImage) rfl (by decide +kernel) (by decide +kernel)
    exact (hreturn.2.2.1 rfl).1
  · have hrun := ((smallGoesOn_run.trans smallSleeps_run).trans smallWakes_run).trans smallExec_run
    have hreturn := trap_returns smallUser_reachable (by decide +kernel) hrun (by decide +kernel)
      smallExec_acts rfl (by decide +kernel) (by decide +kernel)
    exact (hreturn.1 smallArgs rfl).2

/-! ## The start of a process -/

/-- The first instruction of a child of `fork`, whose parent trapped with the given context: the
one behind the call, with the parent's registers and a zero in `a0`. -/
structure StartsChild (h : Hart) (context : TrapFrame) : Prop where
  user : h.user = true
  pc : h.pc = context.sepc + 4
  a0 : h.reg .a0 = 0
  sp : context.reg .sp ≠ 0 → h.reg .sp = context.reg .sp
  rest : ∀ r, r ≠ .a0 → r ≠ .sp → h.reg r = context.reg r

/-- The registers of the child are the parent's, up to the zero in `a0`. -/
theorem Birth.fork_context (parent : TrapFrame) (userStackBase : UInt32) :
    Birth.context parent (.fork userStackBase) = parent.set .a0 0 := by
  have hsp : UInt32.ofNat (userStackBase + (parent.reg .sp - userStackBase)).toNat =
      (parent.set .a0 0).reg .sp := by
    rw [UInt32.ofNat_toNat, UInt32.add_comm, UInt32.sub_add_cancel]
    rfl
  show (parent.set .a0 0).set .sp (UInt32.ofNat (userStackBase +
    (parent.reg .sp - userStackBase)).toNat) = _
  rw [hsp]
  unfold TrapFrame.set
  dsimp only
  rw [Function.update_eq_self]

/-- During a system call from user mode the parent's `trap_frame` is what it trapped with. -/
theorem TrapInv.fork_starts {L : Image} {m : Machine} (hinv : TrapInv L m) {a : Activation}
    {rest : List Activation} (hacts : m.acts = a :: rest) (hstage : a.stage = .called)
    (hmode : fromUser a.context.sstatus = true) (userStackBase : UInt32) (h : Hart)
    (sscratch : UInt32) :
    StartsChild (resumed h (Birth.context (frameAt m.hart.mem (L.trapFrame m.current))
      (.fork userStackBase)) sscratch) a.context := by
  have hin : a ∈ (m.thread m.current).acts := by
    show a ∈ m.acts
    rw [hacts]
    exact List.mem_cons_self
  have hframe : frameAt m.hart.mem (L.trapFrame m.current) =
      { a.stored with sepc := a.context.sepc + 4 } := by
    rw [hinv.saved m.current a hin hmode (by rw [hstage]; nofun)]
    unfold Activation.saved Activation.frame
    rw [hstage]
  have hstored : ∀ r, r ≠ .sp → a.stored.reg r = a.context.reg r := by
    intro r hr
    unfold Activation.stored
    split
    · exact Function.update_of_ne hr ..
    · rfl
  rw [Birth.fork_context, hframe]
  refine ⟨?_, rfl, rfl, fun hsp => ?_, fun r ha0 hr => ?_⟩
  · show fromUser a.stored.sstatus = true
    rw [a.stored_sstatus]
    exact hmode
  · have hkept : a.stored = a.context := by
      unfold Activation.stored
      rw [if_neg fun hno => hsp hno.2]
    show Function.update a.stored.reg .a0 0 .sp = _
    rw [hkept]
    rfl
  · show Function.update a.stored.reg .a0 0 r = _
    rw [Function.update_of_ne ha0]
    exact hstored r hr

/-- Where the process in slot `j` starts that the machine has created: a kernel process at its
entry, with an empty stack; a user process in user mode at the entry of its program; and a child
of `fork` behind the system call of its parent, with a zero in `a0`. -/
def Birth.Started (L : Image) (m : Machine) (j : Fin procMax) (h : Hart) : Birth → Prop
  | .kernel entry => entry ≠ L.archResumeFromTrap →
      h.user = false ∧ h.pc = entry ∧ h.reg .sp = L.top j ∧ h.csr .sscratch = 0
  | .user entry stackTop =>
      StartsProgram h ⟨entry, stackTop, 0, 0⟩ ∧ h.csr .sscratch = L.top j
  | .fork _ => ∀ a rest, m.acts = a :: rest → a.stage = .called →
      fromUser a.context.sstatus = true →
        StartsChild h a.context ∧ h.csr .sscratch = L.top j

/-- A new process starts, the first time it is switched to, where it has been told to. -/
theorem process_starts {L : Image} {m₁ m₂ : Machine} {j : Fin procMax} (birth : Birth)
    (h : Reachable L m₁) (huser : m₁.hart.user = false) (hj : m₁.thread j = .unused)
    (hrun : RunWhile L (Machine.Waits j) (m₁.create L j birth) m₂) (hfirst : Yields L m₂ j) :
    birth.Started L m₁ j (m₂.switchTo L j).hart := by
  have hidle : j ≠ 0 := by
    rintro rfl
    exact h.inv.idle hj
  have hstep : Step L m₁ (m₁.create L j birth) := .create birth huser hj
  have hstart := h.step hstep
  have hborn : (m₁.create L j birth).thread j =
      .parked (L.procAddr j + stackTopOffset + -switchSize)
        (switchAt (archInitSwitchContext (L.procAddr j) (birth.entry L) birth.isUser m₁.hart)
          (L.procAddr j + stackTopOffset + -switchSize)) [] := Function.update_self ..
  have hcontext : frameAt (m₁.create L j birth).hart.mem (L.trapFrame j) =
      birth.context (frameAt m₁.hart.mem (L.trapFrame m₁.current)) := by
    unfold Machine.create
    dsimp only
    rw [frameAt_putFrame]
  obtain ⟨hkept, hframe⟩ := RunWhile.waits hstart ⟨_, _, _, hborn⟩ hrun
  have hwaits := hkept.trans hborn
  have hra := TrapInv.initSwitch_ra L j (birth.entry L) birth.isUser m₁.hart
  have hinv := (hrun.reachable hstart).inv
  obtain ⟨-, hmode, hscratch, hsp, hpc, -, -⟩ :=
    hinv.switched_next hfirst.user hfirst.prev hfirst.room hwaits hfirst.next
  have hcases := hinv.switchHart_cases hfirst.user hfirst.prev hfirst.room hwaits hfirst.next
  rw [hra] at hcases hpc
  have hhart : birth.entry L = L.archResumeFromTrap →
      (m₂.switchTo L j).hart = resumed (switched (TrapInv.yielded L m₂ j))
        (birth.context (frameAt m₁.hart.mem (L.trapFrame m₁.current)))
        (L.procAddr j + stackTopOffset) := by
    intro hentry
    rw [← hcontext, ← hframe]
    rcases hcases with ⟨hno, -⟩ | ⟨-, heq⟩
    · exact absurd hentry hno
    · exact heq
  have htop : L.procAddr j + stackTopOffset = L.top j := (L.top_of_ne hidle).symm
  cases birth with
  | kernel entry =>
      intro hentry
      have hkernel : (m₂.switchTo L j).hart = switched (TrapInv.yielded L m₂ j) := by
        rcases hcases with ⟨-, heq⟩ | ⟨hno, -⟩
        · exact heq
        · exact absurd hno hentry
      rw [hkernel, L.top_of_ne hidle]
      exact ⟨hmode, hpc, hsp.trans (add_neg_add ..), hscratch⟩
  | user entry stackTop =>
      rw [hhart rfl, htop]
      exact ⟨ExecArgs.starts ⟨entry, stackTop, 0, 0⟩ _ _, rfl⟩
  | fork userStackBase =>
      intro a rest hacts hstage hfrom
      rw [hhart rfl, htop]
      exact ⟨h.inv.fork_starts hacts hstage hfrom userStackBase _ _, rfl⟩

/-- The system call of the new process is a `fork`, and it yields to its child. -/
def smallFork : Machine :=
  (smallCall.create smallImage 2 (.fork 0x3fff0000)).withReg (smallReg 1 2)

theorem process_starts_small :
    ((smallBorn (.kernel 0x80200500)).switchTo smallImage 1).hart.pc = 0x80200500 ∧
      StartsProgram smallUser.hart ⟨0x80201000, 0x40000000, 0, 0⟩ ∧
      StartsChild (smallFork.switchTo smallImage 2).hart smallUser.context := by
  refine ⟨?_, ?_, ?_⟩
  · exact (process_starts (L := smallImage) (j := 1) (.kernel 0x80200500) smallBoot_reachable rfl rfl
      .refl (smallBorn_yields (.kernel 0x80200500)) (by decide)).2.1
  · exact (process_starts (L := smallImage) (j := 1) (.user 0x80201000 0x40000000)
      smallBoot_reachable rfl rfl .refl (smallBorn_yields _)).1
  · have hunused : smallCall.thread 2 = .unused := rfl
    have hkernel : smallCall.hart.user = false := by decide +kernel
    have hreg : Step smallImage (smallCall.create smallImage 2 (.fork 0x3fff0000)) smallFork :=
      .withReg (by decide +kernel) (by decide) (by decide +kernel) (by decide +kernel)
    have hyields : Yields smallImage smallFork 2 :=
      .withReg (by decide +kernel) (by decide +kernel) (by decide +kernel) (by decide +kernel)
        (by decide) (by decide +kernel)
    have hrun : RunWhile smallImage (Machine.Waits 2)
        (smallCall.create smallImage 2 (.fork 0x3fff0000)) smallFork :=
      .single ⟨hreg, hyields.waits⟩
    exact (process_starts (.fork 0x3fff0000) smallCall_reachable hkernel hunused hrun hyields
      _ _ smallCall_acts rfl (by decide +kernel)).1

/-! ## From a switch to the next one -/

/-- A process that called `switch_context` finds, when it is switched to again, the stack pointer
it had, the registers that a caller expects to be kept and its status register, whatever ran in
between; and the traps it had under way are still under way. -/
theorem switch_returns {L : Image} {m₁ m₂ : Machine} {j : Fin procMax} (h : Reachable L m₁)
    (hleave : Yields L m₁ j) (hrun : RunWhile L (Machine.Waits m₁.current) (m₁.switchTo L j) m₂)
    (hback : Yields L m₂ m₁.current) :
    let m := m₂.switchTo L m₁.current
    m.hart.user = false ∧ m.hart.pc = m₁.hart.reg .ra ∧ m.hart.reg .sp = m₁.hart.reg .sp ∧
      (∀ r ∈ calleeRegs, m.hart.reg r = m₁.hart.reg r) ∧
      m.hart.csr .sstatus = m₁.hart.csr .sstatus ∧ m.hart.csr .sscratch = 0 ∧ m.acts = m₁.acts ∧
      m.hart.mem L.currentProc = L.procAddr m₁.current := by
  obtain ⟨sp, frame, acts, hj⟩ := hleave.waits
  have hne := h.inv.parked_ne hj
  have hstart := h.step hleave.step
  have hleft : (m₁.switchTo L j).thread m₁.current =
      .parked (m₁.hart.reg .sp + -switchSize) (leftFrame m₁.hart) m₁.acts := by
    have hthread : (m₁.switchTo L j).thread = Function.update
        (Function.update m₁.thread m₁.current
          (.parked (m₁.hart.reg .sp + -switchSize) (leftFrame m₁.hart) m₁.acts)) j
        (.running (m₁.thread j).acts) := rfl
    rw [hthread, Function.update_of_ne hne.symm, Function.update_self]
  have hwaits := (RunWhile.waits hstart ⟨_, _, _, hleft⟩ hrun).1.trans hleft
  have hinv := (hrun.reachable hstart).inv
  have hback' := hinv.switchTo hback.user hback.prev hback.room hwaits hback.next hback.ra
  obtain ⟨-, hmode, hscratch, hsp, hpc, hstatus, hcallee⟩ :=
    hinv.switched_next hback.user hback.prev hback.room hwaits hback.next
  have hhart : (m₂.switchTo L m₁.current).hart = switched (TrapInv.yielded L m₂ m₁.current) := by
    rcases hinv.switchHart_cases hback.user hback.prev hback.room hwaits hback.next with
      ⟨-, heq⟩ | ⟨hra, -⟩
    · exact heq
    · exact absurd hra hleave.ra
  have hacts : (m₂.switchTo L m₁.current).acts = m₁.acts := by
    have hthread : (m₂.switchTo L m₁.current).thread = Function.update
        (Function.update m₂.thread m₂.current
          (.parked (m₂.hart.reg .sp + -switchSize) (leftFrame m₂.hart) m₂.acts)) m₁.current
        (.running (m₂.thread m₁.current).acts) := rfl
    show ((m₂.switchTo L m₁.current).thread m₁.current).acts = _
    rw [hthread, Function.update_self, hwaits]
    rfl
  dsimp only
  refine ⟨?_, ?_, ?_, fun r hr => ?_, ?_, ?_, hacts, hback'.current⟩
  · rw [hhart]
    exact hmode
  · rw [hhart]
    exact hpc
  · rw [hhart]
    exact hsp.trans (add_neg_add ..)
  · rw [hhart]
    exact hcallee r hr
  · rw [hhart]
    exact hstatus
  · rw [hhart]
    exact hscratch

def smallFirst : Machine := (smallBorn (.kernel 0x80200500)).switchTo smallImage 1

theorem smallFirst_acts : smallFirst.acts = [] := by
  have hthread : smallFirst.thread = Function.update
      (Function.update (smallBorn (.kernel 0x80200500)).thread 0
        (.parked (0x802fff00 + -switchSize) (leftFrame (smallBorn (.kernel 0x80200500)).hart) [])) 1
      (.running []) := rfl
  show (smallFirst.thread 1).acts = []
  rw [hthread, Function.update_self]
  rfl

theorem smallFirst_waits : smallFirst.Waits 0 := by
  have hwaits := (smallBorn (.kernel 0x80200500)).switchTo_waits smallImage (j := 1) (by decide)
  have hcurrent : (smallBorn (.kernel 0x80200500)).current = 0 := rfl
  rw [hcurrent] at hwaits
  exact hwaits

theorem switch_returns_small :
    ((smallFirst.withReg (smallReg 1 0)).switchTo smallImage 0).hart.pc = 0x80200400 ∧
      ((smallFirst.withReg (smallReg 1 0)).switchTo smallImage 0).hart.reg .sp = 0x802fff00 := by
  have hborn : Reachable smallImage (smallBorn (.kernel 0x80200500)) :=
    smallBoot_reachable.step (.create _ rfl rfl)
  have hyields := smallBorn_yields (.kernel 0x80200500)
  have huser : smallFirst.hart.user = false := by decide +kernel
  have hceiling : smallFirst.ceiling smallImage = (smallImage.top 1).toNat := by
    unfold Machine.ceiling
    rw [smallFirst_acts]
    rfl
  have hstep : Step smallImage smallFirst (smallFirst.withReg (smallReg 1 0)) :=
    .withReg huser (by decide) (by decide) (by rw [hceiling]; decide)
  have hcurrent : (smallBorn (.kernel 0x80200500)).current = 0 := rfl
  have hback : Yields smallImage (smallFirst.withReg (smallReg 1 0))
      (smallBorn (.kernel 0x80200500)).current := by
    rw [hcurrent]
    exact .withReg huser smallFirst_waits rfl rfl (by decide) (by decide)
  obtain ⟨-, hpc, hsp, -⟩ := switch_returns (L := smallImage) (j := 1) hborn hyields
    (.single ⟨hstep, hback.waits⟩) hback
  rw [hcurrent] at hpc hsp
  exact ⟨hpc, hsp⟩

end Sugimotos.Arch
