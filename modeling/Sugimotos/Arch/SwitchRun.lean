/-
# Processes come, go and take turns

The steps that concern two processes, and the invariant over whole runs.
-/

import Sugimotos.Arch.TrapRun

namespace Sugimotos.Arch

open Sugimotos.Math Sugimotos.Mm Sugimotos.Proc

namespace TrapInv

variable {L : Image} {m : Machine}

theorem parked_ne (hinv : TrapInv L m) {j : Fin procMax} {sp : UInt32} {frame : SwitchFrame}
    {acts : List Activation} (hj : m.thread j = .parked sp frame acts) : j ≠ m.current := by
  rintro rfl
  have hrun := hinv.running
  rw [hj] at hrun
  cases hrun

theorem parked_left (hinv : TrapInv L m) {j : Fin procMax} {sp : UInt32} {frame : SwitchFrame}
    {acts : List Activation} (hj : m.thread j = .parked sp frame acts) :
    Left L m.hart.mem j sp frame acts := by
  have hready := hinv.others j (hinv.parked_ne hj)
  rw [hj] at hready
  exact hready

/-! ## A switch -/

/-- The hart in `switch_context`, after `yield` has set `current_proc`. -/
def yielded (L : Image) (m : Machine) (j : Fin procMax) : Hart :=
  { m.hart with mem := Function.update m.hart.mem L.currentProc (L.procAddr j) }

/-- What a switch writes: `current_proc`, the words on the stack that is left, and its stack
pointer. -/
theorem switchedMem_other (hprev : m.hart.reg .a0 = L.spWord m.current) {j : Fin procMax}
    {addr : UInt32} (hcurrent : addr ≠ L.currentProc)
    (hwords : ¬ InSwitch (m.hart.reg .sp + -switchSize) addr) (hsp : addr ≠ L.spWord m.current) :
    switchedMem (yielded L m j) addr = m.hart.mem addr := by
  show Function.update (putSwitch (m.hart.reg .sp + -switchSize) _
    (Function.update m.hart.mem L.currentProc (L.procAddr j))) (m.hart.reg .a0) _ addr = _
  rw [hprev, Function.update_of_ne hsp, putSwitch_other _ _ hwords, Function.update_of_ne hcurrent]

section Switch

variable (hinv : TrapInv L m) (huser : m.hart.user = false)
  (hprev : m.hart.reg .a0 = L.spWord m.current)
  (hroom : L.bottom m.current + switchSize.toNat ≤ (m.hart.reg .sp).toNat)

include hroom in
theorem left_sp : (m.hart.reg .sp + -switchSize).toNat + switchSize.toNat = (m.hart.reg .sp).toNat := by
  have hsp : (m.hart.reg .sp + -switchSize).toNat = (m.hart.reg .sp).toNat - switchSize.toNat :=
    toNat_add_neg ((Nat.le_add_left ..).trans hroom)
  omega

include hinv huser hroom in
/-- The words are on the stack that is left, below its frames. -/
theorem left_words {addr : UInt32} (haddr : InSwitch (m.hart.reg .sp + -switchSize) addr) :
    L.InStack m.current addr ∧ addr.toNat < (m.hart.reg .sp).toNat := by
  have hsp := left_sp hroom
  have htop := (hinv.onStack.stacked huser).le_top
  have hlt := (m.hart.reg .sp).toNat_lt
  rw [switchSize_toNat] at hsp hroom
  rw [inSwitch_iff (by omega)] at haddr
  exact ⟨⟨by omega, by omega⟩, by omega⟩

include hinv huser hprev hroom in
theorem switchedMem_slot {j : Fin procMax} {addr : UInt32} (hcurrent : addr ≠ L.currentProc)
    (hslot : ¬ L.InSlot m.current addr) :
    switchedMem (yielded L m j) addr = m.hart.mem addr :=
  switchedMem_other hprev hcurrent (fun hw => hslot (.inl (hinv.left_words huser hroom hw).1))
    fun hsp => hslot (.inr (.inl hsp))

include hinv huser hprev hroom in
theorem switchedMem_frame (j i : Fin procMax) :
    frameAt (switchedMem (yielded L m j)) (L.trapFrame i) = frameAt m.hart.mem (L.trapFrame i) := by
  refine frameAt_congr fun addr haddr => switchedMem_other hprev ?_ ?_ ?_
  · rintro rfl
    exact L.currentProc_notMem i (.inr (.inr haddr))
  · intro hw
    have hin : L.InSlot m.current addr := .inl (hinv.left_words huser hroom hw).1
    by_cases hi : i = m.current
    · subst hi
      exact L.trapFrame_notStack _ haddr (hinv.left_words huser hroom hw).1
    · exact Image.InSlot.apart hi (.inr (.inr haddr)) hin
  · rintro rfl
    by_cases hi : i = m.current
    · subst hi
      exact L.spWord_notFrame _ haddr
    · exact Image.InSlot.apart hi (.inr (.inr haddr)) (.inr (.inl rfl))

include hinv huser hprev hroom in
/-- The process that calls `switch_context` lies ready on its stack afterwards. -/
theorem left_ready {j : Fin procMax} (hra : m.hart.reg .ra ≠ L.archResumeFromTrap) :
    Left L (switchedMem (yielded L m j)) m.current (m.hart.reg .sp + -switchSize) (leftFrame m.hart)
      m.acts := by
  have hsp := left_sp hroom
  have hmem : switchedMem (yielded L m j) = Function.update
      (putSwitch (m.hart.reg .sp + -switchSize) (leftFrame m.hart)
        (Function.update m.hart.mem L.currentProc (L.procAddr j))) (L.spWord m.current)
      (m.hart.reg .sp + -switchSize) := by
    rw [← hprev]
    rfl
  constructor
  case spWord =>
    rw [hmem]
    exact Function.update_self ..
  case words =>
    refine SwitchFrame.Same.trans (switchAt_congr fun addr haddr => ?_) (switchAt_putSwitch _ _
      (Function.update m.hart.mem L.currentProc (L.procAddr j)))
    rw [hmem, Function.update_of_ne]
    rintro rfl
    exact L.spWord_notStack _ (hinv.left_words huser hroom haddr).1
  case aligned =>
    have haligned := hinv.onStack.aligned huser
    rw [switchSize_toNat] at hsp
    omega
  case bottom => omega
  case stacked =>
    rw [hsp]
    refine (hinv.onStack.stacked huser).congr_above fun addr hlow hhigh => ?_
    have hin := hinv.inStack huser hlow hhigh
    refine switchedMem_other hprev ?_ ?_ ?_
    · rintro rfl
      exact L.currentProc_notMem _ (.inl hin)
    · intro hw
      have hlt := (hinv.left_words huser hroom hw).2
      omega
    · rintro rfl
      exact L.spWord_notStack _ hin
  case fresh => exact fun heq => absurd heq hra

variable {j : Fin procMax} {sp : UInt32} {frame : SwitchFrame} {acts : List Activation}
  (hj : m.thread j = .parked sp frame acts) (hnext : m.hart.reg .a1 = L.spWord j)

include hinv huser hprev hroom hj in
/-- The process that goes on lies as it was left. -/
theorem next_left : Left L (switchedMem (yielded L m j)) j sp frame acts := by
  have hne := hinv.parked_ne hj
  have hslot : ∀ addr, addr ≠ L.currentProc → ¬ L.InSlot m.current addr →
      switchedMem (yielded L m j) addr = m.hart.mem addr :=
    fun addr hc hs => hinv.switchedMem_slot huser hprev hroom hc hs
  have hready := (hinv.others_kept hslot hne).1
  rw [hj] at hready
  exact hready

include hinv huser hprev hroom hj hnext in
/-- The hart after `switch_context`. -/
theorem switched_next :
    let h := switched (yielded L m j)
    h.mem = switchedMem (yielded L m j) ∧ h.user = false ∧ h.csr .sscratch = 0 ∧
      h.reg .sp = sp + switchSize ∧ h.pc = frame.reg .ra ∧ h.csr .sstatus = frame.sstatus ∧
      ∀ r ∈ calleeRegs, h.reg r = frame.reg r := by
  have hleft := hinv.next_left huser hprev hroom hj
  have hbase : switchedMem (yielded L m j) ((yielded L m j).reg .a1) = sp := by
    show switchedMem (yielded L m j) (m.hart.reg .a1) = sp
    rw [hnext]
    exact hleft.spWord
  refine ⟨rfl, huser, ?_, switched_sp hbase, ?_, ?_, fun r hr => ?_⟩
  · rw [switched_sscratch]
    exact hinv.onStack.scratch huser
  · rw [switched_pc hbase]
    exact hleft.words.reg .ra (by decide)
  · rw [switched_sstatus hbase]
    exact hleft.words.sstatus
  · rw [switched_callee hbase hr]
    exact hleft.words.reg r hr

include hinv huser hprev hroom hj hnext in
/-- A process that has run goes on in the kernel; one that has not goes to user mode, with the
context in its record. -/
theorem switchHart_cases :
    (frame.reg .ra ≠ L.archResumeFromTrap ∧ m.switchHart L j = switched (yielded L m j)) ∨
      (frame.reg .ra = L.archResumeFromTrap ∧
        m.switchHart L j = resumed (switched (yielded L m j))
          (frameAt m.hart.mem (L.trapFrame j)) (L.procAddr j + stackTopOffset)) := by
  obtain ⟨hmem, -, -, -, hpc, -, -⟩ := hinv.switched_next huser hprev hroom hj hnext
  have hstart : m.switchHart L j =
      if (switched (yielded L m j)).pc = L.archResumeFromTrap then
        (runLine 0 (archResumeFromTrap L.currentProc tfOffset stackTopOffset)
          (switched (yielded L m j))).1
      else switched (yielded L m j) := by
    unfold Machine.switchHart
    dsimp only
    rw [switchContext_switches]
    rfl
  rw [hstart, hpc]
  by_cases hra : frame.reg .ra = L.archResumeFromTrap
  · rw [if_pos hra, archResumeFromTrap_resumes]
    have hcurrent : (switched (yielded L m j)).mem L.currentProc = L.procAddr j := by
      rw [hmem]
      show Function.update (putSwitch (m.hart.reg .sp + -switchSize) (leftFrame m.hart)
        (Function.update m.hart.mem L.currentProc (L.procAddr j))) (m.hart.reg .a0)
          (m.hart.reg .sp + -switchSize) L.currentProc = L.procAddr j
      have hsp : L.currentProc ≠ L.spWord m.current := fun heq =>
        L.currentProc_notMem m.current (heq ▸ .inr (.inl rfl))
      rw [hprev, Function.update_of_ne hsp, putSwitch_other, Function.update_self]
      exact fun hw => L.currentProc_notMem _ (.inl (hinv.left_words huser hroom hw).1)
    have hframe := hinv.switchedMem_frame huser hprev hroom j j
    unfold Image.trapFrame at hframe ⊢
    rw [hcurrent, hmem, hframe]
    exact .inr ⟨hra, rfl⟩
  · rw [if_neg hra]
    exact .inl ⟨hra, rfl⟩

include hinv huser hprev hroom hj hnext in
theorem switchHart_mem : (m.switchHart L j).mem = switchedMem (yielded L m j) := by
  rcases hinv.switchHart_cases huser hprev hroom hj hnext with ⟨-, heq⟩ | ⟨-, heq⟩
  · rw [heq]
    exact (hinv.switched_next huser hprev hroom hj hnext).1
  · rw [heq]
    exact (hinv.switched_next huser hprev hroom hj hnext).1

include hinv huser hprev hroom hj hnext in
theorem switchHart_onStack : OnStack L j (m.switchHart L j) acts := by
  have hleft := hinv.next_left huser hprev hroom hj
  obtain ⟨hmem, hmode, hscratch, hsp, -, -, -⟩ := hinv.switched_next huser hprev hroom hj hnext
  rcases hinv.switchHart_cases huser hprev hroom hj hnext with ⟨-, heq⟩ | ⟨hra, heq⟩
  · have hno : ¬ (switched (yielded L m j)).user = true := by
      rw [hmode]
      decide
    have htop := (L.top j).toNat_lt
    have hle := hleft.stacked.le_top
    have hbottom := hleft.bottom
    have haligned := hleft.aligned
    have hnat : (sp + switchSize).toNat = sp.toNat + switchSize.toNat := toNat_add (by omega)
    rw [heq]
    refine ⟨fun hu => absurd hu hno, fun _ => hscratch, fun _ => ?_, fun _ => ?_, fun _ => ?_⟩
    · rw [hsp, hnat]
      omega
    · rw [hsp, hnat, switchSize_toNat]
      omega
    · rw [hsp, hnat, hmem]
      exact hleft.stacked
  · obtain ⟨hacts, hne⟩ := hleft.fresh hra
    have hu : (m.switchHart L j).user = true := by
      rw [heq]
      exact hinv.contexts j
    have hno : ¬ (m.switchHart L j).user = false := by
      rw [hu]
      decide
    refine ⟨fun _ => ⟨?_, hacts⟩, fun hu => absurd hu hno, fun hu => absurd hu hno,
      fun hu => absurd hu hno, fun hu => absurd hu hno⟩
    rw [heq, L.top_of_ne hne]
    rfl

include hinv huser hprev hroom hj hnext in
theorem switchTo (hra : m.hart.reg .ra ≠ L.archResumeFromTrap) : TrapInv L (m.switchTo L j) := by
  have hne := hinv.parked_ne hj
  have hacts : (m.thread j).acts = acts := by
    rw [hj]
    rfl
  have hmem := hinv.switchHart_mem huser hprev hroom hj hnext
  have hthread : (m.switchTo L j).thread = Function.update
      (Function.update m.thread m.current
        (.parked (m.hart.reg .sp + -switchSize) (leftFrame m.hart) m.acts)) j (.running acts) := by
    rw [← hacts]
    rfl
  have hself : (m.switchTo L j).thread j = .running acts := by
    rw [hthread, Function.update_self]
  have hmacts : (m.switchTo L j).acts = acts := by
    show ((m.switchTo L j).thread j).acts = acts
    rw [hself]
    rfl
  have hprevious : (m.switchTo L j).thread m.current =
      .parked (m.hart.reg .sp + -switchSize) (leftFrame m.hart) m.acts := by
    rw [hthread, Function.update_of_ne hne.symm, Function.update_self]
  have hother : ∀ i, i ≠ m.current → i ≠ j → (m.switchTo L j).thread i = m.thread i := by
    intro i hi hij
    rw [hthread, Function.update_of_ne hij, Function.update_of_ne hi]
  have hslot : ∀ addr, addr ≠ L.currentProc → ¬ L.InSlot m.current addr →
      switchedMem (yielded L m j) addr = m.hart.mem addr :=
    fun addr hc hs => hinv.switchedMem_slot huser hprev hroom hc hs
  constructor
  case current =>
    show (m.switchHart L j).mem L.currentProc = L.procAddr j
    rw [hmem]
    show Function.update (putSwitch (m.hart.reg .sp + -switchSize) (leftFrame m.hart)
      (Function.update m.hart.mem L.currentProc (L.procAddr j))) (m.hart.reg .a0)
        (m.hart.reg .sp + -switchSize) L.currentProc = L.procAddr j
    have hsp : L.currentProc ≠ L.spWord m.current := fun heq =>
      L.currentProc_notMem m.current (heq ▸ .inr (.inl rfl))
    rw [hprev, Function.update_of_ne hsp, putSwitch_other, Function.update_self]
    exact fun hw => L.currentProc_notMem _ (.inl (hinv.left_words huser hroom hw).1)
  case running =>
    rw [hmacts]
    exact hself
  case onStack =>
    rw [hmacts]
    exact hinv.switchHart_onStack huser hprev hroom hj hnext
  case others =>
    intro i hi
    show Ready L (m.switchHart L j).mem i ((m.switchTo L j).thread i)
    rw [hmem]
    by_cases hprevI : i = m.current
    · rw [hprevI, hprevious]
      exact hinv.left_ready huser hprev hroom hra
    · rw [hother i hprevI hi]
      exact (hinv.others_kept hslot hprevI).1
  case idle =>
    by_cases h0 : 0 = j
    · rw [h0, hself]
      intro hno
      cases hno
    · by_cases hp : 0 = m.current
      · rw [hp, hprevious]
        intro hno
        cases hno
      · rw [hother 0 hp h0]
        exact hinv.idle
  case contexts =>
    intro i
    show fromUser (frameAt (m.switchHart L j).mem (L.trapFrame i)).sstatus = true
    rw [hmem, hinv.switchedMem_frame huser hprev hroom]
    exact hinv.contexts i
  case saved =>
    intro i
    have hsame : ((m.switchTo L j).thread i).acts = (m.thread i).acts := by
      by_cases hij : i = j
      · rw [hij, hself, hacts]
        rfl
      · by_cases hi : i = m.current
        · rw [hi, hprevious]
          rfl
        · rw [hother i hi hij]
    rw [hsame]
    show Saved L (m.switchHart L j).mem i (m.thread i).acts
    rw [hmem]
    exact (hinv.saved i).congr (hinv.switchedMem_frame huser hprev hroom j i)

end Switch

/-! ## Processes come and go -/

/-- A step that touches nothing but the slot of a process that does not run. -/
theorem setOther (hinv : TrapInv L m) (huser : m.hart.user = false) {j : Fin procMax}
    (hj : j ≠ m.current) {mem : UInt32 → UInt32} {t : Thread}
    (hmem : ∀ addr, ¬ L.InSlot j addr → mem addr = m.hart.mem addr) (hready : Ready L mem j t)
    (hidle : j = 0 → t ≠ .unused) (hnone : t.acts = [])
    (hcontext : fromUser (frameAt mem (L.trapFrame j)).sstatus = true) :
    TrapInv L
      { m with hart := { m.hart with mem := mem }, thread := Function.update m.thread j t } := by
  have hslot : ∀ i, i ≠ j → ∀ addr, L.InSlot i addr → mem addr = m.hart.mem addr :=
    fun i hi addr haddr => hmem addr (haddr.apart hi)
  have hother : ∀ i, i ≠ j → Function.update m.thread j t i = m.thread i := fun i hi =>
    Function.update_of_ne hi ..
  have hacts : Machine.acts
      { m with hart := { m.hart with mem := mem }, thread := Function.update m.thread j t } =
      m.acts := by
    show (Function.update m.thread j t m.current).acts = _
    rw [hother _ hj.symm]
    rfl
  constructor
  case current => exact (hmem _ (L.currentProc_notMem j)).trans hinv.current
  case running =>
    rw [hacts]
    exact (hother _ hj.symm).trans hinv.running
  case onStack =>
    rw [hacts]
    refine { hinv.onStack with stacked := fun hu => ?_ }
    refine (hinv.onStack.stacked hu).congr_above fun addr hlow hhigh => ?_
    exact hslot _ hj.symm addr (.inl (hinv.inStack huser hlow hhigh))
  case others =>
    intro i hi
    show Ready L mem i (Function.update m.thread j t i)
    by_cases hij : i = j
    · rw [hij, Function.update_self]
      exact hready
    · rw [hother i hij]
      exact (hinv.others i hi).congr (hslot i hij)
  case idle =>
    show Function.update m.thread j t 0 ≠ _
    by_cases h0 : 0 = j
    · rw [← h0, Function.update_self]
      exact hidle h0.symm
    · rw [hother 0 h0]
      exact hinv.idle
  case contexts =>
    intro i
    show fromUser (frameAt mem (L.trapFrame i)).sstatus = true
    by_cases hij : i = j
    · rw [hij]
      exact hcontext
    · rw [frameAt_congr fun addr haddr => hslot i hij addr (.inr (.inr haddr))]
      exact hinv.contexts i
  case saved =>
    intro i
    show Saved L mem i (Function.update m.thread j t i).acts
    by_cases hij : i = j
    · rw [hij, Function.update_self, hnone]
      nofun
    · rw [hother i hij]
      exact (hinv.saved i).congr (frameAt_congr fun addr haddr =>
        hslot i hij addr (.inr (.inr haddr)))

theorem release (hinv : TrapInv L m) (huser : m.hart.user = false) {j : Fin procMax} {sp : UInt32}
    {frame : SwitchFrame} {acts : List Activation} (hj : m.thread j = .parked sp frame acts)
    {mem : UInt32 → UInt32} (hidle : j ≠ 0)
    (hmem : ∀ addr, ¬ L.InSlot j addr → mem addr = m.hart.mem addr)
    (hzero : frameAt mem (L.trapFrame j) = .zero) :
    TrapInv L
      { m with
        hart := { m.hart with mem := mem }, thread := Function.update m.thread j .unused } := by
  refine hinv.setOther huser (hinv.parked_ne hj) hmem trivial (fun h0 => absurd h0 hidle) rfl ?_
  rw [hzero]
  rfl

/-- The context of a new process is one of user mode. -/
theorem birth_fromUser (birth : Birth) {parent : TrapFrame}
    (hparent : fromUser parent.sstatus = true) :
    fromUser (birth.context parent).sstatus = true := by
  cases birth with
  | kernel entry =>
      have hstatus : (Birth.context parent (.kernel entry)).sstatus = 0 := rfl
      rw [hstatus]
      rfl
  | user entry stackTop => exact ExecArgs.context_fromUser ⟨entry, stackTop, 0, 0⟩
  | fork userStackBase => exact hparent

/-- Where `arch_init_switch_context` puts its words. -/
theorem initSp_toNat (L : Image) (j : Fin procMax) :
    (L.procAddr j + stackTopOffset + -switchSize).toNat + switchSize.toNat =
      (L.procAddr j + stackTopOffset).toNat := by
  have hend := L.stackEnd_toNat j
  have hsp : (L.procAddr j + stackTopOffset + -switchSize).toNat =
      (L.procAddr j + stackTopOffset).toNat - switchSize.toNat := by
    refine toNat_add_neg ?_
    rw [hend, switchSize_toNat]
    omega
  rw [hsp, hend, switchSize_toNat]
  omega

/-- The words that `switch_context` will take up are on the stack of the new process. -/
theorem initSwitch_inStack (L : Image) {j : Fin procMax} (hj : j ≠ 0) {addr : UInt32}
    (haddr : InSwitch (L.procAddr j + stackTopOffset + -switchSize) addr) : L.InStack j addr := by
  have hsp := initSp_toNat L j
  have hend := L.stackEnd_toNat j
  have hbottom := L.bottom_of_ne hj
  have hlt := (L.procAddr j + stackTopOffset).toNat_lt
  rw [switchSize_toNat] at hsp
  rw [inSwitch_iff (by omega)] at haddr
  refine ⟨by omega, ?_⟩
  rw [L.top_of_ne hj]
  omega

theorem archInitSwitchContext_eq (proc entry : UInt32) (isUser : Bool) (h : Hart) :
    ∃ f, archInitSwitchContext proc entry isUser h =
        Function.update (putSwitch (proc + stackTopOffset + -switchSize) f h.mem) (proc + spOffset)
          (proc + stackTopOffset + -switchSize) ∧ f.reg .ra = entry :=
  ⟨_, rfl, rfl⟩

/-- A new process will return to its entry. -/
theorem initSwitch_ra (L : Image) (j : Fin procMax) (entry : UInt32) (isUser : Bool) (h : Hart) :
    (switchAt (archInitSwitchContext (L.procAddr j) entry isUser h)
      (L.procAddr j + stackTopOffset + -switchSize)).reg .ra = entry := by
  obtain ⟨f, hf, hra⟩ := archInitSwitchContext_eq (L.procAddr j) entry isUser h
  have hsp := initSp_toNat L j
  have hend := L.stackEnd_toNat j
  have hword := L.spWord_toNat j
  have hlt := (L.procAddr j + stackTopOffset).toNat_lt
  rw [switchSize_toNat] at hsp
  have hsame : (switchAt (archInitSwitchContext (L.procAddr j) entry isUser h)
      (L.procAddr j + stackTopOffset + -switchSize)).Same f := by
    refine SwitchFrame.Same.trans (switchAt_congr fun addr haddr => ?_) (switchAt_putSwitch _ f h.mem)
    rw [inSwitch_iff (by omega)] at haddr
    rw [hf, Function.update_of_ne]
    intro heq
    have hnat : addr.toNat = (L.spWord j).toNat := congrArg UInt32.toNat heq
    omega
  exact (hsame.reg .ra (by decide)).trans hra

theorem unused_ne (hinv : TrapInv L m) {j : Fin procMax} (hj : m.thread j = .unused) :
    j ≠ 0 ∧ j ≠ m.current := by
  refine ⟨?_, ?_⟩
  · rintro rfl
    exact hinv.idle hj
  · rintro rfl
    have hrun := hinv.running
    rw [hj] at hrun
    cases hrun

/-- Only the slot of the new process is written. -/
theorem create_mem (hinv : TrapInv L m) {j : Fin procMax} (hj : m.thread j = .unused)
    (birth : Birth) (addr : UInt32) (haddr : ¬ L.InSlot j addr) :
    (m.create L j birth).hart.mem addr = m.hart.mem addr := by
  obtain ⟨f, hf, -⟩ := archInitSwitchContext_eq (L.procAddr j) (birth.entry L) birth.isUser m.hart
  have hframe : ¬ InFrame (L.trapFrame j) addr := fun hin => haddr (.inr (.inr hin))
  have hspw : addr ≠ L.procAddr j + spOffset := fun heq => haddr (.inr (.inl heq))
  unfold Machine.create
  dsimp only
  rw [putFrame_other _ _ hframe, hf, Function.update_of_ne hspw, putSwitch_other]
  exact fun hw => haddr (.inl (initSwitch_inStack L (hinv.unused_ne hj).1 hw))

theorem create (hinv : TrapInv L m) (huser : m.hart.user = false) {j : Fin procMax}
    (hj : m.thread j = .unused) (birth : Birth) : TrapInv L (m.create L j birth) := by
  obtain ⟨hidle, hne⟩ := hinv.unused_ne hj
  have hmem := hinv.create_mem hj birth
  have hsp := initSp_toNat L j
  have hend := L.stackEnd_toNat j
  have hbottom := L.bottom_of_ne hidle
  have hcontext := birth_fromUser birth (hinv.contexts m.current)
  obtain ⟨f, hf, -⟩ := archInitSwitchContext_eq (L.procAddr j) (birth.entry L) birth.isUser m.hart
  rw [switchSize_toNat] at hsp
  unfold Machine.create at hmem ⊢
  dsimp only at hmem ⊢
  generalize birth.context (frameAt m.hart.mem (L.trapFrame m.current)) = context at hcontext hmem ⊢
  generalize archInitSwitchContext (L.procAddr j) (birth.entry L) birth.isUser m.hart = mem
    at hf hmem ⊢
  have htf : ∀ addr, ¬ InFrame (L.trapFrame j) addr →
      putFrame (L.trapFrame j) context mem addr = mem addr := fun _ haddr =>
    putFrame_other context mem haddr
  refine hinv.setOther huser hne hmem ?_ (fun h0 => absurd h0 hidle) rfl ?_
  · have hleft : Left L (putFrame (L.trapFrame j) context mem) j
        (L.procAddr j + stackTopOffset + -switchSize)
        (switchAt mem (L.procAddr j + stackTopOffset + -switchSize)) [] := by
      constructor
      case spWord =>
        rw [htf _ (L.spWord_notFrame j), hf]
        exact Function.update_self ..
      case words =>
        exact switchAt_congr fun addr hw => htf addr fun hin =>
          L.trapFrame_notStack _ hin (initSwitch_inStack L hidle hw)
      case aligned =>
        have haligned := L.top_aligned j
        rw [L.top_of_ne hidle] at haligned
        omega
      case bottom => omega
      case stacked =>
        refine .nil ?_
        rw [L.top_of_ne hidle, switchSize_toNat]
        omega
      case fresh => exact fun _ => ⟨rfl, hidle⟩
    exact hleft
  · rw [frameAt_putFrame]
    exact hcontext

end TrapInv

/-! ## Runs -/

theorem TrapInv.initial {L : Image} {m : Machine} (h : Initial L m) : TrapInv L m := by
  have hself : m.thread 0 = .running [] := by
    rw [h.thread, Function.update_self]
  have hacts : m.acts = [] := by
    unfold Machine.acts
    rw [h.current, hself]
    rfl
  constructor
  case current =>
    rw [h.current]
    exact h.currentProc
  case running =>
    rw [hacts, h.current]
    exact hself
  case onStack =>
    rw [hacts, h.current]
    refine ⟨fun hu => ?_, fun _ => h.sscratch, fun _ => h.inside.1, fun _ => h.aligned,
      fun _ => .nil ?_⟩
    · rw [h.user] at hu
      cases hu
    · rw [L.top_zero]
      exact h.inside.2
  case others =>
    intro i hi
    rw [h.current] at hi
    rw [h.thread, Function.update_of_ne hi]
    trivial
  case idle =>
    rw [hself]
    intro hno
    cases hno
  case contexts =>
    intro i
    rw [h.trapFrame i]
    rfl
  case saved =>
    intro i a ha
    by_cases hi : i = 0
    · rw [hi, hself] at ha
      cases ha
    · rw [h.thread, Function.update_of_ne hi] at ha
      cases ha

theorem TrapInv.step {L : Image} {m m' : Machine} (hinv : TrapInv L m) (h : Step L m m') :
    TrapInv L m' := by
  cases h with
  | userRun huser hmode hcsr hmem => exact hinv.userRun huser hmode hcsr hmem
  | kernelRun huser hmode hscratch hmem haligned hbottom hceiling =>
      exact hinv.kernelRun huser hmode hscratch hmem haligned hbottom hceiling
  | trap hroom => exact hinv.trap hroom
  | leave huser hacts hstage hexecd hsp => exact hinv.leave huser hacts hsp
  | ecallStart huser hacts hstage => exact hinv.ecallStart huser hacts hstage
  | exec args huser hacts hstage hmode => exact hinv.exec huser hacts hstage hmode args
  | ecallEnd value huser hacts hstage => exact hinv.ecallEnd huser hacts hstage value
  | ecallReplaced huser hacts hstage => exact hinv.ecallReplaced huser hacts hstage
  | switchTo huser hj hprev hnext hra hroom => exact hinv.switchTo huser hprev hroom hj hnext hra
  | create birth huser hj => exact hinv.create huser hj birth
  | release huser hj hidle hmem hzero => exact hinv.release huser hj hidle hmem hzero

theorem Reachable.inv {L : Image} {m : Machine} (h : Reachable L m) : TrapInv L m := by
  induction h with
  | initial h => exact .initial h
  | step h hstep ih => exact ih.step hstep

end Sugimotos.Arch
