/-
# Processes that wait

Runs of the machine, seen from a process that does not take part: what it left on its stack and
in its record is still there when it is switched to.
-/

import Mathlib.Logic.Relation
import Sugimotos.Arch.SwitchRun

namespace Sugimotos.Arch

open Sugimotos.Math Sugimotos.Mm Sugimotos.Proc

/-- Runs in which every machine after the first one has a property. -/
abbrev RunWhile (L : Image) (P : Machine → Prop) : Machine → Machine → Prop :=
  Relation.ReflTransGen fun m m' => Step L m m' ∧ P m'

theorem RunWhile.reachable {L : Image} {P : Machine → Prop} {m m' : Machine}
    (hrun : RunWhile L P m m') (h : Reachable L m) : Reachable L m' := by
  induction hrun with
  | refl => exact h
  | tail _ hstep ih => exact ih.step hstep.1

/-! ## The traps under way -/

@[simp] theorem Machine.go_acts (m : Machine) (h : Hart) (acts : List Activation) :
    (m.go h acts).acts = acts := by
  show (Function.update m.thread m.current (.running acts) m.current).acts = acts
  rw [Function.update_self]
  rfl

theorem Machine.trap_acts (L : Image) (m : Machine) : (m.trap L).acts =
    ⟨entryBase (m.hart.trap L.kernelEntry), m.context, .taken⟩ :: m.acts := Machine.go_acts ..

theorem Machine.leave_acts (m : Machine) : m.leave.acts = m.acts.tail := Machine.go_acts ..

theorem Machine.switchTo_acts (L : Image) (m : Machine) (j : Fin procMax) :
    (m.switchTo L j).acts = (m.thread j).acts := by
  show (Function.update (Function.update m.thread m.current _) j _ j).acts = _
  rw [Function.update_self]
  rfl

theorem Machine.switchTo_left_acts (L : Image) (m : Machine) {j : Fin procMax}
    (hj : m.current ≠ j) : ((m.switchTo L j).thread m.current).acts = m.acts := by
  show (Function.update (Function.update m.thread m.current _) j _ m.current).acts = _
  rw [Function.update_of_ne hj, Function.update_self]
  rfl

/-! ## Where a trap writes -/

theorem Machine.trap_hart (L : Image) (m : Machine) :
    (m.trap L).hart = entered (m.hart.trap L.kernelEntry) := by
  show (runLine 0 kernelEntry (m.hart.trap L.kernelEntry)).1 = _
  rw [kernelEntry_enters]

theorem Machine.trap_mem (L : Image) (m : Machine) :
    (m.trap L).hart.mem = putFrame (entryBase (m.hart.trap L.kernelEntry))
      (savedFrame (m.hart.trap L.kernelEntry)) m.hart.mem := by
  rw [Machine.trap_hart, entered_mem]
  rfl

/-! ## Processes that wait -/

/-- The process does not run, and its record is not cleared. -/
def Machine.Waits (i : Fin procMax) (m : Machine) : Prop :=
  ∃ sp frame acts, m.thread i = .parked sp frame acts

theorem Machine.create_waits (L : Image) (m : Machine) (j : Fin procMax) (birth : Birth) :
    (m.create L j birth).Waits j := by
  unfold Machine.Waits Machine.create
  dsimp only
  rw [Function.update_self]
  exact ⟨_, _, _, rfl⟩

theorem Machine.switchTo_waits (L : Image) (m : Machine) {j : Fin procMax} (hj : m.current ≠ j) :
    (m.switchTo L j).Waits m.current := by
  unfold Machine.Waits Machine.switchTo
  dsimp only
  rw [Function.update_of_ne hj, Function.update_self]
  exact ⟨_, _, _, rfl⟩

theorem ecallMem_other {tf base : UInt32} {user : Bool} {f : TrapFrame} {mem : UInt32 → UInt32}
    {addr : UInt32} (hbase : ¬ InFrame base addr) (htf : ¬ InFrame tf addr) :
    ecallMem tf base user f mem addr = mem addr := by
  unfold ecallMem
  split
  · rw [putFrame_other _ _ htf, putFrame_other _ _ hbase]
  · exact putFrame_other _ _ hbase

theorem TrapInv.ecallEnd_other {L : Image} {m : Machine} (hinv : TrapInv L m)
    (huser : m.hart.user = false) {a : Activation} {rest : List Activation}
    (hacts : m.acts = a :: rest) (value : UInt32) (contextReplaced : Bool) {addr : UInt32}
    (haddr : ¬ L.InSlot m.current addr) :
    (archHandleEcallEnd (L.trapFrame m.current) a.base value contextReplaced m.hart).mem addr =
      m.hart.mem addr := by
  rw [archHandleEcallEnd_mem]
  exact ecallMem_other (fun hf => haddr (.inl (hinv.inFrame_cons huser hacts hf)))
    fun hf => haddr (.inr (.inr hf))

/-- Steps of the current process do not write to the records of others. -/
theorem Step.context_kept {L : Image} {m m' : Machine} (hinv : TrapInv L m) (h : Step L m m')
    {i : Fin procMax} (hi : m.Waits i) (hi' : m'.Waits i) :
    m'.thread i = m.thread i ∧
      frameAt m'.hart.mem (L.trapFrame i) = frameAt m.hart.mem (L.trapFrame i) := by
  obtain ⟨sp, frame, acts, hthread⟩ := hi
  obtain ⟨sp', frame', acts', hthread'⟩ := hi'
  have hne := hinv.parked_ne hthread
  have hgo : ∀ h acts, (m.go h acts).thread i = m.thread i := fun h acts =>
    Function.update_of_ne hne ..
  have hslot : ∀ addr, InFrame (L.trapFrame i) addr → L.InSlot i addr := fun addr haddr =>
    .inr (.inr haddr)
  have hown : ∀ mem : UInt32 → UInt32,
      (∀ addr, ¬ L.InSlot m.current addr → mem addr = m.hart.mem addr) →
      frameAt mem (L.trapFrame i) = frameAt m.hart.mem (L.trapFrame i) := fun mem hmem =>
    frameAt_congr fun addr haddr => hmem addr ((hslot addr haddr).apart hne)
  cases h with
  | userRun huser hmode hcsr hmem =>
      exact ⟨rfl, frameAt_congr fun addr haddr => hmem addr (.inr ⟨i, hslot addr haddr⟩)⟩
  | kernelRun huser hmode hscratch hmem haligned hbottom hceiling =>
      exact ⟨rfl, frameAt_congr fun addr haddr => hmem addr (.inr ⟨i, .inl haddr⟩)⟩
  | trap hroom =>
      refine ⟨hgo .., hown _ fun addr haddr => ?_⟩
      rw [Machine.trap_mem]
      exact putFrame_other _ _ fun hf => haddr (.inl (hinv.trap_inFrame hroom hf).1)
  | leave huser hacts hstage hexecd hsp =>
      refine ⟨hgo .., ?_⟩
      rw [hinv.leave_hart huser hacts hsp]
      rfl
  | ecallStart huser hacts hstage =>
      refine ⟨hgo .., hown _ fun addr haddr => ?_⟩
      show (archHandleEcallStart _ _ m.hart).mem addr = _
      rw [archHandleEcallStart_mem]
      exact ecallMem_other (fun hf => haddr (.inl (hinv.inFrame_cons huser hacts hf)))
        fun hf => haddr (.inr (.inr hf))
  | exec args huser hacts hstage hmode =>
      refine ⟨hgo .., ?_⟩
      unfold Machine.exec Machine.go
      dsimp only
      exact hown _ fun addr haddr => putFrame_other _ _ fun hf => haddr (.inr (.inr hf))
  | ecallEnd value huser hacts hstage =>
      exact ⟨hgo .., hown _ fun addr haddr => hinv.ecallEnd_other huser hacts _ _ haddr⟩
  | ecallReplaced huser hacts hstage =>
      exact ⟨hgo .., hown _ fun addr haddr => hinv.ecallEnd_other huser hacts _ _ haddr⟩
  | @switchTo j sp frame acts huser hj hprev hnext hra hroom =>
      have hthread : (m.switchTo L j).thread = Function.update
          (Function.update m.thread m.current
            (.parked (m.hart.reg .sp + -switchSize) (leftFrame m.hart) m.acts)) j
          (.running (m.thread j).acts) := rfl
      rw [hthread] at hthread' ⊢
      by_cases hij : i = j
      · rw [hij, Function.update_self] at hthread'
        cases hthread'
      · rw [Function.update_of_ne hij, Function.update_of_ne hne]
        refine ⟨rfl, ?_⟩
        show frameAt (m.switchHart L j).mem _ = _
        rw [hinv.switchHart_mem huser hprev hroom hj hnext]
        exact hinv.switchedMem_frame huser hprev hroom j i
  | @create j birth huser hj =>
      have hij : i ≠ j := by
        rintro rfl
        rw [hj] at hthread
        cases hthread
      have hkept := hinv.create_mem hj birth
      refine ⟨Function.update_of_ne hij .., frameAt_congr fun addr haddr => ?_⟩
      exact hkept addr ((hslot addr haddr).apart hij)
  | @release j sp frame acts mem huser hj hidle hmem hzero =>
      by_cases hij : i = j
      · dsimp only at hthread'
        rw [hij, Function.update_self] at hthread'
        cases hthread'
      · refine ⟨Function.update_of_ne hij .., frameAt_congr fun addr haddr => ?_⟩
        exact hmem addr ((hslot addr haddr).apart hij)

theorem RunWhile.waits {L : Image} {m m' : Machine} {i : Fin procMax} (h : Reachable L m)
    (hi : m.Waits i) (hrun : RunWhile L (Machine.Waits i) m m') :
    m'.thread i = m.thread i ∧
      frameAt m'.hart.mem (L.trapFrame i) = frameAt m.hart.mem (L.trapFrame i) := by
  induction hrun with
  | refl => exact ⟨rfl, rfl⟩
  | @tail m' m'' hrun hstep ih =>
      have hwaits : m'.Waits i := by
        obtain ⟨sp, frame, acts, hthread⟩ := hi
        exact ⟨sp, frame, acts, ih.1.trans hthread⟩
      obtain ⟨hthread, hframe⟩ :=
        hstep.1.context_kept (RunWhile.reachable hrun h).inv hwaits hstep.2
      exact ⟨hthread.trans ih.1, hframe.trans ih.2⟩

/-- The calls of `switch_context` that `yield` makes, to process `j`. -/
structure Yields (L : Image) (m : Machine) (j : Fin procMax) : Prop where
  user : m.hart.user = false
  waits : m.Waits j
  prev : m.hart.reg .a0 = L.spWord m.current
  next : m.hart.reg .a1 = L.spWord j
  ra : m.hart.reg .ra ≠ L.archResumeFromTrap
  room : L.bottom m.current + switchSize.toNat ≤ (m.hart.reg .sp).toNat

theorem Yields.step {L : Image} {m : Machine} {j : Fin procMax} (h : Yields L m j) :
    Step L m (m.switchTo L j) := by
  obtain ⟨sp, frame, acts, hj⟩ := h.waits
  exact .switchTo h.user hj h.prev h.next h.ra h.room

instance (i : Fin procMax) (m : Machine) : Decidable (m.Waits i) :=
  match h : m.thread i with
  | .unused => .isFalse fun ⟨_, _, _, hwaits⟩ => by
      rw [h] at hwaits
      cases hwaits
  | .running _ => .isFalse fun ⟨_, _, _, hwaits⟩ => by
      rw [h] at hwaits
      cases hwaits
  | .parked sp frame acts => .isTrue ⟨sp, frame, acts, h⟩

/-- The same machine with other registers. -/
def Machine.withReg (m : Machine) (reg : Reg → UInt32) : Machine :=
  { m with hart := { m.hart with reg := reg } }

@[simp] theorem Machine.withReg_thread (m : Machine) (reg : Reg → UInt32) :
    (m.withReg reg).thread = m.thread := rfl

@[simp] theorem Machine.withReg_acts (m : Machine) (reg : Reg → UInt32) :
    (m.withReg reg).acts = m.acts := rfl

theorem Machine.withReg_user (m : Machine) (reg : Reg → UInt32) :
    (m.withReg reg).hart.user = m.hart.user := rfl

theorem Yields.withReg {L : Image} {m : Machine} {reg : Reg → UInt32} {j : Fin procMax}
    (huser : m.hart.user = false) (hwaits : m.Waits j) (hprev : reg .a0 = L.spWord m.current)
    (hnext : reg .a1 = L.spWord j) (hra : reg .ra ≠ L.archResumeFromTrap)
    (hroom : L.bottom m.current + switchSize.toNat ≤ (reg .sp).toNat) :
    Yields L (m.withReg reg) j :=
  ⟨huser, hwaits, hprev, hnext, hra, hroom⟩

theorem Step.withReg {L : Image} {m : Machine} {reg : Reg → UInt32} (huser : m.hart.user = false)
    (haligned : (reg .sp).toNat % 16 = 0) (hbottom : L.bottom m.current ≤ (reg .sp).toNat)
    (hceiling : (reg .sp).toNat ≤ m.ceiling L) : Step L m (m.withReg reg) :=
  .kernelRun huser huser rfl (fun _ _ => rfl) haligned hbottom hceiling

theorem Step.userWithReg {L : Image} {m : Machine} {reg : Reg → UInt32}
    (huser : m.hart.user = true) : Step L m (m.withReg reg) :=
  .userRun huser huser rfl fun _ _ => rfl

/-! ## A small machine -/

/-- A place for everything. -/
def smallImage : Image where
  procs := 0x80210000
  currentProc := 0x8020f000
  stackTop := 0x80300000
  kernelEntry := 0x80200100
  archResumeFromTrap := 0x80200200
  procs_aligned := by decide
  stackTop_aligned := by decide
  stackTop_above := by decide
  currentProc_apart := by decide

/-- The idle process, about to call `switch_context` for the process in slot 1. -/
def smallBoot : Machine where
  hart :=
    { reg
        | .sp => 0x802fff00
        | .ra => 0x80200400
        | .a0 => smallImage.spWord 0
        | .a1 => smallImage.spWord 1
        | _ => 0
      csr := fun _ => 0
      mem := fun addr => if addr = smallImage.currentProc then smallImage.procAddr 0 else 0
      pc := 0x80200300
      user := false }
  current := 0
  thread := Function.update (fun _ => .unused) 0 (.running [])

theorem smallBoot_mem (addr : UInt32) : smallBoot.hart.mem addr =
    if addr = smallImage.currentProc then smallImage.procAddr 0 else 0 := rfl

theorem smallBoot_reachable : Reachable smallImage smallBoot := by
  have hcurrent : smallBoot.hart.mem smallImage.currentProc = smallImage.procAddr 0 := by
    rw [smallBoot_mem, if_pos rfl]
  refine .initial ⟨rfl, rfl, rfl, hcurrent, rfl, fun i => ?_, by decide, by decide⟩
  have hzero : frameAt (fun _ => 0) (smallImage.trapFrame i) = .zero := rfl
  rw [← hzero]
  refine frameAt_congr fun addr haddr => ?_
  rw [smallBoot_mem, if_neg]
  rintro rfl
  exact smallImage.currentProc_notMem i (.inr (.inr haddr))

/-- The registers of one of two processes, about to switch to the other. -/
def smallReg (i j : Fin procMax) : Reg → UInt32
  | .sp => if i = 0 then 0x802fff00 else 0x80220270
  | .ra => 0x80200600
  | .a0 => smallImage.spWord i
  | .a1 => smallImage.spWord j
  | _ => 0

/-- A new process, right after `smallBoot`. -/
def smallBorn (birth : Birth) : Machine := smallBoot.create smallImage 1 birth

theorem smallBorn_yields (birth : Birth) : Yields smallImage (smallBorn birth) 1 where
  user := rfl
  waits := smallBoot.create_waits smallImage 1 birth
  prev := rfl
  next := rfl
  ra := by
    show (0x80200400 : UInt32) ≠ 0x80200200
    decide
  room := by
    show smallImage.bottom 0 + switchSize.toNat ≤ (0x802fff00 : UInt32).toNat
    decide

/-- The new process, a user process, has started. -/
def smallUser : Machine := (smallBorn (.user 0x80201000 0x40000000)).switchTo smallImage 1

/-- It has trapped, for a system call. -/
def smallCall : Machine :=
  (smallUser.trap smallImage).ecallStart smallImage
    (entryBase (smallUser.hart.trap smallImage.kernelEntry))

theorem smallUser_reachable : Reachable smallImage smallUser :=
  (smallBoot_reachable.step (.create _ rfl rfl)).step (smallBorn_yields _).step

theorem smallCall_acts : smallCall.acts =
    ⟨entryBase (smallUser.hart.trap smallImage.kernelEntry), smallUser.context, .called⟩ ::
      smallUser.acts := by
  unfold smallCall Machine.ecallStart
  rw [Machine.go_acts, TrapInv.restage_cons (smallUser.trap_acts smallImage)]

theorem smallCall_step : Step smallImage (smallUser.trap smallImage) smallCall := by
  have huser : (smallUser.trap smallImage).hart.user = false := by decide +kernel
  have hcall := Step.ecallStart (L := smallImage) huser (smallUser.trap_acts smallImage) rfl
  exact hcall

theorem smallCall_reachable : Reachable smallImage smallCall := by
  have htrap : Step smallImage smallUser (smallUser.trap smallImage) := .trap (by decide +kernel)
  exact (smallUser_reachable.step htrap).step smallCall_step

end Sugimotos.Arch
