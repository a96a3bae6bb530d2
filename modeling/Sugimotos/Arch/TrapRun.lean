/-
# Traps and system calls keep the kernel stacks

What the steps of the process that runs do to the invariant: a trap puts a frame on its stack,
`arch_handle_ecall` writes to the latest frame, and the return takes that frame off again.
-/

import Sugimotos.Arch.TrapInv

namespace Sugimotos.Arch

open Sugimotos.Math Sugimotos.Mm Sugimotos.Proc

/-! ## Frames of traps -/

namespace Activation

variable (a : Activation)

theorem stored_kernel {a : Activation} (h : fromUser a.context.sstatus = false) :
    a.stored = a.context := by
  unfold stored
  rw [if_neg]
  rintro ⟨huser, -⟩
  rw [h] at huser
  cases huser

theorem stored_sstatus : a.stored.sstatus = a.context.sstatus := by
  unfold stored
  split <;> rfl

theorem stored_sepc : a.stored.sepc = a.context.sepc := by
  unfold stored
  split <;> rfl

theorem frame_taken {a : Activation} (h : a.stage = .taken) : a.frame = a.stored := by
  unfold frame
  rw [h]

theorem frame_answered {a : Activation} {value : UInt32} (h : a.stage = .answered value) :
    a.frame = { a.stored with sepc := a.context.sepc + 4 }.set .a0 value := by
  unfold frame
  rw [h]

/-- Only a system call that replaces the context changes the status register. -/
theorem frame_sstatus {a : Activation} (h : ∀ args, a.stage ≠ .replaced args) :
    a.frame.sstatus = a.context.sstatus := by
  unfold frame
  cases hstage : a.stage with
  | taken => exact a.stored_sstatus
  | called => exact a.stored_sstatus
  | execd args => exact a.stored_sstatus
  | answered value => exact a.stored_sstatus
  | replaced args => exact absurd hstage (h args)

/-- And only such a call changes the stack pointer. -/
theorem frame_sp {a : Activation} (h : ∀ args, a.stage ≠ .replaced args) :
    a.frame.reg .sp = a.stored.reg .sp := by
  unfold frame
  cases hstage : a.stage with
  | taken => rfl
  | called => rfl
  | execd args => rfl
  | answered value =>
      simp only [TrapFrame.set, Function.update_of_ne, ne_eq, reduceCtorEq, not_false_eq_true]
  | replaced args => exact absurd hstage (h args)

/-- Only between `proc_exec` and the end of the call does the `trap_frame` of the process differ
from the frame on the stack. -/
theorem saved_frame {a : Activation} (h : ∀ args, a.stage ≠ .execd args) : a.saved = a.frame := by
  unfold saved
  cases hstage : a.stage with
  | execd args => exact absurd hstage (h args)
  | _ => rfl

end Activation

theorem ExecArgs.context_sstatus (args : ExecArgs) : args.context.sstatus = sstatusSpie := rfl

theorem ExecArgs.context_fromUser (args : ExecArgs) : fromUser args.context.sstatus = true := by
  rw [args.context_sstatus]
  rfl

/-! ## The memory of the current process -/

namespace TrapInv

variable {L : Image} {m : Machine}

/-- Writing to the slot of the current process, and to `current_proc`, leaves the others as they
are. -/
theorem others_kept (hinv : TrapInv L m) {mem : UInt32 → UInt32}
    (hmem : ∀ addr, addr ≠ L.currentProc → ¬ L.InSlot m.current addr →
      mem addr = m.hart.mem addr) {i : Fin procMax} (hi : i ≠ m.current) :
    Ready L mem i (m.thread i) ∧
      frameAt mem (L.trapFrame i) = frameAt m.hart.mem (L.trapFrame i) := by
  have hslot : ∀ addr, L.InSlot i addr → mem addr = m.hart.mem addr := by
    intro addr haddr
    refine hmem addr ?_ (haddr.apart hi)
    rintro rfl
    exact L.currentProc_notMem i haddr
  exact ⟨(hinv.others i hi).congr hslot, frameAt_congr fun addr haddr => hslot addr (.inr (.inr haddr))⟩

theorem contexts_kept (hinv : TrapInv L m) {mem : UInt32 → UInt32}
    (hmem : ∀ addr, addr ≠ L.currentProc → ¬ L.InSlot m.current addr → mem addr = m.hart.mem addr)
    (hcurrent : fromUser (frameAt mem (L.trapFrame m.current)).sstatus = true) (i : Fin procMax) :
    fromUser (frameAt mem (L.trapFrame i)).sstatus = true := by
  by_cases hi : i = m.current
  · rw [hi]
    exact hcurrent
  · rw [(hinv.others_kept hmem hi).2]
    exact hinv.contexts i

theorem saved_kept (hinv : TrapInv L m) {mem : UInt32 → UInt32}
    (hmem : ∀ addr, addr ≠ L.currentProc → ¬ L.InSlot m.current addr → mem addr = m.hart.mem addr)
    {i : Fin procMax} (hi : i ≠ m.current) : Saved L mem i (m.thread i).acts :=
  (hinv.saved i).congr (hinv.others_kept hmem hi).2

/-- The current process goes on, and writes to its own slot only. -/
theorem go (hinv : TrapInv L m) {h : Hart} {acts : List Activation}
    (hmem : ∀ addr, ¬ L.InSlot m.current addr → h.mem addr = m.hart.mem addr)
    (hcontext : fromUser (frameAt h.mem (L.trapFrame m.current)).sstatus = true)
    (hsaved : Saved L h.mem m.current acts)
    (hstack : OnStack L m.current h acts) : TrapInv L (m.go h acts) := by
  have hkept : ∀ addr, addr ≠ L.currentProc → ¬ L.InSlot m.current addr →
      h.mem addr = m.hart.mem addr := fun addr _ => hmem addr
  have hself : (m.go h acts).thread m.current = .running acts := Function.update_self ..
  have hacts : (m.go h acts).acts = acts := by
    show ((m.go h acts).thread m.current).acts = acts
    rw [hself]
    rfl
  have hother : ∀ i, i ≠ m.current → (m.go h acts).thread i = m.thread i := fun i hi =>
    Function.update_of_ne hi ..
  constructor
  case current => exact (hmem _ (L.currentProc_notMem _)).trans hinv.current
  case running =>
    rw [hacts]
    exact hself
  case onStack =>
    rw [hacts]
    exact hstack
  case others =>
    intro i hi
    rw [hother i hi]
    exact (hinv.others_kept hkept hi).1
  case idle =>
    by_cases hi : 0 = m.current
    · rw [hi, hself]
      intro hunused
      cases hunused
    · rw [hother 0 hi]
      exact hinv.idle
  case contexts => exact fun i => hinv.contexts_kept hkept hcontext i
  case saved =>
    intro i
    by_cases hi : i = m.current
    · rw [hi, hself]
      exact hsaved
    · rw [hother i hi]
      exact hinv.saved_kept hkept hi

/-- The stack of the current process, where it is in the kernel. -/
theorem inStack (hinv : TrapInv L m) (huser : m.hart.user = false) {addr : UInt32}
    (hlow : (m.hart.reg .sp).toNat ≤ addr.toNat) (hhigh : addr.toNat < (L.top m.current).toNat) :
    L.InStack m.current addr :=
  ⟨(hinv.onStack.bottom huser).trans hlow, hhigh⟩

/-! ## A trap is taken -/

/-- A trap from user mode begins at the end of the kernel stack. -/
theorem entrySp_user (hinv : TrapInv L m) (huser : m.hart.user = true) :
    entrySp (m.hart.trap L.kernelEntry) = L.top m.current := by
  have hscratch : (m.hart.trap L.kernelEntry).csr .sscratch = L.top m.current :=
    (hinv.onStack.user huser).1
  unfold entrySp
  rw [hscratch, if_neg (L.top_ne_zero _)]

theorem entrySp_kernel (hinv : TrapInv L m) (huser : m.hart.user = false) :
    entrySp (m.hart.trap L.kernelEntry) = m.hart.reg .sp := if_pos (hinv.onStack.scratch huser)

/-- Where the frame of a trap goes. -/
theorem trap_base (hinv : TrapInv L m)
    (hroom : m.hart.user = false → L.bottom m.current + frameSize.toNat ≤ (m.hart.reg .sp).toNat) :
    let h := m.hart.trap L.kernelEntry
    (entryBase h).toNat + frameSize.toNat = (entrySp h).toNat ∧
      L.bottom m.current ≤ (entryBase h).toNat ∧ (entryBase h).toNat % 16 = 0 ∧
      (entrySp h).toNat ≤ (L.top m.current).toNat := by
  have hbottom := L.bottom_le_top m.current
  have halign := L.top_aligned m.current
  rw [frameSize_toNat] at hroom
  simp only [stackSize] at hbottom
  dsimp only
  have hsp : 144 ≤ (entrySp (m.hart.trap L.kernelEntry)).toNat ∧
      L.bottom m.current + 144 ≤ (entrySp (m.hart.trap L.kernelEntry)).toNat ∧
      (entrySp (m.hart.trap L.kernelEntry)).toNat % 16 = 0 ∧
      (entrySp (m.hart.trap L.kernelEntry)).toNat ≤ (L.top m.current).toNat := by
    cases huser : m.hart.user with
    | true =>
        rw [hinv.entrySp_user huser]
        omega
    | false =>
        have hsp := hinv.onStack.aligned huser
        have htop := (hinv.onStack.stacked huser).le_top
        have hlow := hroom huser
        rw [hinv.entrySp_kernel huser]
        exact ⟨Nat.le_trans (Nat.le_add_left ..) hlow, hlow, hsp, htop⟩
  have hbase : (entryBase (m.hart.trap L.kernelEntry)).toNat =
      (entrySp (m.hart.trap L.kernelEntry)).toNat - 144 := toNat_add_neg hsp.1
  rw [frameSize_toNat, hbase]
  omega

/-- The frame of a trap lies in the kernel stack, below the stack pointer. -/
theorem trap_inFrame (hinv : TrapInv L m)
    (hroom : m.hart.user = false → L.bottom m.current + frameSize.toNat ≤ (m.hart.reg .sp).toNat)
    {addr : UInt32} (haddr : InFrame (entryBase (m.hart.trap L.kernelEntry)) addr) :
    L.InStack m.current addr ∧ addr.toNat < (entrySp (m.hart.trap L.kernelEntry)).toNat := by
  obtain ⟨hend, hbottom, -, htop⟩ := hinv.trap_base hroom
  have hlt := (entrySp (m.hart.trap L.kernelEntry)).toNat_lt
  rw [frameSize_toNat] at hend
  rw [inFrame_iff (by omega)] at haddr
  exact ⟨⟨by omega, by omega⟩, by omega⟩

/-- The frame that `kernel_entry` stores is the one that the trap has to have. -/
theorem trap_frame (hinv : TrapInv L m) (stage : Stage) :
    savedFrame (m.hart.trap L.kernelEntry) =
      (Activation.mk (entryBase (m.hart.trap L.kernelEntry)) m.context stage).stored := by
  have hback : entryBase (m.hart.trap L.kernelEntry) + frameSize =
      entrySp (m.hart.trap L.kernelEntry) := add_neg_add ..
  have hscratch : (m.hart.trap L.kernelEntry).csr .sscratch = m.hart.csr .sscratch := rfl
  have hreg : (m.hart.trap L.kernelEntry).reg = m.hart.reg := rfl
  have hmode : fromUser m.context.sstatus = m.hart.user := fromUser_trapStatus ..
  have hsaved : savedFrame (m.hart.trap L.kernelEntry) =
      m.context.set .sp (savedSp (m.hart.trap L.kernelEntry)) := rfl
  have hself : m.context.set .sp (m.hart.reg .sp) = m.context := by
    have hupdate : Function.update m.hart.reg .sp (m.hart.reg .sp) = m.hart.reg :=
      Function.update_eq_self ..
    show TrapFrame.mk (Function.update m.hart.reg .sp (m.hart.reg .sp)) _ _ = _
    rw [hupdate]
    rfl
  unfold Activation.stored
  rw [hsaved, hback, hmode]
  unfold savedSp
  rw [hscratch, hreg]
  cases huser : m.hart.user with
  | true =>
      rw [(hinv.onStack.user huser).1]
      by_cases hsp : m.hart.reg .sp = 0
      · rw [if_pos (Or.inr hsp), if_pos ⟨rfl, hsp⟩]
      · rw [if_neg fun hor => hor.elim (L.top_ne_zero _) hsp, if_neg fun hand => hsp hand.2, hself]
  | false =>
      rw [if_pos (Or.inl (hinv.onStack.scratch huser)), if_neg fun hand => Bool.noConfusion hand.1,
        hinv.entrySp_kernel huser, hself]

theorem trap (hinv : TrapInv L m)
    (hroom : m.hart.user = false → L.bottom m.current + frameSize.toNat ≤ (m.hart.reg .sp).toNat) :
    TrapInv L (m.trap L) := by
  obtain ⟨hend, hbottom, haligned, -⟩ := hinv.trap_base hroom
  have hstored := hinv.trap_frame .taken
  have hinFrame : ∀ addr, InFrame (entryBase (m.hart.trap L.kernelEntry)) addr →
      L.InStack m.current addr ∧ addr.toNat < (entrySp (m.hart.trap L.kernelEntry)).toNat :=
    fun _ haddr => hinv.trap_inFrame hroom haddr
  have hspuser := hinv.entrySp_user
  have hspkernel := hinv.entrySp_kernel
  have htrap : m.trap L = m.go (entered (m.hart.trap L.kernelEntry))
      (⟨entryBase (m.hart.trap L.kernelEntry), m.context, .taken⟩ :: m.acts) := by
    unfold Machine.trap
    dsimp only
    rw [kernelEntry_enters]
  have hmode : fromUser m.context.sstatus = m.hart.user := fromUser_trapStatus ..
  rw [htrap]
  generalize hh : m.hart.trap L.kernelEntry = h at *
  have hmemh : h.mem = m.hart.mem := by
    rw [← hh]
    rfl
  have hsp := entered_sp h
  have hmem : ∀ addr, ¬ InFrame (entryBase h) addr → (entered h).mem addr = m.hart.mem addr := by
    intro addr haddr
    rw [entered_mem, putFrame_other _ _ haddr, hmemh]
  have hsame : frameAt (entered h).mem (L.trapFrame m.current) =
      frameAt m.hart.mem (L.trapFrame m.current) := frameAt_congr fun addr haddr =>
    hmem addr fun hf => L.trapFrame_notStack _ haddr (hinFrame addr hf).1
  refine hinv.go (fun addr haddr => hmem addr fun hf => haddr (.inl (hinFrame addr hf).1)) ?_ ?_ ?_
  · rw [hsame]
    exact hinv.contexts _
  · intro a ha huser hstage
    rcases List.mem_cons.mp ha with rfl | hold
    · exact absurd rfl hstage
    · exact (hinv.saved _).congr hsame a hold huser hstage
  · constructor
    case user =>
      intro hfalse
      rw [entered_user, ← hh] at hfalse
      cases hfalse
    case scratch => exact fun _ => entered_sscratch h
    case bottom =>
      intro _
      rw [hsp]
      exact hbottom
    case aligned =>
      intro _
      rw [hsp]
      exact haligned
    case stacked =>
      intro _
      rw [hsp]
      have hframe : frameAt (entered h).mem (entryBase h) =
          (Activation.mk (entryBase h) m.context .taken).frame := by
        rw [entered_mem, frameAt_putFrame]
        exact hstored
      cases huser : m.hart.user with
      | true =>
          have hsptop : entrySp h = L.top m.current := hspuser huser
          rw [(hinv.onStack.user huser).2]
          have hnext : fromUser
              (Activation.mk (entryBase h) m.context .taken).frame.sstatus = true := by
            rw [Activation.frame_sstatus (fun _ hno => by cases hno)]
            exact hmode.trans huser
          rw [hsptop] at hend
          refine .user le_rfl ?_ hend hframe (hmode.trans huser) hnext
          rw [← hsptop]
          exact add_neg_add ..
      | false =>
          have hspold : entrySp h = m.hart.reg .sp := hspkernel huser
          refine .kernel le_rfl haligned hframe (hmode.trans huser) ?_ (fun _ hno => by cases hno)
            (fun _ hno => by cases hno) ?_
          · show m.hart.reg .sp = entryBase h + frameSize
            rw [← hspold]
            exact (add_neg_add ..).symm
          · show Stacked (L.top m.current) (entered h).mem ((entryBase h).toNat + frameSize.toNat)
              m.acts
            rw [hend, hspold]
            refine (hinv.onStack.stacked huser).congr_above fun addr hlow _ => ?_
            refine hmem addr fun hf => ?_
            have hbelow := (hinFrame addr hf).2
            rw [hspold] at hbelow
            omega

/-! ## A trap is returned from -/

/-- The latest trap under way. -/
theorem stacked_cons (hinv : TrapInv L m) (huser : m.hart.user = false) {a : Activation}
    {rest : List Activation} (hacts : m.acts = a :: rest) :
    Stacked (L.top m.current) m.hart.mem (m.hart.reg .sp).toNat (a :: rest) := by
  rw [← hacts]
  exact hinv.onStack.stacked huser

theorem frame_cons (hinv : TrapInv L m) (huser : m.hart.user = false) {a : Activation}
    {rest : List Activation} (hacts : m.acts = a :: rest) :
    frameAt m.hart.mem a.base = a.frame := by
  cases hinv.stacked_cons huser hacts with
  | user hsp htop hend hframe hmode hnext => exact hframe
  | kernel hsp haligned hframe hmode hcontext hstage hexecd hrest => exact hframe

/-- The hart after the return. -/
theorem leave_hart (hinv : TrapInv L m) (huser : m.hart.user = false) {a : Activation}
    {rest : List Activation} (hacts : m.acts = a :: rest) (hsp : m.hart.reg .sp = a.base) :
    m.leave = m.go (resumed m.hart a.frame (exitScratch m.hart a.frame)) rest := by
  unfold Machine.leave
  rw [kernelEntry_leaves, hsp, hinv.frame_cons huser hacts, hacts]
  rfl

theorem leave (hinv : TrapInv L m) (huser : m.hart.user = false) {a : Activation}
    {rest : List Activation} (hacts : m.acts = a :: rest) (hsp : m.hart.reg .sp = a.base) :
    TrapInv L m.leave := by
  rw [hinv.leave_hart huser hacts hsp]
  refine hinv.go (fun _ _ => rfl) (hinv.contexts _) ?_ ?_
  · intro b hb
    refine hinv.saved m.current b ?_
    show b ∈ m.acts
    rw [hacts]
    exact List.mem_cons_of_mem _ hb
  have hbottom := hinv.onStack.bottom huser
  rw [hsp] at hbottom
  cases hinv.stacked_cons huser hacts with
  | user hle htop hend hframe hmode hnext =>
      have hscratch : exitScratch m.hart a.frame = L.top m.current := by
        unfold exitScratch
        rw [if_pos hnext, hsp]
        exact htop
      have hno : ¬ (fromUser a.frame.sstatus = false) := by
        rw [hnext]
        decide
      exact ⟨fun _ => ⟨hscratch, rfl⟩, fun h => absurd h hno, fun h => absurd h hno,
        fun h => absurd h hno, fun h => absurd h hno⟩
  | kernel hle haligned hframe hmode hcontext hstage hexecd hrest =>
      have hnext : fromUser a.frame.sstatus = false := by
        rw [Activation.frame_sstatus hstage]
        exact hmode
      have hreg : a.frame.reg .sp = a.base + frameSize := by
        rw [Activation.frame_sp hstage, Activation.stored_kernel hmode]
        exact hcontext
      have htop := (L.top m.current).toNat_lt
      have hle := hrest.le_top
      have hnat : (a.frame.reg .sp).toNat = a.base.toNat + frameSize.toNat := by
        rw [hreg]
        exact toNat_add (by omega)
      have hno : ¬ (fromUser a.frame.sstatus = true) := by
        rw [hnext]
        decide
      refine ⟨fun h => absurd h hno, fun _ => ?_, fun _ => ?_, fun _ => ?_, fun _ => ?_⟩
      · show exitScratch m.hart a.frame = 0
        unfold exitScratch
        rw [if_neg hno]
        exact hinv.onStack.scratch huser
      · show L.bottom m.current ≤ (a.frame.reg .sp).toNat
        omega
      · show (a.frame.reg .sp).toNat % 16 = 0
        rw [frameSize_toNat] at hnat
        omega
      · show Stacked (L.top m.current) m.hart.mem (a.frame.reg .sp).toNat rest
        rw [hnat]
        exact hrest

/-! ## System calls -/

/-- The latest frame is written, and the others stay. -/
theorem restack {L : Image} {m : Machine} (hinv : TrapInv L m) (huser : m.hart.user = false)
    {a : Activation} {rest : List Activation} (hacts : m.acts = a :: rest)
    {mem : UInt32 → UInt32} {stage : Stage}
    (hmem : ∀ addr, L.InStack m.current addr → ¬ InFrame a.base addr →
      mem addr = m.hart.mem addr)
    (hframe : frameAt mem a.base = { a with stage := stage : Activation }.frame)
    (hnext : fromUser a.context.sstatus = true →
      fromUser { a with stage := stage : Activation }.frame.sstatus = true)
    (hstage : fromUser a.context.sstatus = false → ∀ args, stage ≠ .replaced args)
    (hexecd : fromUser a.context.sstatus = false → ∀ args, stage ≠ .execd args) :
    Stacked (L.top m.current) mem (m.hart.reg .sp).toNat ({ a with stage := stage } :: rest) := by
  cases hinv.stacked_cons huser hacts with
  | user hle htop hend _ hmode _ => exact .user hle htop hend hframe hmode (hnext hmode)
  | kernel hle haligned _ hmode hcontext _ _ hrest =>
      refine .kernel hle haligned hframe hmode hcontext (hstage hmode) (hexecd hmode)
        (hrest.congr_above fun addr hlow hhigh => ?_)
      have htop := (L.top m.current).toNat_lt
      have hend := hrest.le_top
      have hlow : a.base.toNat + frameSize.toNat ≤ addr.toNat := hlow
      rw [frameSize_toNat] at hend hlow
      refine hmem addr (hinv.inStack huser (by omega) hhigh) fun hf => ?_
      rw [inFrame_iff (by omega)] at hf
      omega

/-- The words of the latest frame are on the stack. -/
theorem inFrame_cons (hinv : TrapInv L m) (huser : m.hart.user = false) {a : Activation}
    {rest : List Activation} (hacts : m.acts = a :: rest) {addr : UInt32}
    (haddr : InFrame a.base addr) : L.InStack m.current addr := by
  obtain ⟨hlow, hhigh⟩ := (hinv.stacked_cons huser hacts).inFrame List.mem_cons_self haddr
  exact hinv.inStack huser hlow hhigh

/-- A call from the kernel leaves the context where it is, and a call from user mode leaves one
that is from user mode. -/
theorem frame_user (hinv : TrapInv L m) (huser : m.hart.user = false) {a : Activation}
    {rest : List Activation} (hacts : m.acts = a :: rest) :
    fromUser a.frame.sstatus = fromUser a.context.sstatus := by
  cases hinv.stacked_cons huser hacts with
  | user hle htop hend hframe hmode hnext => rw [hmode, hnext]
  | kernel hle haligned hframe hmode hcontext hstage hexecd hrest =>
      rw [Activation.frame_sstatus hstage]

/-- The current process goes on in the kernel after a change to its latest frame, and to its
`trap_frame` if the call came from user mode. -/
theorem restage {L : Image} {m : Machine} (hinv : TrapInv L m) (huser : m.hart.user = false)
    {a : Activation} {rest : List Activation} (hacts : m.acts = a :: rest) {h : Hart}
    {f : TrapFrame} {stage : Stage} (hf : f = { a with stage := stage : Activation }.frame)
    (hkept : h.reg = m.hart.reg ∧ h.user = m.hart.user ∧
      h.csr .sscratch = m.hart.csr .sscratch)
    (hmem : h.mem =
      ecallMem (L.trapFrame m.current) a.base (fromUser a.context.sstatus) f m.hart.mem)
    (hnext : fromUser a.context.sstatus = true → fromUser f.sstatus = true)
    (hstage : fromUser a.context.sstatus = false → ∀ args, stage ≠ .replaced args)
    (hexecd : ∀ args, stage ≠ .execd args) :
    TrapInv L (m.go h ({ a with stage := stage } :: rest)) := by
  obtain ⟨hreg, hmode, hscratch⟩ := hkept
  have htf : ∀ addr, InFrame a.base addr → ¬ InFrame (L.trapFrame m.current) addr :=
    fun addr hf htf => L.trapFrame_notStack _ htf (hinv.inFrame_cons huser hacts hf)
  unfold ecallMem at hmem
  have houter : ∀ addr, ¬ InFrame a.base addr → ¬ InFrame (L.trapFrame m.current) addr →
      h.mem addr = m.hart.mem addr := by
    intro addr hbase htf
    rw [hmem]
    split
    · rw [putFrame_other _ _ htf, putFrame_other _ _ hbase]
    · exact putFrame_other _ _ hbase
  have hframe : frameAt h.mem a.base = f := by
    rw [hmem]
    split
    · rw [frameAt_congr fun addr haddr => putFrame_other _ _ (htf addr haddr)]
      exact frameAt_putFrame ..
    · exact frameAt_putFrame ..
  have hold : fromUser a.context.sstatus ≠ true → frameAt h.mem (L.trapFrame m.current) =
      frameAt m.hart.mem (L.trapFrame m.current) := by
    intro hu
    rw [hmem, if_neg hu]
    exact frameAt_congr fun addr haddr => putFrame_other _ _ fun hf => htf addr hf haddr
  have hnew : fromUser a.context.sstatus = true → frameAt h.mem (L.trapFrame m.current) = f := by
    intro hu
    rw [hmem, if_pos hu]
    exact frameAt_putFrame ..
  refine hinv.go (fun addr haddr => ?_) ?_ ?_ ?_
  · exact houter addr (fun hf => haddr (.inl (hinv.inFrame_cons huser hacts hf)))
      fun hf => haddr (.inr (.inr hf))
  · by_cases hu : fromUser a.context.sstatus = true
    · rw [hnew hu]
      exact hnext hu
    · rw [hold hu]
      exact hinv.contexts _
  · intro b hb hmode hne
    rcases List.mem_cons.mp hb with rfl | hin
    · rw [hnew hmode, hf, Activation.saved_frame hexecd]
    · -- below a trap from user mode there is no other
      have hu : fromUser a.context.sstatus ≠ true := by
        intro hu
        cases hinv.stacked_cons huser hacts with
        | user hle htop hend hframe hmode hnext => cases hin
        | kernel hle haligned hframe hno hcontext hstage hexecd hrest =>
            rw [hno] at hu
            cases hu
      have hmem' : b ∈ m.acts := by
        rw [hacts]
        exact List.mem_cons_of_mem _ hin
      exact (hold hu).trans (hinv.saved m.current b hmem' hmode hne)
  · have hstacked : Stacked (L.top m.current) h.mem (m.hart.reg .sp).toNat
        ({ a with stage := stage } :: rest) := hinv.restack huser hacts
      (fun addr hin hbase => houter addr hbase fun hf => L.trapFrame_notStack _ hf hin)
      (hframe.trans hf) (fun hu => hf ▸ hnext hu) hstage fun _ => hexecd
    rw [← hreg] at hstacked
    refine ⟨fun hu => ?_, fun _ => ?_, fun _ => ?_, fun _ => ?_, fun _ => hstacked⟩
    · rw [hmode, huser] at hu
      cases hu
    · exact hscratch.trans (hinv.onStack.scratch huser)
    · rw [hreg]
      exact hinv.onStack.bottom huser
    · rw [hreg]
      exact hinv.onStack.aligned huser

theorem restage_cons {m : Machine} {a : Activation} {rest : List Activation}
    (hacts : m.acts = a :: rest) (stage : Stage) :
    m.restage stage = { a with stage := stage } :: rest := by
  unfold Machine.restage
  rw [hacts]

theorem ecallStart (hinv : TrapInv L m) (huser : m.hart.user = false) {a : Activation}
    {rest : List Activation} (hacts : m.acts = a :: rest) (hstage : a.stage = .taken) :
    TrapInv L (m.ecallStart L a.base) := by
  have hmode := hinv.frame_user huser hacts
  have hstored : a.frame = a.stored := by
    unfold Activation.frame
    rw [hstage]
  have hf : { a.frame with sepc := a.frame.sepc + 4 } =
      { a with stage := .called : Activation }.frame := by
    rw [hstored, a.stored_sepc]
    rfl
  have hmem := archHandleEcallStart_mem (L.trapFrame m.current) a.base m.hart
  rw [hinv.frame_cons huser hacts, hmode] at hmem
  unfold Machine.ecallStart
  rw [restage_cons hacts]
  exact hinv.restage huser hacts hf (archHandleEcallStart_kept ..) hmem
    (fun hu => hmode.trans hu) (fun _ _ hno => by cases hno) fun _ hno => by cases hno

/-- The rest of the call writes what the system call has left for the process. -/
theorem ecallEnd_with (hinv : TrapInv L m) (huser : m.hart.user = false) {a : Activation}
    {rest : List Activation} (hacts : m.acts = a :: rest) (value : UInt32) (contextReplaced : Bool)
    {stage : Stage}
    (hf : resultFrame (frameAt m.hart.mem (L.trapFrame m.current)) value contextReplaced a.frame =
      { a with stage := stage : Activation }.frame)
    (hnext : fromUser a.context.sstatus = true →
      fromUser { a with stage := stage : Activation }.frame.sstatus = true)
    (hstage : fromUser a.context.sstatus = false → ∀ args, stage ≠ .replaced args)
    (hexecd : ∀ args, stage ≠ .execd args) :
    TrapInv L (m.go (archHandleEcallEnd (L.trapFrame m.current) a.base value contextReplaced m.hart)
      ({ a with stage := stage } :: rest)) := by
  have hmem := archHandleEcallEnd_mem (L.trapFrame m.current) a.base value contextReplaced m.hart
  rw [hinv.frame_cons huser hacts, hinv.frame_user huser hacts, hf] at hmem
  exact hinv.restage huser hacts rfl (archHandleEcallEnd_kept ..) hmem hnext hstage hexecd

theorem ecallEnd (hinv : TrapInv L m) (huser : m.hart.user = false) {a : Activation}
    {rest : List Activation} (hacts : m.acts = a :: rest) (hstage : a.stage = .called)
    (value : UInt32) : TrapInv L (m.ecallEnd L a.base value) := by
  have hframe : a.frame = { a.stored with sepc := a.context.sepc + 4 } := by
    unfold Activation.frame
    rw [hstage]
  unfold Machine.ecallEnd
  rw [restage_cons hacts]
  refine hinv.ecallEnd_with huser hacts value false ?_ (fun hu => ?_) (fun _ _ hno => by cases hno)
    fun _ hno => by cases hno
  · unfold resultFrame
    rw [if_neg fun hno => Bool.noConfusion hno.1, hframe]
    rfl
  · rw [Activation.frame_sstatus fun _ hno => by cases hno]
    exact hu

theorem exec_mode (hinv : TrapInv L m) (huser : m.hart.user = false) {a : Activation}
    {rest : List Activation} (hacts : m.acts = a :: rest) {args : ExecArgs}
    (hstage : a.stage = .execd args) : fromUser a.context.sstatus = true := by
  cases hinv.stacked_cons huser hacts with
  | user hle htop hend hframe hmode hnext => exact hmode
  | kernel hle haligned hframe hmode hcontext hreplaced hexecd hrest =>
      exact absurd hstage (hexecd args)

theorem ecallReplaced (hinv : TrapInv L m) (huser : m.hart.user = false) {a : Activation}
    {rest : List Activation} (hacts : m.acts = a :: rest) {args : ExecArgs}
    (hstage : a.stage = .execd args) : TrapInv L (m.ecallReplaced L a.base args) := by
  have hmode := hinv.exec_mode huser hacts hstage
  have hin : a ∈ (m.thread m.current).acts := by
    show a ∈ m.acts
    rw [hacts]
    exact List.mem_cons_self
  have htf : frameAt m.hart.mem (L.trapFrame m.current) = args.context := by
    rw [hinv.saved m.current a hin hmode (by rw [hstage]; nofun)]
    unfold Activation.saved
    rw [hstage]
  unfold Machine.ecallReplaced
  rw [restage_cons hacts]
  refine hinv.ecallEnd_with huser hacts 0 true ?_ (fun _ => ?_) (fun hno => ?_)
    fun _ hno => by cases hno
  · have hframe := hinv.frame_user huser hacts
    unfold resultFrame
    rw [if_pos ⟨rfl, hframe.trans hmode⟩, htf]
    rfl
  · exact args.context_fromUser
  · rw [hmode] at hno
    cases hno

/-! ## Other code -/

/-- `proc_exec` writes a new context to the `trap_frame` of the current process. -/
theorem exec (hinv : TrapInv L m) (huser : m.hart.user = false) {a : Activation}
    {rest : List Activation} (hacts : m.acts = a :: rest) (hstage : a.stage = .called)
    (hmode : fromUser a.context.sstatus = true) (args : ExecArgs) : TrapInv L (m.exec L args) := by
  have hother : ∀ addr, ¬ InFrame (L.trapFrame m.current) addr →
      putFrame (L.trapFrame m.current) args.context m.hart.mem addr = m.hart.mem addr :=
    fun _ haddr => putFrame_other args.context m.hart.mem haddr
  have hframe : frameAt (putFrame (L.trapFrame m.current) args.context m.hart.mem)
      (L.trapFrame m.current) = args.context := frameAt_putFrame ..
  have hsame : { a with stage := .execd args : Activation }.frame = a.frame := by
    unfold Activation.frame
    rw [hstage]
    rfl
  unfold Machine.exec
  rw [restage_cons hacts]
  refine hinv.go (fun addr haddr => hother addr fun hf => haddr (.inr (.inr hf))) ?_ ?_ ?_
  · dsimp only
    rw [hframe]
    exact args.context_fromUser
  · intro b hb hb' hne
    cases hinv.stacked_cons huser hacts with
    | user hle htop hend _ _ hnext =>
        rw [List.mem_singleton] at hb
        rw [hb]
        exact hframe
    | kernel hle haligned _ hno =>
        rw [hmode] at hno
        cases hno
  · refine ⟨fun hu => ?_, hinv.onStack.scratch, hinv.onStack.bottom, hinv.onStack.aligned,
      fun hu => ?_⟩
    · have hfalse : m.hart.user = true := hu
      rw [huser] at hfalse
      cases hfalse
    · refine hinv.restack huser hacts (fun addr hin _ => ?_) ?_ (fun _ => ?_) ?_ ?_
      · exact hother addr fun hf => L.trapFrame_notStack _ hf hin
      · rw [hsame, ← hinv.frame_cons huser hacts]
        exact frameAt_congr fun addr haddr => hother addr fun hf =>
          L.trapFrame_notStack _ hf (hinv.inFrame_cons huser hacts haddr)
      · rw [hsame, hinv.frame_user huser hacts]
        exact hmode
      · intro hno
        rw [hmode] at hno
        cases hno
      · intro hno
        rw [hmode] at hno
        cases hno

/-- In user mode nothing of the kernel is written. -/
theorem userRun (hinv : TrapInv L m) {h : Hart} (huser : m.hart.user = true) (hmode : h.user = true)
    (hcsr : h.csr = m.hart.csr)
    (hmem : ∀ addr, addr = L.currentProc ∨ (∃ i, L.InSlot i addr) → h.mem addr = m.hart.mem addr) :
    TrapInv L { m with hart := h } := by
  have hno : ¬ h.user = false := by
    rw [hmode]
    decide
  have hcontexts : ∀ i, frameAt h.mem (L.trapFrame i) = frameAt m.hart.mem (L.trapFrame i) := fun i =>
    frameAt_congr fun addr haddr => hmem addr (.inr ⟨i, .inr (.inr haddr)⟩)
  constructor
  case current => exact (hmem _ (.inl rfl)).trans hinv.current
  case running => exact hinv.running
  case onStack =>
    refine ⟨fun _ => ?_, fun hu => absurd hu hno, fun hu => absurd hu hno, fun hu => absurd hu hno,
      fun hu => absurd hu hno⟩
    show h.csr .sscratch = _ ∧ _
    rw [hcsr]
    exact hinv.onStack.user huser
  case others =>
    exact fun i hi => (hinv.others i hi).congr fun addr haddr => hmem addr (.inr ⟨i, haddr⟩)
  case idle => exact hinv.idle
  case contexts =>
    intro i
    show fromUser (frameAt h.mem (L.trapFrame i)).sstatus = true
    rw [hcontexts i]
    exact hinv.contexts i
  case saved => exact fun i => (hinv.saved i).congr (hcontexts i)

/-- The held words of a process that does not run. -/
theorem ready_held (hinv : TrapInv L m) {mem : UInt32 → UInt32}
    (hmem : ∀ addr, m.Held L addr → mem addr = m.hart.mem addr) {i : Fin procMax}
    (hi : i ≠ m.current) : Ready L mem i (m.thread i) := by
  have hready := hinv.others i hi
  cases hthread : m.thread i with
  | unused => trivial
  | running acts =>
      rw [hthread] at hready
      exact hready
  | parked sp frame acts =>
      rw [hthread] at hready
      have hleft : Left L m.hart.mem i sp frame acts := hready
      have hacts : (m.thread i).acts = acts := by
        rw [hthread]
        rfl
      refine hleft.congr (hmem _ (.inr ⟨i, .inr (.inr ⟨sp, frame, acts, hthread, .inl rfl⟩)⟩))
        (fun addr haddr =>
          hmem addr (.inr ⟨i, .inr (.inr ⟨sp, frame, acts, hthread, .inr haddr⟩)⟩))
        (fun a ha addr haddr => hmem addr (.inr ⟨i, .inr (.inl ⟨a, ?_, haddr⟩)⟩))
      rw [hacts]
      exact ha

/-- Other code of the kernel moves the stack pointer below the latest frame. -/
theorem kernelRun (hinv : TrapInv L m) {h : Hart} (huser : m.hart.user = false)
    (hmode : h.user = false) (hscratch : h.csr .sscratch = m.hart.csr .sscratch)
    (hmem : ∀ addr, m.Held L addr → h.mem addr = m.hart.mem addr)
    (haligned : (h.reg .sp).toNat % 16 = 0) (hbottom : L.bottom m.current ≤ (h.reg .sp).toNat)
    (hceiling : (h.reg .sp).toNat ≤ m.ceiling L) : TrapInv L { m with hart := h } := by
  have hcontexts : ∀ i, frameAt h.mem (L.trapFrame i) = frameAt m.hart.mem (L.trapFrame i) := fun i =>
    frameAt_congr fun addr haddr => hmem addr (.inr ⟨i, .inl haddr⟩)
  have hstacked : Stacked (L.top m.current) h.mem (h.reg .sp).toNat m.acts := by
    have hheld : Stacked (L.top m.current) h.mem (m.hart.reg .sp).toNat m.acts :=
      (hinv.onStack.stacked huser).congr fun a ha addr haddr =>
        hmem addr (.inr ⟨m.current, .inr (.inl ⟨a, ha, haddr⟩)⟩)
    unfold Machine.ceiling at hceiling
    generalize m.acts = acts at hheld hceiling
    cases hheld with
    | nil hsp => exact .nil hceiling
    | user hsp htop hend hframe hmode hnext => exact .user hceiling htop hend hframe hmode hnext
    | kernel hsp haligned hframe hmode hcontext hstage hexecd hrest =>
        exact .kernel hceiling haligned hframe hmode hcontext hstage hexecd hrest
  constructor
  case current => exact (hmem _ (.inl rfl)).trans hinv.current
  case running => exact hinv.running
  case onStack =>
    refine ⟨fun hu => ?_, fun _ => ?_, fun _ => hbottom, fun _ => haligned, fun _ => hstacked⟩
    · have hfalse : h.user = true := hu
      rw [hmode] at hfalse
      cases hfalse
    · exact hscratch.trans (hinv.onStack.scratch huser)
  case others => exact fun i hi => hinv.ready_held hmem hi
  case idle => exact hinv.idle
  case contexts =>
    intro i
    show fromUser (frameAt h.mem (L.trapFrame i)).sstatus = true
    rw [hcontexts i]
    exact hinv.contexts i
  case saved => exact fun i => (hinv.saved i).congr (hcontexts i)

end TrapInv

end Sugimotos.Arch
