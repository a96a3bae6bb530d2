/-
# What the kernel stacks hold

The invariant of the machine.  The frames of the traps under way lie on their stacks in order
and hold what they have to; every process that does not run lies ready for `switch_context`;
and `sscratch` tells the trap entry which stack to use.
-/

import Sugimotos.Arch.Threads

namespace Sugimotos.Arch

open Sugimotos.Math Sugimotos.Mm Sugimotos.Proc

/-! ## Where things lie -/

theorem frameSize_toNat : frameSize.toNat = 144 := rfl

theorem switchSize_toNat : switchSize.toNat = 64 := rfl

theorem inFrame_iff {base addr : UInt32} (h : base.toNat + 132 ≤ 2 ^ 32) :
    InFrame base addr ↔ base.toNat ≤ addr.toNat ∧ addr.toNat < base.toNat + 132 := by
  have hbase := base.toNat_lt
  have haddr := addr.toNat_lt
  unfold InFrame
  rw [UInt32.toNat_sub]
  omega

theorem inSwitch_iff {base addr : UInt32} (h : base.toNat + 64 ≤ 2 ^ 32) :
    InSwitch base addr ↔ base.toNat ≤ addr.toNat ∧ addr.toNat < base.toNat + 56 := by
  have hbase := base.toNat_lt
  have haddr := addr.toNat_lt
  unfold InSwitch
  rw [UInt32.toNat_sub]
  omega

/-- Going down a stack. -/
theorem toNat_add_neg {sp size : UInt32} (h : size.toNat ≤ sp.toNat) :
    (sp + -size).toNat = sp.toNat - size.toNat := by
  have hsp := sp.toNat_lt
  have hsize := size.toNat_lt
  rw [UInt32.toNat_add, UInt32.toNat_neg]
  simp only [UInt32.size] at *
  omega

theorem toNat_add {base offset : UInt32} (h : base.toNat + offset.toNat < 2 ^ 32) :
    (base + offset).toNat = base.toNat + offset.toNat := by
  rw [UInt32.toNat_add]
  exact Nat.mod_eq_of_lt h

theorem add_neg_add (sp size : UInt32) : sp + -size + size = sp := by
  rw [UInt32.add_assoc, UInt32.add_left_neg, UInt32.add_zero]

namespace Image

variable (L : Image)

theorem fits (i : Fin procMax) :
    L.procs.toNat + processSize * i + processSize + bootStackSize ≤ L.stackTop.toNat ∧
      L.stackTop.toNat < 2 ^ 32 := by
  have habove := L.stackTop_above
  have hi := i.isLt
  refine ⟨?_, L.stackTop.toNat_lt⟩
  simp only [processSize, procMax, bootStackSize] at *
  omega

theorem procAddr_toNat (i : Fin procMax) :
    (L.procAddr i).toNat = L.procs.toNat + processSize * i := by
  obtain ⟨hfits, hlt⟩ := L.fits i
  have hsmall : processSize * (i : Nat) < 2 ^ 32 := by omega
  unfold procAddr
  rw [toNat_add, UInt32.toNat_ofNat_of_lt' hsmall]
  rw [UInt32.toNat_ofNat_of_lt' hsmall]
  omega

theorem procAddr_add {offset : UInt32} (i : Fin procMax) (h : offset.toNat < processSize) :
    (L.procAddr i + offset).toNat = L.procs.toNat + processSize * i + offset.toNat := by
  obtain ⟨hfits, hlt⟩ := L.fits i
  have haddr := L.procAddr_toNat i
  rw [toNat_add (by omega), haddr]

theorem spWord_toNat (i : Fin procMax) :
    (L.spWord i).toNat = L.procs.toNat + processSize * i + 28 :=
  L.procAddr_add i (by decide)

theorem trapFrame_toNat (i : Fin procMax) :
    (L.trapFrame i).toNat = L.procs.toNat + processSize * i + 32832 :=
  L.procAddr_add i (by decide)

theorem stackEnd_toNat (i : Fin procMax) :
    (L.procAddr i + stackTopOffset).toNat = L.procs.toNat + processSize * i + 32816 :=
  L.procAddr_add i (by decide)

theorem top_zero : L.top 0 = L.stackTop := if_pos rfl

theorem top_of_ne {i : Fin procMax} (h : i ≠ 0) : L.top i = L.procAddr i + stackTopOffset :=
  if_neg h

theorem bottom_zero : L.bottom 0 = L.stackTop.toNat - bootStackSize := rfl

theorem bottom_of_ne {i : Fin procMax} (h : i ≠ 0) :
    L.bottom i = L.procs.toNat + processSize * i + 48 := by
  unfold bottom
  rw [if_neg h, L.top_of_ne h, L.stackEnd_toNat]
  simp only [stackSize]
  omega

theorem top_aligned (i : Fin procMax) : (L.top i).toNat % 16 = 0 := by
  by_cases hi : i = 0
  · rw [hi, top_zero]
    exact L.stackTop_aligned
  · rw [L.top_of_ne hi, L.stackEnd_toNat]
    have hprocs := L.procs_aligned
    simp only [processSize]
    omega

/-- A stack has room for a frame, and does not begin at address zero. -/
theorem bottom_le_top (i : Fin procMax) :
    L.bottom i + stackSize ≤ (L.top i).toNat ∧ stackSize ≤ (L.top i).toNat := by
  have hfits := (L.fits i).1
  by_cases hi : i = 0
  · subst hi
    rw [bottom_zero, top_zero]
    simp only [stackSize, bootStackSize] at *
    omega
  · rw [L.bottom_of_ne hi, L.top_of_ne hi, L.stackEnd_toNat]
    simp only [stackSize]
    omega

theorem top_ne_zero (i : Fin procMax) : L.top i ≠ 0 := by
  intro heq
  have htop := (L.bottom_le_top i).2
  rw [heq] at htop
  exact absurd htop (by decide)

/-- The addresses of a process are in its record, or on the boot stack. -/
theorem InSlot.range {L : Image} {i : Fin procMax} {addr : UInt32} (h : L.InSlot i addr) :
    (L.procs.toNat + processSize * i ≤ addr.toNat ∧
        addr.toNat < L.procs.toNat + processSize * i + processSize) ∨
      (i = 0 ∧ L.stackTop.toNat - bootStackSize ≤ addr.toNat) := by
  obtain ⟨hfits, hlt⟩ := L.fits i
  rcases h with ⟨hlow, hhigh⟩ | rfl | hframe
  · by_cases hi : i = 0
    · subst hi
      exact .inr ⟨rfl, hlow⟩
    · rw [L.bottom_of_ne hi] at hlow
      rw [L.top_of_ne hi, L.stackEnd_toNat] at hhigh
      simp only [processSize] at *
      omega
  · rw [L.spWord_toNat]
    simp only [processSize]
    omega
  · have htf := L.trapFrame_toNat i
    simp only [processSize] at *
    rw [inFrame_iff (by omega), htf] at hframe
    omega

theorem InSlot.apart {L : Image} {i j : Fin procMax} {addr : UInt32} (hij : i ≠ j)
    (hi : L.InSlot i addr) : ¬ L.InSlot j addr := by
  intro hj
  have hne : (i : Nat) ≠ j := fun heq => hij (Fin.ext heq)
  have hfiti := (L.fits i).1
  have hfitj := (L.fits j).1
  have hrangei := hi.range
  have hrangej := hj.range
  simp only [processSize, bootStackSize] at *
  rcases hrangei with hi | ⟨rfl, hi⟩
  · rcases hrangej with hj | ⟨rfl, hj⟩ <;> omega
  · rcases hrangej with hj | ⟨rfl, hj⟩
    · omega
    · exact hij rfl

theorem currentProc_notMem (i : Fin procMax) : ¬ L.InSlot i L.currentProc := by
  intro h
  have hapart := L.currentProc_apart
  have habove := L.stackTop_above
  have hi := i.isLt
  have hrange := h.range
  simp only [procMax, processSize, bootStackSize] at *
  rcases hrange with h | ⟨-, h⟩ <;> omega

theorem trapFrame_notStack (i : Fin procMax) {addr : UInt32} (h : InFrame (L.trapFrame i) addr) :
    ¬ L.InStack i addr := by
  rintro ⟨hlow, hhigh⟩
  obtain ⟨hfits, hlt⟩ := L.fits i
  have htf := L.trapFrame_toNat i
  simp only [processSize, bootStackSize] at *
  rw [inFrame_iff (by omega), htf] at h
  by_cases hi : i = 0
  · subst hi
    rw [bottom_zero] at hlow
    simp only [bootStackSize, Fin.val_zero] at *
    omega
  · rw [L.top_of_ne hi, L.stackEnd_toNat] at hhigh
    simp only [processSize] at hhigh
    omega

theorem spWord_notStack (i : Fin procMax) : ¬ L.InStack i (L.spWord i) := by
  rintro ⟨hlow, hhigh⟩
  obtain ⟨hfits, hlt⟩ := L.fits i
  rw [L.spWord_toNat] at hlow hhigh
  by_cases hi : i = 0
  · subst hi
    rw [bottom_zero] at hlow
    simp only [processSize, bootStackSize, Fin.val_zero] at *
    omega
  · rw [L.bottom_of_ne hi] at hlow
    omega

theorem spWord_notFrame (i : Fin procMax) : ¬ InFrame (L.trapFrame i) (L.spWord i) := by
  intro h
  obtain ⟨hfits, hlt⟩ := L.fits i
  have htf := L.trapFrame_toNat i
  simp only [processSize, bootStackSize] at *
  rw [inFrame_iff (by omega), htf, L.spWord_toNat] at h
  simp only [processSize] at h
  omega

end Image

/-! ## The frames on a stack -/

/-- The frames of the traps under way, from the stack pointer up.  A trap from user mode starts
at the end of the stack; one from the kernel lies right under the stack pointer it found. -/
inductive Stacked (top : UInt32) (mem : UInt32 → UInt32) : Nat → List Activation → Prop
  | nil {sp : Nat} (hsp : sp ≤ top.toNat) : Stacked top mem sp []
  | user {sp : Nat} {a : Activation} (hsp : sp ≤ a.base.toNat)
      (htop : a.base + frameSize = top) (hend : a.base.toNat + frameSize.toNat = top.toNat)
      (hframe : frameAt mem a.base = a.frame) (hmode : fromUser a.context.sstatus = true)
      (hnext : fromUser a.frame.sstatus = true) : Stacked top mem sp [a]
  | kernel {sp : Nat} {a : Activation} {rest : List Activation} (hsp : sp ≤ a.base.toNat)
      (haligned : a.base.toNat % 16 = 0) (hframe : frameAt mem a.base = a.frame)
      (hmode : fromUser a.context.sstatus = false)
      (hcontext : a.context.reg .sp = a.base + frameSize)
      (hstage : ∀ args, a.stage ≠ .replaced args) (hexecd : ∀ args, a.stage ≠ .execd args)
      (hrest : Stacked top mem (a.base.toNat + frameSize.toNat) rest) : Stacked top mem sp (a :: rest)

namespace Stacked

variable {top : UInt32} {mem mem' : UInt32 → UInt32} {sp sp' : Nat} {acts : List Activation}

theorem le_top (h : Stacked top mem sp acts) : sp ≤ top.toNat := by
  induction h with
  | nil hsp => exact hsp
  | user hsp htop hend => omega
  | kernel hsp haligned hframe hmode hcontext hstage hexecd hrest ih => omega

/-- A frame lies between the stack pointer and the end of the stack. -/
theorem inside (h : Stacked top mem sp acts) {a : Activation} (ha : a ∈ acts) :
    sp ≤ a.base.toNat ∧ a.base.toNat + frameSize.toNat ≤ top.toNat := by
  induction h with
  | nil hsp => cases ha
  | user hsp htop hend =>
      rw [List.mem_singleton] at ha
      subst ha
      exact ⟨hsp, hend.le⟩
  | kernel hsp haligned hframe hmode hcontext hstage hexecd hrest ih =>
      rcases List.mem_cons.mp ha with rfl | hin
      · exact ⟨hsp, hrest.le_top⟩
      · have hrec := ih hin
        omega

theorem inFrame (h : Stacked top mem sp acts) {a : Activation} (ha : a ∈ acts) {addr : UInt32}
    (haddr : InFrame a.base addr) : sp ≤ addr.toNat ∧ addr.toNat < top.toNat := by
  obtain ⟨hlow, hhigh⟩ := h.inside ha
  have htop := top.toNat_lt
  rw [frameSize_toNat] at hhigh
  rw [inFrame_iff (by omega)] at haddr
  omega

/-- The frames are read from their own words. -/
theorem congr (h : Stacked top mem sp acts)
    (hmem : ∀ a ∈ acts, ∀ addr, InFrame a.base addr → mem' addr = mem addr) :
    Stacked top mem' sp acts := by
  induction h with
  | nil hsp => exact .nil hsp
  | user hsp htop hend hframe hmode hnext =>
      exact .user hsp htop hend
        ((frameAt_congr (hmem _ List.mem_cons_self)).trans hframe) hmode hnext
  | kernel hsp haligned hframe hmode hcontext hstage hexecd hrest ih =>
      exact .kernel hsp haligned ((frameAt_congr (hmem _ List.mem_cons_self)).trans hframe) hmode
        hcontext hstage hexecd (ih fun a ha => hmem a (List.mem_cons_of_mem _ ha))

/-- Nothing below the stack pointer matters. -/
theorem congr_above (h : Stacked top mem sp acts)
    (hmem : ∀ addr : UInt32, sp ≤ addr.toNat → addr.toNat < top.toNat → mem' addr = mem addr) :
    Stacked top mem' sp acts :=
  h.congr fun _ ha addr haddr => hmem addr (h.inFrame ha haddr).1 (h.inFrame ha haddr).2

end Stacked

/-! ## Processes that do not run -/

/-- What a process needs that called `switch_context`, or that has not run yet. -/
structure Left (L : Image) (mem : UInt32 → UInt32) (i : Fin procMax) (sp : UInt32)
    (frame : SwitchFrame) (acts : List Activation) : Prop where
  spWord : mem (L.spWord i) = sp
  words : (switchAt mem sp).Same frame
  aligned : sp.toNat % 16 = 0
  bottom : L.bottom i ≤ sp.toNat
  stacked : Stacked (L.top i) mem (sp.toNat + switchSize.toNat) acts
  fresh : frame.reg .ra = L.archResumeFromTrap → acts = [] ∧ i ≠ 0

/-- A process other than the current one. -/
def Ready (L : Image) (mem : UInt32 → UInt32) (i : Fin procMax) : Thread → Prop
  | .unused => True
  | .running _ => False
  | .parked sp frame acts => Left L mem i sp frame acts

theorem SwitchFrame.Same.trans {f g k : SwitchFrame} (h : f.Same g) (h' : g.Same k) : f.Same k :=
  ⟨fun r hr => (h.reg r hr).trans (h'.reg r hr), h.sstatus.trans h'.sstatus⟩

namespace Left

variable {L : Image} {mem mem' : UInt32 → UInt32} {i : Fin procMax} {sp : UInt32}
  {frame : SwitchFrame} {acts : List Activation}

theorem inSwitch (h : Left L mem i sp frame acts) {addr : UInt32} (haddr : InSwitch sp addr) :
    L.InStack i addr := by
  have hle := h.stacked.le_top
  have htop := (L.top i).toNat_lt
  have hbottom := h.bottom
  rw [switchSize_toNat] at hle
  rw [inSwitch_iff (by omega)] at haddr
  exact ⟨by omega, by omega⟩

theorem inFrame (h : Left L mem i sp frame acts) {a : Activation} (ha : a ∈ acts) {addr : UInt32}
    (haddr : InFrame a.base addr) : L.InStack i addr := by
  obtain ⟨hlow, hhigh⟩ := h.stacked.inFrame ha haddr
  exact ⟨h.bottom.trans (by omega), hhigh⟩

/-- The process is kept if its own words are. -/
theorem congr (h : Left L mem i sp frame acts) (hsp : mem' (L.spWord i) = mem (L.spWord i))
    (hswitch : ∀ addr, InSwitch sp addr → mem' addr = mem addr)
    (hframe : ∀ a ∈ acts, ∀ addr, InFrame a.base addr → mem' addr = mem addr) :
    Left L mem' i sp frame acts where
  spWord := hsp.trans h.spWord
  words := (switchAt_congr hswitch).trans h.words
  aligned := h.aligned
  bottom := h.bottom
  stacked := h.stacked.congr hframe
  fresh := h.fresh

end Left

/-- A process is kept if nothing in its slot is written. -/
theorem Ready.congr {L : Image} {mem mem' : UInt32 → UInt32} {i : Fin procMax} {t : Thread}
    (h : Ready L mem i t) (hmem : ∀ addr, L.InSlot i addr → mem' addr = mem addr) :
    Ready L mem' i t := by
  cases t with
  | unused => trivial
  | running acts => exact h
  | parked sp frame acts =>
      have hleft : Left L mem i sp frame acts := h
      exact hleft.congr (hmem _ (.inr (.inl rfl)))
        (fun addr haddr => hmem addr (.inl (hleft.inSwitch haddr)))
        (fun a ha addr haddr => hmem addr (.inl (hleft.inFrame ha haddr)))

/-! ## The invariant -/

/-- The process that runs: in user mode no trap is under way, and `sscratch` holds the end of its
stack; in the kernel `sscratch` is zero, and the frames lie above the stack pointer. -/
structure OnStack (L : Image) (i : Fin procMax) (h : Hart) (acts : List Activation) : Prop where
  user : h.user = true → h.csr .sscratch = L.top i ∧ acts = []
  scratch : h.user = false → h.csr .sscratch = 0
  bottom : h.user = false → L.bottom i ≤ (h.reg .sp).toNat
  aligned : h.user = false → (h.reg .sp).toNat % 16 = 0
  stacked : h.user = false → Stacked (L.top i) h.mem (h.reg .sp).toNat acts

/-- During a system call from user mode the `trap_frame` of the process holds its context. -/
def Saved (L : Image) (mem : UInt32 → UInt32) (i : Fin procMax) (acts : List Activation) : Prop :=
  ∀ a ∈ acts, fromUser a.context.sstatus = true → a.stage ≠ .taken →
    frameAt mem (L.trapFrame i) = a.saved

theorem Saved.congr {L : Image} {mem mem' : UInt32 → UInt32} {i : Fin procMax}
    {acts : List Activation} (h : Saved L mem i acts)
    (hframe : frameAt mem' (L.trapFrame i) = frameAt mem (L.trapFrame i)) : Saved L mem' i acts :=
  fun a ha hmode hstage => hframe.trans (h a ha hmode hstage)

structure TrapInv (L : Image) (m : Machine) : Prop where
  current : m.hart.mem L.currentProc = L.procAddr m.current
  running : m.thread m.current = .running m.acts
  onStack : OnStack L m.current m.hart m.acts
  others : ∀ i, i ≠ m.current → Ready L m.hart.mem i (m.thread i)
  idle : m.thread 0 ≠ .unused
  contexts : ∀ i, fromUser (frameAt m.hart.mem (L.trapFrame i)).sstatus = true
  saved : ∀ i, Saved L m.hart.mem i (m.thread i).acts

end Sugimotos.Arch
