/-
# The context of a user process

What a user process finds in its registers when the kernel returns from a trap that it took,
whatever the kernel and other processes did in between, and what `sscratch` holds all the time.
-/

import Sugimotos.Arch.Resume

namespace Sugimotos.Arch

open Sugimotos.Math Sugimotos.Mm Sugimotos.Proc

/-- The user process that trapped in `m₁` returns from that trap in `m₂`, when the kernel is as
far with it as `stage` says. -/
structure TrapReturns (L : Image) (m₁ m₂ : Machine) (stage : Stage) : Prop where
  run : RunWhile L (fun m => m₁.acts.length < (m.thread m₁.current).acts.length) (m₁.trap L) m₂
  current : m₂.current = m₁.current
  kernel : m₂.hart.user = false
  latest : ∃ a rest, m₂.acts = a :: rest ∧ rest.length = m₁.acts.length ∧ a.stage = stage ∧
    m₂.hart.reg .sp = a.base

/-- A trap of a user process that is not a successful `exec` gives it back all its registers, but
for the result of a system call, and its program counter, behind the call. -/
def Machine.ContextKept (L : Image) (m₁ : Machine) : Prop :=
  ∀ m₂,
    (TrapReturns L m₁ m₂ .taken → m₂.leave.hart.user = true ∧ m₂.leave.hart.reg = m₁.hart.reg ∧
      m₂.leave.hart.pc = m₁.hart.pc) ∧
    ∀ value, TrapReturns L m₁ m₂ (.answered value) → m₂.leave.hart.user = true ∧
      m₂.leave.hart.reg = Function.update m₁.hart.reg .a0 value ∧
      m₂.leave.hart.pc = m₁.hart.pc + 4

/-- A trap may be returned from at once. -/
theorem Machine.trap_returns_now (L : Image) (m : Machine) : TrapReturns L m (m.trap L) .taken where
  run := .refl
  current := rfl
  kernel := by
    rw [m.trap_hart L, entered_user]
    rfl
  latest := by
    refine ⟨_, _, m.trap_acts L, rfl, rfl, ?_⟩
    rw [m.trap_hart L, entered_sp]

theorem TrapReturns.user {L : Image} {m₁ m₂ : Machine} {stage : Stage} (h : Reachable L m₁)
    (hback : TrapReturns L m₁ m₂ stage) (huser : m₁.hart.user = true) :
    ((∀ args, stage ≠ .replaced args) → m₂.leave.hart.user = true) ∧
      (stage = .taken → m₂.leave.hart.reg = m₁.regBack L ∧ m₂.leave.hart.pc = m₁.hart.pc) ∧
      ∀ value, stage = .answered value →
        m₂.leave.hart.reg = Function.update (m₁.regBack L) .a0 value ∧
          m₂.leave.hart.pc = m₁.hart.pc + 4 := by
  obtain ⟨a, rest, hacts, hdepth, rfl, hsp⟩ := hback.latest
  have hroom : m₁.hart.user = false →
      L.bottom m₁.current + frameSize.toNat ≤ (m₁.hart.reg .sp).toNat := by
    intro hkernel
    rw [huser] at hkernel
    cases hkernel
  obtain ⟨-, -, hmode, htaken, hanswered⟩ :=
    hback.run.goes_on h hroom hback.current hacts hdepth hback.kernel hsp
  exact ⟨fun hother => (hmode hother).1.trans huser, htaken, hanswered⟩

/-- In the kernel `sscratch` is zero, in user mode the end of the kernel stack of the process; and
a user process is given back its context, whatever runs in between, exactly if its stack pointer
was not zero. -/
theorem user_context_kept {L : Image} {m : Machine} (h : Reachable L m) :
    (m.hart.user = false → m.hart.csr .sscratch = 0) ∧
      (m.hart.user = true → m.hart.csr .sscratch = L.top m.current ∧
        (m.ContextKept L ↔ m.hart.reg .sp ≠ 0)) := by
  have hinv := h.inv
  refine ⟨hinv.onStack.scratch, fun huser => ⟨(hinv.onStack.user huser).1, ?_, fun hsp m₂ => ?_⟩⟩
  · -- An interrupt shows it that is returned from at once.
    intro hkept hzero
    have hnow := m.trap_returns_now L
    have hback := ((hnow.user h huser).2.1 rfl).1
    have hreg := ((hkept (m.trap L)).1 hnow).2.1
    exact (m.regBack_eq_iff L).mp (hback.symm.trans hreg) ⟨huser, hzero⟩
  · have hback : m.regBack L = m.hart.reg := (m.regBack_eq_iff L).mpr fun hzero => hsp hzero.2
    refine ⟨fun hreturns => ?_, fun value hreturns => ?_⟩
    · obtain ⟨hmode, htaken, -⟩ := hreturns.user h huser
      rw [hback] at htaken
      exact ⟨hmode (fun _ hno => Stage.noConfusion hno), htaken rfl⟩
    · obtain ⟨hmode, -, hanswered⟩ := hreturns.user h huser
      rw [hback] at hanswered
      exact ⟨hmode (fun _ hno => Stage.noConfusion hno), hanswered value rfl⟩

/-- The system call goes on after a sleep, and returns a value. -/
def smallAnswer : Machine :=
  smallWakes.ecallEnd smallImage (entryBase (smallUser.hart.trap smallImage.kernelEntry)) 7

theorem smallAnswer_returns : TrapReturns smallImage smallUser smallAnswer (.answered 7) := by
  have hacts : smallWakes.acts = _ := smallWakes_acts.trans smallCall_acts
  have hanswers := Step.ecallEnd (L := smallImage) 7 (by decide +kernel) hacts rfl
  have hrun := (smallGoesOn_run.trans smallSleeps_run).trans smallWakes_run
  have hanswered : smallAnswer.acts =
      ⟨entryBase (smallUser.hart.trap smallImage.kernelEntry), smallUser.context, .answered 7⟩ ::
        smallUser.acts := by
    unfold smallAnswer Machine.ecallEnd
    rw [Machine.go_acts, TrapInv.restage_cons hacts]
  exact ⟨hrun.tail ⟨hanswers, by decide +kernel⟩, by decide +kernel, by decide +kernel,
    _, _, hanswered, rfl, rfl, by decide +kernel⟩

theorem user_context_kept_small :
    smallAnswer.leave.hart.user = true ∧
      smallAnswer.leave.hart.reg = Function.update smallUser.hart.reg .a0 7 ∧
      smallAnswer.leave.hart.pc = smallUser.hart.pc + 4 := by
  have huser : smallUser.hart.user = true := by decide +kernel
  have hkept := ((user_context_kept smallUser_reachable).2 huser).2.mpr (by decide +kernel)
  exact (hkept smallAnswer).2 7 smallAnswer_returns

/-- The program sets its stack pointer to zero. -/
def smallZero : Machine := smallUser.withReg (Function.update smallUser.hart.reg .sp 0)

theorem user_context_lost :
    Reachable smallImage smallZero ∧ smallZero.hart.user = true ∧ smallZero.hart.reg .sp = 0 ∧
      (smallZero.trap smallImage).leave.hart.reg .sp = smallImage.top 1 ∧
      ¬ smallZero.ContextKept smallImage := by
  have huser : smallUser.hart.user = true := by decide +kernel
  have hlost : (smallZero.trap smallImage).leave.hart.reg .sp = smallImage.top 1 := by
    decide +kernel
  have hzero : smallZero.hart.reg .sp = 0 := by
    show Function.update smallUser.hart.reg .sp 0 .sp = 0
    exact Function.update_self ..
  have hmode : smallZero.hart.user = true := by
    unfold smallZero
    exact (Machine.withReg_user ..).trans huser
  refine ⟨smallUser_reachable.step (.userWithReg huser), hmode, hzero, hlost, fun hkept => ?_⟩
  have hreg := ((hkept (smallZero.trap smallImage)).1 (smallZero.trap_returns_now smallImage)).2.1
  have hsame := congrFun hreg .sp
  rw [hlost, hzero] at hsame
  exact smallImage.top_ne_zero 1 hsame

end Sugimotos.Arch
