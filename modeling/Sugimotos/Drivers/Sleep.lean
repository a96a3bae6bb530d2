/-
# Sleeping on wait queues

One processor that takes interrupts between any two statements executed with
interrupts enabled.  The statements of `waitq_sleep`, `waitq_wake_all`, the loops
of `blk_read` and the second loop of `vg_submit` are steps of the running process.
What is between `spin_lock_irqsave` and the unlocking is one step: nothing can come
in between.  Elsewhere a process may change its interrupt flag, block in
`proc_waitpid`, wake a parent or exit.
-/

import Sugimotos.Drivers.Waitq
import Sugimotos.Drivers.BlkReads

namespace Sugimotos.Drivers

open Sugimotos.Mm Sugimotos.Proc Sugimotos.Math

/-- `blk_waitq` and `vg_waitq`. -/
inductive Queue
  | blk
  | vg
  deriving DecidableEq, Repr

/-- Where `spin_lock_irqsave`, the region and `spin_unlock_irqrestore` stand. -/
inductive Irq
  | save
  | clear (s : Bool)
  | body (s : Bool)
  | restore (s : Bool)
  deriving DecidableEq, Repr

/-- The lock regions of `blk_read`, and that of the `waitq_wake_all` at its end. -/
inductive Region
  | takeSlot
  | post
  | check
  | wakeAll
  deriving DecidableEq, Repr

/-- The loop that called `waitq_sleep`.  `vg_submit` counts its rounds down. -/
inductive Loop
  | takeSlot
  | check
  | vg (timeout : Nat)
  deriving DecidableEq, Repr

/-- Where `waitq_sleep` stands: before the test of `current_proc`, in its region,
before `state = PROC_BLOCKED`, before `yield()`, and after it. -/
inductive Stage
  | guard
  | region (at_ : Irq)
  | mark
  | yield
  | woken
  deriving DecidableEq, Repr

/-- The next statement of a process. -/
inductive Pc
  | out
  | region (r : Region) (at_ : Irq)
  | fill
  | vgLoop (timeout : Nat)
  | sleep (q : Queue) (stage : Stage) (back : Loop)
  deriving DecidableEq, Repr

/-- The processor, the processes and the devices.  `saved` is the interrupt flag in
the switch context of a process. -/
structure Machine where
  sie : Bool
  current : Fin procMax
  idle : Fin procMax
  state : ProcStates
  saved : Fin procMax → Bool
  pc : Fin procMax → Pc
  waiters : Queue → Waiters
  blk : BlkSys (Fin procMax)
  vgLastUsed : UInt16
  vgUsedIdx : UInt16

/-- The machine when the idle process runs and the drivers are initialised. -/
def Machine.init (mem : Nat → UInt8) (idle : Fin procMax) : Machine where
  sie := true
  current := idle
  idle := idle
  state := fun p => if p = idle then .runnable else .unused
  saved := fun _ => false
  pc := fun _ => .out
  waiters := fun _ _ => none
  blk := .init _ mem
  vgLastUsed := 0
  vgUsedIdx := 0

/-- The next statement of one process replaced. -/
def Machine.goto (m : Machine) (p : Fin procMax) (pc : Pc) : Machine :=
  { m with pc := Function.update m.pc p pc }

/-- The state of one process replaced. -/
def Machine.setState (m : Machine) (p : Fin procMax) (state : ProcState) : Machine :=
  { m with state := Function.update m.state p state }

/-- `waitq_wake_all` on a queue. -/
def Machine.wakeAll (m : Machine) (q : Queue) : Machine :=
  let w := waitqWakeAll (m.waiters q) m.state
  { m with waiters := Function.update m.waiters q w.1, state := w.2 }

/-- The steps of a run. -/
inductive SleepOp
  /-- The running process executes its next statement. -/
  | exec
  /-- `yield` goes on with another process, or with the same. -/
  | switch (next : Fin procMax)
  /-- `blk_handle_irq` or `virtio_gpu_handle_irq`. -/
  | irq (q : Queue)
  | devTake
  | devServe (c : Chain) (status : UInt8) (data : Nat → UInt8)
  | devPublish (c : Chain)
  | vgComplete
  /-- The running process, outside the modelled functions, calls one of them. -/
  | callBlk (sector : UInt32) (buf : Nat)
  | callVg
  /-- What it may do otherwise: `PROC_BLOCKED` and back in `proc_waitpid`, a blocked
  parent woken in `proc_exit`, creation and reaping. -/
  | setSie (on : Bool)
  | block
  | unblock
  | wake (p : Fin procMax)
  | exit
  | create (p : Fin procMax) (sie : Bool)
  | reap (p : Fin procMax)

variable (disk : UInt32 → Nat → UInt8)

/-- What comes after the region of `blk_read` that has just been left. -/
def afterRegion (r : Region) (phase : Phase) : Pc :=
  match r, phase with
  | .takeSlot, .holding _ _ _ => .fill
  | .takeSlot, _ => .sleep .blk .guard .takeSlot
  | .post, _ => .region .check .save
  | .check, .idle => .region .wakeAll .save
  | .check, _ => .sleep .blk .guard .check
  | .wakeAll, _ => .out

/-- The body of a region of `blk_read`, run by process `p`. -/
def regionBody (r : Region) (p : Fin procMax) (m : Machine) : Option Machine :=
  match r with
  | .takeSlot => (blkStep disk (.takeSlot p) m.blk).map fun b => { m with blk := b }
  | .post => (blkStep disk (.post p) m.blk).map fun b => { m with blk := b }
  | .check => (blkStep disk (.check p) m.blk).map fun b => { m with blk := b }
  | .wakeAll => some (m.wakeAll .blk)

/-- Where a loop goes on after `waitq_sleep` has returned. -/
def Loop.resume : Loop → Pc
  | .takeSlot => .region .takeSlot .save
  | .check => .region .check .save
  | .vg timeout => .vgLoop timeout

/-- One statement of the running process `p`. -/
def execStep (m : Machine) : Option Machine :=
  let p := m.current
  match m.pc p with
  | .out => none
  | .region r .save => some (m.goto p (.region r (.clear m.sie)))
  | .region r (.clear s) => some ({ m with sie := false }.goto p (.region r (.body s)))
  | .region r (.body s) => (regionBody disk r p m).map fun m => m.goto p (.region r (.restore s))
  | .region r (.restore s) =>
      some ({ m with sie := s }.goto p (afterRegion r (m.blk.phase p)))
  | .fill =>
      (blkStep disk (.fill p) m.blk).map fun b =>
        { m with blk := b }.goto p (.region .post .save)
  | .vgLoop timeout =>
      if m.vgLastUsed = m.vgUsedIdx ∧ 0 < timeout then
        some (m.goto p (.sleep .vg .guard (.vg (timeout - 1))))
      else if m.vgLastUsed = m.vgUsedIdx then some (m.goto p .out)
      else some ({ m with vgLastUsed := m.vgLastUsed + 1 }.goto p .out)
  | .sleep q .guard back =>
      if p = m.idle then some (m.goto p back.resume)
      else some (m.goto p (.sleep q (.region .save) back))
  | .sleep q (.region .save) back => some (m.goto p (.sleep q (.region (.clear m.sie)) back))
  | .sleep q (.region (.clear s)) back =>
      some ({ m with sie := false }.goto p (.sleep q (.region (.body s)) back))
  | .sleep q (.region (.body s)) back =>
      let waiters := Function.update m.waiters q (waitqRegister (m.waiters q) p)
      some ({ m with waiters := waiters }.goto p (.sleep q (.region (.restore s)) back))
  | .sleep q (.region (.restore s)) back =>
      some ({ m with sie := s }.goto p (.sleep q .mark back))
  | .sleep q .mark back => some ((m.setState p .blocked).goto p (.sleep q .yield back))
  | .sleep _ .yield _ => none
  | .sleep _ .woken back =>
      let m := if m.state p = .blocked then m.setState p .runnable else m
      some (m.goto p back.resume)

/-- What is next for a process that gives up the processor. -/
def Pc.yielded : Pc → Option Pc
  | .out => some .out
  | .sleep q .yield back => some (.sleep q .woken back)
  | _ => none

/-- The running process is outside the modelled functions. -/
def Machine.isOut (m : Machine) : Bool :=
  decide (m.pc m.current = .out) && decide (m.state m.current = .runnable)

/-- A step of a process outside the modelled functions. -/
def Machine.outside (m : Machine) (m' : Machine) : Option Machine :=
  if m.isOut then some m' else none

/-- One step, if it can happen. -/
def sleepStep (op : SleepOp) (m : Machine) : Option Machine :=
  let p := m.current
  match op with
  | .exec => execStep disk m
  | .switch next =>
      if m.state next = .runnable ∨ next = m.idle then
        (m.pc p).yielded.map fun pc =>
          -- `yield` returns at once if it picks the process that called it
          if next = p then m.goto p pc
          else
            { m with
              saved := Function.update m.saved p m.sie
              sie := m.saved next
              current := next }.goto p pc
      else none
  | .irq q =>
      if m.sie then
        match q with
        | .blk => some ({ m with blk := m.blk.processed }.wakeAll .blk)
        | .vg => some (m.wakeAll .vg)
      else none
  | .devTake => (blkStep disk .devTake m.blk).map fun b => { m with blk := b }
  | .devServe c status data =>
      (blkStep disk (.devServe c status data) m.blk).map fun b => { m with blk := b }
  | .devPublish c => (blkStep disk (.devPublish c) m.blk).map fun b => { m with blk := b }
  | .vgComplete => some { m with vgUsedIdx := m.vgUsedIdx + 1 }
  | .callBlk sector buf =>
      if m.isOut ∧ buf ≠ 0 then
        (blkStep disk (.call p sector buf) m.blk).map fun b =>
          { m with blk := b }.goto p (.region .takeSlot .save)
      else none
  | .callVg => m.outside (m.goto p (.vgLoop 100))
  | .setSie on => m.outside { m with sie := on }
  | .block => m.outside (m.setState p .blocked)
  | .unblock =>
      if m.pc p = .out ∧ m.state p = .blocked then some (m.setState p .runnable) else none
  | .wake p' => if m.state p' = .blocked then m.outside (m.setState p' .runnable) else none
  | .exit => m.outside (m.setState p .zombie)
  | .create p' sie =>
      if m.state p' = .unused then
        m.outside ({ m with saved := Function.update m.saved p' sie }.setState p' .runnable)
      else none
  | .reap p' =>
      if m.state p' = .zombie then m.outside (m.setState p' .unused) else none

/-- The states of a run whose steps all meet the condition `ok`. -/
inductive SleepReachable (ok : Machine → SleepOp → Prop) : Machine → Prop
  | init (mem : Nat → UInt8) (idle : Fin procMax) : SleepReachable ok (.init mem idle)
  | step {m m'} (op : SleepOp) (hm : SleepReachable ok m) (h : sleepStep disk op m = some m')
      (hok : ok m op) : SleepReachable ok m'

/-- The running process has entered itself into the queue and not yet marked itself
blocked. -/
def InWindow (m : Machine) (q : Queue) : Prop :=
  ∃ back, m.pc m.current = .sleep q .mark back ∨
    ∃ s, m.pc m.current = .sleep q (.region (.restore s)) back

/-- No interrupt wakes a queue while the running process is between registering in
it and marking itself blocked. -/
def NoWindowIrq (m : Machine) (op : SleepOp) : Prop := ∀ q, op = .irq q → ¬ InWindow m q

/-- Wake-ups are not lost. -/
structure NoLostWakeup (m : Machine) : Prop where
  /-- A process blocked by `waitq_sleep` is registered, -/
  registered : ∀ p q stage back, m.pc p = .sleep q stage back → stage = .yield ∨ stage = .woken →
    m.state p = .blocked → Registered (m.waiters q) p
  /-- so the next `waitq_wake_all` makes it runnable. -/
  wakes : ∀ p q stage back, m.pc p = .sleep q stage back → stage = .yield ∨ stage = .woken →
    m.state p = .blocked → (m.wakeAll q).state p = .runnable
  once : ∀ q, Distinct (m.waiters q)
  room : ∀ q p, Registered (waitqRegister (m.waiters q) p) p
  blkLoop : ∀ p stage back, m.pc p = .sleep .blk stage back → stage = .yield ∨ stage = .woken →
    m.state p = .blocked → ∀ slot sector buf n, m.blk.phase p = .waiting slot sector buf n →
      (m.blk.blk.slots slot).done = true → Registered (m.waiters .blk) p
  vgLoop : ∀ p stage back, m.pc p = .sleep .vg stage back → stage = .yield ∨ stage = .woken →
    m.state p = .blocked → m.vgLastUsed ≠ m.vgUsedIdx → Registered (m.waiters .vg) p

/-! ## The invariant -/

/-- The stages at which the process has entered itself and is not yet blocked. -/
def Stage.entered : Stage → Bool
  | .region (.restore _) => true
  | .mark => true
  | _ => false

/-- The stages at which the process has marked itself blocked. -/
def Stage.asleep : Stage → Bool
  | .yield => true
  | .woken => true
  | _ => false

structure SleepInv (m : Machine) : Prop where
  distinct : ∀ q, Distinct (m.waiters q)
  entered : ∀ p q stage back, m.pc p = .sleep q stage back → stage.entered = true →
    Registered (m.waiters q) p
  asleep : ∀ p q stage back, m.pc p = .sleep q stage back → stage.asleep = true →
    m.state p = .blocked → Registered (m.waiters q) p
  others : ∀ p, p ≠ m.current → m.pc p = .out ∨ ∃ q back, m.pc p = .sleep q .woken back

/-- A program point at which the process has no claim on a queue. -/
def Pc.clear (pc : Pc) : Prop :=
  ∀ q stage back, pc = .sleep q stage back → stage.entered = false ∧ stage.asleep = false

variable {disk} {m m' : Machine}

theorem Machine.goto_self (m : Machine) (p : Fin procMax) (pc : Pc) : (m.goto p pc).pc p = pc :=
  Function.update_self ..

theorem Machine.goto_other (m : Machine) {p p' : Fin procMax} (pc : Pc) (h : p' ≠ p) :
    (m.goto p pc).pc p' = m.pc p' :=
  Function.update_of_ne h ..

/-- The running process goes on to a point at which its claims are met. -/
theorem SleepInv.goto (h : SleepInv m) {pc : Pc}
    (hentered : ∀ q stage back, pc = .sleep q stage back → stage.entered = true →
      Registered (m.waiters q) m.current)
    (hasleep : ∀ q stage back, pc = .sleep q stage back → stage.asleep = true →
      m.state m.current = .blocked → Registered (m.waiters q) m.current) :
    SleepInv (m.goto m.current pc) := by
  refine ⟨h.distinct, fun p q stage back hp hs => ?_, fun p q stage back hp hs hb => ?_,
    fun p hp => ?_⟩
  · by_cases hpc : p = m.current
    · subst hpc
      rw [Machine.goto_self] at hp
      exact hentered q stage back hp hs
    · rw [Machine.goto_other _ _ hpc] at hp
      exact h.entered p q stage back hp hs
  · by_cases hpc : p = m.current
    · subst hpc
      rw [Machine.goto_self] at hp
      exact hasleep q stage back hp hs hb
    · rw [Machine.goto_other _ _ hpc] at hp
      exact h.asleep p q stage back hp hs hb
  · have hp' : p ≠ m.current := hp
    rw [Machine.goto_other _ _ hp']
    exact h.others p hp'

theorem SleepInv.clear (h : SleepInv m) {pc : Pc} (hpc : pc.clear) :
    SleepInv (m.goto m.current pc) := by
  refine h.goto (fun q stage back heq hs => ?_) fun q stage back heq hs => ?_
  · rw [(hpc q stage back heq).1] at hs
    cases hs
  · rw [(hpc q stage back heq).2] at hs
    cases hs

/-- The parts the invariant reads are the same, except that processes may have stopped
being blocked, and that one with no claim may have blocked. -/
theorem SleepInv.mono (h : SleepInv m) (m' : Machine) (hcurrent : m'.current = m.current) (hpc : m'.pc = m.pc)
    (hwaiters : m'.waiters = m.waiters)
    (hstate : ∀ p, m'.state p = .blocked → m.state p = .blocked ∨ (m.pc p).clear) :
    SleepInv m' := by
  refine ⟨?_, ?_, fun p q stage back hp hs hb => ?_, ?_⟩
  · rw [hwaiters]
    exact h.distinct
  · rw [hwaiters, hpc]
    exact h.entered
  · rw [hpc] at hp
    rw [hwaiters]
    rcases hstate p hb with hold | hclear
    · exact h.asleep p q stage back hp hs hold
    · rw [(hclear q stage back hp).2] at hs
      cases hs
  · rw [hpc, hcurrent]
    exact h.others

/-- A wake-up of a queue that the running process is not just entering. -/
theorem SleepInv.wakeAll (h : SleepInv m) {q : Queue}
    (hwindow : ∀ stage back, m.pc m.current = .sleep q stage back → stage.entered = false) :
    SleepInv (m.wakeAll q) := by
  obtain ⟨hwoken, hgone, hawake⟩ := waitqWakeAll_spec (m.waiters q) m.state
  have hself : (m.wakeAll q).waiters q = (waitqWakeAll (m.waiters q) m.state).1 :=
    Function.update_self ..
  have hother : ∀ q', q' ≠ q → (m.wakeAll q).waiters q' = m.waiters q' :=
    fun q' hq' => Function.update_of_ne hq' ..
  refine ⟨fun q' => ?_, fun p q' stage back hp hs => ?_, fun p q' stage back hp hs hb => ?_,
    h.others⟩
  · by_cases hq : q' = q
    · subst hq
      rw [hself]
      intro i j p hi
      rw [hgone i] at hi
      cases hi
    · rw [hother q' hq]
      exact h.distinct q'
  · by_cases hq : q' = q
    · subst hq
      have hp' : m.pc p = .sleep q' stage back := hp
      by_cases hpc : p = m.current
      · subst hpc
        rw [hwindow stage back hp'] at hs
        cases hs
      · -- the processes that are not running are not entering anything
        rcases h.others p hpc with hout | ⟨q'', back', hwoke⟩
        · rw [hout] at hp'
          cases hp'
        · rw [hwoke] at hp'
          cases hp'
          cases hs
    · rw [hother q' hq]
      exact h.entered p q' stage back hp hs
  · have hb' : m.state p = .blocked := by
      rcases hwoken p with heq | ⟨hold, -⟩
      · exact heq.symm.trans hb
      · exact hold
    have hreg := h.asleep p q' stage back hp hs hb'
    by_cases hq : q' = q
    · subst hq
      exact absurd hb (hawake p hreg)
    · rw [hother q' hq]
      exact hreg

/-- The running process enters itself into a queue. -/
theorem SleepInv.register (h : SleepInv m) (q : Queue) :
    SleepInv { m with
      waiters := Function.update m.waiters q (waitqRegister (m.waiters q) m.current) } := by
  have hkeep : ∀ q' p, Registered (m.waiters q') p → Registered
      (Function.update m.waiters q (waitqRegister (m.waiters q) m.current) q') p := by
    intro q' p hp
    by_cases hq : q' = q
    · subst hq
      rw [Function.update_self]
      exact (h.distinct q').register_keep hp
    · rw [Function.update_of_ne hq]
      exact hp
  refine ⟨fun q' => ?_, fun p q' stage back hp hs => hkeep q' p (h.entered p q' stage back hp hs),
    fun p q' stage back hp hs hb => hkeep q' p (h.asleep p q' stage back hp hs hb), h.others⟩
  change Distinct (Function.update m.waiters q (waitqRegister (m.waiters q) m.current) q')
  by_cases hq : q' = q
  · subst hq
    rw [Function.update_self]
    exact (h.distinct q').waitqRegister _
  · rw [Function.update_of_ne hq]
    exact h.distinct q'

/-- `yield`: the process that gives up the processor stands after its `yield`, and the
next one does not stand in the middle of an entry. -/
theorem SleepInv.switch (h : SleepInv m) {pc : Pc} (hpc : (m.pc m.current).yielded = some pc)
    (next : Fin procMax) :
    SleepInv ({ m with current := next }.goto m.current pc) := by
  have hcases : m.pc m.current = .out ∧ pc = .out ∨
      ∃ q back, m.pc m.current = .sleep q .yield back ∧ pc = .sleep q .woken back := by
    unfold Pc.yielded at hpc
    split at hpc
    · rename_i hout
      cases hpc
      exact Or.inl ⟨hout, rfl⟩
    · rename_i q back hyield
      cases hpc
      exact Or.inr ⟨q, back, hyield, rfl⟩
    · cases hpc
  have hself : SleepInv (m.goto m.current pc) := by
    rcases hcases with ⟨-, rfl⟩ | ⟨q, back, hyield, rfl⟩
    · exact h.clear nofun
    · refine h.goto (fun q' stage back' heq hs => ?_) fun q' stage back' heq _ hb => ?_
      · cases heq
        cases hs
      · cases heq
        exact h.asleep m.current q .yield back hyield rfl hb
  refine ⟨hself.distinct, hself.entered, hself.asleep, fun p _ => ?_⟩
  by_cases hp : p = m.current
  · subst hp
    have hgoto := Machine.goto_self { m with current := next } m.current pc
    rw [hgoto]
    rcases hcases with ⟨-, rfl⟩ | ⟨q, back, -, rfl⟩
    · exact Or.inl rfl
    · exact Or.inr ⟨q, back, rfl⟩
  · exact hself.others p hp

/-! ## Every statement -/

/-- The flags and drivers do not matter to the invariant. -/
theorem SleepInv.same (h : SleepInv m) (m' : Machine) (hcurrent : m'.current = m.current) (hpc : m'.pc = m.pc)
    (hwaiters : m'.waiters = m.waiters) (hstate : m'.state = m.state) : SleepInv m' :=
  h.mono m' hcurrent hpc hwaiters fun p hp => Or.inl (by rw [← hstate]; exact hp)

theorem Loop.resume_clear (back : Loop) : back.resume.clear := by
  cases back <;> exact nofun

theorem afterRegion_clear (r : Region) (phase : Phase) : (afterRegion r phase).clear := by
  intro q stage back heq
  cases r <;> cases phase <;> cases heq <;> exact ⟨rfl, rfl⟩

theorem SleepInv.regionBody (h : SleepInv m) {r : Region} {s : Bool}
    (hpc : m.pc m.current = .region r (.body s)) (hbody : regionBody disk r m.current m = some m') :
    SleepInv m' ∧ m'.current = m.current := by
  have hblk : ∀ op, (blkStep disk op m.blk).map (fun b => { m with blk := b }) = some m' →
      SleepInv m' ∧ m'.current = m.current := by
    intro op hop
    obtain ⟨b, -, rfl⟩ := Option.map_eq_some_iff.mp hop
    exact ⟨h.same _ rfl rfl rfl rfl, rfl⟩
  cases r with
  | takeSlot => exact hblk _ hbody
  | post => exact hblk _ hbody
  | check => exact hblk _ hbody
  | wakeAll =>
      cases hbody
      refine ⟨h.wakeAll fun stage back heq => ?_, rfl⟩
      rw [hpc] at heq
      cases heq

/-- A statement of the running process. -/
theorem SleepInv.exec (h : SleepInv m) (hstep : execStep disk m = some m') : SleepInv m' := by
  unfold execStep at hstep
  dsimp only at hstep
  split at hstep
  · cases hstep
  · cases hstep
    exact h.clear nofun
  · cases hstep
    exact (h.same { m with sie := false } rfl rfl rfl rfl).clear nofun
  · rename_i r s hpc
    obtain ⟨m₁, hbody, rfl⟩ := Option.map_eq_some_iff.mp hstep
    obtain ⟨h₁, hcurrent⟩ := h.regionBody hpc hbody
    rw [← hcurrent]
    exact h₁.clear nofun
  · rename_i r s hpc
    cases hstep
    exact (h.same { m with sie := s } rfl rfl rfl rfl).clear (afterRegion_clear r _)
  · obtain ⟨b, -, rfl⟩ := Option.map_eq_some_iff.mp hstep
    exact (h.same { m with blk := b } rfl rfl rfl rfl).clear nofun
  · split at hstep
    · cases hstep
      refine h.clear fun q stage back heq => ?_
      cases heq
      exact ⟨rfl, rfl⟩
    · split at hstep
      · cases hstep
        exact h.clear nofun
      · cases hstep
        exact (h.same { m with vgLastUsed := m.vgLastUsed + 1 } rfl rfl rfl rfl).clear nofun
  · rename_i q back hpc
    split at hstep
    · cases hstep
      exact h.clear back.resume_clear
    · cases hstep
      refine h.clear fun q stage back heq => ?_
      cases heq
      exact ⟨rfl, rfl⟩
  · cases hstep
    refine h.clear fun q stage back heq => ?_
    cases heq
    exact ⟨rfl, rfl⟩
  · cases hstep
    refine (h.same { m with sie := false } rfl rfl rfl rfl).clear fun q stage back heq => ?_
    cases heq
    exact ⟨rfl, rfl⟩
  · -- the process enters itself
    rename_i q s back hpc
    cases hstep
    refine (h.register q).goto (fun q' stage back' heq _ => ?_) fun q' stage back' heq hs => ?_
    · cases heq
      change Registered (Function.update m.waiters q _ q) m.current
      rw [Function.update_self]
      exact (h.distinct q).registered m.current
    · cases heq
      cases hs
  · -- interrupts are back on, and the entry is still there
    rename_i q s back hpc
    cases hstep
    refine (h.same { m with sie := s } rfl rfl rfl rfl).goto
      (fun q' stage back' heq _ => ?_) fun q' stage back' heq hs => ?_
    · cases heq
      exact h.entered m.current q _ back hpc rfl
    · cases heq
      cases hs
  · rename_i q back hpc
    cases hstep
    have hreg := h.entered m.current q .mark back hpc rfl
    refine ⟨h.distinct, fun p q' stage back' hp hs => ?_, fun p q' stage back' hp hs hb => ?_,
      fun p hp => ?_⟩
    · by_cases hpp : p = m.current
      · subst hpp
        rw [Machine.goto_self] at hp
        cases hp
        cases hs
      · rw [Machine.goto_other _ _ hpp] at hp
        exact h.entered p q' stage back' hp hs
    · by_cases hpp : p = m.current
      · subst hpp
        rw [Machine.goto_self] at hp
        cases hp
        exact hreg
      · rw [Machine.goto_other _ _ hpp] at hp
        change Function.update m.state m.current .blocked p = .blocked at hb
        rw [Function.update_of_ne hpp] at hb
        exact h.asleep p q' stage back' hp hs hb
    · have hp' : p ≠ m.current := hp
      rw [Machine.goto_other _ _ hp']
      exact h.others p hp'
  · cases hstep
  · rename_i q back hpc
    cases hstep
    split
    · refine (h.mono (m.setState m.current .runnable) rfl rfl rfl fun p hp => ?_).clear
        back.resume_clear
      change Function.update m.state m.current .runnable p = .blocked at hp
      by_cases hpp : p = m.current
      · subst hpp
        rw [Function.update_self] at hp
        cases hp
      · rw [Function.update_of_ne hpp] at hp
        exact Or.inl hp
    · exact h.clear back.resume_clear

/-- A process whose state is set, outside the modelled functions. -/
theorem SleepInv.setState (h : SleepInv m) (p : Fin procMax) {state : ProcState}
    (hstate : state = .blocked → (m.pc p).clear) : SleepInv (m.setState p state) := by
  refine h.mono _ rfl rfl rfl fun p' hp' => ?_
  change Function.update m.state p state p' = .blocked at hp'
  by_cases hpp : p' = p
  · subst hpp
    rw [Function.update_self] at hp'
    exact Or.inr (hstate hp')
  · rw [Function.update_of_ne hpp] at hp'
    exact Or.inl hp'

theorem SleepInv.of_outside {m₁ : Machine} (hout : m.outside m' = some m₁)
    (h : m.isOut = true → SleepInv m') : SleepInv m₁ := by
  unfold Machine.outside at hout
  split at hout
  · rename_i hpc
    cases hout
    exact h hpc
  · cases hout

theorem Machine.isOut_pc (h : m.isOut = true) : m.pc m.current = .out :=
  of_decide_eq_true (Bool.and_eq_true_iff.mp h).1

theorem SleepInv.step (h : SleepInv m) (op : SleepOp) (hstep : sleepStep disk op m = some m')
    (hok : NoWindowIrq m op) : SleepInv m' := by
  have hblk : ∀ op, (blkStep disk op m.blk).map (fun b => { m with blk := b }) = some m' →
      SleepInv m' := by
    intro op hop
    obtain ⟨b, -, rfl⟩ := Option.map_eq_some_iff.mp hop
    exact h.same _ rfl rfl rfl rfl
  cases op with
  | exec => exact h.exec hstep
  | switch next =>
      simp only [sleepStep] at hstep
      split at hstep
      · obtain ⟨pc, hpc, hm'⟩ := Option.map_eq_some_iff.mp hstep
        have hswitch := h.switch hpc next
        split at hm'
        · rename_i heq
          subst hm'
          refine hswitch.same _ ?_ rfl rfl rfl
          exact heq.symm
        · subst hm'
          exact hswitch.same _ rfl rfl rfl rfl
      · cases hstep
  | irq q =>
      have hwindow : ∀ stage back, m.pc m.current = .sleep q stage back → stage.entered = false := by
        intro stage back heq
        by_contra hentered
        refine hok q rfl ⟨back, ?_⟩
        unfold Stage.entered at hentered
        split at hentered
        · exact Or.inr ⟨_, heq⟩
        · exact Or.inl heq
        · exact absurd rfl hentered
      simp only [sleepStep] at hstep
      split at hstep
      · cases q with
        | blk =>
            cases hstep
            exact (h.same { m with blk := m.blk.processed } rfl rfl rfl rfl).wakeAll hwindow
        | vg =>
            cases hstep
            exact h.wakeAll hwindow
      · cases hstep
  | devTake => exact hblk _ hstep
  | devServe c status data => exact hblk _ hstep
  | devPublish c => exact hblk _ hstep
  | vgComplete =>
      cases hstep
      exact h.same _ rfl rfl rfl rfl
  | callBlk sector buf =>
      simp only [sleepStep] at hstep
      split at hstep
      · obtain ⟨b, -, rfl⟩ := Option.map_eq_some_iff.mp hstep
        exact (h.same { m with blk := b } rfl rfl rfl rfl).clear nofun
      · cases hstep
  | callVg =>
      simp only [sleepStep] at hstep
      exact SleepInv.of_outside hstep fun _ => h.clear nofun
  | setSie on =>
      simp only [sleepStep] at hstep
      exact SleepInv.of_outside hstep fun _ => h.same _ rfl rfl rfl rfl
  | block =>
      simp only [sleepStep] at hstep
      refine SleepInv.of_outside hstep fun hout => h.setState _ fun _ => ?_
      rw [Machine.isOut_pc hout]
      exact nofun
  | unblock =>
      simp only [sleepStep] at hstep
      split at hstep
      · cases hstep
        exact h.setState _ nofun
      · cases hstep
  | wake p =>
      simp only [sleepStep] at hstep
      split at hstep
      · exact SleepInv.of_outside hstep fun _ => h.setState p nofun
      · cases hstep
  | exit =>
      simp only [sleepStep] at hstep
      exact SleepInv.of_outside hstep fun _ => h.setState _ nofun
  | create p sie =>
      simp only [sleepStep] at hstep
      split at hstep
      · refine SleepInv.of_outside hstep fun _ => ?_
        exact (h.same { m with saved := Function.update m.saved p sie } rfl rfl rfl
          rfl).setState p nofun
      · cases hstep
  | reap p =>
      simp only [sleepStep] at hstep
      split at hstep
      · exact SleepInv.of_outside hstep fun _ => h.setState p nofun
      · cases hstep

theorem SleepReachable.inv (h : SleepReachable disk NoWindowIrq m) : SleepInv m := by
  induction h with
  | init mem idle =>
      refine ⟨fun q i j p hi => ?_, nofun, nofun, fun _ _ => Or.inl rfl⟩
      cases hi
  | step op _ hstep hok ih => exact ih.step op hstep hok

/-- In every run in which no interrupt wakes a queue between the two halves of an entry
into it, no wake-up is lost. -/
theorem noLostWakeup_of_noWindowIrq (h : SleepReachable disk NoWindowIrq m) :
    NoLostWakeup m := by
  have hinv := h.inv
  have hreg : ∀ p q stage back, m.pc p = .sleep q stage back → stage = .yield ∨ stage = .woken →
      m.state p = .blocked → Registered (m.waiters q) p := by
    intro p q stage back hp hs hb
    refine hinv.asleep p q stage back hp ?_ hb
    rcases hs with rfl | rfl <;> rfl
  refine ⟨hreg, fun p q stage back hp hs hb => ?_, hinv.distinct,
    fun q p => (hinv.distinct q).registered p, fun p stage back hp hs hb _ _ _ _ _ _ => ?_,
    fun p stage back hp hs hb _ => hreg p .vg stage back hp hs hb⟩
  · obtain ⟨hwoken, -, hawake⟩ := waitqWakeAll_spec (m.waiters q) m.state
    rcases hwoken p with heq | ⟨-, hnew⟩
    · exact absurd (heq.trans hb) (hawake p (hreg p q stage back hp hs hb))
    · exact hnew
  · exact hreg p .blk stage back hp hs hb

/-- A step leaves the block driver alone, or is a step of it. -/
def BlkStays (disk : UInt32 → Nat → UInt8) (m m' : Machine) : Prop :=
  m'.blk = m.blk ∨ ∃ op, blkStep disk op m.blk = some m'.blk

theorem BlkStays.map {op : BlkOp (Fin procMax)} {f : BlkSys (Fin procMax) → Machine}
    (hf : ∀ b, (f b).blk = b) (h : (blkStep disk op m.blk).map f = some m') :
    BlkStays disk m m' := by
  obtain ⟨b, hb, rfl⟩ := Option.map_eq_some_iff.mp h
  refine Or.inr ⟨op, ?_⟩
  rw [hf b]
  exact hb

theorem regionBody_blk {r : Region} (h : regionBody disk r m.current m = some m') :
    BlkStays disk m m' := by
  cases r with
  | takeSlot => exact BlkStays.map (fun _ => rfl) h
  | post => exact BlkStays.map (fun _ => rfl) h
  | check => exact BlkStays.map (fun _ => rfl) h
  | wakeAll =>
      cases h
      exact Or.inl rfl

theorem execStep_blk (h : execStep disk m = some m') : BlkStays disk m m' := by
  unfold execStep at h
  dsimp only at h
  split at h
  · cases h
  · cases h
    exact Or.inl rfl
  · cases h
    exact Or.inl rfl
  · obtain ⟨m₁, hbody, rfl⟩ := Option.map_eq_some_iff.mp h
    have hblk := regionBody_blk hbody
    exact hblk
  · cases h
    exact Or.inl rfl
  · exact BlkStays.map (fun _ => rfl) h
  · split at h
    · cases h
      exact Or.inl rfl
    · split at h <;> cases h <;> exact Or.inl rfl
  · split at h <;> cases h <;> exact Or.inl rfl
  · cases h
    exact Or.inl rfl
  · cases h
    exact Or.inl rfl
  · cases h
    exact Or.inl rfl
  · cases h
    exact Or.inl rfl
  · cases h
    exact Or.inl rfl
  · cases h
  · cases h
    split <;> exact Or.inl rfl

theorem BlkStays.of_outside {m₁ : Machine} (h : m.outside m' = some m₁) (hblk : m'.blk = m.blk) :
    BlkStays disk m m₁ := by
  unfold Machine.outside at h
  split at h
  · cases h
    exact Or.inl hblk
  · cases h

theorem sleepStep_blk {op : SleepOp} (h : sleepStep disk op m = some m') :
    BlkStays disk m m' := by
  cases op <;> simp only [sleepStep] at h
  case exec => exact execStep_blk h
  case switch next =>
    split at h
    · obtain ⟨pc, -, hm'⟩ := Option.map_eq_some_iff.mp h
      split at hm' <;> subst hm' <;> exact Or.inl rfl
    · cases h
  case irq q =>
    split at h
    · cases q with
      | blk =>
          cases h
          exact Or.inr ⟨.irq, rfl⟩
      | vg =>
          cases h
          exact Or.inl rfl
    · cases h
  case callBlk sector buf =>
    split at h
    · exact BlkStays.map (fun _ => rfl) h
    · cases h
  case vgComplete =>
    cases h
    exact Or.inl rfl
  case unblock =>
    split at h
    · cases h
      exact Or.inl rfl
    · cases h
  case wake p =>
    split at h
    · exact .of_outside h rfl
    · cases h
  case create p sie =>
    split at h
    · exact .of_outside h rfl
    · cases h
  case reap p =>
    split at h
    · exact .of_outside h rfl
    · cases h
  case devTake => exact BlkStays.map (fun _ => rfl) h
  case devServe c status data => exact BlkStays.map (fun _ => rfl) h
  case devPublish c => exact BlkStays.map (fun _ => rfl) h
  all_goals exact .of_outside h rfl

/-- The block driver and its device run as in `BlkReachable`, so that reads do not
cross on this machine either. -/
theorem SleepReachable.blk {ok : Machine → SleepOp → Prop} (h : SleepReachable disk ok m) :
    BlkReachable disk m.blk := by
  induction h with
  | init mem idle => exact .init mem
  | step op _ hstep _ ih =>
      rcases sleepStep_blk hstep with heq | ⟨op', hop'⟩
      · rw [heq]
        exact ih
      · exact ih.step op' hop'

theorem SleepReachable.neverCross {ok : Machine → SleepOp → Prop} (h : SleepReachable disk ok m) :
    NeverCross disk m.blk :=
  blkReads_neverCross h.blk

/-! ## A read that sleeps -/

/-- A list of steps, each of which can happen and passes the check. -/
def sleepRun (disk : UInt32 → Nat → UInt8) (check : Machine → SleepOp → Bool) :
    List SleepOp → Machine → Option Machine
  | [], m => some m
  | op :: ops, m =>
      if check m op then (sleepStep disk op m).bind (sleepRun disk check ops) else none

theorem SleepReachable.run {ok : Machine → SleepOp → Prop} {check : Machine → SleepOp → Bool}
    (hcheck : ∀ m op, check m op = true → ok m op) {ops : List SleepOp}
    (hm : SleepReachable disk ok m) (h : sleepRun disk check ops m = some m') :
    SleepReachable disk ok m' := by
  induction ops generalizing m with
  | nil =>
      cases h
      exact hm
  | cons op ops ih =>
      unfold sleepRun at h
      split at h
      · rename_i hpass
        obtain ⟨m₁, hstep, hrun⟩ := Option.bind_eq_some_iff.mp h
        exact ih (hm.step op hstep (hcheck m op hpass)) hrun
      · cases h

/-- `NoWindowIrq`, computed. -/
def noWindowIrq (m : Machine) : SleepOp → Bool
  | .irq q =>
      match m.pc m.current with
      | .sleep q' stage _ => !(decide (q' = q) && stage.entered)
      | _ => true
  | _ => true

theorem noWindowIrq_sound (m : Machine) (op : SleepOp) (h : noWindowIrq m op = true) :
    NoWindowIrq m op := by
  rintro q rfl ⟨back, hpc | ⟨s, hpc⟩⟩ <;> simp [noWindowIrq, hpc, Stage.entered] at h

/-- A kernel process reads a sector, finds the request not done, and enters itself into
the queue. -/
def readAndEnter : List SleepOp :=
  [.create 1 true, .switch 1, .callBlk 5 4096, .exec, .exec, .exec, .exec, .exec, .exec, .exec,
    .exec, .exec, .exec, .exec, .exec, .exec, .exec, .exec, .exec, .exec, .exec]

/-- The device completes the request. -/
def completeRead : List SleepOp :=
  [.devTake, .devServe ⟨0, 0⟩ 0 (fun _ => 0), .devPublish ⟨0, 0⟩]

def smallSleep (check : Machine → SleepOp → Bool) (ops : List SleepOp) : Option Machine :=
  sleepRun stampDisk check ops (.init (fun _ => 0) 0)

/-- The interrupt comes after the process has marked itself blocked. -/
theorem noLostWakeup_of_noWindowIrq_late :
    ∃ m, smallSleep noWindowIrq (readAndEnter ++ completeRead ++ [.exec, .irq .blk]) = some m ∧
      NoLostWakeup m := by
  have hsome : (smallSleep noWindowIrq
      (readAndEnter ++ completeRead ++ [.exec, .irq .blk])).isSome = true := by
    decide +kernel
  obtain ⟨m, hm⟩ := Option.isSome_iff_exists.mp hsome
  exact ⟨m, hm, noLostWakeup_of_noWindowIrq ((SleepReachable.init _ _).run noWindowIrq_sound hm)⟩

/-- The interrupt comes first: the process is blocked, its request is done, and no queue
knows of it. -/
theorem noLostWakeup_fails :
    ¬ ∀ m, SleepReachable stampDisk (fun _ _ => True) m → NoLostWakeup m := by
  intro hall
  have hrun : (smallSleep (fun _ _ => true)
      (readAndEnter ++ completeRead ++ [.irq .blk, .exec])).any (fun m =>
        decide (m.pc 1 = .sleep .blk .yield .check) && decide (m.state 1 = .blocked) &&
          decide (m.blk.phase 1 = .waiting 0 5 4096 0) && (m.blk.blk.slots 0).done &&
          !decide (Registered (m.waiters .blk) 1)) = true := by
    decide +kernel
  obtain ⟨m, hm, hvals⟩ := (Option.any_eq_true _ _).mp hrun
  simp only [Bool.and_eq_true, decide_eq_true_eq, Bool.not_eq_true', decide_eq_false_iff_not,
    and_assoc] at hvals
  obtain ⟨hpc, hblocked, hphase, hdone, hunregistered⟩ := hvals
  have hlost := hall m ((SleepReachable.init _ _).run (fun _ _ _ => trivial) hm)
  exact hunregistered (hlost.blkLoop 1 .yield .check hpc (Or.inl rfl) hblocked 0 5 4096 0 hphase
    hdone)

end Sugimotos.Drivers
