/-
# The scheduler

Model of `kernel/process/sched.c`, and of the calls that write the `state` and
the `budget` of a process.  The kernel is not preemptible, so a run is a sequence
of calls; a call that gives up the processor leaves the caller to `yield` next.
-/

import Sugimotos.Drivers.Waitq
import Sugimotos.Math.Scan
import Sugimotos.Proc.Parentage
import Mathlib.Logic.Relation

namespace Sugimotos.Proc

open Sugimotos.Drivers Sugimotos.Math Sugimotos.Mm

/-! ## Picking a process -/

/-- `is_schedulable`. -/
def isSchedulable (proc : Process) : Bool :=
  decide (proc.state = .runnable) && decide (0 < proc.pid)

/-- `is_eligible_for_pick`. -/
def isEligibleForPick (proc : Process) : Bool :=
  isSchedulable proc && decide (0 < proc.budget)

/-- The slots in the order `pick_next_runnable_index` looks at them. -/
def cyclic (start : Fin procMax) : List (Fin procMax) :=
  (List.range' 1 procMax).map fun i => Fin.ofNat procMax (start.val + i)

/-- `pick_next_runnable_index`. -/
def pickNextRunnableIndex (procs : Fin procMax → Process) (start : Fin procMax) :
    Option (Fin procMax) :=
  (scanGreatest (fun i => isEligibleForPick (procs i)) (fun i => (procs i).budget) (-1)
    (cyclic start)).1

/-- One round of `refill_budgets`. -/
def refillBudget (proc : Process) : Process :=
  if isSchedulable proc then
    let proc := if proc.priority < 1 then { proc with priority := 1 } else proc
    { proc with budget := proc.priority }
  else proc

/-- `refill_budgets`. -/
def refillBudgets (k : Kernel) : Kernel := { k with procs := fun i => refillBudget (k.procs i) }

/-- The process in slot `c` pays for its turn. -/
def payTurn (c : Fin procMax) (k : Kernel) : Kernel :=
  if isEligibleForPick (k.procs c) then
    k.setProc c { k.procs c with budget := (k.procs c).budget - 1 }
  else k

/-- `yield`; `current_proc` points into the table. -/
def yield (k : Kernel) : Kernel :=
  match k.currentProc with
  | none => k
  | some c =>
      let k := payTurn c k
      match pickNextRunnableIndex k.procs c with
      | some next => switchTo next k
      | none =>
          let k := refillBudgets k
          match pickNextRunnableIndex k.procs c with
          | some next => switchTo next k
          | none =>
              match k.idleProc with
              | some idle => switchTo idle k
              | none => k

/-- How many slots come between `start` and `i` going round. -/
def distance (start i : Fin procMax) : Nat := (i.val + procMax - start.val - 1) % procMax

/-- The process has the greatest budget of those that can run, and is the first
after `start` among equals. -/
structure Foremost (procs : Fin procMax → Process) (start i : Fin procMax) : Prop where
  runnable : (procs i).state = .runnable
  budget : 0 < (procs i).budget
  greatest : ∀ j, (procs j).state = .runnable → (procs j).budget ≤ (procs i).budget
  first : ∀ j, (procs j).state = .runnable → (procs j).budget = (procs i).budget →
    distance start i ≤ distance start j

theorem distance_cyclic (start : Fin procMax) {n : Nat} (hpos : 1 ≤ n) (hle : n ≤ procMax) :
    distance start (Fin.ofNat procMax (start.val + n)) = n - 1 := by
  have hstart := start.isLt
  unfold distance
  simp only [Fin.val_ofNat]
  unfold procMax at *
  omega

theorem cyclic_pairwise (start : Fin procMax) :
    (cyclic start).Pairwise fun i j => distance start i < distance start j := by
  unfold cyclic
  rw [List.pairwise_map]
  apply List.Pairwise.imp_of_mem _ List.pairwise_lt_range'
  intro m n hm hn hlt
  rw [List.mem_range'_1] at hm hn
  rw [distance_cyclic start hm.1 (by omega), distance_cyclic start hn.1 (by omega)]
  omega

theorem mem_cyclic (start i : Fin procMax) : i ∈ cyclic start := by
  have hstart := start.isLt
  have hi := i.isLt
  unfold cyclic
  rw [List.mem_map]
  refine ⟨distance start i + 1, ?_, ?_⟩
  · rw [List.mem_range'_1]
    unfold distance procMax
    omega
  · apply Fin.ext
    unfold distance
    simp only [Fin.val_ofNat]
    unfold procMax at *
    omega

theorem isSchedulable_eq_true {proc : Process} :
    isSchedulable proc = true ↔ proc.state = .runnable ∧ 0 < proc.pid := by
  simp [isSchedulable]

theorem isEligibleForPick_eq_true {proc : Process} :
    isEligibleForPick proc = true ↔ (proc.state = .runnable ∧ 0 < proc.pid) ∧ 0 < proc.budget := by
  simp [isEligibleForPick, isSchedulable]

/-- Every process in use has a pid. -/
def PidsPos (procs : Fin procMax → Process) : Prop :=
  ∀ j, (procs j).state ≠ .unused → 0 < (procs j).pid

/-- No process that can run has budget left. -/
def Exhausted (procs : Fin procMax → Process) : Prop :=
  ∀ j, (procs j).state = .runnable → (procs j).budget ≤ 0

/-- The scan finds the foremost process, if any has budget. -/
theorem pickNextRunnableIndex_spec {procs : Fin procMax → Process} (hpids : PidsPos procs)
    (start : Fin procMax) :
    (pickNextRunnableIndex procs start = none ∧ Exhausted procs) ∨
      ∃ i, pickNextRunnableIndex procs start = some i ∧ Foremost procs start i := by
  have hcandidate : ∀ j, (procs j).state = .runnable → 0 < (procs j).budget →
      isEligibleForPick (procs j) = true := by
    intro j hrunnable hbudget
    refine isEligibleForPick_eq_true.mpr ⟨⟨hrunnable, hpids j ?_⟩, hbudget⟩
    rw [hrunnable]
    exact nofun
  have hfloor : ∀ j, isEligibleForPick (procs j) = true → -1 < (procs j).budget := by
    intro j hj
    have hbudget := (isEligibleForPick_eq_true.mp hj).2
    omega
  unfold pickNextRunnableIndex
  cases scanGreatest_spec hfloor (cyclic start) with
  | inl hnone =>
      left
      rw [hnone.1]
      refine ⟨rfl, ?_⟩
      intro j hrunnable
      by_contra hbudget
      have hno := hnone.2 j (mem_cyclic start j)
      rw [hcandidate j hrunnable (not_le.mp hbudget)] at hno
      cases hno
  | inr hsome =>
      right
      obtain ⟨i, hi, hgreatest⟩ := hsome
      obtain ⟨⟨hrunnable, -⟩, hbudget⟩ := isEligibleForPick_eq_true.mp hgreatest.isCandidate
      have hle : ∀ j, (procs j).state = .runnable → (procs j).budget ≤ (procs i).budget := by
        intro j hj
        by_cases hpos : 0 < (procs j).budget
        · exact hgreatest.le (mem_cyclic start j) (hcandidate j hj hpos)
        · exact (not_lt.mp hpos).trans hbudget.le
      rw [hi]
      refine ⟨i, rfl, hrunnable, hbudget, hle, ?_⟩
      -- a process with the same budget does not come before `i`
      intro j hj heq
      obtain ⟨before, after, hsplit, hbefore, -⟩ := hgreatest.split
      have horder := cyclic_pairwise start
      have hmem := mem_cyclic start j
      rw [hsplit] at horder hmem
      cases List.mem_append.mp hmem with
      | inl hin =>
          have hless := hbefore j hin (hcandidate j hj (heq ▸ hbudget))
          exact absurd heq hless.ne
      | inr hin =>
          cases List.mem_cons.mp hin with
          | inl hji => rw [hji]
          | inr htail =>
              have hafter := (List.pairwise_append.mp horder).2.1
              exact ((List.pairwise_cons.mp hafter).1 j htail).le

/-! ## Runs -/

/-- The kernel and its wait queues.  `yielding` is set from the moment the current
process has blocked or exited to the `yield` it then makes. -/
structure SchedSys where
  kernel : Kernel
  waitqs : Nat → Waiters
  yielding : Bool

/-- `waitq_sleep` up to its `yield`. -/
def waitqSleep (q : Nat) (s : SchedSys) : SchedSys :=
  match s.kernel.currentProc with
  | none => s
  | some c =>
      if s.kernel.idleProc = some c then s
      else
        { kernel := s.kernel.setProc c { s.kernel.procs c with state := .blocked }
          waitqs := Function.update s.waitqs q (waitqRegister (s.waitqs q) c)
          yielding := true }

/-- `waitq_wake_all`. -/
def waitqWake (q : Nat) (s : SchedSys) : SchedSys :=
  let out := waitqWakeAll (s.waitqs q) fun i => (s.kernel.procs i).state
  { s with
    kernel := { s.kernel with
      procs := fun i => { s.kernel.procs i with state := out.2 i } }
    waitqs := Function.update s.waitqs q out.1 }

/-- The current process is blocked or has exited. -/
def Kernel.stopped (k : Kernel) : Bool := k.running.isNone

/-- The fields of a process record that scheduling depends on. -/
structure TurnFields where
  pid : Int
  state : ProcState
  priority : Int
  budget : Int
  parentPid : Int
  isUser : Bool

def Process.turn (p : Process) : TurnFields :=
  ⟨p.pid, p.state, p.priority, p.budget, p.parentPid, p.isUser⟩

/-- One call of a run, made by the current process. -/
inductive SchedStep (L : Layout) : SchedSys → SchedSys → Prop
  | createProcess {s} (hs : s.yielding = false) :
      SchedStep L s { s with kernel := (createProcess s.kernel).2 }
  | createUserProcess {s k r} (entryPc : Nat) (hs : s.yielding = false)
      (h : createUserProcess L entryPc s.kernel = .ok (r, k)) :
      SchedStep L s { s with kernel := k }
  | fork {s k r} (hs : s.yielding = false) (h : procFork L s.kernel = .ok (r, k)) :
      SchedStep L s { s with kernel := k }
  /-- The idle process does not exit. -/
  | exit {s c} (status : Int) (hs : s.yielding = false) (hc : s.kernel.currentProc = some c)
      (hidle : s.kernel.idleProc ≠ some c) :
      SchedStep L s { s with kernel := procExit status s.kernel, yielding := true }
  /-- One pass of the loop of `proc_waitpid`; a process that blocks yields next. -/
  | waitpid {s k c} (pid : Int) (options : UInt32) (hs : s.yielding = false)
      (hc : s.kernel.currentProc = some c) (h : waitpidStep L c pid options s.kernel = .ok k) :
      SchedStep L s { s with kernel := k, yielding := k.stopped }
  | reapOrphans {s k} (hs : s.yielding = false) (h : procReapOrphanZombies L s.kernel = .ok k) :
      SchedStep L s { s with kernel := k }
  | sleep {s} (q : Nat) (hs : s.yielding = false) : SchedStep L s (waitqSleep q s)
  | wakeAll {s} (q : Nat) (hs : s.yielding = false) : SchedStep L s (waitqWake q s)
  | yield (s) : SchedStep L s { s with kernel := yield s.kernel, yielding := false }
  /-- A process that has come back from the `yield` in which it was blocked. -/
  | resume {s c} (hs : s.yielding = false) (hc : s.kernel.currentProc = some c) :
      SchedStep L s { s with
        kernel := s.kernel.setProc c { s.kernel.procs c with state := .runnable } }
  /-- Any call that has no part in scheduling. -/
  | other {s} (k : Kernel) (hs : s.yielding = false)
      (hturn : ∀ j, (k.procs j).turn = (s.kernel.procs j).turn)
      (hcur : k.currentProc = s.kernel.currentProc) (hidle : k.idleProc = s.kernel.idleProc) :
      SchedStep L s { s with kernel := k }

/-- The states of a run from boot. -/
inductive SchedReachable (L : Layout) : SchedSys → Prop
  | boot {mem mmu k} (h : boot L mem mmu = some k) :
      SchedReachable L ⟨k, fun _ _ => none, false⟩
  | step {s s'} (hs : SchedReachable L s) (h : SchedStep L s s') : SchedReachable L s'

/-- What `yield` does: the current process `c` pays for its turn, budgets are
refilled if nobody that can run has any left, and `next` gets the processor. -/
structure Yields (k k' : Kernel) (c next : Fin procMax) : Prop where
  current : k'.currentProc = some next
  states : ∀ j, (k'.procs j).state = (k.procs j).state
  kept : ¬ Exhausted (payTurn c k).procs → k'.procs = (payTurn c k).procs
  refilled : Exhausted (payTurn c k).procs → ∀ j, (k'.procs j).budget =
    if (k.procs j).state = .runnable then (k.procs j).priority else (k.procs j).budget
  foremost : Foremost k'.procs c next

/-- The process in slot `j` keeps its slot. -/
def StepKeeping (L : Layout) (j : Fin procMax) (s s' : SchedSys) : Prop :=
  SchedStep L s s' ∧ (s'.kernel.procs j).state ≠ .unused

/-- The scheduler only runs runnable processes. -/
structure Scheduled (L : Layout) (s : SchedSys) : Prop where
  current : ∃ c, s.kernel.currentProc = some c ∧
    (s.yielding = false → (s.kernel.procs c).state = .runnable)
  yields : ∃ c next, s.kernel.currentProc = some c ∧ Yields s.kernel (yield s.kernel) c next
  starts : ∀ s' j, SchedStep L s s' → s'.kernel.currentProc = some j →
    s.kernel.currentProc ≠ some j → (s.kernel.procs j).state = .runnable
  dead : ∀ s' j, (s.kernel.procs j).state = .zombie →
    Relation.ReflTransGen (StepKeeping L j) s s' → (s'.kernel.procs j).state = .zombie ∧
      (s'.yielding = false → s'.kernel.currentProc ≠ some j)
  budgets : ∀ j, (s.kernel.procs j).state ≠ .unused → 0 ≤ (s.kernel.procs j).budget ∧
    (s.kernel.procs j).budget ≤ (s.kernel.procs j).priority ∧ 1 ≤ (s.kernel.procs j).priority

/-! ## The invariant -/

/-- The idle process can run and nobody is its child; pids are slot numbers; the
budget of a process is at most its priority. -/
structure TurnInv (k : Kernel) : Prop where
  idle : ∃ i, k.idleProc = some i ∧ (k.procs i).state = .runnable ∧ (k.procs i).isUser = false ∧
    ∀ j, (k.procs j).state ≠ .unused → (k.procs j).parentPid ≠ slotPid i
  pids : PidsOk k.procs
  budgets : ∀ j, (k.procs j).state ≠ .unused → 0 ≤ (k.procs j).budget ∧
    (k.procs j).budget ≤ (k.procs j).priority ∧ 1 ≤ (k.procs j).priority

/-- What a call other than `yield` does to one slot; `stopper` is the process that
blocks or exits in it. -/
inductive TurnChange (stopper : Option (Fin procMax)) (k k' : Kernel) (j : Fin procMax) : Prop
  | same (turn : (k'.procs j).turn = (k.procs j).turn)
  | woken (old : (k.procs j).state = .blocked)
      (turn : (k'.procs j).turn = { (k.procs j).turn with state := .runnable })
  | stopped (state : ProcState) (cur : k.currentProc = some j) (stops : stopper = some j)
      (used : state ≠ .unused) (turn : (k'.procs j).turn = { (k.procs j).turn with state := state })
  | gone (old : (k.procs j).state = .unused ∨ (k.procs j).state = .zombie)
      (new : (k'.procs j).state = .unused)
  | filled (priority parentPid : Int) (isUser : Bool) (old : (k.procs j).state = .unused)
      (turn : (k'.procs j).turn = ⟨slotPid j, .runnable, priority, priority, parentPid, isUser⟩)
      (parent : (1 ≤ priority ∧ parentPid = 0) ∨ ∃ c, k.currentProc = some c ∧
        (k.procs c).isUser = true ∧ parentPid = (k.procs c).pid ∧
          priority = (k.procs c).priority)

/-- What a call other than `yield` does. -/
structure TurnStep (stopper : Option (Fin procMax)) (k k' : Kernel) : Prop where
  cur : k'.currentProc = k.currentProc
  idle : k'.idleProc = k.idleProc
  slots : ∀ j, TurnChange stopper k k' j

theorem PidsOk.pos {procs : Fin procMax → Process} (h : PidsOk procs) : PidsPos procs := by
  intro j hj
  rw [h j hj]
  exact slotPid_pos j

/-- Records that agree in what scheduling depends on. -/
theorem TurnChange.of_eq {stopper : Option (Fin procMax)} {k k' : Kernel} {j : Fin procMax}
    (h : k'.procs j = k.procs j) : TurnChange stopper k k' j :=
  .same (congrArg Process.turn h)

/-- A process that can run goes on, unless the call stops it. -/
theorem TurnStep.runnable {stopper : Option (Fin procMax)} {k k' : Kernel}
    (h : TurnStep stopper k k') {j : Fin procMax} (hj : (k.procs j).state = .runnable)
    (hstop : stopper ≠ some j) : (k'.procs j).state = .runnable := by
  cases h.slots j with
  | same turn => exact (congrArg TurnFields.state turn).trans hj
  | woken old turn => exact congrArg TurnFields.state turn
  | stopped state cur stops used turn => exact absurd stops hstop
  | gone old new =>
      rw [hj] at old
      rcases old with hunused | hzombie
      · cases hunused
      · cases hzombie
  | filled priority parentPid isUser old turn parent =>
      rw [hj] at old
      cases old

/-- A process in use after a call was there before it, or it is new. -/
theorem TurnStep.used {stopper : Option (Fin procMax)} {k k' : Kernel} {c : Fin procMax}
    (h : TurnStep stopper k k') (hc : k.currentProc = some c)
    (hrun : (k.procs c).state = .runnable) {j : Fin procMax} (hj : (k'.procs j).state ≠ .unused) :
    ((k.procs j).state ≠ .unused ∧
      ∃ state, (k'.procs j).turn = { (k.procs j).turn with state := state }) ∨
    ((k.procs j).state = .unused ∧ ∃ priority parentPid isUser,
      (k'.procs j).turn = ⟨slotPid j, .runnable, priority, priority, parentPid, isUser⟩ ∧
      ((1 ≤ priority ∧ parentPid = 0) ∨ (k.procs c).isUser = true ∧
        parentPid = (k.procs c).pid ∧ priority = (k.procs c).priority)) := by
  cases h.slots j with
  | same turn =>
      left
      have hold : (k'.procs j).state = (k.procs j).state := congrArg TurnFields.state turn
      exact ⟨hold ▸ hj, _, turn⟩
  | woken old turn =>
      left
      refine ⟨?_, _, turn⟩
      rw [old]
      exact nofun
  | stopped state cur stops used turn =>
      left
      rw [hc] at cur
      cases cur
      refine ⟨?_, _, turn⟩
      rw [hrun]
      exact nofun
  | gone old new => exact absurd new hj
  | filled priority parentPid isUser old turn parent =>
      right
      refine ⟨old, priority, parentPid, isUser, turn, ?_⟩
      cases parent with
      | inl hfree => exact Or.inl hfree
      | inr hchild =>
          obtain ⟨p, hp, hparent⟩ := hchild
          rw [hc] at hp
          cases hp
          exact Or.inr hparent

/-- A call keeps the invariant, unless it stops the idle process. -/
theorem TurnInv.step {stopper : Option (Fin procMax)} {k k' : Kernel} {c : Fin procMax}
    (h : TurnInv k) (hc : k.currentProc = some c) (hrun : (k.procs c).state = .runnable)
    (hstep : TurnStep stopper k k') (hidle : ∀ i, k.idleProc = some i → stopper ≠ some i) :
    TurnInv k' := by
  obtain ⟨i, hi, hstate, huser, hparents⟩ := h.idle
  have hcused : (k.procs c).state ≠ .unused := by
    rw [hrun]
    exact nofun
  have hrunnable := hstep.runnable hstate (hidle i hi)
  have hiused : (k'.procs i).state ≠ .unused := by
    rw [hrunnable]
    exact nofun
  refine ⟨⟨i, hstep.idle.trans hi, hrunnable, ?_, fun j hj => ?_⟩, fun j hj => ?_, fun j hj => ?_⟩
  · cases hstep.used hc hrun hiused with
    | inl hkept =>
        obtain ⟨-, state, turn⟩ := hkept
        exact (congrArg TurnFields.isUser turn).trans huser
    | inr hnew =>
        rw [hstate] at hnew
        cases hnew.1
  · cases hstep.used hc hrun hj with
    | inl hkept =>
        obtain ⟨hold, state, turn⟩ := hkept
        have hparent : (k'.procs j).parentPid = (k.procs j).parentPid :=
          congrArg TurnFields.parentPid turn
        rw [hparent]
        exact hparents j hold
    | inr hnew =>
        obtain ⟨-, priority, parentPid, isUser, turn, hfrom⟩ := hnew
        have hparent : (k'.procs j).parentPid = parentPid := congrArg TurnFields.parentPid turn
        rw [hparent]
        cases hfrom with
        | inl hfree =>
            rw [hfree.2]
            exact (slotPid_pos i).ne
        | inr hchild =>
            -- the parent is a user process, so it is not the idle process
            obtain ⟨hpuser, hpid, -⟩ := hchild
            rw [hpid, h.pids c hcused]
            intro heq
            rw [slotPid_inj heq, huser] at hpuser
            cases hpuser
  · cases hstep.used hc hrun hj with
    | inl hkept =>
        obtain ⟨hold, state, turn⟩ := hkept
        have hpid : (k'.procs j).pid = (k.procs j).pid := congrArg TurnFields.pid turn
        rw [hpid]
        exact h.pids j hold
    | inr hnew =>
        obtain ⟨-, priority, parentPid, isUser, turn, -⟩ := hnew
        exact congrArg TurnFields.pid turn
  · cases hstep.used hc hrun hj with
    | inl hkept =>
        obtain ⟨hold, state, turn⟩ := hkept
        have hbudget : (k'.procs j).budget = (k.procs j).budget := congrArg TurnFields.budget turn
        have hpriority : (k'.procs j).priority = (k.procs j).priority :=
          congrArg TurnFields.priority turn
        rw [hbudget, hpriority]
        exact h.budgets j hold
    | inr hnew =>
        obtain ⟨-, priority, parentPid, isUser, turn, hfrom⟩ := hnew
        have hbudget : (k'.procs j).budget = priority := congrArg TurnFields.budget turn
        have hpriority : (k'.procs j).priority = priority := congrArg TurnFields.priority turn
        have hpos : 1 ≤ priority := by
          cases hfrom with
          | inl hfree => exact hfree.1
          | inr hchild =>
              rw [hchild.2.2]
              exact (h.budgets c hcused).2.2
        rw [hbudget, hpriority]
        omega

/-! ## The calls -/

/-- A call that writes one slot. -/
theorem TurnStep.of_slot {stopper : Option (Fin procMax)} {k k' : Kernel} {i : Fin procMax}
    {p : Process} (hcur : k'.currentProc = k.currentProc) (hidle : k'.idleProc = k.idleProc)
    (hprocs : k'.procs = Function.update k.procs i p)
    (h : k'.procs i = p → TurnChange stopper k k' i) : TurnStep stopper k k' := by
  refine ⟨hcur, hidle, fun j => ?_⟩
  by_cases hj : j = i
  · subst hj
    apply h
    rw [hprocs, Function.update_self]
  · apply TurnChange.of_eq
    rw [hprocs, Function.update_of_ne hj]

theorem TurnStep.refl (k : Kernel) : TurnStep none k k :=
  ⟨rfl, rfl, fun _ => .of_eq rfl⟩

theorem resetProcess_idleProc {L : Layout} {k k' : Kernel} {i : Fin procMax} {proc : Process}
    {s : Phys} (h : resetProcess L k i proc s = .ok k') : k'.idleProc = k.idleProc := by
  unfold resetProcess at h
  split at h
  · cases h
  · cases h
    rfl

/-- A construction that is given up clears the slot. -/
theorem TurnStep.of_cleared {k k' : Kernel} {i : Fin procMax}
    (hold : (k.procs i).state = .unused ∨ (k.procs i).state = .zombie)
    (hprocs : k'.procs = Function.update k.procs i .unused)
    (hcur : k'.currentProc = k.currentProc) (hidle : k'.idleProc = k.idleProc) :
    TurnStep none k k' := by
  apply TurnStep.of_slot hcur hidle hprocs
  intro hnew
  apply TurnChange.gone hold
  rw [hnew]
  rfl

theorem TurnStep.of_reset {L : Layout} {k k' : Kernel} {i : Fin procMax} {proc : Process} {s : Phys}
    (hold : (k.procs i).state = .unused ∨ (k.procs i).state = .zombie)
    (h : resetProcess L k i proc s = .ok k') : TurnStep none k k' :=
  .of_cleared hold (resetProcess_ok h).1 (resetProcess_ok h).2 (resetProcess_idleProc h)

/-- The current process blocks. -/
theorem TurnStep.of_blocked {k : Kernel} {c : Fin procMax} (hc : k.currentProc = some c) :
    TurnStep (some c) k (k.setProc c { k.procs c with state := .blocked }) := by
  refine ⟨rfl, rfl, fun j => ?_⟩
  by_cases hj : j = c
  · subst hj
    refine .stopped .blocked hc rfl nofun ?_
    rw [Kernel.setProc_self]
    rfl
  · exact .of_eq (Kernel.setProc_other _ _ hj)

theorem stopped_blocked {k : Kernel} {c : Fin procMax} (hc : k.currentProc = some c) :
    (k.setProc c { k.procs c with state := .blocked }).stopped = true := by
  cases hrun : (k.setProc c { k.procs c with state := .blocked }).running with
  | none =>
      unfold Kernel.stopped
      rw [hrun]
      rfl
  | some i =>
      obtain ⟨hcur, hrunnable⟩ := Kernel.running_eq_some.mp hrun
      have hi : k.currentProc = some i := hcur
      rw [hc] at hi
      cases hi
      rw [Kernel.setProc_self] at hrunnable
      cases hrunnable

/-- A process without a parent, or a child of the current process. -/
theorem TurnStep.of_filled {k k' : Kernel} {i : Fin procMax} {p : Process}
    (priority parentPid : Int) (isUser : Bool) (hold : (k.procs i).state = .unused)
    (hturn : p.turn = ⟨slotPid i, .runnable, priority, priority, parentPid, isUser⟩)
    (hparent : (1 ≤ priority ∧ parentPid = 0) ∨ ∃ c, k.currentProc = some c ∧
      (k.procs c).isUser = true ∧ parentPid = (k.procs c).pid ∧ priority = (k.procs c).priority)
    (hprocs : k'.procs = Function.update k.procs i p)
    (hcur : k'.currentProc = k.currentProc) (hidle : k'.idleProc = k.idleProc) :
    TurnStep none k k' := by
  apply TurnStep.of_slot hcur hidle hprocs
  intro hnew
  apply TurnChange.filled priority parentPid isUser hold _ hparent
  rw [hnew]
  exact hturn

theorem createProcess_turn (k : Kernel) : TurnStep none k (createProcess k).2 := by
  unfold createProcess
  cases hslot : allocProcessSlot k.procs with
  | none => exact .refl k
  | some i =>
      have hold := allocProcessSlot_unused hslot
      exact .of_filled procPriorityMin 0 false hold rfl (Or.inl ⟨le_refl _, rfl⟩) rfl rfl rfl

/-- `proc_vm_init` writes the VMAs only. -/
theorem procVmInit_turn {L : Layout} {proc proc' : Process} {ok : Bool}
    (h : procVmInit L proc = (ok, proc')) : proc'.turn = proc.turn := by
  unfold procVmInit at h
  cases h
  rfl

variable {L : Layout}

theorem createUserProcess_turn {k k' : Kernel} {entryPc : Nat} {r : Option (Fin procMax)}
    (h : createUserProcess L entryPc k = .ok (r, k')) : TurnStep none k k' := by
  unfold createUserProcess at h
  cases hslot : allocProcessSlot k.procs with
  | none =>
      rw [hslot] at h
      cases h
      exact .refl k
  | some i =>
      have hold := allocProcessSlot_unused hslot
      rw [hslot] at h
      dsimp only at h
      split at h
      · -- no stack pages
        cases h
        exact .of_cleared (Or.inl hold) rfl rfl rfl
      · split at h
        · cases h
        · split at h
          · cases h
          · rename_i hreset
            cases h
            exact .of_reset (Or.inl hold) hreset
        · split at h
          · split at h
            · cases h
            · rename_i hreset
              cases h
              exact .of_reset (Or.inl hold) hreset
          · rename_i hinit
            cases h
            refine .of_filled procPriorityDef 0 true hold ?_ (Or.inl ⟨by decide, rfl⟩) rfl rfl rfl
            exact procVmInit_turn hinit

theorem procFork_turn {k k' : Kernel} {r : Option Int} (h : procFork L k = .ok (r, k')) :
    TurnStep none k k' := by
  unfold procFork at h
  cases hcur : k.currentProc with
  | none =>
      rw [hcur] at h
      cases h
      exact .refl k
  | some p =>
      rw [hcur] at h
      dsimp only at h
      split at h
      · cases h
        exact .refl k
      · rename_i hguard
        have huser : (k.procs p).isUser = true := by
          by_contra hno
          exact hguard (Or.inl hno)
        cases hslot : allocProcessSlot k.procs with
        | none =>
            rw [hslot] at h
            cases h
            exact .refl k
        | some i =>
            have hold := allocProcessSlot_unused hslot
            rw [hslot] at h
            dsimp only at h
            split at h
            · cases h
              exact .of_cleared (Or.inl hold) rfl hcur.symm rfl
            · split at h
              · cases h
              · split at h
                · cases h
                · rename_i hreset
                  cases h
                  exact .of_reset (Or.inl hold) hreset
              · split at h
                · split at h
                  · cases h
                  · rename_i hreset
                    cases h
                    exact .of_reset (Or.inl hold) hreset
                · split at h
                  · cases h
                  · split at h
                    · cases h
                    · rename_i hreset
                      cases h
                      exact .of_reset (Or.inl hold) hreset
                  · cases h
                    exact .of_filled _ _ true hold rfl (Or.inr ⟨p, hcur, huser, rfl, rfl⟩) rfl hcur.symm rfl

theorem procExit_idleProc (status : Int) (k : Kernel) :
    (procExit status k).idleProc = k.idleProc := by
  unfold procExit
  split
  · rfl
  · dsimp only
    split
    · rfl
    · split <;> rfl

theorem procExit_turn {k : Kernel} {c : Fin procMax} (status : Int) (hc : k.currentProc = some c) :
    TurnStep (some c) k (procExit status k) := by
  refine ⟨procExit_currentProc status k, procExit_idleProc status k, fun j => ?_⟩
  have hprocs := procExit_procs status hc
  by_cases hj : j = c
  · subst hj
    refine .stopped .zombie hc rfl nofun ?_
    rw [hprocs, exitTable_self]
    rfl
  · have hothers : exitTable k.procs c status j = k.procs j ∨ _ := exitTable_other status hj
    cases hothers with
    | inl heq =>
        apply TurnChange.of_eq
        rw [hprocs, heq]
    | inr hwoken =>
        apply TurnChange.woken hwoken.1
        rw [hprocs, hwoken.2]
        rfl

theorem procReapOrphanZombies_idleProc (k : Kernel) :
    Outcome (procReapOrphanZombies L k) (fun k' => k'.idleProc = k.idleProc) fun _ => True := by
  let same : List (Fin procMax) → Kernel → Prop := fun _ k' => k'.idleProc = k.idleProc
  have hstart : same (List.finRange procMax) k := rfl
  apply Outcome.foldlM _ k hstart
  intro i rest k₁ hk₁
  dsimp only
  split
  · exact hk₁
  · split
    · exact hk₁
    · cases hreap : reap L k₁ i with
      | error e => trivial
      | ok k₂ => exact (resetProcess_idleProc hreap).trans hk₁

theorem procReapOrphanZombies_turn {k k' : Kernel} (h : procReapOrphanZombies L k = .ok k') :
    TurnStep none k k' := by
  obtain ⟨hcur, hprocs⟩ := reapOrphans_fold _ rfl (fun _ => Or.inl rfl) h
  refine ⟨hcur, (procReapOrphanZombies_idleProc k).of_eq_ok h, fun j => ?_⟩
  cases hprocs j with
  | inl heq => exact .of_eq heq
  | inr hgone =>
      apply TurnChange.gone (Or.inr hgone.1.1)
      rw [hgone.2]
      rfl

theorem waitpidScan_idleProc {k k' : Kernel} {pid : Int} {self : Fin procMax} {r : WaitScan}
    (h : waitpidScan L pid self k = .ok (r, k')) : k'.idleProc = k.idleProc := by
  unfold waitpidScan at h
  split at h
  · split at h
    · cases h
    · rename_i hreap
      cases h
      exact resetProcess_idleProc hreap
  · split at h
    · cases h
      rfl
    · cases h
      rfl

/-- A pass of `proc_waitpid` returns to a process that can still run, or blocks it. -/
theorem waitpidStep_turn {k k' : Kernel} {c : Fin procMax} {pid : Int} {options : UInt32}
    (hc : k.currentProc = some c) (hrun : (k.procs c).state = .runnable)
    (h : waitpidStep L c pid options k = .ok k') :
    (TurnStep none k k' ∧ k'.stopped = false) ∨
      TurnStep (some c) k k' ∧ k'.stopped = true ∧ ∃ j, isChild k pid c j = true := by
  have hrunning : ∀ {k₁ : Kernel}, TurnStep none k k₁ → k₁.stopped = false := by
    intro k₁ hstep
    have hrun₁ : k₁.running = some c :=
      Kernel.running_eq_some.mpr ⟨hstep.cur.trans hc, hstep.runnable hrun nofun⟩
    unfold Kernel.stopped
    rw [hrun₁]
    rfl
  unfold waitpidStep at h
  split at h
  · cases h
    exact Or.inl ⟨.refl k, hrunning (.refl k)⟩
  · cases hscan : waitpidScan L pid c k with
    | error e =>
        rw [hscan] at h
        cases h
    | ok out =>
        obtain ⟨r, k₁⟩ := out
        rw [hscan] at h
        cases r with
        | noChild =>
            obtain ⟨hk, -⟩ := waitpidScan_none hscan fun _ _ hr => by cases hr
            cases h
            rw [hk]
            exact Or.inl ⟨.refl k, hrunning (.refl k)⟩
        | noZombie =>
            obtain ⟨hk, -, hchild⟩ := waitpidScan_none hscan fun _ _ hr => by cases hr
            dsimp only at h
            rw [hk] at h
            split at h
            · cases h
              exact Or.inl ⟨.refl k, hrunning (.refl k)⟩
            · cases h
              exact Or.inr ⟨.of_blocked hc, stopped_blocked hc, hchild.mp rfl⟩
        | reaped rpid status =>
            cases h
            have hstep : TurnStep none k k' := by
              obtain ⟨i, -, hzombie, -, -, hprocs, hcur⟩ := waitpidScan_reaped hscan
              refine .of_cleared (Or.inr hzombie) hprocs hcur ?_
              exact waitpidScan_idleProc hscan
            exact Or.inl ⟨hstep, hrunning hstep⟩

theorem waitqWake_turn (q : Nat) (s : SchedSys) :
    TurnStep none s.kernel (waitqWake q s).kernel := by
  obtain ⟨hwoken, -⟩ := waitqWakeAll_spec (s.waitqs q) fun i => (s.kernel.procs i).state
  refine ⟨rfl, rfl, fun j => ?_⟩
  have hturn : ∀ state, (waitqWakeAll (s.waitqs q) fun i => (s.kernel.procs i).state).2 j = state →
      ((waitqWake q s).kernel.procs j).turn = { (s.kernel.procs j).turn with state := state } := by
    intro state hstate
    subst hstate
    rfl
  cases hwoken j with
  | inl heq => exact .same (hturn _ heq)
  | inr hwake => exact .woken hwake.1 (hturn _ hwake.2)

/-! ## The scheduler's own step -/

theorem payTurn_turn (c : Fin procMax) (k : Kernel) (j : Fin procMax) :
    ((payTurn c k).procs j).turn =
      { (k.procs j).turn with budget := ((payTurn c k).procs j).budget } := by
  unfold payTurn
  split
  · by_cases hj : j = c
    · subst hj
      rw [Kernel.setProc_self]
      rfl
    · rw [Kernel.setProc_other _ _ hj]
      rfl
  · rfl

theorem payTurn_idleProc (c : Fin procMax) (k : Kernel) :
    (payTurn c k).idleProc = k.idleProc := by
  unfold payTurn
  split <;> rfl

/-- A turn costs one unit of a budget that has one. -/
theorem payTurn_budget (c : Fin procMax) (k : Kernel) (j : Fin procMax) :
    ((payTurn c k).procs j).budget = (k.procs j).budget ∨
      (k.procs j).state = .runnable ∧ 0 < (k.procs j).budget ∧
        ((payTurn c k).procs j).budget = (k.procs j).budget - 1 := by
  unfold payTurn
  split
  · rename_i heligible
    obtain ⟨⟨hrunnable, -⟩, hbudget⟩ := isEligibleForPick_eq_true.mp heligible
    by_cases hj : j = c
    · subst hj
      rw [Kernel.setProc_self]
      exact Or.inr ⟨hrunnable, hbudget, rfl⟩
    · rw [Kernel.setProc_other _ _ hj]
      exact Or.inl rfl
  · exact Or.inl rfl

/-- What the scheduler may write: budgets, within bounds. -/
theorem TurnInv.rebudget {k k' : Kernel} (h : TurnInv k) (hidle : k'.idleProc = k.idleProc)
    (hturn : ∀ j, (k.procs j).state ≠ .unused →
      (k'.procs j).turn = { (k.procs j).turn with budget := (k'.procs j).budget })
    (hstate : ∀ j, (k'.procs j).state = (k.procs j).state)
    (hbudget : ∀ j, (k.procs j).state ≠ .unused →
      0 ≤ (k'.procs j).budget ∧ (k'.procs j).budget ≤ (k.procs j).priority) : TurnInv k' := by
  obtain ⟨i, hi, hrunnable, huser, hparents⟩ := h.idle
  have hiused : (k.procs i).state ≠ .unused := by
    rw [hrunnable]
    exact nofun
  refine ⟨⟨i, hidle.trans hi, (hstate i).trans hrunnable, ?_, fun j hj => ?_⟩, fun j hj => ?_,
    fun j hj => ?_⟩
  · exact (congrArg TurnFields.isUser (hturn i hiused)).trans huser
  · rw [hstate j] at hj
    have hparent : (k'.procs j).parentPid = (k.procs j).parentPid :=
      congrArg TurnFields.parentPid (hturn j hj)
    rw [hparent]
    exact hparents j hj
  · rw [hstate j] at hj
    have hpid : (k'.procs j).pid = (k.procs j).pid := congrArg TurnFields.pid (hturn j hj)
    rw [hpid]
    exact h.pids j hj
  · rw [hstate j] at hj
    have hpriority : (k'.procs j).priority = (k.procs j).priority :=
      congrArg TurnFields.priority (hturn j hj)
    rw [hpriority]
    obtain ⟨hzero, hle⟩ := hbudget j hj
    exact ⟨hzero, hle, (h.budgets j hj).2.2⟩

theorem TurnInv.payTurn {k : Kernel} (h : TurnInv k) (c : Fin procMax) :
    TurnInv (payTurn c k) := by
  apply h.rebudget (payTurn_idleProc c k) (fun j _ => payTurn_turn c k j)
    (fun j => congrArg TurnFields.state (payTurn_turn c k j))
  intro j hj
  obtain ⟨hzero, hle, -⟩ := h.budgets j hj
  cases payTurn_budget c k j with
  | inl heq =>
      rw [heq]
      exact ⟨hzero, hle⟩
  | inr hpaid =>
      obtain ⟨-, hpos, heq⟩ := hpaid
      rw [heq]
      omega

/-- A refill gives every process that can run its priority. -/
theorem TurnInv.refilled {k : Kernel} (h : TurnInv k) (j : Fin procMax) :
    (refillBudgets k).procs j =
      if (k.procs j).state = .runnable then { k.procs j with budget := (k.procs j).priority }
      else k.procs j := by
  change refillBudget (k.procs j) = _
  unfold refillBudget
  by_cases hrunnable : (k.procs j).state = .runnable
  · have hused : (k.procs j).state ≠ .unused := by
      rw [hrunnable]
      exact nofun
    have hpriority : ¬ (k.procs j).priority < 1 := not_lt.mpr (h.budgets j hused).2.2
    rw [if_pos (isSchedulable_eq_true.mpr ⟨hrunnable, h.pids.pos j hused⟩), if_pos hrunnable,
      if_neg hpriority]
  · rw [if_neg hrunnable, if_neg]
    intro hyes
    exact hrunnable (isSchedulable_eq_true.mp hyes).1

theorem TurnInv.refillBudgets {k : Kernel} (h : TurnInv k) : TurnInv (refillBudgets k) := by
  have hprocs := h.refilled
  have hidle : (Proc.refillBudgets k).idleProc = k.idleProc := rfl
  apply h.rebudget hidle
  · intro j hj
    rw [hprocs j]
    split <;> rfl
  · intro j
    rw [hprocs j]
    split <;> rfl
  · intro j hj
    rw [hprocs j]
    obtain ⟨hzero, hle, hpriority⟩ := h.budgets j hj
    split
    · exact ⟨by dsimp only; omega, le_refl _⟩
    · exact ⟨hzero, hle⟩

theorem switchTo_procs (next : Fin procMax) (k : Kernel) : (switchTo next k).procs = k.procs := by
  unfold switchTo
  split <;> rfl

theorem switchTo_idleProc (next : Fin procMax) (k : Kernel) :
    (switchTo next k).idleProc = k.idleProc := by
  unfold switchTo
  split <;> rfl

theorem switchTo_currentProc (next : Fin procMax) (k : Kernel) :
    (switchTo next k).currentProc = some next := by
  unfold switchTo
  split
  · assumption
  · rfl

theorem TurnInv.switchTo {k : Kernel} (h : TurnInv k) (next : Fin procMax) :
    TurnInv (switchTo next k) := by
  have hprocs := switchTo_procs next k
  have hidle := switchTo_idleProc next k
  refine ⟨?_, ?_, ?_⟩
  · rw [hidle, hprocs]
    exact h.idle
  · rw [hprocs]
    exact h.pids
  · rw [hprocs]
    exact h.budgets

/-- Some process has budget after a refill: the idle process can run. -/
theorem TurnInv.not_exhausted {k : Kernel} (h : TurnInv k) :
    ¬ Exhausted (Proc.refillBudgets k).procs := by
  obtain ⟨i, -, hrunnable, -, -⟩ := h.idle
  have hused : (k.procs i).state ≠ .unused := by
    rw [hrunnable]
    exact nofun
  have hfull : (Proc.refillBudgets k).procs i = { k.procs i with budget := (k.procs i).priority } :=
    (h.refilled i).trans (if_pos hrunnable)
  intro hexhausted
  have hle := hexhausted i
  rw [hfull] at hle
  have hpriority := (h.budgets i hused).2.2
  exact absurd (hle hrunnable) (by dsimp only; omega)

/-- The processor goes to the foremost process, after a refill if there is none. -/
theorem TurnInv.yield {k : Kernel} {c : Fin procMax} (h : TurnInv k)
    (hc : k.currentProc = some c) :
    TurnInv (Proc.yield k) ∧ ∃ next, Yields k (Proc.yield k) c next := by
  have hpaid := h.payTurn c
  have hstates : ∀ j, ((Proc.payTurn c k).procs j).state = (k.procs j).state := fun j =>
    congrArg TurnFields.state (payTurn_turn c k j)
  unfold Proc.yield
  rw [hc]
  dsimp only
  cases pickNextRunnableIndex_spec hpaid.pids.pos c with
  | inr hpicked =>
      obtain ⟨next, hnext, hforemost⟩ := hpicked
      have hprocs := switchTo_procs next (Proc.payTurn c k)
      rw [hnext]
      dsimp only
      refine ⟨hpaid.switchTo next, next, switchTo_currentProc .., fun j => ?_, fun _ => hprocs,
        fun hexhausted => ?_, ?_⟩
      · rw [hprocs]
        exact hstates j
      · exact absurd (hexhausted next hforemost.runnable) (not_le.mpr hforemost.budget)
      · rw [hprocs]
        exact hforemost
  | inl hnobody =>
      obtain ⟨hnone, hexhausted⟩ := hnobody
      have hfull := hpaid.refillBudgets
      rw [hnone]
      dsimp only
      cases pickNextRunnableIndex_spec hfull.pids.pos c with
      | inl hnobody => exact absurd hnobody.2 hpaid.not_exhausted
      | inr hpicked =>
          obtain ⟨next, hnext, hforemost⟩ := hpicked
          have hprocs := switchTo_procs next (Proc.refillBudgets (Proc.payTurn c k))
          rw [hnext]
          dsimp only
          refine ⟨hfull.switchTo next, next, switchTo_currentProc .., fun j => ?_,
            fun hno => absurd hexhausted hno, fun _ j => ?_, ?_⟩
          · rw [hprocs, ← hstates j, hpaid.refilled j]
            split <;> rfl
          · rw [hprocs, ← hstates j, hpaid.refilled j]
            split
            · exact congrArg TurnFields.priority (payTurn_turn c k j)
            · rename_i hno
              rw [hstates j] at hno
              cases payTurn_budget c k j with
              | inl heq => exact heq
              | inr hpay => exact absurd hpay.1 hno
          · rw [hprocs]
            exact hforemost

/-! ## The whole run -/

/-- The invariant of a run. -/
structure SchedInv (s : SchedSys) : Prop where
  turns : TurnInv s.kernel
  current : ∃ c, s.kernel.currentProc = some c ∧
    (s.yielding = false → (s.kernel.procs c).state = .runnable)

/-- A call with the processor kept, or given up by `yield` next. -/
structure CallStep (c : Fin procMax) (s s' : SchedSys) : Prop where
  before : s.yielding = false
  turn : ∃ stopper, TurnStep stopper s.kernel s'.kernel ∧
    (s'.yielding = false → stopper = none) ∧ ∀ i, s.kernel.idleProc = some i → stopper ≠ some i

/-- A call that stops nobody. -/
theorem CallStep.of_none {c : Fin procMax} {s s' : SchedSys} (hs : s.yielding = false)
    (h : TurnStep none s.kernel s'.kernel) : CallStep c s s' :=
  ⟨hs, none, h, fun _ => rfl, fun _ _ => nofun⟩

/-- Every step is a call or the `yield`. -/
theorem SchedInv.cases {s s' : SchedSys} {c : Fin procMax} (h : SchedInv s)
    (hc : s.kernel.currentProc = some c) (hstep : SchedStep L s s') :
    CallStep c s s' ∨ s' = { s with kernel := Proc.yield s.kernel, yielding := false } := by
  have hrun : s.yielding = false → (s.kernel.procs c).state = .runnable := by
    obtain ⟨c', hc', hrun⟩ := h.current
    rw [hc] at hc'
    cases hc'
    exact hrun
  cases hstep with
  | createProcess hs => exact Or.inl (.of_none hs (createProcess_turn s.kernel))
  | createUserProcess entryPc hs hcall => exact Or.inl (.of_none hs (createUserProcess_turn hcall))
  | fork hs hcall => exact Or.inl (.of_none hs (procFork_turn hcall))
  | exit status hs hcur hidle =>
      left
      refine ⟨hs, some _, procExit_turn status hcur, nofun, fun i hi heq => ?_⟩
      cases heq
      exact hidle hi
  | waitpid pid options hs hcur hcall =>
      left
      rw [hc] at hcur
      cases hcur
      cases waitpidStep_turn hc (hrun hs) hcall with
      | inl hreturned => exact .of_none hs hreturned.1
      | inr hblocked =>
          obtain ⟨hturn, hstopped, j, hchild⟩ := hblocked
          obtain ⟨hused, hparent, -⟩ := isChild_eq_true.mp hchild
          refine ⟨hs, some c, hturn, fun hno => ?_, fun i hi heq => ?_⟩
          · have hyes : _ = false := hno
            rw [hstopped] at hyes
            cases hyes
          · -- nobody is the child of the idle process
            cases heq
            obtain ⟨i, hi', -, -, hparents⟩ := h.turns.idle
            rw [hi'] at hi
            cases hi
            have hcused : (s.kernel.procs c).state ≠ .unused := by
              rw [hrun hs]
              exact nofun
            exact hparents j hused (hparent.trans (h.turns.pids c hcused))
  | reapOrphans hs hcall => exact Or.inl (.of_none hs (procReapOrphanZombies_turn hcall))
  | sleep q hs =>
      left
      unfold waitqSleep
      rw [hc]
      dsimp only
      split
      · exact .of_none hs (.refl s.kernel)
      · rename_i hidle
        refine ⟨hs, some c, .of_blocked hc, nofun, fun i hi heq => ?_⟩
        cases heq
        exact hidle hi
  | wakeAll q hs => exact Or.inl (.of_none hs (waitqWake_turn q s))
  | yield => exact Or.inr rfl
  | resume hs hcur =>
      left
      rw [hc] at hcur
      cases hcur
      apply CallStep.of_none hs
      refine ⟨rfl, rfl, fun j => ?_⟩
      by_cases hj : j = c
      · subst hj
        apply TurnChange.same
        rw [Kernel.setProc_self]
        change TurnFields.mk _ ProcState.runnable _ _ _ _ = TurnFields.mk _ _ _ _ _ _
        rw [hrun hs]
      · exact .of_eq (Kernel.setProc_other _ _ hj)
  | other k hs hturn hcur hidle =>
      left
      apply CallStep.of_none hs
      exact ⟨hcur, hidle, fun j => .same (hturn j)⟩

theorem SchedInv.step {s s' : SchedSys} (h : SchedInv s) (hstep : SchedStep L s s') :
    SchedInv s' := by
  obtain ⟨c, hc, hrun⟩ := h.current
  cases h.cases hc hstep with
  | inl hcall =>
      obtain ⟨stopper, hturn, hgoes, hidle⟩ := hcall.turn
      have hrunnable := hrun hcall.before
      refine ⟨h.turns.step hc hrunnable hturn hidle, c, hturn.cur.trans hc, fun hs' => ?_⟩
      apply hturn.runnable hrunnable
      rw [hgoes hs']
      exact nofun
  | inr hyield =>
      subst hyield
      obtain ⟨hturns, next, hyields⟩ := h.turns.yield hc
      exact ⟨hturns, next, hyields.current, fun _ => hyields.foremost.runnable⟩

theorem SchedInv.boot {mem : Memory} {mmu : Mmu} {k : Kernel} (h : boot L mem mmu = some k) :
    SchedInv ⟨k, fun _ _ => none, false⟩ := by
  obtain ⟨satp, s, -, rfl⟩ := boot_some h
  have hslot : ∀ j : Fin procMax, j ≠ 0 →
      ((startIdle (createProcess (bootKernel satp s))).procs j) = .unused := by
    intro j hj
    exact Function.update_of_ne hj ..
  have hused : ∀ j : Fin procMax,
      ((startIdle (createProcess (bootKernel satp s))).procs j).state ≠ .unused → j = 0 := by
    intro j hj
    by_contra hne
    rw [hslot j hne] at hj
    exact hj rfl
  refine ⟨⟨⟨0, rfl, rfl, rfl, fun j hj => ?_⟩, fun j hj => ?_, fun j hj => ?_⟩, 0, rfl, fun _ => rfl⟩
  · rw [hused j hj]
    exact (slotPid_pos 0).ne
  · rw [hused j hj]
    rfl
  · rw [hused j hj]
    exact ⟨Int.zero_le_ofNat 1, le_refl _, le_refl _⟩

theorem SchedReachable.inv {s : SchedSys} (h : SchedReachable L s) : SchedInv s := by
  induction h with
  | boot hboot => exact .boot hboot
  | step hs hstep ih => exact ih.step hstep

/-- A zombie in a slot that is kept stays a zombie. -/
theorem SchedInv.zombie {s s' : SchedSys} (h : SchedInv s) {j : Fin procMax}
    (hstep : StepKeeping L j s s') (hj : (s.kernel.procs j).state = .zombie) :
    (s'.kernel.procs j).state = .zombie := by
  obtain ⟨c, hc, hrun⟩ := h.current
  cases h.cases hc hstep.1 with
  | inl hcall =>
      obtain ⟨stopper, hturn, -, -⟩ := hcall.turn
      cases hturn.slots j with
      | same turn => exact (congrArg TurnFields.state turn).trans hj
      | woken old turn =>
          rw [hj] at old
          cases old
      | stopped state cur stops used turn =>
          -- only the current process stops, and it can run
          rw [hc] at cur
          cases cur
          rw [hrun hcall.before] at hj
          cases hj
      | gone old new => exact absurd new hstep.2
      | filled priority parentPid isUser old turn parent =>
          rw [hj] at old
          cases old
  | inr hyield =>
      subst hyield
      obtain ⟨-, next, hyields⟩ := h.turns.yield hc
      exact (hyields.states j).trans hj

theorem SchedInv.zombies {s s' : SchedSys} (h : SchedInv s) {j : Fin procMax}
    (hrun : Relation.ReflTransGen (StepKeeping L j) s s')
    (hj : (s.kernel.procs j).state = .zombie) :
    SchedInv s' ∧ (s'.kernel.procs j).state = .zombie := by
  induction hrun with
  | refl => exact ⟨h, hj⟩
  | tail _ hstep ih => exact ⟨ih.1.step hstep.1, ih.1.zombie hstep ih.2⟩

/-- In every state of every run the scheduler only runs processes that can run,
picks the foremost one, and keeps the budgets in bounds. -/
theorem scheduler_runs_runnable {s : SchedSys} (hs : SchedReachable L s) : Scheduled L s := by
  have h := hs.inv
  obtain ⟨c, hc, hrun⟩ := h.current
  obtain ⟨-, next, hyields⟩ := h.turns.yield hc
  refine ⟨h.current, ⟨c, next, hc, hyields⟩, fun s' j hstep hj hother => ?_,
    fun s' j hj hkept => ?_, h.turns.budgets⟩
  · cases h.cases hc hstep with
    | inl hcall =>
        obtain ⟨stopper, hturn, -, -⟩ := hcall.turn
        rw [hturn.cur] at hj
        exact absurd hj hother
    | inr hyield =>
        subst hyield
        have hnext : some next = some j := hyields.current.symm.trans hj
        cases hnext
        exact (hyields.states next).symm.trans hyields.foremost.runnable
  · obtain ⟨h', hzombie⟩ := h.zombies hkept hj
    refine ⟨hzombie, fun hs' hcur => ?_⟩
    obtain ⟨c', hc', hrun'⟩ := h'.current
    rw [hcur] at hc'
    cases hc'
    rw [hrun' hs'] at hzombie
    cases hzombie

/-- The small machine: the idle process creates a process and yields to it, and that
process goes to sleep. -/
def smallSched : Option SchedSys :=
  smallBoot.bind fun k =>
    match createUserProcess smallLayout smallEntry.toNat k with
    | .error _ => none
    | .ok (_, k) => some (waitqSleep 0 ⟨yield k, fun _ _ => none, false⟩)

theorem smallSched_reachable {s : SchedSys} (h : smallSched = some s) :
    SchedReachable smallLayout s := by
  obtain ⟨k, hk, hrest⟩ := Option.bind_eq_some_iff.mp h
  have hboot : SchedReachable smallLayout _ := .boot hk
  cases hcall : createUserProcess smallLayout smallEntry.toNat k with
  | error e =>
      rw [hcall] at hrest
      cases hrest
  | ok out =>
      rw [hcall] at hrest
      cases hrest
      have hcreated := hboot.step (.createUserProcess smallEntry.toNat rfl hcall)
      exact (hcreated.step (.yield _)).step (.sleep 0 rfl)

theorem scheduler_runs_runnable_small :
    ∃ s, smallSched = some s ∧ s.kernel.currentProc = some 1 ∧ s.yielding = true ∧
      Scheduled smallLayout s := by
  have hsome : smallSched.any (fun s =>
      decide (s.kernel.currentProc = some 1) && s.yielding) = true := by
    decide +kernel
  obtain ⟨s, hs, hvals⟩ := (Option.any_eq_true _ _).mp hsome
  rw [Bool.and_eq_true, decide_eq_true_eq] at hvals
  exact ⟨s, hs, hvals.1, hvals.2, scheduler_runs_runnable (smallSched_reachable hs)⟩

end Sugimotos.Proc
