/-
# Parents and children

A process names its parent by pid, and a pid is a slot number that the next
process in the slot gets again.  The lineage kept beside a run numbers the
incarnations of every slot and records which incarnation forked a process.
`proc_exit` leaves the children of the exiting process as they are, so the link
is right only as long as no process exits before its children are reaped.
-/

import Sugimotos.Proc.Life

namespace Sugimotos.Proc

open Sugimotos.Mm

/-- Who is in each slot, and who created it.  Incarnations are numbered in the
order of creation. -/
structure Lineage where
  born : Nat
  incarnation : Fin procMax → Nat
  forkedBy : Fin procMax → Nat

/-- The lineage at boot: the idle process has number 0. -/
def Lineage.init : Lineage := ⟨1, fun _ => 0, fun _ => 0⟩

/-- Whether a call filled a free slot. -/
def filled (k k' : Kernel) (j : Fin procMax) : Prop :=
  (k.procs j).state = .unused ∧ (k'.procs j).state ≠ .unused

instance (k k' : Kernel) (j : Fin procMax) : Decidable (filled k k' j) :=
  inferInstanceAs (Decidable (_ ∧ _))

/-- The lineage after a call: a filled slot gets the next number, and the current
process is recorded as its creator. -/
def Lineage.after (g : Lineage) (k k' : Kernel) : Lineage where
  born := g.born + 1
  incarnation j := if filled k k' j then g.born else g.incarnation j
  forkedBy j :=
    if filled k k' j then (k.currentProc.map g.incarnation).getD 0 else g.forkedBy j

/-- The states of a run whose steps all meet the condition `ok`. -/
inductive LineageReachable (L : Layout) (ok : Kernel → Kernel → Prop) : Kernel → Lineage → Prop
  | boot {mem mmu k} (h : boot L mem mmu = some k) : LineageReachable L ok k .init
  | step {k k' g} (op : Op) (hk : LineageReachable L ok k g) (hop : enabled k op = true)
      (h : step L op k = .ok k') (hok : ok k k') : LineageReachable L ok k' (g.after k k')

/-- The parent of the process in slot `j` is still the incarnation that forked it. -/
def TrueParent (k : Kernel) (g : Lineage) (j p : Fin procMax) : Prop :=
  findProcessByPid k.procs (k.procs j).parentPid = some p ∧ g.incarnation p = g.forkedBy j

/-- Parentage is never misattributed. -/
structure Sound (k : Kernel) (g : Lineage) : Prop where
  parents : ∀ j, (k.procs j).state ≠ .unused → (k.procs j).isUser = true →
    (k.procs j).parentPid ≠ 0 → ∃ p, TrueParent k g j p
  reaps : ∀ self pid i, k.running = some self → isChild k pid self i = true →
    (k.procs i).state = .zombie → TrueParent k g i self
  zombies : ∀ j, (k.procs j).state = .zombie → (k.procs j).isUser = true →
    (k.procs j).parentPid = 0 ∨
      ∃ p, TrueParent k g j p ∧ (k.procs p).state ≠ .unused ∧ (k.procs p).state ≠ .zombie

/-- A step in which the current process exits finds it without children. -/
def ChildlessExit (k k' : Kernel) : Prop :=
  ∀ i, k.running = some i → (k'.procs i).state = .zombie →
    ∀ j, (k.procs j).state ≠ .unused → (k.procs j).parentPid ≠ (k.procs i).pid

/-! ## The invariant -/

/-- The pid of every process in use is that of its slot. -/
def PidsOk (procs : Fin procMax → Process) : Prop :=
  ∀ j, (procs j).state ≠ .unused → (procs j).pid = slotPid j

/-- Every forked process has a live parent, the one that forked it. -/
def ParentsOk (k : Kernel) (g : Lineage) : Prop :=
  ∀ j, (k.procs j).state ≠ .unused → (k.procs j).parentPid ≠ 0 →
    ∃ p, (k.procs j).parentPid = slotPid p ∧ (k.procs p).state ≠ .unused ∧
      (k.procs p).state ≠ .zombie ∧ g.incarnation p = g.forkedBy j

theorem slotPid_inj {i j : Fin procMax} (h : slotPid i = slotPid j) : i = j := by
  unfold slotPid at h
  exact Fin.ext (by omega)

theorem slotPid_pos (i : Fin procMax) : 0 < slotPid i := by
  unfold slotPid
  omega

/-- With pids that are slot numbers, looking up a pid finds its slot. -/
theorem PidsOk.find {procs : Fin procMax → Process} (h : PidsOk procs) {p : Fin procMax}
    (hp : (procs p).state ≠ .unused) : findProcessByPid procs (slotPid p) = some p := by
  unfold findProcessByPid
  cases hfind : (List.finRange procMax).find? fun i =>
      decide ((procs i).state ≠ .unused) && decide ((procs i).pid = slotPid p) with
  | none =>
      have hno := List.find?_eq_none.mp hfind p (List.mem_finRange p)
      simp [hp, h p hp] at hno
  | some q =>
      have hq := List.find?_some hfind
      simp only [Bool.and_eq_true, decide_eq_true_eq] at hq
      rw [slotPid_inj ((h q hq.1).symm.trans hq.2)]

/-- What a call leaves of a slot that was in use: its pid and its parent. -/
theorem Change.keeps {status : Int} {k k' : Kernel} (h : Change status k k') {j : Fin procMax}
    (hold : (k.procs j).state ≠ .unused) (hnew : (k'.procs j).state ≠ .unused) :
    (k'.procs j).pid = (k.procs j).pid ∧ (k'.procs j).parentPid = (k.procs j).parentPid := by
  cases h.slot j with
  | same life vmas => exact ⟨congrArg Life.pid life, congrArg Life.parentPid life⟩
  | woken old new =>
      rw [new]
      exact ⟨rfl, rfl⟩
  | blocked old new =>
      rw [new]
      exact ⟨rfl, rfl⟩
  | filled parentPid isUser fds old life others parent => exact absurd old hold
  | cleared old new => exact absurd old hold
  | died running procs =>
      rw [died_self procs]
      exact ⟨rfl, rfl⟩
  | reaped old new =>
      rw [new] at hnew
      exact absurd rfl hnew

/-- What fills a free slot: a process without a parent, or a child of the running
process. -/
theorem Change.filled {status : Int} {k k' : Kernel} (h : Change status k k') {j : Fin procMax}
    (hfill : filled k k' j) : (k'.procs j).pid = slotPid j ∧
      ((k'.procs j).parentPid = 0 ∨ ∃ p, k.running = some p ∧
        (k'.procs j).parentPid = (k.procs p).pid ∧ (k'.procs p).state = (k.procs p).state) := by
  obtain ⟨hold, hnew⟩ := hfill
  cases h.slot j with
  | same life vmas => exact absurd ((congrArg Life.state life).trans hold) hnew
  | woken old new =>
      rw [old] at hold
      cases hold
  | blocked old new =>
      rw [(Kernel.running_eq_some.mp old).2] at hold
      cases hold
  | filled parentPid isUser fds old life others parent =>
      have hpid : (k'.procs j).parentPid = parentPid := congrArg Life.parentPid life
      refine ⟨congrArg Life.pid life, ?_⟩
      rw [hpid]
      rcases parent with ⟨hzero, -⟩ | ⟨p, hrun, hparent, -⟩
      · exact Or.inl hzero
      · have hp : p ≠ j := by
          rintro rfl
          rw [(Kernel.running_eq_some.mp hrun).2] at old
          cases old
        exact Or.inr ⟨p, hrun, hparent, by rw [others p hp]⟩
  | cleared old new =>
      rw [new] at hnew
      exact absurd rfl hnew
  | died running procs =>
      rw [(Kernel.running_eq_some.mp running).2] at hold
      cases hold
  | reaped old new =>
      rw [new] at hnew
      exact absurd rfl hnew

/-- A process that can wait stays one, unless it is the one that exits. -/
theorem Change.alive {status : Int} {k k' : Kernel} (h : Change status k k') {p : Fin procMax}
    (hused : (k.procs p).state ≠ .unused) (hlive : (k.procs p).state ≠ .zombie) :
    (k'.procs p).state ≠ .unused ∧
      ((k'.procs p).state = .zombie → k.running = some p) := by
  cases h.slot p with
  | same life vmas =>
      have hstate : (k'.procs p).state = (k.procs p).state := congrArg Life.state life
      rw [hstate]
      exact ⟨hused, fun hz => absurd hz hlive⟩
  | woken old new =>
      rw [new]
      exact ⟨nofun, nofun⟩
  | blocked old new =>
      rw [new]
      exact ⟨nofun, nofun⟩
  | filled parentPid isUser fds old life others parent => exact absurd old hused
  | cleared old new => exact absurd old hused
  | died running procs =>
      rw [died_self procs]
      exact ⟨nofun, fun _ => running⟩
  | reaped old new => exact absurd old.1 hlive

theorem PidsOk.change {status : Int} {k k' : Kernel} (hpids : PidsOk k.procs) (h : Change status k k') :
    PidsOk k'.procs := by
  intro j hj
  by_cases hold : (k.procs j).state = .unused
  · exact (h.filled ⟨hold, hj⟩).1
  · rw [(h.keeps hold hj).1]
    exact hpids j hold

/-- A call keeps the parents right if an exiting process has no children. -/
theorem ParentsOk.change {status : Int} {k k' : Kernel} {g : Lineage} (hpids : PidsOk k.procs)
    (hparents : ParentsOk k g) (h : Change status k k') (hok : ChildlessExit k k') :
    ParentsOk k' (g.after k k') := by
  intro j hj hparent
  by_cases hold : (k.procs j).state = .unused
  · -- a new process: its parent is the running process that forked it
    rcases (h.filled ⟨hold, hj⟩).2 with hzero | ⟨p, hrun, hpid, hstate⟩
    · exact absurd hzero hparent
    · obtain ⟨hcur, hrunnable⟩ := Kernel.running_eq_some.mp hrun
      have hp : (k.procs p).state ≠ .unused := by
        rw [hrunnable]
        decide
      refine ⟨p, hpid.trans (hpids p hp), ?_, ?_, ?_⟩
      · rw [hstate]
        exact hp
      · rw [hstate, hrunnable]
        decide
      · simp only [Lineage.after]
        rw [if_neg fun hfill => hp hfill.1, if_pos ⟨hold, hj⟩, hcur]
        rfl
  · -- an old one: its parent has not exited in this step
    have hkeep := (h.keeps hold hj).2
    rw [hkeep] at hparent ⊢
    obtain ⟨p, hpid, hused, hlive, hinc⟩ := hparents j hold hparent
    obtain ⟨hused', hzombie⟩ := h.alive hused hlive
    refine ⟨p, hpid, hused', ?_, ?_⟩
    · intro hz
      refine hok p (hzombie hz) hz j hold ?_
      rw [hpid]
      exact (hpids p hused).symm
    · simp only [Lineage.after]
      rw [if_neg fun hfill => hused hfill.1, if_neg fun hfill => hold hfill.1]
      exact hinc

/-! ## Runs -/

/-- At boot there is one process, and it has no parent. -/
theorem boot_parents {L : Layout} {mem : Memory} {mmu : Mmu} {k : Kernel}
    (h : boot L mem mmu = some k) : PidsOk k.procs ∧ ParentsOk k .init := by
  obtain ⟨satp, s, -, rfl⟩ := boot_some h
  have hchange := createProcess_change 0 (bootKernel satp s)
  have hfill : ∀ j, ((startIdle (createProcess (bootKernel satp s))).procs j).state ≠ .unused →
      filled (bootKernel satp s) (createProcess (bootKernel satp s)).2 j := fun j hj => ⟨rfl, hj⟩
  refine ⟨fun j hj => (hchange.filled (hfill j hj)).1, fun j hj hparent => ?_⟩
  rcases (hchange.filled (hfill j hj)).2 with hzero | ⟨p, hrun, -⟩
  · exact absurd hzero hparent
  · cases (Kernel.running_eq_some.mp hrun).1

theorem LineageReachable.parents {L : Layout} {k : Kernel} {g : Lineage}
    (h : LineageReachable L ChildlessExit k g) : PidsOk k.procs ∧ ParentsOk k g := by
  induction h with
  | boot hboot => exact boot_parents hboot
  | step op hk hop hstep hok ih =>
      have hchange := step_change op hstep
      exact ⟨ih.1.change hchange, ih.2.change ih.1 hchange hok⟩

/-- In every run in which no process exits before its children have been reaped,
parentage is right in every state. -/
theorem parentage_sound {L : Layout} {k : Kernel} {g : Lineage}
    (h : LineageReachable L ChildlessExit k g) : Sound k g := by
  obtain ⟨hpids, hparents⟩ := h.parents
  have htrue : ∀ j, (k.procs j).state ≠ .unused → (k.procs j).parentPid ≠ 0 →
      ∃ p, TrueParent k g j p ∧ (k.procs p).state ≠ .unused ∧ (k.procs p).state ≠ .zombie ∧
        (k.procs j).parentPid = slotPid p := by
    intro j hj hparent
    obtain ⟨p, hpid, hused, hlive, hinc⟩ := hparents j hj hparent
    exact ⟨p, ⟨by rw [hpid]; exact hpids.find hused, hinc⟩, hused, hlive, hpid⟩
  constructor
  · intro j hj _ hparent
    obtain ⟨p, hp, -⟩ := htrue j hj hparent
    exact ⟨p, hp⟩
  · intro self pid i hrun hchild hzombie
    obtain ⟨hused, hparent, -⟩ := isChild_eq_true.mp hchild
    have hself : (k.procs self).state ≠ .unused := by
      rw [(Kernel.running_eq_some.mp hrun).2]
      decide
    rw [hpids self hself] at hparent
    obtain ⟨p, hp, -, -, hpid⟩ := htrue i hused (by rw [hparent]; exact (slotPid_pos self).ne')
    rw [slotPid_inj (hparent.symm.trans hpid)]
    exact hp
  · intro j hzombie _
    by_cases hparent : (k.procs j).parentPid = 0
    · exact Or.inl hparent
    · obtain ⟨p, hp, hused, hlive, -⟩ := htrue j (by rw [hzombie]; decide) hparent
      exact Or.inr ⟨p, hp, hused, hlive⟩

/-! ## Runs of the small machine -/

/-- A list of operations, each of which can happen and whose outcome passes the
check, with the lineage. -/
def lineageRun (L : Layout) (check : Kernel → Kernel → Bool) :
    List Op → Kernel × Lineage → Option (Kernel × Lineage)
  | [], kg => some kg
  | op :: ops, (k, g) =>
      if enabled k op then
        match step L op k with
        | .ok k' => if check k k' then lineageRun L check ops (k', g.after k k') else none
        | .error _ => none
      else none

theorem LineageReachable.run {L : Layout} {ok : Kernel → Kernel → Prop}
    {check : Kernel → Kernel → Bool} (hcheck : ∀ k k', check k k' = true → ok k k') {ops : List Op}
    {k k' : Kernel} {g g' : Lineage} (hk : LineageReachable L ok k g)
    (h : lineageRun L check ops (k, g) = some (k', g')) : LineageReachable L ok k' g' := by
  induction ops generalizing k g with
  | nil =>
      cases h
      exact hk
  | cons op ops ih =>
      unfold lineageRun at h
      split at h
      · rename_i hop
        split at h
        · rename_i k₁ hstep
          split at h
          · rename_i hpass
            exact ih (hk.step op hop hstep (hcheck k k₁ hpass)) h
          · cases h
        · cases h
      · cases h

/-- The small machine after the given operations. -/
def smallLineage (check : Kernel → Kernel → Bool) (ops : List Op) : Option (Kernel × Lineage) :=
  smallBoot.bind fun k => lineageRun smallLayout check ops (k, .init)

theorem smallLineage_reachable {ok : Kernel → Kernel → Prop} {check : Kernel → Kernel → Bool}
    (hcheck : ∀ k k', check k k' = true → ok k k') {ops : List Op} {k : Kernel} {g : Lineage}
    (h : smallLineage check ops = some (k, g)) : LineageReachable smallLayout ok k g := by
  obtain ⟨k₀, hk₀, hrun⟩ := Option.bind_eq_some_iff.mp h
  exact (LineageReachable.boot hk₀).run hcheck hrun

/-- `ChildlessExit`, computed. -/
def childlessExit (k k' : Kernel) : Bool :=
  match k.running with
  | none => true
  | some i =>
      !decide ((k'.procs i).state = .zombie) ||
        (List.finRange procMax).all fun j =>
          decide ((k.procs j).state = .unused) || decide ((k.procs j).parentPid ≠ (k.procs i).pid)

theorem childlessExit_sound (k k' : Kernel) (h : childlessExit k k' = true) :
    ChildlessExit k k' := by
  intro i hrun hzombie j hj
  simp only [childlessExit, hrun, hzombie, decide_true, Bool.not_true, Bool.false_or] at h
  have hall := List.all_eq_true.mp h j (List.mem_finRange j)
  simpa [hj] using hall

/-- A parent that waits for its child before it exits. -/
def politeOps : List Op :=
  [.createUserProcess smallEntry, .switchTo 1, .fork, .switchTo 2, .exit 7, .switchTo 1,
    .waitpid (-1) 0, .exit 0, .switchTo 0, .reapOrphanZombies, .createUserProcess smallEntry]

theorem parentage_sound_polite :
    ∃ k g, smallLineage childlessExit politeOps = some (k, g) ∧ Sound k g := by
  have hsome : (smallLineage childlessExit politeOps).isSome = true := by decide +kernel
  obtain ⟨⟨k, g⟩, hkg⟩ := Option.isSome_iff_exists.mp hsome
  exact ⟨k, g, hkg, parentage_sound (smallLineage_reachable childlessExit_sound hkg)⟩

/-- A parent that exits before its child, whose slot then goes to a process that
forked nobody. -/
def orphanOps : List Op :=
  [.createUserProcess smallEntry, .switchTo 1, .fork, .exit 0, .switchTo 0, .reapOrphanZombies,
    .createUserProcess smallEntry]

theorem parentage_misattributed :
    ¬ ∀ k g, LineageReachable smallLayout (fun _ _ => True) k g → Sound k g := by
  intro hall
  have hrun : (smallLineage (fun _ _ => true) orphanOps).any (fun kg =>
      decide ((kg.1.procs 2).state = .runnable) && (kg.1.procs 2).isUser &&
        decide ((kg.1.procs 2).parentPid = 2) && decide (findProcessByPid kg.1.procs 2 = some 1) &&
        decide (kg.2.incarnation 1 = 7) && decide (kg.2.forkedBy 2 = 1)) = true := by
    decide +kernel
  obtain ⟨⟨k, g⟩, hkg, hvals⟩ := (Option.any_eq_true _ _).mp hrun
  simp only [Bool.and_eq_true, decide_eq_true_eq, and_assoc] at hvals
  obtain ⟨hstate, huser, hparent, hfind, hinc, hforked⟩ := hvals
  have hsound := hall k g (smallLineage_reachable (fun _ _ _ => trivial) hkg)
  obtain ⟨p, hp, hpinc⟩ := hsound.parents 2 (by rw [hstate]; decide) huser
    (by rw [hparent]; decide)
  rw [hparent, hfind] at hp
  cases hp
  rw [hinc, hforked] at hpinc
  cases hpinc

end Sugimotos.Proc
