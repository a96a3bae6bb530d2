/-
# The life of a process

What each call does to the process table, apart from the memory of a process:
who is created, forked, exits, is reaped, blocks or wakes.  The results hold of
every state, with no assumption on page tables or the allocator, so the
developments about descriptors, parentage and exit statuses build on this
module alone.
-/

import Sugimotos.Proc.Run

namespace Sugimotos.Proc

open Sugimotos.Mm

/-- The fields of a process record that the memory calls never write. -/
structure Life where
  pid : Int
  state : ProcState
  parentPid : Int
  exitStatus : Int
  isUser : Bool
  fds : Fin fdMax → FileDesc

/-- The life fields of a record. -/
def Process.life (p : Process) : Life :=
  ⟨p.pid, p.state, p.parentPid, p.exitStatus, p.isUser, p.fds⟩

/-- The record of a process that has just been created in slot `i`. -/
def Life.fresh (i : Fin procMax) (parentPid : Int) (isUser : Bool)
    (fds : Fin fdMax → FileDesc) : Life :=
  ⟨slotPid i, .runnable, parentPid, 0, isUser, fds⟩

/-- Why the process in slot `j` may be reaped: it is a child of the current
process, or an orphan the idle process collects. -/
def Reapable (k : Kernel) (j : Fin procMax) : Prop :=
  (k.procs j).state = .zombie ∧
    ((∃ p, k.currentProc = some p ∧ (k.procs j).parentPid = (k.procs p).pid) ∨
      ((k.procs j).isUser = true ∧ (k.procs j).parentPid = 0))

/-- The record a process leaves when it exits. -/
def Process.exited (p : Process) (status : Int) : Process :=
  { p with
    fds := fun fd => if (p.fds fd).used then .zero else p.fds fd
    exitStatus := status
    state := .zombie }

/-- The table `proc_exit` leaves: the process is a zombie, and its parent is woken
if it was blocked. -/
def exitTable (procs : Fin procMax → Process) (i : Fin procMax) (status : Int) :
    Fin procMax → Process :=
  let procs := Function.update procs i ((procs i).exited status)
  match findProcessByPid procs (procs i).parentPid with
  | none => procs
  | some p =>
      if (procs p).state = .blocked then
        Function.update procs p { procs p with state := .runnable }
      else procs

/-- What one call can do to the process table, if any exit in it is a
`proc_exit(status)`. -/
inductive Change (status : Int) (k k' : Kernel) : Prop
  /-- Only memory changed, and only the memory of the current process. -/
  | keep (cur : k'.currentProc = k.currentProc)
      (life : ∀ j, (k'.procs j).life = (k.procs j).life)
      (vmas : ∀ j, k.currentProc ≠ some j → (k'.procs j).vmas = (k.procs j).vmas)
  | dispatch (next : Fin procMax) (cur : k'.currentProc = some next)
      (procs : k'.procs = k.procs)
  | woken (i : Fin procMax) (cur : k'.currentProc = k.currentProc)
      (old : (k.procs i).state = .blocked)
      (procs : k'.procs = Function.update k.procs i { k.procs i with state := .runnable })
  | blocked (i : Fin procMax) (cur : k'.currentProc = k.currentProc)
      (old : k.running = some i)
      (procs : k'.procs = Function.update k.procs i { k.procs i with state := .blocked })
  | created (i : Fin procMax) (p : Process) (isUser : Bool)
      (cur : k'.currentProc = k.currentProc) (old : (k.procs i).state = .unused)
      (life : p.life = .fresh i 0 isUser fun _ => .zero)
      (procs : k'.procs = Function.update k.procs i p)
  | forked (parent i : Fin procMax) (p : Process)
      (cur : k'.currentProc = k.currentProc) (old : (k.procs i).state = .unused)
      (running : k.running = some parent) (user : (k.procs parent).isUser = true)
      (life : p.life = .fresh i (k.procs parent).pid true (k.procs parent).fds)
      (procs : k'.procs = Function.update k.procs i p)
  /-- A creation that failed clears the slot it had taken. -/
  | cleared (i : Fin procMax) (cur : k'.currentProc = k.currentProc)
      (old : (k.procs i).state = .unused)
      (procs : k'.procs = Function.update k.procs i .unused)
  | exited (i : Fin procMax) (cur : k'.currentProc = k.currentProc)
      (running : k.running = some i)
      (procs : k'.procs = exitTable k.procs i status)
  | reaped (cur : k'.currentProc = k.currentProc)
      (procs : ∀ j, k'.procs j = k.procs j ∨ Reapable k j ∧ k'.procs j = .unused)

/-- The exiting process is a zombie afterwards. -/
theorem exitTable_self (procs : Fin procMax → Process) (i : Fin procMax) (status : Int) :
    exitTable procs i status i = (procs i).exited status := by
  have hself : Function.update procs i ((procs i).exited status) i = (procs i).exited status :=
    Function.update_self ..
  unfold exitTable
  dsimp only
  generalize findProcessByPid _ _ = found
  cases found with
  | none => exact hself
  | some p =>
      dsimp only
      split
      · rename_i hblocked
        have hne : i ≠ p := by
          rintro rfl
          rw [hself] at hblocked
          cases hblocked
        rw [Function.update_of_ne hne, hself]
      · exact hself

/-- The other processes are as before, apart from a blocked one that is woken. -/
theorem exitTable_other {procs : Fin procMax → Process} {i j : Fin procMax} (status : Int)
    (hj : j ≠ i) : exitTable procs i status j = procs j ∨
      (procs j).state = .blocked ∧
        exitTable procs i status j = { procs j with state := .runnable } := by
  have hkeep : Function.update procs i ((procs i).exited status) j = procs j :=
    Function.update_of_ne hj ..
  unfold exitTable
  dsimp only
  generalize findProcessByPid _ _ = found
  cases found with
  | none => exact Or.inl hkeep
  | some p =>
      dsimp only
      split
      · rename_i hblocked
        by_cases hjp : j = p
        · subst hjp
          rw [hkeep] at hblocked
          rw [Function.update_self, hkeep]
          exact Or.inr ⟨hblocked, rfl⟩
        · rw [Function.update_of_ne hjp]
          exact Or.inl hkeep
      · exact Or.inl hkeep

/-! ## Slots and creation -/

/-- The running process is the current one. -/
theorem Kernel.running_eq_some {k : Kernel} {i : Fin procMax} :
    k.running = some i ↔ k.currentProc = some i ∧ (k.procs i).state = .runnable := by
  unfold Kernel.running
  rw [Option.filter_eq_some_iff]
  simp

theorem allocProcessSlot_unused {procs : Fin procMax → Process} {i : Fin procMax}
    (h : allocProcessSlot procs = some i) : (procs i).state = .unused := by
  have hi := List.find?_some h
  exact of_decide_eq_true hi

theorem Change.refl {status : Int} (k : Kernel) : Change status k k :=
  .keep rfl (fun _ => rfl) fun _ _ => rfl

theorem resetProcess_ok {L : Layout} {k k' : Kernel} {i : Fin procMax} {proc : Process} {s : Phys}
    (h : resetProcess L k i proc s = .ok k') :
    k'.procs = Function.update k.procs i .unused ∧ k'.currentProc = k.currentProc := by
  unfold resetProcess at h
  split at h
  · cases h
  · cases h
    exact ⟨rfl, rfl⟩

/-- A construction that gives its resources back clears the slot. -/
theorem Change.of_reset {L : Layout} {status : Int} {k k' : Kernel} {i : Fin procMax} {proc : Process} {s : Phys}
    (hold : (k.procs i).state = .unused) (h : resetProcess L k i proc s = .ok k') : Change status k k' :=
  have hk := resetProcess_ok h
  .cleared i hk.2 hold hk.1

theorem createProcess_change (status : Int) (k : Kernel) : Change status k (createProcess k).2 := by
  unfold createProcess
  cases hslot : allocProcessSlot k.procs with
  | none => exact .refl k
  | some i => exact .created i _ false rfl (allocProcessSlot_unused hslot) rfl rfl

/-- `proc_vm_init` writes the VMAs only. -/
theorem procVmInit_life {L : Layout} {proc proc' : Process} {ok : Bool}
    (h : procVmInit L proc = (ok, proc')) : proc'.life = proc.life := by
  unfold procVmInit at h
  cases h
  rfl

variable {L : Layout} {status : Int}

theorem createUserProcess_change {k k' : Kernel} {entryPc : Nat} {r : Option (Fin procMax)}
    (h : createUserProcess L entryPc k = .ok (r, k')) : Change status k k' := by
  unfold createUserProcess at h
  cases hslot : allocProcessSlot k.procs with
  | none =>
      rw [hslot] at h
      cases h
      exact .refl k
  | some i =>
      have hold := allocProcessSlot_unused hslot
      rw [hslot] at h
      dsimp only at h
      split at h
      · -- no stack pages
        cases h
        exact .cleared i rfl hold rfl
      · split at h
        · cases h
        · split at h
          · cases h
          · rename_i hreset
            cases h
            exact .of_reset hold hreset
        · split at h
          · split at h
            · cases h
            · rename_i hreset
              cases h
              exact .of_reset hold hreset
          · rename_i hinit
            cases h
            refine .created i _ true rfl hold ?_ rfl
            exact procVmInit_life hinit

/-- `proc_fork` fails and clears the child's slot, or it creates a child with the
parent's pid and descriptors. -/
theorem procFork_change {k k' : Kernel} {p : Fin procMax} {r : Option Int}
    (hrun : k.running = some p) (h : procFork L k = .ok (r, k')) : Change status k k' := by
  have hcur := (Kernel.running_eq_some.mp hrun).1
  unfold procFork at h
  rw [hcur] at h
  dsimp only at h
  split at h
  · cases h
    exact .refl k
  · rename_i hguard
    have huser : (k.procs p).isUser = true := by
      by_contra hno
      exact hguard (Or.inl hno)
    cases hslot : allocProcessSlot k.procs with
    | none =>
        rw [hslot] at h
        cases h
        exact .refl k
    | some i =>
        have hold := allocProcessSlot_unused hslot
        rw [hslot] at h
        dsimp only at h
        split at h
        · cases h
          exact .cleared i hcur.symm hold rfl
        · split at h
          · cases h
          · split at h
            · cases h
            · rename_i hreset
              cases h
              exact .of_reset hold hreset
          · split at h
            · split at h
              · cases h
              · rename_i hreset
                cases h
                exact .of_reset hold hreset
            · split at h
              · cases h
              · split at h
                · cases h
                · rename_i hreset
                  cases h
                  exact .of_reset hold hreset
              · cases h
                exact .forked p i _ hcur.symm hold hrun huser rfl rfl

/-! ## Exit and reaping -/

theorem procExit_procs {k : Kernel} {i : Fin procMax} (status : Int)
    (hcur : k.currentProc = some i) : (procExit status k).procs = exitTable k.procs i status := by
  have hself : Function.update k.procs i ((k.procs i).exited status) i =
      (k.procs i).exited status := Function.update_self ..
  unfold procExit exitTable
  rw [hcur]
  simp only [hself]
  change Kernel.procs (match findProcessByPid (Function.update k.procs i
    ((k.procs i).exited status)) ((k.procs i).exited status).parentPid with
    | none => k.setProc i ((k.procs i).exited status)
    | some p =>
        if (Function.update k.procs i ((k.procs i).exited status) p).state = .blocked then
          (k.setProc i ((k.procs i).exited status)).setProc p
            { Function.update k.procs i ((k.procs i).exited status) p with state := .runnable }
        else k.setProc i ((k.procs i).exited status)) = _
  generalize findProcessByPid _ _ = found
  cases found with
  | none => rfl
  | some p =>
      dsimp only
      split <;> rfl

theorem procExit_currentProc (status : Int) (k : Kernel) :
    (procExit status k).currentProc = k.currentProc := by
  unfold procExit
  split
  · rfl
  · dsimp only
    split
    · rfl
    · split <;> rfl

theorem reap_ok {k k' : Kernel} {i : Fin procMax} (h : reap L k i = .ok k') :
    k'.procs = Function.update k.procs i .unused ∧ k'.currentProc = k.currentProc :=
  resetProcess_ok h

/-- The orphans collected so far; the loop over the slots keeps it. -/
theorem reapOrphans_fold {k₀ : Kernel} (slots : List (Fin procMax)) {k k' : Kernel}
    (hcur : k.currentProc = k₀.currentProc)
    (hk : ∀ j, k.procs j = k₀.procs j ∨ Reapable k₀ j ∧ k.procs j = .unused)
    (h : slots.foldlM
      (fun k i =>
        let proc := k.procs i
        if k.idleProc = some i then .ok k
        else if proc.state ≠ .zombie ∨ ¬ proc.isUser ∨ proc.parentPid ≠ 0 then .ok k
        else reap L k i) k = .ok k') :
    k'.currentProc = k₀.currentProc ∧
      ∀ j, k'.procs j = k₀.procs j ∨ Reapable k₀ j ∧ k'.procs j = .unused := by
  induction slots generalizing k with
  | nil =>
      cases h
      exact ⟨hcur, hk⟩
  | cons i slots ih =>
      rw [List.foldlM_cons] at h
      dsimp only at h
      split at h
      · exact ih hcur hk h
      · split at h
        · exact ih hcur hk h
        · rename_i horphan
          simp only [ne_eq, not_or, not_not] at horphan
          obtain ⟨hzombie, huser, hparent⟩ := horphan
          cases hreap : reap L k i with
          | error e =>
              rw [hreap] at h
              cases h
          | ok k₁ =>
              rw [hreap] at h
              obtain ⟨hprocs, hcur₁⟩ := reap_ok hreap
              refine ih (hcur₁.trans hcur) (fun j => ?_) h
              by_cases hj : j = i
              · subst hj
                have hfirst : k.procs j = k₀.procs j := by
                  rcases hk j with hsame | ⟨-, hgone⟩
                  · exact hsame
                  · rw [hgone] at hzombie
                    cases hzombie
                rw [hfirst] at hzombie huser hparent
                exact Or.inr ⟨⟨hzombie, Or.inr ⟨huser, hparent⟩⟩, by rw [hprocs]; simp⟩
              · rw [hprocs, Function.update_of_ne hj]
                exact hk j

theorem procReapOrphanZombies_change {k k' : Kernel} (h : procReapOrphanZombies L k = .ok k') :
    Change status k k' := by
  obtain ⟨hcur, hprocs⟩ := reapOrphans_fold _ rfl (fun _ => Or.inl rfl) h
  exact .reaped hcur hprocs

/-- The zombie child a scan of `proc_waitpid` finds. -/
theorem waitpidScan_reaped {k k' : Kernel} {pid rpid status : Int} {self : Fin procMax}
    (h : waitpidScan L pid self k = .ok (.reaped rpid status, k')) :
    ∃ i, isChild k pid self i = true ∧ (k.procs i).state = .zombie ∧
      rpid = (k.procs i).pid ∧ status = (k.procs i).exitStatus ∧
      k'.procs = Function.update k.procs i .unused ∧ k'.currentProc = k.currentProc := by
  unfold waitpidScan at h
  split at h
  · rename_i i hfind
    have hi := List.find?_some hfind
    simp only [Bool.and_eq_true, decide_eq_true_eq] at hi
    split at h
    · cases h
    · rename_i k₁ hreap
      cases h
      obtain ⟨hprocs, hcur⟩ := reap_ok hreap
      exact ⟨i, hi.1, hi.2, rfl, rfl, hprocs, hcur⟩
  · split at h <;> cases h

/-- Without a zombie child a scan changes nothing. -/
theorem waitpidScan_none {k k' : Kernel} {pid : Int} {self : Fin procMax} {r : WaitScan}
    (h : waitpidScan L pid self k = .ok (r, k')) (hr : ∀ rpid status, r ≠ .reaped rpid status) :
    k' = k ∧ (∀ i, isChild k pid self i = true → (k.procs i).state ≠ .zombie) ∧
      (r = .noZombie ↔ ∃ i, isChild k pid self i = true) := by
  unfold waitpidScan at h
  split at h
  · split at h
    · cases h
    · cases h
      exact absurd rfl (hr _ _)
  · rename_i hfind
    have hnone : ∀ i, isChild k pid self i = true → (k.procs i).state ≠ .zombie := by
      intro i hchild hzombie
      have hi := List.find?_eq_none.mp hfind i (List.mem_finRange i)
      simp [hchild, hzombie] at hi
    split at h
    · rename_i hany
      cases h
      obtain ⟨i, -, hi⟩ := List.any_eq_true.mp hany
      exact ⟨rfl, hnone, ⟨fun _ => ⟨i, hi⟩, fun _ => rfl⟩⟩
    · rename_i hany
      cases h
      refine ⟨rfl, hnone, Iff.intro (fun hno => by cases hno) fun hex => ?_⟩
      obtain ⟨i, hi⟩ := hex
      exact absurd (List.any_eq_true.mpr ⟨i, List.mem_finRange i, hi⟩) hany

theorem isChild_eq_true {k : Kernel} {pid : Int} {self i : Fin procMax} :
    isChild k pid self i = true ↔ (k.procs i).state ≠ .unused ∧
      (k.procs i).parentPid = (k.procs self).pid ∧ (0 < pid → (k.procs i).pid = pid) := by
  unfold isChild
  simp only [Bool.and_eq_true, decide_eq_true_eq, Bool.not_eq_true', Bool.and_eq_false_iff,
    decide_eq_false_iff_not, and_assoc, ne_eq, not_not]
  refine and_congr_right fun _ => and_congr_right fun _ => ?_
  constructor
  · rintro (h | h) hpos
    · exact absurd hpos h
    · exact h
  · intro h
    by_cases hpos : 0 < pid
    · exact Or.inr (h hpos)
    · exact Or.inl hpos

theorem waitpidStep_change {k k' : Kernel} {i : Fin procMax} {pid : Int} {options : UInt32}
    (hrun : k.running = some i) (h : waitpidStep L i pid options k = .ok k') : Change status k k' := by
  unfold waitpidStep at h
  split at h
  · cases h
    exact .refl k
  · cases hscan : waitpidScan L pid i k with
    | error e =>
        rw [hscan] at h
        cases h
    | ok out =>
        obtain ⟨r, k₁⟩ := out
        rw [hscan] at h
        cases r with
        | noChild =>
            obtain ⟨hk, -⟩ := waitpidScan_none hscan fun _ _ hr => by cases hr
            cases h
            rw [hk]
            exact .refl k
        | noZombie =>
            obtain ⟨hk, -⟩ := waitpidScan_none hscan fun _ _ hr => by cases hr
            dsimp only at h
            rw [hk] at h
            split at h
            · cases h
              exact .refl k
            · cases h
              exact .blocked i rfl hrun rfl
        | reaped rpid status =>
            obtain ⟨c, hchild, hzombie, -, -, hprocs, hcur⟩ := waitpidScan_reaped hscan
            cases h
            refine .reaped hcur fun j => ?_
            by_cases hj : j = c
            · subst hj
              have hparent := (isChild_eq_true.mp hchild).2.1
              refine Or.inr ⟨⟨hzombie, Or.inl ⟨i, ?_, hparent⟩⟩, by rw [hprocs]; simp⟩
              exact (Kernel.running_eq_some.mp hrun).1
            · exact Or.inl (by rw [hprocs, Function.update_of_ne hj])

/-! ## Accesses to user memory -/

/-- A call that reaches user memory stays within a relation until it returns or
the process exits in it. -/
def Along (R : Kernel → Kernel → Prop) (k : Kernel) {α : Type} : Except Halt (α × Kernel) → Prop
  | .ok (_, k') => R k k'
  | .error (.exited k') => ∃ k₁, R k k₁ ∧ k' = procExit 128 k₁
  | .error (.stop _ _) => True

/-- A relation that accesses one after the other stay within. -/
structure Follows (R : Kernel → Kernel → Prop) : Prop where
  refl : ∀ k, R k k
  trans : ∀ {k k₁ k₂}, R k k₁ → R k₁ k₂ → R k k₂

section Along

variable {R : Kernel → Kernel → Prop}

theorem Along.trans (hR : Follows R) {k k₁ : Kernel} {α : Type} {m : Except Halt (α × Kernel)}
    (hstep : R k k₁) (h : Along R k₁ m) : Along R k m := by
  cases m with
  | ok out => exact hR.trans hstep h
  | error e =>
      cases e with
      | stop e => trivial
      | exited k' =>
          obtain ⟨k₂, hrest, hk'⟩ := h
          exact ⟨k₂, hR.trans hstep hrest, hk'⟩

/-- An access that does not return ends the call around it the same way. -/
theorem Along.error {k : Kernel} {α β : Type} {e : Halt}
    (h : Along R k (.error e : Except Halt (α × Kernel))) :
    Along R k (.error e : Except Halt (β × Kernel)) := by
  cases e with
  | stop e => trivial
  | exited k' => exact h

/-- The first access ends the call, or the rest goes on from the state it left. -/
theorem Along.andThen (hR : Follows R) {k : Kernel} {α β : Type} {m : Except Halt (α × Kernel)}
    {f : α × Kernel → Except Halt (β × Kernel)} (hm : Along R k m)
    (hf : ∀ a k₁, Along R k₁ (f (a, k₁))) : Along R k (m.bind f) := by
  cases m with
  | ok out =>
      obtain ⟨a, k₁⟩ := out
      exact (hf a k₁).trans hR hm
  | error e => exact hm.error

theorem loadByte_along (htouch : ∀ va k, Along R k (touch L vmaProtR va k)) (va : Nat)
    (k : Kernel) : Along R k (loadByte L va k) := by
  have hva := htouch va k
  unfold loadByte
  cases hres : touch L vmaProtR va k with
  | error e =>
      rw [hres] at hva
      exact hva.error
  | ok out =>
      rw [hres] at hva
      exact hva

theorem loadU32_along (hR : Follows R) (htouch : ∀ va k, Along R k (touch L vmaProtR va k))
    (va : Nat) (k : Kernel) : Along R k (loadU32 L va k) := by
  unfold loadU32
  refine (loadByte_along htouch va k).andThen hR fun b0 k₁ => ?_
  refine (loadByte_along htouch (u32 (va + 1)) k₁).andThen hR fun b1 k₂ => ?_
  refine (loadByte_along htouch (u32 (va + 2)) k₂).andThen hR fun b2 k₃ => ?_
  refine (loadByte_along htouch (u32 (va + 3)) k₃).andThen hR fun b3 k₄ => ?_
  exact hR.refl k₄

theorem cstrLoop_along (hR : Follows R) (htouch : ∀ va k, Along R k (touch L vmaProtR va k))
    (addr left i : Nat) (k : Kernel) : Along R k (cstrLoop L addr left i k) := by
  induction left generalizing i k with
  | zero => exact hR.refl k
  | succ left ih =>
      unfold cstrLoop
      split
      · exact hR.refl k
      · have hload := loadByte_along htouch (u32 (addr + i)) k
        cases hres : loadByte L (u32 (addr + i)) k with
        | error e =>
            rw [hres] at hload
            exact hload.error
        | ok out =>
            obtain ⟨byte, k₁⟩ := out
            rw [hres] at hload
            dsimp only
            split
            · exact hload
            · exact (ih (i + 1) k₁).trans hR hload

theorem procUserCstrOk_along (hR : Follows R)
    (htouch : ∀ va k, Along R k (touch L vmaProtR va k)) (addr maxLen : Nat) (k : Kernel) :
    Along R k (procUserCstrOk L addr maxLen k) := by
  unfold procUserCstrOk
  split
  · exact hR.refl k
  · split
    · exact hR.refl k
    · exact cstrLoop_along hR htouch ..

theorem argvLoop_along (hR : Follows R) (htouch : ∀ va k, Along R k (touch L vmaProtR va k))
    (argvPtr left i : Nat) (k : Kernel) : Along R k (argvLoop L argvPtr left i k) := by
  induction left generalizing i k with
  | zero => exact hR.refl k
  | succ left ih =>
      unfold argvLoop
      dsimp only
      split
      · exact hR.refl k
      · have hload := loadU32_along hR htouch (u32 (argvPtr + i * 4)) k
        cases hres : loadU32 L (u32 (argvPtr + i * 4)) k with
        | error e =>
            rw [hres] at hload
            exact hload.error
        | ok out =>
            obtain ⟨argp, k₁⟩ := out
            rw [hres] at hload
            dsimp only
            split
            · exact hload
            · have hstr := (procUserCstrOk_along hR htouch argp 128 k₁).trans hR hload
              cases hok : procUserCstrOk L argp 128 k₁ with
              | error e =>
                  rw [hok] at hstr
                  exact hstr.error
              | ok out =>
                  obtain ⟨ok, k₂⟩ := out
                  rw [hok] at hstr
                  cases ok with
                  | false => exact hstr
                  | true => exact (ih (i + 1) k₂).trans hR hstr

theorem procUserExecArgvOk_along (hR : Follows R)
    (htouch : ∀ va k, Along R k (touch L vmaProtR va k)) (argvPtr : Nat) (k : Kernel) :
    Along R k (procUserExecArgvOk L argvPtr k) := by
  unfold procUserExecArgvOk
  split
  · exact hR.refl k
  · exact argvLoop_along hR htouch ..

end Along

/-- A call that reaches user memory leaves the table alone, unless the process
exits in it. -/
def Calm (k : Kernel) {α : Type} : Except Halt (α × Kernel) → Prop
  | .ok (_, k') => k'.procs = k.procs ∧ k'.currentProc = k.currentProc
  | .error (.exited k') => ∃ k₁ : Kernel,
      k₁.procs = k.procs ∧ k₁.currentProc = k.currentProc ∧ k' = procExit 128 k₁
  | .error (.stop _ _) => True

/-- The table and the current process are as before. -/
def SameTable (k k' : Kernel) : Prop := k'.procs = k.procs ∧ k'.currentProc = k.currentProc

theorem sameTable_follows : Follows SameTable :=
  ⟨fun _ => ⟨rfl, rfl⟩, fun h h' => ⟨h'.1.trans h.1, h'.2.trans h.2⟩⟩

theorem calm_iff {k : Kernel} {α : Type} {m : Except Halt (α × Kernel)} :
    Calm k m ↔ Along SameTable k m := by
  cases m with
  | ok out => exact Iff.rfl
  | error e =>
      cases e with
      | stop e => exact Iff.rfl
      | exited k' => exact exists_congr fun k₁ => and_assoc.symm

theorem Calm.trans {k k₁ : Kernel} {α : Type} {m : Except Halt (α × Kernel)}
    (hprocs : k₁.procs = k.procs) (hcur : k₁.currentProc = k.currentProc) (h : Calm k₁ m) :
    Calm k m :=
  calm_iff.mpr ((calm_iff.mp h).trans sameTable_follows ⟨hprocs, hcur⟩)

theorem Calm.error {k : Kernel} {α β : Type} {e : Halt}
    (h : Calm k (.error e : Except Halt (α × Kernel))) :
    Calm k (.error e : Except Halt (β × Kernel)) :=
  calm_iff.mpr (calm_iff.mp h).error

theorem touch_calm (access va : Nat) (k : Kernel) : Calm k (touch L access va k) := by
  unfold touch
  split
  · trivial
  · dsimp only
    split
    · exact ⟨rfl, rfl⟩
    · split
      · trivial
      · split
        · trivial
        · refine ⟨_, ?_, ?_, rfl⟩ <;> rfl
        · split
          · exact ⟨rfl, rfl⟩
          · trivial

theorem touch_sameTable (access va : Nat) (k : Kernel) : Along SameTable k (touch L access va k) :=
  calm_iff.mp (touch_calm access va k)

theorem loadByte_calm (va : Nat) (k : Kernel) : Calm k (loadByte L va k) :=
  calm_iff.mpr (loadByte_along (touch_sameTable vmaProtR) va k)

theorem storeByte_calm (va : Nat) (value : UInt8) (k : Kernel) :
    Calm k ((storeByte L va value k).map fun k => ((), k)) := by
  have htouch := touch_calm (L := L) vmaProtW va k
  unfold storeByte
  cases hres : touch L vmaProtW va k with
  | error e =>
      rw [hres] at htouch
      exact htouch.error
  | ok out =>
      rw [hres] at htouch
      exact htouch

theorem procUserExecArgvOk_calm (argvPtr : Nat) (k : Kernel) :
    Calm k (procUserExecArgvOk L argvPtr k) :=
  calm_iff.mpr (procUserExecArgvOk_along sameTable_follows (touch_sameTable vmaProtR) argvPtr k)

/-- The exit inside a call, as a change of the table before it. -/
theorem Change.of_exited {k k₁ : Kernel} {i : Fin procMax} {status : Int}
    (hrun : k.running = some i) (hprocs : k₁.procs = k.procs)
    (hcur : k₁.currentProc = k.currentProc) : Change status k (procExit status k₁) := by
  have hi := (Kernel.running_eq_some.mp hrun).1
  refine .exited i ((procExit_currentProc status k₁).trans hcur) hrun ?_
  rw [procExit_procs status (hcur.trans hi), hprocs]

/-- A call that writes the record of the current process and keeps its life. -/
theorem Change.of_record {k k₁ k' : Kernel} {i : Fin procMax} {proc : Process}
    (hcur : k.currentProc = some i) (hprocs : k₁.procs = k.procs)
    (hcur₁ : k₁.currentProc = k.currentProc) (hlife : proc.life = (k.procs i).life)
    (hprocs' : k'.procs = Function.update k₁.procs i proc)
    (hcur' : k'.currentProc = k₁.currentProc) : Change status k k' := by
  rw [hprocs] at hprocs'
  refine .keep (hcur'.trans hcur₁) (fun j => ?_) fun j hj => ?_
  · rw [hprocs']
    by_cases hji : j = i
    · subst hji
      rw [Function.update_self]
      exact hlife
    · rw [Function.update_of_ne hji]
  · have hji : j ≠ i := by
      rintro rfl
      exact hj hcur
    rw [hprocs', Function.update_of_ne hji]

/-- A call that only reaches user memory, settled. -/
theorem Calm.change {k k' : Kernel} {i : Fin procMax} {α : Type} {m : Except Halt (α × Kernel)}
    (hrun : k.running = some i) (hm : Calm k m) (h : settle m = .ok k') : Change 128 k k' := by
  cases m with
  | ok out =>
      obtain ⟨a, k₁⟩ := out
      cases h
      refine .keep hm.2 (fun j => ?_) fun j _ => ?_ <;> rw [hm.1]
  | error e =>
      cases e with
      | stop e => cases h
      | exited k₁ =>
          cases h
          obtain ⟨k₂, hprocs, hcur, rfl⟩ := hm
          exact .of_exited hrun hprocs hcur

/-! ## Every call -/

theorem procExec_change {k k' : Kernel} {i : Fin procMax} {entryPc argv : Nat}
    (hrun : k.running = some i) (h : settle (procExec L entryPc argv k) = .ok k') :
    Change 128 k k' := by
  have hcur := (Kernel.running_eq_some.mp hrun).1
  unfold procExec at h
  rw [hcur] at h
  dsimp only at h
  split at h
  · cases h
    exact .refl k
  · split at h
    · cases h
      exact .refl k
    · have hargv := procUserExecArgvOk_calm (L := L) argv k
      cases hres : procUserExecArgvOk L argv k with
      | error e =>
          rw [hres] at h hargv
          exact hargv.change hrun (by cases e <;> exact h)
      | ok out =>
          obtain ⟨r, k₁⟩ := out
          rw [hres] at h hargv
          cases r with
          | none => exact hargv.change hrun h
          | some argc =>
              dsimp only at h
              cases hreset : procVmReset L (k₁.procs i) k₁.phys with
              | error e =>
                  rw [hreset] at h
                  cases h
              | ok out =>
                  obtain ⟨proc, s⟩ := out
                  rw [hreset] at h
                  dsimp only at h
                  have hproc : proc.life = (k.procs i).life := by
                    unfold procVmReset at hreset
                    rw [hargv.1] at hreset
                    split at hreset
                    · cases hreset
                    · cases hreset
                      rfl
                  cases hinit : procVmInit L proc with
                  | mk ok proc' =>
                      have hlife := (procVmInit_life hinit).trans hproc
                      rw [hinit] at h
                      cases ok <;> cases h
                      · exact .of_record hcur hargv.1 hargv.2 hlife rfl rfl
                      · refine .of_record hcur hargv.1 hargv.2 ?_ rfl rfl
                        exact hlife

/-- `proc_munmap` writes the VMAs only. -/
theorem procMunmap_life {proc proc' : Process} {addr len : Nat} {s s' : Phys} {ok : Bool}
    (h : procMunmap L proc addr len s = .ok (ok, proc', s')) : proc'.life = proc.life := by
  unfold procMunmap at h
  split at h
  · cases h
    rfl
  · split at h
    · cases h
      rfl
    · split at h
      · cases h
        rfl
      · dsimp only at h
        split at h
        · cases h
          rfl
        · split at h
          · cases h
            rfl
          · split at h
            · cases h
              rfl
            · cases h
              rfl
            · cases hsweep : (pagesOf addr (u32 (addr + pageCeil len))).foldlM
                  (unmapAndFree L proc.satp) s with
              | error e =>
                  rw [hsweep] at h
                  cases h
              | ok s₁ =>
                  rw [hsweep] at h
                  cases h
                  rfl

theorem mmapAdd_life (proc : Process) (addr len prot : Nat) :
    (mmapAdd proc addr len prot).2.life = proc.life := by
  unfold mmapAdd
  split <;> rfl

/-- `proc_mmap` writes the VMAs only. -/
theorem procMmap_life {proc proc' : Process} {addrHint len prot flags : Nat} {s s' : Phys}
    {r : Option Nat} (h : procMmap L proc addrHint len prot flags s = .ok (r, proc', s')) :
    proc'.life = proc.life := by
  unfold procMmap at h
  split at h
  · cases h
    rfl
  · split at h
    · cases h
      rfl
    · split at h
      · cases h
        rfl
      · dsimp only at h
        split at h
        · split at h
          · cases h
            rfl
          · split at h
            · cases h
              rfl
            · split at h
              · cases h
              · rename_i hunmap
                cases h
                exact procMunmap_life hunmap
              · rename_i hunmap
                cases h
                exact (mmapAdd_life ..).trans (procMunmap_life hunmap)
        · split at h
          · cases h
            rfl
          · cases h
            exact mmapAdd_life ..

/-- The table after a page fault in user mode. -/
theorem faultDone_change {k k' : Kernel} {i : Fin procMax} {r : Except Stop (Bool × Phys)}
    (hrun : k.running = some i) (h : faultDone k r = .ok k') : Change 128 k k' := by
  cases r with
  | error e => cases h
  | ok out =>
      obtain ⟨ok, s⟩ := out
      cases ok with
      | true =>
          cases h
          exact .keep rfl (fun _ => rfl) fun _ _ => rfl
      | false =>
          cases h
          exact .of_exited hrun rfl rfl

theorem liftPanic_ok {α : Type} {m : Except Panic α} {x : α} (h : liftPanic m = .ok x) :
    m = .ok x := by
  cases m with
  | ok y =>
      cases h
      rfl
  | error e => cases h

theorem map_ok {ε α β : Type} {m : Except ε α} {f : α → β} {y : β} (h : m.map f = .ok y) :
    ∃ x, m = .ok x ∧ f x = y := by
  cases m with
  | ok x =>
      cases h
      exact ⟨x, rfl, rfl⟩
  | error e => cases h

/-- The argument of the `proc_exit` an operation can make. -/
def exitArg : Op → Int
  | .exit status => status
  | _ => 128

/-- What every operation can do to the process table. -/
theorem step_change {k k' : Kernel} (op : Op) (h : step L op k = .ok k') : Change (exitArg op) k k' := by
  cases op with
  | createProcess =>
      cases h
      exact createProcess_change _ k
  | createUserProcess entryPc =>
      obtain ⟨⟨r, k₁⟩, hres, rfl⟩ := map_ok (liftPanic_ok h)
      exact createUserProcess_change hres
  | reapOrphanZombies => exact procReapOrphanZombies_change (liftPanic_ok h)
  | switchTo next =>
      cases h
      unfold switchTo
      split
      · exact .refl k
      · exact .dispatch next rfl rfl
  | wake i =>
      simp only [step] at h
      split at h
      · rename_i hblocked
        cases h
        exact .woken i rfl hblocked rfl
      · cases h
        exact .refl k
  | saveFrame f =>
      simp only [step] at h
      split at h
      · cases h
        exact .refl k
      · rename_i i hrun
        cases h
        refine .of_record (Kernel.running_eq_some.mp hrun).1 rfl rfl ?_ rfl rfl
        rfl
  | fork =>
      simp only [step] at h
      split at h
      · cases h
        exact .refl k
      · rename_i i hrun
        obtain ⟨⟨r, k₁⟩, hres, rfl⟩ := map_ok (liftPanic_ok h)
        exact procFork_change hrun hres
  | exec entryPc argv =>
      simp only [step] at h
      split at h
      · cases h
        exact .refl k
      · rename_i i hrun
        exact procExec_change hrun h
  | exit status =>
      simp only [step] at h
      split at h
      · cases h
        exact .refl k
      · rename_i i hrun
        cases h
        exact .of_exited hrun rfl rfl
  | waitpid pid options =>
      simp only [step] at h
      split at h
      · cases h
        exact .refl k
      · rename_i i hrun
        exact waitpidStep_change hrun h
  | mmap addrHint len prot flags =>
      simp only [step] at h
      split at h
      · cases h
        exact .refl k
      · rename_i i hrun
        obtain ⟨⟨r, proc, s⟩, hres, rfl⟩ := map_ok (liftPanic_ok h)
        exact .of_record (Kernel.running_eq_some.mp hrun).1 rfl rfl (procMmap_life hres) rfl rfl
  | munmap addr len =>
      simp only [step] at h
      split at h
      · cases h
        exact .refl k
      · rename_i i hrun
        obtain ⟨⟨r, proc, s⟩, hres, rfl⟩ := map_ok (liftPanic_ok h)
        exact .of_record (Kernel.running_eq_some.mp hrun).1 rfl rfl (procMunmap_life hres) rfl rfl
  | pageFault addr access =>
      simp only [step] at h
      split at h
      · cases h
        exact .refl k
      · rename_i i hrun
        exact faultDone_change hrun h
  | userStore addr value =>
      simp only [step] at h
      split at h
      · cases h
        exact .refl k
      · rename_i i hrun
        unfold userStore at h
        split at h
        · cases h
          exact .keep rfl (fun _ => rfl) fun _ _ => rfl
        · exact faultDone_change hrun h
  | kernelLoad addr =>
      simp only [step] at h
      split at h
      · cases h
        exact .refl k
      · rename_i i hrun
        exact (loadByte_calm _ k).change hrun h
  | kernelStore addr value =>
      simp only [step] at h
      split at h
      · cases h
        exact .refl k
      · rename_i i hrun
        exact (storeByte_calm _ value k).change hrun h

/-! ## Boot -/

/-- The record of the machine in which the idle process is created. -/
def bootKernel (satp : Nat) (s : Phys) : Kernel where
  phys := s
  procs := fun _ => .unused
  currentProc := none
  idleProc := none
  kernelRootPt := vmRootFromSatp satp
  kernelSatpValue := satp
  touched := []

/-- The idle process runs. -/
def startIdle (out : Option (Fin procMax) × Kernel) : Kernel :=
  { out.2 with currentProc := out.1, idleProc := out.1 }

/-- What `kernel_main` makes of the outcome of `vm_init`. -/
def bootFrom : Option Nat × Phys → Option Kernel
  | (none, _) => none
  | (some satp, s) => some (startIdle (createProcess (bootKernel satp s)))

theorem boot_eq (mem : Memory) (mmu : Mmu) :
    boot L mem mmu = bootFrom (vmInit L ⟨Allocator.static L, mem, mmu⟩) := by
  -- unfolding `boot` at its arguments would make the kernel evaluate `vmInit`
  have hdef : @boot = @boot := rfl
  conv at hdef =>
    rhs
    delta boot
  rw [hdef]
  beta_reduce
  generalize vmInit L ⟨Allocator.static L, mem, mmu⟩ = out
  obtain ⟨r, s⟩ := out
  cases r with
  | none => rfl
  | some satp => rfl

/-- A boot that succeeds has built the kernel's tables and created one process. -/
theorem boot_some {mem : Memory} {mmu : Mmu} {k : Kernel} (h : boot L mem mmu = some k) :
    ∃ satp s, vmInit L ⟨Allocator.static L, mem, mmu⟩ = (some satp, s) ∧
      k = startIdle (createProcess (bootKernel satp s)) := by
  rw [boot_eq] at h
  generalize vmInit L ⟨Allocator.static L, mem, mmu⟩ = out at h ⊢
  obtain ⟨r, s⟩ := out
  cases r with
  | none => cases h
  | some satp => exact ⟨satp, s, rfl, (Option.some.inj h).symm⟩

/-! ## One slot -/

/-- What one call can do to the process in slot `j`. -/
inductive SlotChange (status : Int) (k k' : Kernel) (j : Fin procMax) : Prop
  | same (life : (k'.procs j).life = (k.procs j).life)
      (vmas : k.currentProc ≠ some j → (k'.procs j).vmas = (k.procs j).vmas)
  | woken (old : (k.procs j).state = .blocked)
      (new : k'.procs j = { k.procs j with state := .runnable })
  | blocked (old : k.running = some j) (new : k'.procs j = { k.procs j with state := .blocked })
  /-- A process without a parent, or a child of the running process. -/
  | filled (parentPid : Int) (isUser : Bool) (fds : Fin fdMax → FileDesc)
      (old : (k.procs j).state = .unused)
      (life : (k'.procs j).life = .fresh j parentPid isUser fds)
      (others : ∀ l, l ≠ j → k'.procs l = k.procs l)
      (parent : (parentPid = 0 ∧ fds = fun _ => .zero) ∨
        ∃ p, k.running = some p ∧ parentPid = (k.procs p).pid ∧ fds = (k.procs p).fds)
  | cleared (old : (k.procs j).state = .unused) (new : k'.procs j = .unused)
  | died (running : k.running = some j) (procs : k'.procs = exitTable k.procs j status)
  | reaped (old : Reapable k j) (new : k'.procs j = .unused)

/-- A record that was not written. -/
theorem SlotChange.of_eq {k k' : Kernel} {j : Fin procMax} (h : k'.procs j = k.procs j) :
    SlotChange status k k' j := by
  refine .same ?_ fun _ => ?_ <;> rw [h]

/-- A call, seen from one slot. -/
theorem Change.slot {k k' : Kernel} (h : Change status k k') (j : Fin procMax) :
    SlotChange status k k' j := by
  -- all cases but the first and the last two write at most one slot
  have hone : ∀ (i : Fin procMax) (p : Process), k'.procs = Function.update k.procs i p →
      (j = i → k'.procs j = p → SlotChange status k k' j) → SlotChange status k k' j := by
    intro i p hprocs hslot
    by_cases hj : j = i
    · subst hj
      exact hslot rfl (by rw [hprocs, Function.update_self])
    · exact .of_eq (by rw [hprocs, Function.update_of_ne hj])
  have hothers : ∀ (i : Fin procMax) (p : Process), k'.procs = Function.update k.procs i p →
      ∀ l, l ≠ i → k'.procs l = k.procs l := by
    intro i p hprocs l hl
    rw [hprocs, Function.update_of_ne hl]
  cases h with
  | keep cur life vmas => exact .same (life j) (vmas j)
  | dispatch next cur procs => exact .of_eq (by rw [procs])
  | woken i cur old procs =>
      refine hone i _ procs ?_
      rintro rfl hnew
      exact .woken old hnew
  | blocked i cur old procs =>
      refine hone i _ procs ?_
      rintro rfl hnew
      exact .blocked old hnew
  | created i p isUser cur old life procs =>
      refine hone i _ procs ?_
      rintro rfl hnew
      rw [← hnew] at life
      exact .filled 0 isUser _ old life (hothers _ _ procs) (Or.inl ⟨rfl, rfl⟩)
  | forked parent i p cur old running user life procs =>
      refine hone i _ procs ?_
      rintro rfl hnew
      rw [← hnew] at life
      exact .filled _ true _ old life (hothers _ _ procs) (Or.inr ⟨parent, running, rfl, rfl⟩)
  | cleared i cur old procs =>
      refine hone i _ procs ?_
      rintro rfl hnew
      exact .cleared old hnew
  | exited i cur running procs =>
      by_cases hj : j = i
      · subst hj
        exact .died running procs
      · rcases exitTable_other status hj with heq | ⟨hblocked, heq⟩
        · exact .of_eq (by rw [procs, heq])
        · exact .woken hblocked (by rw [procs, heq])
  | reaped cur procs =>
      rcases procs j with heq | ⟨hreap, heq⟩
      · exact .of_eq heq
      · exact .reaped hreap heq

/-- The record of a process that exits. -/
theorem died_self {k k' : Kernel} {j : Fin procMax} (h : k'.procs = exitTable k.procs j status) :
    k'.procs j = (k.procs j).exited status := by
  rw [h, exitTable_self]

/-! ## Descriptors and free slots -/

/-- A descriptor in use after a call was there before it, or a fork of the current
process copied it into a free slot. -/
theorem Change.fds {k k' : Kernel} (h : Change status k k') (p : Fin procMax) (fd : Fin fdMax)
    (hused : ((k'.procs p).fds fd).used = true) :
    (k'.procs p).fds fd = (k.procs p).fds fd ∨
      (k.procs p).state = .unused ∧ ∃ c, k.currentProc = some c ∧
        (k'.procs p).fds fd = (k.procs c).fds fd := by
  cases h.slot p with
  | same life vmas => exact Or.inl (congrFun (congrArg Life.fds life) fd)
  | woken old new =>
      rw [new]
      exact Or.inl rfl
  | blocked old new =>
      rw [new]
      exact Or.inl rfl
  | filled parentPid isUser fds old life others parent =>
      have hfds : (k'.procs p).fds = fds := congrArg Life.fds life
      rcases parent with ⟨-, hzero⟩ | ⟨c, hrun, -, hcopy⟩
      · rw [hfds, hzero] at hused
        cases hused
      · rw [hfds, hcopy]
        exact Or.inr ⟨old, c, (Kernel.running_eq_some.mp hrun).1, rfl⟩
  | cleared old new =>
      rw [new] at hused
      cases hused
  | died running procs =>
      rw [died_self procs] at hused ⊢
      simp only [Process.exited] at hused ⊢
      split at hused
      · cases hused
      · rename_i hno
        exact absurd hused hno
  | reaped old new =>
      rw [new] at hused
      cases hused

/-- A slot that is free after a call was as free before, or the call cleared it. -/
theorem Change.unused {k k' : Kernel} (h : Change status k k') (p : Fin procMax)
    (hfree : (k'.procs p).state = .unused) :
    (k'.procs p).life = (k.procs p).life ∨ k'.procs p = .unused := by
  cases h.slot p with
  | same life vmas => exact Or.inl life
  | woken old new =>
      rw [new] at hfree
      cases hfree
  | blocked old new =>
      rw [new] at hfree
      cases hfree
  | filled parentPid isUser fds old life others parent =>
      have hrunnable : (k'.procs p).state = .runnable := congrArg Life.state life
      rw [hrunnable] at hfree
      cases hfree
  | cleared old new => exact Or.inr new
  | died running procs =>
      rw [died_self procs] at hfree
      cases hfree
  | reaped old new => exact Or.inr new

end Sugimotos.Proc
