/-
# Every access is allowed

Over the runs of the kernel: whatever the operations and their order, each address of user
memory the kernel has dereferenced lay, when it did, in a VMA of the current process that
allows the access.
-/

import Sugimotos.Proc.UserCopy

namespace Sugimotos.Proc

open Sugimotos.Math Sugimotos.Mm

variable {L : Layout} {k k' : Kernel} {i : Fin procMax}

/-! ## Calls that leave user memory alone -/

theorem resetProcess_touched {proc : Process} {s : Phys} (h : resetProcess L k i proc s = .ok k') :
    k'.touched = k.touched := by
  unfold resetProcess at h
  split at h
  · cases h
  · cases h
    rfl

theorem createProcess_touched (k : Kernel) : (createProcess k).2.touched = k.touched := by
  unfold createProcess
  split <;> rfl

theorem createUserProcess_touched {entryPc : Nat} {out : Option (Fin procMax) × Kernel}
    (h : createUserProcess L entryPc k = .ok out) : out.2.touched = k.touched := by
  unfold createUserProcess at h
  split at h
  · cases h
    rfl
  dsimp only at h
  split at h
  · cases h
    rfl
  split at h
  · cases h
  · split at h
    · cases h
    · rename_i hreset
      cases h
      exact resetProcess_touched hreset
  · split at h
    · split at h
      · cases h
      · rename_i hreset
        cases h
        exact resetProcess_touched hreset
    · cases h
      rfl

theorem procFork_touched {out : Option Int × Kernel} (h : procFork L k = .ok out) :
    out.2.touched = k.touched := by
  unfold procFork at h
  split at h
  · cases h
    rfl
  dsimp only at h
  split at h
  · cases h
    rfl
  split at h
  · cases h
    rfl
  split at h
  · cases h
    rfl
  split at h
  · cases h
  · split at h
    · cases h
    · rename_i hreset
      cases h
      exact resetProcess_touched hreset
  split at h
  · split at h
    · cases h
    · rename_i hreset
      cases h
      exact resetProcess_touched hreset
  split at h
  · cases h
  · split at h
    · cases h
    · rename_i hreset
      cases h
      exact resetProcess_touched hreset
  · cases h
    rfl

theorem reap_touched (h : reap L k i = .ok k') : k'.touched = k.touched := resetProcess_touched h

theorem procReapOrphanZombies_touched (h : procReapOrphanZombies L k = .ok k') :
    k'.touched = k.touched := by
  have hloop : Outcome (procReapOrphanZombies L k) (fun out => out.touched = k.touched)
      fun _ => True := by
    have hloop := @Outcome.foldlM _ _ _ (fun k i =>
        let proc := k.procs i
        if k.idleProc = some i then .ok k
        else if proc.state ≠ .zombie ∨ ¬ proc.isUser ∨ proc.parentPid ≠ 0 then .ok k
        else reap L k i)
      (fun _ t => t.touched = k.touched) (fun _ : Panic => True)
    refine hloop (List.finRange procMax) k rfl fun j rest t ht => ?_
    dsimp only
    split
    · exact ht
    · split
      · exact ht
      · cases hreap : reap L t j with
        | error e => trivial
        | ok t' => exact (reap_touched hreap).trans ht
  exact hloop.of_eq_ok h

theorem waitpidScan_touched {pid : Int} {out : WaitScan × Kernel}
    (h : waitpidScan L pid i k = .ok out) : out.2.touched = k.touched := by
  unfold waitpidScan at h
  split at h
  · split at h
    · cases h
    · rename_i hreap
      cases h
      exact reap_touched hreap
  · split at h
    · cases h
      rfl
    · cases h
      rfl

theorem waitpidStep_touched {pid : Int} {options : UInt32}
    (h : waitpidStep L i pid options k = .ok k') : k'.touched = k.touched := by
  unfold waitpidStep at h
  split at h
  · cases h
    rfl
  split at h
  · cases h
  · rename_i hscan
    have hsame := waitpidScan_touched hscan
    split at h <;> cases h <;> exact hsame
  · rename_i hscan
    cases h
    exact waitpidScan_touched hscan

theorem faultDone_touched {m : Except Stop (Bool × Phys)} (h : faultDone k m = .ok k') :
    k'.touched = k.touched := by
  unfold faultDone at h
  split at h
  · cases h
  · cases h
    rfl
  · cases h
    exact procExit_touched 128 _

/-! ## The arguments of `proc_exec` -/

theorem Serves.bind {α β : Type} {m : Except Halt (α × Kernel)}
    {f : α × Kernel → Except Halt (β × Kernel)} (hm : Serves L i k m)
    (hf : ∀ a k₁, Serving L i k₁ → SameTable k k₁ → Serves L i k₁ (f (a, k₁))) :
    Serves L i k (m >>= f) := by
  refine Outcome.bind hm fun out hout => ?_
  exact Serves.after hout.2 (hf out.1 out.2 hout.1 hout.2)

theorem loadU32_serves (h : Serving L i k) {va : Nat} (hva : va < 4294967296)
    (hok : procVmaRangeOk (k.procs i) va 4 vmaProtR = true) : Serves L i k (loadU32 L va k) := by
  have hbytes := h.bytesOk hva (by decide) hok
  have h0 := hbytes 0 (by decide)
  rw [Nat.add_zero, u32_of_lt hva] at h0
  unfold loadU32
  refine (loadByte_serves h h0).bind fun b0 k₁ h₁ t₁ => ?_
  refine (loadByte_serves h₁ ((hbytes 1 (by decide)).table t₁)).bind fun b1 k₂ h₂ t₂ => ?_
  have t₂' := sameTable_follows.trans t₁ t₂
  refine (loadByte_serves h₂ ((hbytes 2 (by decide)).table t₂')).bind fun b2 k₃ h₃ t₃ => ?_
  have t₃' := sameTable_follows.trans t₂' t₃
  refine (loadByte_serves h₃ ((hbytes 3 (by decide)).table t₃')).bind fun b3 k₄ h₄ t₄ => ?_
  exact Serves.pure h₄ _

theorem cstrLoop_serves (h : Serving L i k) (addr left n : Nat) :
    Serves L i k (cstrLoop L addr left n k) := by
  induction left generalizing n k with
  | zero => exact Serves.pure h _
  | succ left ih =>
      unfold cstrLoop
      split
      · exact Serves.pure h _
      · rename_i hcheck
        rw [not_not, h.readable] at hcheck
        have hload := loadByte_serves h ⟨hcheck, u32_lt (addr + n)⟩
        cases hcall : loadByte L (u32 (addr + n)) k with
        | error e =>
            rw [hcall] at hload
            exact hload.error
        | ok out =>
            rw [hcall] at hload
            obtain ⟨hserving, htable⟩ := hload
            dsimp only
            split
            · exact Serves.after htable (Serves.pure hserving _)
            · exact Serves.after htable (ih hserving (n + 1))

theorem procUserCstrOk_serves (h : Serving L i k) (addr maxLen : Nat) :
    Serves L i k (procUserCstrOk L addr maxLen k) := by
  unfold procUserCstrOk
  split
  · exact Serves.pure h _
  · split
    · exact Serves.pure h _
    · exact cstrLoop_serves h addr maxLen 0

theorem argvLoop_serves (h : Serving L i k) (argvPtr left n : Nat) :
    Serves L i k (argvLoop L argvPtr left n k) := by
  induction left generalizing n k with
  | zero => exact Serves.pure h _
  | succ left ih =>
      unfold argvLoop
      dsimp only
      split
      · exact Serves.pure h _
      · rename_i hcheck
        rw [not_not, h.readable] at hcheck
        have hload := loadU32_serves h (u32_lt _) hcheck
        cases hcall : loadU32 L (u32 (argvPtr + n * 4)) k with
        | error e =>
            rw [hcall] at hload
            exact hload.error
        | ok out =>
            obtain ⟨argp, k₁⟩ := out
            rw [hcall] at hload
            obtain ⟨hserving, htable⟩ := hload
            refine Serves.after htable ?_
            dsimp only
            split
            · exact Serves.pure hserving _
            · have hstr := procUserCstrOk_serves hserving argp 128
              cases hcall' : procUserCstrOk L argp 128 k₁ with
              | error e =>
                  rw [hcall'] at hstr
                  exact hstr.error
              | ok out =>
                  obtain ⟨ok, k₂⟩ := out
                  rw [hcall'] at hstr
                  obtain ⟨hserving', htable'⟩ := hstr
                  refine Serves.after htable' ?_
                  cases ok with
                  | false => exact Serves.pure hserving' _
                  | true => exact ih hserving' (n + 1)

theorem procUserExecArgvOk_serves (h : Serving L i k) (argvPtr : Nat) :
    Serves L i k (procUserExecArgvOk L argvPtr k) := by
  unfold procUserExecArgvOk
  split
  · exact Serves.pure h _
  · exact argvLoop_serves h argvPtr 32 0

/-! ## What a call leaves -/

theorem Guarded.of_touched (h : Guarded L k) (hinv : KernelInv L k') (htouched : k'.touched = k.touched) :
    Guarded L k' := by
  refine ⟨hinv, ?_⟩
  unfold Kernel.TouchesAllowed
  rw [htouched]
  exact h.touches

theorem Serving.guarded (h : Serving L i k) : Guarded L k := ⟨h.inv, h.touches⟩

theorem Guarded.serving (h : Guarded L k) (hrun : k.running = some i) (huser : (k.procs i).isUser = true) :
    Serving L i k := ⟨h.inv, hrun, huser, h.touches⟩

/-- A process blocks or is woken. -/
theorem setState_guarded (h : Guarded L k) (hused : (k.procs i).state ≠ .unused)
    {state : ProcState} (hstate : state ≠ .unused) :
    Guarded L (k.setProc i { k.procs i with state := state }) := by
  have hrecord : SameSpace (k.procs i) { k.procs i with state := state } :=
    ⟨rfl, rfl, rfl, rfl, rfl,
      ⟨fun hno => absurd hno hstate, fun hno => absurd hno hused⟩⟩
  exact h.of_touched (h.inv.kept_record hrecord).inv rfl

/-- A call of process `i` that keeps the invariant, if the kernel goes on. -/
def Ends (L : Layout) (i : Fin procMax) (k : Kernel) {α : Type} (m : Except Halt (α × Kernel)) :
    Prop :=
  Outcome m (fun out => Guarded L out.2 ∧ Spares i k out.2) (Ended L i k)

theorem Spares.setProc (k : Kernel) (i : Fin procMax) (p : Process) (s : Phys) :
    Spares i k ({ k with phys := s }.setProc i p) := by
  intro j hj hused hlive
  rw [Kernel.setProc_other _ p hj]
  exact ⟨rfl, hused, hlive⟩

theorem Serves.ends {α : Type} {m : Except Halt (α × Kernel)} (h : Serves L i k m) : Ends L i k m :=
  Outcome.imp h fun _ hout => ⟨hout.1.guarded, .of_procs hout.2.1⟩

theorem Ends.settle {α : Type} {m : Except Halt (α × Kernel)} (h : Ends L i k m)
    (hsettle : settle m = .ok k') : Guarded L k' := by
  cases m with
  | ok out =>
      cases hsettle
      exact h.1
  | error e =>
      cases e with
      | stop _ => cases hsettle
      | exited k =>
          cases hsettle
          exact h.1

theorem procExec_ends (h : Guarded L k) (hrun : k.running = some i) (entryPc argv : Nat) :
    Ends L i k (procExec L entryPc argv k) := by
  have hcur := (Kernel.running_eq_some.mp hrun).1
  have hunchanged : Ends L i k (.ok (false, k)) := ⟨h, .refl i k⟩
  unfold procExec
  rw [hcur]
  dsimp only
  split
  · exact hunchanged
  rename_i huser
  rw [not_not] at huser
  split
  · exact hunchanged
  have hargs := procUserExecArgvOk_serves (h.serving hrun huser) argv
  cases hcall : procUserExecArgvOk L argv k with
  | error e =>
      rw [hcall] at hargs
      exact hargs.ends
  | ok out =>
      obtain ⟨r, k₁⟩ := out
      rw [hcall] at hargs
      obtain ⟨hserving, htable⟩ := hargs
      cases r with
      | none => exact ⟨hserving.guarded, .of_procs htable.1⟩
      | some argc =>
          obtain ⟨proc, s, v, hreset, hinit, hexec⟩ :=
            hserving.inv.execed hserving.user entryPc argc argv
          dsimp only
          rw [hreset]
          dsimp only
          rw [hinit]
          refine ⟨hserving.guarded.of_touched hexec.kept.inv rfl, ?_⟩
          exact (Spares.of_procs htable.1).trans (Spares.setProc k₁ i _ s)

/-- The byte check that the operations `kernelLoad` and `kernelStore` require. -/
theorem checked_byteOk {addr : UInt32} {need : Nat} (h : checked k addr need = true)
    (hrun : k.running = some i) :
    (k.procs i).isUser = true ∧ ByteOk k i need addr.toNat := by
  unfold checked at h
  rw [hrun] at h
  dsimp only at h
  rw [Bool.and_eq_true] at h
  exact ⟨h.1, h.2, addr.toNat_lt⟩

/-- The operations that reach user memory check first. -/
theorem step_guarded (h : Guarded L k) (op : Op) (hop : enabled k op = true)
    (hstep : step L op k = .ok k') : Guarded L k' := by
  have hinv := (step_kept h.inv op hop hstep).inv
  cases op with
  | createProcess =>
      cases hstep
      exact h.of_touched hinv (createProcess_touched k)
  | createUserProcess entryPc =>
      obtain ⟨out, hcall, rfl⟩ := map_ok (liftPanic_ok hstep)
      exact h.of_touched hinv (createUserProcess_touched hcall)
  | reapOrphanZombies =>
      exact h.of_touched hinv (procReapOrphanZombies_touched (liftPanic_ok hstep))
  | switchTo next =>
      cases hstep
      refine h.of_touched hinv ?_
      unfold switchTo
      split <;> rfl
  | wake j =>
      simp only [step] at hstep
      split at hstep <;> cases hstep <;> exact h.of_touched hinv rfl
  | saveFrame f =>
      simp only [step] at hstep
      split at hstep <;> cases hstep <;> exact h.of_touched hinv rfl
  | fork =>
      simp only [step] at hstep
      split at hstep
      · cases hstep
        exact h
      · obtain ⟨out, hcall, rfl⟩ := map_ok (liftPanic_ok hstep)
        exact h.of_touched hinv (procFork_touched hcall)
  | exec entryPc argv =>
      simp only [step] at hstep
      split at hstep
      · cases hstep
        exact h
      · rename_i hrun
        exact (procExec_ends h hrun _ _).settle hstep
  | exit status =>
      simp only [step] at hstep
      split at hstep
      · cases hstep
        exact h
      · cases hstep
        exact h.of_touched hinv (procExit_touched status k)
  | waitpid pid options =>
      simp only [step] at hstep
      split at hstep
      · cases hstep
        exact h
      · exact h.of_touched hinv (waitpidStep_touched hstep)
  | mmap addrHint len prot flags =>
      simp only [step] at hstep
      split at hstep
      · cases hstep
        exact h
      · obtain ⟨out, hcall, rfl⟩ := map_ok (liftPanic_ok hstep)
        exact h.of_touched hinv rfl
  | munmap addr len =>
      simp only [step] at hstep
      split at hstep
      · cases hstep
        exact h
      · obtain ⟨out, hcall, rfl⟩ := map_ok (liftPanic_ok hstep)
        exact h.of_touched hinv rfl
  | pageFault addr access =>
      simp only [step] at hstep
      split at hstep
      · cases hstep
        exact h
      · exact h.of_touched hinv (faultDone_touched hstep)
  | userStore addr value =>
      simp only [step] at hstep
      split at hstep
      · cases hstep
        exact h
      · refine h.of_touched hinv ?_
        unfold userStore at hstep
        split at hstep
        · cases hstep
          rfl
        · exact faultDone_touched hstep
  | kernelLoad addr =>
      simp only [step] at hstep
      split at hstep
      · cases hstep
        exact h
      · rename_i hrun
        obtain ⟨huser, hok⟩ := checked_byteOk hop hrun
        exact (loadByte_serves (h.serving hrun huser) hok).ends.settle hstep
  | kernelStore addr value =>
      simp only [step] at hstep
      split at hstep
      · cases hstep
        exact h
      · rename_i hrun
        obtain ⟨huser, hok⟩ := checked_byteOk hop hrun
        exact (storeByte_serves (h.serving hrun huser) hok value).ends.settle hstep

end Sugimotos.Proc
