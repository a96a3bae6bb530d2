/-
# Pages that nobody gives back

`proc_vm_release` frees the pages of the mmap window and of the stack.  The root and the
second-level tables of the process keep their count, although nothing refers to them any more.
Every process that is reaped loses them, and so does a construction that fails once its tables
are built.
-/

import Sugimotos.Proc.Spared

namespace Sugimotos.Proc

open Sugimotos.Math Sugimotos.Mm

variable {L : Layout} {k k' : Kernel} {i : Fin procMax} {r : Nat} {held w : Nat → Nat}

/-- Every managed page is counted once for each user mapping, second-level table and root that
refers to it.  In these runs the kernel allocates nothing else. -/
def Accounted (L : Layout) (k : Kernel) : Prop :=
  ∀ p, L.Managed p →
    refcntOf L k.phys.alloc p = refs (target (tableRoots k.procs k.kernelPage) k.phys.mem) p

/-- A page that is counted without being referred to. -/
structure Lost (L : Layout) (k : Kernel) (r : Nat) : Prop where
  managed : L.Managed r
  inv : MmInv L (tableRoots k.procs k.kernelPage) (fun p => if p = r then 1 else 0)
    (tableVmas k.procs) k.kernelPage k.phys

theorem Lost.not_accounted (h : Lost L k r) : ¬ Accounted L k := by
  intro hall
  have hcount := hall r h.managed
  rcases h.inv.vm.account h.managed with heq | ⟨-, hheld, -⟩
  · rw [if_pos rfl] at heq
    omega
  · rw [if_pos rfl] at hheld
    cases hheld

/-! ## Reaping -/

/-- The accounting after a user process was reaped.  Its root may be counted as lost. -/
theorem reap_held (h : KernelInv L k) (huser : (k.procs i).isUser = true)
    (hinv : MmInv L (tableRoots k.procs k.kernelPage) held (tableVmas k.procs) k.kernelPage k.phys)
    (hroot : w (rootPage (k.procs i).satp) ≤ 1)
    (hother : ∀ p, p ≠ rootPage (k.procs i).satp → w p = held p) (hreap : reap L k i = .ok k') :
    MmInv L (tableRoots k'.procs k'.kernelPage) w (tableVmas k'.procs) k'.kernelPage k'.phys := by
  obtain ⟨s, hrelease, rfl⟩ := resetProcess_some hreap
  have hdrop := procVmRelease_drop hinv (tableRoots_user huser) huser rfl ((h.ok i).satp huser) rfl
    ((h.ok i).base huser) ((h.ok i).pages huser) hroot hother
  rw [hrelease] at hdrop
  have hprocs : ({ k with phys := s }.setProc i .unused).procs = Function.update k.procs i .unused :=
    rfl
  rw [hprocs, tableRoots_update]
  refine hdrop.1.congr_vmas fun j r' hr' => ?_
  have hj : j ≠ i := by
    rintro rfl
    rw [Function.update_self] at hr'
    cases hr'
  unfold tableVmas
  rw [Function.update_of_ne hj]

/-- The root of a process that is reaped is lost. -/
theorem reap_loses (h : KernelInv L k) (huser : (k.procs i).isUser = true)
    (hreap : reap L k i = .ok k') : Lost L k' (rootPage (k.procs i).satp) := by
  constructor
  · exact h.mm.vm.root_managed (tableRoots_user huser)
  · apply reap_held h huser h.mm _ _ hreap
    · rw [if_pos rfl]
    · intro p hp
      rw [if_neg hp]

/-- A lost page stays lost when another process is reaped. -/
theorem Lost.reap (hlost : Lost L k r) (h : KernelInv L k) (huser : (k.procs i).isUser = true)
    (hreap : Proc.reap L k i = .ok k') : Lost L k' r := by
  refine ⟨hlost.managed, reap_held h huser hlost.inv ?_ (fun _ _ => rfl) hreap⟩
  split <;> omega

theorem reap_others (hreap : reap L k i = .ok k') {j : Fin procMax} (hj : j ≠ i) :
    k'.procs j = k.procs j := by
  obtain ⟨s, -, rfl⟩ := resetProcess_some hreap
  exact setProc_others k i .unused s j hj

/-- Every user process has its record still, or its root is lost. -/
def KeptOrLost (L : Layout) (k k' : Kernel) : Prop :=
  ∀ j, (k.procs j).isUser = true →
    k'.procs j = k.procs j ∨ Lost L k' (rootPage (k.procs j).satp)

theorem KeptOrLost.gone (h : KeptOrLost L k k') (hinv : KernelInv L k)
    (huser : (k.procs i).isUser = true) (hgone : (k'.procs i).state = .unused) :
    Lost L k' (rootPage (k.procs i).satp) := by
  rcases h i huser with hsame | hlost
  · rw [hsame] at hgone
    exact absurd hgone ((hinv.ok i).used huser)
  · exact hlost

theorem KeptOrLost.refl (k : Kernel) : KeptOrLost L k k := fun _ _ => Or.inl rfl

/-- One more process is reaped. -/
theorem KeptOrLost.reap {k₁ : Kernel} (h : KeptOrLost L k k₁) (hinv : KernelInv L k₁)
    (huser : (k₁.procs i).isUser = true) (hreap : Proc.reap L k₁ i = .ok k') :
    KeptOrLost L k k' := by
  intro j hj
  rcases h j hj with hsame | hlost
  · by_cases hji : j = i
    · subst hji
      right
      rw [← hsame]
      exact reap_loses hinv huser hreap
    · left
      rw [reap_others hreap hji, hsame]
  · exact Or.inr (hlost.reap hinv huser hreap)

theorem procReapOrphanZombies_loses (h : KernelInv L k) :
    Outcome (procReapOrphanZombies L k) (KeptOrLost L k) (fun _ => False) := by
  unfold procReapOrphanZombies
  let soFar : List (Fin procMax) → Kernel → Prop := fun _ k₁ => Kept L k k₁ ∧ KeptOrLost L k k₁
  have hstart : soFar (List.finRange procMax) k := ⟨Kept.refl h, KeptOrLost.refl k⟩
  refine (Outcome.foldlM _ k hstart fun i rest k₁ hk => ?_).imp fun _ hk => hk.2
  obtain ⟨hkept, hlost⟩ := hk
  dsimp only
  split
  · exact ⟨hkept, hlost⟩
  split
  · exact ⟨hkept, hlost⟩
  rename_i hzombie
  have huser : (k₁.procs i).isUser = true := by
    by_contra hno
    exact hzombie (Or.inr (Or.inl hno))
  have hreap := reap_kept hkept.inv i
  cases hcall : reap L k₁ i with
  | error e =>
      rw [hcall] at hreap
      exact hreap
  | ok k₂ =>
      rw [hcall] at hreap
      exact ⟨hkept.trans hreap, hlost.reap hkept.inv huser hcall⟩

theorem waitpidScan_reap {pid rpid status : Int} {self : Fin procMax}
    (h : waitpidScan L pid self k = .ok (.reaped rpid status, k')) : ∃ i, reap L k i = .ok k' := by
  unfold waitpidScan at h
  split at h
  · rename_i i _
    split at h
    · cases h
    · rename_i k₁ hreap
      cases h
      exact ⟨i, hreap⟩
  · split at h <;> cases h

theorem waitpidStep_loses {self : Fin procMax} {pid : Int} {options : UInt32} (h : KernelInv L k)
    (hstep : waitpidStep L self pid options k = .ok k') (huser : (k.procs i).isUser = true)
    (hgone : (k'.procs i).state = .unused) : Lost L k' (rootPage (k.procs i).satp) := by
  have hused := (h.ok i).used huser
  unfold waitpidStep at hstep
  split at hstep
  · cases hstep
    exact absurd hgone hused
  cases hcall : waitpidScan L pid self k with
  | error e =>
      rw [hcall] at hstep
      cases hstep
  | ok out =>
      obtain ⟨found, k₁⟩ := out
      rw [hcall] at hstep
      cases found with
      | reaped rpid status =>
          cases hstep
          obtain ⟨z, hreap⟩ := waitpidScan_reap hcall
          by_cases hi : i = z
          · subst hi
            exact reap_loses h huser hreap
          · rw [reap_others hreap hi] at hgone
            exact absurd hgone hused
      | noChild =>
          cases hstep
          obtain ⟨rfl, -⟩ := waitpidScan_none hcall nofun
          exact absurd hgone hused
      | noZombie =>
          obtain ⟨rfl, -⟩ := waitpidScan_none hcall nofun
          dsimp only at hstep
          split at hstep
          · cases hstep
            exact absurd hgone hused
          · cases hstep
            by_cases hi : i = self
            · subst hi
              rw [Kernel.setProc_self] at hgone
              cases hgone
            · rw [Kernel.setProc_other _ _ hi] at hgone
              exact absurd hgone hused

/-- The operations that reap. -/
def Op.reaps : Op → Bool
  | .reapOrphanZombies | .waitpid .. => true
  | _ => false

/-- A user process whose slot becomes free loses its root. -/
theorem reaped_lost (hk : Reachable L k) {op : Op} (hop : op.reaps = true)
    (hstep : step L op k = .ok k') (huser : (k.procs i).isUser = true)
    (hgone : (k'.procs i).state = .unused) : Lost L k' (rootPage (k.procs i).satp) := by
  cases op with
  | reapOrphanZombies =>
      have hlost := (procReapOrphanZombies_loses hk.inv).of_eq_ok (liftPanic_ok hstep)
      exact hlost.gone hk.inv huser hgone
  | waitpid pid options =>
      simp only [step] at hstep
      split at hstep
      · cases hstep
        exact (KeptOrLost.refl k).gone hk.inv huser hgone
      · exact waitpidStep_loses hk.inv hstep huser hgone
  | _ => cases hop

/-- Whenever a user process is reaped, some page stays counted that nothing refers to. -/
theorem reap_leaks (hk : Reachable L k) {op : Op} (hop : op.reaps = true)
    (hstep : step L op k = .ok k') (huser : (k.procs i).isUser = true)
    (hgone : (k'.procs i).state = .unused) : ¬ Accounted L k' :=
  (reaped_lost hk hop hstep huser hgone).not_accounted

/-- A process exits and is reaped as an orphan. -/
def exitedOps : List Op := [.createUserProcess smallEntry, .switchTo 1, .exit 0, .switchTo 0]

theorem exited_reaped : ∃ k k', smallRun exitedOps = some k ∧
    step smallLayout .reapOrphanZombies k = .ok k' ∧ (k.procs 1).isUser = true ∧
    (k'.procs 1).state = .unused := by
  have hrun : (smallRun exitedOps).any (fun k => (k.procs 1).isUser &&
      (step smallLayout .reapOrphanZombies k).toOption.any fun k' =>
        decide ((k'.procs 1).state = .unused)) = true := by
    decide +kernel
  obtain ⟨k, hk, hvals⟩ := (Option.any_eq_true _ _).mp hrun
  rw [Bool.and_eq_true] at hvals
  obtain ⟨k', hstep, hgone⟩ := ok_of_any hvals.2
  exact ⟨k, k', hk, hstep, hvals.1, of_decide_eq_true hgone⟩

theorem reap_leaks_exited : ∃ k k', smallRun exitedOps = some k ∧
    step smallLayout .reapOrphanZombies k = .ok k' ∧ ¬ Accounted smallLayout k' := by
  obtain ⟨k, k', hk, hstep, huser, hgone⟩ := exited_reaped
  exact ⟨k, k', hk, hstep, reap_leaks (smallRun_reachable hk) rfl hstep huser hgone⟩

theorem reap_not_accounted : ¬ ∀ (L : Layout) (k : Kernel) (op : Op) (k' : Kernel)
    (i : Fin procMax), Reachable L k → op.reaps = true → step L op k = .ok k' →
    (k.procs i).isUser = true → (k'.procs i).state = .unused → Accounted L k' := by
  intro hall
  obtain ⟨k, k', hk, hstep, huser, hgone⟩ := exited_reaped
  have hreach := smallRun_reachable hk
  exact (reaped_lost hreach rfl hstep huser hgone).not_accounted
    (hall _ k _ k' 1 hreach rfl hstep huser hgone)

end Sugimotos.Proc
