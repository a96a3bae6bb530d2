/-
# Page-table updates and their frame

Seen through `vm_query_user_page`, mapping and unmapping a page changes one page
of one address space.  The frame across spaces rests on the ownership of the
second-level tables, which `KernelInv` provides in every reachable state.
-/

import Sugimotos.Mm.Frame
import Sugimotos.Proc.KernelRun

namespace Sugimotos.Proc

open Sugimotos.Math Sugimotos.Mm

variable {L : Layout} {k : Kernel}

/-- The `satp` values in use: that of the kernel and those of the processes. -/
def Kernel.LiveSatp (k : Kernel) (satp : Nat) : Prop :=
  satp = k.kernelSatpValue ∨ ∃ i, (k.procs i).state ≠ .unused ∧ satp = (k.procs i).satp

instance (k : Kernel) (satp : Nat) : Decidable (k.LiveSatp satp) :=
  inferInstanceAs (Decidable (_ ∨ _))

/-- The space a `satp` value belongs to. -/
def Kernel.SpaceOf (k : Kernel) (satp : Nat) : Space → Prop
  | none => satp = k.kernelSatpValue
  | some i => (k.procs i).isUser = true ∧ satp = (k.procs i).satp

/-- Every `satp` value in use belongs to the kernel or to a user process. -/
theorem KernelInv.exists_space (h : KernelInv L k) {satp : Nat} (hlive : k.LiveSatp satp) :
    ∃ space, k.SpaceOf satp space := by
  rcases hlive with hkernel | ⟨i, hused, rfl⟩
  · exact ⟨none, hkernel⟩
  · cases huser : (k.procs i).isUser with
    | true => exact ⟨some i, huser, rfl⟩
    | false => exact ⟨none, (h.ok i).kernel huser hused⟩

theorem Kernel.SpaceOf.root {satp : Nat} {space : Space} (h : k.SpaceOf satp space) :
    tableRoots k.procs k.kernelPage space = some (rootPage satp) := by
  cases space with
  | none =>
      rw [show satp = k.kernelSatpValue from h]
      rfl
  | some i =>
      rw [h.2]
      exact tableRoots_user h.1

/-- Different `satp` values in use belong to different spaces. -/
theorem KernelInv.space_eq_iff (h : KernelInv L k) {satp satp' : Nat} {space space' : Space}
    (hspace : k.SpaceOf satp space) (hspace' : k.SpaceOf satp' space') :
    space' = space ↔ satp' = satp := by
  constructor
  · rintro rfl
    cases space' with
    | none => exact Eq.trans hspace' hspace.symm
    | some i => exact hspace'.2.trans hspace.2.symm
  · rintro rfl
    exact h.mm.vm.root_injective hspace.root hspace'.root

/-- The permissions of a user page are those asked for, and user access. -/
theorem userPerm_eq (prot : Nat) : userPerm prot = pteU ||| protToQueryBits prot := by
  have hlt : prot % 8 < 8 := Nat.mod_lt _ (by decide)
  unfold userPerm protToQueryBits
  rw [land_prot prot (show vmaProtR < 8 by decide), land_prot prot (show vmaProtW < 8 by decide),
    land_prot prot (show vmaProtX < 8 by decide)]
  generalize prot % 8 = bits at hlt
  interval_cases bits <;> rfl

/-- What `vm_query_user_page` says after one translation of one space was set. -/
theorem query_of_walk {satp satp' va a : Nat} {done : Bool} {new : Option Leaf} {space space' : Space}
    {s s' : Phys} (hsame : space' = space ↔ satp' = satp) (ha : a < 4294967296)
    (hwalk : walk s'.mem (rootPage satp') (a / 4096) =
      if done = true ∧ space' = space ∧ a / 4096 = va / 4096 then new
      else walk s.mem (rootPage satp') (a / 4096)) :
    vmQueryUserPage satp' a s' =
      if done = true ∧ satp' = satp ∧ a / 4096 = va / 4096 then new.map (leafQuery a)
      else vmQueryUserPage satp' a s := by
  rw [vmQueryUserPage_walk satp' a ha, vmQueryUserPage_walk satp' a ha, hwalk]
  simp only [hsame]
  split <;> rfl

/-- Mapping and unmapping change at most the page they name in the address space
they name. -/
theorem user_page_frame (hk : Reachable L k) {satp va : Nat} (hlive : k.LiveSatp satp)
    (hva : va < 4294967296) :
    (∀ {pa prot done s'}, pa < 4294967296 → pa % 4096 = 0 →
      prot &&& (vmaProtR ||| vmaProtW ||| vmaProtX) ≠ 0 →
      vmMapUserPage L satp va pa prot k.phys = (done, s') →
      ∀ {satp' a}, k.LiveSatp satp' → a < 4294967296 → vmQueryUserPage satp' a s' =
        if done = true ∧ satp' = satp ∧ a / 4096 = va / 4096 then
          some (pa + a % 4096, pteU ||| protToQueryBits prot)
        else vmQueryUserPage satp' a k.phys) ∧
    (∀ {done s'}, vmUnmapUserPage satp va k.phys = (done, s') →
      ∀ {satp' a}, k.LiveSatp satp' → a < 4294967296 → vmQueryUserPage satp' a s' =
        if done = true ∧ satp' = satp ∧ a / 4096 = va / 4096 then none
        else vmQueryUserPage satp' a k.phys) := by
  have h := hk.inv
  obtain ⟨space, hspace⟩ := h.exists_space hlive
  constructor
  · intro pa prot done s' hpa hpaAlign hprot hcall satp' a hlive' ha
    obtain ⟨space', hspace'⟩ := h.exists_space hlive'
    have hbits : prot % 8 ≠ 0 := by
      intro hzero
      rw [land_prot prot (by decide), hzero] at hprot
      exact hprot rfl
    have hwalk := vmMapUserPage_walk h.mm.vm hspace.root hva hpa hbits hcall hspace'.root
      (show a / 4096 < 1048576 by omega)
    have hpage : pa / 4096 * 4096 = pa := by omega
    rw [query_of_walk (h.space_eq_iff hspace hspace') ha hwalk, Option.map_some]
    unfold leafQuery
    rw [hpage, userPerm_eq]
  · intro done s' hcall satp' a hlive' ha
    obtain ⟨space', hspace'⟩ := h.exists_space hlive'
    have hwalk := vmUnmapUserPage_walk h.mm.vm hspace.root hva hcall hspace'.root
      (show a / 4096 < 1048576 by omega)
    rw [query_of_walk (h.space_eq_iff hspace hspace') ha hwalk, Option.map_none]

/-- A page in the middle of the kernel's 4 MiB leaves is mapped for user mode. -/
theorem user_page_frame_split :
    ∃ k s', smallRun [.createUserProcess smallEntry] = some k ∧
      vmMapUserPage smallLayout (k.procs 1).satp 0x80400000 0x80205000 3 k.phys = (true, s') ∧
      ∀ {satp' a}, k.LiveSatp satp' → a < 4294967296 → vmQueryUserPage satp' a s' =
        if satp' = (k.procs 1).satp ∧ a / 4096 = 0x80400 then
          some (0x80205000 + a % 4096, pteU ||| protToQueryBits 3)
        else vmQueryUserPage satp' a k.phys := by
  have hrun : (smallRun [.createUserProcess smallEntry]).any (fun k =>
      decide (k.LiveSatp (k.procs 1).satp) &&
        (vmMapUserPage smallLayout (k.procs 1).satp 0x80400000 0x80205000 3 k.phys).1) = true := by
    decide +kernel
  obtain ⟨k, hk, hvals⟩ := (Option.any_eq_true _ _).mp hrun
  rw [Bool.and_eq_true, decide_eq_true_eq] at hvals
  have hmap : vmMapUserPage smallLayout (k.procs 1).satp 0x80400000 0x80205000 3 k.phys =
      (true, (vmMapUserPage smallLayout (k.procs 1).satp 0x80400000 0x80205000 3 k.phys).2) :=
    Prod.ext hvals.2 rfl
  refine ⟨k, _, hk, hmap, fun {satp' a} hlive ha => ?_⟩
  have hframe := (user_page_frame (smallRun_reachable hk) hvals.1 (by decide)).1
    (by decide) (by decide) (by decide) hmap hlive ha
  simpa only [true_and] using hframe

end Sugimotos.Proc
