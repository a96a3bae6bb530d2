/-
# Stale translations

The hardware may keep any leaf translation of the active tables until `sfence.vma`.
`vm_unmap_user_page` and `vm_activate` flush.  `proc_vm_clone` lowers entries of the parent, and
`proc_try_cow_fault` puts a copy in the place of a shared page, and neither flushes.
-/

import Sugimotos.Proc.KernelRun

namespace Sugimotos.Proc

open Sugimotos.Math Sugimotos.Mm

variable {L : Layout} {k k₁ k' : Kernel} {i : Fin procMax}

/-- Every cached translation leads to the page that the tables of process `i` have there, and
grants nothing that they do not grant. -/
def NoStale (k : Kernel) (i : Fin procMax) : Prop :=
  ∀ e ∈ k.phys.mmu.tlb, ∃ leaf, walk k.phys.mem (rootPage (k.procs i).satp) e.vpn = some leaf ∧
    leaf.ppn = e.leaf.ppn ∧ e.leaf.perm &&& leaf.perm = e.leaf.perm

/-! ## Steps that keep the entries -/

/-- A page of a writable VMA is mapped with write permission. -/
def HasWritable (k : Kernel) (i : Fin procMax) : Prop :=
  ∃ j vpn leaf, ((k.procs i).vmas j).Covers vpn ∧ ((k.procs i).vmas j).prot &&& vmaProtW ≠ 0 ∧
    walk k.phys.mem (rootPage (k.procs i).satp) vpn = some leaf ∧ leaf.perm &&& pteW ≠ 0

/-- A write to a page of a writable VMA finds it mapped without write permission, and there is
a page for the copy. -/
def CopiesPage (k : Kernel) (i : Fin procMax) (vpn : Nat) : Prop :=
  ∃ j leaf, ((k.procs i).vmas j).Covers vpn ∧ ((k.procs i).vmas j).prot &&& vmaProtW ≠ 0 ∧
    walk k.phys.mem (rootPage (k.procs i).satp) vpn = some leaf ∧ leaf.perm &&& pteW = 0 ∧
    reservePages 1 k.phys.alloc ≠ none

/-- The operation of process `i` lowers no entry and copies no page. -/
def KeepsEntries (L : Layout) (k : Kernel) (i : Fin procMax) : Op → Prop
  | .fork => forkClones L k = true → ¬ HasWritable k i
  | .pageFault addr access => access = vmaProtW → ¬ CopiesPage k i (addr.toNat / 4096)
  | .userStore addr _ | .kernelStore addr _ => ¬ CopiesPage k i (addr.toNat / 4096)
  | _ => True

/-- The states reached in runs whose steps all keep the entries. -/
inductive KeepingRun (L : Layout) : Kernel → Prop
  | boot {mem : Memory} {mmu : Mmu} {k : Kernel} (h : boot L mem mmu = some k) : KeepingRun L k
  | step {k k' : Kernel} {op : Op} (hk : KeepingRun L k) (hop : enabled k op = true)
      (hkeeps : ∀ i, k.running = some i → KeepsEntries L k i op) (h : step L op k = .ok k') :
      KeepingRun L k'

/-! ## The cache -/

section Cache

variable {s s₁ s' : Phys}

/-- The tables in use stay in use, and nothing stale is cached if nothing was. -/
structure TlbKept (s s' : Phys) : Prop where
  satp : s'.mmu.satp = s.mmu.satp
  tlb : TlbOk s → TlbOk s'

namespace TlbKept

theorem refl (s : Phys) : TlbKept s s := ⟨rfl, fun h => h⟩

theorem trans (h : TlbKept s s₁) (h' : TlbKept s₁ s') : TlbKept s s' :=
  ⟨h'.satp.trans h.satp, fun htlb => h'.tlb (h.tlb htlb)⟩

theorem of_same (hmem : s'.mem = s.mem) (hmmu : s'.mmu = s.mmu) : TlbKept s s' := by
  refine ⟨by rw [hmmu], fun h => h.of_walk hmmu fun _ => ?_⟩
  rw [hmem]

theorem of_alloc (s : Phys) (a : Allocator) : TlbKept s { s with alloc := a } := of_same rfl rfl

theorem tick (s : Phys) : TlbKept s s.tick := ⟨rfl, fun h => h.tick⟩

/-- The active tables give the same translations as before. -/
theorem of_walk (hmmu : s'.mmu = s.mmu) (hwalk : ∀ {vpn}, vpn < 1048576 →
    walk s'.mem (rootPage s.mmu.satp) vpn = walk s.mem (rootPage s.mmu.satp) vpn) : TlbKept s s' :=
  ⟨by rw [hmmu], fun h => h.of_walk hmmu hwalk⟩

theorem withAlloc {call : Allocator → Except Panic Allocator} (h : s.withAlloc call = .ok s') :
    TlbKept s s' := by
  unfold Phys.withAlloc at h
  cases hcall : call s.alloc with
  | error e =>
      rw [hcall] at h
      cases h
  | ok a =>
      rw [hcall] at h
      cases h
      exact of_alloc s a

end TlbKept

/-- Freeing a page that is mapped nowhere else in the active tables. -/
theorem TlbKept.of_allocated {roots : Space → Option Nat} {held : Nat → Nat} {q n : Nat}
    (h : VmInv L roots held s.alloc s.mem) {space : Space}
    (hactive : roots space = some (rootPage s.mmu.satp)) (hal : Allocated L q n s s') :
    TlbKept s s' :=
  of_walk hal.mmu fun hvpn => (h.allocate hal).1.walk hactive hvpn

theorem TlbKept.of_quiet {roots : Space → Option Nat} {space : Space}
    (hactive : roots space = some (rootPage s.mmu.satp)) (h : Quiet L roots s s') : TlbKept s s' :=
  ⟨h.satp, h.tlb hactive⟩

/-! ## Giving pages back -/

/-- `vm_unmap_user_page` flushes, or leaves everything as it is. -/
theorem vmUnmapUserPage_tlb (satp va : Nat) (s : Phys) :
    TlbKept s (vmUnmapUserPage satp va s).2 := by
  unfold vmUnmapUserPage
  split
  · exact TlbKept.refl s
  · dsimp only
    split
    · exact TlbKept.refl s
    · split
      · exact TlbKept.refl s
      · exact ⟨rfl, fun _ => TlbOk.of_empty rfl⟩

theorem unmapAndFree_tlb {satp va : Nat} (h : unmapAndFree L satp s va = .ok s') : TlbKept s s' := by
  have hunmap := vmUnmapUserPage_tlb satp va s
  unfold unmapAndFree at h
  cases hquery : vmQueryUserPage satp va s with
  | none =>
      rw [hquery] at h
      cases h
      exact TlbKept.refl s
  | some found =>
      rw [hquery] at h
      obtain ⟨pa, bits⟩ := found
      dsimp only at h
      cases hcall : vmUnmapUserPage satp va s with
      | mk done s₁ =>
          rw [hcall] at h hunmap
          cases done with
          | true => exact hunmap.trans (TlbKept.withAlloc h)
          | false =>
              cases h
              exact hunmap

theorem sweep_tlb {satp : Nat} (vas : List Nat) (h : vas.foldlM (unmapAndFree L satp) s = .ok s') :
    TlbKept s s' := by
  induction vas generalizing s with
  | nil =>
      cases h
      exact TlbKept.refl _
  | cons va vas ih =>
      rw [List.foldlM_cons] at h
      cases hcall : unmapAndFree L satp s va with
      | error e =>
          rw [hcall] at h
          cases h
      | ok s₁ =>
          rw [hcall] at h
          exact (unmapAndFree_tlb hcall).trans (ih h)

theorem procVmRelease_tlb {proc : Process} (h : procVmRelease L proc s = .ok s') : TlbKept s s' := by
  unfold procVmRelease at h
  split at h
  · cases h
    exact TlbKept.refl s
  · cases hcall : (windowPages proc.vmas).foldlM (unmapAndFree L proc.satp) s with
    | error e =>
        rw [hcall] at h
        cases h
    | ok s₁ =>
        rw [hcall] at h
        have hwindow := sweep_tlb _ hcall
        change (if proc.satp = 0 then _ else _) = _ at h
        split at h
        · split at h
          · exact hwindow.trans (TlbKept.withAlloc h)
          · cases h
            exact hwindow
        · exact hwindow.trans (sweep_tlb _ h)

end Cache

/-! ## Calls of the running process -/

/-- What a call of process `i` leaves: it stays current, its tables stay in use, and nothing
stale is cached if nothing was. -/
structure Flushed (i : Fin procMax) (k k' : Kernel) : Prop where
  cur : k'.currentProc = k.currentProc
  satp : (k'.procs i).satp = (k.procs i).satp
  kept : TlbKept k.phys k'.phys

theorem Flushed.refl (i : Fin procMax) (k : Kernel) : Flushed i k k := ⟨rfl, rfl, TlbKept.refl _⟩

theorem Flushed.trans (h : Flushed i k k₁) (h' : Flushed i k₁ k') : Flushed i k k' :=
  ⟨h'.cur.trans h.cur, h'.satp.trans h.satp, h.kept.trans h'.kept⟩

/-- The record in one slot is written, and memory moves. -/
theorem Flushed.setProc {c : Fin procMax} {p : Process} {s : Phys} (hkept : TlbKept k.phys s)
    (hsatp : c = i → p.satp = (k.procs i).satp) :
    Flushed i k ({ k with phys := s }.setProc c p) := by
  refine ⟨rfl, ?_, hkept⟩
  by_cases hc : i = c
  · subst hc
    rw [Kernel.setProc_self]
    exact hsatp rfl
  · rw [Kernel.setProc_other _ p hc]

theorem resetProcess_flushed {c : Fin procMax} {proc : Process} {s : Phys} (hc : c ≠ i)
    (hkept : TlbKept k.phys s) (h : resetProcess L k c proc s = .ok k') : Flushed i k k' := by
  unfold resetProcess at h
  cases hcall : procVmRelease L proc s with
  | error e =>
      rw [hcall] at h
      cases h
  | ok s₁ =>
      rw [hcall] at h
      cases h
      exact Flushed.setProc (hkept.trans (procVmRelease_tlb hcall)) fun heq => absurd heq hc

theorem procExit_flushed (status : Int) (hcur : k.currentProc = some i) :
    Flushed i k (procExit status k) := by
  refine ⟨procExit_currentProc status k, ?_, ?_⟩
  · rw [procExit_procs status hcur, exitTable_self]
    rfl
  · rw [(procExit_globals status k).2]
    exact TlbKept.refl _

/-! ## Accesses to user memory -/

section Access

variable {access : Nat}

/-- A page fault that copies no page. -/
theorem KernelInv.fault_tlb (h : KernelInv L k) (huser : (k.procs i).isUser = true)
    (hactive : k.phys.mmu.satp = (k.procs i).satp) {sum ok : Bool} {addr : Nat} {s' : Phys}
    (hno : access = vmaProtW → ¬ CopiesPage k i (addr / 4096))
    (hcall : procHandleUserPageFault L sum (k.procs i) addr access k.phys = .ok (ok, s')) :
    TlbKept k.phys s' := by
  by_cases haddr : addr < 4294967296
  · have hr : tableRoots k.procs k.kernelPage (some i) = some (rootPage k.phys.mmu.satp) := by
      rw [hactive]
      exact tableRoots_user huser
    have hcase := h.fault huser sum access haddr
    rw [hcall] at hcase
    cases hcase with
    | refused hrefused => exact TlbKept.refl _
    | present hcov hprot hwalk hbits => exact TlbKept.refl _
    | exhausted hcov hprot hold hres => exact TlbKept.refl _
    | @noTable j q s₁ a' hcov hprot hwalk htable hal halloc hres hfree hdrop hinv =>
        have hallocated := TlbKept.of_allocated h.mm.vm hr hal
        exact (hallocated.trans (TlbKept.tick s₁)).trans (TlbKept.of_alloc _ a')
    | @mapped j leaf s' hcov hprot hold hperm hres htable hresolved hinv =>
        refine ⟨hresolved.satp, hresolved.tlb hr (Or.inr ?_)⟩
        rcases hold with hnone | ⟨old, hwalk, haccess, hshared⟩
        · exact hnone
        · subst haccess
          exact absurd ⟨j, old, hcov, write_of_access hprot, hwalk, hshared, hres⟩ (hno rfl)
  · rw [procHandleUserPageFault_high (h.vma huser) (by omega)] at hcall
    cases hcall
    exact TlbKept.refl _

/-- Accesses to user memory that copy no page. -/
structure Fetched (L : Layout) (i : Fin procMax) (k k' : Kernel) : Prop where
  reads : Reads L k k'
  kept : KernelInv L k → k.currentProc = some i → k.phys.mmu.satp = (k.procs i).satp →
    TlbKept k.phys k'.phys

theorem fetched_follows : Follows (Fetched L i) := by
  refine ⟨fun k => ⟨reads_follows.refl k, fun _ _ _ => TlbKept.refl _⟩, fun {k k₁ k₂} h h' => ?_⟩
  refine ⟨reads_follows.trans h.reads h'.reads, fun hinv hcur hactive => ?_⟩
  have hkept := h.kept hinv hcur hactive
  have hcur₁ : k₁.currentProc = some i := h.reads.table.2.trans hcur
  have hactive₁ : k₁.phys.mmu.satp = (k₁.procs i).satp := by
    rw [hkept.satp, h.reads.table.1]
    exact hactive
  exact hkept.trans (h'.kept (h.reads.kept hinv).inv hcur₁ hactive₁)

theorem touch_fetched {va : Nat} (hno : access = vmaProtW → ¬ CopiesPage k i (va / 4096)) :
    Along (Fetched L i) k (touch L access va k) := by
  unfold touch
  split
  · trivial
  · rename_i i' hcur
    dsimp only
    split
    · refine ⟨⟨⟨rfl, rfl⟩, ⟨rfl, rfl⟩, fun h => ?_⟩, fun _ _ _ => TlbKept.refl _⟩
      exact ⟨⟨h.mm, h.rootPt, h.ok, h.complete⟩, fun _ => rfl⟩
    · split
      · trivial
      · rename_i huser
        rw [not_not] at huser
        cases hfault : procHandleUserPageFault L true (k.procs i') va access k.phys with
        | error e => trivial
        | ok out =>
            obtain ⟨ok, s⟩ := out
            have hstep : Fetched L i k { k with
                phys := s
                touched := ⟨i', access, va, (k.procs i').vmas⟩ :: k.touched } := by
              refine ⟨Reads.of_fault huser _ hfault, fun h hcur' hactive => ?_⟩
              cases hcur.symm.trans hcur'
              exact h.fault_tlb huser hactive hno hfault
            cases ok with
            | false => exact ⟨_, hstep, rfl⟩
            | true =>
                dsimp only
                split
                · exact hstep
                · trivial

/-- The kernel only reads. -/
theorem touch_read_fetched (va : Nat) (k : Kernel) :
    Along (Fetched L i) k (touch L vmaProtR va k) :=
  touch_fetched fun hread => absurd hread (by decide)

theorem Fetched.flushed (hfetched : Fetched L i k k') (h : KernelInv L k)
    (hcur : k.currentProc = some i) (hactive : k.phys.mmu.satp = (k.procs i).satp) :
    Flushed i k k' := by
  refine ⟨hfetched.reads.table.2, ?_, hfetched.kept h hcur hactive⟩
  rw [hfetched.reads.table.1]

/-- A call that only reaches user memory, settled. -/
theorem Along.flushed {α : Type} {m : Except Halt (α × Kernel)} (hm : Along (Fetched L i) k m)
    (h : KernelInv L k) (hcur : k.currentProc = some i)
    (hactive : k.phys.mmu.satp = (k.procs i).satp) (hsettle : settle m = .ok k') :
    Flushed i k k' := by
  cases m with
  | ok out =>
      have hfetched : Fetched L i k out.2 := hm
      cases hsettle
      exact hfetched.flushed h hcur hactive
  | error e =>
      cases e with
      | stop e => cases hsettle
      | exited k₁ =>
          cases hsettle
          obtain ⟨k₂, hfetched, rfl⟩ := hm
          have hflushed := hfetched.flushed h hcur hactive
          exact hflushed.trans (procExit_flushed 128 (hflushed.cur.trans hcur))

end Access

/-! ## One lemma for each call -/

section Calls

variable (h : KernelInv L k) (hrun : k.running = some i)
  (hactive : k.phys.mmu.satp = (k.procs i).satp)
include hrun

/-- A slot that is not in use is not that of the running process. -/
theorem slot_ne_running {c : Fin procMax} (hslot : allocProcessSlot k.procs = some c) : c ≠ i := by
  rintro rfl
  have hstate := (Kernel.running_eq_some.mp hrun).2
  rw [allocProcessSlot_unused hslot] at hstate
  cases hstate

theorem createProcess_flushed : Flushed i k (createProcess k).2 := by
  unfold createProcess
  cases hslot : allocProcessSlot k.procs with
  | none => exact Flushed.refl i k
  | some c =>
      have hne := slot_ne_running hrun hslot
      exact Flushed.setProc (TlbKept.refl _) fun heq => absurd heq hne

/-- The loop over the orphans leaves the running process alone. -/
theorem reapOrphans_flushed (slots : List (Fin procMax))
    (hreap : slots.foldlM
      (fun k i =>
        let proc := k.procs i
        if k.idleProc = some i then .ok k
        else if proc.state ≠ .zombie ∨ ¬ proc.isUser ∨ proc.parentPid ≠ 0 then .ok k
        else reap L k i) k = .ok k') : Flushed i k k' := by
  induction slots generalizing k with
  | nil =>
      cases hreap
      exact Flushed.refl i _
  | cons c slots ih =>
      rw [List.foldlM_cons] at hreap
      dsimp only at hreap
      split at hreap
      · exact ih hrun hreap
      · split at hreap
        · exact ih hrun hreap
        · rename_i hzombie
          rw [not_or, not_not] at hzombie
          cases hcall : reap L k c with
          | error e =>
              rw [hcall] at hreap
              cases hreap
          | ok k₁ =>
              rw [hcall] at hreap
              obtain ⟨hcur, hstate⟩ := Kernel.running_eq_some.mp hrun
              have hne : c ≠ i := by
                rintro rfl
                rw [hstate] at hzombie
                cases hzombie.1
              have hreaped := resetProcess_flushed hne (TlbKept.refl _) hcall
              have hrun₁ : k₁.running = some i := by
                rw [Kernel.running_eq_some, hreaped.cur, (reap_ok hcall).1,
                  Function.update_of_ne hne.symm]
                exact ⟨hcur, hstate⟩
              exact hreaped.trans (ih hrun₁ hreap)

theorem waitpidScan_flushed {pid : Int} {r : WaitScan}
    (hscan : waitpidScan L pid i k = .ok (r, k')) : Flushed i k k' := by
  unfold waitpidScan at hscan
  split at hscan
  · rename_i c hfind
    have hzombie := (Bool.and_eq_true _ _ ▸ List.find?_some hfind).2
    have hne : c ≠ i := by
      rintro rfl
      rw [decide_eq_true_iff, (Kernel.running_eq_some.mp hrun).2] at hzombie
      cases hzombie
    cases hcall : reap L k c with
    | error e =>
        rw [hcall] at hscan
        cases hscan
    | ok k₁ =>
        rw [hcall] at hscan
        cases hscan
        exact resetProcess_flushed hne (TlbKept.refl _) hcall
  · split at hscan <;> cases hscan <;> exact Flushed.refl i k

theorem waitpidStep_flushed {pid : Int} {options : UInt32}
    (hstep : waitpidStep L i pid options k = .ok k') : Flushed i k k' := by
  unfold waitpidStep at hstep
  split at hstep
  · cases hstep
    exact Flushed.refl i k
  · cases hcall : waitpidScan L pid i k with
    | error e =>
        rw [hcall] at hstep
        cases hstep
    | ok out =>
        obtain ⟨r, k₁⟩ := out
        have hscan := waitpidScan_flushed hrun hcall
        rw [hcall] at hstep
        cases r with
        | noChild =>
            cases hstep
            exact hscan
        | reaped rpid status =>
            cases hstep
            exact hscan
        | noZombie =>
            dsimp only at hstep
            split at hstep
            · cases hstep
              exact hscan
            · cases hstep
              obtain ⟨rfl, -⟩ := waitpidScan_none hcall nofun
              exact Flushed.setProc (TlbKept.refl _) fun _ => rfl

include h hactive

/-- The tables in use are those of the kernel or those of the running process. -/
theorem active_space : ∃ space,
    tableRoots k.procs k.kernelPage space = some (rootPage k.phys.mmu.satp) := by
  rw [hactive]
  cases huser : (k.procs i).isUser with
  | true => exact ⟨some i, tableRoots_user huser⟩
  | false =>
      have hstate := (Kernel.running_eq_some.mp hrun).2
      rw [(h.ok i).kernel huser (by rw [hstate]; decide)]
      exact ⟨none, rfl⟩

/-- The stack pages of a new process are taken, and its space is built or given back. -/
theorem built_tlb {q n : Nat} {s s₁ : Phys} (hal : Allocated L q n k.phys s)
    (hquiet : Quiet L (tableRoots k.procs k.kernelPage) s s₁) : TlbKept k.phys s₁ := by
  obtain ⟨space, hspace⟩ := active_space h hrun hactive
  have hallocated := TlbKept.of_allocated h.mm.vm hspace hal
  rw [← hallocated.satp] at hspace
  exact hallocated.trans (TlbKept.of_quiet hspace hquiet)

theorem createUserProcess_flushed {entryPc : Nat} {out : Option (Fin procMax) × Kernel}
    (hcall : createUserProcess L entryPc k = .ok out) : Flushed i k out.2 := by
  cases createUserProcess_cases h hcall with
  | noSlot hslot => exact Flushed.refl i k
  | noStack hslot hres =>
      have hne := slot_ne_running hrun hslot
      exact Flushed.setProc (TlbKept.refl _) fun heq => absurd heq hne
  | noSpace hslot halloc hal hquiet hleak hbare hkept hreset =>
      exact resetProcess_flushed (slot_ne_running hrun hslot) (built_tlb h hrun hactive hal hquiet)
        hreset
  | created hslot hal hquiet hkept hfresh =>
      have hne := slot_ne_running hrun hslot
      exact Flushed.setProc (built_tlb h hrun hactive hal hquiet) fun heq => absurd heq hne

/-- The loop of `proc_vm_clone` over pages that are not writable. -/
theorem ForkSpace.cloned_tlb {c : Fin procMax} {q r : Nat} {s s₁ s₂ : Phys} {done : Bool}
    (hspace : ForkSpace L k i c q r s s₁) (hno : ¬ HasWritable k i)
    (hcloned : Cloned L (Function.update (tableRoots k.procs k.kernelPage) (some c) (some r)) i c
      (rootPage (k.procs i).satp) r (cowItems (k.procs i).vmas) done s₁ s₂) : TlbKept s₁ s₂ := by
  have hkept := built_tlb h hrun hactive hspace.alloc hspace.quiet
  have hne : (some i : Space) ≠ some c := fun heq => hspace.ne (Option.some.inj heq)
  have hroot : Function.update (tableRoots k.procs k.kernelPage) (some c) (some r) (some i) =
      some (rootPage s₁.mmu.satp) := by
    rw [Function.update_of_ne hne, hkept.satp, hactive]
    exact tableRoots_user hspace.user
  refine ⟨hcloned.satp, hcloned.tlb hroot hne (Or.inr fun {cow vpn leaf} hmem hwalk => ?_)⟩
  by_contra hwritable
  obtain ⟨j, hcov, hprot, -⟩ := (mem_cowItems (h.vma hspace.user)).mp hmem
  have hvpn := (h.vma hspace.user).covers_lt hcov
  -- building the space of the child leaves the translations of the parent alone
  have hold := (h.mm.vm.allocate hspace.alloc).1.walk (tableRoots_user hspace.user) hvpn
  rw [hspace.quiet.walk (tableRoots_user hspace.user) hvpn, hold] at hwalk
  exact hno ⟨j, vpn, leaf, hcov, hprot, hwalk, hwritable⟩

omit h hrun hactive in
/-- A construction that gives everything back. -/
theorem reset_flushed {α : Type} {c : Fin procMax} {proc : Process} {s : Phys}
    {out : Option α × Kernel} (hne : c ≠ i) (hkept : TlbKept k.phys s)
    (hcall : (match resetProcess L k c proc s with
      | .error e => Except.error e
      | .ok k' => Except.ok (none, k')) = .ok out) : Flushed i k out.2 := by
  cases hreset : resetProcess L k c proc s with
  | error e =>
      rw [hreset] at hcall
      cases hcall
  | ok k₁ =>
      rw [hreset] at hcall
      cases hcall
      exact resetProcess_flushed hne hkept hreset

theorem procFork_flushed {out : Option Int × Kernel}
    (hkeeps : forkClones L k = true → ¬ HasWritable k i) (hcall : procFork L k = .ok out) :
    Flushed i k out.2 := by
  have hcur := (Kernel.running_eq_some.mp hrun).1
  unfold procFork at hcall
  split at hcall
  · cases hcall
    exact Flushed.refl i k
  rename_i p hp
  cases hcur.symm.trans hp
  dsimp only at hcall
  split at hcall
  · cases hcall
    exact Flushed.refl i k
  rename_i hguard
  rw [not_or, not_not, not_not] at hguard
  obtain ⟨huser, hframe⟩ := hguard
  cases hslot : allocProcessSlot k.procs with
  | none =>
      rw [hslot] at hcall
      cases hcall
      exact Flushed.refl i k
  | some c =>
      have hne := slot_ne_running hrun hslot
      have hfree := allocProcessSlot_unused hslot
      rw [hslot] at hcall
      simp only [(h.ok i).pages huser, (h.ok i).base huser] at hcall
      cases halloc : allocPagesTry L 2 k.phys with
      | mk taken s =>
          rw [halloc] at hcall
          cases taken with
          | none =>
              obtain ⟨rfl, -⟩ := allocPagesTry_none h.mm.vm.alloc halloc
              cases hcall
              exact Flushed.setProc (TlbKept.refl _) fun heq => absurd heq hne
          | some paddr =>
              obtain ⟨q, rfl, hal⟩ := allocPagesTry_some h.mm.vm.alloc (by decide) halloc
              have hbuild := h.build hfree hal
              dsimp only at hcall
              cases hmade : vmBuildUserSatp L k.kernelRootPt 0x3fffe000 (q * 4096) 2 s with
              | error e =>
                  rw [hmade] at hcall
                  cases hcall
              | ok made =>
                  rw [hmade] at hbuild hcall
                  obtain ⟨satp, s₁⟩ := made
                  obtain ⟨hquiet, hbuild⟩ := hbuild
                  have hkept := built_tlb h hrun hactive hal hquiet
                  rcases hbuild with ⟨hfail, -, -⟩ | ⟨r, hok, hbuilt, hself, hroot⟩
                  · dsimp only at hfail
                    subst hfail
                    exact reset_flushed hne hkept hcall
                  · dsimp only at hok
                    subst hok
                    have hspace : ForkSpace L k i c q r s s₁ :=
                      ⟨huser, hslot, hne.symm, halloc, hal, hquiet, hbuilt, hroot _ (h.vma huser)⟩
                    dsimp only at hcall
                    split at hcall
                    · exact reset_flushed hne hkept hcall
                    rename_i hsp
                    rw [not_not] at hsp
                    have hclones : forkClones L k = true := by
                      unfold forkClones
                      rw [hcur]
                      simp only [huser, hframe, hslot, hsp, (h.ok i).pages huser,
                        (h.ok i).base huser, halloc, hmade, Option.isSome_some, Bool.and_self]
                    generalize hchild : archCloneUserContext _ (k.procs i) _ = child at hcall
                    have hforkChild : ForkChild k i c r child := by
                      subst hchild
                      exact ⟨rfl, rfl, rfl, rfl, rfl, rfl, rfl⟩
                    have hclone := hspace.clone h hself hforkChild
                    cases hcloned : procVmClone L (k.procs i) child s₁ with
                    | error e =>
                        rw [hcloned] at hcall
                        cases hcall
                    | ok cloned =>
                        rw [hcloned] at hclone hcall
                        obtain ⟨done, s₂⟩ := cloned
                        have hshared : TlbKept k.phys s₂ := hkept.trans
                          (hspace.cloned_tlb h hrun hactive (hkeeps hclones) hclone.2.2)
                        cases done with
                        | false => exact reset_flushed hne hshared hcall
                        | true =>
                            cases hcall
                            exact Flushed.setProc hshared fun heq => absurd heq hne

theorem procExec_flushed {entryPc argv : Nat}
    (hsettle : settle (procExec L entryPc argv k) = .ok k') : Flushed i k k' := by
  have hcur := (Kernel.running_eq_some.mp hrun).1
  unfold procExec at hsettle
  split at hsettle
  · cases hsettle
    exact Flushed.refl i k
  rename_i p hp
  cases hcur.symm.trans hp
  split at hsettle
  · cases hsettle
    exact Flushed.refl i k
  rename_i huser
  rw [not_not] at huser
  split at hsettle
  · cases hsettle
    exact Flushed.refl i k
  have hargv := procUserExecArgvOk_along fetched_follows (touch_read_fetched (L := L) (i := i)) argv k
  cases hcall : procUserExecArgvOk L argv k with
  | error e =>
      rw [hcall] at hsettle hargv
      exact hargv.flushed h hcur hactive (by cases e <;> exact hsettle)
  | ok out =>
      obtain ⟨r, k₁⟩ := out
      rw [hcall] at hsettle hargv
      cases r with
      | none => exact hargv.flushed h hcur hactive hsettle
      | some argc =>
          have hfetched : Fetched L i k k₁ := hargv
          have huser₁ : (k₁.procs i).isUser = true := by
            rw [hfetched.reads.table.1]
            exact huser
          obtain ⟨proc, s, v, hreset, hinit, hexec⟩ :=
            (hfetched.reads.kept h).inv.execed huser₁ entryPc argc argv
          dsimp only at hsettle
          rw [hreset] at hsettle
          dsimp only at hsettle
          rw [hinit] at hsettle
          cases hsettle
          have hswept : TlbKept k₁.phys s := ⟨hexec.swept.satp, hexec.swept.tlb⟩
          exact (hfetched.flushed h hcur hactive).trans (Flushed.setProc hswept fun _ => rfl)

omit h hrun hactive in
/-- A call that works on the window of the process, through `vm_unmap_user_page` alone. -/
theorem Stepped.flushed {roots : Space → Option Nat} {held : Nat → Nat}
    {vmas : Fin procMax → Vmas} {kr r : Nat} {v : Vmas} {s : Phys} {proc : Process}
    (hstep : Stepped L roots held vmas kr i r k.phys v s) (hsatp : proc.satp = (k.procs i).satp) :
    Flushed i k ({ k with phys := s }.setProc i proc) :=
  Flushed.setProc ⟨hstep.loc.satp, hstep.tlb⟩ fun _ => hsatp

omit hrun hactive in
theorem procMunmap_flushed {addr len : Nat} {out : Bool × Process × Phys}
    (hcall : procMunmap L (k.procs i) addr len k.phys = .ok out) :
    Flushed i k ({ k with phys := out.2.2 }.setProc i out.2.1) := by
  cases huser : (k.procs i).isUser with
  | false =>
      unfold procMunmap at hcall
      rw [if_pos (by rw [huser]; decide)] at hcall
      cases hcall
      exact Flushed.setProc (TlbKept.refl _) fun _ => rfl
  | true =>
      obtain ⟨v, hproc, hstep⟩ := (procMunmap_spec h.mm (tableRoots_user huser) rfl rfl addr
        len).of_eq_ok hcall
      exact hstep.flushed (by rw [hproc])

omit hrun hactive in
theorem procMmap_flushed {addrHint len prot flags : Nat} {out : Option Nat × Process × Phys}
    (hcall : procMmap L (k.procs i) addrHint len prot flags k.phys = .ok out) :
    Flushed i k ({ k with phys := out.2.2 }.setProc i out.2.1) := by
  cases huser : (k.procs i).isUser with
  | false =>
      unfold procMmap at hcall
      rw [if_pos (by rw [huser]; decide)] at hcall
      cases hcall
      exact Flushed.setProc (TlbKept.refl _) fun _ => rfl
  | true =>
      obtain ⟨v, hproc, hstep⟩ := (procMmap_spec h.mm (tableRoots_user huser) rfl rfl addrHint len
        prot flags).of_eq_ok hcall
      exact hstep.flushed (by rw [hproc])

theorem userPageFault_flushed {addr access : Nat}
    (hno : access = vmaProtW → ¬ CopiesPage k i (addr / 4096))
    (hdone : userPageFault L i addr access k = .ok k') : Flushed i k k' := by
  have hcur := (Kernel.running_eq_some.mp hrun).1
  unfold userPageFault at hdone
  cases huser : (k.procs i).isUser with
  | false =>
      have hrefused : procHandleUserPageFault L false (k.procs i) addr access k.phys =
          .ok (false, k.phys) := by
        unfold procHandleUserPageFault
        rw [huser, if_pos (by decide)]
      rw [hrefused] at hdone
      cases hdone
      exact procExit_flushed 128 hcur
  | true =>
      cases hfault : procHandleUserPageFault L false (k.procs i) addr access k.phys with
      | error e =>
          rw [hfault] at hdone
          cases hdone
      | ok out =>
          obtain ⟨ok, s⟩ := out
          rw [hfault] at hdone
          have hmoved : Flushed i k { k with phys := s } :=
            ⟨rfl, rfl, h.fault_tlb huser hactive hno hfault⟩
          cases ok with
          | true =>
              cases hdone
              exact hmoved
          | false =>
              cases hdone
              exact hmoved.trans (procExit_flushed 128 hcur)

omit hrun in
/-- No page table can be written to in user mode. -/
theorem store_tlb {va pa : Nat} {leaf : Leaf} (huser : (k.procs i).isUser = true)
    (hva : va < 4294967296)
    (hwalk : walk k.phys.mem (rootPage (k.procs i).satp) (va / 4096) = some leaf)
    (hU : leaf.perm &&& pteU ≠ 0) (hW : leaf.perm &&& pteW ≠ 0) (hpa : pa / 4096 = leaf.ppn)
    (page : PageBytes) : TlbKept k.phys (k.phys.setPage pa page) := by
  have hr : tableRoots k.procs k.kernelPage (some i) = some (rootPage k.phys.mmu.satp) := by
    rw [hactive]
    exact tableRoots_user huser
  have hsame := (h.mm.store (tableRoots_user huser) (show va / 4096 < 1048576 by omega) hwalk hU hW
    page).1
  refine TlbKept.of_walk rfl fun hvpn => ?_
  unfold Phys.setPage
  rw [hpa]
  exact hsame.walk hr hvpn

theorem userStore_flushed {addr : UInt32} {value : UInt8}
    (hno : ¬ CopiesPage k i (addr.toNat / 4096))
    (hstep : userStore L i addr.toNat value k = .ok k') : Flushed i k k' := by
  have hstate := (Kernel.running_eq_some.mp hrun).2
  have hva := addr.toNat_lt
  unfold userStore at hstep
  split at hstep
  · rename_i pa htranslate
    cases hstep
    have huser : (k.procs i).isUser = true := by
      by_contra hkernel
      rw [h.kernel_translate (Bool.eq_false_iff.mpr hkernel) (by rw [hstate]; decide) hva]
        at htranslate
      cases htranslate
    obtain ⟨leaf, hwalk, hU, hbits, hpa⟩ := userTranslate_eq_some.mp htranslate
    exact ⟨rfl, rfl, store_tlb h hactive huser hva (walk_of_hwWalk hwalk) hU (write_of_bits hbits)
      (by omega) _⟩
  · exact userPageFault_flushed h hrun hactive (fun _ => hno) hstep

theorem kernelStore_flushed {addr : UInt32} {value : UInt8}
    (hcheck : checked k addr vmaProtW = true) (hno : ¬ CopiesPage k i (addr.toNat / 4096))
    (hstep : settle ((storeByte L addr.toNat value k).map fun k => ((), k)) = .ok k') :
    Flushed i k k' := by
  have hcur := (Kernel.running_eq_some.mp hrun).1
  obtain ⟨i', hrun', huser, j, hcov, -⟩ := h.checked hcheck
  cases hrun.symm.trans hrun'
  have hva := addr.toNat_lt
  have htouch : Along (Fetched L i) k (touch L vmaProtW addr.toNat k) := touch_fetched fun _ => hno
  unfold storeByte at hstep
  cases hcall : touch L vmaProtW addr.toNat k with
  | error e =>
      rw [hcall] at hstep htouch
      have hexit : Along (Fetched L i) k (.error e : Except Halt (Unit × Kernel)) := htouch.error
      exact hexit.flushed h hcur hactive hstep
  | ok out =>
      obtain ⟨pa, k₁⟩ := out
      rw [hcall] at hstep htouch
      cases hstep
      have hfetched : Fetched L i k k₁ := htouch
      have hflushed := hfetched.flushed h hcur hactive
      have hinv := (hfetched.reads.kept h).inv
      obtain ⟨hprocs, leaf, hwalk, hbits, hpa, -⟩ := touch_ok h hcur huser hva hcall
      have huser₁ : (k₁.procs i).isUser = true := by
        rw [hprocs]
        exact huser
      have hactive₁ : k₁.phys.mmu.satp = (k₁.procs i).satp := by
        rw [hflushed.kept.satp, hprocs]
        exact hactive
      have hwalk₁ : walk k₁.phys.mem (rootPage (k₁.procs i).satp) (addr.toNat / 4096) = some leaf := by
        rw [hprocs]
        exact walk_of_hwWalk hwalk
      have hcov₁ : (tableVmas k₁.procs i j).Covers (addr.toNat / 4096) := by
        unfold tableVmas
        rw [hprocs]
        exact hcov
      have hU := hinv.mm.leaf_user (tableRoots_user huser₁) (by omega) hwalk₁ hcov₁
      exact hflushed.trans ⟨rfl, rfl,
        store_tlb hinv hactive₁ huser₁ hva hwalk₁ hU (write_of_bits hbits) hpa _⟩

/-- Every operation of the running process. -/
theorem step_flushed (op : Op) (hswitch : ∀ next, op ≠ .switchTo next) (hop : enabled k op = true)
    (hkeeps : KeepsEntries L k i op) (hstep : step L op k = .ok k') : Flushed i k k' := by
  have hcur := (Kernel.running_eq_some.mp hrun).1
  cases op with
  | createProcess =>
      cases hstep
      exact createProcess_flushed hrun
  | createUserProcess entryPc =>
      obtain ⟨out, hcall, rfl⟩ := map_ok (liftPanic_ok hstep)
      exact createUserProcess_flushed h hrun hactive hcall
  | reapOrphanZombies => exact reapOrphans_flushed hrun _ (liftPanic_ok hstep)
  | switchTo next => exact absurd rfl (hswitch next)
  | wake c =>
      simp only [step] at hstep
      split at hstep
      · cases hstep
        exact Flushed.setProc (TlbKept.refl _) fun heq => by rw [heq]
      · cases hstep
        exact Flushed.refl i k
  | saveFrame f =>
      simp only [step, hrun] at hstep
      cases hstep
      exact Flushed.setProc (TlbKept.refl _) fun _ => rfl
  | fork =>
      simp only [step, hrun] at hstep
      obtain ⟨out, hcall, rfl⟩ := map_ok (liftPanic_ok hstep)
      exact procFork_flushed h hrun hactive hkeeps hcall
  | exec entryPc argv =>
      simp only [step, hrun] at hstep
      exact procExec_flushed h hrun hactive hstep
  | exit status =>
      simp only [step, hrun] at hstep
      cases hstep
      exact procExit_flushed status hcur
  | waitpid pid options =>
      simp only [step, hrun] at hstep
      exact waitpidStep_flushed hrun hstep
  | mmap addrHint len prot flags =>
      simp only [step, hrun] at hstep
      obtain ⟨out, hcall, rfl⟩ := map_ok (liftPanic_ok hstep)
      exact procMmap_flushed h hcall
  | munmap addr len =>
      simp only [step, hrun] at hstep
      obtain ⟨out, hcall, rfl⟩ := map_ok (liftPanic_ok hstep)
      exact procMunmap_flushed h hcall
  | pageFault addr access =>
      simp only [step, hrun] at hstep
      exact userPageFault_flushed h hrun hactive hkeeps hstep
  | userStore addr value =>
      simp only [step, hrun] at hstep
      exact userStore_flushed h hrun hactive hkeeps hstep
  | kernelLoad addr =>
      simp only [step, hrun] at hstep
      have hload := loadByte_along (touch_read_fetched (L := L) (i := i)) addr.toNat k
      exact hload.flushed h hcur hactive hstep
  | kernelStore addr value =>
      simp only [step, hrun] at hstep
      exact kernelStore_flushed h hrun hactive hop hkeeps hstep

end Calls

/-! ## Runs -/

/-- The tables in use are those of the current process, and every cached translation is one
of them. -/
structure TlbInv (k : Kernel) : Prop where
  active : ∃ i, k.currentProc = some i ∧ k.phys.mmu.satp = (k.procs i).satp
  tlb : TlbOk k.phys

theorem TlbInv.active_of (hinv : TlbInv k) (hcur : k.currentProc = some i) :
    k.phys.mmu.satp = (k.procs i).satp := by
  obtain ⟨i', hcur', hactive⟩ := hinv.active
  cases hcur.symm.trans hcur'
  exact hactive

theorem TlbInv.switchTo (hinv : TlbInv k) (next : Fin procMax) : TlbInv (switchTo next k) := by
  unfold Proc.switchTo
  split
  · exact hinv
  · exact ⟨⟨next, rfl, rfl⟩, TlbOk.of_empty rfl⟩

theorem TlbInv.flushed (hinv : TlbInv k) (hcur : k.currentProc = some i) (hstep : Flushed i k k') :
    TlbInv k' := by
  refine ⟨⟨i, hstep.cur.trans hcur, ?_⟩, hstep.kept.tlb hinv.tlb⟩
  rw [hstep.kept.satp, hstep.satp]
  exact hinv.active_of hcur

/-- Whoever is not switched to is running. -/
theorem running_of_enabled {op : Op} (hop : enabled k op = true)
    (hswitch : ∀ next, op ≠ .switchTo next) : ∃ i, k.running = some i := by
  have hchecked : ∀ {addr : UInt32} {need : Nat}, checked k addr need = true →
      ∃ i, k.running = some i := by
    intro addr need hcheck
    unfold checked at hcheck
    cases hrun : k.running with
    | none =>
        rw [hrun] at hcheck
        cases hcheck
    | some i => exact ⟨i, rfl⟩
  cases op with
  | switchTo next => exact absurd rfl (hswitch next)
  | kernelLoad addr => exact hchecked hop
  | kernelStore addr value => exact hchecked hop
  | _ => exact Option.isSome_iff_exists.mp hop

theorem TlbInv.step {op : Op} (hinv : TlbInv k) (h : KernelInv L k) (hop : enabled k op = true)
    (hkeeps : ∀ i, k.running = some i → KeepsEntries L k i op) (hstep : step L op k = .ok k') :
    TlbInv k' := by
  by_cases hswitch : ∀ next, op ≠ .switchTo next
  · obtain ⟨i, hrun⟩ := running_of_enabled hop hswitch
    have hcur := (Kernel.running_eq_some.mp hrun).1
    exact hinv.flushed hcur
      (step_flushed h hrun (hinv.active_of hcur) op hswitch hop (hkeeps i hrun) hstep)
  · rw [not_forall] at hswitch
    obtain ⟨next, hnext⟩ := hswitch
    rw [not_not] at hnext
    subst hnext
    cases hstep
    exact hinv.switchTo next

theorem boot_tlbInv {mem : Memory} {mmu : Mmu} (hboot : boot L mem mmu = some k) : TlbInv k := by
  obtain ⟨satp, s, hinit, rfl⟩ := boot_some hboot
  obtain ⟨kr, s', hrun, -, -, -, hsatp, htlb⟩ := vmInit_spec ⟨Allocator.static L, mem, mmu⟩ rfl
  cases hinit.symm.trans hrun
  refine ⟨⟨0, rfl, ?_⟩, TlbOk.of_empty htlb⟩
  exact hsatp

theorem KeepingRun.reachable (hk : KeepingRun L k) : Reachable L k := by
  induction hk with
  | boot h => exact .boot h
  | step hk hop hkeeps h ih => exact ih.step _ hop h

theorem KeepingRun.tlbInv (hk : KeepingRun L k) : TlbInv k := by
  induction hk with
  | boot h => exact boot_tlbInv h
  | step hk hop hkeeps h ih => exact ih.step hk.reachable.inv hop hkeeps h

/-- In a run that lowers no entry and copies no page, nothing stale is cached when the kernel
returns to a process. -/
theorem tlb_never_stale (hk : KeepingRun L k) (hrun : k.running = some i) : NoStale k i := by
  have hinv := hk.tlbInv
  have hactive := hinv.active_of (Kernel.running_eq_some.mp hrun).1
  intro e he
  obtain ⟨-, hwalk⟩ := hinv.tlb e he
  rw [hactive] at hwalk
  exact ⟨e.leaf, walk_of_hwWalk hwalk, rfl, Nat.and_self _⟩

/-- A page is mapped with write permission, or not at all. -/
def settled (k : Kernel) (vpn : Nat) : Bool :=
  k.running.all fun i => (walk k.phys.mem (rootPage (k.procs i).satp) vpn).all fun leaf =>
    decide (leaf.perm &&& pteW ≠ 0)

/-- No fork that clones, and no write to a page that is mapped without write permission. -/
def keepsEntries (k : Kernel) : Op → Bool
  | .fork => !forkClones smallLayout k
  | .pageFault addr access => decide (access ≠ vmaProtW) || settled k (addr.toNat / 4096)
  | .userStore addr _ | .kernelStore addr _ => settled k (addr.toNat / 4096)
  | _ => true

theorem not_copiesPage_of_settled {vpn : Nat} (h : settled k vpn = true) (hrun : k.running = some i) :
    ¬ CopiesPage k i vpn := by
  rintro ⟨j, leaf, -, -, hwalk, hperm, -⟩
  unfold settled at h
  rw [hrun, Option.all_some, hwalk, Option.all_some] at h
  exact of_decide_eq_true h hperm

theorem keepsEntries_small {op : Op} (h : keepsEntries k op = true) (hrun : k.running = some i) :
    KeepsEntries smallLayout k i op := by
  cases op with
  | fork =>
      intro hclones
      rw [keepsEntries, hclones] at h
      cases h
  | pageFault addr access =>
      intro hwrite
      rw [keepsEntries, hwrite, decide_eq_false (not_not_intro rfl), Bool.false_or] at h
      exact not_copiesPage_of_settled h hrun
  | userStore addr value => exact not_copiesPage_of_settled h hrun
  | kernelStore addr value => exact not_copiesPage_of_settled h hrun
  | _ => trivial

/-- The small machine, whose hardware caches the upper stack page whenever it can. -/
def cachingBoot : Option Kernel :=
  boot smallLayout (fun _ => zeroPage) ⟨0, [], fun _ => [0x3ffff], 0⟩

def cachingRun (ops : List Op) : Option Kernel := cachingBoot.bind (runEnabled smallLayout ops)

/-- A fork fails after the space of the child was built; then a page is mapped by a store to it,
written again, and given back, and another one is mapped. -/
def mappedOps : List Op :=
  [.createUserProcess smallEntry, .createUserProcess smallEntry, .switchTo 1, .saveFrame .zero, .fork,
    .mmap 0x20000000 0x2000 3 0, .pageFault 0x20000000 vmaProtW, .userStore 0x20000000 7,
    .switchTo 2, .userStore 0x80203000 7, .switchTo 1, .munmap 0x20000000 0x1000,
    .pageFault 0x20001000 vmaProtR]

theorem tlb_never_stale_mapped : ∃ k₀ k, cachingBoot = some k₀ ∧
    runWhile smallLayout keepsEntries mappedOps k₀ = some k ∧ k.phys.mmu.tlb ≠ [] ∧ NoStale k 1 := by
  have hrun : cachingBoot.any (fun k₀ =>
      (runWhile smallLayout keepsEntries mappedOps k₀).any fun k =>
        decide (k.running = some 1 ∧ k.phys.mmu.tlb ≠ [])) = true := by
    decide +kernel
  obtain ⟨k₀, hboot, hsome⟩ := (Option.any_eq_true _ _).mp hrun
  obtain ⟨k, hk, hvals⟩ := (Option.any_eq_true _ _).mp hsome
  obtain ⟨hrunning, hcached⟩ := of_decide_eq_true hvals
  have hkeeping : KeepingRun smallLayout k :=
    runWhile_rule (P := KeepingRun smallLayout) (fun k op k' hk hop hok hstep =>
      hk.step hop (fun i hrun => keepsEntries_small hok hrun) hstep) (.boot hboot) hk
  exact ⟨k₀, k, hboot, hk, hcached, tlb_never_stale hkeeping hrunning⟩

/-- A process forks with its stack cached. -/
def cachedForkOps : List Op :=
  [.createUserProcess smallEntry, .switchTo 1, .saveFrame (TrapFrame.zero.set .sp 0x40000000), .fork]

/-- The parent returns from `fork` and can still write to the page it shares. -/
theorem fork_leaves_stale : ¬ ∀ k i, Reachable smallLayout k → k.running = some i → NoStale k i := by
  have hrun : (cachingRun cachedForkOps).any (fun k => decide (k.running = some 1) &&
      k.phys.mmu.tlb.any fun e => (walk k.phys.mem (rootPage (k.procs 1).satp) e.vpn).any
        fun leaf => decide (e.leaf.perm &&& leaf.perm ≠ e.leaf.perm)) = true := by
    decide +kernel
  obtain ⟨k, hk, hvals⟩ := (Option.any_eq_true _ _).mp hrun
  rw [Bool.and_eq_true, decide_eq_true_iff] at hvals
  obtain ⟨hrunning, hstale⟩ := hvals
  obtain ⟨e, he, hdiffers⟩ := List.any_eq_true.mp hstale
  obtain ⟨k₀, hboot, hops⟩ := Option.bind_eq_some_iff.mp hk
  intro hall
  obtain ⟨leaf, hwalk, -, hperm⟩ := hall k 1 ((Reachable.boot hboot).runEnabled hops) hrunning e he
  rw [hwalk] at hdiffers
  exact of_decide_eq_true hdiffers hperm

end Sugimotos.Proc
