/-
# What user processes have mapped

The guarantees on VMAs and user mappings that hold in every reachable state, read off the
kernel invariant, and the panics of the allocator.  One panic can happen: a process forks
that has a private copy of a page of its writable sections, and `proc_vm_clone` gives the
section itself back for the child.
-/

import Sugimotos.Proc.KernelRun
import Mathlib.Data.Fintype.Prod

namespace Sugimotos.Proc

open Sugimotos.Math Sugimotos.Mm

variable {L : Layout} {k k' : Kernel} {i : Fin procMax}

/-! ## VMAs and page tables agree -/

/-- The bits R, W, X and U of an entry that gives user mode a protection. -/
def userPerms (prot : Nat) : Nat := pteU ||| protToQueryBits prot

/-- The VMAs of a process are well formed, and what its table maps in the mmap window lies
in one of them, with its protection or that without `W`. -/
structure VmasAgree (k : Kernel) (i : Fin procMax) : Prop where
  aligned : ∀ j, ((k.procs i).vmas j).used = true →
    ((k.procs i).vmas j).start % 4096 = 0 ∧ ((k.procs i).vmas j).stop % 4096 = 0 ∧
      ((k.procs i).vmas j).start < ((k.procs i).vmas j).stop
  disjoint : ∀ j j', j ≠ j' → ((k.procs i).vmas j).used = true →
    ((k.procs i).vmas j').used = true →
    ((k.procs i).vmas j).stop ≤ ((k.procs i).vmas j').start ∨
      ((k.procs i).vmas j').stop ≤ ((k.procs i).vmas j).start
  window : ∀ j, ((k.procs i).vmas j).used = true →
    userMmapBase ≤ ((k.procs i).vmas j).start ∧ ((k.procs i).vmas j).stop ≤ userMmapEnd ∨
      ((k.procs i).vmas j).stop ≤ userMmapBase ∨ userMmapEnd ≤ ((k.procs i).vmas j).start
  mapped : ∀ vpn leaf, userMmapBase ≤ vpn * 4096 → vpn * 4096 < userMmapEnd →
    walk k.phys.mem (rootPage (k.procs i).satp) vpn = some leaf →
    ∃ j, ((k.procs i).vmas j).Covers vpn ∧ (leaf.perm = userPerms ((k.procs i).vmas j).prot ∨
      leaf.perm = userPerms (cowProt ((k.procs i).vmas j).prot))

theorem userPerms_eq : ∀ prot, prot < 8 → 2 * prot + 16 = userPerms prot := by decide

theorem VmaInv.window_or {vmas : Vmas} (h : VmaInv L vmas) {j : Fin procVmaMax}
    (hused : (vmas j).used = true) :
    userMmapBase ≤ (vmas j).start ∧ (vmas j).stop ≤ userMmapEnd ∨
      (vmas j).stop ≤ userMmapBase ∨ userMmapEnd ≤ (vmas j).start := by
  cases h.place hused with
  | inl hin =>
      have hwin := hin.1
      unfold Vma.inWindow at hwin
      rw [Bool.and_eq_true, decide_eq_true_iff, decide_eq_true_iff] at hwin
      exact Or.inl hwin
  | inr hstd => exact Or.inr (standardVmas_outside hstd).2

theorem WindowLeaf.perms {vmas : Vmas} {mem : Memory} {vpn : Nat} {leaf : Leaf}
    (hleaf : WindowLeaf L vmas mem vpn leaf) (h : VmaInv L vmas) :
    ∃ j, (vmas j).Covers vpn ∧ (leaf.perm = userPerms (vmas j).prot ∨
      leaf.perm = userPerms (cowProt (vmas j).prot)) := by
  obtain ⟨j, hcov, hperm, -⟩ := hleaf.vma
  have hlt := (h.region hcov).prot_lt.2
  rw [userPerms_eq _ hlt, userPerms_eq _ (cowProt_lt hlt)] at hperm
  exact ⟨j, hcov, hperm⟩

theorem vmas_agree (hk : Reachable L k) (huser : (k.procs i).isUser = true) : VmasAgree k i := by
  have hinv := hk.inv
  have hvma := hinv.vma huser
  constructor
  · intro j hused
    exact hvma.aligned hused
  · intro j j' hne hused hused'
    exact hvma.disjoint hne hused hused'
  · intro j hused
    exact hvma.window_or hused
  · intro vpn leaf hlow hhigh hwalk
    obtain ⟨hvpn, hw⟩ := windowPage_of_range le_rfl le_rfl hlow hhigh
    have hfits := hinv.mm.fits (tableRoots_user huser) hvpn hwalk
    rw [leafFits_window hw] at hfits
    exact hfits.perms hvma

/-- A process with two VMAs, one of them touched. -/
def touchedOps : List Op :=
  [.createUserProcess smallEntry, .switchTo 1, .mmap 0x20001000 0x1000 3 0,
    .mmap 0x20000000 0x1000 1 0, .userStore 0x20001000 7]

theorem vmas_agree_touched : ∃ k, smallRun touchedOps = some k ∧ VmasAgree k 1 := by
  have hrun : (smallRun touchedOps).any (fun k => (k.procs 1).isUser) = true := by
    decide +kernel
  obtain ⟨k, hk, huser⟩ := (Option.any_eq_true _ _).mp hrun
  exact ⟨k, hk, vmas_agree (smallRun_reachable hk) huser⟩

/-! ## References and user mappings -/

/-- The page that a user leaf entry of a process shows. -/
def Kernel.userTarget (k : Kernel) (site : Fin procMax × Fin 1048576) : Option Nat :=
  if (k.procs site.1).isUser then
    userPage (walk k.phys.mem (rootPage (k.procs site.1).satp) site.2)
  else none

/-- A page in use as a page table. -/
def Kernel.isTable (k : Kernel) (p : Nat) : Prop :=
  (∃ space, target (tableRoots k.procs k.kernelPage) k.phys.mem (.root space) = some p) ∨
    ∃ space j, target (tableRoots k.procs k.kernelPage) k.phys.mem (.table space j) = some p

/-- What the page tables of all user processes may show. -/
structure MapsSafe (L : Layout) (k : Kernel) : Prop where
  counted : ∀ p, L.Managed p → refs k.userTarget p ≤ refcntOf L k.phys.alloc p ∧
    refcntOf L k.phys.alloc p < 65536
  writable : ∀ i vpn leaf, (k.procs i).isUser = true →
    walk k.phys.mem (rootPage (k.procs i).satp) (vpn : Fin 1048576) = some leaf →
    leaf.perm &&& pteU ≠ 0 → leaf.perm &&& pteW ≠ 0 → L.Managed leaf.ppn →
    ∀ site, k.userTarget site = some leaf.ppn → site = (i, vpn)
  noTable : ∀ site p, k.userTarget site = some p → ¬ k.isTable p
  unmanaged : ∀ i vpn leaf, (k.procs i).isUser = true →
    walk k.phys.mem (rootPage (k.procs i).satp) (vpn : Fin 1048576) = some leaf →
    leaf.perm &&& pteU ≠ 0 → leaf.perm &&& pteW ≠ 0 → ¬ L.Managed leaf.ppn → dataPage L leaf.ppn

theorem userTarget_site {site : Fin procMax × Fin 1048576} {p : Nat}
    (h : k.userTarget site = some p) :
    target (tableRoots k.procs k.kernelPage) k.phys.mem (.leaf (some site.1) site.2) = some p := by
  unfold Kernel.userTarget at h
  split at h
  · rename_i huser
    change (tableRoots k.procs k.kernelPage (some site.1)).bind _ = _
    rw [tableRoots_user huser]
    exact h
  · cases h

theorem refs_userTarget (k : Kernel) (p : Nat) :
    refs k.userTarget p ≤ refs (target (tableRoots k.procs k.kernelPage) k.phys.mem) p := by
  apply refs_le_of_injective (fun site => Site.leaf (some site.1) site.2)
  · rintro ⟨i, vpn⟩ ⟨i', vpn'⟩ heq
    cases heq
    rfl
  · intro site hsite
    exact userTarget_site hsite

/-- The count of a managed page is small. -/
theorem KernelInv.refcnt_lt (h : KernelInv L k) {p : Nat} (hm : L.Managed p) :
    refcntOf L k.phys.alloc p ≤ 9 := by
  by_cases htable : VmInv.NoTable (tableRoots k.procs k.kernelPage) k.phys.mem p
  · have hrefs := h.mm.vm.refs_le_spaces hm htable.1 htable.2
    rcases h.mm.vm.account hm with heq | ⟨-, -, hsmall⟩ <;> omega
  · have hone : refcntOf L k.phys.alloc p = 1 := by
      unfold VmInv.NoTable at htable
      rw [not_and_or] at htable
      rcases htable with hroot | hlink
      · obtain ⟨space, hspace⟩ := not_forall_not.mp hroot
        exact h.mm.vm.root_single hspace
      · obtain ⟨space, hspace⟩ := not_forall.mp hlink
        obtain ⟨j, hj⟩ := not_forall_not.mp hspace
        exact h.mm.vm.table_single hj
    omega

theorem KernelInv.mapsSafe (h : KernelInv L k) : MapsSafe L k := by
  constructor
  · intro p hm
    have hrefs := refs_userTarget k p
    have hle := h.mm.vm.refs_le hm
    have hlt := h.refcnt_lt hm
    omega
  · intro i vpn leaf huser hwalk hU hW hm site hsite
    have heq := h.mm.vm.write_unique vpn (tableRoots_user huser) hwalk hU hW hm
      (userTarget_site hsite)
    cases heq
    rfl
  · rintro site p hsite (⟨space, hroot⟩ | ⟨space, j, hlink⟩)
    · exact h.mm.vm.leaf_not_root hroot (userTarget_site hsite)
    · exact (h.mm.vm.noTable_of_leaf (userTarget_site hsite)).2 space j hlink
  · intro i vpn leaf huser hwalk hU hW hm
    have hfits := h.mm.fits (tableRoots_user huser) vpn.isLt hwalk
    by_cases hw : windowPage vpn
    · exact absurd ((leafFits_window hw).mp hfits).managed hm
    by_cases hs : stackPage vpn
    · exact absurd ((leafFits_stack hs).mp hfits).1 hm
    by_cases hd : dataPage L vpn
    · rcases (leafFits_data hd).mp hfits with ⟨hppn, -⟩ | ⟨hm', -⟩
      · rw [hppn]
        exact hd
      · exact absurd hm' hm
    · rw [leafFits_rest hw hs hd] at hfits
      obtain ⟨hppn, huser⟩ := fixedLeaf_some hfits
      exact absurd ((huser hU).2 hW) hd

/-! ## Panics -/

/-- A call may end this way. -/
def Halt.NoPanic : Halt → Prop
  | .stop (.panic _) _ => False
  | _ => True

/-- A call that reaches user memory: it keeps the invariant and does not panic. -/
def Safely (L : Layout) {α : Type} (m : Except Halt (α × Kernel)) : Prop :=
  Outcome m (fun out => KernelInv L out.2) Halt.NoPanic

theorem KernelInv.fault_error (h : KernelInv L k) (huser : (k.procs i).isUser = true) {sum : Bool}
    {addr access : Nat} {e : Stop}
    (hcall : procHandleUserPageFault L sum (k.procs i) addr access k.phys = .error e) :
    e = .faultLoop := by
  by_cases haddr : addr < 4294967296
  · have hcase := h.fault huser sum access haddr
    rw [hcall] at hcase
    cases hcase with
    | loop => rfl
  · rw [procHandleUserPageFault_high (h.vma huser) (Nat.le_of_not_lt haddr)] at hcall
    cases hcall

theorem touch_safely (h : KernelInv L k) (access va : Nat) : Safely L (touch L access va k) := by
  have hreads := touch_reads (L := L) access va k
  cases hcall : touch L access va k with
  | ok out =>
      rw [hcall] at hreads
      have hgood : Reads L k out.2 := hreads
      exact (hgood.kept h).inv
  | error e =>
      unfold touch at hcall
      split at hcall
      · cases hcall
        trivial
      · rename_i i hcur
        dsimp only at hcall
        split at hcall
        · cases hcall
        split at hcall
        · cases hcall
          trivial
        rename_i huser
        rw [not_not] at huser
        cases hfault : procHandleUserPageFault L true (k.procs i) va access k.phys with
        | error e' =>
            rw [hfault] at hcall
            cases hcall
            rw [h.fault_error huser hfault]
            trivial
        | ok out =>
            obtain ⟨ok, s⟩ := out
            rw [hfault] at hcall
            cases ok with
            | false =>
                cases hcall
                trivial
            | true =>
                dsimp only at hcall
                split at hcall
                · cases hcall
                · cases hcall
                  trivial

theorem loadByte_safely (h : KernelInv L k) (va : Nat) : Safely L (loadByte L va k) := by
  have hva := touch_safely h vmaProtR va
  unfold loadByte
  cases hres : touch L vmaProtR va k with
  | error e =>
      rw [hres] at hva
      exact hva
  | ok out =>
      rw [hres] at hva
      exact hva

theorem loadU32_safely (h : KernelInv L k) (va : Nat) : Safely L (loadU32 L va k) := by
  unfold loadU32
  apply (loadByte_safely h va).bind
  rintro ⟨b0, k₁⟩ h₁
  apply (loadByte_safely h₁ (u32 (va + 1))).bind
  rintro ⟨b1, k₂⟩ h₂
  apply (loadByte_safely h₂ (u32 (va + 2))).bind
  rintro ⟨b2, k₃⟩ h₃
  apply (loadByte_safely h₃ (u32 (va + 3))).bind
  rintro ⟨b3, k₄⟩ h₄
  exact h₄

theorem cstrLoop_safely (h : KernelInv L k) (addr left i : Nat) :
    Safely L (cstrLoop L addr left i k) := by
  induction left generalizing i k with
  | zero => exact h
  | succ left ih =>
      unfold cstrLoop
      split
      · exact h
      · have hload := loadByte_safely h (u32 (addr + i))
        cases hres : loadByte L (u32 (addr + i)) k with
        | error e =>
            rw [hres] at hload
            exact hload
        | ok out =>
            obtain ⟨byte, k₁⟩ := out
            rw [hres] at hload
            dsimp only
            split
            · exact hload
            · exact ih hload (i + 1)

theorem procUserCstrOk_safely (h : KernelInv L k) (addr maxLen : Nat) :
    Safely L (procUserCstrOk L addr maxLen k) := by
  unfold procUserCstrOk
  split
  · exact h
  · split
    · exact h
    · exact cstrLoop_safely h addr maxLen 0

theorem argvLoop_safely (h : KernelInv L k) (argvPtr left i : Nat) :
    Safely L (argvLoop L argvPtr left i k) := by
  induction left generalizing i k with
  | zero => exact h
  | succ left ih =>
      unfold argvLoop
      dsimp only
      split
      · exact h
      · have hload := loadU32_safely h (u32 (argvPtr + i * 4))
        cases hres : loadU32 L (u32 (argvPtr + i * 4)) k with
        | error e =>
            rw [hres] at hload
            exact hload
        | ok out =>
            obtain ⟨argp, k₁⟩ := out
            rw [hres] at hload
            dsimp only
            split
            · exact hload
            · have hstr := procUserCstrOk_safely hload argp 128
              cases hok : procUserCstrOk L argp 128 k₁ with
              | error e =>
                  rw [hok] at hstr
                  exact hstr
              | ok out =>
                  obtain ⟨ok, k₂⟩ := out
                  rw [hok] at hstr
                  cases ok with
                  | false => exact hstr
                  | true => exact ih hstr (i + 1)

theorem procExec_noPanic (h : KernelInv L k) (entryPc argv : Nat) {e : Panic} :
    settle (procExec L entryPc argv k) ≠ .error (.panic e) := by
  intro hcall
  unfold procExec at hcall
  cases hcur : k.currentProc with
  | none =>
      rw [hcur] at hcall
      cases hcall
  | some i =>
      rw [hcur] at hcall
      dsimp only at hcall
      split at hcall
      · cases hcall
      rename_i huser
      rw [not_not] at huser
      split at hcall
      · cases hcall
      have hargv : Safely L (procUserExecArgvOk L argv k) := by
        unfold procUserExecArgvOk
        split
        · exact h
        · exact argvLoop_safely h argv 32 0
      have hsame := procUserExecArgvOk_along reads_follows (touch_reads (L := L) vmaProtR) argv k
      cases hres : procUserExecArgvOk L argv k with
      | error stop =>
          rw [hres] at hargv hcall
          cases stop with
          | stop why =>
              cases hcall
              exact hargv
          | exited k₁ => cases hcall
      | ok out =>
          obtain ⟨r, k₁⟩ := out
          rw [hres] at hargv hcall hsame
          cases r with
          | none => cases hcall
          | some argc =>
              have huser₁ : (k₁.procs i).isUser = true := by
                have hreads : Reads L k k₁ := hsame
                rw [hreads.table.1]
                exact huser
              obtain ⟨proc, s, v, hreset, hinit, -⟩ := hargv.execed huser₁ entryPc argc argv
              dsimp only at hcall
              rw [hreset] at hcall
              dsimp only at hcall
              rw [hinit] at hcall
              cases hcall

/-- No page of the writable sections of the process is a private copy. -/
def NoPrivateCopy (L : Layout) (k : Kernel) (i : Fin procMax) : Prop :=
  ∀ vpn leaf, dataPage L vpn → walk k.phys.mem (rootPage (k.procs i).satp) vpn = some leaf →
    ¬ L.Managed leaf.ppn

/-- A step that is no fork of a process with a private copy, unless the fork fails before it
clones. -/
def ForksShared (L : Layout) (k : Kernel) (op : Op) : Prop :=
  op = .fork → forkClones L k = true → ∀ i, k.running = some i → NoPrivateCopy L k i

theorem liftPanic_error {α β : Type} {m : Except Panic α} {f : α → β} {Q : α → Prop} {e : Stop}
    (h : Outcome m Q fun _ => False) : liftPanic (m.map f) ≠ .error e := by
  obtain ⟨a, hm, -⟩ := h.exists_ok
  rw [hm]
  exact nofun

theorem userPageFault_noPanic (h : KernelInv L k) (i : Fin procMax) (addr access : Nat) {e : Panic} :
    userPageFault L i addr access k ≠ .error (.panic e) := by
  intro hcall
  unfold userPageFault at hcall
  cases hfault : procHandleUserPageFault L false (k.procs i) addr access k.phys with
  | error why =>
      rw [hfault] at hcall
      cases hcall
      cases huser : (k.procs i).isUser with
      | false =>
          unfold procHandleUserPageFault at hfault
          rw [huser, if_pos (by decide)] at hfault
          cases hfault
      | true => cases h.fault_error huser hfault
  | ok out =>
      obtain ⟨ok, s⟩ := out
      rw [hfault] at hcall
      cases ok <;> cases hcall

theorem waitpidStep_noPanic (h : KernelInv L k) (i : Fin procMax) (pid : Int) (options : UInt32)
    {e : Panic} : waitpidStep L i pid options k ≠ .error (.panic e) := by
  intro hcall
  unfold waitpidStep at hcall
  split at hcall
  · cases hcall
  · obtain ⟨⟨r, k₁⟩, hscan, -⟩ := (waitpidScan_kept h pid i).exists_ok
    rw [hscan] at hcall
    cases r with
    | reaped rpid status => cases hcall
    | noChild => cases hcall
    | noZombie =>
        dsimp only at hcall
        split at hcall <;> cases hcall

theorem settle_noPanic {α : Type} {m : Except Halt (α × Kernel)} (h : Safely L m) {e : Panic} :
    settle m ≠ .error (.panic e) := by
  intro hcall
  cases m with
  | ok out => cases hcall
  | error why =>
      cases why with
      | stop stop =>
          cases hcall
          exact h
      | exited k₁ => cases hcall

theorem storeByte_noPanic (h : KernelInv L k) (va : Nat) (value : UInt8) {e : Panic} :
    settle ((storeByte L va value k).map fun k => ((), k)) ≠ .error (.panic e) := by
  intro hcall
  have htouch := touch_safely h vmaProtW va
  unfold storeByte at hcall
  cases hres : touch L vmaProtW va k with
  | ok out =>
      rw [hres] at hcall
      cases hcall
  | error why =>
      rw [hres] at hcall htouch
      cases why with
      | stop stop =>
          cases hcall
          exact htouch
      | exited k₁ => cases hcall

/-- Every step but a fork of a process with a private copy goes through or ends otherwise. -/
theorem step_noPanic (h : KernelInv L k) {op : Op} (hfork : ForksShared L k op) {e : Panic} :
    step L op k ≠ .error (.panic e) := by
  cases op with
  | createProcess => exact nofun
  | createUserProcess entryPc => exact liftPanic_error (createUserProcess_spec h entryPc.toNat)
  | reapOrphanZombies =>
      obtain ⟨k', hrun, -⟩ := (procReapOrphanZombies_kept h).exists_ok
      unfold step
      dsimp only
      rw [hrun]
      exact nofun
  | switchTo next => exact nofun
  | wake i =>
      unfold step
      dsimp only
      split <;> exact nofun
  | saveFrame f =>
      unfold step
      dsimp only
      split <;> exact nofun
  | fork =>
      unfold step
      dsimp only
      split
      · exact nofun
      · rename_i i hrun
        intro hcall
        cases hres : procFork L k with
        | ok out =>
            rw [hres] at hcall
            cases hcall
        | error why =>
            cases procFork_cases h hrun hres with
            | panicked hclones hd hwalk hm => exact hfork rfl hclones i hrun _ _ hd hwalk hm
  | exec entryPc argv =>
      unfold step
      dsimp only
      split
      · exact nofun
      · exact procExec_noPanic h _ _
  | exit status =>
      unfold step
      dsimp only
      split <;> exact nofun
  | waitpid pid options =>
      unfold step
      dsimp only
      split
      · exact nofun
      · exact waitpidStep_noPanic h _ _ _
  | mmap addrHint len prot flags =>
      unfold step
      dsimp only
      split
      · exact nofun
      · exact liftPanic_error (procMmap_kept h _ _ _ _ _)
  | munmap addr len =>
      unfold step
      dsimp only
      split
      · exact nofun
      · exact liftPanic_error (procMunmap_kept h _ _ _)
  | pageFault addr access =>
      unfold step
      dsimp only
      split
      · exact nofun
      · exact userPageFault_noPanic h _ _ _
  | userStore addr value =>
      unfold step
      dsimp only
      split
      · exact nofun
      · unfold userStore
        split
        · exact nofun
        · exact userPageFault_noPanic h _ _ _
  | kernelLoad addr =>
      unfold step
      dsimp only
      split
      · exact nofun
      · exact settle_noPanic (loadByte_safely h _)
  | kernelStore addr value =>
      unfold step
      dsimp only
      split
      · exact nofun
      · exact storeByte_noPanic h _ _

/-- What a run ends with, when each of its forks that clones is made by a process without
private copies. -/
inductive SharedRun (L : Layout) : Except Stop Kernel → Prop
  | boot {mem : Memory} {mmu : Mmu} {k : Kernel} (h : boot L mem mmu = some k) : SharedRun L (.ok k)
  | step {k : Kernel} (op : Op) (hk : SharedRun L (.ok k)) (hop : enabled k op = true)
      (hfork : ForksShared L k op) : SharedRun L (step L op k)

theorem SharedRun.reachable {out : Except Stop Kernel} (h : SharedRun L out) :
    ∀ k, out = .ok k → Reachable L k := by
  induction h with
  | boot hboot =>
      intro k hk
      cases hk
      exact .boot hboot
  | step op hk hop hfork ih =>
      intro k' hk'
      exact (ih _ rfl).step op hop hk'

/-- In a run whose forks, as far as they clone, are all made by processes without private copies
nothing panics, and every state keeps the user mappings safe. -/
theorem sharedRun_safe {out : Except Stop Kernel} (hrun : SharedRun L out) :
    Outcome out (MapsSafe L) (fun stop => ∀ e, stop ≠ .panic e) := by
  cases hrun with
  | boot hboot => exact (Reachable.boot hboot).inv.mapsSafe
  | step op hk hop hfork =>
      rename_i k₀
      have hreach := hk.reachable k₀ rfl
      cases hcall : Proc.step L op k₀ with
      | ok k' => exact (hreach.step op hop hcall).inv.mapsSafe
      | error stop =>
          rintro e rfl
          exact step_noPanic hreach.inv hfork hcall

/-- No fork by a process that has its own copy of the page of data of the small machine. -/
def forksSharedSmall (k : Kernel) : Op → Bool
  | .fork => k.running.all fun i =>
      (walk k.phys.mem (rootPage (k.procs i).satp) 0x80203).all fun leaf =>
        !decide (smallLayout.Managed leaf.ppn)
  | _ => true

theorem forksShared_small {op : Op} (h : forksSharedSmall k op = true) :
    ForksShared smallLayout k op := by
  rintro hfork - i hrun vpn leaf hd hwalk
  obtain rfl : vpn = 0x80203 := by
    unfold dataPage at hd
    simp only [smallLayout] at hd
    omega
  rw [hfork, forksSharedSmall, hrun, Option.all_some, hwalk, Option.all_some,
    Bool.not_eq_true'] at h
  exact of_decide_eq_false h

/-- A process forks twice, its first child forks and writes to its data, and it forks again and
waits for the child. -/
def familyOps : List Op :=
  [.createUserProcess smallEntry, .switchTo 1, .saveFrame (TrapFrame.zero.set .sp 0x40000000), .fork,
    .fork, .switchTo 2, .fork, .kernelStore 0x80203000 7, .exit 3, .switchTo 1, .fork,
    .waitpid 2 0]

theorem sharedRun_safe_family : ∃ k₀ k, smallBoot = some k₀ ∧
    runWhile smallLayout forksSharedSmall familyOps k₀ = some k ∧ MapsSafe smallLayout k := by
  have hrun : smallBoot.any (fun k₀ =>
      (runWhile smallLayout forksSharedSmall familyOps k₀).isSome) = true := by
    decide +kernel
  obtain ⟨k₀, hboot, hsome⟩ := (Option.any_eq_true _ _).mp hrun
  obtain ⟨k, hk⟩ := Option.isSome_iff_exists.mp hsome
  have hshared : SharedRun smallLayout (.ok k) := by
    refine runWhile_rule (P := fun k => SharedRun smallLayout (.ok k))
      (fun k op k' hk hop hok hstep => ?_) (.boot hboot) hk
    have hnext := hk.step op hop (forksShared_small hok)
    rw [hstep] at hnext
    exact hnext
  exact ⟨k₀, k, hboot, hk, sharedRun_safe hshared⟩

/-- A process forks, the kernel writes to its data on its behalf, and it forks again. -/
def forkedOps : List Op :=
  [.createUserProcess smallEntry, .switchTo 1, .saveFrame (TrapFrame.zero.set .sp 0x40000000), .fork,
    .kernelStore 0x80203000 7]

def panics : Except Stop Kernel → Bool
  | .error (.panic _) => true
  | _ => false

theorem fork_panics : ¬ ∀ (L : Layout) (k : Kernel) (op : Op), Reachable L k → enabled k op = true →
    ∀ e, step L op k ≠ .error (.panic e) := by
  intro hall
  have hrun : (smallRun forkedOps).any (fun k => enabled k .fork && panics (step smallLayout .fork k)) =
      true := by
    decide +kernel
  obtain ⟨k, hk, hvals⟩ := (Option.any_eq_true _ _).mp hrun
  rw [Bool.and_eq_true] at hvals
  obtain ⟨hop, hpanic⟩ := hvals
  unfold panics at hpanic
  split at hpanic
  · rename_i e hcall
    exact hall smallLayout k .fork (smallRun_reachable hk) hop e hcall
  · cases hpanic

end Sugimotos.Proc
