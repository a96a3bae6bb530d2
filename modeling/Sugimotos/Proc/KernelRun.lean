/-
# Every call keeps the kernel invariant

One lemma for each call of the kernel, on top of the specifications of its
memory part, and from them the invariant of all reachable states.  Memory
outside the managed pages stays as it is except under a store to it.
-/

import Sugimotos.Mm.KernelRoot
import Sugimotos.Proc.KernelFork

namespace Sugimotos.Proc

open Sugimotos.Math Sugimotos.Mm

variable {L : Layout} {k k' : Kernel} {i : Fin procMax}

/-! ## Reaping -/

theorem reap_kept (h : KernelInv L k) (i : Fin procMax) :
    Outcome (reap L k i) (Kept L k) (fun _ => False) := by
  unfold reap resetProcess
  cases huser : (k.procs i).isUser with
  | false =>
      have hnone : tableRoots k.procs k.kernelPage (some i) = none := Process.root_kernel huser
      have hrelease : procVmRelease L (k.procs i) k.phys = .ok k.phys := by
        unfold procVmRelease
        rw [if_pos (by rw [huser]; decide)]
      rw [hrelease]
      refine ⟨h.clear ⟨rfl, rfl⟩ rfl (fun _ _ => rfl) ?_ fun j r _ hr => h.complete hr, fun _ => rfl⟩
      rw [Function.update_eq_self_iff.mpr hnone.symm]
      exact h.mm
  | true =>
      have hdrop := procVmRelease_drop h.mm (tableRoots_user huser) huser rfl ((h.ok i).satp huser)
        rfl ((h.ok i).base huser) ((h.ok i).pages huser) (Nat.zero_le 1) fun _ _ => rfl
      cases hrun : procVmRelease L (k.procs i) k.phys with
      | error e =>
          rw [hrun] at hdrop
          exact hdrop
      | ok s =>
          rw [hrun] at hdrop
          obtain ⟨hinv, hloc, hunmanaged⟩ := hdrop
          refine ⟨h.clear ⟨rfl, rfl⟩ rfl (fun _ _ => rfl) hinv ?_, fun hp => hunmanaged _ hp⟩
          intro j r hj hr
          exact hloc.complete (tableRoots_some hr) hj (h.complete hr)

theorem procReapOrphanZombies_kept (h : KernelInv L k) :
    Outcome (procReapOrphanZombies L k) (Kept L k) (fun _ => False) := by
  unfold procReapOrphanZombies
  let keptSoFar : List (Fin procMax) → Kernel → Prop := fun _ => Kept L k
  have hstart : keptSoFar (List.finRange procMax) k := Kept.refl h
  apply Outcome.foldlM _ k hstart
  intro i rest k₁ hk
  dsimp only
  split
  · exact hk
  · split
    · exact hk
    · exact (reap_kept hk.inv i).imp fun k₂ hk₂ => hk.trans hk₂

theorem waitpidScan_kept (h : KernelInv L k) (pid : Int) (self : Fin procMax) :
    Outcome (waitpidScan L pid self k) (fun out => Kept L k out.2) (fun _ => False) := by
  unfold waitpidScan
  split
  · rename_i i hfind
    have hreap := reap_kept h i
    cases hcall : reap L k i with
    | error e =>
        rw [hcall] at hreap
        exact hreap
    | ok k₁ =>
        rw [hcall] at hreap
        exact hreap
  · split <;> exact Kept.refl h

theorem waitpidStep_kept {pid : Int} {options : UInt32} (h : KernelInv L k)
    (hrun : k.running = some i) (hstep : waitpidStep L i pid options k = .ok k') : Kept L k k' := by
  unfold waitpidStep at hstep
  split at hstep
  · cases hstep
    exact Kept.refl h
  · have hscan := waitpidScan_kept h pid i
    cases hcall : waitpidScan L pid i k with
    | error e =>
        rw [hcall] at hstep
        cases hstep
    | ok out =>
        obtain ⟨r, k₁⟩ := out
        rw [hcall] at hstep hscan
        cases r with
        | noChild =>
            cases hstep
            exact hscan
        | reaped rpid status =>
            cases hstep
            exact hscan
        | noZombie =>
            dsimp only at hstep
            split at hstep
            · cases hstep
              exact hscan
            · cases hstep
              obtain ⟨rfl, -⟩ := waitpidScan_none hcall nofun
              obtain ⟨-, hstate⟩ := Kernel.running_eq_some.mp hrun
              refine h.kept_record ⟨rfl, rfl, rfl, rfl, rfl, ⟨nofun, fun hno => ?_⟩⟩
              rw [hstate] at hno
              cases hno

/-! ## Calls of one process on its own memory -/

/-- A memory call of a process, with the record it leaves. -/
theorem KernelInv.stepped {v : Vmas} {s : Phys} {p : Process} (h : KernelInv L k)
    (huser : (k.procs i).isUser = true) (hsame : SameSpace { k.procs i with vmas := v } p)
    (hstep : Stepped L (tableRoots k.procs k.kernelPage) (fun _ => 0) (tableVmas k.procs)
      k.kernelPage i (rootPage (k.procs i).satp) k.phys v s) :
    Kept L k ({ k with phys := s }.setProc i p) := by
  have hroot : p.root = some (rootPage (k.procs i).satp) := by
    rw [hsame.root]
    exact Process.root_user huser
  refine ⟨h.write ⟨rfl, rfl⟩ rfl ?_ ?_ ?_ ?_, hstep.unmanaged⟩
  · rw [hroot, hsame.vmas, Function.update_eq_self_iff.mpr (tableRoots_user huser).symm]
    exact hstep.inv
  · have hok := h.ok i
    exact hsame.ok ⟨hok.used, hok.base, hok.pages, hok.satp, hok.kernel⟩
  · intro r hr
    rw [hroot] at hr
    rw [← Option.some.inj hr]
    exact hstep.complete (h.complete (Process.root_user huser))
  · intro j r hj hr
    exact hstep.loc.complete (tableRoots_some hr) hj (h.complete hr)

theorem procMunmap_kept (h : KernelInv L k) (i : Fin procMax) (addr len : Nat) :
    Outcome (procMunmap L (k.procs i) addr len k.phys)
      (fun out => Kept L k ({ k with phys := out.2.2 }.setProc i out.2.1)) (fun _ => False) := by
  cases huser : (k.procs i).isUser with
  | false =>
      unfold procMunmap
      rw [if_pos (by rw [huser]; decide)]
      exact h.kept_record (SameSpace.refl _)
  | true =>
      refine (procMunmap_spec h.mm (tableRoots_user huser) rfl rfl addr len).imp ?_
      rintro ⟨ok, proc, s⟩ ⟨v, hproc, hstep⟩
      dsimp only at hproc
      subst hproc
      exact h.stepped huser (SameSpace.refl _) hstep

theorem procMmap_kept (h : KernelInv L k) (i : Fin procMax) (addrHint len prot flags : Nat) :
    Outcome (procMmap L (k.procs i) addrHint len prot flags k.phys)
      (fun out => Kept L k ({ k with phys := out.2.2 }.setProc i out.2.1)) (fun _ => False) := by
  cases huser : (k.procs i).isUser with
  | false =>
      unfold procMmap
      rw [if_pos (by rw [huser]; decide)]
      exact h.kept_record (SameSpace.refl _)
  | true =>
      refine (procMmap_spec h.mm (tableRoots_user huser) rfl rfl addrHint len prot flags).imp ?_
      rintro ⟨result, proc, s⟩ ⟨v, hproc, hstep⟩
      dsimp only at hproc
      subst hproc
      exact h.stepped huser (SameSpace.refl _) hstep

/-- The end of `proc_exec`, once the arguments are checked: the window is empty,
and the VMAs are the standard ones. -/
structure Execed (L : Layout) (i : Fin procMax) (argc : Nat) (k k' : Kernel) : Prop where
  kept : Kept L k k'
  cur : k'.currentProc = k.currentProc
  user : (k'.procs i).isUser = true
  satp : (k'.procs i).satp = (k.procs i).satp
  argc : (k'.procs i).trapFrame.reg .a0 = .ofNat argc
  standard : ∀ {j}, ((k'.procs i).vmas j).used = true → (k'.procs i).vmas j ∈ standardVmas L
  swept : Swept (tableRoots k.procs k.kernelPage) i (· ∈ windowVpns (k.procs i).vmas) k.phys k'.phys

theorem KernelInv.execed (h : KernelInv L k) (huser : (k.procs i).isUser = true)
    (entryPc argc argv : Nat) :
    ∃ proc s v, procVmReset L (k.procs i) k.phys = .ok (proc, s) ∧
      procVmInit L proc = (true, { k.procs i with vmas := v }) ∧
      Execed L i argc k ({ k with phys := s }.setProc i
        (archInitUserContext { k.procs i with vmas := v } entryPc
          (procUserStackEnd { k.procs i with vmas := v }) argc argv)) := by
  have hreset := resetInit_spec h.mm (tableRoots_user huser) rfl rfl ((h.ok i).base huser)
    ((h.ok i).pages huser)
  obtain ⟨⟨proc, s⟩, hrun, v, hinit, hstep, hswept, hstd⟩ := hreset.exists_ok
  refine ⟨proc, s, v, hrun, hinit, ?_, rfl, ?_, ?_, ?_, ?_, hswept⟩
  · exact h.stepped huser ⟨rfl, rfl, rfl, rfl, rfl, Iff.rfl⟩ hstep
  · rw [Kernel.setProc_self]
    exact huser
  · rw [Kernel.setProc_self]
    rfl
  · rw [Kernel.setProc_self]
    rfl
  · rw [Kernel.setProc_self]
    exact hstd

theorem procExec_kept {entryPc argv : Nat} (h : KernelInv L k) (hrun : k.running = some i)
    (hsettle : settle (procExec L entryPc argv k) = .ok k') : Kept L k k' := by
  have hcur := (Kernel.running_eq_some.mp hrun).1
  unfold procExec at hsettle
  rw [hcur] at hsettle
  dsimp only at hsettle
  split at hsettle
  · cases hsettle
    exact Kept.refl h
  rename_i huser
  rw [not_not] at huser
  split at hsettle
  · cases hsettle
    exact Kept.refl h
  have hargv := procUserExecArgvOk_along reads_follows (touch_reads (L := L) vmaProtR) argv k
  cases hcall : procUserExecArgvOk L argv k with
  | error e =>
      rw [hcall] at hsettle hargv
      exact hargv.kept h hrun (by cases e <;> exact hsettle)
  | ok out =>
      obtain ⟨r, k₁⟩ := out
      rw [hcall] at hsettle hargv
      cases r with
      | none => exact hargv.kept h hrun hsettle
      | some argc =>
          have hreads : Reads L k k₁ := hargv
          have hkept := hreads.kept h
          have huser₁ : (k₁.procs i).isUser = true := by
            rw [hreads.table.1]
            exact huser
          obtain ⟨proc, s, v, hreset, hinit, hexec⟩ := hkept.inv.execed huser₁ entryPc argc argv
          dsimp only at hsettle
          rw [hreset] at hsettle
          dsimp only at hsettle
          rw [hinit] at hsettle
          cases hsettle
          exact hkept.trans hexec.kept

/-! ## Stores -/

/-- Writing a page through a writable translation of one process.  Page tables
are never writable, and a page of the window that must stay zero neither. -/
theorem MmInv.store {roots : Space → Option Nat} {held : Nat → Nat} {vmas : Fin procMax → Vmas}
    {kr r vpn : Nat} {s : Phys} {leaf : Leaf} (h : MmInv L roots held vmas kr s)
    (hr : roots (some i) = some r) (hvpn : vpn < 1048576) (hwalk : walk s.mem r vpn = some leaf)
    (hU : leaf.perm &&& pteU ≠ 0) (hW : leaf.perm &&& pteW ≠ 0) (page : PageBytes) :
    SameTables roots s.mem (Function.update s.mem leaf.ppn page) ∧
      MmInv L roots held vmas kr { s with mem := Function.update s.mem leaf.ppn page } := by
  have hsame := VmInv.sameTables_update (leaf_in_use h.vm hr hvpn hwalk hU).1 page
  refine ⟨hsame, h.vm.congr_mem hsame, h.kernel, fun hvpn' => ?_, h.vma, ?_⟩
  · exact (hsame.walk h.kernel hvpn').trans (h.kernelWalk hvpn')
  intro j r' vpn' leaf' hr' hvpn' hwalk'
  change walk (Function.update s.mem leaf.ppn page) r' vpn' = some leaf' at hwalk'
  rw [hsame.walk hr' hvpn'] at hwalk'
  have hfits := h.fits hr' hvpn' hwalk'
  by_cases hw : windowPage vpn'
  · rw [leafFits_window hw] at hfits ⊢
    obtain ⟨hm, c, hcov, hperm, hzero⟩ := hfits
    refine ⟨hm, c, hcov, hperm, fun hprot => ?_⟩
    by_cases hpage : leaf'.ppn = leaf.ppn
    · -- the page is mapped here alone, under a VMA that forbids writing
      have hsite := h.vm.write_unique ⟨vpn, hvpn⟩ hr hwalk hU hW (hpage ▸ hm)
        (hpage ▸ VmInv.target_leaf hr' hvpn' hwalk' (h.low_user hr' hvpn' (.inl hw) hwalk').1)
      cases hsite
      rw [hr] at hr'
      cases hr'
      rw [hwalk] at hwalk'
      cases hwalk'
      have hlt := ((h.vma hr).window hcov hw).2.2
      rcases hperm with hperm | hperm
      · rw [hperm] at hW
        exact absurd ((userPerm_write hlt).mpr hprot) hW
      · rw [hperm] at hW
        exact absurd ((userPerm_write (cowProt_lt hlt)).mpr (cowProt_write _ hlt)) hW
    · exact (Function.update_of_ne hpage ..).trans (hzero hprot)
  · exact hfits.congr_mem fun hw' => absurd hw' hw

/-- A byte is stored through a writable translation of a process. -/
theorem KernelInv.store {va pa : Nat} {leaf : Leaf} (h : KernelInv L k)
    (huser : (k.procs i).isUser = true) (hva : va < 4294967296)
    (hwalk : walk k.phys.mem (rootPage (k.procs i).satp) (va / 4096) = some leaf)
    (hU : leaf.perm &&& pteU ≠ 0) (hW : leaf.perm &&& pteW ≠ 0) (hpa : pa / 4096 = leaf.ppn)
    (page : PageBytes) :
    KernelInv L { k with phys := k.phys.setPage pa page } ∧
      (L.Managed leaf.ppn → ∀ p, ¬ L.Managed p → (k.phys.setPage pa page).mem p = k.phys.mem p) := by
  have hpage : k.phys.setPage pa page =
      { k.phys with mem := Function.update k.phys.mem leaf.ppn page } := by
    unfold Phys.setPage
    rw [hpa]
  obtain ⟨hsame, hmm⟩ := h.mm.store (tableRoots_user huser) (show va / 4096 < 1048576 by omega)
    hwalk hU hW page
  rw [hpage]
  have hmem : ({ k.phys with mem := Function.update k.phys.mem leaf.ppn page } : Phys).mem =
      Function.update k.phys.mem leaf.ppn page := rfl
  generalize ({ k.phys with mem := Function.update k.phys.mem leaf.ppn page } : Phys) = s
    at hmm hmem ⊢
  constructor
  · refine h.of_records ⟨rfl, rfl⟩ (fun j => SameSpace.refl _) hmm fun j r hr => ?_
    apply Complete.of_walk (h.complete hr)
    intro vpn hvpn
    rw [hmem]
    exact hsame.walk (tableRoots_some hr) hvpn
  · intro hm p hp
    rw [hmem]
    refine Function.update_of_ne ?_ ..
    rintro rfl
    exact hp hm

/-! ## Checked accesses -/

/-- Every address of a range that passes the check lies in a VMA that allows the
access. -/
theorem vmaRangeLoop_covers {v : Vmas} {stop need turns cur a : Nat}
    (h : vmaRangeLoop v stop need turns cur = true) (hturns : stop - cur ≤ turns) (hlo : cur ≤ a)
    (hhi : a < stop) : ∃ j, ((v j).used = true ∧ (v j).start ≤ a ∧ a < (v j).stop) ∧
      (v j).prot &&& need = need := by
  induction turns generalizing cur with
  | zero => omega
  | succ turns ih =>
      unfold vmaRangeLoop at h
      rw [if_pos (by omega)] at h
      cases hfind : procFindVmaIndex v cur with
      | none =>
          rw [hfind] at h
          cases h
      | some j =>
          rw [hfind] at h
          obtain ⟨hused, hstart, hstop⟩ := procFindVmaIndex_some hfind
          dsimp only at h
          split at h
          · cases h
          · rename_i hprot
            rw [not_not] at hprot
            by_cases ha : a < (v j).stop
            · exact ⟨j, ⟨hused, by omega, ha⟩, hprot⟩
            · rw [if_neg (by omega)] at h
              exact ih h (by omega) (by omega)

theorem procVmaRangeOk_covers {proc : Process} {addr len need a : Nat}
    (h : procVmaRangeOk proc addr len need = true) (haddr : addr < 4294967296)
    (hlen : len < 4294967296) (hlo : addr ≤ a) (hhi : a < addr + len) :
    proc.isUser = true ∧ addr + len < 4294967296 ∧
      ∃ j, ((proc.vmas j).used = true ∧ (proc.vmas j).start ≤ a ∧ a < (proc.vmas j).stop) ∧
        (proc.vmas j).prot &&& need = need := by
  unfold procVmaRangeOk at h
  split at h
  · cases h
  · rename_i huser
    rw [not_not] at huser
    split at h
    · cases h
    · dsimp only at h
      split at h
      · cases h
      · rename_i hwrap
        unfold u32 at h hwrap
        have hfits : addr + len < 4294967296 := by omega
        rw [Nat.mod_eq_of_lt hfits] at h
        exact ⟨huser, hfits, vmaRangeLoop_covers h (le_refl _) hlo hhi⟩

/-- The byte at a checked address. -/
theorem KernelInv.checked {addr : UInt32} {need : Nat} (h : KernelInv L k)
    (hcheck : checked k addr need = true) :
    ∃ i, k.running = some i ∧ (k.procs i).isUser = true ∧
      ∃ j, ((k.procs i).vmas j).Covers (addr.toNat / 4096) ∧
        ((k.procs i).vmas j).prot &&& need = need := by
  unfold Proc.checked at hcheck
  cases hrun : k.running with
  | none =>
      rw [hrun] at hcheck
      cases hcheck
  | some i =>
      rw [hrun] at hcheck
      dsimp only at hcheck
      rw [Bool.and_eq_true] at hcheck
      obtain ⟨huser, hrange⟩ := hcheck
      obtain ⟨-, -, j, hin, hprot⟩ := procVmaRangeOk_covers hrange addr.toNat_lt (by decide)
        (le_refl _) (Nat.lt_succ_self _)
      exact ⟨i, rfl, huser, j, (h.vma huser).covers_addr.mpr hin, hprot⟩

theorem walk_of_hwWalk {mem : Memory} {r vpn : Nat} {leaf : Leaf}
    (h : hwWalk mem r vpn = some leaf) : walk mem r vpn = some leaf :=
  (Option.filter_eq_some_iff.mp h).1

/-- The access the kernel makes after `touch`: a translation that allows it, as it
was before or to a fresh page. -/
theorem touch_ok {access va pa : Nat} (h : KernelInv L k) (hcur : k.currentProc = some i)
    (huser : (k.procs i).isUser = true) (hva : va < 4294967296)
    (hcall : touch L access va k = .ok (pa, k')) :
    k'.procs = k.procs ∧ ∃ leaf, hwWalk k'.phys.mem (rootPage (k.procs i).satp) (va / 4096) = some leaf ∧
      leaf.perm &&& protToQueryBits access = protToQueryBits access ∧ pa / 4096 = leaf.ppn ∧
      (k'.phys = k.phys ∨ L.Managed leaf.ppn) := by
  have htranslate : ∀ {s : Phys}, kernelTranslate (k.procs i).satp va access s = some pa →
      ∃ leaf, hwWalk s.mem (rootPage (k.procs i).satp) (va / 4096) = some leaf ∧
        leaf.perm &&& protToQueryBits access = protToQueryBits access ∧ pa / 4096 = leaf.ppn := by
    intro s hpa
    unfold kernelTranslate at hpa
    split at hpa
    · cases hpa
    · rename_i leaf hwalk
      split at hpa
      · rename_i hbits
        cases hpa
        exact ⟨leaf, hwalk, hbits, by omega⟩
      · cases hpa
  unfold touch at hcall
  rw [hcur] at hcall
  dsimp only at hcall
  split at hcall
  · rename_i hpa
    cases hcall
    obtain ⟨leaf, hwalk, hbits, hppn⟩ := htranslate hpa
    exact ⟨rfl, leaf, hwalk, hbits, hppn, Or.inl rfl⟩
  · rename_i hmiss
    rw [if_neg (not_not.mpr huser)] at hcall
    have hcase := h.fault huser true access hva
    cases hfault : procHandleUserPageFault L true (k.procs i) va access k.phys with
    | error e =>
        rw [hfault] at hcall
        cases hcall
    | ok out =>
        obtain ⟨ok, s⟩ := out
        rw [hfault] at hcall hcase
        cases ok with
        | false => cases hcall
        | true =>
            dsimp only at hcall
            split at hcall
            · rename_i hpa
              cases hcall
              obtain ⟨leaf, hwalk, hbits, hppn⟩ := htranslate hpa
              refine ⟨rfl, leaf, hwalk, hbits, hppn, ?_⟩
              cases hcase with
              | present hcov hprot hwalk' hbits' => exact Or.inl rfl
              | mapped hcov hprot hold hperm hres htable hresolved hinv =>
                  right
                  have hwalk := walk_of_hwWalk hwalk
                  change walk s.mem _ _ = _ at hwalk
                  rw [hresolved.walk (tableRoots_user huser) (by omega), if_pos ⟨rfl, rfl⟩] at hwalk
                  cases hwalk
                  exact hresolved.managed
            · cases hcall

/-! ## Stores to memory that is not managed -/

/-- Whether an operation stores to a page outside the managed ones.  Fresh
processes have `.user.data` and `.user.bss` mapped to themselves, writable. -/
def sharedStore (L : Layout) (k : Kernel) : Op → Bool
  | .userStore addr _ | .kernelStore addr _ =>
      match k.running with
      | none => false
      | some i =>
          match userTranslate (k.procs i).satp addr.toNat vmaProtW k.phys with
          | none => false
          | some pa => !decide (L.Managed (pa / 4096))
  | _ => false

/-- What one step leaves: the invariant, and the memory outside the managed pages
unless it stored there. -/
structure StepKept (L : Layout) (op : Op) (k k' : Kernel) : Prop where
  inv : KernelInv L k'
  unmanaged : sharedStore L k op = false → ∀ {p}, ¬ L.Managed p → k'.phys.mem p = k.phys.mem p

theorem Kept.step {op : Op} (h : Kept L k k') : StepKept L op k k' := ⟨h.inv, fun _ => h.unmanaged⟩

theorem userTranslate_eq_some {satp va access pa : Nat} {s : Phys} :
    userTranslate satp va access s = some pa ↔
      ∃ leaf, hwWalk s.mem (rootPage satp) (va / 4096) = some leaf ∧ leaf.perm &&& pteU ≠ 0 ∧
        leaf.perm &&& protToQueryBits access = protToQueryBits access ∧
        pa = leaf.ppn * 4096 + va % 4096 := by
  unfold userTranslate
  cases hwWalk s.mem (rootPage satp) (va / 4096) with
  | none => simp
  | some leaf =>
      dsimp only
      split
      · rename_i hbits
        constructor
        · intro hpa
          exact ⟨leaf, rfl, hbits.1, hbits.2, (Option.some.inj hpa).symm⟩
        · rintro ⟨leaf', hleaf, -, -, rfl⟩
          rw [Option.some.inj hleaf]
      · rename_i hbits
        constructor
        · nofun
        · rintro ⟨leaf', hleaf, hU, hperm, -⟩
          rw [← Option.some.inj hleaf] at hU hperm
          exact absurd ⟨hU, hperm⟩ hbits

theorem write_of_bits {perm : Nat}
    (h : perm &&& protToQueryBits vmaProtW = protToQueryBits vmaProtW) : perm &&& pteW ≠ 0 := by
  have hquery : protToQueryBits vmaProtW = pteW := by decide
  rw [hquery] at h
  rw [h]
  decide

/-- No kernel thread has a page mapped for user mode. -/
theorem KernelInv.kernel_translate {va access : Nat} (h : KernelInv L k)
    (hkernel : (k.procs i).isUser = false) (hused : (k.procs i).state ≠ .unused)
    (hva : va < 4294967296) : userTranslate (k.procs i).satp va access k.phys = none := by
  by_contra hsome
  obtain ⟨pa, hpa⟩ := Option.ne_none_iff_exists'.mp hsome
  obtain ⟨leaf, hwalk, hU, -⟩ := userTranslate_eq_some.mp hpa
  rw [(h.ok i).kernel hkernel hused] at hwalk
  have hleaf := walk_of_hwWalk hwalk
  rw [show rootPage k.kernelSatpValue = k.kernelPage from rfl,
    h.mm.kernelWalk (by omega)] at hleaf
  rcases (kernelLeaf_some hleaf).2 with hperm | hperm <;> rw [hperm] at hU <;> exact hU rfl

theorem userStore_step {addr : UInt32} {value : UInt8} (h : KernelInv L k)
    (hrun : k.running = some i) (hstep : userStore L i addr.toNat value k = .ok k') :
    StepKept L (.userStore addr value) k k' := by
  obtain ⟨-, hstate⟩ := Kernel.running_eq_some.mp hrun
  have hva := addr.toNat_lt
  unfold userStore at hstep
  split at hstep
  · rename_i pa htranslate
    cases hstep
    have huser : (k.procs i).isUser = true := by
      by_contra hno
      rw [h.kernel_translate (Bool.eq_false_iff.mpr hno) (by rw [hstate]; decide) hva] at htranslate
      cases htranslate
    obtain ⟨leaf, hwalk, hU, hbits, hpa⟩ := userTranslate_eq_some.mp htranslate
    have hppn : pa / 4096 = leaf.ppn := by omega
    obtain ⟨hinv, hmanaged⟩ := h.store huser hva (walk_of_hwWalk hwalk) hU (write_of_bits hbits) hppn
      (Function.update (k.phys.mem (pa / 4096)) (pa % 4096) value)
    refine ⟨hinv, fun hshared p hp => hmanaged ?_ p hp⟩
    unfold sharedStore at hshared
    rw [hrun] at hshared
    dsimp only at hshared
    rw [htranslate] at hshared
    dsimp only at hshared
    rw [hppn] at hshared
    simpa using hshared
  · exact (faultDone_kept h hrun hstep).step

theorem kernelStore_step {addr : UInt32} {value : UInt8} (h : KernelInv L k)
    (hcheck : checked k addr vmaProtW = true) (hrun : k.running = some i)
    (hstep : settle ((storeByte L addr.toNat value k).map fun k => ((), k)) = .ok k') :
    StepKept L (.kernelStore addr value) k k' := by
  obtain ⟨hcur, hstate⟩ := Kernel.running_eq_some.mp hrun
  obtain ⟨i', hrun', huser, j, hcov, hprot⟩ := h.checked hcheck
  cases hrun.symm.trans hrun'
  have hva := addr.toNat_lt
  have hreads := touch_reads (L := L) vmaProtW addr.toNat k
  unfold storeByte at hstep
  cases hcall : touch L vmaProtW addr.toNat k with
  | error e =>
      rw [hcall] at hstep hreads
      have hexit : Along (Reads L) k (.error e : Except Halt (Unit × Kernel)) := hreads.error
      exact (hexit.kept h hrun hstep).step
  | ok out =>
      obtain ⟨pa, k₁⟩ := out
      rw [hcall] at hstep hreads
      cases hstep
      have hkept : Kept L k k₁ := Reads.kept hreads h
      obtain ⟨hprocs, leaf, hwalk, hbits, hppn, hwhere⟩ := touch_ok h hcur huser hva hcall
      have huser₁ : (k₁.procs i).isUser = true := by
        rw [hprocs]
        exact huser
      have hwalk₁ : walk k₁.phys.mem (rootPage (k₁.procs i).satp) (addr.toNat / 4096) = some leaf := by
        rw [hprocs]
        exact walk_of_hwWalk hwalk
      have hcov₁ : (tableVmas k₁.procs i j).Covers (addr.toNat / 4096) := by
        unfold tableVmas
        rw [hprocs]
        exact hcov
      have hU := hkept.inv.mm.leaf_user (tableRoots_user huser₁) (by omega) hwalk₁ hcov₁
      obtain ⟨hinv, hmanaged⟩ := hkept.inv.store huser₁ hva hwalk₁ hU (write_of_bits hbits) hppn
        (Function.update (k₁.phys.mem (pa / 4096)) (pa % 4096) value)
      refine ⟨hinv, fun hshared p hp => (hmanaged ?_ p hp).trans (hkept.unmanaged hp)⟩
      rcases hwhere with hsame | hm
      · have htranslate : userTranslate (k.procs i).satp addr.toNat vmaProtW k.phys =
            some (leaf.ppn * 4096 + addr.toNat % 4096) := by
          rw [hsame] at hwalk
          exact userTranslate_eq_some.mpr ⟨leaf, hwalk, hU, hbits, rfl⟩
        unfold sharedStore at hshared
        rw [hrun] at hshared
        dsimp only at hshared
        rw [htranslate] at hshared
        dsimp only at hshared
        have hdiv : (leaf.ppn * 4096 + addr.toNat % 4096) / 4096 = leaf.ppn := by omega
        rw [hdiv] at hshared
        simpa using hshared
      · exact hm

/-! ## Every step -/

theorem switchTo_kept (h : KernelInv L k) (next : Fin procMax) : Kept L k (switchTo next k) := by
  unfold switchTo
  split
  · exact Kept.refl h
  · refine ⟨h.of_records ⟨rfl, rfl⟩ (fun j => SameSpace.refl _) ?_ fun j r hr => ?_, fun _ => rfl⟩
    · exact h.mm.of_alloc h.mm.vm rfl
    · exact h.complete hr

theorem step_kept (h : KernelInv L k) (op : Op) (hop : enabled k op = true)
    (hstep : step L op k = .ok k') : StepKept L op k k' := by
  cases op with
  | createProcess =>
      cases hstep
      exact (createProcess_kept h).step
  | createUserProcess entryPc =>
      obtain ⟨out, hcall, rfl⟩ := map_ok (liftPanic_ok hstep)
      exact ((createUserProcess_spec h entryPc.toNat).of_eq_ok hcall).1.step
  | reapOrphanZombies =>
      exact ((procReapOrphanZombies_kept h).of_eq_ok (liftPanic_ok hstep)).step
  | switchTo next =>
      cases hstep
      exact (switchTo_kept h next).step
  | wake i =>
      simp only [step] at hstep
      split at hstep
      · rename_i hblocked
        cases hstep
        apply Kept.step
        refine h.kept_record ⟨rfl, rfl, rfl, rfl, rfl, ⟨fun hno => ?_, fun hno => ?_⟩⟩
        · cases hno
        · rw [hblocked] at hno
          cases hno
      · cases hstep
        exact (Kept.refl h).step
  | saveFrame f =>
      simp only [step] at hstep
      split at hstep
      · cases hstep
        exact (Kept.refl h).step
      · cases hstep
        apply Kept.step
        exact h.kept_record ⟨rfl, rfl, rfl, rfl, rfl, Iff.rfl⟩
  | fork =>
      simp only [step] at hstep
      split at hstep
      · cases hstep
        exact (Kept.refl h).step
      · rename_i i hrun
        obtain ⟨⟨r, k₁⟩, hcall, rfl⟩ := map_ok (liftPanic_ok hstep)
        exact (procFork_kept h hrun hcall).step
  | exec entryPc argv =>
      simp only [step] at hstep
      split at hstep
      · cases hstep
        exact (Kept.refl h).step
      · rename_i i hrun
        exact (procExec_kept h hrun hstep).step
  | exit status =>
      simp only [step] at hstep
      split at hstep
      · cases hstep
        exact (Kept.refl h).step
      · rename_i i hrun
        cases hstep
        obtain ⟨hcur, hstate⟩ := Kernel.running_eq_some.mp hrun
        exact (procExit_kept h status hcur (by rw [hstate]; decide)).step
  | waitpid pid options =>
      simp only [step] at hstep
      split at hstep
      · cases hstep
        exact (Kept.refl h).step
      · rename_i i hrun
        exact (waitpidStep_kept h hrun hstep).step
  | mmap addrHint len prot flags =>
      simp only [step] at hstep
      split at hstep
      · cases hstep
        exact (Kept.refl h).step
      · rename_i i hrun
        obtain ⟨out, hcall, rfl⟩ := map_ok (liftPanic_ok hstep)
        exact ((procMmap_kept h i _ _ _ _).of_eq_ok hcall).step
  | munmap addr len =>
      simp only [step] at hstep
      split at hstep
      · cases hstep
        exact (Kept.refl h).step
      · rename_i i hrun
        obtain ⟨out, hcall, rfl⟩ := map_ok (liftPanic_ok hstep)
        exact ((procMunmap_kept h i _ _).of_eq_ok hcall).step
  | pageFault addr access =>
      simp only [step] at hstep
      split at hstep
      · cases hstep
        exact (Kept.refl h).step
      · rename_i i hrun
        exact (faultDone_kept h hrun hstep).step
  | userStore addr value =>
      simp only [step] at hstep
      split at hstep
      · cases hstep
        exact (Kept.refl h).step
      · rename_i i hrun
        exact userStore_step h hrun hstep
  | kernelLoad addr =>
      simp only [step] at hstep
      split at hstep
      · cases hstep
        exact (Kept.refl h).step
      · rename_i i hrun
        have hload := loadByte_along (touch_reads (L := L) vmaProtR) addr.toNat k
        exact (hload.kept h hrun hstep).step
  | kernelStore addr value =>
      simp only [step] at hstep
      split at hstep
      · cases hstep
        exact (Kept.refl h).step
      · rename_i i hrun
        exact kernelStore_step h hop hrun hstep

theorem startIdle_inv {out : Option (Fin procMax) × Kernel} (h : KernelInv L out.2) :
    KernelInv L (startIdle out) :=
  ⟨h.mm, h.rootPt, h.ok, h.complete⟩

/-- The state after boot. -/
theorem boot_inv {mem : Memory} {mmu : Mmu} (hboot : boot L mem mmu = some k) : KernelInv L k := by
  obtain ⟨satp, s, hinit, rfl⟩ := boot_some hboot
  obtain ⟨kr, s', hrun, hm, hvm, hwalk, -⟩ := vmInit_spec ⟨Allocator.static L, mem, mmu⟩ rfl
  cases hinit.symm.trans hrun
  have hroots : tableRoots (fun _ => Process.unused) kr = kernelRoots kr := by
    funext space
    cases space with
    | none => rfl
    | some i => rfl
  have hpage : (bootKernel (vmMakeSatp (kr * 4096)) s).kernelPage = kr := rootPage_vmMakeSatp hm.lt
  have hstart : KernelInv L (bootKernel (vmMakeSatp (kr * 4096)) s) := by
    refine ⟨?_, ?_, fun _ => ProcOk.unused _, nofun⟩
    · rw [hpage]
      change MmInv L (tableRoots (fun _ => Process.unused) kr) _ _ kr s
      rw [hroots]
      exact ⟨hvm, rfl, hwalk, nofun, nofun⟩
    · exact rootPage_eq _
  exact startIdle_inv (createProcess_kept hstart).inv

/-- The invariant of all reachable states. -/
theorem Reachable.inv (hk : Reachable L k) : KernelInv L k := by
  induction hk with
  | boot h => exact boot_inv h
  | step op hk hop h ih => exact (step_kept ih op hop h).inv

end Sugimotos.Proc
