/-
# The kernel invariant

Every address space in use belongs to a record of the process table.  `KernelInv`
puts `MmInv` and the process table together, and this module shows that it holds
in every state the kernel can reach.  Along the way it keeps track of the
memory outside the managed pages, which only stores of user processes change.
-/

import Sugimotos.Proc.Life
import Sugimotos.Proc.SpaceLife

namespace Sugimotos.Proc

open Sugimotos.Math Sugimotos.Mm

variable {L : Layout}

/-! ## Spaces and records -/

/-- The root of a process that has an address space of its own. -/
def Process.root (p : Process) : Option Nat :=
  if p.isUser then some (rootPage p.satp) else none

theorem Process.root_user {p : Process} (h : p.isUser = true) : p.root = some (rootPage p.satp) :=
  if_pos h

theorem Process.root_kernel {p : Process} (h : p.isUser = false) : p.root = none := by
  unfold Process.root
  rw [h]
  rfl

/-- The roots of the kernel and of the processes of a table. -/
def tableRoots (procs : Fin procMax → Process) (kr : Nat) : Space → Option Nat
  | none => some kr
  | some i => (procs i).root

/-- The VMAs of the processes of a table. -/
def tableVmas (procs : Fin procMax → Process) : Fin procMax → Vmas := fun i => (procs i).vmas

/-- The page of the kernel's root table. -/
def Kernel.kernelPage (k : Kernel) : Nat := rootPage k.kernelSatpValue

theorem tableRoots_update (procs : Fin procMax → Process) (kr : Nat) (i : Fin procMax)
    (p : Process) : tableRoots (Function.update procs i p) kr =
      Function.update (tableRoots procs kr) (some i) p.root := by
  funext space
  cases space with
  | none => rfl
  | some j =>
      by_cases hj : j = i
      · subst hj
        rw [Function.update_self]
        exact congrArg Process.root (Function.update_self ..)
      · rw [Function.update_of_ne (by simpa using hj)]
        exact congrArg Process.root (Function.update_of_ne hj ..)

theorem tableVmas_update (procs : Fin procMax → Process) (i : Fin procMax) (p : Process) :
    tableVmas (Function.update procs i p) = Function.update (tableVmas procs) i p.vmas := by
  funext j
  unfold tableVmas
  by_cases hj : j = i
  · subst hj
    rw [Function.update_self, Function.update_self]
  · rw [Function.update_of_ne hj, Function.update_of_ne hj]

/-- What every record of the process table satisfies. -/
structure ProcOk (kernelSatp : Nat) (p : Process) : Prop where
  used : p.isUser = true → p.state ≠ .unused
  base : p.isUser = true → p.userStackBase = 0x3fffe000
  pages : p.isUser = true → p.userStackPages = 2
  satp : p.isUser = true → p.satp ≠ 0
  kernel : p.isUser = false → p.state ≠ .unused → p.satp = kernelSatp

theorem ProcOk.unused (satp : Nat) : ProcOk satp Process.unused := by
  refine ⟨?_, ?_, ?_, ?_, fun _ hstate => absurd rfl hstate⟩ <;> intro huser <;> cases huser

/-- The invariant of all reachable states. -/
structure KernelInv (L : Layout) (k : Kernel) : Prop where
  mm : MmInv L (tableRoots k.procs k.kernelPage) (fun _ => 0) (tableVmas k.procs) k.kernelPage
    k.phys
  rootPt : k.kernelRootPt = k.kernelPage * 4096
  ok : ∀ i, ProcOk k.kernelSatpValue (k.procs i)
  complete : ∀ {i r}, (k.procs i).root = some r → Complete L k.phys.mem r

/-- What a call leaves behind: the invariant, and the memory outside the managed
pages as it was. -/
structure Kept (L : Layout) (k k' : Kernel) : Prop where
  inv : KernelInv L k'
  unmanaged : ∀ {p}, ¬ L.Managed p → k'.phys.mem p = k.phys.mem p

theorem Kept.refl {k : Kernel} (h : KernelInv L k) : Kept L k k := ⟨h, fun _ => rfl⟩

theorem Kept.trans {k k₁ k' : Kernel} (h : Kept L k k₁) (h' : Kept L k₁ k') : Kept L k k' :=
  ⟨h'.inv, fun hp => (h'.unmanaged hp).trans (h.unmanaged hp)⟩

/-! ## Writing records -/

/-- The globals that no call changes after boot. -/
structure SameGlobals (k k' : Kernel) : Prop where
  rootPt : k'.kernelRootPt = k.kernelRootPt
  satp : k'.kernelSatpValue = k.kernelSatpValue

theorem SameGlobals.page {k k' : Kernel} (h : SameGlobals k k') : k'.kernelPage = k.kernelPage :=
  congrArg rootPage h.satp

section Write

variable {k k' : Kernel} {i : Fin procMax} {p : Process}

/-- A call that writes the record in one slot and works on the memory. -/
theorem KernelInv.write (h : KernelInv L k) (hglobals : SameGlobals k k')
    (hprocs : k'.procs = Function.update k.procs i p)
    (hmm : MmInv L (Function.update (tableRoots k.procs k.kernelPage) (some i) p.root) (fun _ => 0)
      (Function.update (tableVmas k.procs) i p.vmas) k.kernelPage k'.phys)
    (hok : ProcOk k.kernelSatpValue p)
    (hself : ∀ r, p.root = some r → Complete L k'.phys.mem r)
    (hother : ∀ j r, j ≠ i → (k.procs j).root = some r → Complete L k'.phys.mem r) :
    KernelInv L k' := by
  refine ⟨?_, ?_, fun j => ?_, fun {j r} hr => ?_⟩
  · rw [hprocs, hglobals.page, tableRoots_update, tableVmas_update]
    exact hmm
  · rw [hglobals.rootPt, hglobals.page]
    exact h.rootPt
  · rw [hprocs, hglobals.satp]
    by_cases hj : j = i
    · subst hj
      rw [Function.update_self]
      exact hok
    · rw [Function.update_of_ne hj]
      exact h.ok j
  · rw [hprocs] at hr
    by_cases hj : j = i
    · subst hj
      rw [Function.update_self] at hr
      exact hself r hr
    · rw [Function.update_of_ne hj] at hr
      exact hother j r hj hr

/-- The record in a slot is cleared after its space was given up. -/
theorem KernelInv.clear (h : KernelInv L k) (hglobals : SameGlobals k k')
    (hprocs : k'.procs = Function.update k.procs i .unused) {vmas : Fin procMax → Vmas}
    (hvmas : ∀ j, j ≠ i → vmas j = tableVmas k.procs j)
    (hmm : MmInv L (Function.update (tableRoots k.procs k.kernelPage) (some i) none) (fun _ => 0)
      vmas k.kernelPage k'.phys)
    (hother : ∀ j r, j ≠ i → (k.procs j).root = some r → Complete L k'.phys.mem r) :
    KernelInv L k' := by
  refine h.write hglobals hprocs ?_ (ProcOk.unused _) (fun r hr => by cases hr) hother
  have hnone : Process.unused.root = none := rfl
  rw [hnone]
  refine hmm.congr_vmas fun j r hr => ?_
  have hj : j ≠ i := by
    rintro rfl
    rw [Function.update_self] at hr
    cases hr
  rw [Function.update_of_ne hj, hvmas j hj]

/-- Two records that agree in everything that concerns memory. -/
structure SameSpace (p p' : Process) : Prop where
  isUser : p'.isUser = p.isUser
  satp : p'.satp = p.satp
  vmas : p'.vmas = p.vmas
  base : p'.userStackBase = p.userStackBase
  pages : p'.userStackPages = p.userStackPages
  unused : p'.state = .unused ↔ p.state = .unused

theorem SameSpace.refl (p : Process) : SameSpace p p := ⟨rfl, rfl, rfl, rfl, rfl, Iff.rfl⟩

theorem SameSpace.root {p p' : Process} (h : SameSpace p p') : p'.root = p.root := by
  unfold Process.root
  rw [h.isUser, h.satp]

theorem SameSpace.ok {satp : Nat} {p p' : Process} (h : SameSpace p p') (hok : ProcOk satp p) :
    ProcOk satp p' := by
  refine ⟨?_, ?_, ?_, ?_, ?_⟩
  · rw [h.isUser, ne_eq, h.unused]
    exact hok.used
  · rw [h.isUser, h.base]
    exact hok.base
  · rw [h.isUser, h.pages]
    exact hok.pages
  · rw [h.isUser, h.satp]
    exact hok.satp
  · rw [h.isUser, ne_eq, h.unused, h.satp]
    exact hok.kernel

/-- Records change in what does not concern memory, and memory keeps its
invariant. -/
theorem KernelInv.of_records (h : KernelInv L k) (hglobals : SameGlobals k k')
    (hsame : ∀ j, SameSpace (k.procs j) (k'.procs j))
    (hmm : MmInv L (tableRoots k.procs k.kernelPage) (fun _ => 0) (tableVmas k.procs) k.kernelPage
      k'.phys)
    (hcomplete : ∀ j r, (k.procs j).root = some r → Complete L k'.phys.mem r) : KernelInv L k' := by
  have hroots : tableRoots k'.procs k.kernelPage = tableRoots k.procs k.kernelPage := by
    funext space
    cases space with
    | none => rfl
    | some j => exact (hsame j).root
  have hvmas : tableVmas k'.procs = tableVmas k.procs := funext fun j => (hsame j).vmas
  refine ⟨?_, ?_, fun j => ?_, fun {j r} hr => ?_⟩
  · rw [hglobals.page, hroots, hvmas]
    exact hmm
  · rw [hglobals.rootPt, hglobals.page]
    exact h.rootPt
  · rw [hglobals.satp]
    exact (hsame j).ok (h.ok j)
  · rw [(hsame j).root] at hr
    exact hcomplete j r hr

/-- Only records change. -/
theorem KernelInv.kept_records (h : KernelInv L k) (hglobals : SameGlobals k k')
    (hsame : ∀ j, SameSpace (k.procs j) (k'.procs j)) (hphys : k'.phys = k.phys) :
    Kept L k k' := by
  refine ⟨h.of_records hglobals hsame ?_ ?_, fun _ => by rw [hphys]⟩
  · rw [hphys]
    exact h.mm
  · intro j r hr
    rw [hphys]
    exact h.complete hr

/-- One record changes in what does not concern memory. -/
theorem KernelInv.kept_record (h : KernelInv L k) (hsame : SameSpace (k.procs i) p) :
    Kept L k (k.setProc i p) := by
  refine h.kept_records ⟨rfl, rfl⟩ (fun j => ?_) rfl
  by_cases hj : j = i
  · subst hj
    rw [Kernel.setProc_self]
    exact hsame
  · rw [Kernel.setProc_other k p hj]
    exact SameSpace.refl _

end Write

theorem tableRoots_user {k : Kernel} {i : Fin procMax} (huser : (k.procs i).isUser = true) :
    tableRoots k.procs k.kernelPage (some i) = some (rootPage (k.procs i).satp) :=
  Process.root_user huser

/-- The same space, by its root. -/
theorem tableRoots_some {k : Kernel} {i : Fin procMax} {r : Nat} (h : (k.procs i).root = some r) :
    tableRoots k.procs k.kernelPage (some i) = some r := h

/-- A free slot has no space. -/
theorem KernelInv.free_slot {k : Kernel} (h : KernelInv L k) {i : Fin procMax}
    (hfree : (k.procs i).state = .unused) :
    (k.procs i).isUser = false ∧ tableRoots k.procs k.kernelPage (some i) = none := by
  have hkernel : (k.procs i).isUser = false := by
    cases huser : (k.procs i).isUser with
    | false => rfl
    | true => exact absurd hfree ((h.ok i).used huser)
  exact ⟨hkernel, Process.root_kernel hkernel⟩

/-! ## Faults and accesses -/

/-- What a memory call of process `i` leaves that does not change its VMAs. -/
structure Moved (L : Layout) (roots : Space → Option Nat) (vmas : Fin procMax → Vmas) (kr : Nat)
    (i : Fin procMax) (r : Nat) (s s' : Phys) : Prop where
  inv : MmInv L roots (fun _ => 0) vmas kr s'
  loc : Local roots i s s'
  complete : Complete L s.mem r → Complete L s'.mem r
  unmanaged : ∀ {p}, ¬ L.Managed p → s'.mem p = s.mem p

section Moved

variable {roots : Space → Option Nat} {vmas : Fin procMax → Vmas} {kr : Nat} {i : Fin procMax}
  {r : Nat} {s s' : Phys}

theorem Moved.refl (h : MmInv L roots (fun _ => 0) vmas kr s) : Moved L roots vmas kr i r s s :=
  ⟨h, Local.refl s, fun hc => hc, fun _ => rfl⟩

/-- Every outcome of a page fault that returns. -/
theorem FaultCase.moved {sum ok : Bool} {vpn access : Nat}
    (h : MmInv L roots (fun _ => 0) vmas kr s) (hr : roots (some i) = some r)
    (hcase : FaultCase L roots (fun _ => 0) vmas kr sum i r vpn access s (.ok (ok, s'))) :
    Moved L roots vmas kr i r s s' := by
  cases hcase with
  | refused hno => exact Moved.refl h
  | present hcov hprot hwalk hbits => exact Moved.refl h
  | exhausted hcov hprot hold hres => exact Moved.refl h
  | @noTable j q s₁ a' hcov hprot hwalk htable hal halloc hres hfree hdrop hinv =>
      have hsame := (h.vm.allocate hal).1
      have hout : ∀ {p}, (L.Managed p → refcntOf L s.alloc p ≠ 0) → s₁.mem p = s.mem p := by
        intro p hcount
        rw [hal.mem, if_neg]
        exact fun hin => hcount (hal.managed p hin) (hal.wasFree p hin)
      refine ⟨hinv, ⟨fun hr' _ hvpn => hsame.walk hr' hvpn, ?_, ?_⟩, fun hc => ?_, fun hp => ?_⟩
      · intro space r' vpn' leaf hr' _ hvpn' hwalk' hU
        exact hout (leaf_in_use h.vm hr' hvpn' hwalk' hU).2
      · show s₁.mmu.satp = _
        rw [hal.mmu]
      · exact hc.of_walk fun hvpn => hsame.walk hr hvpn
      · exact hout fun hm => absurd hm hp
  | mapped hcov hprot hold hperm hres htable hresolved hinv =>
      refine ⟨hinv, hresolved.local h, fun hc => ?_, fun hp => ?_⟩
      · intro vpn' hvpn' hw hthere
        rw [hresolved.walk hr hvpn']
        split
        · rfl
        · exact hc hvpn' hw hthere
      · exact hresolved.page (h.vm.noTable_of_unmanaged hp) fun hm => absurd hm hp

end Moved

/-- A process without the page in a VMA, or above the address space, gets no page. -/
theorem procHandleUserPageFault_high {sum : Bool} {proc : Process} (hv : VmaInv L proc.vmas)
    {addr access : Nat} (haddr : 4294967296 ≤ addr) (s : Phys) :
    procHandleUserPageFault L sum proc addr access s = .ok (false, s) := by
  have hnone : procFindVmaIndex proc.vmas (pageFloor addr) = none := by
    by_contra hsome
    obtain ⟨j, hfind⟩ := Option.ne_none_iff_exists'.mp hsome
    have hcov : (proc.vmas j).Covers (addr / 4096) := procFindVmaIndex_covers hfind
    have hlt := hv.covers_lt hcov
    omega
  unfold procHandleUserPageFault
  dsimp only
  rw [hnone]
  split
  · rfl
  · split <;> rfl

section Fault

variable {k : Kernel} {i : Fin procMax}

/-- A page fault of a process in a state with the invariant. -/
theorem KernelInv.fault (h : KernelInv L k) (huser : (k.procs i).isUser = true) (sum : Bool)
    {addr : Nat} (access : Nat) (haddr : addr < 4294967296) :
    FaultCase L (tableRoots k.procs k.kernelPage) (fun _ => 0) (tableVmas k.procs) k.kernelPage sum
      i (rootPage (k.procs i).satp) (addr / 4096) access k.phys
      (procHandleUserPageFault L sum (k.procs i) addr access k.phys) :=
  procHandleUserPageFault_spec h.mm (tableRoots_user huser) rfl huser rfl
    (h.complete (Process.root_user huser)) haddr

theorem KernelInv.vma (h : KernelInv L k) (huser : (k.procs i).isUser = true) :
    VmaInv L (k.procs i).vmas :=
  h.mm.vma (tableRoots_user huser)

theorem KernelInv.fault_moved (h : KernelInv L k) (huser : (k.procs i).isUser = true) {sum ok : Bool}
    {addr access : Nat} {s' : Phys}
    (hcall : procHandleUserPageFault L sum (k.procs i) addr access k.phys = .ok (ok, s')) :
    Moved L (tableRoots k.procs k.kernelPage) (tableVmas k.procs) k.kernelPage i
      (rootPage (k.procs i).satp) k.phys s' := by
  by_cases haddr : addr < 4294967296
  · have hcase := h.fault huser sum access haddr
    rw [hcall] at hcase
    exact hcase.moved h.mm (tableRoots_user huser)
  · rw [procHandleUserPageFault_high (h.vma huser) (by omega)] at hcall
    cases hcall
    exact Moved.refl h.mm

/-- Memory moves under a table that stays. -/
theorem KernelInv.kept_moved {k' : Kernel} {s' : Phys} (h : KernelInv L k)
    (huser : (k.procs i).isUser = true) (hglobals : SameGlobals k k') (hprocs : k'.procs = k.procs)
    (hphys : k'.phys = s')
    (hmoved : Moved L (tableRoots k.procs k.kernelPage) (tableVmas k.procs) k.kernelPage i
      (rootPage (k.procs i).satp) k.phys s') : Kept L k k' := by
  subst hphys
  refine ⟨h.of_records hglobals (fun j => ?_) hmoved.inv ?_, hmoved.unmanaged⟩
  · rw [hprocs]
    exact SameSpace.refl _
  · intro j r hr
    by_cases hj : j = i
    · subst hj
      rw [Process.root_user huser] at hr
      rw [← Option.some.inj hr]
      exact hmoved.complete (h.complete (Process.root_user huser))
    · exact hmoved.loc.complete (tableRoots_some hr) hj (h.complete hr)

end Fault

/-- An access to user memory: the table stays, and so does the invariant. -/
structure Reads (L : Layout) (k k' : Kernel) : Prop where
  table : SameTable k k'
  globals : SameGlobals k k'
  kept : KernelInv L k → Kept L k k'

theorem reads_follows : Follows (Reads L) := by
  refine ⟨fun k => ⟨⟨rfl, rfl⟩, ⟨rfl, rfl⟩, Kept.refl⟩, fun h h' => ⟨?_, ?_, ?_⟩⟩
  · exact sameTable_follows.trans h.table h'.table
  · exact ⟨h'.globals.rootPt.trans h.globals.rootPt, h'.globals.satp.trans h.globals.satp⟩
  · intro hinv
    exact (h.kept hinv).trans (h'.kept (h.kept hinv).inv)

/-- The memory a fault handler leaves, put into the kernel state. -/
theorem Reads.of_fault {k : Kernel} {i : Fin procMax} {sum ok : Bool} {addr access : Nat} {s' : Phys}
    (huser : (k.procs i).isUser = true) (touched : List UserTouch)
    (hcall : procHandleUserPageFault L sum (k.procs i) addr access k.phys = .ok (ok, s')) :
    Reads L k { k with phys := s', touched := touched } :=
  ⟨⟨rfl, rfl⟩, ⟨rfl, rfl⟩, fun h =>
    h.kept_moved huser ⟨rfl, rfl⟩ rfl rfl (h.fault_moved huser hcall)⟩

theorem touch_reads (access va : Nat) (k : Kernel) : Along (Reads L) k (touch L access va k) := by
  unfold touch
  split
  · trivial
  · rename_i i hcur
    dsimp only
    split
    · exact ⟨⟨rfl, rfl⟩, ⟨rfl, rfl⟩, fun h => ⟨⟨h.mm, h.rootPt, h.ok, h.complete⟩, fun _ => rfl⟩⟩
    · split
      · trivial
      · rename_i huser
        rw [not_not] at huser
        cases hfault : procHandleUserPageFault L true (k.procs i) va access k.phys with
        | error e => trivial
        | ok out =>
            obtain ⟨ok, s⟩ := out
            cases ok with
            | false => exact ⟨_, Reads.of_fault huser _ hfault, rfl⟩
            | true =>
                dsimp only
                split
                · exact Reads.of_fault huser _ hfault
                · trivial

/-! ## Exit -/

theorem procExit_globals (status : Int) (k : Kernel) :
    SameGlobals k (procExit status k) ∧ (procExit status k).phys = k.phys := by
  unfold procExit
  split
  · exact ⟨⟨rfl, rfl⟩, rfl⟩
  · dsimp only
    split
    · exact ⟨⟨rfl, rfl⟩, rfl⟩
    · split <;> exact ⟨⟨rfl, rfl⟩, rfl⟩

theorem procExit_kept {k : Kernel} {i : Fin procMax} (h : KernelInv L k) (status : Int)
    (hcur : k.currentProc = some i) (hstate : (k.procs i).state ≠ .unused) :
    Kept L k (procExit status k) := by
  obtain ⟨hglobals, hphys⟩ := procExit_globals status k
  refine h.kept_records hglobals (fun j => ?_) hphys
  rw [procExit_procs status hcur]
  by_cases hj : j = i
  · subst hj
    rw [exitTable_self]
    exact ⟨rfl, rfl, rfl, rfl, rfl, ⟨nofun, fun hc => absurd hc hstate⟩⟩
  · rcases exitTable_other status hj with heq | ⟨hblocked, heq⟩
    · rw [heq]
      exact SameSpace.refl _
    · rw [heq]
      refine ⟨rfl, rfl, rfl, rfl, rfl, ⟨nofun, fun hc => ?_⟩⟩
      rw [hblocked] at hc
      cases hc

/-- A call that only reaches user memory, settled. -/
theorem Along.kept {k k' : Kernel} {i : Fin procMax} {α : Type} {m : Except Halt (α × Kernel)}
    (h : KernelInv L k) (hrun : k.running = some i) (hm : Along (Reads L) k m)
    (hsettle : settle m = .ok k') : Kept L k k' := by
  obtain ⟨hcur, hstate⟩ := Kernel.running_eq_some.mp hrun
  cases m with
  | ok out =>
      have hreads : Reads L k out.2 := hm
      cases hsettle
      exact hreads.kept h
  | error e =>
      cases e with
      | stop e => cases hsettle
      | exited k₁ =>
          cases hsettle
          obtain ⟨k₂, hreads, rfl⟩ := hm
          have hkept := hreads.kept h
          refine hkept.trans (procExit_kept hkept.inv 128 (hreads.table.2.trans hcur) ?_)
          rw [hreads.table.1, hstate]
          decide

/-- The end of a page fault in user mode. -/
theorem faultDone_kept {k k' : Kernel} {i : Fin procMax} {addr access : Nat} (h : KernelInv L k)
    (hrun : k.running = some i) (hdone : userPageFault L i addr access k = .ok k') : Kept L k k' := by
  obtain ⟨hcur, hstate⟩ := Kernel.running_eq_some.mp hrun
  unfold userPageFault at hdone
  cases huser : (k.procs i).isUser with
  | false =>
      have hrefused : procHandleUserPageFault L false (k.procs i) addr access k.phys =
          .ok (false, k.phys) := by
        unfold procHandleUserPageFault
        rw [huser, if_pos (by decide)]
      rw [hrefused] at hdone
      cases hdone
      exact procExit_kept h 128 hcur (by rw [hstate]; decide)
  | true =>
      cases hfault : procHandleUserPageFault L false (k.procs i) addr access k.phys with
      | error e =>
          rw [hfault] at hdone
          cases hdone
      | ok out =>
          obtain ⟨ok, s⟩ := out
          rw [hfault] at hdone
          have hkept := (Reads.of_fault huser k.touched hfault).kept h
          cases ok with
          | true =>
              cases hdone
              exact hkept
          | false =>
              cases hdone
              exact hkept.trans (procExit_kept hkept.inv 128 hcur (by rw [hstate]; decide))

end Sugimotos.Proc
