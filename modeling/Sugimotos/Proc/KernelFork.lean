/-
# Creation and fork keep the kernel invariant

A new process gets its stack, its page tables and its record in turn, and any of
these steps can fail.  `Reserved` and `Rooted` say what holds in between.
-/

import Sugimotos.Proc.KernelInv

namespace Sugimotos.Proc

open Sugimotos.Math Sugimotos.Mm

variable {L : Layout} {k k' : Kernel} {i : Fin procMax} {q r : Nat} {s s' : Phys} {v : Vmas}

/-! ## A process under construction -/

/-- The stack pages of a new process are allocated and nothing refers to them. -/
structure Reserved (L : Layout) (k : Kernel) (q : Nat) (s : Phys) : Prop where
  inv : MmInv L (tableRoots k.procs k.kernelPage) (fun p => 0 + if inBlock q 2 p then 1 else 0)
    (tableVmas k.procs) k.kernelPage s
  complete : ∀ j r, (k.procs j).root = some r → Complete L s.mem r
  unmanaged : ∀ {p}, ¬ L.Managed p → s.mem p = k.phys.mem p
  block : ∀ p, inBlock q 2 p → L.Managed p

/-- The address space of a new process in slot `i` is built. -/
structure Rooted (L : Layout) (k : Kernel) (i : Fin procMax) (r : Nat) (v : Vmas) (s : Phys) :
    Prop where
  inv : MmInv L (Function.update (tableRoots k.procs k.kernelPage) (some i) (some r)) (fun _ => 0)
    (Function.update (tableVmas k.procs) i v) k.kernelPage s
  page_lt : r < 1048576
  complete : ∀ j r, j ≠ i → (k.procs j).root = some r → Complete L s.mem r
  unmanaged : ∀ {p}, ¬ L.Managed p → s.mem p = k.phys.mem p

/-- The pages of the stack are reserved. -/
theorem KernelInv.reserve (h : KernelInv L k) (hal : Allocated L q 2 k.phys s) :
    Reserved L k q s := by
  have hsame := (h.mm.vm.allocate hal).1
  refine ⟨h.mm.allocate hal, fun j r hr => ?_, fun hp => ?_, hal.managed⟩
  · exact Complete.of_walk (h.complete hr) fun hvpn => hsame.walk (tableRoots_some hr) hvpn
  · rw [hal.mem, if_neg]
    exact fun hin => hp (hal.managed _ hin)

theorem heldAfter_block (q n : Nat) :
    heldAfter (fun p => 0 + if inBlock q n p then 1 else 0) q n = fun _ => 0 := by
  funext p
  unfold heldAfter
  dsimp only
  by_cases hin : inBlock q n p
  · rw [if_pos hin]
  · rw [if_neg hin]

/-- `vm_build_user_satp` for the new process. -/
theorem KernelInv.build (h : KernelInv L k) (hfree : (k.procs i).state = .unused)
    (hal : Allocated L q 2 k.phys s) :
    Outcome (vmBuildUserSatp L k.kernelRootPt 0x3fffe000 (q * 4096) 2 s)
      (fun out => Quiet L (tableRoots k.procs k.kernelPage) s out.2 ∧
        ((out.1 = none ∧ Reserved L k q out.2 ∧ BuildLeak L s out.2) ∨
        ∃ r, out.1 = some (vmMakeSatp (r * 4096)) ∧
          Built L (tableRoots k.procs k.kernelPage) (fun p => 0 + if inBlock q 2 p then 1 else 0)
            (some i) k.kernelPage q r s out.2 ∧
          Complete L out.2.mem r ∧ ∀ v, VmaInv L v → Rooted L k i r v out.2))
      (fun _ => False) := by
  have hres := h.reserve hal
  have hnone := (h.free_slot hfree).2
  have hstack : StackBlock L (fun p => 0 + if inBlock q 2 p then 1 else 0) s.alloc q := by
    intro p hin
    have hm := hal.managed p hin
    refine ⟨hm, ?_, ?_⟩
    · dsimp only
      rw [if_pos hin]
      exact Nat.one_pos
    · rw [hal.count p hm, if_pos hin]
  rw [h.rootPt, show (0x3fffe000 : Nat) = stackVpn * 4096 from rfl]
  refine (vmBuildUserSatp_spec hres.inv.vm h.mm.kernel hnone hstack).imp ?_
  rintro ⟨result, s'⟩ ⟨hquiet, hcases⟩
  have hunmanaged : ∀ {p}, ¬ L.Managed p → s'.mem p = k.phys.mem p := by
    intro p hp
    rw [hquiet.page (hres.inv.vm.noTable_of_unmanaged hp) fun hm => absurd hm hp]
    exact hres.unmanaged hp
  have hcomplete : ∀ j r, (k.procs j).root = some r → Complete L s'.mem r := fun j r hr =>
    Complete.of_walk (hres.complete j r hr) fun hvpn => hquiet.walk (tableRoots_some hr) hvpn
  refine ⟨hquiet, ?_⟩
  rcases hcases with ⟨hfail, hvm, hleak⟩ | ⟨r, hok, hbuilt⟩
  · exact Or.inl ⟨hfail, ⟨hres.inv.of_quiet hquiet hvm, hcomplete, hunmanaged, hal.managed⟩, hleak⟩
  · refine Or.inr ⟨r, hok, hbuilt, Built.complete hres.inv hbuilt, fun v hv => ?_⟩
    refine ⟨?_, hbuilt.managed.lt, fun j r _ hr => hcomplete j r hr, hunmanaged⟩
    rw [← heldAfter_block q 2]
    exact hres.inv.addUser hnone hquiet hbuilt hal.managed hv

/-- The record of a process that has its stack pages and nothing else. -/
structure BareProc (q : Nat) (proc : Process) : Prop where
  user : proc.isUser = true
  satp : proc.satp = 0
  vmas : proc.vmas = fun _ => .zero
  paddr : proc.userStackPaddr = q * 4096
  pages : proc.userStackPages = 2

/-- `proc_vm_release` of such a process frees its stack. -/
theorem BareProc.release {proc : Process} (hbare : BareProc q proc) (hq : q ≠ 0) (s : Phys) :
    procVmRelease L proc s = s.withAlloc (freePages L (q * 4096) 2) := by
  have hwindow : windowPages proc.vmas = [] := by
    unfold windowPages
    rw [hbare.vmas]
    exact List.flatMap_eq_nil_iff.mpr fun _ _ => rfl
  unfold procVmRelease
  rw [if_neg (by rw [hbare.user]; decide), hwindow]
  change (if proc.satp = 0 then _ else _) = _
  rw [if_pos hbare.satp, if_pos ⟨by rw [hbare.paddr]; omega, by rw [hbare.pages]; decide⟩,
    hbare.paddr, hbare.pages]

theorem managed_ne_zero {p : Nat} (hm : L.Managed p) : p ≠ 0 := by
  have hfreePage := L.freePage_mul
  have hbase := Layout.order (L := L)
  unfold Layout.Managed at hm
  omega

/-- Giving back the stack of a process without an address space. -/
theorem Reserved.release (hres : Reserved L k q s) (h : KernelInv L k)
    (hfree : (k.procs i).state = .unused) {proc : Process} (hbare : BareProc q proc) :
    Outcome (resetProcess L k i proc s) (Kept L k) (fun _ => False) := by
  have hnone := (h.free_slot hfree).2
  have hblock : ∀ p, inBlock q 2 p → L.Managed p ∧
      0 < (fun p => 0 + if inBlock q 2 p then 1 else 0) p := by
    intro p hin
    refine ⟨hres.block p hin, ?_⟩
    dsimp only
    rw [if_pos hin]
    exact Nat.one_pos
  have hq : q ≠ 0 := managed_ne_zero (hres.block q ⟨le_refl q, by omega⟩)
  obtain ⟨a', hrun, hvm⟩ := (freePages_held hres.inv.vm (show 0 < 2 by decide) hblock).exists_ok
  have hrelease : procVmRelease L proc s = .ok { s with alloc := a' } := by
    rw [hbare.release hq]
    unfold Phys.withAlloc
    rw [hrun]
  unfold resetProcess
  rw [hrelease]
  rw [heldAfter_block] at hvm
  refine ⟨h.clear ⟨rfl, rfl⟩ rfl (fun _ _ => rfl) ?_ fun j r _ hr => hres.complete j r hr, fun hp => ?_⟩
  · rw [Function.update_eq_self_iff.mpr hnone.symm]
    exact hres.inv.of_alloc hvm rfl
  · exact hres.unmanaged hp

/-- Giving back everything of a process whose space was built. -/
theorem Rooted.release (hroot : Rooted L k i r v s) (h : KernelInv L k) {proc : Process}
    (huser : proc.isUser = true) (hsatp : proc.satp = vmMakeSatp (r * 4096)) (hvmas : proc.vmas = v)
    (hbase : proc.userStackBase = 0x3fffe000) (hpages : proc.userStackPages = 2) :
    Outcome (resetProcess L k i proc s) (Kept L k) (fun _ => False) := by
  have hrootPage : rootPage proc.satp = r := by
    rw [hsatp]
    exact rootPage_vmMakeSatp hroot.page_lt
  have hnonzero : proc.satp ≠ 0 := by
    rw [hsatp]
    exact vmMakeSatp_ne_zero _
  have hdrop := procVmRelease_drop hroot.inv (Function.update_self ..) huser hrootPage hnonzero
    (by rw [Function.update_self]; exact hvmas) hbase hpages (Nat.zero_le 1) fun _ _ => rfl
  unfold resetProcess
  cases hrun : procVmRelease L proc s with
  | error e =>
      rw [hrun] at hdrop
      exact hdrop
  | ok s' =>
      rw [hrun] at hdrop
      obtain ⟨hinv, hloc, hunmanaged⟩ := hdrop
      rw [Function.update_idem] at hinv
      refine ⟨h.clear ⟨rfl, rfl⟩ rfl (fun j hj => Function.update_of_ne hj ..) hinv ?_, fun hp => ?_⟩
      · intro j r' hj hr'
        refine hloc.complete ?_ hj (hroot.complete j r' hj hr')
        rw [Function.update_of_ne (by simpa using hj)]
        exact hr'
      · exact (hunmanaged _ hp).trans (hroot.unmanaged hp)

/-- The record of the new process is written. -/
theorem Rooted.commit (hroot : Rooted L k i r v s) (h : KernelInv L k)
    (hself : Complete L s.mem r) {proc : Process} (huser : proc.isUser = true) (hused : proc.state ≠ .unused)
    (hsatp : proc.satp = vmMakeSatp (r * 4096)) (hvmas : proc.vmas = v)
    (hbase : proc.userStackBase = 0x3fffe000) (hpages : proc.userStackPages = 2) :
    Kept L k ({ k with phys := s }.setProc i proc) := by
  have hprocRoot : proc.root = some r := by
    rw [Process.root_user huser, hsatp, rootPage_vmMakeSatp hroot.page_lt]
  refine ⟨h.write ⟨rfl, rfl⟩ rfl ?_ ?_ ?_ hroot.complete, hroot.unmanaged⟩
  · rw [hprocRoot, hvmas]
    exact hroot.inv
  · refine ⟨fun _ => hused, fun _ => hbase, fun _ => hpages, fun _ => ?_, fun hkernel => ?_⟩
    · rw [hsatp]
      exact vmMakeSatp_ne_zero _
    · rw [huser] at hkernel
      cases hkernel
  · intro r' hr'
    rw [hprocRoot] at hr'
    rw [← Option.some.inj hr']
    exact hself

/-- A slot that was taken and is given back without memory. -/
theorem KernelInv.kept_cleared (h : KernelInv L k) (hfree : (k.procs i).state = .unused) :
    Kept L k (k.setProc i .unused) := by
  refine ⟨h.clear ⟨rfl, rfl⟩ rfl (fun _ _ => rfl) ?_ fun j r _ hr => h.complete hr, fun _ => rfl⟩
  rw [Function.update_eq_self_iff.mpr (h.free_slot hfree).2.symm]
  exact h.mm

/-! ## Creation -/

theorem createProcess_kept (h : KernelInv L k) : Kept L k (createProcess k).2 := by
  unfold createProcess
  cases hslot : allocProcessSlot k.procs with
  | none => exact Kept.refl h
  | some i =>
      obtain ⟨-, hnone⟩ := h.free_slot (allocProcessSlot_unused hslot)
      refine ⟨h.write ⟨rfl, rfl⟩ rfl ?_ ?_ (fun r hr => ?_) fun j r _ hr => h.complete hr, fun _ => rfl⟩
      · change MmInv L (Function.update _ (some i) none) _ _ _ _
        rw [Function.update_eq_self_iff.mpr hnone.symm]
        refine h.mm.congr_vmas fun j r hr => ?_
        have hj : j ≠ i := by
          rintro rfl
          rw [hnone] at hr
          cases hr
        rw [Function.update_of_ne hj]
      · exact ⟨nofun, nofun, nofun, nofun, fun _ _ => rfl⟩
      · cases hr

/-- The translations of a process that was just created. -/
def FreshSpace (L : Layout) (k : Kernel) (i : Fin procMax) : Prop :=
  (k.procs i).isUser = true ∧ ∀ {vpn}, dataPage L vpn →
    walk k.phys.mem (rootPage (k.procs i).satp) vpn = some ⟨vpn, 22⟩

/-- How `create_user_process` can end. -/
inductive CreateCase (L : Layout) (k : Kernel) :
    Except Panic (Option (Fin procMax) × Kernel) → Prop
  | noSlot (hslot : allocProcessSlot k.procs = none) : CreateCase L k (.ok (none, k))
  | noStack {i : Fin procMax} (hslot : allocProcessSlot k.procs = some i)
      (hres : reservePages 2 k.phys.alloc = none) :
      CreateCase L k (.ok (none, k.setProc i .unused))
  | noSpace {i : Fin procMax} {q : Nat} {s s₁ : Phys} {proc : Process} {k' : Kernel}
      (hslot : allocProcessSlot k.procs = some i)
      (halloc : allocPagesTry L 2 k.phys = (some (q * 4096), s))
      (hal : Allocated L q 2 k.phys s) (hquiet : Quiet L (tableRoots k.procs k.kernelPage) s s₁)
      (hleak : BuildLeak L s s₁) (hbare : BareProc q proc) (hkept : Kept L k k')
      (hreset : resetProcess L k i proc s₁ = .ok k') : CreateCase L k (.ok (none, k'))
  | created {i : Fin procMax} {q : Nat} {s s₁ : Phys} {proc : Process}
      (hslot : allocProcessSlot k.procs = some i) (hal : Allocated L q 2 k.phys s)
      (hquiet : Quiet L (tableRoots k.procs k.kernelPage) s s₁)
      (hkept : Kept L k ({ k with phys := s₁ }.setProc i proc))
      (hfresh : FreshSpace L ({ k with phys := s₁ }.setProc i proc) i) :
      CreateCase L k (.ok (some i, { k with phys := s₁ }.setProc i proc))

/-- A construction that gives everything back. -/
theorem reset_cases {α : Type} {proc : Process} {out : Except Panic (Option α × Kernel)}
    (hreset : Outcome (resetProcess L k i proc s) (Kept L k) (fun _ => False))
    (hcall : (match resetProcess L k i proc s with
      | .error e => .error e
      | .ok k' => .ok (none, k')) = out) :
    ∃ k', out = .ok (none, k') ∧ Kept L k k' ∧ resetProcess L k i proc s = .ok k' := by
  obtain ⟨k', hrun, hkept⟩ := hreset.exists_ok
  rw [hrun] at hcall
  exact ⟨k', hcall.symm, hkept, hrun⟩

theorem createUserProcess_cases {entryPc : Nat}
    {out : Except Panic (Option (Fin procMax) × Kernel)} (h : KernelInv L k)
    (hcall : createUserProcess L entryPc k = out) : CreateCase L k out := by
  unfold createUserProcess at hcall
  cases hslot : allocProcessSlot k.procs with
  | none =>
      rw [hslot] at hcall
      subst hcall
      exact .noSlot hslot
  | some i =>
      have hfree := allocProcessSlot_unused hslot
      rw [hslot] at hcall
      dsimp only at hcall
      cases halloc : allocPagesTry L userStackPages k.phys with
      | mk result s =>
          rw [halloc] at hcall
          cases result with
          | none =>
              obtain ⟨rfl, hwhy⟩ := allocPagesTry_none h.mm.vm.alloc halloc
              subst hcall
              exact .noStack hslot (hwhy.resolve_left (by decide))
          | some paddr =>
              obtain ⟨q, rfl, hal⟩ := allocPagesTry_some h.mm.vm.alloc (by decide) halloc
              have hbuild : Outcome (vmBuildUserSatp L k.kernelRootPt
                  (userStackTop - userStackPages * pageSize) (q * 4096) userStackPages s) _ _ :=
                h.build hfree hal
              dsimp only at hcall
              cases hmade : vmBuildUserSatp L k.kernelRootPt
                  (userStackTop - userStackPages * pageSize) (q * 4096) userStackPages s with
              | error e =>
                  rw [hmade] at hbuild
                  exact hbuild.elim
              | ok made =>
                  rw [hmade] at hbuild hcall
                  obtain ⟨satp, s₁⟩ := made
                  rcases hbuild with ⟨hquiet, ⟨hfail, hres, hleak⟩ | ⟨r, hok, hbuilt, hself, hroot⟩⟩
                  · dsimp only at hfail
                    subst hfail
                    obtain ⟨k', rfl, hkept, hreset⟩ := reset_cases
                      (hres.release h hfree (by exact ⟨rfl, rfl, rfl, rfl, rfl⟩)) hcall
                    exact .noSpace hslot halloc hal hquiet hleak (by exact ⟨rfl, rfl, rfl, rfl, rfl⟩)
                      hkept hreset
                  · dsimp only at hok
                    subst hok
                    dsimp only at hcall
                    obtain ⟨v, hinit, hv, -⟩ := @procVmInit_spec L
                      { initProcessCommon (slotPid i) 0 true procPriorityDef with
                        userStackPages := userStackPages
                        userStackPaddr := q * 4096
                        userStackBase := userStackTop - userStackPages * pageSize
                        satp := vmMakeSatp (r * 4096) } rfl rfl
                    rw [hinit] at hcall
                    subst hcall
                    apply CreateCase.created hslot hal hquiet
                    · exact (hroot v hv).commit h hself rfl nofun rfl rfl rfl rfl
                    · unfold FreshSpace
                      rw [Kernel.setProc_self]
                      refine ⟨rfl, fun {vpn} hd => ?_⟩
                      have hvpn : vpn < 1048576 := by
                        have horder := Layout.order (L := L)
                        unfold dataPage at hd
                        omega
                      change walk s₁.mem (rootPage (vmMakeSatp (r * 4096))) vpn = _
                      rw [rootPage_vmMakeSatp hbuilt.managed.lt, hbuilt.walk hvpn,
                        image_eq ((h.reserve hal).inv.kernelWalk hvpn),
                        if_neg (dataPage_not_low hd).2, fixedLeaf_eq, if_pos hd]

theorem createUserProcess_spec (h : KernelInv L k) (entryPc : Nat) :
    Outcome (createUserProcess L entryPc k)
      (fun out => Kept L k out.2 ∧ ∀ i, out.1 = some i → FreshSpace L out.2 i)
      (fun _ => False) := by
  generalize hcall : createUserProcess L entryPc k = out
  cases createUserProcess_cases h hcall with
  | noSlot hslot => exact ⟨Kept.refl h, nofun⟩
  | noStack hslot hres => exact ⟨h.kept_cleared (allocProcessSlot_unused hslot), nofun⟩
  | noSpace hslot halloc hal hquiet hleak hbare hkept hreset => exact ⟨hkept, nofun⟩
  | created hslot hal hquiet hkept hfresh =>
      refine ⟨hkept, fun j hj => ?_⟩
      cases hj
      exact hfresh

/-! ## Fork -/

/-- The space of the child once pages of the parent are shared with it. -/
theorem Rooted.cloned {p : Fin procMax} {done : Bool} (hroot : Rooted L k i r v s)
    (h : KernelInv L k) (hne : p ≠ i) (huser : (k.procs p).isUser = true)
    (hv : v = (k.procs p).vmas)
    (hinv : MmInv L (Function.update (tableRoots k.procs k.kernelPage) (some i) (some r))
      (fun _ => 0) (Function.update (tableVmas k.procs) i v) k.kernelPage s')
    (hcloned : Cloned L (Function.update (tableRoots k.procs k.kernelPage) (some i) (some r)) p i
      (rootPage (k.procs p).satp) r (cowItems v) done s s') : Rooted L k i r v s' := by
  have hold : ∀ {j r'}, j ≠ i → (k.procs j).root = some r' →
      Function.update (tableRoots k.procs k.kernelPage) (some i) (some r) (some j) = some r' := by
    intro j r' hj hr'
    rw [Function.update_of_ne (by simpa using hj)]
    exact hr'
  refine ⟨hinv, hroot.page_lt, fun j r' hj hr' => ?_, fun {q} hq => ?_⟩
  · by_cases hjp : j = p
    · subst hjp
      rw [Process.root_user huser] at hr'
      cases hr'
      exact hcloned.complete (hv ▸ h.vma huser) (hold hj (Process.root_user huser))
        (hroot.complete j _ hj (Process.root_user huser))
    · refine Complete.of_walk (hroot.complete j r' hj hr') fun hvpn => ?_
      apply hcloned.other (hold hj hr') hvpn
      rintro ⟨-, hspace | hspace⟩
      · exact hjp (Option.some.inj hspace)
      · exact hj (Option.some.inj hspace)
  · have hsolid : Solid L (Function.update (tableRoots k.procs k.kernelPage) (some i) (some r)) r s
        q := by
      refine ⟨hroot.inv.vm.noTable_of_unmanaged hq, fun hm => absurd hm hq, ?_⟩
      rintro vpn leaf - - - - hm rfl
      exact hq hm
    exact (hcloned.solid hsolid).1.trans (hroot.unmanaged hq)

/-- The record of a child, from the construction of its space on. -/
structure ForkChild (k : Kernel) (p i : Fin procMax) (r : Nat) (child : Process) : Prop where
  pid : child.pid = slotPid i
  state : child.state = .runnable
  user : child.isUser = true
  satp : child.satp = vmMakeSatp (r * 4096)
  vmas : child.vmas = (k.procs p).vmas
  base : child.userStackBase = 0x3fffe000
  pages : child.userStackPages = 2

/-- The space of a child in slot `i` is built behind the root `r`, with the stack in the
pages `q`. -/
structure ForkSpace (L : Layout) (k : Kernel) (p i : Fin procMax) (q r : Nat) (s s₁ : Phys) :
    Prop where
  user : (k.procs p).isUser = true
  slot : allocProcessSlot k.procs = some i
  ne : p ≠ i
  call : allocPagesTry L 2 k.phys = (some (q * 4096), s)
  alloc : Allocated L q 2 k.phys s
  quiet : Quiet L (tableRoots k.procs k.kernelPage) s s₁
  built : Built L (tableRoots k.procs k.kernelPage) (fun p => 0 + if inBlock q 2 p then 1 else 0)
    (some i) k.kernelPage q r s s₁
  rooted : Rooted L k i r (k.procs p).vmas s₁

/-- Whether `proc_fork` gets as far as `proc_vm_clone`. -/
def forkClones (L : Layout) (k : Kernel) : Bool :=
  match k.currentProc with
  | none => false
  | some p =>
      let parent := k.procs p
      parent.isUser && parent.hasTrapFrame && (allocProcessSlot k.procs).isSome &&
        procSpWithinUserStack parent (archUserStackPointer parent) &&
        match allocPagesTry L parent.userStackPages k.phys with
        | (none, _) => false
        | (some stackPaddr, s) =>
            match vmBuildUserSatp L k.kernelRootPt parent.userStackBase stackPaddr
              parent.userStackPages s with
            | .ok (some _, _) => true
            | _ => false

/-- A fork that gets as far. -/
theorem forkClones_of {p : Fin procMax} {paddr satp : Nat} {s s₁ : Phys}
    (hcur : k.currentProc = some p) (huser : (k.procs p).isUser = true)
    (hframe : (k.procs p).hasTrapFrame = true) (hslot : allocProcessSlot k.procs = some i)
    (halloc : allocPagesTry L (k.procs p).userStackPages k.phys = (some paddr, s))
    (hmade : vmBuildUserSatp L k.kernelRootPt (k.procs p).userStackBase paddr
      (k.procs p).userStackPages s = .ok (some satp, s₁))
    (hsp : procSpWithinUserStack (k.procs p) (archUserStackPointer (k.procs p)) = true) :
    forkClones L k = true := by
  unfold forkClones
  rw [hcur]
  dsimp only
  rw [huser, hframe, hslot, hsp, halloc]
  dsimp only
  rw [hmade]
  rfl

/-- How `proc_fork` of the process in slot `p` can end. -/
inductive ForkCase (L : Layout) (k : Kernel) (p : Fin procMax) :
    Except Panic (Option Int × Kernel) → Prop
  /-- No user process, no saved registers, or no slot. -/
  | refused (hno : (k.procs p).isUser = false ∨ (k.procs p).hasTrapFrame = false ∨
      allocProcessSlot k.procs = none) : ForkCase L k p (.ok (none, k))
  | noStack {i : Fin procMax} (hslot : allocProcessSlot k.procs = some i)
      (hres : reservePages 2 k.phys.alloc = none) :
      ForkCase L k p (.ok (none, k.setProc i .unused))
  | noSpace {i : Fin procMax} {q : Nat} {s s₁ : Phys} {proc : Process} {k' : Kernel}
      (hslot : allocProcessSlot k.procs = some i)
      (halloc : allocPagesTry L 2 k.phys = (some (q * 4096), s))
      (hal : Allocated L q 2 k.phys s) (hquiet : Quiet L (tableRoots k.procs k.kernelPage) s s₁)
      (hleak : BuildLeak L s s₁) (hbare : BareProc q proc) (hkept : Kept L k k')
      (hreset : resetProcess L k i proc s₁ = .ok k') : ForkCase L k p (.ok (none, k'))
  /-- The stack pointer lies outside the stack. -/
  | badStack {i : Fin procMax} {q r : Nat} {s s₁ : Phys} {child : Process} {k' : Kernel}
      (hspace : ForkSpace L k p i q r s s₁)
      (hchild : ForkChild k p i r child) (hkept : Kept L k k')
      (hreset : resetProcess L k i child s₁ = .ok k') : ForkCase L k p (.ok (none, k'))
  | notCloned {i : Fin procMax} {q r : Nat} {s s₁ s₂ : Phys} {child : Process} {k' : Kernel}
      (hspace : ForkSpace L k p i q r s s₁)
      (hchild : ForkChild k p i r child)
      (hcloned : Cloned L (Function.update (tableRoots k.procs k.kernelPage) (some i) (some r)) p i
        (rootPage (k.procs p).satp) r (cowItems (k.procs p).vmas) false s₁ s₂)
      (hrooted : Rooted L k i r (k.procs p).vmas s₂) (hkept : Kept L k k')
      (hreset : resetProcess L k i child s₂ = .ok k') : ForkCase L k p (.ok (none, k'))
  | forked {i : Fin procMax} {q r : Nat} {s s₁ s₂ : Phys} {child : Process}
      (hspace : ForkSpace L k p i q r s s₁)
      (hchild : ForkChild k p i r child)
      (hcloned : Cloned L (Function.update (tableRoots k.procs k.kernelPage) (some i) (some r)) p i
        (rootPage (k.procs p).satp) r (cowItems (k.procs p).vmas) true s₁ s₂)
      (hrooted : Rooted L k i r (k.procs p).vmas s₂)
      (hkept : Kept L k ({ k with phys := s₂ }.setProc i child)) :
      ForkCase L k p (.ok (some child.pid, { k with phys := s₂ }.setProc i child))
  /-- The parent has a private copy of a page of the writable sections. -/
  | panicked {vpn : Nat} {leaf : Leaf} (hclones : forkClones L k = true) (hd : dataPage L vpn)
      (hwalk : walk k.phys.mem (rootPage (k.procs p).satp) vpn = some leaf)
      (hm : L.Managed leaf.ppn) : ForkCase L k p (.error .freeOutOfManagedRange)

/-- `proc_vm_clone` into the space just built, and all that can end it. -/
theorem ForkSpace.clone {p : Fin procMax} {s₁ : Phys} {child : Process}
    (hspace : ForkSpace L k p i q r s s₁) (h : KernelInv L k) (hself : Complete L s₁.mem r)
    (hchild : ForkChild k p i r child) :
    Outcome (procVmClone L (k.procs p) child s₁)
      (fun out => Rooted L k i r (k.procs p).vmas out.2 ∧
        (out.1 = true → Complete L out.2.mem r) ∧
        Cloned L (Function.update (tableRoots k.procs k.kernelPage) (some i) (some r)) p i
          (rootPage (k.procs p).satp) r (cowItems (k.procs p).vmas) out.1 s₁ out.2)
      (fun e => e = .freeOutOfManagedRange ∧ ∃ vpn leaf, dataPage L vpn ∧
        walk k.phys.mem (rootPage (k.procs p).satp) vpn = some leaf ∧ L.Managed leaf.ppn) := by
  have hroot := hspace.rooted
  have hparent : Function.update (tableRoots k.procs k.kernelPage) (some i) (some r) (some p) =
      some (rootPage (k.procs p).satp) := by
    rw [Function.update_of_ne (by simpa using hspace.ne)]
    exact tableRoots_user hspace.user
  have hvmas : Function.update (tableVmas k.procs) i (k.procs p).vmas p = (k.procs p).vmas :=
    Function.update_of_ne hspace.ne ..
  have hf : Forking (Function.update (tableRoots k.procs k.kernelPage) (some i) (some r)) p i
      (rootPage (k.procs p).satp) r (k.procs p).satp child.satp := by
    refine ⟨hparent, Function.update_self .., hspace.ne, rfl, ?_⟩
    rw [hchild.satp]
    exact rootPage_vmMakeSatp hroot.page_lt
  have hclone := procVmClone_spec hroot.inv hf
    ((Function.update_self ..).trans hvmas.symm) hvmas.symm fun {cow vpn} hmem => by
      rw [hvmas] at hmem
      exact Built.freshLeaf (h.reserve hspace.alloc).inv hspace.built hspace.alloc.managed
        (h.vma hspace.user) hmem
  rw [hvmas] at hclone
  apply hclone.mono
  · rintro ⟨done, s₂⟩ ⟨hinv, hcloned⟩
    refine ⟨hroot.cloned h hspace.ne hspace.user rfl hinv hcloned, ?_, hcloned⟩
    rintro rfl
    exact hcloned.complete_child (h.vma hspace.user) hparent (Function.update_self ..)
      (hroot.complete p _ hspace.ne (Process.root_user hspace.user)) hself
  · rintro e ⟨he, cow, vpn, leaf, hmem, hd, hwalk, hm⟩
    have hvpn : vpn < 1048576 := by
      have horder := Layout.order (L := L)
      unfold dataPage at hd
      omega
    -- building the space of the child leaves the translations of the parent alone
    have hold := (h.mm.vm.allocate hspace.alloc).1.walk (tableRoots_user hspace.user) hvpn
    rw [hspace.quiet.walk (tableRoots_user hspace.user) hvpn, hold] at hwalk
    exact ⟨he, vpn, leaf, hd, hwalk, hm⟩

theorem procFork_cases {p : Fin procMax} {out : Except Panic (Option Int × Kernel)}
    (h : KernelInv L k) (hrun : k.running = some p) (hcall : procFork L k = out) :
    ForkCase L k p out := by
  obtain ⟨hcur, hstate⟩ := Kernel.running_eq_some.mp hrun
  unfold procFork at hcall
  split at hcall
  · rename_i hcur'
    cases hcur.symm.trans hcur'
  rename_i p' hcur'
  cases hcur.symm.trans hcur'
  dsimp only at hcall
  split at hcall
  · rename_i hguard
    subst hcall
    apply ForkCase.refused
    rcases hguard with hno | hno
    · exact Or.inl (Bool.eq_false_iff.mpr hno)
    · exact Or.inr (Or.inl (Bool.eq_false_iff.mpr hno))
  rename_i hguard
  have huser : (k.procs p).isUser = true := by
    by_contra hno
    exact hguard (Or.inl hno)
  cases hslot : allocProcessSlot k.procs with
  | none =>
      rw [hslot] at hcall
      subst hcall
      exact .refused (Or.inr (Or.inr hslot))
  | some i =>
      have hfree := allocProcessSlot_unused hslot
      have hne : p ≠ i := by
        rintro rfl
        rw [hstate] at hfree
        cases hfree
      rw [hslot] at hcall
      simp only [(h.ok p).pages huser, (h.ok p).base huser] at hcall
      cases halloc : allocPagesTry L 2 k.phys with
      | mk taken s =>
          rw [halloc] at hcall
          cases taken with
          | none =>
              obtain ⟨rfl, hwhy⟩ := allocPagesTry_none h.mm.vm.alloc halloc
              subst hcall
              exact .noStack hslot (hwhy.resolve_left (by decide))
          | some paddr =>
              obtain ⟨q, rfl, hal⟩ := allocPagesTry_some h.mm.vm.alloc (by decide) halloc
              have hbuild := h.build hfree hal
              dsimp only at hcall
              cases hmade : vmBuildUserSatp L k.kernelRootPt 0x3fffe000 (q * 4096) 2 s with
              | error e =>
                  rw [hmade] at hbuild
                  exact hbuild.elim
              | ok made =>
                  rw [hmade] at hbuild hcall
                  obtain ⟨satp, s₁⟩ := made
                  rcases hbuild with ⟨hquiet, ⟨hfail, hres, hleak⟩ | ⟨r, hok, hbuilt, hself, hroot⟩⟩
                  · dsimp only at hfail
                    subst hfail
                    obtain ⟨k', rfl, hkept, hreset⟩ := reset_cases
                      (hres.release h hfree (by exact ⟨rfl, rfl, rfl, rfl, rfl⟩)) hcall
                    exact .noSpace hslot halloc hal hquiet hleak (by exact ⟨rfl, rfl, rfl, rfl, rfl⟩)
                      hkept hreset
                  · dsimp only at hok
                    subst hok
                    have hspace : ForkSpace L k p i q r s s₁ :=
                      ⟨huser, hslot, hne, halloc, hal, hquiet, hbuilt, hroot _ (h.vma huser)⟩
                    dsimp only at hcall
                    split at hcall
                    · obtain ⟨k', rfl, hkept, hreset⟩ :=
                        reset_cases (by exact hspace.rooted.release h rfl rfl rfl rfl rfl) hcall
                      exact .badStack hspace (by exact ⟨rfl, rfl, rfl, rfl, rfl, rfl, rfl⟩) hkept hreset
                    rename_i hsp
                    generalize hcontext : archCloneUserContext _ (k.procs p) _ = child at hcall
                    have hchild : ForkChild k p i r child := by
                      subst hcontext
                      exact ⟨rfl, rfl, rfl, rfl, rfl, rfl, rfl⟩
                    have hclone := hspace.clone h hself hchild
                    cases hcloned : procVmClone L (k.procs p) child s₁ with
                    | error e =>
                        rw [hcloned] at hclone hcall
                        obtain ⟨rfl, vpn, leaf, hd, hwalk, hm⟩ := hclone
                        subst hcall
                        have hframe : (k.procs p).hasTrapFrame = true :=
                          not_not.mp fun hno => hguard (Or.inr hno)
                        rw [← (h.ok p).pages huser] at halloc hmade
                        rw [← (h.ok p).base huser] at hmade
                        have hclones := forkClones_of hcur huser hframe hslot halloc hmade
                          (not_not.mp hsp)
                        exact .panicked hclones hd hwalk hm
                    | ok cloned =>
                        obtain ⟨done, s₂⟩ := cloned
                        rw [hcloned] at hclone hcall
                        obtain ⟨hroot₂, hself₂, hitems⟩ := hclone
                        dsimp only at hroot₂ hself₂ hitems
                        cases done with
                        | false =>
                            obtain ⟨k', rfl, hkept, hreset⟩ := reset_cases (hroot₂.release h
                              hchild.user hchild.satp hchild.vmas hchild.base hchild.pages) hcall
                            exact .notCloned hspace hchild hitems hroot₂ hkept hreset
                        | true =>
                            have hfinal : ForkChild k p i r
                                { child with userStackPaddr := (k.procs p).userStackPaddr } :=
                              ⟨hchild.pid, hchild.state, hchild.user, hchild.satp, hchild.vmas,
                                hchild.base, hchild.pages⟩
                            subst hcall
                            apply ForkCase.forked hspace hfinal hitems hroot₂
                            apply hroot₂.commit h (hself₂ rfl) hfinal.user _ hfinal.satp hfinal.vmas
                              hfinal.base hfinal.pages
                            rw [hfinal.state]
                            exact nofun

theorem procFork_kept {p : Fin procMax} {result : Option Int} (h : KernelInv L k)
    (hrun : k.running = some p) (hcall : procFork L k = .ok (result, k')) : Kept L k k' := by
  cases procFork_cases h hrun hcall with
  | refused hno => exact Kept.refl h
  | noStack hslot hres => exact h.kept_cleared (allocProcessSlot_unused hslot)
  | noSpace hslot halloc hal hquiet hleak hbare hkept hreset => exact hkept
  | badStack hspace hchild hkept hreset => exact hkept
  | notCloned hspace hchild hcloned hrooted hkept hreset => exact hkept
  | forked hspace hchild hcloned hrooted hkept => exact hkept

end Sugimotos.Proc
