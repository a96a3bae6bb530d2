/-
# Constructions that fail

`create_user_process` and `proc_fork` give back what they took when a later stage fails.  This
works as long as no second-level table was linked: the root and the tables are never freed.
-/

import Sugimotos.Mm.GiveBack
import Sugimotos.Proc.Spared

namespace Sugimotos.Proc

open Sugimotos.Math Sugimotos.Mm

variable {L : Layout} {k k' : Kernel} {i p c : Fin procMax} {q r : Nat} {s s₁ s₂ : Phys} {v : Vmas}

/-- A call that failed left nothing behind: the slot it took is unused, every page is counted
as before, and every process reads what it read before. -/
structure NoTrace (L : Layout) (k k' : Kernel) : Prop where
  slot : ∀ c, allocProcessSlot k.procs = some c → (k'.procs c).state = .unused
  count : ∀ p, L.Managed p → refcntOf L k'.phys.alloc p = refcntOf L k.phys.alloc p
  reads : ∀ j m va, (k.procs j).isUser = true → ((k.procs j).vmas m).Covers (va / 4096) →
    ((k.procs j).vmas m).prot &&& vmaProtR = vmaProtR → k'.userByte j va = k.userByte j va

/-- A construction can be undone if it stops before the first second-level table, and if the
allocator has list nodes for the pages that come back. -/
inductive Undoable (L : Layout) (k : Kernel) : Prop
  | noSlot (hslot : allocProcessSlot k.procs = none)
  | noStack (hres : reservePages 2 k.phys.alloc = none)
  | noRoot {q : Nat} {s : Phys} (hstack : allocPagesTry L 2 k.phys = (some (q * 4096), s))
      (hres : reservePages 1 s.alloc = none) (hnode : allocRunNode s.alloc ≠ none)
  | noTable {q r : Nat} {s s₁ : Phys} (hstack : allocPagesTry L 2 k.phys = (some (q * 4096), s))
      (hroot : allocPagesTry L 1 s = (some (r * 4096), s₁)) (hres : reservePages 1 s₁.alloc = none)
      (hnode : TwoNodes s₁.alloc r q)

theorem NoTrace.refl (k : Kernel) : NoTrace L k k :=
  ⟨fun _ hslot => allocProcessSlot_unused hslot, fun _ _ => rfl, fun _ _ _ _ _ _ => rfl⟩

/-! ## What is read -/

/-- A construction in slot `c` that failed leaves the memory of all processes readable as it
was. -/
theorem Spared.reads {items : Fin procMax → List (Nat × Nat)} (h : KernelInv L k)
    (hslot : allocProcessSlot k.procs = some c) (hprocs : ∀ j, j ≠ c → k'.procs j = k.procs j)
    (hspared : Spared (tableRoots k.procs k.kernelPage) c items k.phys k'.phys)
    (hitems : ∀ j, ∀ item ∈ items j, item ∈ cowItems (k.procs j).vmas) (j : Fin procMax)
    (m : Fin procVmaMax) (va : Nat) (huser : (k.procs j).isUser = true)
    (hcov : ((k.procs j).vmas m).Covers (va / 4096))
    (hread : ((k.procs j).vmas m).prot &&& vmaProtR = vmaProtR) :
    k'.userByte j va = k.userByte j va := by
  have hj : j ≠ c := by
    rintro rfl
    exact (h.ok j).used huser (allocProcessSlot_unused hslot)
  have hvpn := (h.vma huser).covers_lt hcov
  apply hspared.byte h (hitems j) hj huser _ (by omega) hcov hread
  rw [hprocs j hj]

theorem CreateCase.reads {result : Option (Fin procMax)} (h : KernelInv L k)
    (hcase : CreateCase L k (.ok (result, k'))) (j : Fin procMax)
    (m : Fin procVmaMax) (va : Nat) (huser : (k.procs j).isUser = true)
    (hcov : ((k.procs j).vmas m).Covers (va / 4096))
    (hread : ((k.procs j).vmas m).prot &&& vmaProtR = vmaProtR) :
    k'.userByte j va = k.userByte j va := by
  rcases hcase.spared h with rfl | ⟨c, hslot, hprocs, hspared⟩
  · rfl
  · exact hspared.reads h hslot hprocs (fun _ _ hitem => by cases hitem) j m va huser hcov hread

theorem ForkCase.reads {result : Option Int} (h : KernelInv L k)
    (hcase : ForkCase L k p (.ok (result, k'))) (j : Fin procMax)
    (m : Fin procVmaMax) (va : Nat) (huser : (k.procs j).isUser = true)
    (hcov : ((k.procs j).vmas m).Covers (va / 4096))
    (hread : ((k.procs j).vmas m).prot &&& vmaProtR = vmaProtR) :
    k'.userByte j va = k.userByte j va := by
  rcases hcase.spared h with rfl | ⟨c, hslot, hprocs, hspared⟩
  · rfl
  · refine hspared.reads h hslot hprocs (fun i item hitem => ?_) j m va huser hcov hread
    unfold parentItems at hitem
    split at hitem
    · rename_i hi
      rw [hi]
      exact hitem
    · cases hitem

/-! ## What is counted -/

/-- A page that was free and is counted afterwards. -/
theorem NoTrace.not_of_count (hm : L.Managed r) (hfree : refcntOf L k.phys.alloc r = 0)
    (hone : refcntOf L k'.phys.alloc r = 1) : ¬ NoTrace L k k' := by
  intro h
  have hcount := h.count r hm
  rw [hfree, hone] at hcount
  cases hcount

section Stages

variable {proc : Process}

theorem reset_unused (hreset : resetProcess L k i proc s = .ok k') : (k'.procs i).state = .unused := by
  obtain ⟨s', -, rfl⟩ := resetProcess_some hreset
  rw [Kernel.setProc_self]
  rfl

/-- Where the allocation of the stack went through, only the later stages matter. -/
theorem Undoable.later (h : Undoable L k) (hslot : allocProcessSlot k.procs = some i)
    (hstack : allocPagesTry L 2 k.phys = (some (q * 4096), s)) (hal : Allocated L q 2 k.phys s) :
    (reservePages 1 s.alloc = none ∧ allocRunNode s.alloc ≠ none) ∨
      ∃ r s₁, allocPagesTry L 1 s = (some (r * 4096), s₁) ∧ reservePages 1 s₁.alloc = none ∧
        TwoNodes s₁.alloc r q := by
  cases h with
  | noSlot hnone =>
      rw [hslot] at hnone
      cases hnone
  | noStack hres => exact absurd hres hal.reserved
  | @noRoot q' s' hstack' hres hnode =>
      rw [hstack] at hstack'
      injection hstack' with _ hs
      rw [hs]
      exact Or.inl ⟨hres, hnode⟩
  | @noTable q' r s' s₁ hstack' hroot hres hnode =>
      rw [hstack] at hstack'
      injection hstack' with hq hs
      have hqq : q = q' := by
        have := Option.some.inj hq
        omega
      rw [hs, hqq]
      exact Or.inr ⟨r, s₁, hroot, hres, hnode⟩

/-- Nothing can be undone once there was a page for a table. -/
theorem Undoable.not_of_roomy (hslot : allocProcessSlot k.procs = some i)
    (hstack : allocPagesTry L 2 k.phys = (some (q * 4096), s)) (hal : Allocated L q 2 k.phys s)
    (hroot : allocPagesTry L 1 s = (some (r * 4096), s₁)) (hres : reservePages 1 s₁.alloc ≠ none) :
    ¬ Undoable L k := by
  intro h
  rcases h.later hslot hstack hal with ⟨hno, -⟩ | ⟨r', s₁', hroot', hno, -⟩
  · obtain ⟨r', -, hal'⟩ := allocPagesTry_some hal.inv (by decide) hroot
    exact hal'.reserved hno
  · rw [hroot] at hroot'
    injection hroot' with _ hs
    rw [← hs] at hno
    exact hres hno

/-- The tables could not be built. -/
theorem buildLeak_undone (hleak : BuildLeak L s s₁) (hslot : allocProcessSlot k.procs = some i)
    (hstack : allocPagesTry L 2 k.phys = (some (q * 4096), s)) (hal : Allocated L q 2 k.phys s)
    (hcount : ∀ {p}, L.Managed p → refcntOf L s.alloc p ≠ 0 →
      refcntOf L s₁.alloc p = refcntOf L s.alloc p)
    (hfree : freePages L (q * 4096) 2 s₁.alloc = .ok k'.phys.alloc) :
    (¬ Undoable L k ∧ ¬ NoTrace L k k') ∨ (Undoable L k ∧
      ∀ p, L.Managed p → refcntOf L k'.phys.alloc p = refcntOf L k.phys.alloc p) := by
  have hin : inBlock q 2 q := by
    unfold inBlock
    omega
  rcases hleak with ⟨hres, rfl⟩ | ⟨r, t, hroot, hal', ⟨hres, hgave⟩ | ⟨hres, hinv, x, hm, hzero, hone⟩⟩
  · -- no page for the root
    have hlist := freeRuns_of_exhausted hal.inv hres
    rcases freePages_empty hal.inv hlist hal.managed (fun _ => hal.one) hfree with
      ⟨hno, hlost⟩ | ⟨hnode, hback⟩
    · left
      refine ⟨fun h => ?_, NoTrace.not_of_count (hal.managed q hin) (hal.wasFree q hin) hlost⟩
      rcases h.later hslot hstack hal with ⟨-, hsome⟩ | ⟨r, t, hroot, -⟩
      · exact hsome hno
      · obtain ⟨r', -, hal'⟩ := allocPagesTry_some hal.inv (by decide) hroot
        exact hal'.reserved hres
    · exact Or.inr ⟨.noRoot hstack hres hnode, fun p hm => hal.undone hback hm⟩
  · -- no page for the first table
    have hlist := freeRuns_of_exhausted hal'.inv hres
    have hinr : inBlock r 1 r := by
      unfold inBlock
      omega
    have hmr := hal'.managed r hinr
    obtain ⟨hout, hfreeRoot⟩ := hal.free hmr (hal'.wasFree r hinr)
    have hkept : ∀ p, inBlock q 2 p → refcntOf L t.alloc p = 1 := by
      intro p hp
      rw [hal'.count p (hal.managed p hp), if_neg, hal.one hp]
      intro hpr
      have hpe : p = r := by
        unfold inBlock at hpr
        omega
      exact hout (hpe ▸ hp)
    rcases freePages_after hal'.inv hlist hmr (hal'.one hinr) hal.managed hkept hout hgave hfree with
      ⟨hno, x, hmx, hx, hlost⟩ | ⟨hnode, hback⟩
    · left
      refine ⟨fun h => ?_, NoTrace.not_of_count hmx ?_ hlost⟩
      · rcases h.later hslot hstack hal with ⟨hnone, -⟩ | ⟨r', t', hroot', -, hnode⟩
        · exact hal'.reserved hnone
        · rw [hroot] at hroot'
          injection hroot' with hr ht
          have hrr : r = r' := by
            have := Option.some.inj hr
            omega
          rw [← ht, ← hrr] at hnode
          exact hno hnode
      · rcases hx with rfl | hx
        · exact hfreeRoot
        · exact hal.wasFree x hx
    · refine Or.inr ⟨.noTable hstack hroot hres hnode, fun p hm => ?_⟩
      apply hal.undone (fun p hm => ?_) hm
      rw [hback p hm]
      by_cases hp : inBlock q 2 p
      · rw [if_pos (Or.inr hp), if_pos hp]
      · rw [if_neg hp]
        by_cases hpr : p = r
        · rw [if_pos (Or.inl hpr), hpr, hal'.wasFree r hinr]
        · have hnot : ¬ inBlock r 1 p := by
            unfold inBlock
            omega
          rw [if_neg (by tauto), hal'.count p hm, if_neg hnot]
  · -- a table is lost
    left
    obtain ⟨hout, hfreeX⟩ := hal.free hm hzero
    refine ⟨Undoable.not_of_roomy hslot hstack hal hroot hres, NoTrace.not_of_count hm hfreeX ?_⟩
    have hkept : ∀ p, inBlock q 2 p → refcntOf L s₁.alloc p = 1 := by
      intro p hp
      rw [hcount (hal.managed p hp) (by rw [hal.one hp]; decide), hal.one hp]
    obtain ⟨b, hfirst, hlast⟩ := freePages_two hinv hal.managed hkept hfree
    have hne : x ≠ q ∧ x ≠ q + 1 := by
      unfold inBlock at hout
      omega
    rw [hlast.other hm hne.2, hfirst.other hm hne.1, hone]

/-- The tables could not be built, and the stack was given back. -/
theorem buildLeak_undone_iff (hleak : BuildLeak L s s₁) (hslot : allocProcessSlot k.procs = some i)
    (hstack : allocPagesTry L 2 k.phys = (some (q * 4096), s)) (hal : Allocated L q 2 k.phys s)
    (hquiet : Quiet L (tableRoots k.procs k.kernelPage) s s₁) (hbare : BareProc q proc)
    (hreset : resetProcess L k i proc s₁ = .ok k')
    (hreads : ∀ j m va, (k.procs j).isUser = true → ((k.procs j).vmas m).Covers (va / 4096) →
      ((k.procs j).vmas m).prot &&& vmaProtR = vmaProtR → k'.userByte j va = k.userByte j va) :
    NoTrace L k k' ↔ Undoable L k := by
  have hq : q ≠ 0 := managed_ne_zero (hal.managed q ⟨le_refl q, by omega⟩)
  obtain ⟨-, -, hfree⟩ := hbare.reset hq hreset
  rcases buildLeak_undone hleak hslot hstack hal hquiet.count hfree with ⟨hno, htrace⟩ | ⟨hundo, hcount⟩
  · exact iff_of_false htrace hno
  · refine iff_of_true ⟨?_, hcount, hreads⟩ hundo
    intro c hc
    rw [hslot] at hc
    cases hc
    exact reset_unused hreset

/-- Once the tables are built, giving the space back loses the root. -/
theorem Rooted.root_lost (hroot : Rooted L k i r v s) (huser : proc.isUser = true)
    (hsatp : proc.satp = vmMakeSatp (r * 4096)) (hvmas : proc.vmas = v)
    (hbase : proc.userStackBase = 0x3fffe000) (hpages : proc.userStackPages = 2)
    (hreset : resetProcess L k i proc s = .ok k') : refcntOf L k'.phys.alloc r = 1 := by
  obtain ⟨s', hrun, rfl⟩ := resetProcess_some hreset
  have hrootPage : rootPage proc.satp = r := by
    rw [hsatp]
    exact rootPage_vmMakeSatp hroot.page_lt
  have hnonzero : proc.satp ≠ 0 := by
    rw [hsatp]
    exact vmMakeSatp_ne_zero _
  have hspec := (procVmRelease_spec hroot.inv (Function.update_self ..) huser hrootPage hnonzero
    (by rw [Function.update_self]; exact hvmas) hbase hpages).of_eq_ok hrun
  exact @VmInv.root_single _ _ _ _ _ hspec.1.vm (some i) _ (Function.update_self ..)

/-- Forks that fail after the tables of the child were built. -/
theorem ForkSpace.trace (hspace : ForkSpace L k p i q r s s₁) (hroot : Rooted L k i r v s₂)
    (huser : proc.isUser = true) (hsatp : proc.satp = vmMakeSatp (r * 4096)) (hvmas : proc.vmas = v)
    (hbase : proc.userStackBase = 0x3fffe000) (hpages : proc.userStackPages = 2)
    (hreset : resetProcess L k i proc s₂ = .ok k') : ¬ NoTrace L k k' ∧ ¬ Undoable L k := by
  constructor
  · have hfree := (hspace.alloc.free hspace.built.managed hspace.built.wasFree).2
    exact NoTrace.not_of_count hspace.built.managed hfree
      (hroot.root_lost huser hsatp hvmas hbase hpages hreset)
  · obtain ⟨t, hcall, hres⟩ := hspace.built.roomy
    exact Undoable.not_of_roomy hspace.slot hspace.call hspace.alloc hcall hres

end Stages

/-! ## The two constructions -/

/-- A slot that was taken and given back without memory. -/
theorem NoTrace.cleared (hslot : allocProcessSlot k.procs = some i)
    (hreads : ∀ j m va, (k.procs j).isUser = true → ((k.procs j).vmas m).Covers (va / 4096) →
      ((k.procs j).vmas m).prot &&& vmaProtR = vmaProtR →
      (k.setProc i .unused).userByte j va = k.userByte j va) :
    NoTrace L k (k.setProc i .unused) := by
  refine ⟨fun c hc => ?_, fun _ _ => rfl, hreads⟩
  rw [hslot] at hc
  cases hc
  rw [Kernel.setProc_self]
  rfl

theorem create_failed_iff (h : KernelInv L k) {entryPc : Nat}
    (hcall : createUserProcess L entryPc k = .ok (none, k')) : NoTrace L k k' ↔ Undoable L k := by
  have hcase := createUserProcess_cases h hcall
  have hreads := hcase.reads h
  cases hcase with
  | noSlot hslot => exact iff_of_true (NoTrace.refl k) (.noSlot hslot)
  | noStack hslot hres => exact iff_of_true (NoTrace.cleared hslot hreads) (.noStack hres)
  | noSpace hslot halloc hal hquiet hleak hbare hkept hreset =>
      exact buildLeak_undone_iff hleak hslot halloc hal hquiet hbare hreset hreads

/-- A fork can be undone if it is refused at once or its construction can be undone. -/
def ForkUndoable (L : Layout) (k : Kernel) (p : Fin procMax) : Prop :=
  (k.procs p).isUser = false ∨ (k.procs p).hasTrapFrame = false ∨ Undoable L k

theorem procFork_refused (hcur : k.currentProc = some p)
    (hno : (k.procs p).isUser = false ∨ (k.procs p).hasTrapFrame = false) :
    procFork L k = .ok (none, k) := by
  unfold procFork
  rw [hcur]
  dsimp only
  rw [if_pos]
  rcases hno with hno | hno
  · exact Or.inl (Bool.eq_false_iff.mp hno)
  · exact Or.inr (Bool.eq_false_iff.mp hno)

theorem fork_failed_iff (h : KernelInv L k) (hrun : k.running = some p)
    (hcall : procFork L k = .ok (none, k')) : NoTrace L k k' ↔ ForkUndoable L k p := by
  by_cases hno : (k.procs p).isUser = false ∨ (k.procs p).hasTrapFrame = false
  · rw [procFork_refused (Kernel.running_eq_some.mp hrun).1 hno] at hcall
    cases hcall
    exact iff_of_true (NoTrace.refl k) (hno.imp_right Or.inl)
  · have hundo : ForkUndoable L k p ↔ Undoable L k := by
      unfold ForkUndoable
      rw [← or_assoc]
      exact or_iff_right hno
    rw [hundo]
    have hcase := procFork_cases h hrun hcall
    have hreads := hcase.reads h
    cases hcase with
    | refused hrefused =>
        refine iff_of_true (NoTrace.refl k) ?_
        rw [← or_assoc] at hrefused
        exact .noSlot (hrefused.resolve_left hno)
    | noStack hslot hres => exact iff_of_true (NoTrace.cleared hslot hreads) (.noStack hres)
    | noSpace hslot halloc hal hquiet hleak hbare hkept hreset =>
        exact buildLeak_undone_iff hleak hslot halloc hal hquiet hbare hreset hreads
    | badStack hspace hchild hkept hreset =>
        obtain ⟨htrace, hroomy⟩ := hspace.trace hspace.rooted hchild.user hchild.satp hchild.vmas
          hchild.base hchild.pages hreset
        exact iff_of_false htrace hroomy
    | notCloned hspace hchild hcloned hrooted hkept hreset =>
        obtain ⟨htrace, hroomy⟩ := hspace.trace hrooted hchild.user hchild.satp hchild.vmas
          hchild.base hchild.pages hreset
        exact iff_of_false htrace hroomy

/-- What a failed creation or fork leaves behind, in every reachable state. -/
theorem construction_failed_iff (hk : Reachable L k) :
    (∀ entryPc k', createUserProcess L entryPc k = .ok (none, k') →
      (NoTrace L k k' ↔ Undoable L k)) ∧
    ∀ p k', k.running = some p → procFork L k = .ok (none, k') →
      (NoTrace L k k' ↔ ForkUndoable L k p) :=
  ⟨fun _ _ hcall => create_failed_iff hk.inv hcall,
    fun _ _ hrun hcall => fork_failed_iff hk.inv hrun hcall⟩

/-- Every slot is taken. -/
def fullOps : List Op := List.replicate 7 (.createUserProcess smallEntry)

/-- A process whose stack pointer is zero. -/
def lowStackOps : List Op := [.createUserProcess smallEntry, .switchTo 1, .saveFrame .zero]

/-- A fork whose stack pointer is refused, once the space of the child was built, loses a page. -/
theorem lowStack_fork : ∃ k k', smallRun lowStackOps = some k ∧ k.running = some 1 ∧
    procFork smallLayout k = .ok (none, k') ∧ ¬ NoTrace smallLayout k k' := by
  have hrun : (smallRun lowStackOps).any (fun k => decide (k.running = some 1) &&
      decide (refcntOf smallLayout k.phys.alloc 0x8020d = 0) &&
      (procFork smallLayout k).toOption.any fun out => out.1.isNone &&
        decide (refcntOf smallLayout out.2.phys.alloc 0x8020d = 1)) = true := by
    decide +kernel
  obtain ⟨k, hk, hvals⟩ := (Option.any_eq_true _ _).mp hrun
  rw [Bool.and_eq_true, Bool.and_eq_true, decide_eq_true_iff, decide_eq_true_iff] at hvals
  obtain ⟨⟨hrunning, hfree⟩, hfork⟩ := hvals
  obtain ⟨⟨result, k'⟩, hcall, hout⟩ := ok_of_any hfork
  rw [Bool.and_eq_true, Option.isNone_iff_eq_none, decide_eq_true_iff] at hout
  obtain ⟨hnone, hone⟩ := hout
  dsimp only at hnone hone
  subst hnone
  have hm : smallLayout.Managed 0x8020d := by decide
  exact ⟨k, k', hk, hrunning, hcall, NoTrace.not_of_count hm hfree hone⟩

/-- A creation without a slot leaves no trace; the fork was past the point where it could be
undone. -/
theorem construction_failed_small :
    (∃ k k', smallRun fullOps = some k ∧
      createUserProcess smallLayout smallEntry.toNat k = .ok (none, k') ∧ NoTrace smallLayout k k') ∧
    ∃ k k', smallRun lowStackOps = some k ∧ procFork smallLayout k = .ok (none, k') ∧
      ¬ ForkUndoable smallLayout k 1 := by
  constructor
  · have hrun : (smallRun fullOps).any (fun k => (allocProcessSlot k.procs).isNone &&
        (createUserProcess smallLayout smallEntry.toNat k).toOption.any fun out => out.1.isNone) =
        true := by
      decide +kernel
    obtain ⟨k, hk, hvals⟩ := (Option.any_eq_true _ _).mp hrun
    rw [Bool.and_eq_true, Option.isNone_iff_eq_none] at hvals
    obtain ⟨hslot, hcreate⟩ := hvals
    obtain ⟨⟨result, k'⟩, hcall, hnone⟩ := ok_of_any hcreate
    rw [Option.isNone_iff_eq_none] at hnone
    dsimp only at hnone
    subst hnone
    have hfailed := construction_failed_iff (smallRun_reachable hk)
    exact ⟨k, k', hk, hcall, (hfailed.1 _ _ hcall).mpr (.noSlot hslot)⟩
  · obtain ⟨k, k', hk, hrunning, hcall, htrace⟩ := lowStack_fork
    have hfailed := construction_failed_iff (smallRun_reachable hk)
    exact ⟨k, k', hk, hcall, fun hundo => htrace ((hfailed.2 1 k' hrunning hcall).mpr hundo)⟩

theorem fork_leaves_trace : ¬ ∀ (L : Layout) (k : Kernel) (p : Fin procMax) (k' : Kernel),
    Reachable L k → k.running = some p → procFork L k = .ok (none, k') → NoTrace L k k' := by
  intro hall
  obtain ⟨k, k', hk, hrunning, hcall, htrace⟩ := lowStack_fork
  exact htrace (hall smallLayout k 1 k' (smallRun_reachable hk) hrunning hcall)

end Sugimotos.Proc
