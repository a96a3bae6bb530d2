/-
# The status of a child

`proc_waitpid` gives a child's record back before `sys_waitpid` copies its status to the caller.
The range check at the start of the call looks at the VMAs only, so the copy can still come to a
page that has to be brought in.  Where that fails, or never ends, the child is gone and nobody
has its status.
-/

import Sugimotos.Proc.FaultProgress
import Sugimotos.Proc.Touches

namespace Sugimotos.Proc

open Sugimotos.Math Sugimotos.Mm

variable {L : Layout} {k : Kernel} {i : Fin procMax}

/-! ## Runs keep the invariant of the kernel -/

/-- What a pass of `sys_waitpid` leaves. -/
def WaitKeeps (L : Layout) (i : Fin procMax) (k : Kernel) : WaitOut → Prop
  | .stop _ touched => ∀ t ∈ touched, t.Allowed
  | .blocked k' => Guarded L k' ∧ Spares i k k' ∧
      (k'.procs i).isUser = (k.procs i).isUser ∧ (k'.procs i).state = .blocked
  | .returned _ k' => Guarded L k' ∧ Spares i k k'
  | .exited k' => Guarded L k' ∧ Spares i k k'

theorem WaitKeeps.after {k₁ : Kernel} (hspares : Spares i k k₁)
    (huser : (k₁.procs i).isUser = (k.procs i).isUser) {out : WaitOut}
    (h : WaitKeeps L i k₁ out) : WaitKeeps L i k out := by
  cases out with
  | stop e touched => exact h
  | blocked k' => exact ⟨h.1, hspares.trans h.2.1, h.2.2.1.trans huser, h.2.2.2⟩
  | returned result k' => exact ⟨h.1, hspares.trans h.2⟩
  | exited k' => exact ⟨h.1, hspares.trans h.2⟩

theorem WaitCall.mayCall_iff {call : WaitCall} {proc : Process} :
    call.mayCall proc = true ↔ call.statusPtr = 0 ∨ proc.isUser = true := by
  unfold WaitCall.mayCall
  rw [Bool.or_eq_true, decide_eq_true_iff]

theorem deliver_keeps (h : Guarded L k) (hrun : k.running = some i) {call : WaitCall}
    (hmay : call.mayCall (k.procs i) = true) (pid status : Int) :
    WaitKeeps L i k (deliver L call pid status k) := by
  unfold deliver
  split
  · rename_i hptr
    have huser := (WaitCall.mayCall_iff.mp hmay).resolve_left hptr.2
    have hcopy := copyToUser_serves (h.serving hrun huser) call.statusPtr.toNat_lt
      (show (intBytes status).length < _ by rw [intBytes_length]; decide)
    split
    · rename_i hcall
      rw [hcall] at hcopy
      exact hcopy
    · rename_i hcall
      rw [hcall] at hcopy
      exact hcopy
    · rename_i hcall
      rw [hcall] at hcopy
      exact ⟨hcopy.1.guarded, .of_procs hcopy.2.1⟩
    · rename_i hcall
      rw [hcall] at hcopy
      exact ⟨hcopy.1.guarded, .of_procs hcopy.2.1⟩
  · exact ⟨h, .refl i k⟩

/-- The caller after one of its children has been reaped. -/
structure Reaps (L : Layout) (i : Fin procMax) (k k₁ : Kernel) : Prop where
  guarded : Guarded L k₁
  running : k₁.running = some i
  self : k₁.procs i = k.procs i
  spares : Spares i k k₁

theorem waitpidScan_reaps (h : Guarded L k) (hrun : k.running = some i) {pid pid' status : Int}
    {k₁ : Kernel} (hscan : waitpidScan L pid i k = .ok (.reaped pid' status, k₁)) :
    Reaps L i k k₁ := by
  obtain ⟨hcur, hstate⟩ := Kernel.running_eq_some.mp hrun
  obtain ⟨c, -, hzombie, -, -, hprocs, hcur₁⟩ := waitpidScan_reaped hscan
  have hkept := waitpidScan_kept h.inv pid i
  rw [hscan] at hkept
  have hne : i ≠ c := by
    rintro rfl
    rw [hstate] at hzombie
    cases hzombie
  have hself : k₁.procs i = k.procs i := by rw [hprocs, Function.update_of_ne hne]
  refine ⟨h.of_touched hkept.inv (waitpidScan_touched hscan), ?_, hself, fun j _ hused hlive => ?_⟩
  · refine Kernel.running_eq_some.mpr ⟨hcur₁.trans hcur, ?_⟩
    rw [hself]
    exact hstate
  · have hjc : j ≠ c := by
      rintro rfl
      exact hlive hzombie
    rw [hprocs, Function.update_of_ne hjc]
    exact ⟨rfl, hused, hlive⟩

theorem waitPass_keeps (h : Guarded L k) (hrun : k.running = some i) {call : WaitCall}
    (hmay : call.mayCall (k.procs i) = true) : WaitKeeps L i k (waitPass L i call k) := by
  have hstate := (Kernel.running_eq_some.mp hrun).2
  unfold waitPass
  cases hscan : waitpidScan L call.pid i k with
  | error e => exact h.touches
  | ok out =>
      obtain ⟨r, k₁⟩ := out
      cases r with
      | noChild =>
          obtain ⟨rfl, -⟩ := waitpidScan_none hscan nofun
          exact ⟨h, .refl i _⟩
      | noZombie =>
          obtain ⟨rfl, -⟩ := waitpidScan_none hscan nofun
          dsimp only
          split
          · exact ⟨h, .refl i _⟩
          · have hself : ∀ state : ProcState, (k₁.setProc i { k₁.procs i with state := state }).procs i =
                { k₁.procs i with state := state } := fun state => Kernel.setProc_self ..
            refine ⟨setState_guarded h (by rw [hstate]; decide) (by decide),
              Spares.setProc k₁ i _ k₁.phys, ?_, ?_⟩ <;> rw [hself]
      | reaped pid status =>
          have hreaps := waitpidScan_reaps h hrun hscan
          have hmay₁ : call.mayCall (k₁.procs i) = true := by
            rw [hreaps.self]
            exact hmay
          exact (deliver_keeps hreaps.guarded hreaps.running hmay₁ pid status).after hreaps.spares
            (by rw [hreaps.self])

theorem sysWaitpid_keeps (h : Guarded L k) (hrun : k.running = some i) {call : WaitCall}
    (hmay : call.mayCall (k.procs i) = true) : WaitKeeps L i k (sysWaitpid L i call k) := by
  unfold sysWaitpid
  split
  · exact ⟨h, .refl i _⟩
  · split
    · exact ⟨h, .refl i _⟩
    · exact waitPass_keeps h hrun hmay

theorem settleWait_guarded {s s' : WaitState} {call : WaitCall} {out : WaitOut}
    (hout : WaitKeeps L i k out) (h : settleWait s i call out = .ok s') : Guarded L s'.kernel := by
  cases out with
  | stop e => cases h
  | blocked k' =>
      cases h
      exact hout.1
  | returned r k' =>
      cases h
      exact hout.1
  | exited k' =>
      cases h
      exact hout.1

theorem boot_guarded {mem : Memory} {mmu : Mmu} (h : boot L mem mmu = some k) : Guarded L k := by
  refine ⟨boot_inv h, ?_⟩
  obtain ⟨satp, s, -, rfl⟩ := boot_some h
  intro t ht
  have hnone : (createProcess (bootKernel satp s)).2.touched = [] := createProcess_touched _
  change t ∈ (createProcess (bootKernel satp s)).2.touched at ht
  rw [hnone] at ht
  cases ht

theorem WaitInv.guarded_step {s s' : WaitState} (hs : WaitInv s) (h : Guarded L s.kernel)
    (op : WaitOp) (hop : op.enabled s = true) (hstep : waitStep L op s = .ok s') :
    Guarded L s'.kernel := by
  cases op with
  | kernel op =>
      obtain ⟨k', hcall, rfl⟩ := map_ok hstep
      have henabled : enabled s.kernel op = true := by
        cases op with
        | waitpid pid options => cases hop
        | switchTo next => exact hop
        | _ => exact (Bool.and_eq_true_iff.mp hop).1
      exact step_guarded h op henabled hcall
  | wake j =>
      obtain ⟨k', hcall, rfl⟩ := map_ok hstep
      simp only [Proc.step] at hcall
      split at hcall
      · rename_i hblocked
        cases hcall
        exact setState_guarded h (by rw [hblocked]; decide) (by decide)
      · cases hcall
        exact h
  | sleep =>
      simp only [waitStep] at hstep
      split at hstep
      · cases hstep
        exact h
      · rename_i j hrun
        cases hstep
        have hstate := (Kernel.running_eq_some.mp hrun).2
        exact setState_guarded h (by rw [hstate]; decide) (by decide)
  | sysWaitpid call =>
      simp only [waitStep] at hstep
      split at hstep
      · cases hstep
        exact h
      · rename_i j hrun
        have hmay : call.mayCall (s.kernel.procs j) = true := by
          unfold WaitOp.enabled at hop
          rw [hrun] at hop
          exact (Bool.and_eq_true_iff.mp hop).1
        exact settleWait_guarded (sysWaitpid_keeps h hrun hmay) hstep
  | resume =>
      simp only [waitStep] at hstep
      split at hstep
      · cases hstep
        exact h
      · rename_i j hcur
        split at hstep
        · cases hstep
          exact h
        · rename_i call hcall
          have hw := hs.waits j call hcall
          have hresume := hw.resumes hcur
          have hguarded : Guarded L (s.kernel.resumed j) := by
            refine setState_guarded h ?_ (by decide)
            rcases hw.state with hstate | hstate <;> rw [hstate] <;> decide
          exact settleWait_guarded (waitPass_keeps hguarded hresume.running hresume.status.mayCall)
            hstep

theorem WaitReachable.guarded {s : WaitState} (h : WaitReachable L s) : Guarded L s.kernel := by
  induction h with
  | boot hboot => exact boot_guarded hboot
  | step op hs hop hstep ih => exact hs.inv.guarded_step ih op hop hstep

/-! ## One access of the copy -/

/-- There is no memory for the page that an access needs, or for its second-level table. -/
structure NoMemory (L : Layout) (k : Kernel) (i : Fin procMax) (vpn access : Nat) : Prop where
  entry : walk k.phys.mem (rootPage (k.procs i).satp) vpn = none ∨
    ∃ leaf, walk k.phys.mem (rootPage (k.procs i).satp) vpn = some leaf ∧ access = vmaProtW ∧
      leaf.perm &&& pteW = 0
  full : reservePages 1 k.phys.alloc = none ∨
    tableAt k.phys.mem (rootPage (k.procs i).satp) (vpn / 1024) = none ∧
      reservePages 1 (allocPagesTry L 1 k.phys).2.alloc = none

/-- An access of the kernel to a page of its user comes to an end, and does not end the user. -/
def Accessible (L : Layout) (k : Kernel) (i : Fin procMax) (vpn access : Nat) : Prop :=
  ¬ WriteOnly L k i vpn access ∧ ¬ NoMemory L k i vpn access

/-- What needs a page is not translated. -/
theorem NoMemory.refused {access vpn va : Nat} (hno : NoMemory L k i vpn access)
    (hva : va / 4096 = vpn) : kernelTranslate (k.procs i).satp va access k.phys = none := by
  subst hva
  rcases hno.entry with hnone | ⟨leaf, hwalk, rfl, hclear⟩
  · unfold kernelTranslate hwWalk
    rw [hnone]
    rfl
  · exact Option.not_isSome_iff_eq_none.mp fun h =>
      write_of_bits ((kernelTranslate_isSome hwalk).mp h).2 hclear

/-- A fault that is resolved has had memory. -/
theorem FaultCase.memory {access vpn : Nat} {s' : Phys}
    (hcase : FaultCase L (tableRoots k.procs k.kernelPage) (fun _ => 0) (tableVmas k.procs)
      k.kernelPage true i (rootPage (k.procs i).satp) vpn access k.phys (.ok (true, s'))) :
    ¬ NoMemory L k i vpn access := by
  intro hno
  cases hcase with
  | present hcov hprot hwalk hbits =>
      rcases hno.entry with hnone | ⟨leaf', hwalk', rfl, hclear⟩
      · rw [hnone] at hwalk
        cases hwalk
      · rw [hwalk] at hwalk'
        cases hwalk'
        exact write_of_bits hbits hclear
  | mapped hcov hprot hold hperm hres htable hresolved hinv =>
      rcases hno.full with hfull | ⟨hnone, hfull⟩
      · exact hres hfull
      · exact htable hnone hfull

/-- An access that a VMA allows fails for want of memory only. -/
theorem FaultCase.noMemory {access vpn : Nat} {s' : Phys} {j : Fin procVmaMax}
    (hcov : (tableVmas k.procs i j).Covers vpn)
    (hprot : (tableVmas k.procs i j).prot &&& access = access)
    (hkind : access = vmaProtX ∨ access = vmaProtR ∨ access = vmaProtW)
    (hcase : FaultCase L (tableRoots k.procs k.kernelPage) (fun _ => 0) (tableVmas k.procs)
      k.kernelPage true i (rootPage (k.procs i).satp) vpn access k.phys (.ok (false, s'))) :
    NoMemory L k i vpn access := by
  cases hcase with
  | refused hno =>
      rcases hno with ⟨hX, hR, hW⟩ | hno
      · tauto
      · exact absurd hprot (hno j hcov)
  | exhausted hcov hprot hold hres => exact ⟨hold, .inl hres⟩
  | @noTable j q s₁ a' hcov hprot hwalk htable hal halloc hres hfree hdrop hinv =>
      refine ⟨.inl hwalk, .inr ⟨htable, ?_⟩⟩
      rw [halloc]
      exact hres

/-- Where a VMA allows an access of the kernel, it succeeds exactly if the page is accessible. -/
theorem Serving.touch_iff (h : Serving L i k) {access va : Nat} (hok : ByteOk k i access va)
    (hkind : access = vmaProtX ∨ access = vmaProtR ∨ access = vmaProtW) :
    (∃ out, touch L access va k = .ok out) ↔ Accessible L k i (va / 4096) access := by
  have hva := hok.2
  have hvpn : va / 4096 < 1048576 := by omega
  obtain ⟨-, -, j, hin, hprot⟩ :=
    procVmaRangeOk_covers hok.1 hva (by decide) (le_refl va) (Nat.lt_succ_self va)
  have hcov := (h.inv.vma h.user).covers_addr.mpr hin
  have hcase := h.inv.fault h.user true access hva
  unfold touch
  rw [h.cur]
  dsimp only
  cases hfirst : kernelTranslate (k.procs i).satp va access k.phys with
  | some pa =>
      refine iff_of_true ⟨_, rfl⟩ ⟨fun hbad => ?_, fun hno => ?_⟩
      · rw [hbad.refused h.inv rfl hvpn] at hfirst
        cases hfirst
      · rw [hno.refused rfl] at hfirst
        cases hfirst
  | none =>
      dsimp only
      rw [if_neg (not_not.mpr h.user)]
      cases hout : procHandleUserPageFault L true (k.procs i) va access k.phys with
      | error e =>
          rw [hout] at hcase
          cases hcase with
          | loop hcov hprot hsum => cases hsum
      | ok r =>
          obtain ⟨ok, s'⟩ := r
          rw [hout] at hcase
          cases ok with
          | false =>
              refine iff_of_false ?_ fun hgood => hgood.2 (hcase.noMemory hcov hprot hkind)
              rintro ⟨out, hcall⟩
              cases hcall
          | true =>
              obtain ⟨leaf, hwalk, -, hbits, hres⟩ := h.inv.fault_granted h.user hkind hvpn hcase
              have hmemory := hcase.memory
              dsimp only
              cases hsecond : kernelTranslate (k.procs i).satp va access s' with
              | some pa =>
                  have hnot := ((kernelTranslate_isSome hwalk).mp (by rw [hsecond]; rfl)).1
                  exact iff_of_true ⟨_, rfl⟩ ⟨fun hbad => hnot (hres.mpr hbad), hmemory⟩
              | none =>
                  refine iff_of_false ?_ fun hgood => ?_
                  · rintro ⟨out, hcall⟩
                    cases hcall
                  · have hsome := (kernelTranslate_isSome hwalk).mpr
                      ⟨fun hno => hgood.1 (hres.mp hno), hbits⟩
                    rw [hsecond] at hsome
                    cases hsome

theorem storeByte_ok_iff {va : Nat} (value : UInt8) :
    (∃ k', storeByte L va value k = .ok k') ↔ ∃ out, touch L vmaProtW va k = .ok out := by
  unfold storeByte
  cases touch L vmaProtW va k with
  | error e => exact iff_of_false nofun nofun
  | ok out => exact iff_of_true ⟨_, rfl⟩ ⟨_, rfl⟩

/-! ## The copy -/

/-- A copy to checked user memory ends exactly if, whenever it comes to a byte, the page of it is
accessible. -/
theorem Serving.storeAll_iff (h : Serving L i k) {dst : Nat} {src : List UInt8}
    (hdst : dst < 4294967296)
    (hok : ∀ j, j < src.length → ByteOk k i vmaProtW (u32 (dst + j))) :
    (∃ k', storeAll L dst src k = .ok k') ↔ ∀ n k', n < src.length →
      storeAll L dst (src.take n) k = .ok k' →
        Accessible L k' i (u32 (dst + n) / 4096) vmaProtW := by
  induction src generalizing dst k with
  | nil => exact iff_of_true ⟨k, rfl⟩ fun n _ hn => absurd hn (Nat.not_lt_zero n)
  | cons byte rest ih =>
      have hfirst := hok 0 (Nat.zero_lt_succ _)
      rw [Nat.add_zero, u32_of_lt hdst] at hfirst
      have hbyte := (storeByte_ok_iff byte).trans (h.touch_iff hfirst (.inr (.inr rfl)))
      have hstore := storeByte_serves h hfirst byte
      cases hcall : storeByte L dst byte k with
      | error e =>
          have hno : ¬ Accessible L k i (dst / 4096) vmaProtW := by
            rw [← hbyte, hcall]
            rintro ⟨k', hok⟩
            cases hok
          refine iff_of_false ?_ fun hall => hno ?_
          · unfold storeAll
            rw [hcall]
            rintro ⟨k', hok⟩
            cases hok
          · have haccess := hall 0 k (Nat.zero_lt_succ _) rfl
            rw [Nat.add_zero, u32_of_lt hdst] at haccess
            exact haccess
      | ok k₁ =>
          rw [hcall] at hstore
          obtain ⟨hserving, htable⟩ := hstore
          have hyes : Accessible L k i (dst / 4096) vmaProtW := hbyte.mp ⟨k₁, hcall⟩
          have hnext : ∀ src', storeAll L dst (byte :: src') k = storeAll L (u32 (dst + 1)) src' k₁ := by
            intro src'
            rw [storeAll, hcall]
          have hrest := ih hserving (u32_lt (dst + 1)) fun j hj => by
            rw [u32_succ_add]
            exact (hok (j + 1) (Nat.succ_lt_succ hj)).table htable
          rw [hnext, hrest]
          constructor
          · intro hall n k' hn hprefix
            cases n with
            | zero =>
                cases hprefix
                rw [Nat.add_zero, u32_of_lt hdst]
                exact hyes
            | succ n =>
                rw [List.take_succ_cons, hnext] at hprefix
                rw [← u32_succ_add]
                exact hall n k' (Nat.lt_of_succ_lt_succ hn) hprefix
          · intro hall n k' hn hprefix
            rw [u32_succ_add]
            refine hall (n + 1) k' (Nat.succ_lt_succ hn) ?_
            rw [List.take_succ_cons, hnext]
            exact hprefix

/-! ## Runs of the small machine -/

/-- A list of operations, each of which can happen when its turn comes. -/
def waitRun (L : Layout) : List WaitOp → WaitState → Option WaitState
  | [], s => some s
  | op :: ops, s =>
      if op.enabled s then
        match waitStep L op s with
        | .ok s' => waitRun L ops s'
        | .error _ => none
      else none

theorem WaitReachable.run {ops : List WaitOp} {s s' : WaitState} (hs : WaitReachable L s)
    (h : waitRun L ops s = some s') : WaitReachable L s' := by
  induction ops generalizing s with
  | nil =>
      cases h
      exact hs
  | cons op ops ih =>
      unfold waitRun at h
      split at h
      · rename_i hop
        split at h
        · rename_i s₁ hstep
          exact ih (hs.step op hop hstep) h
        · cases h
      · cases h

/-- The small machine after the given operations. -/
def smallWait (ops : List WaitOp) : Option WaitState :=
  smallBoot.bind fun k => waitRun smallLayout ops ⟨k, fun _ => none, .init⟩

theorem smallWait_reachable {ops : List WaitOp} {s : WaitState} (h : smallWait ops = some s) :
    WaitReachable smallLayout s := by
  obtain ⟨k, hk, hrun⟩ := Option.bind_eq_some_iff.mp h
  exact (WaitReachable.boot hk).run hrun

/-! ## Waiting delivers -/

/-- A call of `sys_waitpid` by process `i` that gets to its scan of the table, and the kernel there:
the checks of the call have passed, or the process comes back from the `yield` in it. -/
inductive PassStart (s : WaitState) (i : Fin procMax) (call : WaitCall) : Kernel → Prop
  | call (hrun : s.kernel.running = some i) (hmay : call.mayCall (s.kernel.procs i) = true)
      (hfree : s.waiting i = none)
      (hcheck : call.statusPtr = 0 ∨ procUserWritableOk s.kernel call.statusPtr.toNat 4 = true)
      (hoptions : call.options &&& ~~~wnohang = 0) : PassStart s i call s.kernel
  | resume (hcur : s.kernel.currentProc = some i) (hcall : s.waiting i = some call) :
      PassStart s i call (s.kernel.resumed i)

/-- Every page of the status is accessible when the copy comes to it. -/
def StatusFits (L : Layout) (k : Kernel) (i : Fin procMax) (call : WaitCall) (status : Int) : Prop :=
  call.statusPtr ≠ 0 → ∀ n k', n < 4 →
    storeAll L call.statusPtr.toNat ((intBytes status).take n) k = .ok k' →
      Accessible L k' i (u32 (call.statusPtr.toNat + n) / 4096) vmaProtW

/-- Waiting is exact, and the status of a child that has been reaped arrives exactly if there is
a place for it. -/
structure WaitsDeliver (L : Layout) (s : WaitState) : Prop extends WaitsExact L s where
  arrives : ∀ i call k₀ pid status k₁, PassStart s i call k₀ →
    waitpidScan L call.pid i k₀ = .ok (.reaped pid status, k₁) →
      ((∃ k₂, waitPass L i call k₀ = .returned pid k₂) ↔ StatusFits L k₁ i call status)

theorem PassStart.ready {s : WaitState} {call : WaitCall} {k₀ : Kernel} (hs : WaitInv s)
    (h : Guarded L s.kernel) (hstart : PassStart s i call k₀) :
    Guarded L k₀ ∧ PidsOk k₀.procs ∧ k₀.running = some i ∧ statusOk (k₀.procs i) call := by
  cases hstart with
  | call hrun hmay hfree hcheck hoptions =>
      refine ⟨h, hs.pids, hrun, ?_⟩
      by_cases hptr : call.statusPtr = 0
      · exact .inl hptr
      · have huser := (WaitCall.mayCall_iff.mp hmay).resolve_left hptr
        have hcur := (Kernel.running_eq_some.mp hrun).1
        exact (procUserWritableOk_eq hcur hptr huser).mp (hcheck.resolve_left hptr)
  | resume hcur hcall =>
      have hw := hs.waits i call hcall
      have hresume := hw.resumes hcur
      refine ⟨setState_guarded h ?_ (by decide), hresume.passage.pids hs.pids, hresume.running,
        hresume.status⟩
      rcases hw.state with hstate | hstate <;> rw [hstate] <;> decide

/-- After a child has been reaped, the call returns its pid exactly if the copy comes to its end. -/
theorem waitPass_returned_iff (h : Guarded L k) (hpids : PidsOk k.procs)
    (hrun : k.running = some i) {call : WaitCall} (hok : statusOk (k.procs i) call) {pid status : Int} {k₁ : Kernel}
    (hscan : waitpidScan L call.pid i k = .ok (.reaped pid status, k₁)) :
    (∃ k₂, waitPass L i call k = .returned pid k₂) ↔ call.statusPtr ≠ 0 →
      ∃ k₂, storeAll L call.statusPtr.toNat (intBytes status) k₁ = .ok k₂ := by
  have hreaps := waitpidScan_reaps h hrun hscan
  have hpos : 0 < pid := by
    obtain ⟨c, hchild, -, hpid, -, -, -⟩ := waitpidScan_reaped hscan
    rw [hpid, hpids c (isChild_eq_true.mp hchild).1]
    exact slotPid_pos c
  have hpass : waitPass L i call k = deliver L call pid status k₁ := by
    unfold waitPass
    rw [hscan]
  rw [hpass]
  unfold deliver
  by_cases hptr : call.statusPtr = 0
  · rw [if_neg fun hboth => hboth.2 hptr]
    exact iff_of_true ⟨k₁, rfl⟩ fun hno => absurd hptr hno
  · have hok₁ : statusOk (k₁.procs i) call := by
      rw [hreaps.self]
      exact hok
    rw [if_pos ⟨hpos, hptr⟩,
      copyToUser_checked (Kernel.running_eq_some.mp hreaps.running).1 hptr hok₁]
    cases storeAll L call.statusPtr.toNat (intBytes status) k₁ with
    | ok k₂ => exact iff_of_true ⟨k₂, rfl⟩ fun _ => ⟨k₂, rfl⟩
    | error e =>
        refine iff_of_false ?_ fun hall => ?_
        · cases e <;> exact nofun
        · obtain ⟨k₂, hcall⟩ := hall hptr
          cases hcall

/-- In every state of every run waiting for children is exact, and the status of a child that is
reaped arrives exactly if the copy finds every page of it accessible. -/
theorem waits_exact {s : WaitState} (h : WaitReachable L s) : WaitsDeliver L s := by
  refine ⟨h.exact, fun i call k₀ pid status k₁ hstart hscan => ?_⟩
  obtain ⟨hguarded, hpids, hrun, hok⟩ := hstart.ready h.inv h.guarded
  have hreaps := waitpidScan_reaps hguarded hrun hscan
  rw [waitPass_returned_iff hguarded hpids hrun hok hscan]
  unfold StatusFits
  refine imp_congr_right fun hptr => ?_
  have huser : (k₁.procs i).isUser = true := by
    rw [hreaps.self]
    exact hok.user hptr
  have hserving := hreaps.guarded.serving hreaps.running huser
  have hrange : procVmaRangeOk (k₁.procs i) call.statusPtr.toNat 4 vmaProtW = true := by
    rw [hreaps.self]
    exact (hok.resolve_left hptr).2
  have hbytes := hserving.bytesOk call.statusPtr.toNat_lt (by decide) hrange
  rw [← intBytes_length status] at hbytes ⊢
  exact hserving.storeAll_iff call.statusPtr.toNat_lt hbytes

/-- A parent waits with a status pointer into its stack, is woken for nothing, and
waits again until its child exits. -/
def waitOps : List WaitOp :=
  [.kernel (.createUserProcess smallEntry), .kernel (.switchTo 1), .kernel .fork,
    .sysWaitpid ⟨-1, 0x3FFFFFF0, 0⟩, .wake 1, .kernel (.switchTo 1), .resume,
    .kernel (.switchTo 2), .kernel (.exit 7), .kernel (.switchTo 1)]

theorem waits_exact_small : ∃ s k₁, smallWait waitOps = some s ∧ s.ledger.exits = [(10, 7)] ∧
    waitpidScan smallLayout (-1) 1 (s.kernel.resumed 1) = .ok (.reaped 3 7, k₁) ∧
      StatusFits smallLayout k₁ 1 ⟨-1, 0x3FFFFFF0, 0⟩ 7 := by
  have hsome : (smallWait waitOps).any (fun s => decide (s.ledger.exits = [(10, (7 : Int))]) &&
      decide (s.kernel.currentProc = some (1 : Fin procMax)) &&
      decide (s.waiting 1 = some ⟨-1, 0x3FFFFFF0, 0⟩) &&
      (waitpidScan smallLayout (-1) 1 (s.kernel.resumed 1)).toOption.any
        (fun out => decide (out.1 = .reaped 3 7)) &&
      match waitPass smallLayout 1 ⟨-1, 0x3FFFFFF0, 0⟩ (s.kernel.resumed 1) with
      | .returned 3 _ => true
      | _ => false) = true := by
    decide +kernel
  obtain ⟨s, hs, hall⟩ := (Option.any_eq_true _ _).mp hsome
  simp only [Bool.and_eq_true, decide_eq_true_eq] at hall
  obtain ⟨⟨⟨⟨hexits, hcur⟩, hcall⟩, hscan⟩, hpass⟩ := hall
  obtain ⟨out, hscan, hreaped⟩ := ok_of_any hscan
  have hexact := waits_exact (smallWait_reachable hs)
  refine ⟨s, out.2, hs, hexits, ?_, ?_⟩
  · rw [hscan, ← of_decide_eq_true hreaped]
  · refine (hexact.arrives 1 _ _ 3 7 out.2 (.resume hcur hcall) ?_).mp ?_
    · rw [hscan, ← of_decide_eq_true hreaped]
    · split at hpass
      · rename_i k₂ hreturned
        exact ⟨k₂, hreturned⟩
      · cases hpass

/-- A parent whose status pointer leads to a page that is mapped to be written only. -/
def statusLostOps : List WaitOp :=
  [.kernel (.createUserProcess smallEntry), .kernel (.switchTo 1),
    .kernel (.mmap 0x20000000 0x1000 2 0), .kernel .fork, .sysWaitpid ⟨-1, 0x20000000, 0⟩,
    .kernel (.switchTo 2), .kernel (.exit 7), .kernel (.switchTo 1)]

/-- Its child is reaped, and the copy of the status never ends. -/
theorem status_lost : ¬ ∀ (L : Layout) (s : WaitState) (i : Fin procMax) (call : WaitCall)
    (k₀ : Kernel) (pid status : Int) (k₁ : Kernel), WaitReachable L s → PassStart s i call k₀ →
    waitpidScan L call.pid i k₀ = .ok (.reaped pid status, k₁) →
      ∃ k₂, waitPass L i call k₀ = .returned pid k₂ := by
  intro hall
  have hsome : (smallWait statusLostOps).any (fun s =>
      decide (s.kernel.currentProc = some (1 : Fin procMax)) &&
      decide (s.waiting 1 = some ⟨-1, 0x20000000, 0⟩) &&
      (waitpidScan smallLayout (-1) 1 (s.kernel.resumed 1)).toOption.any
        (fun out => decide (out.1 = .reaped 3 7)) &&
      match waitPass smallLayout 1 ⟨-1, 0x20000000, 0⟩ (s.kernel.resumed 1) with
      | .stop .faultLoop _ => true
      | _ => false) = true := by
    decide +kernel
  obtain ⟨s, hs, hall⟩ := (Option.any_eq_true _ _).mp hsome
  simp only [Bool.and_eq_true, decide_eq_true_eq] at hall
  obtain ⟨⟨⟨hcur, hcall⟩, hscan⟩, hpass⟩ := hall
  obtain ⟨out, hscan, hreaped⟩ := ok_of_any hscan
  obtain ⟨k₂, hreturned⟩ := hall smallLayout s 1 ⟨-1, 0x20000000, 0⟩ _ 3 7 out.2
    (smallWait_reachable hs) (.resume hcur hcall) (by rw [hscan, ← of_decide_eq_true hreaped])
  rw [hreturned] at hpass
  cases hpass

end Sugimotos.Proc
