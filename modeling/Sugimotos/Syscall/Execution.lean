/-
# A process in execution

What a user process does while it has the processor: it loads and stores, through translations
that the hardware has cached or finds in the tables, it takes page faults and interrupts, it makes
system calls.  As long as no load or store goes through a stale translation, what it observes of
all that is what it would observe on the flat machine, register for register.
-/

import Sugimotos.Math.Simulation
import Sugimotos.Proc.Flush
import Sugimotos.Syscall.FlatCalls

namespace Sugimotos.Syscall

open Sugimotos.Math Sugimotos.Mm Sugimotos.Proc Sugimotos.Fs Sugimotos.Event

/-- What can be observed of a step. -/
inductive Seen
  | load (addr : UInt32) (byte : UInt8)
  | store (addr : UInt32) (byte : UInt8)
  /-- A page fault, with the registers before and after it. -/
  | fault (f f' : TrapFrame)
  /-- A system call, with the registers before and after it. -/
  | ecall (f f' : TrapFrame)
  /-- An interrupt, after which the devices have this to offer. -/
  | devices (f f' : TrapFrame) (events : Kevents) (sbi : Sbi) (display : Display)

/-- The devices of a system replaced. -/
def Os.withDevices (s : Os) (events : Kevents) (sbi : Sbi) (display : Display) : Os :=
  { s with
    events := events
    sbi := sbi
    display := display }

/-- The physical address that an access in user mode may go to.  The hardware takes a translation
that it has cached or one that it finds in the tables, and refuses the reserved encoding. -/
def Translates (k : Kernel) (i : Fin procMax) (va access pa : Nat) : Prop :=
  ∃ leaf : Leaf, (⟨va / 4096, leaf⟩ ∈ k.phys.mmu.tlb ∨
      walk k.phys.mem (rootPage (k.procs i).satp) (va / 4096) = some leaf) ∧
    leaf.reserved = false ∧ leaf.perm &&& pteU ≠ 0 ∧
    leaf.perm &&& protToQueryBits access = protToQueryBits access ∧
    pa = leaf.ppn * 4096 + va % 4096

/-- A byte of physical memory, written. -/
def writeByte (k : Kernel) (pa : Nat) (byte : UInt8) : Kernel :=
  { k with
    phys := k.phys.setPage pa (Function.update (k.phys.mem (pa / 4096)) (pa % 4096) byte) }

/-- A step of process `i`, which has the processor and keeps it.  The copies that the kernel makes
for a system call translate by the tables. -/
inductive UserStep (L : Layout) (i : Fin procMax) : Os → Seen → Os → Prop
  | load {s : Os} {addr : UInt32} {pa : Nat}
      (htranslate : Translates s.kernel i addr.toNat vmaProtR pa) :
      UserStep L i s (.load addr (s.kernel.phys.mem (pa / 4096) (pa % 4096))) s
  | store {s : Os} {addr : UInt32} {byte : UInt8} {pa : Nat}
      (htranslate : Translates s.kernel i addr.toNat vmaProtW pa) :
      UserStep L i s (.store addr byte) (s.withKernel (writeByte s.kernel pa byte))
  | fault {s s' : Os} {scause stval : UInt32} {f f' : TrapFrame}
      (hscause : pageFaultAccess scause ≠ 0) (hcall : handleTrap L scause stval f s = .ok (f', s')) :
      UserStep L i s (.fault f f') s'
  | ecall {s s' : Os} {stval : UInt32} {f f' : TrapFrame}
      (hnumber : (Flat.call (f.reg .a7) (ecallArgs f)).isSome = true)
      (hcall : handleTrap L scauseEcallFromUmode stval f s = .ok (f', s')) :
      UserStep L i s (.ecall f f') s'
  | devices {s s' : Os} {stval : UInt32} {f f' : TrapFrame} (events : Kevents) (sbi : Sbi)
      (display : Display)
      (hcall : handleTrap L scauseSupervisorExternalIrq stval f s = .ok (f', s')) :
      UserStep L i s (.devices f f' events sbi display) (s'.withDevices events sbi display)

/-- What is cached for a page leads to where the tables lead, and grants nothing that they do not
grant.  `NoStale` says this of every page. -/
def FreshAt (k : Kernel) (i : Fin procMax) (vpn : Nat) : Prop :=
  ∀ e ∈ k.phys.mmu.tlb, e.vpn = vpn →
    ∃ leaf, walk k.phys.mem (rootPage (k.procs i).satp) vpn = some leaf ∧
      leaf.ppn = e.leaf.ppn ∧ e.leaf.perm &&& leaf.perm = e.leaf.perm

/-- The address of a load or a store. -/
def Seen.addr? : Seen → Option UInt32
  | .load addr _ | .store addr _ => some addr
  | _ => none

/-- A step that does not load or store where something stale is cached. -/
def FreshStep (L : Layout) (i : Fin procMax) (s : Os) (seen : Seen) (s' : Os) : Prop :=
  UserStep L i s seen s' ∧
    ∀ addr, seen.addr? = some addr → FreshAt s.kernel i (addr.toNat / 4096)

namespace Flat

/-- The return from a system call. -/
def returned (f : TrapFrame) (value : Int) : TrapFrame :=
  { f with sepc := f.sepc + 4 }.set .a0 (.ofInt value)

/-- The steps of the flat machine.  The kernel's read-only data can be read by everybody; the flat
machine does not say what is there. -/
def Step (L : Layout) (f : Flat) : Seen → Flat → Prop
  | .load addr byte, f' => (f.mem addr.toNat = some byte ∨ kernelRodata L addr.toNat) ∧ f' = f
  | .store addr byte, f' =>
      f.allows addr.toNat 1 vmaProtW ∧ f' = { f with mem := f.mem.set addr.toNat byte }
  | .fault frame frame', f' => frame' = frame ∧ f' = f
  | .ecall frame frame', f' =>
      ∃ call, Flat.call (frame.reg .a7) (ecallArgs frame) = some call ∧
        frame' = returned frame (call f).1 ∧ f' = (call f).2
  | .devices frame frame' events sbi display, f' =>
      frame' = frame ∧ f' = { f with events := events, sbi := sbi, display := display }

end Flat

variable {L : Layout} {i : Fin procMax} {s s' : Os}

/-! ## Translations -/

theorem and_eq_of_and_eq {perm perm' bits : Nat} (hperm : perm &&& perm' = perm)
    (hbits : perm &&& bits = bits) : perm' &&& bits = bits := by
  calc perm' &&& bits = perm' &&& (perm &&& bits) := by rw [hbits]
    _ = perm &&& perm' &&& bits := by rw [← Nat.and_assoc, Nat.and_comm perm']
    _ = bits := by rw [hperm, hbits]

theorem and_ne_zero_of_and_eq {perm perm' bits : Nat} (hperm : perm &&& perm' = perm)
    (hbits : perm &&& bits ≠ 0) : perm' &&& bits ≠ 0 := by
  intro hzero
  apply hbits
  rw [← hperm, Nat.and_assoc, hzero, Nat.and_zero]

/-- Nothing that grants more to loads or stores than a leaf which is not reserved is reserved. -/
theorem reserved_of_and_eq {leaf leaf' : Leaf} {access : Nat}
    (haccess : access = vmaProtR ∨ access = vmaProtW) (hreserved : leaf.reserved = false)
    (hbits : leaf.perm &&& protToQueryBits access = protToQueryBits access)
    (hperm : leaf.perm &&& leaf'.perm = leaf.perm) : leaf'.reserved = false := by
  have hread : leaf.perm &&& pteR ≠ 0 := by
    rcases haccess with rfl | rfl
    · have hquery : protToQueryBits vmaProtR = pteR := by decide
      rw [hquery] at hbits
      rw [hbits]
      decide
    · intro hzero
      unfold Leaf.reserved at hreserved
      exact of_decide_eq_false hreserved ⟨write_of_bits hbits, hzero⟩
  exact decide_eq_false fun hleaf => and_ne_zero_of_and_eq hperm hread hleaf.2

/-- Where nothing stale is cached, the hardware goes where the tables lead. -/
theorem Translates.userTranslate {k : Kernel} {va access pa : Nat}
    (h : Translates k i va access pa) (hfresh : FreshAt k i (va / 4096))
    (haccess : access = vmaProtR ∨ access = vmaProtW) :
    userTranslate (k.procs i).satp va access k.phys = some pa := by
  obtain ⟨leaf, hleaf, hreserved, hU, hbits, rfl⟩ := h
  refine userTranslate_eq_some.mpr ?_
  rcases hleaf with hcached | hwalk
  · obtain ⟨leaf', hwalk, hppn, hperm⟩ := hfresh _ hcached rfl
    dsimp only at hppn hperm
    refine ⟨leaf', ?_, and_ne_zero_of_and_eq hperm hU, and_eq_of_and_eq hperm hbits, by rw [hppn]⟩
    have hreserved' := reserved_of_and_eq haccess hreserved hbits hperm
    exact Option.filter_eq_some_iff.mpr ⟨hwalk, by rw [hreserved']; rfl⟩
  · exact ⟨leaf, Option.filter_eq_some_iff.mpr ⟨hwalk, by rw [hreserved]; rfl⟩, hU, hbits, rfl⟩

/-- The store of user mode. -/
theorem userStore_of_translate {k : Kernel} {va pa : Nat} (byte : UInt8)
    (h : Proc.userTranslate (k.procs i).satp va vmaProtW k.phys = some pa) :
    userStore L i va byte k = .ok (writeByte k pa byte) := by
  unfold userStore
  rw [h]
  rfl

/-! ## Loads and stores -/

theorem load_flat (h : Serving L i s.kernel) {addr : UInt32} {pa : Nat}
    (htranslate : userTranslate (s.kernel.procs i).satp addr.toNat vmaProtR s.kernel.phys = some pa) :
    Flat.Step L (.of i s) (.load addr (s.kernel.phys.mem (pa / 4096) (pa % 4096))) (.of i s) :=
  ⟨h.inv.load_view h.user addr.toNat_lt htranslate, rfl⟩

theorem store_flat (h : Serving L i s.kernel) {addr : UInt32} {byte : UInt8} {pa : Nat}
    (hpa : userTranslate (s.kernel.procs i).satp addr.toNat vmaProtW s.kernel.phys = some pa) :
    Serving L i (writeByte s.kernel pa byte) ∧
      Flat.Step L (.of i s) (.store addr byte)
        (.of i (s.withKernel (writeByte s.kernel pa byte))) := by
  have hop : Proc.enabled s.kernel (.userStore addr byte) = true := by
    change s.kernel.running.isSome = true
    rw [h.running]
    rfl
  have hstep : step L (.userStore addr byte) s.kernel = .ok (writeByte s.kernel pa byte) := by
    simp only [step]
    rw [h.running]
    exact userStore_of_translate byte hpa
  have hguarded := step_guarded h.guarded _ hop hstep
  obtain ⟨leaf, hwalk, hU, hbits, hpage⟩ := userTranslate_eq_some.mp hpa
  have hview := h.inv.store_view h.user addr.toNat_lt (walk_of_hwWalk hwalk) hU (write_of_bits hbits)
    (show pa / 4096 = leaf.ppn by omega) (show pa % 4096 = addr.toNat % 4096 by omega) byte
  have hprot : ∃ prot, protMap (s.kernel.procs i).vmas addr.toNat = some prot ∧
      prot &&& vmaProtW = vmaProtW := by
    rcases h.inv.user_access h.user addr.toNat_lt (.inr (.inl rfl)) hpa with hprot | ⟨hread, -⟩
    · exact hprot
    · cases hread
  have hram : addr.toNat + 1 < 4294967296 := by
    have hvma := h.inv.vma h.user
    obtain ⟨prot, hfind, -⟩ := hprot
    obtain ⟨j, hcov, -⟩ := hvma.protMap_eq_some.mp hfind
    have hlt := hvma.covers_ram hcov
    omega
  refine ⟨hguarded.serving h.running h.user, ⟨hram, ?_⟩, ?_⟩
  · intro a hlo hhi
    obtain rfl : a = addr.toNat := by omega
    exact hprot
  · unfold Flat.of
    dsimp only [Os.kernel, Os.withKernel]
    rw [show Kernel.view (writeByte s.kernel pa byte) i = _ from hview]
    rfl

/-! ## Traps -/

/-- The registers in the record of a process are not seen. -/
theorem Flat.of_setProc {p : Process} (hsatp : p.satp = (s.kernel.procs i).satp)
    (hvmas : p.vmas = (s.kernel.procs i).vmas) (hfds : p.fds = (s.kernel.procs i).fds) :
    Flat.of i (s.withKernel (s.kernel.setProc i p)) = Flat.of i s := by
  have hview : (s.kernel.setProc i p).view i = s.kernel.view i := by
    funext va
    unfold Kernel.view Kernel.byteAt
    rw [Kernel.setProc_self, hsatp, hvmas]
    rfl
  have hfiles : Files.of (s.withKernel (s.kernel.setProc i p)).files = Files.of s.files := by
    refine Alike.of_parts rfl rfl fun q => ?_
    by_cases hq : q = i
    · subst hq
      rw [Kernel.setProc_self]
      exact hfds
    · rw [Kernel.setProc_other _ _ hq]
  unfold Flat.of
  dsimp only [Os.kernel, Os.withKernel] at hview hfiles ⊢
  rw [hview, hfiles, Kernel.setProc_self, hvmas]

/-- A page fault that is resolved. -/
theorem fault_flat (h : Serving L i s.kernel) {scause stval : UInt32} {f f' : TrapFrame}
    (hscause : pageFaultAccess scause ≠ 0) (hcall : handleTrap L scause stval f s = .ok (f', s')) :
    Serving L i s'.kernel ∧ f' = f ∧ Flat.of i s' = Flat.of i s := by
  have hother : scause ≠ scauseSupervisorExternalIrq ∧ ¬ isSyscallScause scause = true := by
    constructor
    · rintro rfl
      exact hscause rfl
    · intro hcall
      unfold isSyscallScause at hcall
      rw [Bool.or_eq_true, decide_eq_true_iff, decide_eq_true_iff] at hcall
      rcases hcall with rfl | rfl <;> exact hscause rfl
  have hkeeps := handleTrap_keeps h scause stval f
  rw [hcall] at hkeeps
  unfold handleTrap at hcall
  rw [if_neg hother.1, if_neg hother.2, h.cur] at hcall
  dsimp only at hcall
  rw [if_neg (not_not_intro h.user), if_neg hscause] at hcall
  cases hfault : procHandleUserPageFault L false (s.kernel.procs i) stval.toNat
      (pageFaultAccess scause) s.kernel.phys with
  | error e =>
      rw [hfault] at hcall
      cases hcall
  | ok out =>
      obtain ⟨ok, phys⟩ := out
      rw [hfault] at hcall
      cases ok with
      | false => cases hcall
      | true =>
          cases hcall
          have hguarded : Guarded L { s.kernel with phys := phys } := hkeeps.1
          exact ⟨hguarded.serving h.running h.user, rfl,
            Flat.of_withKernel ⟨rfl, rfl⟩ (h.inv.fault_view h.user stval.toNat_lt hfault)⟩

theorem archHandleEcallStart_flat (h : Serving L i s.kernel) (f : TrapFrame) :
    (archHandleEcallStart f s).1 = { f with sepc := f.sepc + 4 } ∧
      Flat.of i (archHandleEcallStart f s).2 = Flat.of i s := by
  unfold archHandleEcallStart fromUser
  dsimp only
  rw [h.cur]
  by_cases hspp : f.sstatus &&& sstatusSpp = 0
  · rw [if_pos hspp]
    exact ⟨rfl, Flat.of_setProc rfl rfl rfl⟩
  · rw [if_neg hspp]
    exact ⟨rfl, rfl⟩

/-- The end of a call that has not replaced the context. -/
theorem archHandleEcallEnd_flat (h : Serving L i s.kernel) {proc : Option (Fin procMax)}
    (hproc : ∀ j, proc = some j → j = i) (f : TrapFrame) (value : Int) :
    Serving L i (archHandleEcallEnd proc f ⟨value, false⟩ s).2.kernel ∧
      (archHandleEcallEnd proc f ⟨value, false⟩ s).1 = f.set .a0 (.ofInt value) ∧
      Flat.of i (archHandleEcallEnd proc f ⟨value, false⟩ s).2 = Flat.of i s := by
  cases proc with
  | none => exact ⟨h, rfl, rfl⟩
  | some j =>
      obtain rfl := hproc j rfl
      exact ⟨setFrame_serving h _ (s.kernel.procs j).hasTrapFrame, rfl,
        Flat.of_setProc rfl rfl rfl⟩

/-- A call that returns, taken apart. -/
theorem archHandleEcall_ok {f f' : TrapFrame} (h : archHandleEcall L f s = .ok (f', s')) :
    ∃ value s₁, handler L (f.reg .a7) (ecallArgs f) (archHandleEcallStart f s).2 =
        .ok (value, s₁) ∧
      archHandleEcallEnd (fromUser f s) (archHandleEcallStart f s).1
        ⟨value, (f.reg .a7).toNat = sysExecNo && value = 0⟩ s₁ = (f', s') := by
  have hreg : (archHandleEcallStart f s).1.reg = f.reg := by
    unfold archHandleEcallStart
    dsimp only
    split <;> rfl
  have hargs : ecallArgs (archHandleEcallStart f s).1 = ecallArgs f := by
    unfold ecallArgs
    rw [hreg]
  unfold archHandleEcall syscallDispatch at h
  dsimp only at h
  rw [hargs, hreg] at h
  cases hcall : handler L (f.reg .a7) (ecallArgs f) (archHandleEcallStart f s).2 with
  | error e =>
      rw [hcall] at h
      cases h
  | ok out =>
      rw [hcall] at h
      exact ⟨out.1, out.2, rfl, Except.ok.inj h⟩

/-- `exec` is not a call of the flat machine. -/
theorem Flat.call_not_exec {number : UInt32} {args : SyscallArgs} {call : Flat → Int × Flat}
    (h : Flat.call number args = some call) : number.toNat ≠ sysExecNo := by
  intro hexec
  unfold Flat.call at h
  rw [hexec] at h
  cases h

theorem ecall_flat (h : Serving L i s.kernel) {stval : UInt32} {f f' : TrapFrame}
    {call : Flat → Int × Flat} (hnumber : Flat.call (f.reg .a7) (ecallArgs f) = some call)
    (hcall : handleTrap L scauseEcallFromUmode stval f s = .ok (f', s')) :
    Serving L i s'.kernel ∧ f' = Flat.returned f (call (.of i s)).1 ∧
      Flat.of i s' = (call (.of i s)).2 := by
  have hecall : archHandleEcall L f s = .ok (f', s') := hcall
  have hproc : ∀ j, fromUser f s = some j → j = i := by
    intro j hj
    unfold fromUser at hj
    rw [h.cur] at hj
    split at hj
    · exact (Option.some.inj hj).symm
    · cases hj
  obtain ⟨hframe, hunseen⟩ := archHandleEcallStart_flat h f
  have hserving := (archHandleEcallStart_serving h f).1
  obtain ⟨value, s₁, hhandler, hend⟩ := archHandleEcall_ok hecall
  obtain ⟨hserving₁, hshown⟩ := handler_shows hserving hnumber value s₁ hhandler
  rw [hframe, decide_eq_false (Flat.call_not_exec hnumber), Bool.false_and] at hend
  obtain ⟨hserving', hvalue, hlast⟩ := archHandleEcallEnd_flat hserving₁ hproc
    { f with sepc := f.sepc + 4 } value
  rw [hend] at hserving' hvalue hlast
  rw [hunseen] at hshown
  rw [hshown]
  exact ⟨hserving', hvalue, hlast⟩

theorem freshStep_flat (h : Serving L i s.kernel) {seen : Seen} (hstep : FreshStep L i s seen s') :
    Serving L i s'.kernel ∧ Flat.Step L (.of i s) seen (.of i s') := by
  obtain ⟨hstep, hfresh⟩ := hstep
  cases hstep with
  | load htranslate =>
      exact ⟨h, load_flat h (htranslate.userTranslate (hfresh _ rfl) (.inl rfl))⟩
  | store htranslate =>
      exact store_flat h (htranslate.userTranslate (hfresh _ rfl) (.inr rfl))
  | fault hscause hcall => exact fault_flat h hscause hcall
  | ecall hnumber hcall =>
      obtain ⟨call, hflat⟩ := Option.isSome_iff_exists.mp hnumber
      obtain ⟨hserving, hframe, hshown⟩ := ecall_flat h hflat hcall
      exact ⟨hserving, call, hflat, hframe, hshown⟩
  | devices events sbi display hcall =>
      cases hcall
      exact ⟨h, rfl, rfl⟩

/-! ## Executions -/

theorem freshStep_simulates (L : Layout) (i : Fin procMax) :
    Simulates (FreshStep L i) (Flat.Step L) fun s f => Serving L i s.kernel ∧ f = Flat.of i s := by
  rintro s s' seen f ⟨hserving, rfl⟩ hstep
  obtain ⟨hserving', hflat⟩ := freshStep_flat hserving hstep
  exact ⟨_, hflat, hserving', rfl⟩

/-- **Flat memory.** In any reachable system, whatever the process that has the processor does
until it gives it up, it observes an execution of the flat machine, as long as no load or store
goes through a stale translation. -/
theorem execution_flat {r : OsRun} (hr : OsReachable L r) (hrun : r.os.kernel.running = some i)
    (huser : (r.os.kernel.procs i).isUser = true) {seen : List Seen}
    (h : Execution (FreshStep L i) r.os seen s') :
    Execution (Flat.Step L) (.of i r.os) seen (.of i s') := by
  have hserving := hr.inv.guarded.serving hrun huser
  obtain ⟨f, hflat, -, rfl⟩ := (freshStep_simulates L i).execution ⟨hserving, rfl⟩ h
  exact hflat

/-- The call `open("a", O_CREAT | O_RDWR)` with the path at 0x3FFFFFF0. -/
def openFrame : TrapFrame := callFrame 20 0x3FFFFFF0 0x103 0

instance (k : Kernel) (i : Fin procMax) (vpn : Nat) : Decidable (FreshAt k i vpn) :=
  decidable_of_iff (∀ e ∈ k.phys.mmu.tlb, e.vpn = vpn →
    ((walk k.phys.mem (rootPage (k.procs i).satp) vpn).any fun leaf =>
      decide (leaf.ppn = e.leaf.ppn ∧ e.leaf.perm &&& leaf.perm = e.leaf.perm)) = true) (by
    simp only [FreshAt, Option.any_eq_true, decide_eq_true_iff])

/-- The address that a cached translation leads to. -/
def cachedAddr (k : Kernel) (va access : Nat) : Option Nat :=
  (k.phys.mmu.tlb.find? fun e => decide (e.vpn = va / 4096 ∧ e.leaf.reserved = false ∧
    e.leaf.perm &&& pteU ≠ 0 ∧
    e.leaf.perm &&& protToQueryBits access = protToQueryBits access)).map
      fun e => e.leaf.ppn * 4096 + va % 4096

theorem translates_of_cached {k : Kernel} {va access pa : Nat} (h : cachedAddr k va access = some pa) :
    Translates k i va access pa := by
  obtain ⟨e, hfind, rfl⟩ := Option.map_eq_some_iff.mp h
  have hleaf := List.find?_some hfind
  rw [decide_eq_true_iff] at hleaf
  have hmem := List.mem_of_find?_eq_some hfind
  refine ⟨e.leaf, .inl ?_, hleaf.2.1, hleaf.2.2.1, hleaf.2.2.2, rfl⟩
  rw [← hleaf.1]
  exact hmem

/-- The small machine whose hardware caches the upper stack page, with its files and devices. -/
def cachingOs (ops : List OsOp) : Option OsRun :=
  cachingBoot.bind fun k =>
    osRun smallLayout ops
      ⟨⟨⟨k, fsInit⟩, keventInit, .init [], ⟨true, 4, 2, 16, 0⟩, 0⟩, fun _ => none⟩

theorem cachingOs_reachable {ops : List OsOp} {r : OsRun} (h : cachingOs ops = some r) :
    OsReachable smallLayout r := by
  obtain ⟨k, hk, hrun⟩ := Option.bind_eq_some_iff.mp h
  exact (OsReachable.boot hk).run hrun

/-- A process writes a name to its stack, reads it, and opens the file of that name; the stores and
the loads go through the cache. -/
def opens (r : OsRun) : Bool :=
  decide (r.os.kernel.running = some 1 ∧ (r.os.kernel.procs 1).isUser = true ∧
    FreshAt r.os.kernel 1 0x3FFFF) &&
  (cachedAddr r.os.kernel 0x3FFFFFF0 vmaProtW).any fun pa =>
    let k := writeByte r.os.kernel pa 97
    decide (FreshAt k 1 0x3FFFF ∧ k.phys.mem (pa / 4096) (pa % 4096) = 97 ∧
      cachedAddr k 0x3FFFFFF0 vmaProtR = some pa) &&
    (handleTrap smallLayout scauseEcallFromUmode 0 openFrame (r.os.withKernel k)).toOption.any
      fun out => decide (out.1.reg .a0 = 0)

/-- A page is mapped, while the hardware caches the stack page. -/
def stackOps : List OsOp :=
  [.kernel (.createUserProcess smallEntry), .kernel (.switchTo 1),
    .kernel (.mmap 0x20000000 0x1000 3 0), .kernel (.pageFault 0x20000000 vmaProtR)]

theorem execution_flat_small : ∃ r s' f', cachingOs stackOps = some r ∧ f'.reg .a0 = 0 ∧
    Execution (Flat.Step smallLayout) (.of 1 r.os)
      [.store 0x3FFFFFF0 97, .load 0x3FFFFFF0 97, .ecall openFrame f'] (.of 1 s') := by
  have hsome : (cachingOs stackOps).any opens = true := by decide +kernel
  obtain ⟨r, hr, hopens⟩ := (Option.any_eq_true _ _).mp hsome
  unfold opens at hopens
  rw [Bool.and_eq_true, decide_eq_true_iff, Option.any_eq_true] at hopens
  obtain ⟨⟨hrun, huser, hfresh⟩, pa, hpa, hafter⟩ := hopens
  dsimp only at hafter
  rw [Bool.and_eq_true, decide_eq_true_iff] at hafter
  obtain ⟨⟨hfresh', hbyte, hpa'⟩, hcalls⟩ := hafter
  obtain ⟨⟨f', s'⟩, hcall, hvalue⟩ := ok_of_any hcalls
  refine ⟨r, s', f', hr, of_decide_eq_true hvalue,
    execution_flat (cachingOs_reachable hr) hrun huser ?_⟩
  have hload : UserStep smallLayout 1 (r.os.withKernel (writeByte r.os.kernel pa 97))
      (.load 0x3FFFFFF0 97) (r.os.withKernel (writeByte r.os.kernel pa 97)) := by
    have hload := UserStep.load (L := smallLayout) (s := r.os.withKernel (writeByte r.os.kernel pa 97))
      (translates_of_cached (i := 1) hpa' : Translates _ _ (0x3FFFFFF0 : UInt32).toNat _ _)
    rw [show (r.os.withKernel (writeByte r.os.kernel pa 97)).kernel.phys.mem (pa / 4096) (pa % 4096)
      = 97 from hbyte] at hload
    exact hload
  refine .step ⟨.store (translates_of_cached hpa), ?_⟩ (.step ⟨hload, ?_⟩
    (.step ⟨.ecall rfl hcall, ?_⟩ (.done s')))
  · rintro addr ⟨⟩
    exact hfresh
  · rintro addr ⟨⟩
    exact hfresh'
  · rintro addr ⟨⟩

/-- **What user mode reaches.** In every reachable system, an access that the page table of a
user process lets through is one that a VMA of the process allows, or it reads the kernel's own
read-only data; and these every user process can read. -/
theorem user_access_exact {r : OsRun} (hr : OsReachable L r)
    (huser : (r.os.kernel.procs i).isUser = true) {va : Nat} (hva : va < 4294967296) :
    (∀ access, AccessKind access →
      (userTranslate (r.os.kernel.procs i).satp va access r.os.kernel.phys).isSome = true →
      (∃ j, ((r.os.kernel.procs i).vmas j).Covers (va / 4096) ∧
        ((r.os.kernel.procs i).vmas j).prot &&& access = access) ∨
      access = vmaProtR ∧ kernelRodata L va) ∧
    (kernelRodata L va →
      userTranslate (r.os.kernel.procs i).satp va vmaProtR r.os.kernel.phys = some va) := by
  have hinv := hr.inv.guarded.inv
  refine ⟨fun access hkind hsome => ?_, hinv.rodata_read huser⟩
  obtain ⟨pa, hpa⟩ := Option.isSome_iff_exists.mp hsome
  rcases hinv.user_access huser hva hkind hpa with ⟨prot, hprot, hallowed⟩ | hrodata
  · obtain ⟨j, hcov, rfl⟩ := (hinv.vma huser).protMap_eq_some.mp hprot
    exact .inl ⟨j, hcov, hallowed⟩
  · exact .inr hrodata

/-- A process that has a page mapped can write to it because of the VMA, and reads the kernel's
read-only data without one. -/
theorem user_access_exact_small : ∃ r, cachingOs stackOps = some r ∧
    (∃ j, ((r.os.kernel.procs 1).vmas j).Covers 0x20000 ∧
      ((r.os.kernel.procs 1).vmas j).prot &&& vmaProtW = vmaProtW) ∧
    userTranslate (r.os.kernel.procs 1).satp 0x80202010 vmaProtR r.os.kernel.phys = some 0x80202010 := by
  have hsome : (cachingOs stackOps).any (fun r => (r.os.kernel.procs 1).isUser &&
      (userTranslate (r.os.kernel.procs 1).satp 0x20000010 vmaProtW r.os.kernel.phys).isSome) = true := by
    decide +kernel
  obtain ⟨r, hr, hvals⟩ := (Option.any_eq_true _ _).mp hsome
  rw [Bool.and_eq_true] at hvals
  obtain ⟨huser, hwrites⟩ := hvals
  have hin : kernelRodata smallLayout 0x80202010 := by
    constructor <;> decide
  refine ⟨r, hr, ?_, (user_access_exact (cachingOs_reachable hr) huser (by decide)).2 hin⟩
  rcases (user_access_exact (cachingOs_reachable hr) huser (by decide)).1 _ (.inr (.inl rfl)) hwrites
    with hvma | ⟨hread, -⟩
  · exact hvma
  · cases hread

end Sugimotos.Syscall
