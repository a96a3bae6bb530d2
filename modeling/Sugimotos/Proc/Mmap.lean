/-
# Mapping and unmapping ranges

What `proc_munmap` and `proc_mmap` do to a process in a reachable state, as seen
from outside: the map of protections its VMAs give, the pages it has mapped, and
the pages given back to the allocator.
-/

import Sugimotos.Proc.PageOps

namespace Sugimotos.Proc

open Sugimotos.Math Sugimotos.Mm

variable {L : Layout} {k : Kernel} {i : Fin procMax}

/-! ## `proc_munmap` -/

/-- A successful `proc_munmap` of `[addr, stop)` by the process in slot `i`. -/
structure Subtracted (L : Layout) (k : Kernel) (i : Fin procMax) (addr stop : Nat)
    (proc : Process) (s' : Phys) : Prop where
  record : proc = { k.procs i with vmas := proc.vmas }
  prot : protMap proc.vmas = without (protMap (k.procs i).vmas) addr stop
  gone : ∀ {a}, addr ≤ a → a < stop → vmQueryUserPage (k.procs i).satp a s' = none
  kept : ∀ {satp a}, k.LiveSatp satp → a < 4294967296 →
    ¬ (satp = (k.procs i).satp ∧ addr ≤ a ∧ a < stop) →
    vmQueryUserPage satp a s' = vmQueryUserPage satp a k.phys
  freed : ∃ pages : List Nat, pages.Nodup ∧
    (∀ p, p ∈ pages ↔ ∃ a perm, addr ≤ a ∧ a < stop ∧
      vmQueryUserPage (k.procs i).satp a k.phys = some (p * 4096 + a % 4096, perm)) ∧
    freeEach L pages k.phys.alloc = .ok s'.alloc

/-- The pages mapped in a range, by what `vm_query_user_page` says. -/
theorem UnmapRange.mem_mapped {proc : Process} {addr len stop satp p : Nat} {s : Phys}
    (h : UnmapRange proc addr len stop) :
    p ∈ mappedPages s.mem (rootPage satp) (rangeVpns addr stop) ↔
      ∃ a perm, addr ≤ a ∧ a < stop ∧
        vmQueryUserPage satp a s = some (p * 4096 + a % 4096, perm) := by
  have halign := h.aligned
  have hstop := h.stop_aligned
  rw [mem_mappedPages]
  constructor
  · rintro ⟨vpn, hv, leaf, hwalk, rfl⟩
    obtain ⟨hlo, hhi⟩ := h.mem_vpns.mp hv
    obtain ⟨hvpn, -⟩ := h.window hv
    refine ⟨vpn * 4096, leaf.perm, hlo, hhi, ?_⟩
    rw [vmQueryUserPage_walk satp _ (by omega), Nat.mul_div_cancel _ (by decide), hwalk]
    rfl
  · rintro ⟨a, perm, hlo, hhi, hquery⟩
    have hv : a / 4096 ∈ rangeVpns addr stop := h.mem_vpns.mpr (by omega)
    obtain ⟨hvpn, -⟩ := h.window hv
    rw [vmQueryUserPage_walk satp _ (by omega)] at hquery
    obtain ⟨leaf, hwalk, hleaf⟩ := Option.map_eq_some_iff.mp hquery
    have hpage : leaf.ppn * 4096 + a % 4096 = p * 4096 + a % 4096 := congrArg Prod.fst hleaf
    exact ⟨a / 4096, hv, leaf, hwalk, by omega⟩

theorem KernelInv.subtracted (h : KernelInv L k) (huser : (k.procs i).isUser = true)
    {addr len stop : Nat} {v : Vmas} {s' : Phys} (hrange : UnmapRange (k.procs i) addr len stop)
    (hunmapped : Unmapped L (tableRoots k.procs k.kernelPage) i (rootPage (k.procs i).satp) addr stop
      (k.procs i).vmas v k.phys s') :
    Subtracted L k i addr stop { k.procs i with vmas := v } s' := by
  have halign := hrange.aligned
  have hstop := hrange.stop_aligned
  have hfits : stop ≤ 0x3f000000 := hrange.fits
  have hspace : k.SpaceOf (k.procs i).satp (some i) := ⟨huser, rfl⟩
  refine ⟨rfl, hunmapped.prot, fun {a} hlo hhi => ?_, fun {satp a} hlive ha hout => ?_, ?_⟩
  · have hv : a / 4096 ∈ rangeVpns addr stop := hrange.mem_vpns.mpr (by omega)
    rw [vmQueryUserPage_walk _ a (by omega),
      hunmapped.swept.gone hspace.root (hrange.window hv).1 hv]
    rfl
  · obtain ⟨space, hspace'⟩ := h.exists_space hlive
    rw [vmQueryUserPage_walk satp a ha, vmQueryUserPage_walk satp a ha,
      hunmapped.swept.walk hspace'.root (by omega)]
    rintro ⟨hsame, hv⟩
    obtain ⟨hlo, hhi⟩ := hrange.mem_vpns.mp hv
    exact hout ⟨(h.space_eq_iff hspace hspace').mp hsame, by omega, by omega⟩
  · refine ⟨_, ?_, fun p => hrange.mem_mapped, hunmapped.freed⟩
    exact h.mm.mappedPages_nodup hspace.root List.nodup_range' fun vpn hv =>
      ⟨(hrange.window hv).1, Or.inl (hrange.window hv).2⟩

/-- A length rounded up to whole pages, where the addition does not wrap. -/
theorem pageCeil_eq {len : Nat} (h : len + 4095 < 4294967296) :
    pageCeil len = (len + 4095) / 4096 * 4096 := by
  unfold pageCeil
  rw [u32_of_lt (show len + (pageSize - 1) < 4294967296 from h)]
  rfl

/-- `proc_munmap` takes the range out of the process, or it does nothing: then the
range lies strictly inside a VMA and no slot is free for the part above it. -/
theorem procMunmap_subtracts (hk : Reachable L k) (huser : (k.procs i).isUser = true)
    {addr len stop : Nat} (halign : addr % 4096 = 0) (hlen : 1 ≤ len)
    (hround : len + 4095 < 4294967296) (hstop : stop = addr + (len + 4095) / 4096 * 4096)
    (hbase : userMmapBase ≤ addr) (hend : stop ≤ userMmapEnd) :
    ∃ ok proc s', procMunmap L (k.procs i) addr len k.phys = .ok (ok, proc, s') ∧
      (ok = true → Subtracted L k i addr stop proc s') ∧
      (ok = false → proc = k.procs i ∧ s' = k.phys ∧
        procFindFreeVmaSlot (k.procs i).vmas = none ∧
        ∃ j, ((k.procs i).vmas j).Strict addr stop) := by
  have h := hk.inv
  have hlimit : stop ≤ 0x3f000000 := hend
  have hceil : u32 (addr + pageCeil len) = stop := by
    rw [pageCeil_eq hround, ← hstop]
    exact u32_of_lt (by omega)
  have hcases := procMunmap_cases h.mm (tableRoots_user huser) rfl rfl addr len
  generalize procMunmap L (k.procs i) addr len k.phys = out at hcases ⊢
  cases hcases with
  | refused hno =>
      exact absurd ⟨huser, halign, by omega, hceil.symm, by omega, hbase, hend⟩ (hno stop)
  | full hrange hmeet hstrict hslot =>
      rw [hrange.stop_eq, hceil] at hstrict
      exact ⟨false, _, _, rfl, nofun, fun _ => ⟨rfl, rfl, hslot, _, hstrict⟩⟩
  | done hrange hcut hunmapped hstep hquiet =>
      have hsub := h.subtracted huser hrange hunmapped
      rw [hrange.stop_eq, hceil] at hsub
      exact ⟨true, _, _, rfl, fun _ => hsub, nofun⟩

/-- A process unmaps the middle of a range it has touched. -/
def middleOps : List Op :=
  [.createUserProcess smallEntry, .switchTo 1, .mmap 0x20000000 0x3000 3 0,
    .userStore 0x20001000 1]

theorem procMunmap_subtracts_middle :
    ∃ k s' proc, smallRun middleOps = some k ∧
      procMunmap smallLayout (k.procs 1) 0x20001000 1 k.phys = .ok (true, proc, s') ∧
      Subtracted smallLayout k 1 0x20001000 0x20002000 proc s' := by
  have hrun : (smallRun middleOps).any (fun k => (k.procs 1).isUser &&
      ((procMunmap smallLayout (k.procs 1) 0x20001000 1 k.phys).toOption.any fun out => out.1)) =
      true := by
    decide +kernel
  obtain ⟨k, hk, hvals⟩ := (Option.any_eq_true _ _).mp hrun
  rw [Bool.and_eq_true] at hvals
  obtain ⟨ok, proc, s', hcall, hdone, -⟩ := procMunmap_subtracts (smallRun_reachable hk) hvals.1
    (show 0x20001000 % 4096 = 0 by decide) (show 1 ≤ 1 by decide) (by decide)
    (show 0x20002000 = 0x20001000 + (1 + 4095) / 4096 * 4096 by decide) (by decide) (by decide)
  rw [hcall] at hvals
  have hok : ok = true := hvals.2
  subst hok
  exact ⟨k, s', proc, hk, hcall, hdone rfl⟩

/-! ## Slots after a cut -/

section Slots

variable {vmas v : Vmas} {addr stop : Nat}

instance (v : Vma) : Decidable (v.Strict addr stop) := inferInstanceAs (Decidable (_ ∧ _))

theorem procFindFreeVmaSlot_eq_none :
    procFindFreeVmaSlot vmas = none ↔ ∀ j, (vmas j).used = true := by
  unfold procFindFreeVmaSlot
  simp [List.find?_eq_none]

/-- Splitting a VMA takes one free slot. -/
theorem splitVmas_full {i j : Fin procVmaMax} (hused : (vmas i).used = true) :
    procFindFreeVmaSlot (splitVmas vmas i j addr stop) = none ↔
      ∀ c, (vmas c).used = false → c = j := by
  rw [procFindFreeVmaSlot_eq_none]
  unfold splitVmas
  refine forall_congr' fun c => ?_
  by_cases hci : c = i
  · subst hci
    rw [Function.update_self]
    simp [hused]
  · rw [Function.update_of_ne hci]
    by_cases hcj : c = j
    · subst hcj
      rw [Function.update_self]
      simp
    · rw [Function.update_of_ne hcj]
      simp [hcj]

/-- Trimming frees the slots of the VMAs inside the range. -/
theorem trimVmas_full (hstrict : ∀ i, (vmas i).Meets addr stop → ¬ (vmas i).Strict addr stop) :
    procFindFreeVmaSlot (trimVmas vmas addr stop) = none ↔ (∀ j, (vmas j).used = true) ∧
      ∀ j, (vmas j).Meets addr stop → ((vmas j).start < addr ↔ (vmas j).stop ≤ stop) := by
  rw [procFindFreeVmaSlot_eq_none, ← forall_and]
  refine forall_congr' fun j => ?_
  unfold trimVmas
  by_cases hmeet : (vmas j).Meets addr stop
  · have hnot := hstrict j hmeet
    have hused := hmeet.1
    unfold Vma.Strict at hnot
    rw [if_pos hmeet]
    unfold Vma.trim
    by_cases hleft : (vmas j).start < addr
    · rw [if_pos hleft]
      refine iff_of_true hused ⟨hused, fun _ => iff_of_true hleft ?_⟩
      omega
    · rw [if_neg hleft]
      by_cases hright : stop < (vmas j).stop
      · rw [if_pos hright]
        refine iff_of_true hused ⟨hused, fun _ => iff_of_false hleft ?_⟩
        omega
      · rw [if_neg hright]
        refine iff_of_false nofun fun hc => hleft ((hc.2 hmeet).mpr ?_)
        omega
  · rw [if_neg hmeet]
    exact ⟨fun hused => ⟨hused, fun hc => absurd hc hmeet⟩, fun hc => hc.1⟩

theorem splitVmas_ne {i j : Fin procVmaMax} (hmeet : (vmas i).Meets addr stop) :
    splitVmas vmas i j addr stop ≠ vmas := by
  intro heq
  have hstop := congrArg Vma.stop (congrFun heq i)
  unfold splitVmas at hstop
  rw [Function.update_self] at hstop
  obtain ⟨-, -, -, hlt⟩ := hmeet
  dsimp only at hstop
  omega

theorem trimVmas_ne {i : Fin procVmaMax} (hmeet : (vmas i).Meets addr stop) :
    trimVmas vmas addr stop ≠ vmas := by
  intro heq
  have hslot : (vmas i).trim addr stop = vmas i := by
    have hi := congrFun heq i
    unfold trimVmas at hi
    rwa [if_pos hmeet] at hi
  obtain ⟨hused, -, hlo, hhi⟩ := hmeet
  unfold Vma.trim at hslot
  split at hslot
  · have hstop : addr = (vmas i).stop := congrArg Vma.stop hslot
    omega
  · split at hslot
    · have hstart : stop = (vmas i).start := congrArg Vma.start hslot
      omega
    · rw [← hslot] at hused
      cases hused

/-- In a gap only a free slot can be missing. -/
theorem procAddVma_gap {prot : Nat} (hlt : addr < stop) (halign : addr % 4096 = 0)
    (hstop : stop % 4096 = 0) (hv : VmaInv L v)
    (hgap : ∀ a, addr ≤ a → a < stop → protMap v a = none) :
    procAddVma v addr stop prot =
      (procFindFreeVmaSlot v).map fun j => Function.update v j ⟨true, addr, stop, prot⟩ := by
  have hover : overlapsAny v addr stop = false := by
    by_contra hover
    rw [Bool.not_eq_false] at hover
    obtain ⟨j, -, hj⟩ := List.any_eq_true.mp hover
    simp only [Bool.and_eq_true, Bool.not_eq_true', Bool.or_eq_false_iff,
      decide_eq_false_iff_not] at hj
    have hclear := hv.clear_of_protMap hlt hgap hj.1
    omega
  unfold procAddVma
  rw [if_neg (by omega), if_neg (by simp [halign, hstop]), if_neg (by rw [hover]; decide)]

end Slots

/-! ## `proc_mmap` -/

/-- A `MAP_FIXED` request that passes the checks of `proc_mmap`. -/
structure FixedRequest (proc : Process) (addr len prot flags stop : Nat) : Prop where
  user : proc.isUser = true
  prot_pos : 0 < prot
  prot_lt : prot < 8
  fixed : flags &&& mapFixed ≠ 0
  aligned : addr % 4096 = 0
  stop_eq : stop = u32 (addr + pageCeil len)
  lt : addr < stop
  base : userMmapBase ≤ addr
  fits : stop ≤ userMmapEnd

/-- The range lies strictly inside a VMA, and the part above it takes the last
free slot. -/
def CutFillsUp (vmas : Vmas) (addr stop : Nat) : Prop :=
  (∃ j, (vmas j).Meets addr stop ∧ (vmas j).Strict addr stop) ∧
    ∃ c, (vmas c).used = false ∧ ∀ c', (vmas c').used = false → c' = c

/-- No slot is free, and cutting out the range frees none: it meets some VMA, and
each VMA it meets sticks out of it at one end. -/
def CutFreesNone (vmas : Vmas) (addr stop : Nat) : Prop :=
  (∀ j, (vmas j).used = true) ∧ (∃ j, (vmas j).Meets addr stop) ∧
    ∀ j, (vmas j).Meets addr stop → ((vmas j).start < addr ↔ (vmas j).stop ≤ stop)

instance (vmas : Vmas) (addr stop : Nat) : Decidable (CutFillsUp vmas addr stop) :=
  inferInstanceAs (Decidable (_ ∧ _))

instance (vmas : Vmas) (addr stop : Nat) : Decidable (CutFreesNone vmas addr stop) :=
  inferInstanceAs (Decidable (_ ∧ _))

/-- A `MAP_FIXED` request that cuts something out and finds no slot afterwards. -/
def FixedSpoils (proc : Process) (addr len prot flags : Nat) : Prop :=
  ∃ stop, FixedRequest proc addr len prot flags stop ∧
    (CutFillsUp proc.vmas addr stop ∨ CutFreesNone proc.vmas addr stop)

/-- A cut that went through spoils the request if it changed something and left no
slot. -/
theorem CutCase.spoils_iff {w v : Vmas} {addr stop : Nat} {changed : Bool}
    (hcut : CutCase addr stop w (true, v, changed)) :
    procFindFreeVmaSlot v = none ∧ v ≠ w ↔ CutFillsUp w addr stop ∨ CutFreesNone w addr stop := by
  cases hcut with
  | @split i j hmeet hstrict hslot =>
      have hfree := procFindFreeVmaSlot_some hslot
      rw [splitVmas_full hmeet.1]
      constructor
      · rintro ⟨honly, -⟩
        exact Or.inl ⟨⟨i, hmeet, hstrict⟩, j, hfree, honly⟩
      · rintro (⟨-, c, -, honly⟩ | ⟨hused, -⟩)
        · refine ⟨fun c' hc' => ?_, splitVmas_ne hmeet⟩
          rw [honly c' hc', honly j hfree]
        · rw [hused j] at hfree
          cases hfree
  | trim hstrict hnone =>
      rw [trimVmas_full hstrict]
      constructor
      · rintro ⟨⟨hused, hend⟩, hne⟩
        refine Or.inr ⟨hused, ?_, hend⟩
        by_contra hquiet
        exact hne (trimVmas_of_not_meets (not_exists.mp hquiet))
      · rintro (⟨⟨j, hmeet, hj⟩, -⟩ | ⟨hused, ⟨j, hmeet⟩, hend⟩)
        · exact absurd hj (hstrict j hmeet)
        · exact ⟨⟨hused, hend⟩, trimVmas_ne hmeet⟩

/-- A cut that fails spoils nothing. -/
theorem not_spoils_of_full {w : Vmas} {addr stop : Nat} {j : Fin procVmaMax}
    (hmeet : (w j).Meets addr stop) (hstrict : (w j).Strict addr stop)
    (hslot : procFindFreeVmaSlot w = none) : ¬ (CutFillsUp w addr stop ∨ CutFreesNone w addr stop) := by
  rw [procFindFreeVmaSlot_eq_none] at hslot
  rintro (⟨-, c, hfree, -⟩ | ⟨-, -, hend⟩)
  · rw [hslot c] at hfree
    cases hfree
  · exact absurd ((hend j hmeet).mp hstrict.1) (Nat.not_le.mpr hstrict.2)

/-- A cut that changes no VMA met none. -/
theorem CutCase.not_meets {w v : Vmas} {addr stop : Nat} {changed : Bool}
    (hcut : CutCase addr stop w (true, v, changed)) (hv : v = w) (j : Fin procVmaMax) :
    ¬ (w j).Meets addr stop := by
  intro hmeet
  cases hcut with
  | split hmeet' hstrict hslot => exact splitVmas_ne hmeet' hv
  | trim hstrict hnone => exact trimVmas_ne hmeet hv

theorem pageCeil_lt (len : Nat) : pageCeil len ≤ 4294963200 := by
  have hlt := u32_lt (len + (pageSize - 1))
  unfold pageCeil
  unfold pageSize at hlt ⊢
  omega

theorem pageCeil_pageCeil (len : Nat) : pageCeil (pageCeil len) = pageCeil len := by
  have hmod := pageCeil_mod len
  have hlt := pageCeil_lt len
  rw [pageCeil_eq (by omega)]
  omega

section Mmap

variable {proc proc' : Process} {addrHint addr len prot flags stop : Nat} {s s' : Phys}

theorem FixedRequest.range (h : FixedRequest proc addr len prot flags stop) :
    UnmapRange proc addr (pageCeil len) stop := by
  have hlt := h.lt
  have heq := h.stop_eq
  refine ⟨h.user, h.aligned, fun hzero => ?_, ?_, hlt.le, h.base, h.fits⟩
  · rw [hzero] at heq
    unfold u32 at heq
    omega
  · rw [pageCeil_pageCeil]
    exact heq

theorem mmapAdd_none (h : (mmapAdd proc addr len prot).1 = none) :
    (mmapAdd proc addr len prot).2 = proc := by
  unfold mmapAdd at h ⊢
  cases hadd : procAddVma proc.vmas addr (u32 (addr + len)) prot with
  | none => rfl
  | some v =>
      rw [hadd] at h
      cases h

/-- The `MAP_FIXED` path. -/
theorem FixedRequest.procMmap_eq (h : FixedRequest proc addr len prot flags stop) :
    procMmap L proc addr len prot flags s =
      match procMunmap L proc addr (pageCeil len) s with
      | .error e => .error e
      | .ok (false, proc, s) => .ok (none, proc, s)
      | .ok (true, proc, s) =>
          .ok ((mmapAdd proc addr (pageCeil len) prot).1, (mmapAdd proc addr (pageCeil len) prot).2,
            s) := by
  have hlt := h.lt
  have hlen : len ≠ 0 := by
    rintro rfl
    exact h.range.nonempty rfl
  have hrange : ¬ (addr < userMmapBase ∨ userMmapEnd < u32 (addr + pageCeil len) ∨
      u32 (addr + pageCeil len) < addr) := by
    rw [← h.stop_eq, not_or, not_or, Nat.not_lt, Nat.not_lt, Nat.not_lt]
    exact ⟨h.base, h.fits, hlt.le⟩
  have hprot : ¬ (8 ≤ prot ∨ prot = 0) := by
    have hpos := h.prot_pos
    have hbound := h.prot_lt
    omega
  unfold procMmap
  rw [if_neg (not_not.mpr h.user), if_neg hlen, if_neg hprot]
  dsimp only
  rw [if_pos h.fixed, if_neg (not_not.mpr ((isAligned_iff addr).mpr h.aligned))]
  exact if_neg hrange

/-- Every other request that fails changes nothing. -/
theorem procMmap_refused (hno : ∀ stop, ¬ FixedRequest proc addrHint len prot flags stop)
    (hcall : procMmap L proc addrHint len prot flags s = .ok (none, proc', s')) :
    proc' = proc ∧ s' = s := by
  have hsame : ∀ {out : Except Panic (Option Nat × Process × Phys)},
      out = .ok (none, proc, s) → out = .ok (none, proc', s') → proc' = proc ∧ s' = s := by
    rintro out rfl heq
    cases heq
    exact ⟨rfl, rfl⟩
  have hadd : ∀ {addr}, (Except.ok ((mmapAdd proc addr (pageCeil len) prot).1,
      (mmapAdd proc addr (pageCeil len) prot).2, s) : Except Panic (Option Nat × Process × Phys)) =
        .ok (none, proc', s') → proc' = proc ∧ s' = s := by
    intro addr heq
    cases hres : mmapAdd proc addr (pageCeil len) prot with
    | mk result proc₁ =>
        have hnone : (mmapAdd proc addr (pageCeil len) prot).1 = none →
            (mmapAdd proc addr (pageCeil len) prot).2 = proc := mmapAdd_none
        rw [hres] at heq hnone
        cases heq
        exact ⟨hnone rfl, rfl⟩
  unfold procMmap at hcall
  by_cases huser : ¬ proc.isUser = true
  · rw [if_pos huser] at hcall
    exact hsame rfl hcall
  rw [if_neg huser] at hcall
  by_cases hlen : len = 0
  · rw [if_pos hlen] at hcall
    exact hsame rfl hcall
  rw [if_neg hlen] at hcall
  by_cases hprot : 8 ≤ prot ∨ prot = 0
  · rw [if_pos hprot] at hcall
    exact hsame rfl hcall
  rw [if_neg hprot] at hcall
  dsimp only at hcall
  by_cases hfixed : flags &&& mapFixed ≠ 0
  · rw [if_pos hfixed] at hcall
    by_cases halign : ¬ isAligned addrHint = true
    · rw [if_pos halign] at hcall
      exact hsame rfl hcall
    rw [if_neg halign] at hcall
    by_cases hrange : addrHint < userMmapBase ∨ userMmapEnd < u32 (addrHint + pageCeil len) ∨
        u32 (addrHint + pageCeil len) < addrHint
    · rw [if_pos hrange] at hcall
      exact hsame rfl hcall
    rw [if_neg hrange] at hcall
    rw [not_not, isAligned_iff] at *
    -- the length wrapped to zero, which `proc_munmap` refuses
    have hzero : pageCeil len = 0 := by
      by_contra hpos
      refine hno (u32 (addrHint + pageCeil len)) ⟨huser, by omega, by omega, hfixed, halign, rfl, ?_,
        by omega, by omega⟩
      have hlt := pageCeil_lt len
      unfold u32 at hrange ⊢
      have hend : userMmapEnd = 0x3f000000 := rfl
      omega
    have hmunmap : procMunmap L proc addrHint (pageCeil len) s = .ok (false, proc, s) := by
      unfold procMunmap
      rw [if_neg (not_not.mpr huser), if_neg (not_not.mpr ((isAligned_iff _).mpr halign)),
        if_pos hzero]
    rw [hmunmap] at hcall
    exact hsame rfl hcall
  · rw [if_neg hfixed] at hcall
    cases hplace : mmapPlace proc.vmas addrHint (pageCeil len) with
    | none =>
        rw [hplace] at hcall
        exact hsame rfl hcall
    | some addr =>
        rw [hplace] at hcall
        exact hadd hcall

end Mmap

/-- What a `MAP_FIXED` request makes of the array that the cut leaves. -/
theorem mmapAdd_gap {addr len prot flags stop : Nat} {v : Vmas}
    {s' : Phys} (hreq : FixedRequest (k.procs i) addr len prot flags stop)
    (hprot : protMap v = without (protMap (k.procs i).vmas) addr stop)
    (hstep : Stepped L (tableRoots k.procs k.kernelPage) (fun _ => 0) (tableVmas k.procs)
      k.kernelPage i (rootPage (k.procs i).satp) k.phys v s') :
    (mmapAdd { k.procs i with vmas := v } addr (pageCeil len) prot).1 = none ↔
      procFindFreeVmaSlot v = none := by
  have hv : VmaInv L v := by
    have hinv := hstep.inv.vma (tableRoots_user hreq.user)
    rwa [Function.update_self] at hinv
  have hadd : procAddVma v addr stop prot = _ :=
    procAddVma_gap hreq.lt hreq.aligned hreq.range.stop_aligned hv fun a hlo hhi => by
      rw [hprot]
      exact if_pos ⟨hlo, hhi⟩
  unfold mmapAdd
  dsimp only
  rw [← hreq.stop_eq, hadd]
  cases procFindFreeVmaSlot v with
  | none => simp
  | some j => simp

/-- A failed `proc_mmap` changes nothing unless a `MAP_FIXED` request cuts its range
out and then finds no slot for the new VMA. -/
theorem procMmap_failed_iff (hk : Reachable L k) (addrHint len prot flags : Nat) :
    (∀ proc s', procMmap L (k.procs i) addrHint len prot flags k.phys = .ok (none, proc, s') →
      proc = k.procs i ∧ s' = k.phys) ↔ ¬ FixedSpoils (k.procs i) addrHint len prot flags := by
  have h := hk.inv
  by_cases hreq : ∃ stop, FixedRequest (k.procs i) addrHint len prot flags stop
  · obtain ⟨stop, hreq⟩ := hreq
    have hunique : ∀ {stop'}, FixedRequest (k.procs i) addrHint len prot flags stop' → stop' = stop :=
      fun hreq' => hreq'.stop_eq.trans hreq.stop_eq.symm
    have hspoils : FixedSpoils (k.procs i) addrHint len prot flags ↔
        CutFillsUp (k.procs i).vmas addrHint stop ∨ CutFreesNone (k.procs i).vmas addrHint stop := by
      constructor
      · rintro ⟨stop', hreq', hcut⟩
        rwa [hunique hreq'] at hcut
      · exact fun hcut => ⟨stop, hreq, hcut⟩
    have hrange : ∀ {stop'}, UnmapRange (k.procs i) addrHint (pageCeil len) stop' → stop' = stop :=
      fun hrange => hrange.stop_eq.trans hreq.range.stop_eq.symm
    have hcases := procMunmap_cases h.mm (tableRoots_user hreq.user) rfl rfl addrHint (pageCeil len)
    rw [hreq.procMmap_eq, hspoils]
    generalize procMunmap L (k.procs i) addrHint (pageCeil len) k.phys = out at hcases ⊢
    cases hcases with
    | refused hno => exact absurd hreq.range (hno stop)
    | @full stop' j hrange' hmeet hstrict hslot =>
        obtain rfl := hrange hrange'
        refine iff_of_true (fun proc s' heq => ?_) (not_spoils_of_full hmeet hstrict hslot)
        cases heq
        exact ⟨rfl, rfl⟩
    | @done stop' v s' changed hrange' hcut hunmapped hstep hquiet =>
        obtain rfl := hrange hrange'
        have hadd := mmapAdd_gap hreq hunmapped.prot hstep
        have hcut : CutCase addrHint stop' (k.procs i).vmas (true, v, changed) := hcut
        rw [← hcut.spoils_iff]
        dsimp only
        constructor
        · rintro hsame ⟨hslot, hne⟩
          have hnone := hadd.mpr hslot
          obtain ⟨hproc, -⟩ := hsame _ s' (by rw [hnone])
          rw [mmapAdd_none hnone] at hproc
          exact hne (congrArg Process.vmas hproc)
        · intro hkeep proc s'' heq
          injection heq with heq
          obtain ⟨hnone, hrest⟩ := Prod.mk.inj heq
          obtain ⟨rfl, rfl⟩ := Prod.mk.inj hrest
          have hv : v = (k.procs i).vmas := by
            by_contra hne
            exact hkeep ⟨hadd.mp hnone, hne⟩
          refine ⟨?_, hquiet (hcut.not_meets hv)⟩
          rw [mmapAdd_none hnone, hv]
  · refine iff_of_true (fun proc s' hcall => ?_) ?_
    · exact procMmap_refused (fun stop hstop => hreq ⟨stop, hstop⟩) hcall
    · rintro ⟨stop, hstop, -⟩
      exact hreq ⟨stop, hstop⟩

/-- A process with one VMA slot left. -/
def crowdedOps : List Op :=
  [.createUserProcess smallEntry, .switchTo 1, .mmap 0x20000000 0x3000 3 0] ++
    List.replicate 11 (.mmap 0 0x1000 3 0)

/-- With no slot left, a `MAP_FIXED` inside a VMA fails before it changes anything. -/
theorem procMmap_failed_full :
    ∃ k, smallRun (crowdedOps ++ [.mmap 0 0x1000 3 0]) = some k ∧ ∀ proc s',
      procMmap smallLayout (k.procs 1) 0x20001000 0x1000 3 4 k.phys = .ok (none, proc, s') →
      proc = k.procs 1 ∧ s' = k.phys := by
  have hrun : (smallRun (crowdedOps ++ [.mmap 0 0x1000 3 0])).any (fun k =>
      !decide (CutFillsUp (k.procs 1).vmas 0x20001000 0x20002000) &&
        !decide (CutFreesNone (k.procs 1).vmas 0x20001000 0x20002000)) = true := by
    decide +kernel
  obtain ⟨k, hk, hvals⟩ := (Option.any_eq_true _ _).mp hrun
  simp only [Bool.and_eq_true, Bool.not_eq_true', decide_eq_false_iff_not] at hvals
  refine ⟨k, hk, (procMmap_failed_iff (smallRun_reachable hk) _ _ _ _).mpr ?_⟩
  rintro ⟨stop, hreq, hcut⟩
  rw [show stop = 0x20002000 from hreq.stop_eq] at hcut
  exact hcut.elim hvals.1 hvals.2

/-- With one slot left it splits the VMA, and then there is no slot for the new one. -/
theorem procMmap_spoils : ¬ ∀ (L : Layout) (k : Kernel) (i : Fin procMax)
    (addrHint len prot flags : Nat) (proc : Process) (s' : Phys), Reachable L k →
    (k.procs i).isUser = true →
    procMmap L (k.procs i) addrHint len prot flags k.phys = .ok (none, proc, s') →
    proc = k.procs i ∧ s' = k.phys := by
  intro hall
  have hrun : (smallRun crowdedOps).any (fun k => (k.procs 1).isUser &&
      ((procMmap smallLayout (k.procs 1) 0x20001000 0x1000 3 4 k.phys).toOption.any fun out =>
        out.1.isNone && decide (out.2.1.vmas ≠ (k.procs 1).vmas))) = true := by
    decide +kernel
  obtain ⟨k, hk, hvals⟩ := (Option.any_eq_true _ _).mp hrun
  rw [Bool.and_eq_true] at hvals
  obtain ⟨huser, hout⟩ := hvals
  obtain ⟨⟨result, proc, s'⟩, hcall, hout⟩ := ok_of_any hout
  rw [Bool.and_eq_true, Option.isNone_iff_eq_none, decide_eq_true_eq] at hout
  obtain ⟨rfl, hne⟩ := hout
  obtain ⟨rfl, -⟩ := hall _ k 1 _ _ _ _ proc s' (smallRun_reachable hk) huser hcall
  exact hne rfl

end Sugimotos.Proc
