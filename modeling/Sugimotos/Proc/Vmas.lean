/-
# The VMA array

What the functions of `process_vm.c` do to the sixteen VMA slots of a process:
adding a VMA, cutting a range out of the mmap window, clearing the window and
setting up the fixed VMAs.  Each keeps `VmaInv`.
-/

import Sugimotos.Proc.Faults

namespace Sugimotos.Proc

open Sugimotos.Mm

variable {L : Layout} {vmas vmas' : Vmas} {addr start stop prot : Nat}

/-- The standard VMAs lie outside the mmap window. -/
theorem standardVmas_outside {v : Vma} (h : v ∈ standardVmas L) :
    v.used = true ∧ (v.stop ≤ userMmapBase ∨ userMmapEnd ≤ v.start) := by
  obtain ⟨h₀, h₁, h₂, h₃, h₄, h₅, h₆, h₇, h₈, h₉, h₁₀⟩ := Layout.order (L := L)
  simp only [standardVmas, List.mem_cons, List.not_mem_nil, or_false] at h
  unfold userMmapBase userMmapEnd
  rcases h with rfl | rfl | rfl | rfl | rfl <;> simp only [true_and] <;> omega

/-! ## Adding a VMA -/

theorem procFindFreeVmaSlot_some {i : Fin procVmaMax} (h : procFindFreeVmaSlot vmas = some i) :
    (vmas i).used = false := by
  have := List.find?_some h
  simpa using this

theorem overlapsAny_false (h : overlapsAny vmas start stop = false) {i : Fin procVmaMax}
    (hused : (vmas i).used = true) : stop ≤ (vmas i).start ∨ (vmas i).stop ≤ start := by
  have := (List.any_eq_false.mp h) i (List.mem_finRange i)
  simp only [hused, Bool.true_and, Bool.not_eq_true', Bool.not_eq_false, Bool.or_eq_true,
    decide_eq_true_eq] at this
  exact this

/-- What `proc_add_vma` checks and does. -/
theorem procAddVma_some (h : procAddVma vmas start stop prot = some vmas') :
    start < stop ∧ start % 4096 = 0 ∧ stop % 4096 = 0 ∧ overlapsAny vmas start stop = false ∧
      ∃ i, (vmas i).used = false ∧ vmas' = Function.update vmas i ⟨true, start, stop, prot⟩ := by
  unfold procAddVma at h
  by_cases hempty : stop ≤ start
  · rw [if_pos hempty] at h
    cases h
  rw [if_neg hempty] at h
  by_cases halign : ¬ isAligned start = true ∨ ¬ isAligned stop = true
  · rw [if_pos halign] at h
    cases h
  rw [if_neg halign] at h
  simp only [not_or, not_not, isAligned_iff] at halign
  cases hover : overlapsAny vmas start stop with
  | true =>
      rw [hover] at h
      cases h
  | false =>
      rw [hover] at h
      simp only [Bool.false_eq_true, if_false, Option.map_eq_some_iff] at h
      obtain ⟨i, hslot, rfl⟩ := h
      exact ⟨by omega, halign.1, halign.2, rfl, i, procFindFreeVmaSlot_some hslot, rfl⟩

/-- A new VMA in a free slot, clear of the others. -/
theorem VmaInv.add (h : VmaInv L vmas) {i : Fin procVmaMax} {v : Vma}
    (hfree : (vmas i).used = false) (halign : v.start % 4096 = 0 ∧ v.stop % 4096 = 0)
    (hlt : v.start < v.stop) (hprot : v.inWindow = true ∧ 0 < v.prot ∧ v.prot < 8)
    (hclear : ∀ {j}, (vmas j).used = true → v.stop ≤ (vmas j).start ∨ (vmas j).stop ≤ v.start) :
    VmaInv L (Function.update vmas i v) := by
  refine ⟨?_, ?_, ?_, ?_⟩
  · intro j hused
    by_cases hj : j = i
    · subst hj
      rw [Function.update_self]
      exact ⟨halign.1, halign.2, hlt⟩
    · rw [Function.update_of_ne hj] at hused ⊢
      exact h.aligned hused
  · intro j k hne hj hk
    by_cases hji : j = i
    · subst hji
      rw [Function.update_of_ne (Ne.symm hne)] at hk ⊢
      rw [Function.update_self]
      exact hclear hk
    · rw [Function.update_of_ne hji] at hj ⊢
      by_cases hki : k = i
      · subst hki
        rw [Function.update_self]
        exact (hclear hj).symm
      · rw [Function.update_of_ne hki] at hk ⊢
        exact h.disjoint hne hj hk
  · intro j hused
    by_cases hj : j = i
    · subst hj
      rw [Function.update_self]
      exact .inl hprot
    · rw [Function.update_of_ne hj] at hused ⊢
      exact h.place hused
  · intro w hw hnonempty
    obtain ⟨j, rfl⟩ := h.standard hw hnonempty
    have hj : j ≠ i := by
      rintro rfl
      rw [(standardVmas_outside hw).1] at hfree
      cases hfree
    exact ⟨j, Function.update_of_ne hj _ _⟩

/-- Pages keep their VMA when a free slot is filled. -/
theorem covers_update_free {i j : Fin procVmaMax} {v : Vma} {vpn : Nat}
    (hfree : (vmas i).used = false) (hcov : (vmas j).Covers vpn) :
    Function.update vmas i v j = vmas j := by
  apply Function.update_of_ne
  rintro rfl
  rw [hcov.1] at hfree
  cases hfree

/-! ## Cutting out a range -/

/-- The range `[addr, stop)` takes something from the VMA. -/
def Vma.Meets (addr stop : Nat) (v : Vma) : Prop :=
  v.used = true ∧ addr < stop ∧ v.start < stop ∧ addr < v.stop

instance (v : Vma) : Decidable (v.Meets addr stop) := inferInstanceAs (Decidable (_ ∧ _))

/-- The VMA sticks out of the range on both sides. -/
def Vma.Strict (addr stop : Nat) (v : Vma) : Prop := v.start < addr ∧ stop < v.stop

/-- What is left of a VMA that the range meets but does not lie strictly inside
of. -/
def Vma.trim (addr stop : Nat) (v : Vma) : Vma :=
  if v.start < addr then { v with stop := addr }
  else if stop < v.stop then { v with start := stop }
  else .zero

theorem cutVma_skip {changed : Bool} {i : Fin procVmaMax} (hle : addr ≤ stop)
    (hmeet : ¬ (vmas i).Meets addr stop) :
    cutVma addr stop (vmas, changed) i = some (vmas, changed) := by
  unfold cutVma
  simp only
  by_cases hused : (vmas i).used = true
  · have hrange : ¬ (addr < stop ∧ (vmas i).start < stop ∧ addr < (vmas i).stop) :=
      fun hc => hmeet ⟨hused, hc⟩
    rw [if_neg (not_not.mpr hused)]
    split
    · rfl
    · rw [if_pos]
      split <;> split <;> omega
  · rw [if_pos hused]

theorem cutVma_trim {changed : Bool} {i : Fin procVmaMax} (hmeet : (vmas i).Meets addr stop)
    (hnonempty : (vmas i).start < (vmas i).stop) (hstrict : ¬ (vmas i).Strict addr stop) :
    cutVma addr stop (vmas, changed) i =
      some (Function.update vmas i ((vmas i).trim addr stop), true) := by
  obtain ⟨hused, hlt, hlo, hhi⟩ := hmeet
  unfold Vma.Strict at hstrict
  unfold cutVma Vma.trim
  simp only
  rw [if_neg (not_not.mpr hused), if_neg (by omega)]
  by_cases hleft : (vmas i).start < addr
  · have hright : ¬ stop < (vmas i).stop := by omega
    rw [if_pos hleft, if_neg hright, if_neg (by omega), if_neg (by omega), if_neg (by omega),
      if_pos rfl, if_pos hleft]
  · rw [if_neg hleft]
    by_cases hright : stop < (vmas i).stop
    · rw [if_pos hright, if_neg (by omega), if_neg (by omega), if_pos rfl, if_neg hleft,
        if_pos hright]
    · rw [if_neg hright, if_neg (by omega), if_pos ⟨rfl, rfl⟩, if_neg hleft, if_neg hright]

theorem cutVma_split {changed : Bool} {i : Fin procVmaMax} (hmeet : (vmas i).Meets addr stop)
    (hstrict : (vmas i).Strict addr stop) :
    cutVma addr stop (vmas, changed) i =
      (procFindFreeVmaSlot vmas).map fun j =>
        (Function.update (Function.update vmas j ⟨true, stop, (vmas i).stop, (vmas i).prot⟩) i
          { vmas i with stop := addr }, true) := by
  obtain ⟨hused, hlt, hlo, hhi⟩ := hmeet
  obtain ⟨hleft, hright⟩ := hstrict
  unfold cutVma
  simp only
  rw [if_neg (not_not.mpr hused), if_neg (by omega), if_pos hleft, if_pos hright,
    if_neg (by omega), if_neg (by omega), if_neg (by omega), if_neg (by omega)]
  cases hslot : procFindFreeVmaSlot vmas with
  | none => rfl
  | some j =>
      have hji : i ≠ j := by
        rintro rfl
        rw [procFindFreeVmaSlot_some hslot] at hused
        cases hused
      simp only [Option.map_some, Function.update_of_ne hji]

theorem cutVmas_skip {changed : Bool} (hle : addr ≤ stop) (slots : List (Fin procVmaMax))
    (hmeet : ∀ i ∈ slots, ¬ (vmas i).Meets addr stop) :
    cutVmas addr stop slots (vmas, changed) = (true, vmas, changed) := by
  induction slots with
  | nil => rfl
  | cons i rest ih =>
      rw [cutVmas, cutVma_skip hle (hmeet i (by simp))]
      exact ih fun j hj => hmeet j (by simp [hj])

/-- Without a VMA strictly around the range, each slot is trimmed by itself. -/
theorem cutVmas_trim {changed : Bool} (hle : addr ≤ stop) (slots : List (Fin procVmaMax))
    (hnodup : slots.Nodup)
    (hmeet : ∀ i ∈ slots, (vmas i).Meets addr stop →
      (vmas i).start < (vmas i).stop ∧ ¬ (vmas i).Strict addr stop) :
    ∃ changed', cutVmas addr stop slots (vmas, changed) =
      (true, fun i => if i ∈ slots ∧ (vmas i).Meets addr stop then (vmas i).trim addr stop
        else vmas i, changed') ∧
      (changed' = false → changed = false ∧ ∀ i ∈ slots, ¬ (vmas i).Meets addr stop) := by
  induction slots generalizing vmas changed with
  | nil => exact ⟨changed, by simp [cutVmas], fun hc => ⟨hc, fun i hi => by cases hi⟩⟩
  | cons i rest ih =>
      obtain ⟨hi, hrest⟩ := List.nodup_cons.mp hnodup
      by_cases hmi : (vmas i).Meets addr stop
      · obtain ⟨hnonempty, hstrict⟩ := hmeet i (by simp) hmi
        have hother : ∀ j, j ≠ i → Function.update vmas i ((vmas i).trim addr stop) j = vmas j :=
          fun j hj => Function.update_of_ne hj _ _
        have hmeet' : ∀ j ∈ rest,
            (Function.update vmas i ((vmas i).trim addr stop) j).Meets addr stop →
              (Function.update vmas i ((vmas i).trim addr stop) j).start <
                (Function.update vmas i ((vmas i).trim addr stop) j).stop ∧
              ¬ (Function.update vmas i ((vmas i).trim addr stop) j).Strict addr stop := by
          intro j hj
          rw [hother j fun heq => hi (heq ▸ hj)]
          exact hmeet j (by simp [hj])
        obtain ⟨changed', hcut, hnone⟩ := ih hrest hmeet'
        rw [cutVmas, cutVma_trim hmi hnonempty hstrict]
        refine ⟨changed', hcut.trans ?_, fun hc => absurd (hnone hc).1 (by simp)⟩
        congr 2
        funext j
        by_cases hj : j = i
        · subst hj
          rw [if_neg (fun hc => hi hc.1), Function.update_self, if_pos ⟨by simp, hmi⟩]
        · simp only [hother j hj, List.mem_cons, hj, false_or]
      · obtain ⟨changed', hcut, hnone⟩ := ih hrest
          fun j hj => hmeet j (by simp [hj])
        rw [cutVmas, cutVma_skip hle hmi]
        refine ⟨changed', hcut.trans ?_, fun hc => ⟨(hnone hc).1, ?_⟩⟩
        · congr 2
          funext j
          by_cases hj : j = i
          · subst hj
            rw [if_neg (fun hc => hmi hc.2), if_neg (fun hc => hmi hc.2)]
          · simp only [List.mem_cons, hj, false_or]
        · intro j hj
          rcases List.mem_cons.mp hj with rfl | hj
          · exact hmi
          · exact (hnone hc).2 j hj

/-- The array after the range is cut out: still well formed, and every page
outside the range keeps its VMA. -/
structure VmaCut (L : Layout) (addr stop : Nat) (vmas vmas' : Vmas) : Prop where
  inv : VmaInv L vmas'
  keep : ∀ {j vpn}, (vmas j).Covers vpn → ¬ (addr ≤ vpn * 4096 ∧ vpn * 4096 < stop) →
    ∃ j', (vmas' j').Covers vpn ∧ (vmas' j').prot = (vmas j).prot

/-- A range inside the mmap window meets VMAs of the window only. -/
theorem VmaInv.meets_window (h : VmaInv L vmas) (hbase : userMmapBase ≤ addr)
    (hend : stop ≤ userMmapEnd) {i : Fin procVmaMax} (hmeet : (vmas i).Meets addr stop) :
    (vmas i).inWindow = true ∧ 0 < (vmas i).prot ∧ (vmas i).prot < 8 := by
  obtain ⟨hused, hlt, hlo, hhi⟩ := hmeet
  rcases h.place hused with hplace | hstd
  · exact hplace
  · have := (standardVmas_outside hstd).2
    omega

/-- Shrinking or clearing VMAs of the window keeps the array well formed. -/
theorem VmaInv.shrink (h : VmaInv L vmas)
    (hsub : ∀ {i}, (vmas' i).used = true → vmas' i = vmas i ∨
      ((vmas i).used = true ∧ (vmas i).inWindow = true ∧ 0 < (vmas i).prot ∧ (vmas i).prot < 8 ∧
        (vmas' i).prot = (vmas i).prot ∧ (vmas i).start ≤ (vmas' i).start ∧
        (vmas' i).stop ≤ (vmas i).stop ∧ (vmas' i).start % 4096 = 0 ∧
        (vmas' i).stop % 4096 = 0 ∧ (vmas' i).start < (vmas' i).stop))
    (hstd : ∀ {i}, vmas i ∈ standardVmas L → vmas' i = vmas i) : VmaInv L vmas' := by
  have hold : ∀ {i}, (vmas' i).used = true → (vmas i).used = true ∧
      (vmas i).start ≤ (vmas' i).start ∧ (vmas' i).stop ≤ (vmas i).stop := by
    intro i hused
    rcases hsub hused with heq | ⟨hu, -, -, -, -, hlo, hhi, -⟩
    · rw [heq] at hused ⊢
      exact ⟨hused, le_rfl, le_rfl⟩
    · exact ⟨hu, hlo, hhi⟩
  refine ⟨?_, ?_, ?_, ?_⟩
  · intro i hused
    rcases hsub hused with heq | ⟨-, -, -, -, -, -, -, halign⟩
    · rw [heq] at hused ⊢
      exact h.aligned hused
    · exact halign
  · intro i j hne hi hj
    obtain ⟨hui, hloi, hhii⟩ := hold hi
    obtain ⟨huj, hloj, hhij⟩ := hold hj
    rcases h.disjoint hne hui huj with hsep | hsep
    · left
      omega
    · right
      omega
  · intro i hused
    rcases hsub hused with heq | ⟨-, hwin, hpos, hlt, hprot, hlo, hhi, -⟩
    · rw [heq] at hused ⊢
      exact h.place hused
    · left
      simp only [Vma.inWindow, Bool.and_eq_true, decide_eq_true_eq] at hwin ⊢
      omega
  · intro v hv hnonempty
    obtain ⟨i, rfl⟩ := h.standard hv hnonempty
    exact ⟨i, hstd hv⟩

/-- What trimming leaves is empty or a part of the VMA outside the range. -/
theorem Vma.trim_cases {v : Vma} (hused : (v.trim addr stop).used = true) :
    (v.trim addr stop).prot = v.prot ∧
      ((v.start < addr ∧ (v.trim addr stop).start = v.start ∧ (v.trim addr stop).stop = addr) ∨
        (addr ≤ v.start ∧ stop < v.stop ∧ (v.trim addr stop).start = stop ∧
          (v.trim addr stop).stop = v.stop)) := by
  unfold Vma.trim at hused ⊢
  by_cases hleft : v.start < addr
  · simp only [if_pos hleft, true_and]
    exact .inl ⟨hleft, trivial⟩
  · by_cases hright : stop < v.stop
    · simp only [if_neg hleft, if_pos hright, true_and]
      exact .inr ⟨by omega, hright, trivial⟩
    · rw [if_neg hleft, if_neg hright] at hused
      cases hused

/-- Trimming keeps the pages outside the range. -/
theorem Vma.Covers.trim {v : Vma} {vpn : Nat} (h : v.Covers vpn) (hstrict : ¬ v.Strict addr stop)
    (hout : ¬ (addr ≤ vpn * 4096 ∧ vpn * 4096 < stop)) :
    (v.trim addr stop).Covers vpn ∧ (v.trim addr stop).prot = v.prot := by
  obtain ⟨hused, hlo, hhi⟩ := h
  unfold Vma.Strict at hstrict
  unfold Vma.trim
  by_cases hleft : v.start < addr
  · simp only [if_pos hleft]
    exact ⟨⟨hused, hlo, by simp only; omega⟩, trivial⟩
  · by_cases hright : stop < v.stop
    · simp only [if_neg hleft, if_pos hright]
      exact ⟨⟨hused, by simp only; omega, hhi⟩, trivial⟩
    · omega

theorem VmaInv.cut_trim (h : VmaInv L vmas) (hbase : userMmapBase ≤ addr)
    (hend : stop ≤ userMmapEnd) (halign : addr % 4096 = 0 ∧ stop % 4096 = 0)
    (hstrict : ∀ i, (vmas i).Meets addr stop → ¬ (vmas i).Strict addr stop) :
    VmaCut L addr stop vmas
      (fun i => if (vmas i).Meets addr stop then (vmas i).trim addr stop else vmas i) := by
  refine ⟨h.shrink ?_ ?_, ?_⟩
  · intro i hused
    by_cases hmeet : (vmas i).Meets addr stop
    · simp only [if_pos hmeet] at hused ⊢
      right
      obtain ⟨hwin, hpos, hlt⟩ := h.meets_window hbase hend hmeet
      obtain ⟨hs, he, hne⟩ := h.aligned hmeet.1
      obtain ⟨hu, hrange⟩ := hmeet
      obtain ⟨hprot, hpart⟩ := Vma.trim_cases hused
      refine ⟨hu, hwin, hpos, hlt, hprot, ?_⟩
      omega
    · exact .inl (if_neg hmeet)
  · intro i hstd
    refine if_neg fun hmeet => ?_
    obtain ⟨-, hlt, hlo, hhi⟩ := hmeet
    have := (standardVmas_outside hstd).2
    omega
  · intro j vpn hcov hout
    by_cases hmeet : (vmas j).Meets addr stop
    · refine ⟨j, ?_⟩
      rw [if_pos hmeet]
      exact hcov.trim (hstrict j hmeet) hout
    · refine ⟨j, ?_⟩
      rw [if_neg hmeet]
      exact ⟨hcov, rfl⟩

/-- A VMA strictly around the range is split in two. -/
theorem VmaInv.cut_split (h : VmaInv L vmas) (hbase : userMmapBase ≤ addr)
    (hend : stop ≤ userMmapEnd) (halign : addr % 4096 = 0 ∧ stop % 4096 = 0)
    {i j : Fin procVmaMax} (hmeet : (vmas i).Meets addr stop) (hstrict : (vmas i).Strict addr stop)
    (hfree : (vmas j).used = false) :
    VmaCut L addr stop vmas
      (Function.update (Function.update vmas j ⟨true, stop, (vmas i).stop, (vmas i).prot⟩) i
        { vmas i with stop := addr }) := by
  obtain ⟨hwin, hpos, hlt⟩ := h.meets_window hbase hend hmeet
  obtain ⟨hs, he, hne⟩ := h.aligned hmeet.1
  obtain ⟨hused, hrange, -, -⟩ := hmeet
  obtain ⟨hleft, hright⟩ := hstrict
  have hij : i ≠ j := by
    rintro rfl
    rw [hused] at hfree
    cases hfree
  rw [Function.update_comm hij.symm]
  have hshrink : VmaInv L (Function.update vmas i { vmas i with stop := addr }) := by
    refine h.shrink (fun {k} hk => ?_) (fun {k} hstd => ?_)
    · by_cases hki : k = i
      · subst hki
        rw [Function.update_self]
        exact .inr ⟨hused, hwin, hpos, hlt, rfl, le_rfl, by simp only; omega, hs, halign.1, hleft⟩
      · exact .inl (Function.update_of_ne hki _ _)
    · refine Function.update_of_ne ?_ _ _
      rintro rfl
      have := (standardVmas_outside hstd).2
      simp only [Vma.inWindow, Bool.and_eq_true, decide_eq_true_eq] at hwin
      omega
  refine ⟨hshrink.add ?_ ⟨halign.2, he⟩ hright ⟨?_, hpos, hlt⟩ ?_, ?_⟩
  · rw [Function.update_of_ne hij.symm]
    exact hfree
  · simp only [Vma.inWindow, Bool.and_eq_true, decide_eq_true_eq] at hwin ⊢
    omega
  · intro k hk
    by_cases hki : k = i
    · subst hki
      rw [Function.update_self]
      right
      simp only
      omega
    · rw [Function.update_of_ne hki] at hk ⊢
      have := h.disjoint hki hk hused
      simp only
      omega
  · intro k vpn hcov hout
    by_cases hki : k = i
    · subst hki
      obtain ⟨-, hlo, hhi⟩ := hcov
      by_cases hbelow : vpn * 4096 < addr
      · refine ⟨k, ?_⟩
        rw [Function.update_of_ne hij, Function.update_self]
        exact ⟨⟨hused, hlo, hbelow⟩, rfl⟩
      · refine ⟨j, ?_⟩
        rw [Function.update_self]
        exact ⟨⟨rfl, by simp only; omega, hhi⟩, rfl⟩
    · have hkj : k ≠ j := by
        rintro rfl
        rw [hcov.1] at hfree
        cases hfree
      refine ⟨k, ?_⟩
      rw [Function.update_of_ne hkj, Function.update_of_ne hki]
      exact ⟨hcov, rfl⟩

/-- With a VMA strictly around the range, that VMA is split and nothing else
happens. -/
theorem cutVmas_split {changed : Bool} (hle : addr ≤ stop) {i : Fin procVmaMax}
    (hmeet : (vmas i).Meets addr stop) (hstrict : (vmas i).Strict addr stop)
    (hother : ∀ j, j ≠ i → ¬ (vmas j).Meets addr stop) (slots : List (Fin procVmaMax))
    (hi : i ∈ slots) :
    cutVmas addr stop slots (vmas, changed) =
      match procFindFreeVmaSlot vmas with
      | none => (false, vmas, true)
      | some j => (true, Function.update
          (Function.update vmas j ⟨true, stop, (vmas i).stop, (vmas i).prot⟩) i
          { vmas i with stop := addr }, true) := by
  induction slots with
  | nil => cases hi
  | cons k rest ih =>
      rw [cutVmas]
      by_cases hk : k = i
      · subst hk
        rw [cutVma_split hmeet hstrict]
        cases hslot : procFindFreeVmaSlot vmas with
        | none => rfl
        | some j =>
            refine cutVmas_skip hle rest fun m _ hm => ?_
            obtain ⟨hused, hlt, hlo, hhi⟩ := hm
            by_cases hmk : m = k
            · rw [hmk, Function.update_self] at hhi
              simp only at hhi
              omega
            · by_cases hmj : m = j
              · rw [Function.update_of_ne hmk, hmj, Function.update_self] at hlo
                simp only at hlo
                omega
              · rw [Function.update_of_ne hmk, Function.update_of_ne hmj] at hused hlo hhi
                exact hother m hmk ⟨hused, hlt, hlo, hhi⟩
      · rw [cutVma_skip hle (hother k hk)]
        exact ih ((List.mem_cons.mp hi).resolve_left (Ne.symm hk))

/-- The array after the VMA in slot `i` is split around the range; its upper part
goes to slot `j`. -/
def splitVmas (vmas : Vmas) (i j : Fin procVmaMax) (addr stop : Nat) : Vmas :=
  Function.update (Function.update vmas j ⟨true, stop, (vmas i).stop, (vmas i).prot⟩) i
    { vmas i with stop := addr }

/-- The array after every VMA the range meets is cut by itself. -/
def trimVmas (vmas : Vmas) (addr stop : Nat) : Vmas :=
  fun i => if (vmas i).Meets addr stop then (vmas i).trim addr stop else vmas i

/-- How the loop of `proc_munmap` over the VMAs can end. -/
inductive CutCase (addr stop : Nat) (vmas : Vmas) : Bool × Vmas × Bool → Prop
  /-- A VMA strictly around the range and no slot for its upper part. -/
  | full {i} (hmeet : (vmas i).Meets addr stop) (hstrict : (vmas i).Strict addr stop)
      (hslot : procFindFreeVmaSlot vmas = none) : CutCase addr stop vmas (false, vmas, true)
  | split {i j} (hmeet : (vmas i).Meets addr stop) (hstrict : (vmas i).Strict addr stop)
      (hslot : procFindFreeVmaSlot vmas = some j) :
      CutCase addr stop vmas (true, splitVmas vmas i j addr stop, true)
  | trim {changed} (hstrict : ∀ i, (vmas i).Meets addr stop → ¬ (vmas i).Strict addr stop)
      (hnone : changed = false ↔ ∀ i, ¬ (vmas i).Meets addr stop) :
      CutCase addr stop vmas (true, trimVmas vmas addr stop, changed)

/-- Cutting where nothing meets the range changes nothing. -/
theorem trimVmas_of_not_meets (hnone : ∀ i, ¬ (vmas i).Meets addr stop) :
    trimVmas vmas addr stop = vmas := by
  funext i
  unfold trimVmas
  rw [if_neg (hnone i)]

/-- The loop of `proc_munmap` over the VMAs.  A VMA strictly around the range is
the only one that meets it. -/
theorem cutVmas_cases (h : VmaInv L vmas) (hle : addr ≤ stop) :
    CutCase addr stop vmas (cutVmas addr stop (List.finRange procVmaMax) (vmas, false)) := by
  by_cases hsplit : ∃ i, (vmas i).Meets addr stop ∧ (vmas i).Strict addr stop
  · obtain ⟨i, hmeet, hstrict⟩ := hsplit
    -- Nothing else meets the range, before or after the split.
    have hother : ∀ j, j ≠ i → ¬ (vmas j).Meets addr stop := by
      rintro j hji ⟨hused, hlt, hlo, hhi⟩
      have := h.disjoint hji hused hmeet.1
      obtain ⟨hleft, hright⟩ := hstrict
      omega
    rw [cutVmas_split hle hmeet hstrict hother _ (List.mem_finRange i)]
    cases hslot : procFindFreeVmaSlot vmas with
    | none => exact .full hmeet hstrict hslot
    | some j => exact .split hmeet hstrict hslot
  · have hnot : ∀ i, (vmas i).Meets addr stop → ¬ (vmas i).Strict addr stop :=
      fun i hmeet hstrict => hsplit ⟨i, hmeet, hstrict⟩
    obtain ⟨changed', htrim, hnone⟩ := cutVmas_trim hle (List.finRange procVmaMax)
      (List.nodup_finRange _) fun i _ hmeet => ⟨(h.aligned hmeet.1).2.2, hnot i hmeet⟩
    rw [htrim]
    have htable : (fun i => if i ∈ List.finRange procVmaMax ∧ (vmas i).Meets addr stop then
        (vmas i).trim addr stop else vmas i) = trimVmas vmas addr stop := by
      funext i
      unfold trimVmas
      simp only [List.mem_finRange, true_and]
    rw [htable]
    refine .trim hnot ⟨fun hc i => (hnone hc).2 i (List.mem_finRange i), fun hquiet => ?_⟩
    have hskip : cutVmas addr stop (List.finRange procVmaMax) (vmas, false) = (true, vmas, false) :=
      cutVmas_skip hle _ fun i _ => hquiet i
    exact congrArg (fun out => out.2.2) (htrim.symm.trans hskip)

/-- What is left of a VMA after a cut lies outside the range. -/
theorem Vma.trim_covers {v : Vma} {vpn : Nat} (h : (v.trim addr stop).Covers vpn)
    (hmeet : v.Meets addr stop) :
    v.Covers vpn ∧ (v.trim addr stop).prot = v.prot ∧
      ¬ (addr ≤ vpn * 4096 ∧ vpn * 4096 < stop) := by
  obtain ⟨hused, hlo, hhi⟩ := h
  obtain ⟨hu, hne, hstart, hstop⟩ := hmeet
  obtain ⟨hprot, hpart⟩ := Vma.trim_cases hused
  refine ⟨⟨hu, ?_, ?_⟩, hprot, ?_⟩ <;> omega

/-- Every page of the trimmed array had its VMA before and lies outside the range. -/
theorem trimVmas_covers {j : Fin procVmaMax} {vpn : Nat}
    (hcov : (trimVmas vmas addr stop j).Covers vpn) :
    (vmas j).Covers vpn ∧ (trimVmas vmas addr stop j).prot = (vmas j).prot ∧
      ¬ (addr ≤ vpn * 4096 ∧ vpn * 4096 < stop) := by
  unfold trimVmas at hcov ⊢
  by_cases hmeet : (vmas j).Meets addr stop
  · rw [if_pos hmeet] at hcov ⊢
    exact Vma.trim_covers hcov hmeet
  · rw [if_neg hmeet] at hcov ⊢
    refine ⟨hcov, rfl, fun hin => hmeet ?_⟩
    obtain ⟨hused, hlo, hhi⟩ := hcov
    exact ⟨hused, by omega, by omega, by omega⟩

/-- The same for a split. -/
theorem splitVmas_covers {i j k : Fin procVmaMax} {vpn : Nat} (h : VmaInv L vmas)
    (hmeet : (vmas i).Meets addr stop) (hstrict : (vmas i).Strict addr stop)
    (hfree : (vmas j).used = false) (hcov : (splitVmas vmas i j addr stop k).Covers vpn) :
    (∃ k', (vmas k').Covers vpn ∧ (vmas k').prot = (splitVmas vmas i j addr stop k).prot) ∧
      ¬ (addr ≤ vpn * 4096 ∧ vpn * 4096 < stop) := by
  obtain ⟨hused, hne, hlo, hhi⟩ := hmeet
  obtain ⟨hleft, hright⟩ := hstrict
  unfold splitVmas at hcov ⊢
  by_cases hki : k = i
  · subst hki
    rw [Function.update_self] at hcov ⊢
    obtain ⟨-, hstart, hstop⟩ := hcov
    dsimp only at hstart hstop
    exact ⟨⟨k, ⟨hused, hstart, by omega⟩, rfl⟩, by omega⟩
  · rw [Function.update_of_ne hki] at hcov ⊢
    by_cases hkj : k = j
    · subst hkj
      rw [Function.update_self] at hcov ⊢
      obtain ⟨-, hstart, hstop⟩ := hcov
      dsimp only at hstart hstop
      exact ⟨⟨i, ⟨hused, by omega, hstop⟩, rfl⟩, by omega⟩
    · rw [Function.update_of_ne hkj] at hcov ⊢
      refine ⟨⟨k, hcov, rfl⟩, ?_⟩
      obtain ⟨hu, hstart, hstop⟩ := hcov
      have := h.disjoint hki hu hused
      omega

/-! ## The map of protections -/

/-- The protection the VMAs give an address. -/
def protMap (vmas : Vmas) (addr : Nat) : Option Nat :=
  (procFindVmaIndex vmas addr).map fun i => (vmas i).prot

/-- A map with the addresses of a range taken out. -/
def without {α : Type} (m : Nat → Option α) (addr stop : Nat) : Nat → Option α :=
  fun a => if addr ≤ a ∧ a < stop then none else m a

/-- VMAs begin and end on page boundaries. -/
theorem VmaInv.covers_addr (h : VmaInv L vmas) {j : Fin procVmaMax} {a : Nat} :
    (vmas j).Covers (a / 4096) ↔
      (vmas j).used = true ∧ (vmas j).start ≤ a ∧ a < (vmas j).stop := by
  unfold Vma.Covers
  refine and_congr_right fun hused => ?_
  obtain ⟨hstart, hstop, -⟩ := h.aligned hused
  omega

/-- The map gives an address the protection of the one VMA that holds it. -/
theorem VmaInv.protMap_eq_some (h : VmaInv L vmas) {a p : Nat} :
    protMap vmas a = some p ↔ ∃ j, (vmas j).Covers (a / 4096) ∧ (vmas j).prot = p := by
  unfold protMap
  rw [Option.map_eq_some_iff]
  constructor
  · rintro ⟨j, hfind, rfl⟩
    exact ⟨j, h.covers_addr.mpr (procFindVmaIndex_some hfind), rfl⟩
  · rintro ⟨j, hcov, rfl⟩
    cases hfind : procFindVmaIndex vmas a with
    | none =>
        obtain ⟨hused, hlo, hhi⟩ := h.covers_addr.mp hcov
        have hno := List.find?_eq_none.mp hfind j (List.mem_finRange j)
        simp [hused, hlo, hhi] at hno
    | some j' =>
        have hcov' := h.covers_addr.mpr (procFindVmaIndex_some hfind)
        rw [h.covers_unique hcov hcov']
        exact ⟨j', rfl, rfl⟩

/-- A VMA has no address in a range without protections. -/
theorem VmaInv.clear_of_protMap (h : VmaInv L vmas) (hlt : addr < stop)
    (hnone : ∀ a, addr ≤ a → a < stop → protMap vmas a = none) {j : Fin procVmaMax}
    (hused : (vmas j).used = true) : stop ≤ (vmas j).start ∨ (vmas j).stop ≤ addr := by
  by_contra hmeet
  rw [not_or, Nat.not_le, Nat.not_le] at hmeet
  have hnonempty := (h.aligned hused).2.2
  have hin : addr ≤ max addr (vmas j).start ∧ max addr (vmas j).start < stop ∧
      (vmas j).start ≤ max addr (vmas j).start ∧ max addr (vmas j).start < (vmas j).stop := by omega
  have hcov := h.covers_addr.mpr ⟨hused, hin.2.2⟩
  have hprot := h.protMap_eq_some.mpr ⟨j, hcov, rfl⟩
  rw [hnone _ hin.1 hin.2.1] at hprot
  cases hprot

/-- If exactly the pages outside the range keep their VMA, the map is the old one
without the range. -/
theorem VmaCut.protMap (h : VmaInv L vmas) (hcut : VmaCut L addr stop vmas vmas')
    (halign : addr % 4096 = 0 ∧ stop % 4096 = 0)
    (honly : ∀ {j vpn}, (vmas' j).Covers vpn →
      (∃ k, (vmas k).Covers vpn ∧ (vmas k).prot = (vmas' j).prot) ∧
        ¬ (addr ≤ vpn * 4096 ∧ vpn * 4096 < stop)) :
    protMap vmas' = without (protMap vmas) addr stop := by
  have hpage : ∀ a, (addr ≤ a ∧ a < stop) ↔
      (addr ≤ a / 4096 * 4096 ∧ a / 4096 * 4096 < stop) := by
    intro a
    omega
  funext a
  apply Option.ext
  intro p
  unfold without
  rw [hcut.inv.protMap_eq_some]
  by_cases hin : addr ≤ a ∧ a < stop
  · rw [if_pos hin]
    constructor
    · rintro ⟨j, hcov, -⟩
      exact absurd ((hpage a).mp hin) (honly hcov).2
    · intro hnone
      cases hnone
  · rw [if_neg hin, h.protMap_eq_some]
    constructor
    · rintro ⟨j, hcov, rfl⟩
      exact (honly hcov).1
    · rintro ⟨j, hcov, rfl⟩
      exact hcut.keep hcov (mt (hpage a).mpr hin)

/-- The loop of `proc_munmap` subtracts the range from the map. -/
theorem CutCase.subtracts {changed : Bool} (h : VmaInv L vmas) (hbase : userMmapBase ≤ addr)
    (hend : stop ≤ userMmapEnd) (halign : addr % 4096 = 0 ∧ stop % 4096 = 0)
    (hcases : CutCase addr stop vmas (true, vmas', changed)) :
    VmaCut L addr stop vmas vmas' ∧ protMap vmas' = without (protMap vmas) addr stop := by
  cases hcases with
  | split hmeet hstrict hslot =>
      have hfree := procFindFreeVmaSlot_some hslot
      have hcut := h.cut_split hbase hend halign hmeet hstrict hfree
      exact ⟨hcut, hcut.protMap h halign (splitVmas_covers h hmeet hstrict hfree)⟩
  | trim hstrict hnone =>
      have hcut : VmaCut L addr stop vmas (trimVmas vmas addr stop) :=
        h.cut_trim hbase hend halign hstrict
      refine ⟨hcut, hcut.protMap h halign fun {j vpn} hcov => ?_⟩
      obtain ⟨hold, hprot, hout⟩ := trimVmas_covers hcov
      exact ⟨⟨j, hold, hprot.symm⟩, hout⟩

/-! ## Finding a place -/

theorem VmaInv.stop_lt (h : VmaInv L vmas) {i : Fin procVmaMax} (hused : (vmas i).used = true) :
    pageCeil (vmas i).stop = (vmas i).stop := by
  obtain ⟨h₀, h₁, h₂, h₃, h₄, h₅, h₆, h₇, h₈, h₉, h₁₀⟩ := Layout.order (L := L)
  refine pageCeil_of_aligned (h.aligned hused).2.1 ?_
  rcases h.place hused with ⟨hwin, -⟩ | hstd
  · simp only [Vma.inWindow, userMmapBase, userMmapEnd, Bool.and_eq_true,
      decide_eq_true_eq] at hwin
    omega
  · simp only [standardVmas, List.mem_cons, List.not_mem_nil, or_false] at hstd
    rcases hstd with hv | hv | hv | hv | hv <;> rw [hv] <;> simp only <;> omega

/-- The search goes on behind the VMA in the way. -/
theorem VmaInv.firstOverlap_next (h : VmaInv L vmas) {i : Fin procVmaMax}
    (hfirst : firstOverlap vmas addr stop = some i) : addr < pageCeil (vmas i).stop := by
  have := List.find?_some hfirst
  simp only [Bool.and_eq_true, decide_eq_true_eq] at this
  rw [h.stop_lt this.1.1]
  exact this.1.2

theorem findFreeLoop_succ (len turns addr : Nat) :
    findFreeLoop vmas len (turns + 1) addr =
      if addr ≤ u32 (addr + len) ∧ u32 (addr + len) ≤ userMmapEnd then
        match firstOverlap vmas addr (u32 (addr + len)) with
        | some i => findFreeLoop vmas len turns (pageCeil (vmas i).stop)
        | none => some addr
      else none := rfl

/-- A place found lies behind the start of the search and inside the window. -/
theorem findFreeLoop_some (h : VmaInv L vmas) {len : Nat} (turns addr : Nat) {found : Nat}
    (hfound : findFreeLoop vmas len turns addr = some found) :
    addr ≤ found ∧ u32 (found + len) ≤ userMmapEnd := by
  induction turns generalizing addr with
  | zero => cases hfound
  | succ turns ih =>
      rw [findFreeLoop_succ] at hfound
      split at hfound
      · rename_i hroom
        cases hfirst : firstOverlap vmas addr (u32 (addr + len)) with
        | none =>
            rw [hfirst] at hfound
            rw [← Option.some.inj hfound]
            exact ⟨le_rfl, hroom.2⟩
        | some i =>
            rw [hfirst] at hfound
            have hnext := h.firstOverlap_next hfirst
            obtain ⟨hle, hend⟩ := ih _ hfound
            exact ⟨by omega, hend⟩
      · cases hfound

/-- The search ends by itself: more turns than the window has bytes change
nothing. -/
theorem findFreeLoop_enough (h : VmaInv L vmas) {len : Nat} (turns addr : Nat)
    (hturns : userMmapEnd < addr + turns) :
    findFreeLoop vmas len (turns + 1) addr = findFreeLoop vmas len turns addr := by
  induction turns generalizing addr with
  | zero =>
      rw [findFreeLoop_succ]
      exact if_neg (by omega)
  | succ turns ih =>
      rw [findFreeLoop_succ, findFreeLoop_succ]
      split
      · cases hfirst : firstOverlap vmas addr (u32 (addr + len)) with
        | none => rfl
        | some i =>
            have hnext := h.firstOverlap_next hfirst
            exact ih _ (by omega)
      · rfl

/-! ## The fixed VMAs -/

/-- Two VMAs have no page in common. -/
def Vma.Clear (v w : Vma) : Prop :=
  v.start < v.stop → w.start < w.stop → v.stop ≤ w.start ∨ w.stop ≤ v.start

instance : Std.Symm Vma.Clear where
  symm _ _ h hv hw := (h hw hv).symm

/-- The used slots hold the non-empty VMAs of a list, each in one slot. -/
structure Filled (done : List Vma) (vmas : Vmas) : Prop where
  mem : ∀ {i}, (vmas i).used = true → vmas i ∈ done ∧ (vmas i).start < (vmas i).stop
  all : ∀ {v}, v ∈ done → v.start < v.stop → ∃ i, (vmas i).used = true ∧ vmas i = v
  distinct : ∀ {i j}, (vmas i).used = true → vmas i = vmas j → i = j

theorem Filled.empty : Filled [] fun _ => .zero := by
  refine ⟨?_, ?_, ?_⟩
  · intro i hused
    cases hused
  · intro v hv
    cases hv
  · intro i j hused
    cases hused

theorem Filled.skip {done : List Vma} (h : Filled done vmas) {v : Vma}
    (hempty : ¬ v.start < v.stop) : Filled (done ++ [v]) vmas := by
  refine ⟨?_, ?_, h.distinct⟩
  · intro i hused
    obtain ⟨hmem, hlt⟩ := h.mem hused
    exact ⟨by simp [hmem], hlt⟩
  · intro w hw hlt
    rcases List.mem_append.mp hw with hw | hw
    · exact h.all hw hlt
    · rw [List.mem_singleton.mp hw] at hlt
      exact absurd hlt hempty

/-- A short list leaves a slot free. -/
theorem Filled.slot {done : List Vma} (h : Filled done vmas) (hroom : done.length < procVmaMax) :
    ∃ i, procFindFreeVmaSlot vmas = some i := by
  rw [← Option.isSome_iff_exists, Option.isSome_iff_ne_none]
  intro hnone
  have hused : ∀ i, (vmas i).used = true := by
    intro i
    have := List.find?_eq_none.mp hnone i (List.mem_finRange i)
    simpa using this
  have hnodup : ((List.finRange procVmaMax).map vmas).Nodup :=
    (List.nodup_finRange procVmaMax).map fun i j heq => h.distinct (hused i) heq
  have hsub : (List.finRange procVmaMax).map vmas ⊆ done := by
    intro v hv
    obtain ⟨i, -, rfl⟩ := List.mem_map.mp hv
    exact (h.mem (hused i)).1
  have := (hnodup.subperm hsub).length_le
  simp only [List.length_map, List.length_finRange] at this
  omega

/-- `proc_add_vma` of the next VMA of the list. -/
theorem Filled.step {done : List Vma} (h : Filled done vmas) {v : Vma} (hused : v.used = true)
    (halign : v.start % 4096 = 0 ∧ v.stop % 4096 = 0) (hlt : v.start < v.stop)
    (hroom : done.length < procVmaMax) (hclear : ∀ w ∈ done, w.Clear v) :
    ∃ vmas', procAddVma vmas v.start v.stop v.prot = some vmas' ∧ Filled (done ++ [v]) vmas' := by
  have hapart : ∀ {i}, (vmas i).used = true → v.stop ≤ (vmas i).start ∨ (vmas i).stop ≤ v.start := by
    intro i hi
    obtain ⟨hmem, hne⟩ := h.mem hi
    exact (hclear _ hmem hne hlt).symm
  have hover : overlapsAny vmas v.start v.stop = false := by
    rw [overlapsAny, List.any_eq_false]
    intro i _
    by_cases hi : (vmas i).used = true
    · simp only [hi, Bool.true_and, Bool.not_eq_true', Bool.not_eq_false, Bool.or_eq_true,
        decide_eq_true_eq]
      exact hapart hi
    · simp [hi]
  obtain ⟨i, hslot⟩ := h.slot hroom
  have hfree := procFindFreeVmaSlot_some hslot
  have hv : (⟨true, v.start, v.stop, v.prot⟩ : Vma) = v := by
    rw [← hused]
  refine ⟨Function.update vmas i v, ?_, ?_, ?_, ?_⟩
  · unfold procAddVma
    rw [if_neg (by omega), if_neg (by simp [isAligned_iff, halign]), hover, hslot, hv]
    rfl
  · intro j hj
    by_cases hji : j = i
    · rw [hji, Function.update_self]
      exact ⟨by simp, hlt⟩
    · rw [Function.update_of_ne hji] at hj ⊢
      obtain ⟨hmem, hne⟩ := h.mem hj
      exact ⟨by simp [hmem], hne⟩
  · intro w hw hne
    rcases List.mem_append.mp hw with hw | hw
    · obtain ⟨j, hj, rfl⟩ := h.all hw hne
      have hji : j ≠ i := by
        rintro rfl
        rw [hj] at hfree
        cases hfree
      refine ⟨j, ?_⟩
      rw [Function.update_of_ne hji]
      exact ⟨hj, rfl⟩
    · refine ⟨i, ?_⟩
      rw [Function.update_self, List.mem_singleton.mp hw]
      exact ⟨hused, rfl⟩
  · intro j k hj heq
    by_cases hji : j = i
    · rw [hji, Function.update_self] at heq
      by_contra hne
      rw [hji, eq_comm] at hne
      rw [Function.update_of_ne hne] at heq
      have := hapart (i := k) (by rw [← heq]; exact hused)
      rw [← heq] at this
      omega
    · rw [Function.update_of_ne hji] at hj heq
      by_cases hki : k = i
      · rw [hki, Function.update_self] at heq
        have := hapart hj
        rw [heq] at this
        omega
      · rw [Function.update_of_ne hki] at heq
        exact h.distinct hj heq

/-- The lines of `proc_vm_init` add every non-empty VMA of the list. -/
theorem addFixedVmas_spec (todo done : List Vma) (h : Filled done vmas)
    (hgood : ∀ v ∈ todo, v.used = true ∧ v.start % 4096 = 0 ∧ v.stop % 4096 = 0)
    (hclear : (done ++ todo).Pairwise Vma.Clear) (hroom : (done ++ todo).length ≤ procVmaMax) :
    ∃ vmas', addFixedVmas todo vmas = (true, vmas') ∧ Filled (done ++ todo) vmas' := by
  induction todo generalizing done vmas with
  | nil => exact ⟨vmas, rfl, by rw [List.append_nil]; exact h⟩
  | cons v rest ih =>
      obtain ⟨hused, halign⟩ := hgood v (by simp)
      have hrest : ∀ w ∈ rest, w.used = true ∧ w.start % 4096 = 0 ∧ w.stop % 4096 = 0 :=
        fun w hw => hgood w (by simp [hw])
      have happend : done ++ v :: rest = (done ++ [v]) ++ rest := by simp
      rw [happend] at hclear hroom ⊢
      by_cases hlt : v.start < v.stop
      · obtain ⟨vmas₁, hadd, h₁⟩ := h.step hused halign hlt (by simp at hroom ⊢; omega)
          (fun w hw => ((List.pairwise_append.mp (List.pairwise_append.mp hclear).1).2.2 w hw v
            (by simp)))
        obtain ⟨vmas₂, hrun, h₂⟩ := ih (done ++ [v]) h₁ hrest hclear hroom
        refine ⟨vmas₂, ?_, h₂⟩
        rw [addFixedVmas, if_pos hlt, hadd]
        exact hrun
      · obtain ⟨vmas₂, hrun, h₂⟩ := ih (done ++ [v]) (h.skip hlt) hrest hclear hroom
        refine ⟨vmas₂, ?_, h₂⟩
        rw [addFixedVmas, if_neg hlt]
        exact hrun

theorem fixedVmas_eq {proc : Process} (hbase : proc.userStackBase = 0x3fffe000)
    (hpages : proc.userStackPages = 2) : fixedVmas L proc = standardVmas L := by
  obtain ⟨h₀, h₁, h₂, h₃, h₄, h₅, h₆, h₇, h₈, h₉, h₁₀⟩ := Layout.order (L := L)
  unfold fixedVmas standardVmas
  rw [pageFloor_of_aligned L.userTextStart_aligned, pageFloor_of_aligned L.userRodataStart_aligned,
    pageFloor_of_aligned L.userDataStart_aligned, pageFloor_of_aligned L.userBssStart_aligned,
    pageCeil_of_aligned L.userTextEnd_aligned (by omega),
    pageCeil_of_aligned L.userRodataEnd_aligned (by omega),
    pageCeil_of_aligned L.userDataEnd_aligned (by omega),
    pageCeil_of_aligned L.userBssEnd_aligned (by omega), hbase, hpages]
  rfl

theorem standardVmas_good {v : Vma} (h : v ∈ standardVmas L) :
    v.used = true ∧ v.start % 4096 = 0 ∧ v.stop % 4096 = 0 := by
  simp only [standardVmas, List.mem_cons, List.not_mem_nil, or_false] at h
  rcases h with rfl | rfl | rfl | rfl | rfl
  · exact ⟨rfl, L.userTextStart_aligned, L.userTextEnd_aligned⟩
  · exact ⟨rfl, L.userRodataStart_aligned, L.userRodataEnd_aligned⟩
  · exact ⟨rfl, L.userDataStart_aligned, L.userDataEnd_aligned⟩
  · exact ⟨rfl, L.userBssStart_aligned, L.userBssEnd_aligned⟩
  · exact ⟨rfl, rfl, rfl⟩

theorem standardVmas_clear : (standardVmas L).Pairwise Vma.Clear := by
  obtain ⟨h₀, h₁, h₂, h₃, h₄, h₅, h₆, h₇, h₈, h₉, h₁₀⟩ := Layout.order (L := L)
  simp only [standardVmas, List.pairwise_cons, List.mem_cons, List.not_mem_nil, or_false,
    forall_eq_or_imp, forall_eq, Vma.Clear, List.Pairwise.nil, and_true, false_imp_iff,
    implies_true]
  omega

/-- `proc_vm_init` succeeds and leaves the standard VMAs only. -/
theorem procVmInit_spec {proc : Process} (hbase : proc.userStackBase = 0x3fffe000)
    (hpages : proc.userStackPages = 2) :
    ∃ v, procVmInit L proc = (true, { proc with vmas := v }) ∧ VmaInv L v ∧
      ∀ {i}, (v i).used = true → v i ∈ standardVmas L := by
  obtain ⟨v, hrun, hfilled⟩ := addFixedVmas_spec (standardVmas L) [] Filled.empty
    (fun _ => standardVmas_good) standardVmas_clear (show 5 ≤ 16 by decide)
  rw [List.nil_append] at hfilled
  refine ⟨v, ?_, ⟨?_, ?_, ?_, ?_⟩, fun hused => (hfilled.mem hused).1⟩
  · unfold procVmInit
    rw [fixedVmas_eq hbase hpages, hrun]
  · intro i hused
    obtain ⟨hmem, hlt⟩ := hfilled.mem hused
    obtain ⟨-, hs, he⟩ := standardVmas_good hmem
    exact ⟨hs, he, hlt⟩
  · intro i j hne hi hj
    obtain ⟨hmi, hlti⟩ := hfilled.mem hi
    obtain ⟨hmj, hltj⟩ := hfilled.mem hj
    have hdiff : v i ≠ v j := fun heq => hne (hfilled.distinct hi heq)
    exact standardVmas_clear.forall hmi hmj hdiff hlti hltj
  · intro i hused
    exact .inr (hfilled.mem hused).1
  · intro w hw hlt
    obtain ⟨i, -, hi⟩ := hfilled.all hw hlt
    exact ⟨i, hi⟩

end Sugimotos.Proc
