/-
# What the range functions decide

The check of a range, the search for a gap, and the lengths that `mmap` and `munmap`
round up, all said of the ranges of integers that the arguments name.  The two loops
hop from VMA to VMA through an array in no order; a hop never goes back, and the VMAs
of a process are disjoint.
-/

import Sugimotos.Math.Loop
import Sugimotos.Proc.Mmap
import Mathlib.Order.Bounds.Basic

namespace Sugimotos.Proc

open Sugimotos.Math Sugimotos.Mm

variable {L : Layout} {k : Kernel} {i : Fin procMax} {vmas : Vmas}

/-! ## Checking a range -/

/-- The VMA holds the address and its protection has all of `need`. -/
def Vma.Allows (need a : Nat) (v : Vma) : Prop :=
  v.used = true ∧ (v.start ≤ a ∧ a < v.stop) ∧ v.prot &&& need = need

/-- A turn of the loop of `proc_vma_range_ok`. -/
def vmaRangeTurn (vmas : Vmas) (stop protNeed cur : Nat) : Nat ⊕ Bool :=
  if cur < stop then
    match procFindVmaIndex vmas cur with
    | none => .inr false
    | some i =>
        if (vmas i).prot &&& protNeed ≠ protNeed then .inr false
        else if stop ≤ (vmas i).stop then .inr true
        else .inl (vmas i).stop
  else .inr true

theorem procFindVmaIndex_hole {a : Nat} (h : procFindVmaIndex vmas a = none) (j : Fin procVmaMax)
    (hused : (vmas j).used = true) : ¬ ((vmas j).start ≤ a ∧ a < (vmas j).stop) := by
  intro hin
  have hno := List.find?_eq_none.mp h j (List.mem_finRange j)
  rw [hused, decide_eq_true hin.1, decide_eq_true hin.2] at hno
  exact hno rfl

/-- How a turn ends. -/
inductive RangeTurn (vmas : Vmas) (stop need cur : Nat) : Nat ⊕ Bool → Prop
  | passed (hcur : stop ≤ cur) : RangeTurn vmas stop need cur (.inr true)
  | hole (hcur : cur < stop) (hnone : procFindVmaIndex vmas cur = none) :
      RangeTurn vmas stop need cur (.inr false)
  | refused {j} (hcur : cur < stop) (hfind : procFindVmaIndex vmas cur = some j)
      (hprot : (vmas j).prot &&& need ≠ need) : RangeTurn vmas stop need cur (.inr false)
  | reached {j} (hcur : cur < stop) (hfind : procFindVmaIndex vmas cur = some j)
      (hprot : (vmas j).prot &&& need = need) (hend : stop ≤ (vmas j).stop) :
      RangeTurn vmas stop need cur (.inr true)
  | hop {j} (hcur : cur < stop) (hfind : procFindVmaIndex vmas cur = some j)
      (hprot : (vmas j).prot &&& need = need) (hend : (vmas j).stop < stop) :
      RangeTurn vmas stop need cur (.inl (vmas j).stop)

theorem vmaRangeTurn_cases (vmas : Vmas) (stop need cur : Nat) :
    RangeTurn vmas stop need cur (vmaRangeTurn vmas stop need cur) := by
  unfold vmaRangeTurn
  by_cases hcur : cur < stop
  · rw [if_pos hcur]
    cases hfind : procFindVmaIndex vmas cur with
    | none => exact .hole hcur hfind
    | some j =>
        dsimp only
        by_cases hprot : (vmas j).prot &&& need ≠ need
        · rw [if_pos hprot]
          exact .refused hcur hfind hprot
        · rw [if_neg hprot]
          rw [not_not] at hprot
          by_cases hend : stop ≤ (vmas j).stop
          · rw [if_pos hend]
            exact .reached hcur hfind hprot hend
          · rw [if_neg hend]
            exact .hop hcur hfind hprot (Nat.lt_of_not_le hend)
  · rw [if_neg hcur]
    exact .passed (Nat.le_of_not_lt hcur)

/-- The loop comes to its end, and with `stop - cur` turns at the latest. -/
theorem vmaRangeLoop_returns (vmas : Vmas) (stop need : Nat) {turns cur : Nat}
    (hturns : stop - cur ≤ turns) :
    Returns (vmaRangeTurn vmas stop need) cur (vmaRangeLoop vmas stop need turns cur) := by
  apply Returns.of_bounded (fun _ => True) (fun cur => stop - cur) _ _ _ trivial hturns
  · intro cur _ hrank
    exact if_neg (by omega)
  · intro n cur
    rw [vmaRangeLoop, vmaRangeTurn]
    by_cases hcur : cur < stop
    · rw [if_pos hcur, if_pos hcur]
      cases procFindVmaIndex vmas cur with
      | none => rfl
      | some j =>
          dsimp only
          split
          · rfl
          · split <;> rfl
    · rw [if_neg hcur, if_neg hcur]
      rfl
  · intro cur next _ hturn
    have hcases := vmaRangeTurn_cases vmas stop need cur
    rw [hturn] at hcases
    cases hcases with
    | hop hcur hfind hprot hend =>
        have hin := procFindVmaIndex_some hfind
        exact ⟨trivial, by omega⟩

/-- What the loop has seen so far allows the access. -/
structure RangeSeen (vmas : Vmas) (addr need cur : Nat) : Prop where
  le : addr ≤ cur
  allowed : ∀ a, addr ≤ a → a < cur → ∃ j, (vmas j).Allows need a

theorem RangeSeen.extend {addr need cur : Nat} (h : RangeSeen vmas addr need cur)
    {j : Fin procVmaMax} (hfind : procFindVmaIndex vmas cur = some j)
    (hprot : (vmas j).prot &&& need = need) : RangeSeen vmas addr need (vmas j).stop := by
  obtain ⟨hused, hlo, hhi⟩ := procFindVmaIndex_some hfind
  have hle := h.le
  refine ⟨by omega, ?_⟩
  intro a ha ha'
  by_cases hcur : a < cur
  · exact h.allowed a ha hcur
  · exact ⟨j, hused, ⟨by omega, ha'⟩, hprot⟩

/-- The loop says yes exactly when every address from `addr` to `stop` is allowed. -/
theorem vmaRange_exact (h : VmaInv L vmas) {addr stop need : Nat} {r : Bool}
    (hreturns : Returns (vmaRangeTurn vmas stop need) addr r) :
    r = true ↔ ∀ a, addr ≤ a → a < stop → ∃ j, (vmas j).Allows need a := by
  have hstart : RangeSeen vmas addr need addr := ⟨le_refl _, fun a ha ha' => by omega⟩
  apply hreturns.rule hstart
  · intro cur next hseen hturn
    have hcases := vmaRangeTurn_cases vmas stop need cur
    rw [hturn] at hcases
    cases hcases with
    | hop hcur hfind hprot hend => exact hseen.extend hfind hprot
  · intro cur r hseen hturn
    have hcases := vmaRangeTurn_cases vmas stop need cur
    rw [hturn] at hcases
    cases hcases with
    | passed hcur =>
        apply iff_of_true rfl
        intro a ha ha'
        exact hseen.allowed a ha (by omega)
    | hole hcur hnone =>
        apply iff_of_false Bool.false_ne_true
        intro hall
        obtain ⟨j, hused, hin, -⟩ := hall cur hseen.le hcur
        exact procFindVmaIndex_hole hnone j hused hin
    | @refused j hcur hfind hprot =>
        apply iff_of_false Bool.false_ne_true
        intro hall
        obtain ⟨j', hused', hin', hprot'⟩ := hall cur hseen.le hcur
        obtain ⟨hused, hlo, hhi⟩ := procFindVmaIndex_some hfind
        have hsame : j = j' := by
          by_contra hne
          cases h.disjoint hne hused hused' with
          | inl hbelow => omega
          | inr habove => omega
        rw [hsame] at hprot
        exact hprot hprot'
    | reached hcur hfind hprot hend =>
        apply iff_of_true rfl
        intro a ha ha'
        exact (hseen.extend hfind hprot).allowed a ha (by omega)

/-- `proc_vma_range_ok` comes to its end and says yes exactly when the range is not
empty, does not wrap, and allows the access at every address. -/
theorem procVmaRangeOk_exact (hk : Reachable L k) (huser : (k.procs i).isUser = true)
    {addr len : Nat} (haddr : addr < 2 ^ 32) (hlen : len < 2 ^ 32) (need : Nat) :
    Returns (vmaRangeTurn (k.procs i).vmas (u32 (addr + len)) need) addr
      (vmaRangeLoop (k.procs i).vmas (u32 (addr + len)) need (u32 (addr + len) - addr) addr) ∧
    (procVmaRangeOk (k.procs i) addr len need = true ↔
      0 < len ∧ addr + len ≤ 2 ^ 32 - 1 ∧
        ∀ a, addr ≤ a → a < addr + len → ∃ j, ((k.procs i).vmas j).Allows need a) := by
  have hreturns := vmaRangeLoop_returns (k.procs i).vmas (u32 (addr + len)) need
    (le_refl (u32 (addr + len) - addr))
  refine ⟨hreturns, ?_⟩
  have hexact := vmaRange_exact (hk.inv.vma huser) hreturns
  unfold procVmaRangeOk
  rw [if_neg (not_not.mpr huser)]
  by_cases hzero : len = 0
  · rw [if_pos hzero]
    exact iff_of_false Bool.false_ne_true fun h => by omega
  rw [if_neg hzero]
  dsimp only
  by_cases hwrap : u32 (addr + len) < addr
  · rw [if_pos hwrap]
    apply iff_of_false Bool.false_ne_true
    rintro ⟨-, hfits, -⟩
    unfold u32 at hwrap
    omega
  · rw [if_neg hwrap, hexact]
    have hsum : u32 (addr + len) = addr + len := by
      unfold u32 at hwrap ⊢
      omega
    rw [hsum]
    exact ⟨fun hall => ⟨by omega, by unfold u32 at hsum; omega, hall⟩, fun h => h.2.2⟩

/-- A range over two VMAs of a process. -/
def twoVmasOps : List Op :=
  [.createUserProcess smallEntry, .switchTo 1, .mmap 0x20001000 0x1000 3 0,
    .mmap 0x20000000 0x1000 1 0]

theorem procVmaRangeOk_exact_two :
    ∃ k, smallRun twoVmasOps = some k ∧
      Returns (vmaRangeTurn (k.procs 1).vmas (u32 (0x20000800 + 0x1000)) vmaProtR) 0x20000800
        (vmaRangeLoop (k.procs 1).vmas (u32 (0x20000800 + 0x1000)) vmaProtR
          (u32 (0x20000800 + 0x1000) - 0x20000800) 0x20000800) ∧
      (procVmaRangeOk (k.procs 1) 0x20000800 0x1000 vmaProtR = true ↔
        0 < 0x1000 ∧ 0x20000800 + 0x1000 ≤ 2 ^ 32 - 1 ∧ ∀ a, 0x20000800 ≤ a →
          a < 0x20000800 + 0x1000 → ∃ j, ((k.procs 1).vmas j).Allows vmaProtR a) := by
  have hrun : (smallRun twoVmasOps).any (fun k => (k.procs 1).isUser) = true := by
    decide +kernel
  obtain ⟨k, hk, huser⟩ := (Option.any_eq_true _ _).mp hrun
  exact ⟨k, hk, procVmaRangeOk_exact (smallRun_reachable hk) huser (by decide) (by decide) vmaProtR⟩

/-! ## Searching for a gap -/

/-- The page-aligned range of `len` bytes from `a` lies in the window and no VMA meets it. -/
structure Gap (vmas : Vmas) (len a : Nat) : Prop where
  aligned : a % 4096 = 0
  base : userMmapBase ≤ a
  fits : a + len ≤ userMmapEnd
  clear : ∀ j, (vmas j).used = true → a + len ≤ (vmas j).start ∨ (vmas j).stop ≤ a

/-- A turn of the loop of `proc_find_free_mmap_range`. -/
def findFreeTurn (vmas : Vmas) (len addr : Nat) : Nat ⊕ Option Nat :=
  let stop := u32 (addr + len)
  if addr ≤ stop ∧ stop ≤ userMmapEnd then
    match firstOverlap vmas addr stop with
    | some i => .inl (pageCeil (vmas i).stop)
    | none => .inr (some addr)
  else .inr none

theorem firstOverlap_some {addr stop : Nat} {j : Fin procVmaMax}
    (h : firstOverlap vmas addr stop = some j) :
    (vmas j).used = true ∧ addr < (vmas j).stop ∧ (vmas j).start < stop := by
  have hfound := List.find?_some h
  simp only [Bool.and_eq_true, decide_eq_true_eq] at hfound
  exact ⟨hfound.1.1, hfound.1.2, hfound.2⟩

theorem firstOverlap_none {addr stop : Nat} (h : firstOverlap vmas addr stop = none)
    (j : Fin procVmaMax) (hused : (vmas j).used = true) :
    stop ≤ (vmas j).start ∨ (vmas j).stop ≤ addr := by
  have hno := List.find?_eq_none.mp h j (List.mem_finRange j)
  simp only [hused, Bool.true_and, Bool.and_eq_true, decide_eq_true_eq] at hno
  omega

/-- How a turn ends. -/
inductive FindTurn (vmas : Vmas) (len addr : Nat) : Nat ⊕ Option Nat → Prop
  | full (hfull : ¬ addr + len ≤ userMmapEnd) : FindTurn vmas len addr (.inr none)
  | found (hfits : addr + len ≤ userMmapEnd)
      (hclear : ∀ j, (vmas j).used = true → addr + len ≤ (vmas j).start ∨ (vmas j).stop ≤ addr) :
      FindTurn vmas len addr (.inr (some addr))
  | hop {j} (hfits : addr + len ≤ userMmapEnd) (hused : (vmas j).used = true)
      (hover : addr < (vmas j).stop ∧ (vmas j).start < addr + len) :
      FindTurn vmas len addr (.inl (pageCeil (vmas j).stop))

theorem findFreeTurn_cases (vmas : Vmas) {len : Nat} (hlen : len < 2 ^ 32) (addr : Nat) :
    FindTurn vmas len addr (findFreeTurn vmas len addr) := by
  unfold findFreeTurn
  dsimp only
  have hend : userMmapEnd = 0x3f000000 := rfl
  by_cases hroom : addr ≤ u32 (addr + len) ∧ u32 (addr + len) ≤ userMmapEnd
  · rw [if_pos hroom]
    -- the sum did not wrap, or it would lie below `addr`
    have hsum : u32 (addr + len) = addr + len := by
      unfold u32 at hroom ⊢
      omega
    rw [hsum] at hroom ⊢
    cases hfirst : firstOverlap vmas addr (addr + len) with
    | none => exact .found hroom.2 (firstOverlap_none hfirst)
    | some j =>
        obtain ⟨hused, hover⟩ := firstOverlap_some hfirst
        exact .hop hroom.2 hused hover
  · rw [if_neg hroom]
    apply FindTurn.full
    intro hfits
    apply hroom
    unfold u32
    omega

theorem findFreeLoop_returns (h : VmaInv L vmas) {len : Nat} (hlen : len < 2 ^ 32)
    {turns addr : Nat} (hturns : userMmapEnd + 1 - addr ≤ turns) :
    Returns (findFreeTurn vmas len) addr (findFreeLoop vmas len turns addr) := by
  apply Returns.of_bounded (fun _ => True) (fun addr => userMmapEnd + 1 - addr) _ _ _ trivial hturns
  · intro addr _ hrank
    apply if_neg
    omega
  · intro n addr
    rw [findFreeLoop, findFreeTurn]
    split
    · cases firstOverlap vmas addr (u32 (addr + len)) <;> rfl
    · rfl
  · intro addr next _ hturn
    have hcases := findFreeTurn_cases vmas hlen addr
    rw [hturn] at hcases
    cases hcases with
    | hop hfits hused hover =>
        rw [h.stop_lt hused]
        exact ⟨trivial, by omega⟩

/-- Every gap lies above what the search has passed. -/
structure Passed (vmas : Vmas) (len addr : Nat) : Prop where
  aligned : addr % 4096 = 0
  base : userMmapBase ≤ addr
  le : ∀ a, Gap vmas len a → addr ≤ a

/-- The search finds the lowest gap, or there is none. -/
theorem findFree_exact (h : VmaInv L vmas) {len : Nat} (hlen : len < 2 ^ 32) {r : Option Nat}
    (hreturns : Returns (findFreeTurn vmas len) userMmapBase r) :
    (∀ a, r = some a → IsLeast {a | Gap vmas len a} a) ∧ (r = none → ∀ a, ¬ Gap vmas len a) := by
  have hstart : Passed vmas len userMmapBase := ⟨rfl, le_refl _, fun a ha => ha.base⟩
  apply hreturns.rule hstart
  · intro addr next hpassed hturn
    have hcases := findFreeTurn_cases vmas hlen addr
    rw [hturn] at hcases
    cases hcases with
    | @hop j hfits hused hover =>
        rw [h.stop_lt hused]
        have hbase := hpassed.base
        refine ⟨(h.aligned hused).2.1, by omega, ?_⟩
        intro a ha
        have hle := hpassed.le a ha
        -- a gap from `addr` on that ends before the VMA would be a gap at `addr`
        cases ha.clear j hused with
        | inl hbelow => omega
        | inr habove => exact habove
  · intro addr r hpassed hturn
    have hcases := findFreeTurn_cases vmas hlen addr
    rw [hturn] at hcases
    cases hcases with
    | full hfull =>
        refine ⟨nofun, fun _ a ha => ?_⟩
        have hle := hpassed.le a ha
        have hfits := ha.fits
        omega
    | found hfits hclear =>
        refine ⟨fun a heq => ?_, nofun⟩
        rw [← Option.some.inj heq]
        exact ⟨⟨hpassed.aligned, hpassed.base, hfits, hclear⟩, fun a ha => hpassed.le a ha⟩

theorem procFindFreeMmapRange_returns (h : VmaInv L vmas) {len : Nat} (hlen : len < 2 ^ 32) :
    Returns (findFreeTurn vmas len) userMmapBase (procFindFreeMmapRange vmas len) :=
  findFreeLoop_returns h hlen (by decide)

/-! ## `proc_mmap` without `MAP_FIXED` -/

/-- `mmapAdd` succeeds in a gap exactly if there is a free slot. -/
theorem mmapAdd_isSome {proc : Process} {len addr prot : Nat} (hpos : 0 < len)
    (hal : len % 4096 = 0) (hgap : Gap proc.vmas len addr) :
    (mmapAdd proc addr len prot).1 = none ↔ procFindFreeVmaSlot proc.vmas = none := by
  have hend : userMmapEnd = 0x3f000000 := rfl
  have hfits := hgap.fits
  have halign := hgap.aligned
  have hsum : u32 (addr + len) = addr + len := by
    unfold u32
    omega
  have hover : overlapsAny proc.vmas addr (addr + len) = false := by
    apply List.any_eq_false.mpr
    intro j _
    cases hused : (proc.vmas j).used with
    | false => simp
    | true =>
        have hclear := hgap.clear j hused
        simp only [Bool.true_and, Bool.not_eq_true', Bool.or_eq_false_iff, decide_eq_false_iff_not]
        omega
  unfold mmapAdd procAddVma
  rw [hsum, if_neg (by omega), if_neg (by simp only [isAligned_iff]; omega), hover]
  cases procFindFreeVmaSlot proc.vmas with
  | none => exact iff_of_true rfl rfl
  | some j => exact iff_of_false (Option.some_ne_none addr) (Option.some_ne_none j)

/-- A hint that is no gap is not taken. -/
theorem mmapPlace_hint {addrHint len : Nat} (hlen : 0 < len ∧ len < 2 ^ 32)
    (hno : ¬ Gap vmas len addrHint) : mmapPlace vmas addrHint len = procFindFreeMmapRange vmas len := by
  have hrefused : ¬ (addrHint ≠ 0 ∧ isAligned addrHint = true ∧ userMmapBase ≤ addrHint ∧
      u32 (addrHint + len) ≤ userMmapEnd ∧ addrHint ≤ u32 (addrHint + len) ∧
        ¬ procRangeOverlapsAnyVma vmas addrHint (u32 (addrHint + len)) = true) := by
    rintro ⟨-, halign, hbase, hfits, hle, hclear⟩
    rw [isAligned_iff] at halign
    have hsum : u32 (addrHint + len) = addrHint + len := by
      unfold u32 at hle ⊢
      omega
    rw [hsum] at hfits hclear
    refine hno ⟨halign, hbase, hfits, fun j hused => ?_⟩
    rw [procRangeOverlapsAnyVma, Bool.not_eq_true, List.any_eq_false] at hclear
    have hj := hclear j (List.mem_finRange j)
    simp only [hused, Bool.true_and, Bool.and_eq_true, decide_eq_true_eq] at hj
    omega
  unfold mmapPlace
  dsimp only
  rw [if_neg hrefused, if_pos rfl]

/-- A request that passes the checks of `proc_mmap` and leaves the place to it. -/
structure SearchRequest (proc : Process) (addrHint len prot flags : Nat) : Prop where
  user : proc.isUser = true
  len_pos : 1 ≤ len
  round : len + 4095 < 2 ^ 32
  prot_pos : 0 < prot
  prot_lt : prot < 8
  search : flags &&& mapFixed = 0
  unusable : ¬ Gap proc.vmas (pageCeil len) addrHint

theorem SearchRequest.pages {proc : Process} {addrHint len prot flags : Nat}
    (h : SearchRequest proc addrHint len prot flags) :
    0 < pageCeil len ∧ pageCeil len < 2 ^ 32 ∧ pageCeil len % 4096 = 0 := by
  have hpos := h.len_pos
  have hround := h.round
  rw [pageCeil_eq h.round]
  omega

theorem SearchRequest.procMmap_eq {proc : Process} {addrHint len prot flags : Nat} {s : Phys}
    (h : SearchRequest proc addrHint len prot flags) :
    procMmap L proc addrHint len prot flags s =
      match procFindFreeMmapRange proc.vmas (pageCeil len) with
      | none => .ok (none, proc, s)
      | some addr => .ok ((mmapAdd proc addr (pageCeil len) prot).1,
          (mmapAdd proc addr (pageCeil len) prot).2, s) := by
  have hlen : len ≠ 0 := Nat.one_le_iff_ne_zero.mp h.len_pos
  have hprot : ¬ (8 ≤ prot ∨ prot = 0) := by
    have hpos := h.prot_pos
    have hlt := h.prot_lt
    omega
  unfold procMmap
  rw [if_neg (not_not.mpr h.user), if_neg hlen, if_neg hprot]
  dsimp only
  rw [if_neg (not_not.mpr h.search)]
  have hplace := mmapPlace_hint ⟨h.pages.1, h.pages.2.1⟩ h.unusable
  generalize mmapPlace proc.vmas addrHint (pageCeil len) = place at hplace ⊢
  subst hplace
  cases procFindFreeMmapRange proc.vmas (pageCeil len) <;> rfl

theorem mmapAdd_some {proc : Process} {addr len prot a : Nat}
    (h : (mmapAdd proc addr len prot).1 = some a) : a = addr := by
  unfold mmapAdd at h
  cases hadd : procAddVma proc.vmas addr (u32 (addr + len)) prot with
  | none =>
      rw [hadd] at h
      cases h
  | some v =>
      rw [hadd] at h
      exact (Option.some.inj h).symm

/-- The search comes to its end with the lowest gap if there is one, and `proc_mmap`
without a usable place of its own gets that gap, if there is a free slot. -/
theorem procMmap_lowest (hk : Reachable L k) (huser : (k.procs i).isUser = true) (len : Nat) :
    (Returns (findFreeTurn (k.procs i).vmas (pageCeil len)) userMmapBase
        (procFindFreeMmapRange (k.procs i).vmas (pageCeil len)) ∧
      (∀ a, procFindFreeMmapRange (k.procs i).vmas (pageCeil len) = some a →
        IsLeast {a | Gap (k.procs i).vmas (pageCeil len) a} a) ∧
      (procFindFreeMmapRange (k.procs i).vmas (pageCeil len) = none ↔
        ∀ a, ¬ Gap (k.procs i).vmas (pageCeil len) a)) ∧
    ∀ addrHint prot flags, SearchRequest (k.procs i) addrHint len prot flags →
      ∃ r proc, procMmap L (k.procs i) addrHint len prot flags k.phys = .ok (r, proc, k.phys) ∧
        (r ≠ none ↔ (∃ a, Gap (k.procs i).vmas (pageCeil len) a) ∧
          ∃ j, ((k.procs i).vmas j).used = false) ∧
        ∀ a, r = some a → IsLeast {a | Gap (k.procs i).vmas (pageCeil len) a} a := by
  have hv := hk.inv.vma huser
  have hlt : pageCeil len < 2 ^ 32 := by
    have hle := pageCeil_lt len
    omega
  have hreturns := procFindFreeMmapRange_returns hv hlt
  obtain ⟨hfound, hnone⟩ := findFree_exact hv hlt hreturns
  refine ⟨⟨hreturns, hfound, hnone, ?_⟩, ?_⟩
  · intro hno
    cases hfind : procFindFreeMmapRange (k.procs i).vmas (pageCeil len) with
    | none => rfl
    | some a => exact absurd (hfound a hfind).1 (hno a)
  · intro addrHint prot flags hreq
    rw [hreq.procMmap_eq]
    cases hfind : procFindFreeMmapRange (k.procs i).vmas (pageCeil len) with
    | none =>
        refine ⟨none, k.procs i, rfl, ?_, nofun⟩
        apply iff_of_false (not_not.mpr rfl)
        rintro ⟨⟨a, ha⟩, -⟩
        exact hnone hfind a ha
    | some addr =>
        have hleast := hfound addr hfind
        refine ⟨_, _, rfl, ?_, ?_⟩
        · rw [ne_eq, mmapAdd_isSome hreq.pages.1 hreq.pages.2.2 hleast.1, procFindFreeVmaSlot_eq_none,
            not_forall]
          constructor
          · rintro ⟨j, hfree⟩
            exact ⟨⟨addr, hleast.1⟩, j, Bool.not_eq_true _ ▸ hfree⟩
          · rintro ⟨-, j, hfree⟩
            refine ⟨j, ?_⟩
            rw [hfree]
            exact Bool.false_ne_true
        · intro a ha
          rw [mmapAdd_some ha]
          exact hleast

/-- The search of a process that has two pages mapped. -/
theorem procMmap_lowest_two :
    ∃ k, smallRun twoVmasOps = some k ∧
      ((Returns (findFreeTurn (k.procs 1).vmas (pageCeil 5)) userMmapBase
          (procFindFreeMmapRange (k.procs 1).vmas (pageCeil 5)) ∧
        (∀ a, procFindFreeMmapRange (k.procs 1).vmas (pageCeil 5) = some a →
          IsLeast {a | Gap (k.procs 1).vmas (pageCeil 5) a} a) ∧
        (procFindFreeMmapRange (k.procs 1).vmas (pageCeil 5) = none ↔
          ∀ a, ¬ Gap (k.procs 1).vmas (pageCeil 5) a)) ∧
      ∃ r proc, procMmap smallLayout (k.procs 1) 0 5 1 0 k.phys = .ok (r, proc, k.phys) ∧
        (r ≠ none ↔ (∃ a, Gap (k.procs 1).vmas (pageCeil 5) a) ∧
          ∃ j, ((k.procs 1).vmas j).used = false) ∧
        ∀ a, r = some a → IsLeast {a | Gap (k.procs 1).vmas (pageCeil 5) a} a) := by
  have hrun : (smallRun twoVmasOps).any (fun k => (k.procs 1).isUser) = true := by
    decide +kernel
  obtain ⟨k, hk, huser⟩ := (Option.any_eq_true _ _).mp hrun
  obtain ⟨hsearch, hmmap⟩ := procMmap_lowest (smallRun_reachable hk) huser 5
  refine ⟨k, hk, hsearch, hmmap 0 1 0 ⟨huser, by decide, by decide, by decide, by decide, rfl, ?_⟩⟩
  intro hgap
  exact absurd hgap.base (by decide)

/-! ## Lengths -/

/-- What a call of `proc_munmap` that returns 0 says of the range of integers. -/
def UnmapsExactly (L : Layout) (k : Kernel) (i : Fin procMax) (addr len : Nat) : Prop :=
  ∀ proc s', procMunmap L (k.procs i) addr len k.phys = .ok (true, proc, s') →
    (userMmapBase ≤ addr ∧ addr + len ≤ userMmapEnd) ∧
    (∀ j, (proc.vmas j).used = true → addr + len ≤ (proc.vmas j).start ∨ (proc.vmas j).stop ≤ addr) ∧
    ∀ a, addr ≤ a → a < addr + len → vmQueryUserPage (k.procs i).satp a s' = none

/-- What a call of `proc_mmap` that returns an address says of the range of integers. -/
def MapsExactly (L : Layout) (k : Kernel) (i : Fin procMax) (len : Nat) : Prop :=
  ∀ addrHint prot flags a proc s',
    procMmap L (k.procs i) addrHint len prot flags k.phys = .ok (some a, proc, s') →
    (userMmapBase ≤ a ∧ a + len ≤ userMmapEnd) ∧
    ∃ j, (proc.vmas j).used = true ∧ (proc.vmas j).start ≤ a ∧ a + len ≤ (proc.vmas j).stop ∧
      (proc.vmas j).prot = prot

/-- Rounding up wraps to zero or does not wrap. -/
theorem pageCeil_cases {len : Nat} (hlen : len < 2 ^ 32) :
    (2 ^ 32 - 4096 < len ∧ pageCeil len = 0) ∨
      (len ≤ 2 ^ 32 - 4096 ∧ len ≤ pageCeil len ∧ pageCeil len < len + 4096) := by
  by_cases hround : len + 4095 < 4294967296
  · right
    rw [pageCeil_eq hround]
    omega
  · left
    refine ⟨by omega, ?_⟩
    unfold pageCeil u32
    have hpage : pageSize = 4096 := rfl
    rw [hpage]
    omega

/-- The last step of `proc_mmap` on the ranges of integers. -/
theorem mmapAdd_maps {proc : Process} {addr len prot a : Nat} (hlen : len < 2 ^ 32)
    (hbase : userMmapBase ≤ addr) (hfits : u32 (addr + pageCeil len) ≤ userMmapEnd)
    (h : (mmapAdd proc addr (pageCeil len) prot).1 = some a) :
    (userMmapBase ≤ a ∧ a + len ≤ userMmapEnd) ∧
      ∃ j, ((mmapAdd proc addr (pageCeil len) prot).2.vmas j).used = true ∧
        ((mmapAdd proc addr (pageCeil len) prot).2.vmas j).start ≤ a ∧
        a + len ≤ ((mmapAdd proc addr (pageCeil len) prot).2.vmas j).stop ∧
        ((mmapAdd proc addr (pageCeil len) prot).2.vmas j).prot = prot := by
  have hend : userMmapEnd = 0x3f000000 := rfl
  have hpages := pageCeil_lt len
  rw [mmapAdd_some h]
  unfold mmapAdd at h ⊢
  cases hadd : procAddVma proc.vmas addr (u32 (addr + pageCeil len)) prot with
  | none =>
      rw [hadd] at h
      cases h
  | some v =>
      obtain ⟨hlt, -, -, -, j, -, rfl⟩ := procAddVma_some hadd
      have hsum : u32 (addr + pageCeil len) = addr + pageCeil len := by
        unfold u32 at hlt ⊢
        omega
      rw [hsum] at hlt hfits
      have hle : len ≤ pageCeil len := by
        cases pageCeil_cases hlen with
        | inl hwrap => omega
        | inr hround => exact hround.2.1
      refine ⟨by omega, j, ?_⟩
      dsimp only
      rw [Function.update_self, hsum]
      exact ⟨rfl, le_refl _, by dsimp only; omega, rfl⟩

/-- `proc_mmap` never takes a length for another. -/
theorem procMmap_mapsExactly (h : VmaInv L (k.procs i).vmas) {len : Nat} (hlen : len < 2 ^ 32) :
    MapsExactly L k i len := by
  intro addrHint prot flags a proc' s' hcall
  have hadd : ∀ {proc : Process} {addr : Nat} {s : Phys}, userMmapBase ≤ addr →
      u32 (addr + pageCeil len) ≤ userMmapEnd →
      (Except.ok ((mmapAdd proc addr (pageCeil len) prot).1,
        (mmapAdd proc addr (pageCeil len) prot).2, s) : Except Panic (Option Nat × Process × Phys)) =
          .ok (some a, proc', s') →
      (userMmapBase ≤ a ∧ a + len ≤ userMmapEnd) ∧ ∃ j, (proc'.vmas j).used = true ∧
        (proc'.vmas j).start ≤ a ∧ a + len ≤ (proc'.vmas j).stop ∧ (proc'.vmas j).prot = prot := by
    intro proc addr s hbase hfits heq
    injection heq with heq
    obtain ⟨hsome, hrest⟩ := Prod.mk.inj heq
    rw [← (Prod.mk.inj hrest).1]
    exact mmapAdd_maps hlen hbase hfits hsome
  unfold procMmap at hcall
  split at hcall
  · cases hcall
  split at hcall
  · cases hcall
  split at hcall
  · cases hcall
  dsimp only at hcall
  split at hcall
  · split at hcall
    · cases hcall
    split at hcall
    · cases hcall
    rename_i hrange
    rw [not_or, not_or, Nat.not_lt, Nat.not_lt] at hrange
    split at hcall
    · cases hcall
    · cases hcall
    · exact hadd hrange.1 hrange.2.1 hcall
  · split at hcall
    · cases hcall
    rename_i addr hplace
    obtain ⟨hbase, hfits⟩ := mmapPlace_some h hplace
    exact hadd hbase hfits hcall

/-- The lengths that `proc_munmap` takes for zero, at addresses that it accepts. -/
def LengthLost (addr len : Nat) : Prop :=
  2 ^ 32 - 4096 < len ∧ addr % 4096 = 0 ∧ userMmapBase ≤ addr ∧ addr ≤ userMmapEnd

/-- A range of no bytes is unmapped successfully. -/
theorem procMunmap_lost (hk : Reachable L k) (huser : (k.procs i).isUser = true) {addr len : Nat}
    (hlen : len < 2 ^ 32) (hlost : LengthLost addr len) :
    ∃ proc s', procMunmap L (k.procs i) addr len k.phys = .ok (true, proc, s') := by
  obtain ⟨hlong, halign, hbase, hfits⟩ := hlost
  have hend : userMmapEnd = 0x3f000000 := rfl
  have hzero : pageCeil len = 0 := by
    cases pageCeil_cases hlen with
    | inl hwrap => exact hwrap.2
    | inr hround => omega
  have hstop : addr = u32 (addr + pageCeil len) := by
    rw [hzero]
    unfold u32
    omega
  have hrange : UnmapRange (k.procs i) addr len addr :=
    ⟨huser, halign, by omega, hstop, le_refl _, hbase, hfits⟩
  have hcases := procMunmap_cases hk.inv.mm (tableRoots_user huser) rfl rfl addr len
  generalize procMunmap L (k.procs i) addr len k.phys = out at hcases ⊢
  cases hcases with
  | refused hno => exact absurd hrange (hno addr)
  | full hrange' hmeet hstrict hslot =>
      rw [hrange'.stop_eq, ← hstop] at hmeet
      exact absurd hmeet.2.1 (lt_irrefl addr)
  | done hrange' hcut hunmapped hstep hquiet => exact ⟨_, _, rfl⟩

theorem procMunmap_unmapsExactly (hk : Reachable L k) (huser : (k.procs i).isUser = true)
    {addr len : Nat} (hlen : len < 2 ^ 32) (hkept : ¬ LengthLost addr len) :
    UnmapsExactly L k i addr len := by
  intro proc s' hcall
  have hend : userMmapEnd = 0x3f000000 := rfl
  have hcases := procMunmap_cases hk.inv.mm (tableRoots_user huser) rfl rfl addr len
  rw [hcall] at hcases
  cases hcases with
  | @done stop v s' changed hrange hcut hunmapped hstep hquiet =>
      have hbase := hrange.base
      have hfits := hrange.fits
      have hle := hrange.le
      have hpos := hrange.nonempty
      have hstop : addr + len ≤ stop := by
        have hsum := hrange.stop_eq
        unfold u32 at hsum
        cases pageCeil_cases hlen with
        | inl hwrap => exact absurd ⟨hwrap.1, hrange.aligned, hbase, by omega⟩ hkept
        | inr hround => omega
      have hsub := hk.inv.subtracted huser hrange hunmapped
      refine ⟨⟨hbase, by omega⟩, ?_, ?_⟩
      · intro j hused
        have hv : VmaInv L v := by
          have hinv := hstep.inv.vma (tableRoots_user huser)
          rwa [Function.update_self] at hinv
        have hlt : addr < stop := by omega
        have hgone : ∀ a, addr ≤ a → a < stop → protMap v a = none := by
          intro a hlo hhi
          rw [hunmapped.prot]
          exact if_pos ⟨hlo, hhi⟩
        have hclear := hv.clear_of_protMap hlt hgone hused
        dsimp only
        omega
      · intro a hlo hhi
        exact hsub.gone hlo (by omega)

/-- Lengths are never misread, except those that `proc_munmap` rounds up to zero. -/
theorem lengths_exact_iff (hk : Reachable L k) (huser : (k.procs i).isUser = true) {addr len : Nat}
    (hlen : len < 2 ^ 32) :
    UnmapsExactly L k i addr len ∧ MapsExactly L k i len ↔ ¬ LengthLost addr len := by
  constructor
  · rintro ⟨hunmap, -⟩ hlost
    obtain ⟨proc, s', hcall⟩ := procMunmap_lost hk huser hlen hlost
    have hfits := (hunmap proc s' hcall).1.2
    have hlong := hlost.1
    have hend : userMmapEnd = 0x3f000000 := rfl
    omega
  · intro hkept
    exact ⟨procMunmap_unmapsExactly hk huser hlen hkept,
      procMmap_mapsExactly (hk.inv.vma huser) hlen⟩

theorem lengths_exact_page :
    ∃ k, smallRun twoVmasOps = some k ∧ UnmapsExactly smallLayout k 1 0x20000000 1 ∧
      MapsExactly smallLayout k 1 1 := by
  have hrun : (smallRun twoVmasOps).any (fun k => (k.procs 1).isUser) = true := by
    decide +kernel
  obtain ⟨k, hk, huser⟩ := (Option.any_eq_true _ _).mp hrun
  have hkept : ¬ LengthLost 0x20000000 1 := fun hlost => absurd hlost.1 (by decide)
  exact ⟨k, hk, (lengths_exact_iff (smallRun_reachable hk) huser (by decide)).mpr hkept⟩

/-- `munmap(0x20000000, 0xffffffff)` returns 0. -/
theorem procMunmap_misreads : ¬ ∀ (L : Layout) (k : Kernel) (i : Fin procMax) (addr len : Nat),
    Reachable L k → (k.procs i).isUser = true → addr < 2 ^ 32 → len < 2 ^ 32 →
      UnmapsExactly L k i addr len ∧ MapsExactly L k i len := by
  intro hall
  have hrun : (smallRun twoVmasOps).any (fun k => (k.procs 1).isUser &&
      ((procMunmap smallLayout (k.procs 1) 0x20000000 0xffffffff k.phys).toOption.any
        fun out => out.1)) = true := by
    decide +kernel
  obtain ⟨k, hk, hvals⟩ := (Option.any_eq_true _ _).mp hrun
  rw [Bool.and_eq_true] at hvals
  obtain ⟨huser, hmunmap⟩ := hvals
  obtain ⟨⟨ok, proc, s'⟩, hcall, hok⟩ := ok_of_any hmunmap
  dsimp only at hok
  rw [hok] at hcall
  have hfits := ((hall smallLayout k 1 0x20000000 0xffffffff (smallRun_reachable hk) huser (by decide)
    (by decide)).1 proc s' hcall).1.2
  exact absurd hfits (by decide)

end Sugimotos.Proc
