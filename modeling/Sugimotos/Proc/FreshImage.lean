/-
# The image a new process starts from

`create_user_process` maps the pages of `.user.data` and `.user.bss` to themselves, writable,
for every process it makes.  A process that was not forked and did not fork stores there
directly.  Runs in which nobody else depends on what it overwrites keep the image clean and
private; the others do not.
-/

import Sugimotos.Proc.Views

namespace Sugimotos.Proc

open Sugimotos.Math Sugimotos.Mm

variable {L : Layout} {image : Memory} {k k' : Kernel} {i j : Fin procMax}

/-- A user process that still executes. -/
def Kernel.live (k : Kernel) (i : Fin procMax) : Prop :=
  (k.procs i).isUser = true ∧ (k.procs i).state ≠ .zombie

/-- The process that a creation returns reads the boot-time content in its writable sections. -/
def FreshStep (L : Layout) (image : Memory) (k : Kernel) (op : Op) : Prop :=
  ∀ entryPc i k', op = .createUserProcess entryPc →
    createUserProcess L entryPc.toNat k = .ok (some i, k') →
    ∀ va, dataPage L (va / 4096) → k'.userByte i va = image (va / 4096) (va % 4096)

/-- A store of one process changes no byte that another one reads in its writable sections. -/
def IsolatedStep (L : Layout) (k : Kernel) (op : Op) (k' : Kernel) : Prop :=
  ∀ addr i j, op.storeAddr = some addr → k.running = some i → j ≠ i → k.live j →
    ∀ va, dataPage L (va / 4096) → k'.userByte j va = k.userByte j va

/-- Runs from boot, with the content of memory at boot and whether a page of the image was
stored to since. -/
inductive ImageRun (L : Layout) (image : Memory) (ok : Kernel → Bool → Op → Prop) :
    Kernel → Bool → Prop
  | boot {mem mmu k} (h : boot L mem mmu = some k) (himage : k.phys.mem = image) :
      ImageRun L image ok k false
  | step {k k' stored} (op : Op) (hk : ImageRun L image ok k stored) (hop : enabled k op = true)
      (hok : ok k stored op) (h : step L op k = .ok k') :
      ImageRun L image ok k' (stored || sharedStore L k op)

/-- Steps that keep the image private: no user process is created once the image was stored
to, and nobody stores to a page of it while another process has that page mapped to itself. -/
structure KeepsImage (L : Layout) (k : Kernel) (stored : Bool) (op : Op) : Prop where
  create : ∀ entryPc, op = .createUserProcess entryPc → stored = false
  store : ∀ addr i j, op.storeAddr = some addr → sharedStore L k op = true →
    k.running = some i → j ≠ i → k.live j → ¬ k.mapsImage j (addr.toNat / 4096)

theorem dataPage_lt {vpn : Nat} (h : dataPage L vpn) : vpn < 1048576 := by
  have horder := Layout.order (L := L)
  unfold dataPage at h
  omega

theorem dataPage_unmanaged {vpn : Nat} (h : dataPage L vpn) : ¬ L.Managed vpn :=
  fun hm => (managed_rest hm).2.2 h

/-- The writable sections have their VMAs in every user process. -/
theorem VmaInv.covers_data {v : Vmas} (h : VmaInv L v) {vpn : Nat} (hd : dataPage L vpn) :
    ∃ m, (v m).Covers vpn := by
  rcases hd with ⟨hlo, hhi⟩ | ⟨hlo, hhi⟩
  · obtain ⟨m, hm⟩ := h.standard
      (v := ⟨true, L.userDataStart, L.userDataEnd, vmaProtR ||| vmaProtW⟩)
      (by simp [standardVmas]) (hlo.trans_lt hhi)
    refine ⟨m, ?_⟩
    rw [hm]
    exact ⟨rfl, hlo, hhi⟩
  · obtain ⟨m, hm⟩ := h.standard
      (v := ⟨true, L.userBssStart, L.userBssEnd, vmaProtR ||| vmaProtW⟩)
      (by simp [standardVmas]) (hlo.trans_lt hhi)
    refine ⟨m, ?_⟩
    rw [hm]
    exact ⟨rfl, hlo, hhi⟩

namespace ImageRun

variable {ok : Kernel → Bool → Op → Prop} {stored : Bool}

theorem reachable (hk : ImageRun L image ok k stored) : Reachable L k := by
  induction hk with
  | boot h _ => exact .boot h
  | step op _ hop _ h ih => exact ih.step op hop h

/-- Until it is stored to, the image is what it was at boot. -/
theorem intact (hk : ImageRun L image ok k stored) (hclean : stored = false) {p : Nat}
    (hp : ¬ L.Managed p) : k.phys.mem p = image p := by
  induction hk with
  | boot _ himage => rw [himage]
  | step op hk hop _ h ih =>
      rw [Bool.or_eq_false_iff] at hclean
      rw [(step_kept hk.reachable.inv op hop h).unmanaged hclean.2 hp]
      exact ih hclean.1

/-- A new process finds the image as it is in memory. -/
theorem fresh (hk : ImageRun L image ok k stored) {op : Op} (hkeeps : KeepsImage L k stored op) :
    FreshStep L image k op := by
  intro entryPc i k' hop hcall va hd
  have hinv := hk.reachable.inv
  obtain ⟨hkept, hfresh⟩ := (createUserProcess_spec hinv entryPc.toNat).of_eq_ok hcall
  have hwalk := (hfresh i rfl).2 hd
  rw [userByte_of_walk hwalk]
  dsimp only
  rw [hkept.unmanaged (dataPage_unmanaged hd)]
  rw [hk.intact (hkeeps.create entryPc hop) (dataPage_unmanaged hd)]

/-- A store of one process leaves the image of the others alone. -/
theorem isolated (hk : ImageRun L image ok k stored) {op : Op} (hop : enabled k op = true)
    (hkeeps : KeepsImage L k stored op) (hstep : Proc.step L op k = .ok k') :
    IsolatedStep L k op k' := by
  intro addr i j hstore hrun hj hlive va hd
  have hinv := hk.reachable.inv
  obtain ⟨m, hcov⟩ := (hinv.vma hlive.1).covers_data hd
  have hva : va < 4294967296 := by
    have hlt := dataPage_lt hd
    omega
  apply store_step_byte hinv hstore hop hstep hrun hj hlive.1 hva hcov
  intro hshared
  exact hkeeps.store addr i j hstore hshared hrun hj hlive

end ImageRun

/-- In every run whose steps keep the image private, a new process reads the boot-time content
in its writable sections, and no store of another process changes what it reads there. -/
theorem image_private {stored : Bool} (hk : ImageRun L image (KeepsImage L) k stored) {op : Op}
    (hop : enabled k op = true) (hkeeps : KeepsImage L k stored op)
    (hstep : step L op k = .ok k') : FreshStep L image k op ∧ IsolatedStep L k op k' :=
  ⟨hk.fresh hkeeps, hk.isolated hop hkeeps hstep⟩

/-! ## Runs of the small machine -/

theorem ImageRun.runEnabled {ok : Kernel → Bool → Op → Prop} {stored : Bool} {ops : List Op}
    (hk : ImageRun L image ok k stored) (hok : ∀ k stored op, ok k stored op)
    (h : runEnabled L ops k = some k') : ∃ stored', ImageRun L image ok k' stored' := by
  induction ops generalizing k stored with
  | nil =>
      cases h
      exact ⟨stored, hk⟩
  | cons op ops ih =>
      unfold Proc.runEnabled at h
      split at h
      · rename_i hop
        split at h
        · rename_i k₁ hstep
          exact ih (hk.step op hop (hok _ _ _) hstep) h
        · cases h
      · cases h

/-- A process forks, a system call makes the kernel write to its data, which it gets a copy of, and
it writes there itself. -/
def copiedOps : List Op :=
  [.createUserProcess smallEntry, .switchTo 1, .saveFrame (TrapFrame.zero.set .sp 0x40000000), .fork,
    .kernelStore 0x80203000 6, .userStore 0x80203000 7]

/-- The writer reads what it wrote, and a process that is created now reads zero. -/
theorem image_private_later : ∃ k₀ k k', smallBoot = some k₀ ∧
    runWhile smallLayout (fun k op => !sharedStore smallLayout k op) copiedOps k₀ = some k ∧
    createUserProcess smallLayout smallEntry.toNat k = .ok (some 3, k') ∧
    k'.userByte 1 0x80203000 = 7 ∧ k'.userByte 3 0x80203000 = 0 := by
  have hrun : smallBoot.any (fun k₀ => decide (k₀.phys.mem 0x80203 0 = 0) &&
      (runWhile smallLayout (fun k op => !sharedStore smallLayout k op) copiedOps k₀).any fun k =>
        enabled k (.createUserProcess smallEntry) &&
          (createUserProcess smallLayout smallEntry.toNat k).toOption.any fun out =>
            decide (out.1 = some 3 ∧ out.2.userByte 1 0x80203000 = 7)) = true := by
    decide +kernel
  obtain ⟨k₀, hboot, hvals⟩ := (Option.any_eq_true _ _).mp hrun
  rw [Bool.and_eq_true, decide_eq_true_iff] at hvals
  obtain ⟨hzero, hrest⟩ := hvals
  obtain ⟨k, hk, hvals⟩ := (Option.any_eq_true _ _).mp hrest
  rw [Bool.and_eq_true] at hvals
  obtain ⟨hop, hcreate⟩ := hvals
  obtain ⟨⟨result, k'⟩, hcall, hout⟩ := ok_of_any hcreate
  obtain ⟨hresult, hseven⟩ := of_decide_eq_true hout
  dsimp only at hresult hseven
  subst hresult
  have hprivate : ImageRun smallLayout k₀.phys.mem (KeepsImage smallLayout) k false := by
    refine runWhile_rule
      (P := fun k => ImageRun smallLayout k₀.phys.mem (KeepsImage smallLayout) k false)
      (fun k op k' hk hop hok hstep => ?_) (.boot hboot rfl) hk
    rw [Bool.not_eq_true'] at hok
    have hkeeps : KeepsImage smallLayout k false op :=
      ⟨fun _ _ => rfl, fun _ _ _ _ hshared => by rw [hok] at hshared; cases hshared⟩
    have hnext := hk.step op hop hkeeps hstep
    rw [hok] at hnext
    exact hnext
  have hkeeps : KeepsImage smallLayout k false (.createUserProcess smallEntry) :=
    ⟨fun _ _ => rfl, nofun⟩
  have hstep : step smallLayout (.createUserProcess smallEntry) k = .ok k' := by
    unfold step
    dsimp only
    rw [hcall]
    rfl
  have hfresh := (image_private hprivate hop hkeeps hstep).1 smallEntry 3 k' rfl hcall 0x80203000
    (by decide)
  exact ⟨k₀, k, k', hboot, hk, hcall, hseven, hfresh.trans hzero⟩

/-- A process stores to its data and another one is created. -/
def storedOps : List Op :=
  [.createUserProcess smallEntry, .switchTo 1, .userStore 0x80203000 7]

theorem image_stale : ¬ ∀ image k stored op,
    ImageRun smallLayout image (fun _ _ _ => True) k stored → enabled k op = true →
    FreshStep smallLayout image k op := by
  intro hall
  have hrun : smallBoot.any (fun k₀ => decide (k₀.phys.mem 0x80203 0 = 0) &&
      (runEnabled smallLayout storedOps k₀).any (fun k =>
        enabled k (.createUserProcess smallEntry) &&
          (createUserProcess smallLayout smallEntry.toNat k).toOption.any (fun out =>
            decide (out.1 = some 2) && decide (out.2.userByte 2 0x80203000 = 7)))) = true := by
    decide +kernel
  obtain ⟨k₀, hboot, hvals⟩ := (Option.any_eq_true _ _).mp hrun
  rw [Bool.and_eq_true, decide_eq_true_iff] at hvals
  obtain ⟨hzero, hrest⟩ := hvals
  obtain ⟨k, hk, hvals⟩ := (Option.any_eq_true _ _).mp hrest
  rw [Bool.and_eq_true] at hvals
  obtain ⟨hop, hcreate⟩ := hvals
  obtain ⟨⟨result, k'⟩, hcall, hout⟩ := ok_of_any hcreate
  rw [Bool.and_eq_true, decide_eq_true_iff, decide_eq_true_iff] at hout
  obtain ⟨hresult, hbyte⟩ := hout
  dsimp only at hresult hbyte
  subst hresult
  have hstart : ImageRun smallLayout k₀.phys.mem (fun _ _ _ => True) k₀ false := .boot hboot rfl
  obtain ⟨stored, hreach⟩ := hstart.runEnabled (fun _ _ _ => trivial) hk
  have hfresh := hall k₀.phys.mem k stored _ hreach hop smallEntry 2 k' rfl hcall 0x80203000
    (by decide)
  rw [hbyte] at hfresh
  change 7 = k₀.phys.mem 0x80203 0 at hfresh
  rw [hzero] at hfresh
  cases hfresh

end Sugimotos.Proc
