/-
# The arguments of `proc_exec`

`proc_exec` checks the argument vector in the old image and hands the pointer to
the new one.  Reading the vector does not change what the process can read, and
the new image keeps all of it but the mmap window.
-/

import Sugimotos.Proc.ArgScan
import Sugimotos.Proc.KernelRun

namespace Sugimotos.Proc

open Sugimotos.Math Sugimotos.Mm

variable {L : Layout} {k k' : Kernel} {i : Fin procMax}

/-! ## What a process can read -/

/-- The byte at an address in the space of a process; a page that is not mapped
yet will be zero. -/
def Kernel.byteAt (k : Kernel) (i : Fin procMax) (va : Nat) : UInt8 :=
  match walk k.phys.mem (rootPage (k.procs i).satp) (va / 4096) with
  | none => 0
  | some leaf => k.phys.mem leaf.ppn (va % 4096)

/-- What the process in slot `i` can read. -/
def Kernel.view (k : Kernel) (i : Fin procMax) : View := fun va =>
  (protMap (k.procs i).vmas va).bind fun prot =>
    if prot &&& vmaProtR = vmaProtR then some (k.byteAt i va) else none

theorem Kernel.view_eq_some {va : Nat} {byte : UInt8} :
    k.view i va = some byte ↔ (∃ prot, protMap (k.procs i).vmas va = some prot ∧
      prot &&& vmaProtR = vmaProtR) ∧ k.byteAt i va = byte := by
  unfold Kernel.view
  rw [Option.bind_eq_some_iff]
  constructor
  · rintro ⟨prot, hprot, hif⟩
    split at hif
    · rename_i hread
      exact ⟨⟨prot, hprot, hread⟩, Option.some.inj hif⟩
    · cases hif
  · rintro ⟨⟨prot, hprot, hread⟩, rfl⟩
    exact ⟨prot, hprot, if_pos hread⟩

/-- Views agree where no VMA allows reading or the bytes are the same. -/
theorem Kernel.view_congr {va : Nat} (hvmas : (k'.procs i).vmas = (k.procs i).vmas)
    (hbyte : protMap (k.procs i).vmas va ≠ none → k'.byteAt i va = k.byteAt i va) :
    k'.view i va = k.view i va := by
  unfold Kernel.view
  rw [hvmas]
  cases hprot : protMap (k.procs i).vmas va with
  | none => rfl
  | some prot =>
      rw [Option.bind_some, Option.bind_some, hbyte (by rw [hprot]; nofun)]

/-- A fault that brings in a page does not change what can be read. -/
theorem KernelInv.view_resolved {vpn va : Nat} {leaf : Leaf} (h : KernelInv L k)
    (huser : (k.procs i).isUser = true) (hprocs : k'.procs = k.procs)
    (hres : Resolved L (tableRoots k.procs k.kernelPage) i (rootPage (k.procs i).satp) vpn leaf
      k.phys k'.phys) : k'.view i va = k.view i va := by
  apply Kernel.view_congr (by rw [hprocs])
  intro hprot
  obtain ⟨prot, hprot⟩ := Option.ne_none_iff_exists'.mp hprot
  obtain ⟨j, hcov, -⟩ := (h.vma huser).protMap_eq_some.mp hprot
  have hvpn := (h.vma huser).covers_lt hcov
  have hwalk := hres.walk (tableRoots_user huser) hvpn
  unfold Kernel.byteAt
  rw [hprocs, hwalk]
  split_ifs with hsame
  · obtain ⟨-, rfl⟩ := hsame
    dsimp only
    rw [hres.content]
    cases walk k.phys.mem (rootPage (k.procs i).satp) (va / 4096) <;> rfl
  · cases hold : walk k.phys.mem (rootPage (k.procs i).satp) (va / 4096) with
    | none => rfl
    | some old =>
        have hU := h.mm.leaf_user (tableRoots_user huser) hvpn hold hcov
        obtain ⟨hno, hcount⟩ := leaf_in_use h.mm.vm (tableRoots_user huser) hvpn hold hU
        dsimp only
        rw [hres.page hno hcount]

/-! ## Reading as the kernel reads -/

/-- The kernel can read everything the process may read without a fault. -/
def Present (k : Kernel) (i : Fin procMax) : Prop :=
  ∀ va, va < 4294967296 → k.view i va ≠ none →
    ∃ pa, kernelTranslate (k.procs i).satp va vmaProtR k.phys = some pa

/-- The user process in slot `i` is the current one. -/
structure Reader (L : Layout) (i : Fin procMax) (k : Kernel) : Prop where
  inv : KernelInv L k
  cur : k.currentProc = some i
  user : (k.procs i).isUser = true

/-- Reads leave the process what it can read. -/
structure SameView (L : Layout) (i : Fin procMax) (k k' : Kernel) : Prop where
  reader : Reader L i k'
  kept : Kept L k k'
  table : SameTable k k'
  globals : SameGlobals k k'
  view : k'.view i = k.view i
  present : Present k i → Present k' i

theorem SameView.refl (h : Reader L i k) : SameView L i k k :=
  ⟨h, Kept.refl h.inv, ⟨rfl, rfl⟩, ⟨rfl, rfl⟩, rfl, fun hp => hp⟩

theorem SameView.trans {k₁ : Kernel} (h : SameView L i k k₁) (h' : SameView L i k₁ k') :
    SameView L i k k' :=
  ⟨h'.reader, h.kept.trans h'.kept, sameTable_follows.trans h.table h'.table,
    ⟨h'.globals.rootPt.trans h.globals.rootPt, h'.globals.satp.trans h.globals.satp⟩,
    h'.view.trans h.view, fun hp => h'.present (h.present hp)⟩

/-- A read gives the value `r` and changes nothing that can be read; if everything
is present it does not fail. -/
def ReadsAs (L : Layout) (i : Fin procMax) (k : Kernel) {α : Type} (r : α) :
    Except Halt (α × Kernel) → Prop
  | .ok (a, k') => a = r ∧ SameView L i k k'
  | .error _ => ¬ Present k i

theorem ReadsAs.pure {α : Type} {r : α} (h : Reader L i k) : ReadsAs L i k r (.ok (r, k)) :=
  ⟨rfl, SameView.refl h⟩

theorem ReadsAs.after {k₁ : Kernel} {α : Type} {r : α} {m : Except Halt (α × Kernel)}
    (h : SameView L i k k₁) (hm : ReadsAs L i k₁ r m) : ReadsAs L i k r m := by
  cases m with
  | ok out => exact ⟨hm.1, h.trans hm.2⟩
  | error e => exact fun hp => hm (h.present hp)

theorem ReadsAs.error {α β : Type} {r : α} {r' : β} {e : Halt}
    (h : ReadsAs L i k r (.error e : Except Halt (α × Kernel))) :
    ReadsAs L i k r' (.error e : Except Halt (β × Kernel)) := h

/-- Sequencing of reads. -/
theorem ReadsAs.andThen {α β : Type} {r : α} {r' : β} {m : Except Halt (α × Kernel)}
    {f : α × Kernel → Except Halt (β × Kernel)} (hm : ReadsAs L i k r m)
    (hf : ∀ k₁, SameView L i k k₁ → ReadsAs L i k₁ r' (f (r, k₁))) : ReadsAs L i k r' (m >>= f) := by
  cases m with
  | error e => exact hm
  | ok out =>
      obtain ⟨a, k₁⟩ := out
      obtain ⟨rfl, hsame⟩ := hm
      exact (hf k₁ hsame).after hsame

theorem loadByte_readsAs (h : Reader L i k) {va : Nat} {byte : UInt8} (hva : va < 4294967296)
    (hbyte : k.view i va = some byte) : ReadsAs L i k byte (loadByte L va k) := by
  have hat : ∀ {k₁ : Kernel} {pa : Nat}, k₁.procs = k.procs → k₁.view i = k.view i →
      kernelTranslate (k.procs i).satp va vmaProtR k₁.phys = some pa →
      k₁.phys.mem (pa / 4096) (pa % 4096) = byte := by
    intro k₁ pa hprocs hview hpa
    unfold kernelTranslate at hpa
    split at hpa
    · cases hpa
    · rename_i leaf hwalk
      split at hpa
      · cases hpa
        have hbyte₁ := (Kernel.view_eq_some.mp ((congrFun hview va).trans hbyte)).2
        unfold Kernel.byteAt at hbyte₁
        rw [hprocs, walk_of_hwWalk hwalk] at hbyte₁
        have hdiv : (leaf.ppn * 4096 + va % 4096) / 4096 = leaf.ppn := by omega
        have hmod : (leaf.ppn * 4096 + va % 4096) % 4096 = va % 4096 := by omega
        rw [hdiv, hmod]
        exact hbyte₁
      · cases hpa
  have htouch := touch_reads (L := L) vmaProtR va k
  unfold loadByte
  cases hcall : touch L vmaProtR va k with
  | error e =>
      intro hp
      obtain ⟨pa, hpa⟩ := hp va hva (by rw [hbyte]; nofun)
      unfold touch at hcall
      rw [h.cur] at hcall
      dsimp only at hcall
      rw [hpa] at hcall
      cases hcall
  | ok out =>
      obtain ⟨pa, k₁⟩ := out
      rw [hcall] at htouch
      have hreads : Reads L k k₁ := htouch
      have hkept := hreads.kept h.inv
      have hreader : Reader L i k₁ := by
        refine ⟨hkept.inv, hreads.table.2.trans h.cur, ?_⟩
        rw [hreads.table.1]
        exact h.user
      unfold touch at hcall
      rw [h.cur] at hcall
      dsimp only at hcall
      split at hcall
      · rename_i hpa
        cases hcall
        exact ⟨hat rfl rfl hpa, hreader, hkept, hreads.table, hreads.globals, rfl,
          fun hp => hp⟩
      · rename_i hmiss
        have habsent : ¬ Present k i := by
          intro hp
          obtain ⟨pa, hpa⟩ := hp va hva (by rw [hbyte]; nofun)
          rw [hpa] at hmiss
          cases hmiss
        rw [if_neg (not_not.mpr h.user)] at hcall
        have hcase := h.inv.fault h.user true vmaProtR hva
        cases hfault : procHandleUserPageFault L true (k.procs i) va vmaProtR k.phys with
        | error e =>
            rw [hfault] at hcall
            cases hcall
        | ok out =>
            obtain ⟨ok, s⟩ := out
            rw [hfault] at hcall hcase
            cases ok with
            | false => cases hcall
            | true =>
                dsimp only at hcall
                split at hcall
                · rename_i hpa
                  have hphys : k₁.phys = s := by
                    cases hcall
                    rfl
                  have hview : k₁.view i = k.view i := by
                    cases hcase with
                    | present hcov hprot hwalk hbits =>
                        cases hcall
                        rfl
                    | mapped hcov hprot hold hperm hres htable hresolved hinv =>
                        rw [← hphys] at hresolved
                        funext va'
                        exact h.inv.view_resolved h.user hreads.table.1 hresolved
                  have hbyte₁ := hat hreads.table.1 hview (by rw [hphys]; exact hpa)
                  cases hcall
                  exact ⟨hbyte₁, hreader, hkept, hreads.table, hreads.globals, hview,
                    fun hp => absurd hp habsent⟩
                · cases hcall

/-! ## The range checks -/

theorem vmaRangeLoop_of_covers {v : Vmas} {stop need turns cur : Nat}
    (h : ∀ a, cur ≤ a → a < stop → ∃ prot, protMap v a = some prot ∧ prot &&& need = need) :
    vmaRangeLoop v stop need turns cur = true := by
  induction turns generalizing cur with
  | zero => rfl
  | succ turns ih =>
      unfold vmaRangeLoop
      by_cases hlt : cur < stop
      · obtain ⟨prot, hprot, hneed⟩ := h cur (le_refl _) hlt
        obtain ⟨j, hfind, rfl⟩ := Option.map_eq_some_iff.mp hprot
        have hcur := (procFindVmaIndex_some hfind).2.2
        rw [if_pos hlt, hfind]
        dsimp only
        rw [if_neg (not_not.mpr hneed)]
        split
        · rfl
        · exact ih fun a hlo hhi => h a (by omega) hhi
      · rw [if_neg hlt]

/-- The range check, in terms of the map of protections. -/
theorem procVmaRangeOk_iff {proc : Process} (hv : VmaInv L proc.vmas) (huser : proc.isUser = true)
    {addr len need : Nat} (haddr : addr < 4294967296) (hpos : 0 < len) (hlen : len < 4294967296) :
    procVmaRangeOk proc addr len need = true ↔ addr + len < 4294967296 ∧
      ∀ a, addr ≤ a → a < addr + len →
        ∃ prot, protMap proc.vmas a = some prot ∧ prot &&& need = need := by
  constructor
  · intro hok
    refine ⟨(procVmaRangeOk_covers hok haddr hlen (le_refl addr) (by omega)).2.1, fun a hlo hhi => ?_⟩
    obtain ⟨-, -, j, hin, hprot⟩ := procVmaRangeOk_covers hok haddr hlen hlo hhi
    exact ⟨_, hv.protMap_eq_some.mpr ⟨j, hv.covers_addr.mpr hin, rfl⟩, hprot⟩
  · rintro ⟨hfits, hall⟩
    unfold procVmaRangeOk
    rw [if_neg (not_not.mpr huser), if_neg (by omega), u32_of_lt hfits]
    dsimp only
    rw [if_neg (by omega)]
    exact vmaRangeLoop_of_covers hall

/-- Nothing can be read above the mapped RAM. -/
theorem KernelInv.view_lt (h : KernelInv L k) (huser : (k.procs i).isUser = true) {va : Nat}
    (hsome : k.view i va ≠ none) : va < 0x84000000 := by
  obtain ⟨byte, hbyte⟩ := Option.ne_none_iff_exists'.mp hsome
  obtain ⟨⟨prot, hprot, -⟩, -⟩ := Kernel.view_eq_some.mp hbyte
  obtain ⟨j, hcov, -⟩ := (h.vma huser).protMap_eq_some.mp hprot
  have hram := (h.vma huser).covers_ram hcov
  omega

theorem Kernel.view_ne_none {va : Nat} : k.view i va ≠ none ↔
    ∃ prot, protMap (k.procs i).vmas va = some prot ∧ prot &&& vmaProtR = vmaProtR := by
  rw [Option.ne_none_iff_exists']
  constructor
  · rintro ⟨byte, hbyte⟩
    exact (Kernel.view_eq_some.mp hbyte).1
  · exact fun hread => ⟨_, Kernel.view_eq_some.mpr ⟨hread, rfl⟩⟩

/-- The check of a readable range, in terms of the view. -/
theorem Reader.readable_iff (h : Reader L i k) {addr len : Nat} (haddr : addr < 4294967296)
    (hpos : 0 < len) (hlen : len < 4294967296) :
    procUserReadableOk k addr len = true ↔
      addr + len < 4294967296 ∧ ∀ a, addr ≤ a → a < addr + len → k.view i a ≠ none := by
  unfold procUserReadableOk
  rw [h.cur]
  dsimp only
  rw [if_neg (not_not.mpr h.user), procVmaRangeOk_iff (h.inv.vma h.user) h.user haddr hpos hlen]
  simp only [Kernel.view_ne_none]

theorem Reader.readable_byte (h : Reader L i k) {va : Nat} (hva : va < 4294967296) :
    procUserReadableOk k va 1 = true ↔ k.view i va ≠ none := by
  rw [h.readable_iff hva (by decide) (by decide)]
  constructor
  · exact fun hall => hall.2 va (le_refl va) (by omega)
  · intro hsome
    have hlt := h.inv.view_lt h.user hsome
    refine ⟨by omega, fun a hlo hhi => ?_⟩
    rw [show a = va by omega]
    exact hsome

theorem Reader.readable_word (h : Reader L i k) {va : Nat} (hva : va < 4294967296) :
    procUserReadableOk k va 4 = true ↔ (k.view i).word va ≠ none := by
  rw [h.readable_iff hva (by decide) (by decide)]
  constructor
  · rintro ⟨hfits, hall⟩
    have hread : ∀ t, t < 4 → ∃ byte, k.view i (u32 (va + t)) = some byte := by
      intro t ht
      rw [u32_of_lt (by omega)]
      exact Option.ne_none_iff_exists'.mp (hall _ (by omega) (by omega))
    obtain ⟨b0, h0⟩ := hread 0 (by decide)
    obtain ⟨b1, h1⟩ := hread 1 (by decide)
    obtain ⟨b2, h2⟩ := hread 2 (by decide)
    obtain ⟨b3, h3⟩ := hread 3 (by decide)
    rw [Nat.add_zero, u32_of_lt hva] at h0
    rw [View.word_eq_some.mpr ⟨b0, b1, b2, b3, h0, h1, h2, h3, rfl⟩]
    nofun
  · intro hsome
    obtain ⟨w, hw⟩ := Option.ne_none_iff_exists'.mp hsome
    obtain ⟨b0, b1, b2, b3, h0, h1, h2, h3, -⟩ := View.word_eq_some.mp hw
    have hlt := h.inv.view_lt h.user (by rw [h0]; nofun)
    rw [u32_of_lt (by omega)] at h1 h2 h3
    refine ⟨by omega, fun a hlo hhi => ?_⟩
    have hcases : a = va ∨ a = va + 1 ∨ a = va + 2 ∨ a = va + 3 := by omega
    rcases hcases with rfl | rfl | rfl | rfl
    · rw [h0]
      nofun
    · rw [h1]
      nofun
    · rw [h2]
      nofun
    · rw [h3]
      nofun

/-! ## The scans of `proc_user_exec_argv_ok` -/

theorem loadU32_readsAs (h : Reader L i k) {va w : Nat} (hva : va < 4294967296)
    (hw : (k.view i).word va = some w) : ReadsAs L i k w (loadU32 L va k) := by
  obtain ⟨b0, b1, b2, b3, h0, h1, h2, h3, rfl⟩ := View.word_eq_some.mp hw
  unfold loadU32
  refine (loadByte_readsAs h hva h0).andThen fun k₁ hk₁ => ?_
  rw [← hk₁.view] at h1 h2 h3
  refine (loadByte_readsAs hk₁.reader (u32_lt _) h1).andThen fun k₂ hk₂ => ?_
  rw [← hk₂.view] at h2 h3
  refine (loadByte_readsAs hk₂.reader (u32_lt _) h2).andThen fun k₃ hk₃ => ?_
  rw [← hk₃.view] at h3
  refine (loadByte_readsAs hk₃.reader (u32_lt _) h3).andThen fun k₄ hk₄ => ?_
  exact ReadsAs.pure hk₄.reader

theorem cstrLoop_readsAs (h : Reader L i k) (addr left t : Nat) :
    ReadsAs L i k ((k.view i).cstr addr left t).isSome (cstrLoop L addr left t k) := by
  induction left generalizing t k with
  | zero => exact ReadsAs.pure h
  | succ left ih =>
      unfold cstrLoop View.cstr
      have hreadable := h.readable_byte (u32_lt (addr + t))
      cases hread : k.view i (u32 (addr + t)) with
      | none =>
          rw [if_pos fun hok => hreadable.mp hok hread]
          exact ReadsAs.pure h
      | some byte =>
          rw [if_neg (not_not.mpr (hreadable.mpr (by rw [hread]; exact Option.some_ne_none _)))]
          have hload := loadByte_readsAs h (u32_lt (addr + t)) hread
          cases hcall : loadByte L (u32 (addr + t)) k with
          | error e =>
              rw [hcall] at hload
              exact hload
          | ok out =>
              obtain ⟨byte', k₁⟩ := out
              rw [hcall] at hload
              obtain ⟨rfl, hsame⟩ := hload
              dsimp only
              split
              · exact (ReadsAs.pure hsame.reader).after hsame
              · have hrest := ih hsame.reader (t + 1)
                rw [hsame.view] at hrest
                rw [Option.isSome_map]
                exact hrest.after hsame

theorem procUserCstrOk_readsAs (h : Reader L i k) {addr : Nat} (haddr : addr < 4294967296) :
    ReadsAs L i k ((k.view i).cstr addr 128 0).isSome (procUserCstrOk L addr 128 k) := by
  have hreadable := h.readable_byte haddr
  unfold procUserCstrOk
  rw [if_neg (by decide)]
  split
  · rename_i hno
    have hnone : k.view i (u32 (addr + 0)) = none := by
      rw [Nat.add_zero, u32_of_lt haddr]
      by_contra hsome
      exact hno (hreadable.mpr hsome)
    unfold View.cstr
    rw [hnone]
    exact ReadsAs.pure h
  · exact cstrLoop_readsAs h addr 128 0

theorem argvLoop_readsAs (h : Reader L i k) (argvPtr left n : Nat) :
    ReadsAs L i k (((k.view i).args argvPtr left n).map fun l => n + l.length)
      (argvLoop L argvPtr left n k) := by
  induction left generalizing n k with
  | zero => exact ReadsAs.pure h
  | succ left ih =>
      unfold argvLoop View.args
      have hreadable := h.readable_word (u32_lt (argvPtr + n * 4))
      dsimp only
      cases hword : (k.view i).word (u32 (argvPtr + n * 4)) with
      | none =>
          rw [if_pos fun hok => hreadable.mp hok hword]
          exact ReadsAs.pure h
      | some argp =>
          rw [if_neg (not_not.mpr (hreadable.mpr (by rw [hword]; exact Option.some_ne_none _)))]
          have hload := loadU32_readsAs h (u32_lt _) hword
          cases hcall : loadU32 L (u32 (argvPtr + n * 4)) k with
          | error e =>
              rw [hcall] at hload
              exact hload
          | ok out =>
              obtain ⟨argp', k₁⟩ := out
              rw [hcall] at hload
              obtain ⟨rfl, hsame⟩ := hload
              dsimp only
              split
              · exact (ReadsAs.pure hsame.reader).after hsame
              · obtain ⟨b0, b1, b2, b3, -, -, -, -, hargp⟩ := View.word_eq_some.mp hword
                have hstr := procUserCstrOk_readsAs hsame.reader
                  (show argp' < 4294967296 by rw [← hargp]; exact View.leWord_lt ..)
                rw [hsame.view] at hstr
                cases hcall' : procUserCstrOk L argp' 128 k₁ with
                | error e =>
                    rw [hcall'] at hstr
                    exact fun hp => hstr (hsame.present hp)
                | ok out =>
                    obtain ⟨ok, k₂⟩ := out
                    rw [hcall'] at hstr
                    obtain ⟨hok, hsame'⟩ := hstr
                    cases hcstr : (k.view i).cstr argp' 128 0 with
                    | none =>
                        rw [hcstr] at hok
                        subst hok
                        exact ⟨rfl, hsame.trans hsame'⟩
                    | some arg =>
                        rw [hcstr] at hok
                        subst hok
                        have hrest := ih hsame'.reader (n + 1)
                        rw [hsame'.view, hsame.view] at hrest
                        have hlen : (((k.view i).args argvPtr left (n + 1)).map (arg :: ·)).map
                            (fun l => n + l.length) =
                            ((k.view i).args argvPtr left (n + 1)).map fun l => n + 1 + l.length := by
                          rw [Option.map_map]
                          congr 1
                          funext l
                          simp only [Function.comp_apply, List.length_cons]
                          omega
                        dsimp only
                        rw [hlen]
                        exact hrest.after (hsame.trans hsame')

/-- What `proc_user_exec_argv_ok` returns is the length of the argument vector the
process can read. -/
theorem procUserExecArgvOk_readsAs (h : Reader L i k) (argvPtr : Nat) :
    ReadsAs L i k (((k.view i).argv argvPtr).map List.length) (procUserExecArgvOk L argvPtr k) := by
  unfold procUserExecArgvOk View.argv
  split
  · exact ReadsAs.pure h
  · have hscan := argvLoop_readsAs h argvPtr 32 0
    simp only [Nat.zero_add] at hscan
    exact hscan

/-! ## The new image -/

/-- An address of the mmap window. -/
def windowAddr (va : Nat) : Prop := userMmapBase ≤ va ∧ va < userMmapEnd

instance (va : Nat) : Decidable (windowAddr va) := inferInstanceAs (Decidable (_ ∧ _))

theorem windowAddr_iff {va : Nat} : windowAddr va ↔ windowPage (va / 4096) := by
  unfold windowAddr windowPage inBlock userMmapBase userMmapEnd
  omega

/-- The standard VMAs hold no address of the window. -/
theorem not_windowAddr_of_standard {v : Vma} {va : Nat} (h : v ∈ standardVmas L)
    (hin : v.start ≤ va ∧ va < v.stop) : ¬ windowAddr va := by
  have hout := (standardVmas_outside h).2
  unfold windowAddr
  omega

namespace Execed

variable {argc : Nat}

/-- The new image has the VMAs of the old one outside the window. -/
theorem protMap (h : KernelInv L k) (huser : (k.procs i).isUser = true)
    (hexec : Execed L i argc k k') (va : Nat) : Proc.protMap (k'.procs i).vmas va =
      if windowAddr va then none else Proc.protMap (k.procs i).vmas va := by
  have hv := h.vma huser
  have hv' := hexec.kept.inv.vma hexec.user
  ext prot
  rw [hv'.protMap_eq_some]
  split
  · rename_i hw
    constructor
    · rintro ⟨j, hcov, -⟩
      have hin := hv'.covers_addr.mp hcov
      exact absurd hw (not_windowAddr_of_standard (hexec.standard hin.1) hin.2)
    · nofun
  · rename_i hw
    rw [hv.protMap_eq_some]
    constructor
    · rintro ⟨j, hcov, rfl⟩
      obtain ⟨j', hj'⟩ := hv.standard (hexec.standard hcov.1) (hv'.aligned hcov.1).2.2
      exact ⟨j', by rw [hj']; exact hcov, by rw [hj']⟩
    · rintro ⟨j, hcov, rfl⟩
      rcases hv.place hcov.1 with ⟨hwin, -⟩ | hstd
      · exact absurd (windowAddr_iff.mpr (inWindow_page hwin hcov).2) hw
      · obtain ⟨j', hj'⟩ := hv'.standard hstd (hv.aligned hcov.1).2.2
        exact ⟨j', by rw [hj']; exact hcov, by rw [hj']⟩

/-- The new image reads as the old one outside the window. -/
theorem view (h : KernelInv L k) (huser : (k.procs i).isUser = true)
    (hexec : Execed L i argc k k') (va : Nat) :
    k'.view i va = if windowAddr va then none else k.view i va := by
  unfold Kernel.view
  rw [hexec.protMap h huser]
  split
  · rfl
  · rename_i hw
    cases hprot : Proc.protMap (k.procs i).vmas va with
    | none => rfl
    | some prot =>
        obtain ⟨j, hcov, -⟩ := (h.vma huser).protMap_eq_some.mp hprot
        have hvpn := (h.vma huser).covers_lt hcov
        have hwalk := hexec.swept.walk (tableRoots_user huser) hvpn fun hc =>
          hw (windowAddr_iff.mpr (windowVpns_low (h.vma huser) hc.2).2)
        have hbyte : k'.byteAt i va = k.byteAt i va := by
          unfold Kernel.byteAt
          rw [hexec.satp, hwalk]
          cases hleaf : walk k.phys.mem (rootPage (k.procs i).satp) (va / 4096) with
          | none => rfl
          | some leaf =>
              have hU := h.mm.leaf_user (tableRoots_user huser) hvpn hleaf hcov
              dsimp only
              rw [hexec.swept.page (leaf_in_use h.mm.vm (tableRoots_user huser) hvpn hleaf hU).1]
        rw [Option.bind_some, Option.bind_some, hbyte]

/-- Everything readable in the new image is mapped. -/
theorem present (hexec : Execed L i argc k k') : Present k' i := by
  intro va hva hsome
  have h' := hexec.kept.inv
  have hr := tableRoots_user hexec.user
  obtain ⟨prot, hprot, hread⟩ := Kernel.view_ne_none.mp hsome
  obtain ⟨j, hcov, rfl⟩ := (h'.vma hexec.user).protMap_eq_some.mp hprot
  have hin := (h'.vma hexec.user).covers_addr.mp hcov
  have hvpn : va / 4096 < 1048576 := by omega
  cases hwalk : walk k'.phys.mem (rootPage (k'.procs i).satp) (va / 4096) with
  | none =>
      have hw := h'.mm.missing_window hr (h'.complete (Process.root_user hexec.user)) hvpn hwalk hcov
      exact absurd (windowAddr_iff.mpr hw)
        (not_windowAddr_of_standard (hexec.standard hin.1) hin.2)
  | some leaf =>
      have hlt := ((h'.vma hexec.user).region hcov).prot_lt.2
      have hperm := (h'.mm.leaf_perm hr hvpn hwalk hcov).1
      have hbits : leaf.perm &&& protToQueryBits vmaProtR = protToQueryBits vmaProtR := by
        by_contra hmiss
        have haccess := (leaf_bits hlt hperm (Or.inr (Or.inl rfl)) hread hmiss).1
        cases haccess
      have hquery : protToQueryBits vmaProtR = pteR := by decide
      have hR : leaf.perm &&& pteR ≠ 0 := by
        rw [hquery] at hbits
        rw [hbits]
        decide
      have hhw : hwWalk k'.phys.mem (rootPage (k'.procs i).satp) (va / 4096) = some leaf := by
        unfold hwWalk Leaf.reserved
        rw [hwalk]
        simp [hR]
      unfold kernelTranslate
      rw [hhw]
      dsimp only
      rw [if_pos hbits]
      exact ⟨_, rfl⟩

end Execed

theorem procExec_ok (h : KernelInv L k) (hcur : k.currentProc = some i) {entryPc argv : Nat}
    (hcall : procExec L entryPc argv k = .ok (true, k')) :
    (k.procs i).isUser = true ∧ ∃ argc k₁, procUserExecArgvOk L argv k = .ok (some argc, k₁) ∧
      Execed L i argc k₁ k' := by
  unfold procExec at hcall
  rw [hcur] at hcall
  dsimp only at hcall
  split at hcall
  · cases hcall
  rename_i huser
  rw [not_not] at huser
  split at hcall
  · cases hcall
  cases hargv : procUserExecArgvOk L argv k with
  | error e =>
      rw [hargv] at hcall
      cases hcall
  | ok out =>
      obtain ⟨r, k₁⟩ := out
      have hreads := procUserExecArgvOk_along reads_follows (touch_reads (L := L) vmaProtR) argv k
      rw [hargv] at hcall hreads
      have hreads : Reads L k k₁ := hreads
      cases r with
      | none => cases hcall
      | some argc =>
          have huser₁ : (k₁.procs i).isUser = true := by
            rw [hreads.table.1]
            exact huser
          obtain ⟨proc, s, v, hreset, hinit, hexec⟩ :=
            (Reads.kept hreads h).inv.execed huser₁ entryPc argc argv
          dsimp only at hcall
          rw [hreset] at hcall
          dsimp only at hcall
          rw [hinit] at hcall
          cases hcall
          exact ⟨huser, argc, k₁, rfl, hexec⟩

/-- The arguments survive `proc_exec` exactly when no part of them lies in the mmap
window. -/
theorem procExec_args_iff (hk : Reachable L k) (hcur : k.currentProc = some i)
    {entryPc argv : Nat} (hcall : procExec L entryPc argv k = .ok (true, k')) :
    ((∃ k'', procUserExecArgvOk L argv k' =
          .ok (some ((k'.procs i).trapFrame.reg .a0).toNat, k'')) ∧
        (k'.view i).argv argv = (k.view i).argv argv) ↔
      ∀ a ∈ (k.view i).argvAddrs argv, ¬ windowAddr a := by
  have h := hk.inv
  obtain ⟨huser, argc, k₁, hscan, hexec⟩ := procExec_ok h hcur hcall
  have hread := procUserExecArgvOk_readsAs ⟨h, hcur, huser⟩ argv
  rw [hscan] at hread
  obtain ⟨hargc, hsame⟩ := hread
  obtain ⟨l, hl, rfl⟩ := Option.map_eq_some_iff.mp hargc.symm
  have hreg : ((k'.procs i).trapFrame.reg .a0).toNat = l.length := by
    have hlen := View.argv_length hl
    rw [hexec.argc, UInt32.toNat_ofNat_of_lt' (by unfold UInt32.size; omega)]
  have hview : ∀ a, k'.view i a = if windowAddr a then none else k.view i a := by
    intro a
    rw [hexec.view hsame.reader.inv hsame.reader.user, hsame.view]
  have hread' := procUserExecArgvOk_readsAs
    ⟨hexec.kept.inv, hexec.cur.trans hsame.reader.cur, hexec.user⟩ argv
  rw [hreg]
  constructor
  · rintro ⟨⟨k'', hcall'⟩, -⟩ a ha hw
    rw [hcall'] at hread'
    obtain ⟨l', hl', -⟩ := Option.map_eq_some_iff.mp hread'.1.symm
    refine View.argv_smaller (fun a => ?_) hl' a ha ?_
    · rw [hview]
      split
      · exact Or.inl rfl
      · exact Or.inr rfl
    · rw [hview, if_pos hw]
  · intro hout
    have hsameArgs : (k'.view i).argv argv = (k.view i).argv argv :=
      View.argv_congr fun a ha => by rw [hview, if_neg (hout a ha)]
    refine ⟨?_, hsameArgs⟩
    cases hcall' : procUserExecArgvOk L argv k' with
    | error e =>
        rw [hcall'] at hread'
        exact absurd hexec.present hread'
    | ok out =>
        obtain ⟨r, k''⟩ := out
        rw [hcall', hsameArgs, hl] at hread'
        obtain ⟨rfl, -⟩ := hread'
        exact ⟨k'', rfl⟩

/-- A process stores the argument vector with the one string "X" at `base`, and the
string 16 bytes after it.  The first store faults its page in. -/
def argOps (base : UInt32) : List Op :=
  [.userStore base 0, .userStore base 0x10, .userStore (base + 1) (base >>> 8).toUInt8,
    .userStore (base + 2) (base >>> 16).toUInt8, .userStore (base + 3) (base >>> 24).toUInt8,
    .userStore (base + 16) 88]

/-- Arguments on the stack. -/
def stackArgs : List Op := [.createUserProcess smallEntry, .switchTo 1] ++ argOps 0x3fffff00

/-- Arguments in a page the process has asked for. -/
def mmapArgs : List Op :=
  [.createUserProcess smallEntry, .switchTo 1, .mmap 0x20000000 0x1000 3 0] ++ argOps 0x20000000

theorem procExec_args_iff_stack :
    ∃ k k', smallRun stackArgs = some k ∧
      procExec smallLayout 0x80201000 0x3fffff00 k = .ok (true, k') ∧
      (∃ k'', procUserExecArgvOk smallLayout 0x3fffff00 k' = .ok (some 1, k'')) ∧
      (k'.view 1).argv 0x3fffff00 = some [[88]] := by
  have hrun : (smallRun stackArgs).any (fun k =>
      decide (k.currentProc = some 1 ∧ (k.view 1).argv 0x3fffff00 = some [[88]] ∧
        ∀ a ∈ (k.view 1).argvAddrs 0x3fffff00, ¬ windowAddr a) &&
      (procExec smallLayout 0x80201000 0x3fffff00 k).toOption.any fun out =>
        decide (out.1 = true ∧ ((out.2.procs 1).trapFrame.reg .a0).toNat = 1)) = true := by
    decide +kernel
  obtain ⟨k, hk, hvals⟩ := (Option.any_eq_true _ _).mp hrun
  rw [Bool.and_eq_true, decide_eq_true_eq] at hvals
  obtain ⟨⟨hcur, hargs, hout⟩, hexec⟩ := hvals
  obtain ⟨⟨ok, k'⟩, hcall, hone⟩ := ok_of_any hexec
  obtain ⟨rfl, hone⟩ := of_decide_eq_true hone
  have h := (procExec_args_iff (smallRun_reachable hk) hcur hcall).mpr hout
  rw [hone, hargs] at h
  exact ⟨k, k', hk, hcall, h.1, h.2⟩

/-- With the arguments in a page the process has mapped, the exec succeeds and the new
image cannot read them. -/
theorem procExec_loses_args : ¬ ∀ (L : Layout) (k k' : Kernel) (i : Fin procMax)
    (entryPc argv : UInt32), Reachable L k → k.currentProc = some i →
    procExec L entryPc.toNat argv.toNat k = .ok (true, k') →
    (∃ k'', procUserExecArgvOk L argv.toNat k' =
        .ok (some ((k'.procs i).trapFrame.reg .a0).toNat, k'')) ∧
      (k'.view i).argv argv.toNat = (k.view i).argv argv.toNat := by
  intro hall
  have hrun : (smallRun mmapArgs).any (fun k => decide (k.currentProc = some 1) &&
      (procExec smallLayout 0x80201000 0x20000000 k).toOption.any fun out => out.1 &&
        (procUserExecArgvOk smallLayout 0x20000000 out.2).toOption.any fun read =>
          read.1.isNone) = true := by
    decide +kernel
  obtain ⟨k, hk, hvals⟩ := (Option.any_eq_true _ _).mp hrun
  rw [Bool.and_eq_true, decide_eq_true_eq] at hvals
  obtain ⟨hcur, hexec⟩ := hvals
  obtain ⟨⟨ok, k'⟩, hcall, hread⟩ := ok_of_any hexec
  rw [Bool.and_eq_true] at hread
  obtain ⟨rfl, hread⟩ := hread
  obtain ⟨⟨argc, k₂⟩, hscan, hnone⟩ := ok_of_any hread
  obtain ⟨⟨k'', hsome⟩, -⟩ :=
    hall smallLayout k k' 1 0x80201000 0x20000000 (smallRun_reachable hk) hcur hcall
  rw [show procUserExecArgvOk smallLayout (0x20000000 : UInt32).toNat k' = .ok (argc, k₂) from
    hscan] at hsome
  cases hsome
  cases hnone

end Sugimotos.Proc
