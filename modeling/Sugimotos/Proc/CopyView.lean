/-
# User copies as the process sees them

A user process has one flat memory: the view of its slot.  The functions of `mm/usercopy.c`
read exactly the bytes of that view and overwrite exactly the bytes they were asked to, through
page tables, demand paging and copy-on-write.
-/

import Sugimotos.Proc.UserCopy
import Sugimotos.Proc.Views

namespace Sugimotos.Proc

open Sugimotos.Math Sugimotos.Mm

/-! ## Flat memory -/

namespace View

/-- One byte overwritten; what could not be read still cannot. -/
def set (read : View) (va : Nat) (value : UInt8) : View := fun a =>
  if a = va then (read a).map fun _ => value else read a

/-- The bytes from `dst` on overwritten. -/
def write (read : View) (dst : Nat) (data : List UInt8) : View := fun a =>
  if dst ≤ a ∧ a < dst + data.length then (read a).map fun _ => data.getD (a - dst) 0 else read a

/-- The `len` bytes at `src`, if all can be read. -/
def bytes (read : View) (src : Nat) : Nat → Option (List UInt8)
  | 0 => some []
  | len + 1 =>
      match read src with
      | none => none
      | some byte => (read.bytes (src + 1) len).map (byte :: ·)

variable {read : View} {src dst : Nat}

theorem write_nil : read.write dst [] = read := by
  funext a
  exact if_neg fun h => Nat.not_lt.mpr h.1 h.2

theorem write_cons (byte : UInt8) (rest : List UInt8) :
    read.write dst (byte :: rest) = (read.set dst byte).write (dst + 1) rest := by
  funext a
  unfold write set
  rw [List.length_cons]
  by_cases hfirst : a = dst
  · subst hfirst
    rw [if_pos (by omega), if_neg (by omega), if_pos rfl, Nat.sub_self]
    rfl
  · rw [if_neg hfirst]
    by_cases hin : dst + 1 ≤ a ∧ a < dst + 1 + rest.length
    · rw [if_pos (by omega), if_pos hin, show a - dst = a - (dst + 1) + 1 by omega]
      rfl
    · rw [if_neg (by omega), if_neg hin]

end View

variable {L : Layout} {k k' : Kernel} {i : Fin procMax}

/-! ## Stores -/

theorem kernelTranslate_offset {satp va access pa : Nat} {s : Phys}
    (h : kernelTranslate satp va access s = some pa) : pa % 4096 = va % 4096 := by
  unfold kernelTranslate at h
  split at h
  · cases h
  · split at h
    · cases h
      omega
    · cases h

/-- A page fault that is resolved does not change what the process reads. -/
theorem KernelInv.fault_view (h : KernelInv L k) (huser : (k.procs i).isUser = true) {sum : Bool}
    {va access : Nat} {s : Phys} (hva : va < 4294967296)
    (hcall : procHandleUserPageFault L sum (k.procs i) va access k.phys = .ok (true, s)) :
    Kernel.view { k with phys := s } i = k.view i := by
  have hfault := h.fault huser sum access hva
  rw [hcall] at hfault
  cases hfault with
  | present hcov hprot hwalk hbits => rfl
  | mapped hcov hprot hold hperm hres htable hresolved hinv =>
      funext va'
      exact h.view_resolved huser rfl hresolved

/-- An access, with the fault it may take, does not change what the process reads. -/
theorem touch_view (h : Reader L i k) {access va pa : Nat} (hva : va < 4294967296)
    (hcall : touch L access va k = .ok (pa, k')) :
    k'.view i = k.view i ∧ pa % 4096 = va % 4096 := by
  unfold touch at hcall
  rw [h.cur] at hcall
  dsimp only at hcall
  rw [if_neg (not_not.mpr h.user)] at hcall
  split at hcall
  · rename_i hpa
    cases hcall
    exact ⟨rfl, kernelTranslate_offset hpa⟩
  · cases hres : procHandleUserPageFault L true (k.procs i) va access k.phys with
    | error e =>
        rw [hres] at hcall
        cases hcall
    | ok out =>
        obtain ⟨ok, s⟩ := out
        rw [hres] at hcall
        cases ok with
        | false => cases hcall
        | true =>
            dsimp only at hcall
            split at hcall
            · rename_i hpa
              cases hcall
              exact ⟨h.inv.fault_view h.user hva hres, kernelTranslate_offset hpa⟩
            · cases hcall

/-- Where nothing can be read depends on the VMAs alone. -/
theorem Kernel.view_eq_none_congr {a : Nat} (hvmas : (k'.procs i).vmas = (k.procs i).vmas) :
    k'.view i a = none ↔ k.view i a = none := by
  apply not_iff_not.mp
  change k'.view i a ≠ none ↔ k.view i a ≠ none
  rw [Kernel.view_ne_none, Kernel.view_ne_none, hvmas]

/-- Two pages of one process with the same frame are one page, if one of them is writable. -/
theorem KernelInv.leaf_unique (h : KernelInv L k) (huser : (k.procs i).isUser = true)
    {vpn vpn' : Nat} {leaf leaf' : Leaf} (hvpn : vpn < 1048576) (hvpn' : vpn' < 1048576)
    (hwalk : walk k.phys.mem (rootPage (k.procs i).satp) vpn = some leaf)
    (hU : leaf.perm &&& pteU ≠ 0) (hW : leaf.perm &&& pteW ≠ 0)
    (hwalk' : walk k.phys.mem (rootPage (k.procs i).satp) vpn' = some leaf')
    (hU' : leaf'.perm &&& pteU ≠ 0) (hppn : leaf'.ppn = leaf.ppn) : vpn' = vpn := by
  have hroot := tableRoots_user huser
  by_cases hm : L.Managed leaf.ppn
  · have htarget := VmInv.target_leaf hroot hvpn' hwalk' hU'
    rw [hppn] at htarget
    have hsite := h.mm.vm.write_unique ⟨vpn, hvpn⟩ hroot hwalk hU hW hm htarget
    injection hsite with _ hsite
    exact congrArg Fin.val hsite
  · have himg := (h.image_leaf huser hvpn hwalk hU hm).1
    have himg' := (h.image_leaf huser hvpn' hwalk' hU' (hppn ▸ hm)).1
    exact himg'.symm.trans (hppn.trans himg)

/-- A store through a writable translation overwrites one byte of the view. -/
theorem KernelInv.store_view (h : KernelInv L k) (huser : (k.procs i).isUser = true) {va pa : Nat}
    {leaf : Leaf} (hva : va < 4294967296)
    (hwalk : walk k.phys.mem (rootPage (k.procs i).satp) (va / 4096) = some leaf)
    (hU : leaf.perm &&& pteU ≠ 0) (hW : leaf.perm &&& pteW ≠ 0) (hpage : pa / 4096 = leaf.ppn)
    (hoffset : pa % 4096 = va % 4096) (value : UInt8) :
    let page := Function.update (k.phys.mem (pa / 4096)) (pa % 4096) value
    Kernel.view { k with phys := k.phys.setPage pa page } i = (k.view i).set va value := by
  intro page
  have hroot := tableRoots_user huser
  have hcontent : page = Function.update (k.phys.mem leaf.ppn) (va % 4096) value := by
    rw [← hpage, ← hoffset]
  have hmem : (k.phys.setPage pa page).mem = Function.update k.phys.mem leaf.ppn page := by
    unfold Phys.setPage
    rw [hpage]
  have hsame := (h.mm.store hroot (show va / 4096 < 1048576 by omega) hwalk hU hW page).1
  generalize k.phys.setPage pa page = s at hmem ⊢
  have hbyte : ∀ a, (k.view i a ≠ none) → ({ k with phys := s } : Kernel).byteAt i a =
      if a = va then value else k.byteAt i a := by
    intro a ha
    obtain ⟨prot, hprot, -⟩ := Kernel.view_ne_none.mp ha
    obtain ⟨j, hcov, -⟩ := (h.vma huser).protMap_eq_some.mp hprot
    have hvpn := (h.vma huser).covers_lt hcov
    unfold Kernel.byteAt
    dsimp only
    rw [hmem, hsame.walk hroot hvpn]
    cases hwalk' : walk k.phys.mem (rootPage (k.procs i).satp) (a / 4096) with
    | none =>
        have hne : a ≠ va := by
          rintro rfl
          rw [hwalk] at hwalk'
          cases hwalk'
        rw [if_neg hne]
    | some leaf' =>
        have hU' := h.mm.leaf_user hroot hvpn hwalk' hcov
        dsimp only
        by_cases hppn : leaf'.ppn = leaf.ppn
        · have hpages := h.leaf_unique huser (by omega) hvpn hwalk hU hW hwalk' hU' hppn
          rw [hppn, Function.update_self, hcontent]
          by_cases heq : a = va
          · rw [if_pos heq, heq, Function.update_self]
          · rw [if_neg heq, Function.update_of_ne (by omega)]
        · have hne : a ≠ va := by
            rintro rfl
            rw [hwalk] at hwalk'
            cases hwalk'
            exact hppn rfl
          rw [if_neg hne, Function.update_of_ne hppn]
  funext a
  cases hread : k.view i a with
  | none =>
      have hvmas : (({ k with phys := s } : Kernel).procs i).vmas = (k.procs i).vmas := rfl
      have hnone := (Kernel.view_eq_none_congr hvmas).mpr hread
      unfold View.set
      rw [hnone, hread]
      split <;> rfl
  | some byte =>
      obtain ⟨hallowed, hold⟩ := Kernel.view_eq_some.mp hread
      have hnew : ({ k with phys := s } : Kernel).view i a = some (if a = va then value else byte) :=
        Kernel.view_eq_some.mpr ⟨hallowed, by rw [hbyte a (ne_of_eq_of_ne hread (Option.some_ne_none byte)), hold]⟩
      unfold View.set
      rw [hnew, hread]
      split <;> rfl

/-! ## Copies to the process -/

/-- A call that leaves the view `v`, if it returns. -/
def Leaves (L : Layout) (i : Fin procMax) (k : Kernel) (v : View) (k' : Kernel) : Prop :=
  Serving L i k' ∧ SameTable k k' ∧ k'.view i = v

theorem storeByte_view (h : Serving L i k) {va : Nat} (hok : ByteOk k i vmaProtW va) {value : UInt8}
    (hcall : storeByte L va value k = .ok k') :
    Leaves L i k ((k.view i).set va value) k' := by
  have hserves := storeByte_serves h hok value
  rw [hcall] at hserves
  obtain ⟨hserving, htable⟩ := hserves
  refine ⟨hserving, htable, ?_⟩
  obtain ⟨-, -, j, hin, hprot⟩ :=
    procVmaRangeOk_covers hok.1 hok.2 (by decide) (le_refl va) (Nat.lt_succ_self va)
  have htouch := touch_serves h hok.allowed
  unfold storeByte at hcall
  cases hres : touch L vmaProtW va k with
  | error e =>
      rw [hres] at hcall
      cases hcall
  | ok out =>
      obtain ⟨pa, k₁⟩ := out
      rw [hres] at hcall htouch
      cases hcall
      obtain ⟨hview, hoffset⟩ := touch_view h.reader hok.2 hres
      obtain ⟨hprocs, leaf, hwalk, hbits, hppn, -⟩ := touch_ok h.inv h.cur h.user hok.2 hres
      have hcov : ((k₁.procs i).vmas j).Covers (va / 4096) := by
        rw [hprocs]
        exact (h.inv.vma h.user).covers_addr.mpr hin
      have hwalk₁ : walk k₁.phys.mem (rootPage (k₁.procs i).satp) (va / 4096) = some leaf := by
        rw [hprocs]
        exact walk_of_hwWalk hwalk
      have hU := htouch.1.inv.mm.leaf_user (tableRoots_user htouch.1.user)
        (show va / 4096 < 1048576 by have := hok.2; omega) hwalk₁ hcov
      have hstore := htouch.1.inv.store_view htouch.1.user hok.2 hwalk₁ hU (write_of_bits hbits)
        hppn hoffset value
      rw [hview] at hstore
      exact hstore

/-- `memcpy` to a checked range of user memory. -/
theorem storeAll_view (h : Serving L i k) {dst : Nat} {src : List UInt8}
    (hdst : dst + src.length < 4294967296)
    (hok : ∀ j, j < src.length → ByteOk k i vmaProtW (dst + j))
    (hcall : storeAll L dst src k = .ok k') :
    Leaves L i k ((k.view i).write dst src) k' := by
  induction src generalizing dst k with
  | nil =>
      cases hcall
      exact ⟨h, ⟨rfl, rfl⟩, (View.write_nil).symm⟩
  | cons byte rest ih =>
      rw [List.length_cons] at hdst
      have hfirst := hok 0 (Nat.zero_lt_succ _)
      rw [Nat.add_zero] at hfirst
      unfold storeAll at hcall
      cases hstep : storeByte L dst byte k with
      | error e =>
          rw [hstep] at hcall
          cases hcall
      | ok k₁ =>
          rw [hstep, u32_of_lt (by omega)] at hcall
          obtain ⟨hserving, htable, hview⟩ := storeByte_view h hfirst hstep
          have hrest := ih hserving (by omega) (fun j hj => by
            rw [Nat.add_right_comm, Nat.add_assoc]
            exact (hok (j + 1) (Nat.succ_lt_succ hj)).table htable) hcall
          obtain ⟨hserving', htable', hview'⟩ := hrest
          refine ⟨hserving', sameTable_follows.trans htable htable', ?_⟩
          rw [hview', hview, View.write_cons]

/-- What `copy_to_user` does, if it returns. -/
theorem copyToUser_view (h : Serving L i k) {dst : Nat} {src : List UInt8}
    (hdst : dst < 4294967296) (hsrc : src.length < 4294967296) {ok : Bool}
    (hcall : copyToUser L dst src k = .ok (ok, k')) :
    (ok = true ↔ src = [] ∨ dst ≠ 0 ∧ procVmaRangeOk (k.procs i) dst src.length vmaProtW = true) ∧
      Leaves L i k (if ok then (k.view i).write dst src else k.view i) k' := by
  unfold copyToUser at hcall
  split at hcall
  · rename_i hnil
    cases hcall
    have hsrc : src = [] := List.length_eq_zero_iff.mp hnil
    subst hsrc
    exact ⟨iff_of_true rfl (.inl rfl), h, ⟨rfl, rfl⟩, View.write_nil.symm⟩
  · rename_i hne
    rw [List.length_eq_zero_iff] at hne
    split at hcall
    · rename_i hcheck
      cases hcall
      rw [h.writable] at hcheck
      refine ⟨iff_of_false (by decide) ?_, h, ⟨rfl, rfl⟩, rfl⟩
      rintro (hnil | ⟨hzero, hrange⟩)
      · exact hne hnil
      · exact hcheck.elim hzero (· hrange)
    · rename_i hcheck
      rw [not_or, not_not, h.writable] at hcheck
      cases hstore : storeAll L dst src k with
      | error e =>
          rw [hstore] at hcall
          cases hcall
      | ok k₁ =>
          rw [hstore] at hcall
          cases hcall
          have hfits := (procVmaRangeOk_covers hcheck.2 hdst hsrc (le_refl dst) (by
            have := List.length_pos_iff.mpr hne
            omega)).2.1
          exact ⟨iff_of_true rfl (.inr hcheck), storeAll_view h hfits
            (fun j hj => (h.byteOk hdst hsrc hcheck.2 hj).1) hstore⟩

/-! ## Copies from the process -/

/-- The loop of `copy_string_from_user`. -/
theorem copyStringLoop_readsAs (h : Reader L i k) {src left n : Nat} (hn : src + n < 4294967296) :
    ReadsAs L i k ((k.view i).cstr src left n) (copyStringLoop L src left n k) := by
  induction left generalizing n k with
  | zero => exact ReadsAs.pure h
  | succ left ih =>
      unfold copyStringLoop View.cstr
      rw [u32_of_lt hn]
      have hreadable := h.readable_byte hn
      cases hread : k.view i (src + n) with
      | none =>
          rw [if_pos (.inr fun hok => hreadable.mp hok hread)]
          exact ReadsAs.pure h
      | some byte =>
          have hsome : k.view i (src + n) ≠ none := ne_of_eq_of_ne hread (Option.some_ne_none _)
          have hlt := h.inv.view_lt h.user hsome
          rw [if_neg (by
            rw [not_or, not_not]
            exact ⟨by omega, hreadable.mpr hsome⟩)]
          have hload := loadByte_readsAs h hn hread
          cases hcall : loadByte L (src + n) k with
          | error e =>
              rw [hcall] at hload
              exact hload.error
          | ok out =>
              obtain ⟨byte', k₁⟩ := out
              rw [hcall] at hload
              obtain ⟨rfl, hsame⟩ := hload
              dsimp only
              split
              · exact (ReadsAs.pure hsame.reader).after hsame
              · have hrest := ih hsame.reader (n := n + 1) (by omega)
                rw [hsame.view] at hrest
                cases hcall' : copyStringLoop L src left (n + 1) k₁ with
                | error e =>
                    rw [hcall'] at hrest
                    exact ReadsAs.after hsame hrest.error
                | ok out =>
                    rw [hcall'] at hrest
                    obtain ⟨heq, hsame'⟩ := hrest
                    exact ⟨by rw [heq], hsame.trans hsame'⟩

/-- `copy_string_from_user` returns the string the process sees, or `-1` when it cannot read it
or the string does not end within the capacity. -/
theorem copyStringFromUser_readsAs (h : Reader L i k) {src : Nat} (hsrc : src < 4294967296)
    (capacity : Nat) :
    ReadsAs L i k (if src = 0 then none else (k.view i).cstr src capacity 0)
      (copyStringFromUser L src capacity k) := by
  unfold copyStringFromUser
  by_cases hnull : src = 0
  · rw [if_pos hnull, if_pos (.inl hnull)]
    exact ReadsAs.pure h
  · rw [if_neg hnull]
    cases capacity with
    | zero =>
        rw [if_pos (.inr rfl)]
        exact ReadsAs.pure h
    | succ left =>
        rw [if_neg (by
          rw [not_or]
          exact ⟨hnull, Nat.succ_ne_zero left⟩)]
        exact copyStringLoop_readsAs h hsrc

end Sugimotos.Proc
