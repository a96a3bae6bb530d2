/-
# Copying from and to user memory

Model of `mm/usercopy.c`, and what its functions do for a user process: every access lies, at
the moment it is made, in a VMA that allows it; the invariant of the kernel is kept; and the
bytes copied in are those that the process itself would read.
-/

import Sugimotos.Proc.ExecArgs
import Sugimotos.Proc.Wait

namespace Sugimotos.Proc

open Sugimotos.Math Sugimotos.Mm

section Model

variable (L : Layout)

/-- The loop of `copy_string_from_user` from offset `i` on, with `left` turns left. -/
def copyStringLoop (src : Nat) : Nat → Nat → Kernel → Except Halt (Option (List UInt8) × Kernel)
  | 0, _, k => .ok (none, k)
  | left + 1, i, k =>
      if u32 (src + i) < src ∨ ¬ procUserReadableOk k (u32 (src + i)) 1 then .ok (none, k)
      else
        match loadByte L (u32 (src + i)) k with
        | .error e => .error e
        | .ok (byte, k) =>
            if byte = 0 then .ok (some [], k)
            else
              match copyStringLoop src left (i + 1) k with
              | .error e => .error e
              | .ok (rest, k) => .ok (rest.map (byte :: ·), k)

/-- `copy_string_from_user` to a kernel buffer: the bytes before the terminating zero. -/
def copyStringFromUser (src capacity : Nat) (k : Kernel) :
    Except Halt (Option (List UInt8) × Kernel) :=
  if src = 0 ∨ capacity = 0 then .ok (none, k) else copyStringLoop L src capacity 0 k

end Model

variable {L : Layout} {k k' : Kernel} {i : Fin procMax}

/-! ## Allowed accesses -/

/-- The access lay, when it was made, in a VMA that allows it. -/
def UserTouch.Allowed (t : UserTouch) : Prop :=
  ∃ j, ((t.vmas j).used = true ∧ (t.vmas j).start ≤ t.addr ∧ t.addr < (t.vmas j).stop) ∧
    (t.vmas j).prot &&& t.access = t.access

/-- Every access the kernel has made so far was allowed. -/
def Kernel.TouchesAllowed (k : Kernel) : Prop := ∀ t ∈ k.touched, t.Allowed

/-- The invariant of the runs. -/
structure Guarded (L : Layout) (k : Kernel) : Prop where
  inv : KernelInv L k
  touches : k.TouchesAllowed

/-- The kernel works for the user process in slot `i`. -/
structure Serving (L : Layout) (i : Fin procMax) (k : Kernel) : Prop where
  inv : KernelInv L k
  running : k.running = some i
  user : (k.procs i).isUser = true
  touches : k.TouchesAllowed

/-- The processes other than `i` that are there and have not exited stay so, in their mode. -/
def Spares (i : Fin procMax) (k k' : Kernel) : Prop :=
  ∀ j, j ≠ i → (k.procs j).state ≠ .unused → (k.procs j).state ≠ .zombie →
    (k'.procs j).isUser = (k.procs j).isUser ∧ (k'.procs j).state ≠ .unused ∧
      (k'.procs j).state ≠ .zombie

/-- What holds when a call of process `i` ends without returning. -/
def Ended (L : Layout) (i : Fin procMax) (k : Kernel) : Halt → Prop
  | .stop _ touched => ∀ t ∈ touched, t.Allowed
  | .exited k' => Guarded L k' ∧ Spares i k k'

/-- A call that reaches the user memory of the process it works for. -/
def Serves (L : Layout) (i : Fin procMax) (k : Kernel) {α : Type} (m : Except Halt (α × Kernel)) :
    Prop :=
  Outcome m (fun out => Serving L i out.2 ∧ SameTable k out.2) (Ended L i k)

theorem Serving.cur (h : Serving L i k) : k.currentProc = some i :=
  (Kernel.running_eq_some.mp h.running).1

theorem Serving.reader (h : Serving L i k) : Reader L i k := ⟨h.inv, h.cur, h.user⟩

theorem Serves.pure (h : Serving L i k) {α : Type} (a : α) : Serves L i k (.ok (a, k)) :=
  ⟨h, rfl, rfl⟩

theorem Serves.error {α β : Type} {e : Halt}
    (h : Serves L i k (.error e : Except Halt (α × Kernel))) :
    Serves L i k (.error e : Except Halt (β × Kernel)) := h

theorem Spares.refl (i : Fin procMax) (k : Kernel) : Spares i k k :=
  fun _ _ hused hlive => ⟨rfl, hused, hlive⟩

theorem Spares.trans {k₁ : Kernel} (h : Spares i k k₁) (h' : Spares i k₁ k') : Spares i k k' := by
  intro j hj hused hlive
  obtain ⟨huser, hused₁, hlive₁⟩ := h j hj hused hlive
  obtain ⟨huser', hused', hlive'⟩ := h' j hj hused₁ hlive₁
  exact ⟨huser'.trans huser, hused', hlive'⟩

theorem Spares.of_procs (h : k'.procs = k.procs) : Spares i k k' := by
  intro j _ hused hlive
  rw [h]
  exact ⟨rfl, hused, hlive⟩

theorem Change.spares {status : Int} (h : Change status k k') (hcur : k.currentProc = some i) :
    Spares i k k' := by
  intro j hj hused hlive
  have hne : k.currentProc ≠ some j := by
    intro heq
    rw [hcur] at heq
    exact hj (Option.some.inj heq).symm
  obtain ⟨-, huser, hstate⟩ := h.bystander hne hused hlive
  refine ⟨huser, ?_⟩
  rcases hstate with hstate | hstate <;> rw [hstate]
  · exact ⟨hused, hlive⟩
  · exact ⟨nofun, nofun⟩

theorem Serves.after {k₁ : Kernel} (htable : SameTable k k₁) {α : Type}
    {m : Except Halt (α × Kernel)} (h : Serves L i k₁ m) : Serves L i k m := by
  refine Outcome.mono h (fun _ hout => ⟨hout.1, sameTable_follows.trans htable hout.2⟩) ?_
  intro e he
  cases e with
  | stop e touched => exact he
  | exited k' => exact ⟨he.1, (Spares.of_procs htable.1).trans he.2⟩

/-- The table decides what may be accessed. -/
theorem SameTable.writable {k k' : Kernel} (h : SameTable k k') (addr len : Nat) :
    procUserWritableOk k' addr len = procUserWritableOk k addr len := by
  unfold procUserWritableOk
  rw [h.1, h.2]

theorem SameTable.readable {k k' : Kernel} (h : SameTable k k') (addr len : Nat) :
    procUserReadableOk k' addr len = procUserReadableOk k addr len := by
  unfold procUserReadableOk
  rw [h.1, h.2]

/-! ## One byte -/

theorem procExit_touched (status : Int) (k : Kernel) : (procExit status k).touched = k.touched := by
  unfold procExit
  split
  · rfl
  · dsimp only
    split
    · rfl
    · split <;> rfl

/-- What an access adds to the record. -/
theorem touch_touched (h : k.currentProc = some i) (access va : Nat) :
    Along (fun k k' => k'.touched = ⟨i, access, va, (k.procs i).vmas⟩ :: k.touched) k
      (touch L access va k) := by
  unfold touch
  rw [h]
  dsimp only
  split
  · rfl
  · split
    · trivial
    · split
      · trivial
      · exact ⟨_, rfl, rfl⟩
      · split
        · rfl
        · trivial

theorem touch_stopped (h : k.currentProc = some i) {access va : Nat} {e : Stop}
    {touched : List UserTouch} (hcall : touch L access va k = .error (.stop e touched)) :
    touched = ⟨i, access, va, (k.procs i).vmas⟩ :: k.touched := by
  unfold touch at hcall
  rw [h] at hcall
  dsimp only at hcall
  split at hcall
  · cases hcall
  split at hcall
  · cases hcall
    rfl
  split at hcall
  · cases hcall
    rfl
  · cases hcall
  · split at hcall
    · cases hcall
    · cases hcall
      rfl

/-- An access that the VMAs allow. -/
theorem touch_serves (h : Serving L i k) {access va : Nat}
    (hallowed : UserTouch.Allowed ⟨i, access, va, (k.procs i).vmas⟩) :
    Serves L i k (touch L access va k) := by
  have hreads := touch_reads (L := L) access va k
  have htouched := touch_touched (L := L) h.cur access va
  have hall : ∀ {touched : List UserTouch},
      touched = ⟨i, access, va, (k.procs i).vmas⟩ :: k.touched → ∀ t ∈ touched, t.Allowed := by
    rintro touched rfl t ht
    rcases List.mem_cons.mp ht with rfl | hin
    · exact hallowed
    · exact h.touches t hin
  cases hcall : touch L access va k with
  | ok out =>
      rw [hcall] at hreads htouched
      have hgood : Reads L k out.2 := hreads
      refine ⟨⟨(hgood.kept h.inv).inv, ?_, ?_, hall htouched⟩, hgood.table⟩
      · unfold Kernel.running
        rw [hgood.table.1, hgood.table.2]
        exact h.running
      · rw [hgood.table.1]
        exact h.user
  | error e =>
      cases e with
      | stop e touched => exact hall (touch_stopped h.cur hcall)
      | exited k₁ =>
          rw [hcall] at hreads htouched
          have hkept := hreads.kept h.inv h.running (show settle _ = .ok k₁ from rfl)
          obtain ⟨k₂, heq, rfl⟩ := htouched
          refine ⟨⟨hkept.inv, ?_⟩, ?_⟩
          · have hexit := hall heq
            unfold Kernel.TouchesAllowed
            rw [procExit_touched]
            exact hexit
          · have hsettle : settle (.error (.exited (procExit 128 k₂)) : Except Halt (Nat × Kernel)) =
                .ok (procExit 128 k₂) := rfl
            have hcalm := touch_calm (L := L) access va k
            rw [hcall] at hcalm
            exact (hcalm.change h.running hsettle).spares h.cur

/-- The byte at an address is in a VMA that allows the access. -/
def ByteOk (k : Kernel) (i : Fin procMax) (need va : Nat) : Prop :=
  procVmaRangeOk (k.procs i) va 1 need = true ∧ va < 4294967296

theorem ByteOk.allowed {need va : Nat} (h : ByteOk k i need va) :
    UserTouch.Allowed ⟨i, need, va, (k.procs i).vmas⟩ := by
  obtain ⟨-, -, j, hin, hprot⟩ :=
    procVmaRangeOk_covers h.1 h.2 (by decide) (le_refl va) (Nat.lt_succ_self va)
  exact ⟨j, hin, hprot⟩

theorem ByteOk.table {need va : Nat} (h : ByteOk k i need va) (htable : SameTable k k') :
    ByteOk k' i need va := by
  unfold ByteOk
  rw [htable.1]
  exact h

/-- The bytes of a range that passes the check. -/
theorem Serving.byteOk (h : Serving L i k) {addr len need : Nat} (haddr : addr < 4294967296)
    (hlen : len < 4294967296) (hok : procVmaRangeOk (k.procs i) addr len need = true) {j : Nat}
    (hj : j < len) : ByteOk k i need (addr + j) ∧ u32 (addr + j) = addr + j := by
  obtain ⟨-, hfits, hcovers⟩ := procVmaRangeOk_covers hok haddr hlen (Nat.le_add_right addr j)
    (by omega)
  have hmap := ((procVmaRangeOk_iff (h.inv.vma h.user) h.user haddr (by omega) hlen).mp hok).2
  refine ⟨⟨(procVmaRangeOk_iff (h.inv.vma h.user) h.user (by omega) (by decide) (by decide)).mpr
    ⟨by omega, fun a hlo hhi => hmap a (by omega) (by omega)⟩, by omega⟩, u32_of_lt (by omega)⟩

theorem Serving.readable (h : Serving L i k) (addr len : Nat) :
    procUserReadableOk k addr len = procVmaRangeOk (k.procs i) addr len vmaProtR := by
  unfold procUserReadableOk
  rw [h.cur]
  dsimp only
  rw [if_neg (not_not.mpr h.user)]

theorem Serving.writable (h : Serving L i k) (addr len : Nat) :
    procUserWritableOk k addr len = procVmaRangeOk (k.procs i) addr len vmaProtW := by
  unfold procUserWritableOk
  rw [h.cur]
  dsimp only
  rw [if_neg (not_not.mpr h.user)]

theorem loadByte_serves (h : Serving L i k) {va : Nat} (hok : ByteOk k i vmaProtR va) :
    Serves L i k (loadByte L va k) := by
  have htouch := touch_serves h hok.allowed
  unfold loadByte
  cases hres : touch L vmaProtR va k with
  | error e =>
      rw [hres] at htouch
      exact htouch.error
  | ok out =>
      rw [hres] at htouch
      exact htouch

theorem storeByte_serves (h : Serving L i k) {va : Nat} (hok : ByteOk k i vmaProtW va)
    (value : UInt8) :
    Serves L i k ((storeByte L va value k).map fun k => ((), k)) := by
  have htouch := touch_serves h hok.allowed
  have hva : (UInt32.ofNat va).toNat = va := UInt32.toNat_ofNat_of_lt' hok.2
  have hcheck : checked k (.ofNat va) vmaProtW = true := by
    unfold checked
    rw [h.running]
    dsimp only
    rw [h.user, hva, hok.1]
    rfl
  have hstep := fun k' => @kernelStore_step _ _ k' _ _ value h.inv hcheck h.running
  rw [hva] at hstep
  unfold storeByte at hstep ⊢
  cases hres : touch L vmaProtW va k with
  | error e =>
      rw [hres] at htouch
      exact htouch.error
  | ok out =>
      obtain ⟨pa, k₁⟩ := out
      rw [hres] at htouch hstep
      obtain ⟨hserving, htable⟩ := htouch
      refine ⟨⟨(hstep _ rfl).inv, ?_, ?_, hserving.touches⟩, htable⟩
      · exact hserving.running
      · exact hserving.user

/-! ## Copies -/

theorem u32_succ_add (a j : Nat) : u32 (u32 (a + 1) + j) = u32 (a + (j + 1)) := by
  unfold u32
  omega

theorem storeAll_serves (h : Serving L i k) {dst : Nat} {src : List UInt8}
    (hdst : dst < 4294967296)
    (hok : ∀ j, j < src.length → ByteOk k i vmaProtW (u32 (dst + j))) :
    Serves L i k ((storeAll L dst src k).map fun k => ((), k)) := by
  induction src generalizing dst k with
  | nil => exact Serves.pure h ()
  | cons byte rest ih =>
      have hfirst := hok 0 (Nat.zero_lt_succ _)
      rw [Nat.add_zero, u32_of_lt hdst] at hfirst
      have hstore := storeByte_serves h hfirst byte
      unfold storeAll
      cases hcall : storeByte L dst byte k with
      | error e =>
          rw [hcall] at hstore
          exact hstore.error
      | ok k₁ =>
          rw [hcall] at hstore
          obtain ⟨hserving, htable⟩ := hstore
          refine Serves.after htable (ih hserving (u32_lt _) fun j hj => ?_)
          rw [u32_succ_add]
          exact (hok (j + 1) (Nat.succ_lt_succ hj)).table htable

/-- The bytes of a checked range, as the copies address them. -/
theorem Serving.bytesOk (h : Serving L i k) {addr len need : Nat} (haddr : addr < 4294967296)
    (hlen : len < 4294967296) (hok : procVmaRangeOk (k.procs i) addr len need = true) :
    ∀ j, j < len → ByteOk k i need (u32 (addr + j)) := by
  intro j hj
  obtain ⟨hbyte, hfits⟩ := h.byteOk haddr hlen hok hj
  rw [hfits]
  exact hbyte

theorem copyToUser_serves (h : Serving L i k) {dst : Nat} {src : List UInt8}
    (hdst : dst < 4294967296) (hsrc : src.length < 4294967296) :
    Serves L i k (copyToUser L dst src k) := by
  unfold copyToUser
  split
  · exact Serves.pure h true
  · split
    · exact Serves.pure h false
    · rename_i hcheck
      rw [not_or, not_not, h.writable] at hcheck
      have hstore := storeAll_serves h hdst (h.bytesOk hdst hsrc hcheck.2)
      cases hcall : storeAll L dst src k with
      | error e =>
          rw [hcall] at hstore
          exact hstore.error
      | ok k₁ =>
          rw [hcall] at hstore
          exact hstore

theorem copyStringLoop_serves (h : Serving L i k) (src left n : Nat) :
    Serves L i k (copyStringLoop L src left n k) := by
  induction left generalizing n k with
  | zero => exact Serves.pure h _
  | succ left ih =>
      unfold copyStringLoop
      split
      · exact Serves.pure h _
      · rename_i hcheck
        rw [not_or, not_not, h.readable] at hcheck
        have hload := loadByte_serves h ⟨hcheck.2, u32_lt (src + n)⟩
        cases hcall : loadByte L (u32 (src + n)) k with
        | error e =>
            rw [hcall] at hload
            exact hload.error
        | ok out =>
            obtain ⟨byte, k₁⟩ := out
            rw [hcall] at hload
            obtain ⟨hserving, htable⟩ := hload
            dsimp only
            split
            · exact Serves.after htable (Serves.pure hserving _)
            · have hrest := ih hserving (n + 1)
              cases hcall' : copyStringLoop L src left (n + 1) k₁ with
              | error e =>
                  rw [hcall'] at hrest
                  exact Serves.after htable hrest.error
              | ok out =>
                  rw [hcall'] at hrest
                  exact Serves.after htable hrest

theorem copyStringFromUser_serves (h : Serving L i k) (src capacity : Nat) :
    Serves L i k (copyStringFromUser L src capacity k) := by
  unfold copyStringFromUser
  split
  · exact Serves.pure h _
  · exact copyStringLoop_serves h src capacity 0

end Sugimotos.Proc
