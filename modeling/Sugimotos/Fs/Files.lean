/-
# The ramfs as a map of byte files

The invariant that relates the inode slots and the descriptors to the history of
a run: every used slot holds the bytes written to its incarnation, and every
open descriptor names the slot of the incarnation it was opened on.
-/

import Mathlib.Data.List.GetD
import Sugimotos.Fs.Runs

namespace Sugimotos.Fs

open Sugimotos.Mm Sugimotos.Proc

/-- A name the ramfs stores: at most 31 characters, none of them a slash. -/
def NameOk (name : List UInt8) : Prop :=
  name ≠ [] ∧ name.length ≤ 31 ∧ slash ∉ name

/-- The inode slots hold the files of the history. -/
structure InodesOk (inodes : Inodes) (h : History) : Prop where
  name_ok : ∀ i, (inodes i).used = true → NameOk (inodes i).name
  name_inj : ∀ i j, (inodes i).used = true → (inodes j).used = true →
    (inodes i).name = (inodes j).name → i = j
  size_le : ∀ i, (inodes i).size ≤ ramfsDataMax
  born : ∀ i, (inodes i).used = true → h.incarnation i < h.born
  inc_inj : ∀ i j, (inodes i).used = true → (inodes j).used = true →
    h.incarnation i = h.incarnation j → i = j
  events : ∀ e ∈ h.events, e.file < h.born
  data : ∀ i, (inodes i).used = true →
    ∀ p, (inodes i).data p = (lastWritten (h.incarnation i) p h.events).getD 0
  beyond : ∀ i, (inodes i).used = true →
    ∀ p, (inodes i).size ≤ p → writtenSince (h.incarnation i) p h.events = none

/-- A descriptor names the slot of the incarnation it was opened on. -/
def Refers (inodes : Inodes) (h : History) (file : Nat) (d : FileDesc) : Prop :=
  ∃ slot, FileDesc.slot d = some slot ∧ (inodes slot).used = true ∧
    h.incarnation slot = file ∧ d.offset ≤ ramfsDataMax

/-- The descriptors of all processes. -/
structure DescsOk (procs : Fin procMax → Process) (inodes : Inodes) (h : History) : Prop where
  refers : ∀ p fd, ((procs p).fds fd).used = true →
    Refers inodes h (h.opened p fd) ((procs p).fds fd)
  free : ∀ p, (procs p).state = .unused → ∀ fd, ((procs p).fds fd).used = false

/-- The invariant of a run. -/
structure FsInv (t : Traced) : Prop where
  inodes : InodesOk t.sys.inodes t.hist
  descs : DescsOk t.sys.kernel.procs t.sys.inodes t.hist

/-! ## Names -/

theorem nameLoop_some {p name out : List UInt8} (h : nameLoop p name = some out)
    (hlen : name.length ≤ 31) (hslash : slash ∉ name) :
    out = name ++ p ∧ out.length ≤ 31 ∧ slash ∉ out := by
  induction p generalizing name with
  | nil =>
      cases h
      exact ⟨(List.append_nil _).symm, hlen, hslash⟩
  | cons c rest ih =>
      unfold nameLoop at h
      split at h
      · cases h
      · rename_i hc
        split at h
        · cases h
        · rename_i hfit
          have hlen' : (name ++ [c]).length ≤ 31 := by
            unfold ramfsNameMax at hfit
            rw [List.length_append, List.length_singleton]
            omega
          have hslash' : slash ∉ name ++ [c] := by
            simp only [List.mem_append, List.mem_singleton, not_or]
            exact ⟨hslash, Ne.symm hc⟩
          obtain ⟨hout, hrest⟩ := ih h hlen' hslash'
          exact ⟨by rw [hout, List.append_assoc, List.singleton_append], hrest⟩

theorem normalizeName_ok {path : Option (List UInt8)} {name : List UInt8}
    (h : normalizeName path = some name) : NameOk name := by
  unfold normalizeName at h
  split at h
  · cases h
  · split at h
    · cases h
    · dsimp only at h
      split at h
      · cases h
      · rename_i hne
        obtain ⟨hout, hlen, hslash⟩ := nameLoop_some h (by decide) (by decide)
        refine ⟨?_, hlen, hslash⟩
        rw [hout]
        exact hne

theorem findInodeByName_some {inodes : Inodes} {name : List UInt8} {i : Fin ramfsMaxFiles}
    (h : findInodeByName inodes name = some i) :
    (inodes i).used = true ∧ (inodes i).name = name := by
  have hi := List.find?_some h
  simpa using hi

theorem findInodeByName_none {inodes : Inodes} {name : List UInt8}
    (h : findInodeByName inodes name = none) (j : Fin ramfsMaxFiles)
    (hj : (inodes j).used = true) : (inodes j).name ≠ name := by
  have hnone := List.find?_eq_none.mp h j (List.mem_finRange j)
  intro hname
  simp [hj, hname] at hnone

theorem allocInode_some {inodes : Inodes} {i : Fin ramfsMaxFiles}
    (h : allocInode inodes = some i) : (inodes i).used = false := by
  have hi := List.find?_some h
  simpa using hi

/-! ## The inode slots -/

/-- Two histories that agree on the files and their events. -/
theorem InodesOk.congr_opened {inodes : Inodes} {h : History}
    (hok : InodesOk inodes h) (opened : Fin procMax → Fin fdMax → Nat) :
    InodesOk inodes { h with opened := opened } :=
  ⟨hok.name_ok, hok.name_inj, hok.size_le, hok.born, hok.inc_inj, hok.events, hok.data, hok.beyond⟩

theorem InodesOk.install {inodes : Inodes} {h : History} (hok : InodesOk inodes h) (k : Kernel)
    (file : Nat) : InodesOk inodes (h.install k file) := by
  unfold History.install
  split
  · exact hok
  · split
    · exact hok
    · exact hok.congr_opened _

/-- A new file starts empty, under the next number. -/
theorem InodesOk.create {inodes : Inodes} {h : History} (hok : InodesOk inodes h)
    {i : Fin ramfsMaxFiles} {name : List UInt8} (hname : NameOk name)
    (hnew : ∀ j, (inodes j).used = true → (inodes j).name ≠ name) :
    InodesOk (Function.update inodes i { RamfsInode.zero with used := true, name := name })
      (h.create i) := by
  have hfresh : ∀ e ∈ h.events, e.file ≠ h.born := fun e he => (hok.events e he).ne
  refine ⟨?_, ?_, ?_, ?_, ?_, ?_, ?_, ?_⟩
  · intro j hj
    by_cases hji : j = i
    · subst hji
      rw [Function.update_self]
      exact hname
    · rw [Function.update_of_ne hji] at hj ⊢
      exact hok.name_ok j hj
  · intro j l hj hl hjl
    by_cases hji : j = i <;> by_cases hli : l = i
    · rw [hji, hli]
    · subst hji
      rw [Function.update_self, Function.update_of_ne hli] at hjl
      rw [Function.update_of_ne hli] at hl
      exact absurd hjl.symm (hnew l hl)
    · subst hli
      rw [Function.update_self, Function.update_of_ne hji] at hjl
      rw [Function.update_of_ne hji] at hj
      exact absurd hjl (hnew j hj)
    · rw [Function.update_of_ne hji] at hj hjl
      rw [Function.update_of_ne hli] at hl hjl
      exact hok.name_inj j l hj hl hjl
  · intro j
    by_cases hji : j = i
    · subst hji
      rw [Function.update_self]
      exact Nat.zero_le _
    · rw [Function.update_of_ne hji]
      exact hok.size_le j
  · intro j hj
    by_cases hji : j = i
    · subst hji
      simp [History.create]
    · rw [Function.update_of_ne hji] at hj
      have hborn := hok.born j hj
      simp only [History.create, Function.update_of_ne hji]
      omega
  · intro j l hj hl hjl
    simp only [History.create] at hjl
    by_cases hji : j = i <;> by_cases hli : l = i
    · rw [hji, hli]
    · subst hji
      rw [Function.update_self, Function.update_of_ne hli] at hjl
      rw [Function.update_of_ne hli] at hl
      exact absurd hjl.symm (hok.born l hl).ne
    · subst hli
      rw [Function.update_self, Function.update_of_ne hji] at hjl
      rw [Function.update_of_ne hji] at hj
      exact absurd hjl (hok.born j hj).ne
    · rw [Function.update_of_ne hji] at hj hjl
      rw [Function.update_of_ne hli] at hl hjl
      exact hok.inc_inj j l hj hl hjl
  · intro e he
    exact (hok.events e he).trans (Nat.lt_succ_self _)
  · intro j hj p
    by_cases hji : j = i
    · subst hji
      simp only [History.create, Function.update_self]
      rw [lastWritten_eq_none hfresh]
      rfl
    · rw [Function.update_of_ne hji] at hj ⊢
      simp only [History.create, Function.update_of_ne hji]
      exact hok.data j hj p
  · intro j hj p hp
    by_cases hji : j = i
    · subst hji
      simp only [History.create, Function.update_self]
      exact writtenSince_eq_none hfresh
    · rw [Function.update_of_ne hji] at hj hp
      simp only [History.create, Function.update_of_ne hji]
      exact hok.beyond j hj p hp

/-- A change of one used inode that keeps its name, with events about its file
only. -/
theorem InodesOk.modify {inodes : Inodes} {h : History} (hok : InodesOk inodes h)
    {i : Fin ramfsMaxFiles} {inode : RamfsInode} (es : List Event)
    (hi : (inodes i).used = true) (hname : inode.name = (inodes i).name)
    (hsize : inode.size ≤ ramfsDataMax)
    (hes : ∀ e ∈ es, e.file = h.incarnation i)
    (hothers : ∀ file pos, file ≠ h.incarnation i →
      lastWritten file pos (es ++ h.events) = lastWritten file pos h.events ∧
      writtenSince file pos (es ++ h.events) = writtenSince file pos h.events)
    (hdata : ∀ p, inode.data p = (lastWritten (h.incarnation i) p (es ++ h.events)).getD 0)
    (hbeyond : ∀ p, inode.size ≤ p →
      writtenSince (h.incarnation i) p (es ++ h.events) = none) :
    InodesOk (Function.update inodes i inode) { h with events := es ++ h.events } := by
  have hused : ∀ j, (Function.update inodes i inode j).used = true → (inodes j).used = true := by
    intro j hj
    by_cases hji : j = i
    · rw [hji]
      exact hi
    · rwa [Function.update_of_ne hji] at hj
  have hnames : ∀ j, (Function.update inodes i inode j).name = (inodes j).name := by
    intro j
    by_cases hji : j = i
    · subst hji
      rw [Function.update_self]
      exact hname
    · rw [Function.update_of_ne hji]
  have hdiff : ∀ j, (inodes j).used = true → j ≠ i → h.incarnation j ≠ h.incarnation i :=
    fun j hj hji heq => hji (hok.inc_inj j i hj hi heq)
  refine ⟨?_, ?_, ?_, fun j hj => hok.born j (hused j hj), ?_, ?_, ?_, ?_⟩
  · intro j hj
    rw [hnames]
    exact hok.name_ok j (hused j hj)
  · intro j l hj hl hjl
    rw [hnames, hnames] at hjl
    exact hok.name_inj j l (hused j hj) (hused l hl) hjl
  · intro j
    by_cases hji : j = i
    · subst hji
      rw [Function.update_self]
      exact hsize
    · rw [Function.update_of_ne hji]
      exact hok.size_le j
  · intro j l hj hl hjl
    exact hok.inc_inj j l (hused j hj) (hused l hl) hjl
  · intro e he
    rcases List.mem_append.mp he with he | he
    · rw [hes e he]
      exact hok.born i hi
    · exact hok.events e he
  · intro j hj p
    by_cases hji : j = i
    · subst hji
      rw [Function.update_self]
      exact hdata p
    · rw [Function.update_of_ne hji]
      rw [(hothers _ p (hdiff j (hused j hj) hji)).1]
      exact hok.data j (hused j hj) p
  · intro j hj p hp
    by_cases hji : j = i
    · subst hji
      rw [Function.update_self] at hp
      exact hbeyond p hp
    · rw [Function.update_of_ne hji] at hp
      rw [(hothers _ p (hdiff j (hused j hj) hji)).2]
      exact hok.beyond j (hused j hj) p hp

/-- `O_TRUNC` on a used inode. -/
theorem InodesOk.truncate {inodes : Inodes} {h : History} (hok : InodesOk inodes h)
    {i : Fin ramfsMaxFiles} (hi : (inodes i).used = true) :
    InodesOk (Function.update inodes i { inodes i with size := 0 })
      { h with events := .truncate (h.incarnation i) :: h.events } := by
  refine hok.modify [.truncate (h.incarnation i)] hi rfl (Nat.zero_le _) ?_ ?_ ?_ ?_
  · intro e he
    rw [List.mem_singleton.mp he]
    rfl
  · intro file pos hfile
    exact ⟨rfl, if_neg (Ne.symm hfile)⟩
  · intro p
    exact hok.data i hi p
  · intro p _
    exact if_pos rfl

/-- A write of `n` bytes at `offset`. -/
theorem InodesOk.write {inodes : Inodes} {h : History} (hok : InodesOk inodes h)
    {i : Fin ramfsMaxFiles} (hi : (inodes i).used = true) {offset n : Nat} (src : Nat → UInt8)
    (hfit : offset + n ≤ ramfsDataMax) :
    InodesOk (Function.update inodes i { inodes i with
        data := storeBytes (inodes i).data offset n src
        size := if (inodes i).size < offset + n then offset + n else (inodes i).size })
      { h with events := writeEvents (h.incarnation i) offset n src ++ h.events } := by
  refine hok.modify (writeEvents (h.incarnation i) offset n src) hi rfl ?_ ?_ ?_ ?_ ?_
  · have hsize := hok.size_le i
    dsimp only
    split <;> assumption
  · intro e he
    obtain ⟨j, -, rfl⟩ := List.mem_map.mp he
    rfl
  · intro file pos hfile
    rw [lastWritten_append, writtenSince_append, lastWritten_writeEvents,
      if_neg fun hin => hfile hin.1.symm]
    exact ⟨rfl, rfl⟩
  · intro p
    have hnew := lastWritten_writeEvents (h.incarnation i) p (h.incarnation i) offset n src
    rw [lastWritten_append]
    by_cases hin : offset ≤ p ∧ p < offset + n
    · rw [hnew.trans (if_pos ⟨rfl, hin⟩)]
      exact if_pos hin
    · rw [hnew.trans (if_neg fun hall => hin hall.2)]
      exact (if_neg hin).trans (hok.data i hi p)
  · intro p hp
    have hpast : (inodes i).size ≤ p ∧ offset + n ≤ p := by
      dsimp only at hp
      split at hp <;> omega
    rw [writtenSince_append, lastWritten_writeEvents, if_neg fun hall => by omega]
    exact hok.beyond i hi p hpast.1

/-- A freed slot. -/
theorem InodesOk.unlink {inodes : Inodes} {h : History} (hok : InodesOk inodes h)
    (i : Fin ramfsMaxFiles) : InodesOk (Function.update inodes i .zero) h := by
  have hkeep : ∀ j, (Function.update inodes i .zero j).used = true →
      j ≠ i ∧ Function.update inodes i .zero j = inodes j := by
    intro j hj
    have hji : j ≠ i := by
      rintro rfl
      rw [Function.update_self] at hj
      cases hj
    exact ⟨hji, Function.update_of_ne hji ..⟩
  refine ⟨?_, ?_, ?_, ?_, ?_, hok.events, ?_, ?_⟩
  · intro j hj
    obtain ⟨-, heq⟩ := hkeep j hj
    rw [heq] at hj ⊢
    exact hok.name_ok j hj
  · intro j l hj hl hjl
    obtain ⟨-, hjeq⟩ := hkeep j hj
    obtain ⟨-, hleq⟩ := hkeep l hl
    rw [hjeq] at hj hjl
    rw [hleq] at hl hjl
    exact hok.name_inj j l hj hl hjl
  · intro j
    by_cases hji : j = i
    · subst hji
      rw [Function.update_self]
      exact Nat.zero_le _
    · rw [Function.update_of_ne hji]
      exact hok.size_le j
  · intro j hj
    obtain ⟨-, heq⟩ := hkeep j hj
    rw [heq] at hj
    exact hok.born j hj
  · intro j l hj hl hjl
    obtain ⟨-, hjeq⟩ := hkeep j hj
    obtain ⟨-, hleq⟩ := hkeep l hl
    rw [hjeq] at hj
    rw [hleq] at hl
    exact hok.inc_inj j l hj hl hjl
  · intro j hj p
    obtain ⟨-, heq⟩ := hkeep j hj
    rw [heq] at hj ⊢
    exact hok.data j hj p
  · intro j hj p hp
    obtain ⟨-, heq⟩ := hkeep j hj
    rw [heq] at hj hp
    exact hok.beyond j hj p hp

/-- A new name that no file has. -/
theorem InodesOk.rename {inodes : Inodes} {h : History} (hok : InodesOk inodes h)
    {i : Fin ramfsMaxFiles} (hi : (inodes i).used = true) {name : List UInt8} (hname : NameOk name)
    (hnew : ∀ j, (inodes j).used = true → (inodes j).name ≠ name) :
    InodesOk (Function.update inodes i { inodes i with name := name }) h := by
  have hsame : ∀ j, (Function.update inodes i { inodes i with name := name } j).used =
      (inodes j).used ∧
      (Function.update inodes i { inodes i with name := name } j).size = (inodes j).size ∧
      (Function.update inodes i { inodes i with name := name } j).data = (inodes j).data := by
    intro j
    by_cases hji : j = i
    · subst hji
      rw [Function.update_self]
      exact ⟨rfl, rfl, rfl⟩
    · rw [Function.update_of_ne hji]
      exact ⟨rfl, rfl, rfl⟩
  refine ⟨?_, ?_, ?_, ?_, ?_, hok.events, ?_, ?_⟩
  · intro j hj
    by_cases hji : j = i
    · subst hji
      rw [Function.update_self]
      exact hname
    · rw [Function.update_of_ne hji] at hj ⊢
      exact hok.name_ok j hj
  · intro j l hj hl hjl
    rw [(hsame j).1] at hj
    rw [(hsame l).1] at hl
    by_cases hji : j = i <;> by_cases hli : l = i
    · rw [hji, hli]
    · subst hji
      rw [Function.update_self, Function.update_of_ne hli] at hjl
      exact absurd hjl.symm (hnew l hl)
    · subst hli
      rw [Function.update_self, Function.update_of_ne hji] at hjl
      exact absurd hjl (hnew j hj)
    · rw [Function.update_of_ne hji, Function.update_of_ne hli] at hjl
      exact hok.name_inj j l hj hl hjl
  · intro j
    rw [(hsame j).2.1]
    exact hok.size_le j
  · intro j hj
    rw [(hsame j).1] at hj
    exact hok.born j hj
  · intro j l hj hl hjl
    rw [(hsame j).1] at hj
    rw [(hsame l).1] at hl
    exact hok.inc_inj j l hj hl hjl
  · intro j hj p
    rw [(hsame j).1] at hj
    rw [(hsame j).2.2]
    exact hok.data j hj p
  · intro j hj p hp
    rw [(hsame j).1] at hj
    rw [(hsame j).2.1] at hp
    exact hok.beyond j hj p hp

/-! ## Descriptors -/

theorem FileDesc.slot_eq {d : FileDesc} {slot : Fin ramfsMaxFiles}
    (h : FileDesc.slot d = some slot) : d.inode = slot.val := by
  unfold FileDesc.slot at h
  split at h
  · rename_i hin
    cases h
    exact (Int.toNat_of_nonneg hin.1).symm
  · cases h

theorem FileDesc.slot_of_fin (slot : Fin ramfsMaxFiles) (used : Bool) (offset flags : Nat) :
    FileDesc.slot ⟨used, slot.val, offset, flags⟩ = some slot := by
  unfold FileDesc.slot
  rw [dif_pos ⟨Int.natCast_nonneg _, by simp⟩]
  simp

/-- The files of one state are still there, under the same numbers. -/
def Keeps (inodes : Inodes) (h : History) (inodes' : Inodes) (h' : History) : Prop :=
  ∀ slot, (inodes slot).used = true →
    (inodes' slot).used = true ∧ h'.incarnation slot = h.incarnation slot

theorem Refers.keeps {inodes inodes' : Inodes} {h h' : History} {file : Nat} {d : FileDesc}
    (hd : Refers inodes h file d) (hk : Keeps inodes h inodes' h') : Refers inodes' h' file d := by
  obtain ⟨slot, hslot, hused, hinc, hoffset⟩ := hd
  exact ⟨slot, hslot, (hk slot hused).1, (hk slot hused).2.trans hinc, hoffset⟩

theorem DescsOk.keeps {procs : Fin procMax → Process} {inodes inodes' : Inodes} {h h' : History}
    (hd : DescsOk procs inodes h) (hk : Keeps inodes h inodes' h') (hopened : h'.opened = h.opened) :
    DescsOk procs inodes' h' := by
  refine ⟨fun p fd hused => ?_, hd.free⟩
  rw [hopened]
  exact (hd.refers p fd hused).keeps hk

theorem setFd_fds (k : Kernel) (p : Fin procMax) (fd : Fin fdMax) (d : FileDesc)
    (q : Fin procMax) (fd' : Fin fdMax) :
    ((Kernel.setFd k p fd d).procs q).fds fd' =
      if q = p ∧ fd' = fd then d else (k.procs q).fds fd' := by
  unfold Kernel.setFd Kernel.setProc
  dsimp only
  by_cases hq : q = p
  · subst hq
    rw [Function.update_self]
    dsimp only
    by_cases hfd : fd' = fd
    · subst hfd
      simp
    · simp [hfd]
  · rw [Function.update_of_ne hq, if_neg fun h => hq h.1]

theorem setFd_state (k : Kernel) (p : Fin procMax) (fd : Fin fdMax) (d : FileDesc)
    (q : Fin procMax) : ((Kernel.setFd k p fd d).procs q).state = (k.procs q).state := by
  unfold Kernel.setFd Kernel.setProc
  dsimp only
  by_cases hq : q = p
  · subst hq
    rw [Function.update_self]
  · rw [Function.update_of_ne hq]

/-- One descriptor of a live process overwritten. -/
theorem DescsOk.setFd {k : Kernel} {inodes : Inodes} {h : History} (hd : DescsOk k.procs inodes h)
    {p : Fin procMax} (fd : Fin fdMax) {d : FileDesc} {file : Nat}
    (hlive : (k.procs p).state ≠ .unused) (hnew : d.used = true → Refers inodes h file d) :
    DescsOk (Kernel.setFd k p fd d).procs inodes
      { h with opened := Function.update h.opened p (Function.update (h.opened p) fd file) } := by
  constructor
  · intro q fd' hused
    rw [setFd_fds] at hused ⊢
    dsimp only
    by_cases hq : q = p
    · subst hq
      rw [Function.update_self]
      by_cases hfd : fd' = fd
      · subst hfd
        rw [if_pos ⟨rfl, rfl⟩] at hused ⊢
        rw [Function.update_self]
        exact hnew hused
      · rw [if_neg fun hall => hfd hall.2] at hused ⊢
        rw [Function.update_of_ne hfd]
        exact hd.refers q fd' hused
    · rw [if_neg fun hall => hq hall.1] at hused ⊢
      rw [Function.update_of_ne hq]
      exact hd.refers q fd' hused
  · intro q hq fd'
    rw [setFd_state] at hq
    have hqp : q ≠ p := by
      rintro rfl
      exact hlive hq
    rw [setFd_fds, if_neg fun hall => hqp hall.1]
    exact hd.free q hq fd'

/-- The same, where the descriptor stays on the file it was opened on. -/
theorem DescsOk.reset {k : Kernel} {inodes : Inodes} {h : History} (hd : DescsOk k.procs inodes h)
    {p : Fin procMax} {fd : Fin fdMax} {d : FileDesc} (hlive : (k.procs p).state ≠ .unused)
    (hnew : d.used = true → Refers inodes h (h.opened p fd) d) :
    DescsOk (Kernel.setFd k p fd d).procs inodes h := by
  have hset := hd.setFd fd hlive hnew
  rwa [Function.update_eq_self, Function.update_eq_self] at hset

theorem getOpenFd_some {fd : Int} {k : Kernel} {p : Fin procMax} {i : Fin fdMax}
    (h : getOpenFd fd k = some (p, i)) :
    k.currentProc = some p ∧ ((k.procs p).fds i).used = true := by
  unfold getOpenFd at h
  split at h
  · cases h
  · rename_i c hcur
    split at h
    · dsimp only at h
      split at h
      · rename_i hused
        cases h
        exact ⟨hcur, hused⟩
      · cases h
    · cases h

/-- A process with an open descriptor is live. -/
theorem DescsOk.live {procs : Fin procMax → Process} {inodes : Inodes} {h : History}
    (hd : DescsOk procs inodes h) {p : Fin procMax} {fd : Fin fdMax}
    (hused : ((procs p).fds fd).used = true) : (procs p).state ≠ .unused := by
  intro hfree
  rw [hd.free p hfree fd] at hused
  cases hused

/-! ## Other calls of the kernel -/

/-- The history of descriptors along any call of the kernel. -/
theorem DescsOk.change {status : Int} {k k' : Kernel} {inodes : Inodes} {h : History}
    (hd : DescsOk k.procs inodes h) (hk : Change status k k') :
    DescsOk k'.procs inodes { h with opened := inherit k h.opened } := by
  constructor
  · intro p fd hused
    rcases hk.fds p fd hused with hsame | ⟨hfree, c, hcur, hcopy⟩
    · rw [hsame] at hused ⊢
      have hlive := hd.live hused
      have hopened : inherit k h.opened p = h.opened p := by
        unfold inherit
        cases k.currentProc with
        | none => rfl
        | some c => exact if_neg hlive
      dsimp only
      rw [hopened]
      exact hd.refers p fd hused
    · rw [hcopy] at hused ⊢
      have hopened : inherit k h.opened p = h.opened c := by
        unfold inherit
        rw [hcur]
        exact if_pos hfree
      dsimp only
      rw [hopened]
      exact hd.refers c fd hused
  · intro p hfree fd
    rcases hk.unused p hfree with hsame | hclear
    · have hstate : (k'.procs p).state = (k.procs p).state := congrArg Life.state hsame
      have hfds : (k'.procs p).fds = (k.procs p).fds := congrArg Life.fds hsame
      rw [hfds]
      exact hd.free p (hstate ▸ hfree) fd
    · rw [hclear]
      rfl

/-! ## The calls keep the invariant -/

/-- The history once the file of an open is there. -/
def afterEnsure (name : List UInt8) (inodes : Inodes) (h : History) (i : Fin ramfsMaxFiles) :
    History :=
  if (findInodeByName inodes name).isSome then h else h.create i

theorem afterEnsure_opened (name : List UInt8) (inodes : Inodes) (h : History)
    (i : Fin ramfsMaxFiles) : (afterEnsure name inodes h i).opened = h.opened := by
  unfold afterEnsure
  split <;> rfl

theorem ensureRamfsInode_spec {name : List UInt8} {flags : Nat} {inodes inodes' : Inodes}
    {h : History} {i : Fin ramfsMaxFiles} (hok : InodesOk inodes h) (hname : NameOk name)
    (hres : ensureRamfsInode name flags inodes = some (i, inodes')) :
    InodesOk inodes' (afterEnsure name inodes h i) ∧ (inodes' i).used = true ∧
      Keeps inodes h inodes' (afterEnsure name inodes h i) := by
  unfold ensureRamfsInode at hres
  unfold afterEnsure
  cases hfind : findInodeByName inodes name with
  | some j =>
      rw [hfind] at hres
      cases hres
      exact ⟨hok, (findInodeByName_some hfind).1, fun slot hused => ⟨hused, rfl⟩⟩
  | none =>
      rw [hfind] at hres
      dsimp only at hres
      split at hres
      · cases hres
      · cases halloc : allocInode inodes with
        | none =>
            rw [halloc] at hres
            cases hres
        | some j =>
            rw [halloc] at hres
            cases hres
            have hunused := allocInode_some halloc
            refine ⟨hok.create hname (findInodeByName_none hfind), ?_, fun slot hused => ?_⟩
            · rw [Function.update_self]
            · have hne : slot ≠ i := by
                rintro rfl
                rw [hunused] at hused
                cases hused
              rw [Function.update_of_ne hne]
              exact ⟨hused, Function.update_of_ne hne ..⟩

/-- The history after the line that truncates. -/
def afterTruncate (flags : Nat) (i : Fin ramfsMaxFiles) (h : History) : History :=
  if flags &&& oTrunc ≠ 0 then { h with events := .truncate (h.incarnation i) :: h.events } else h

theorem truncateIf_spec {flags : Nat} {i : Fin ramfsMaxFiles} {inodes : Inodes} {h : History}
    (hok : InodesOk inodes h) (hi : (inodes i).used = true) :
    InodesOk (truncateIf flags i inodes) (afterTruncate flags i h) ∧
      (truncateIf flags i inodes i).used = true ∧
      Keeps inodes h (truncateIf flags i inodes) (afterTruncate flags i h) ∧
      (afterTruncate flags i h).incarnation = h.incarnation ∧
      (afterTruncate flags i h).opened = h.opened := by
  unfold truncateIf afterTruncate
  by_cases hflag : flags &&& oTrunc ≠ 0
  · rw [if_pos hflag, if_pos hflag]
    refine ⟨hok.truncate hi, ?_, fun slot hused => ⟨?_, rfl⟩, rfl, rfl⟩
    · rw [Function.update_self]
      exact hi
    · by_cases hslot : slot = i
      · subst hslot
        rw [Function.update_self]
        exact hi
      · rw [Function.update_of_ne hslot]
        exact hused
  · rw [if_neg hflag, if_neg hflag]
    exact ⟨hok, hi, fun slot hused => ⟨hused, rfl⟩, rfl, rfl⟩

/-- `fs_open` and its record in terms of the two steps above. -/
theorem recordOpen_eq {path : Option (List UInt8)} {flags : Nat} {t : Traced} {name : List UInt8}
    {i : Fin ramfsMaxFiles} {inodes : Inodes} (hname : normalizeName path = some name)
    (hens : ensureRamfsInode name flags t.sys.inodes = some (i, inodes)) :
    recordOpen path flags t =
      (afterTruncate flags i (afterEnsure name t.sys.inodes t.hist i)).install t.sys.kernel
        ((afterEnsure name t.sys.inodes t.hist i).incarnation i) := by
  unfold recordOpen
  rw [hname]
  dsimp only
  rw [hens]
  rfl

theorem fsOpen_inv {t : Traced} (ht : FsInv t) (path : Option (List UInt8)) (flags : Nat)
    (hrun : t.sys.kernel.running.isSome = true) :
    FsInv ⟨(fsOpen path flags t.sys).2, recordOpen path flags t⟩ := by
  cases hname : normalizeName path with
  | none =>
      unfold fsOpen recordOpen
      rw [hname]
      exact ht
  | some name =>
      cases hens : ensureRamfsInode name flags t.sys.inodes with
      | none =>
          unfold fsOpen recordOpen
          rw [hname]
          dsimp only
          rw [hens]
          exact ht
      | some out =>
          obtain ⟨i, inodes⟩ := out
          obtain ⟨hok₁, hused₁, hkeeps₁⟩ :=
            ensureRamfsInode_spec ht.inodes (normalizeName_ok hname) hens
          obtain ⟨hok₂, hused₂, hkeeps₂, hinc₂, hopened₂⟩ := truncateIf_spec hok₁ hused₁
          have hdescs : DescsOk t.sys.kernel.procs (truncateIf flags i inodes)
              (afterTruncate flags i (afterEnsure name t.sys.inodes t.hist i)) :=
            (ht.descs.keeps hkeeps₁ (afterEnsure_opened ..)).keeps hkeeps₂ hopened₂
          rw [recordOpen_eq hname hens]
          unfold fsOpen
          rw [hname]
          dsimp only
          rw [hens]
          dsimp only
          refine ⟨hok₂.install _ _, ?_⟩
          obtain ⟨p, hp⟩ := Option.isSome_iff_exists.mp hrun
          obtain ⟨hcur, hrunnable⟩ := Kernel.running_eq_some.mp hp
          have hlive : (t.sys.kernel.procs p).state ≠ .unused := by
            rw [hrunnable]
            decide
          unfold installFd History.install
          rw [hcur]
          dsimp only
          cases hfd : allocFd (t.sys.kernel.procs p) with
          | none => exact hdescs
          | some fd =>
              refine hdescs.setFd fd hlive fun _ => ⟨i, FileDesc.slot_of_fin .., hused₂, ?_, ?_⟩
              · rw [hinc₂]
              · dsimp only
                split
                · exact hok₂.size_le i
                · exact Nat.zero_le _

theorem fsClose_inv {t : Traced} (ht : FsInv t) (fd : Int) :
    FsInv { t with sys := (fsClose fd t.sys).2 } := by
  unfold fsClose
  cases hget : getOpenFd fd t.sys.kernel with
  | none => exact ht
  | some out =>
      obtain ⟨p, i⟩ := out
      obtain ⟨-, hused⟩ := getOpenFd_some hget
      exact ⟨ht.inodes, ht.descs.reset (ht.descs.live hused) fun hno => by cases hno⟩

/-- A descriptor whose offset moves within the data area still refers to its file. -/
theorem Refers.move {inodes : Inodes} {h : History} {file offset : Nat} {d : FileDesc}
    (hd : Refers inodes h file d) (hoffset : offset ≤ ramfsDataMax) :
    Refers inodes h file { d with offset := offset } := by
  obtain ⟨slot, hslot, hused, hinc, -⟩ := hd
  exact ⟨slot, hslot, hused, hinc, hoffset⟩

theorem fsRead_inv {t : Traced} (ht : FsInv t) (fd : Int) (buf len : Nat) :
    FsInv { t with sys := (fsRead fd buf len t.sys).2.2 } := by
  unfold fsRead
  split
  · exact ht
  · cases hget : getOpenFd fd t.sys.kernel with
    | none => exact ht
    | some out =>
        obtain ⟨p, i⟩ := out
        obtain ⟨-, hused⟩ := getOpenFd_some hget
        have href := ht.descs.refers p i hused
        obtain ⟨slot, hslot, -⟩ := ht.descs.refers p i hused
        dsimp only
        split
        · exact ht
        · rw [hslot]
          dsimp only
          split
          · exact ht
          · have hsize := ht.inodes.size_le slot
            refine ⟨ht.inodes, ht.descs.reset (ht.descs.live hused) fun _ => href.move ?_⟩
            split <;> omega

/-- How `fs_write` ends: refused, at the end of the data area, or with bytes
stored. -/
inductive WriteCase (fd : Int) (buf : Nat) (src : Nat → UInt8) (len : Nat) (s : System) :
    Int × System → Prop
  | refused : WriteCase fd buf src len s (-1, s)
  | full {p i slot} (hget : getOpenFd fd s.kernel = some (p, i))
      (hslot : FileDesc.slot ((s.kernel.procs p).fds i) = some slot)
      (hfull : ramfsDataMax ≤ writeOffset ((s.kernel.procs p).fds i) (s.inodes slot)) :
      WriteCase fd buf src len s (0, { s with
        kernel := Kernel.setFd s.kernel p i
          { (s.kernel.procs p).fds i with
            offset := writeOffset ((s.kernel.procs p).fds i) (s.inodes slot) } })
  | stored {p i slot offset n} (hget : getOpenFd fd s.kernel = some (p, i))
      (hslot : FileDesc.slot ((s.kernel.procs p).fds i) = some slot)
      (hoffset : offset = writeOffset ((s.kernel.procs p).fds i) (s.inodes slot))
      (hn : n = writeCount offset len) (hroom : offset < ramfsDataMax) (hbuf : buf ≠ 0)
      (hmode : ((s.kernel.procs p).fds i).flags &&& 3 = oWronly ∨
        ((s.kernel.procs p).fds i).flags &&& 3 = oRdwr) :
      WriteCase fd buf src len s ((n : Int),
        { kernel := Kernel.setFd s.kernel p i
            { (s.kernel.procs p).fds i with offset := offset + n }
          inodes := Function.update s.inodes slot { s.inodes slot with
            data := storeBytes (s.inodes slot).data offset n src
            size := if (s.inodes slot).size < offset + n then offset + n
              else (s.inodes slot).size } })

theorem fsWrite_case (fd : Int) (buf : Nat) (src : Nat → UInt8) (len : Nat) (s : System) :
    WriteCase fd buf src len s (fsWrite fd buf src len s) := by
  unfold fsWrite
  split
  · exact .refused
  · rename_i hbuf
    cases hget : getOpenFd fd s.kernel with
    | none => exact .refused
    | some out =>
        obtain ⟨p, i⟩ := out
        dsimp only
        cases hslot : FileDesc.slot ((s.kernel.procs p).fds i) with
        | none => exact .refused
        | some slot =>
            dsimp only
            split
            · exact .refused
            · rename_i hmode
              split
              · rename_i hfull
                exact .full hget hslot hfull
              · rename_i hroom
                exact .stored hget hslot rfl rfl (Nat.lt_of_not_le hroom) hbuf (not_not.mp hmode)

/-- The record of a write, from the descriptor it went through. -/
theorem recordWrite_eq {t : Traced} {fd : Int} {p : Fin procMax} {i : Fin fdMax}
    {slot : Fin ramfsMaxFiles} (hget : getOpenFd fd t.sys.kernel = some (p, i))
    (hslot : FileDesc.slot ((t.sys.kernel.procs p).fds i) = some slot)
    (buf : Nat) (src : Nat → UInt8) (len : Nat) :
    recordWrite fd buf src len t = { t.hist with
      events := writeEvents (t.hist.opened p i)
        (writeOffset ((t.sys.kernel.procs p).fds i) (t.sys.inodes slot))
        (fsWrite fd buf src len t.sys).1.toNat src ++ t.hist.events } := by
  unfold recordWrite
  rw [hget]
  dsimp only
  rw [hslot]

/-- A write that stores nothing leaves no record. -/
theorem recordWrite_none {t : Traced} {fd : Int} {buf : Nat} {src : Nat → UInt8} {len : Nat}
    (h : (fsWrite fd buf src len t.sys).1.toNat = 0) : recordWrite fd buf src len t = t.hist := by
  unfold recordWrite
  split
  · rfl
  · dsimp only
    split
    · rfl
    · rw [h]
      rfl

theorem writeCount_le {offset : Nat} (len : Nat) (h : offset < ramfsDataMax) :
    offset + writeCount offset len ≤ ramfsDataMax := by
  unfold writeCount
  split <;> omega

theorem fsWrite_inv {t : Traced} (ht : FsInv t) (fd : Int) (buf : Nat) (src : Nat → UInt8)
    (len : Nat) :
    FsInv ⟨(fsWrite fd buf src len t.sys).2, recordWrite fd buf src len t⟩ := by
  have hcase := fsWrite_case fd buf src len t.sys
  generalize hres : fsWrite fd buf src len t.sys = res at hcase
  cases hcase with
  | refused =>
      rw [recordWrite_none (by rw [hres]; rfl)]
      exact ht
  | full hget hslot hfull =>
      obtain ⟨-, hused⟩ := getOpenFd_some hget
      rw [recordWrite_none (by rw [hres]; rfl)]
      refine ⟨ht.inodes, ht.descs.reset (ht.descs.live hused) fun _ => ?_⟩
      refine (ht.descs.refers _ _ hused).move ?_
      unfold writeOffset
      split
      · exact ht.inodes.size_le _
      · obtain ⟨-, -, -, -, hoffset⟩ := ht.descs.refers _ _ hused
        exact hoffset
  | stored hget hslot hoffset hn hroom hbuf hmode =>
      rename_i p i slot offset n
      obtain ⟨-, hused⟩ := getOpenFd_some hget
      obtain ⟨slot', hslot', hslotUsed, hinc, -⟩ := ht.descs.refers p i hused
      rw [hslot] at hslot'
      cases hslot'
      have hfit : offset + n ≤ ramfsDataMax := hn ▸ writeCount_le len hroom
      rw [recordWrite_eq hget hslot, hres, ← hoffset, ← hinc]
      have hkeeps : Keeps t.sys.inodes t.hist
          (Function.update t.sys.inodes slot { t.sys.inodes slot with
            data := storeBytes (t.sys.inodes slot).data offset n src
            size := if (t.sys.inodes slot).size < offset + n then offset + n
              else (t.sys.inodes slot).size })
          { t.hist with events := writeEvents (t.hist.incarnation slot) offset n src ++
            t.hist.events } := by
        intro j hj
        refine ⟨?_, rfl⟩
        by_cases hjslot : j = slot
        · subst hjslot
          rw [Function.update_self]
          exact hj
        · rw [Function.update_of_ne hjslot]
          exact hj
      refine ⟨ht.inodes.write hslotUsed src hfit, ?_⟩
      refine DescsOk.reset (ht.descs.keeps hkeeps rfl) (ht.descs.live hused) fun _ => ?_
      exact ((ht.descs.refers p i hused).keeps hkeeps).move hfit

theorem fsUnlink_inv {t : Traced} (ht : FsInv t) (path : Option (List UInt8)) :
    FsInv { t with sys := (fsUnlink path t.sys).2 } := by
  unfold fsUnlink
  cases hname : normalizeName path with
  | none => exact ht
  | some name =>
      dsimp only
      cases hfind : findInodeByName t.sys.inodes name with
      | none => exact ht
      | some i =>
          refine ⟨ht.inodes.unlink i, ?_, ?_⟩
          · intro p fd hused
            have hkept : ((t.sys.kernel.procs p).fds fd).used = true ∧
                ((t.sys.kernel.procs p).fds fd).inode ≠ i.val ∧
                (revoke i.val t.sys.kernel.procs p).fds fd = (t.sys.kernel.procs p).fds fd := by
              simp only [revoke] at hused ⊢
              split at hused
              · cases hused
              · rename_i hno
                exact ⟨hused, fun heq => hno ⟨hused, heq⟩, if_neg hno⟩
            obtain ⟨husedOld, hother, hsame⟩ := hkept
            obtain ⟨slot, hslot, hslotUsed, hinc, hoffset⟩ := ht.descs.refers p fd husedOld
            have hne : slot ≠ i := by
              rintro rfl
              exact hother (FileDesc.slot_eq hslot)
            dsimp only
            rw [hsame]
            exact ⟨slot, hslot, by rwa [Function.update_of_ne hne], hinc, hoffset⟩
          · intro p hfree fd
            have hold := ht.descs.free p hfree fd
            simp only [revoke]
            rw [if_neg fun hall => by rw [hold] at hall; cases hall.1]
            exact hold

theorem fsRename_inv {t : Traced} (ht : FsInv t) (oldPath newPath : Option (List UInt8)) :
    FsInv { t with sys := (fsRename oldPath newPath t.sys).2 } := by
  unfold fsRename
  cases hold : normalizeName oldPath with
  | none => exact ht
  | some oldName =>
      cases hnew : normalizeName newPath with
      | none => exact ht
      | some newName =>
          dsimp only
          split
          · exact ht
          · cases hfind : findInodeByName t.sys.inodes oldName with
            | none => exact ht
            | some i =>
                dsimp only
                cases hfree : findInodeByName t.sys.inodes newName with
                | some j => exact ht
                | none =>
                    have hi := (findInodeByName_some hfind).1
                    refine ⟨ht.inodes.rename hi (normalizeName_ok hnew)
                      (findInodeByName_none hfree), ht.descs.keeps (fun slot hused => ?_) rfl⟩
                    refine ⟨?_, rfl⟩
                    dsimp only
                    by_cases hslot : slot = i
                    · subst hslot
                      rw [Function.update_self]
                      exact hused
                    · rw [Function.update_of_ne hslot]
                      exact hused

/-! ## Runs -/

theorem fsInit_ok : InodesOk fsInit .init := by
  have hused : ∀ i, (fsInit i).used = true → i = 0 := by
    intro i hi
    by_contra hne
    unfold fsInit at hi
    rw [Function.update_of_ne hne] at hi
    cases hi
  refine ⟨?_, ?_, ?_, ?_, ?_, ?_, ?_, ?_⟩
  · intro i hi
    rw [hused i hi]
    unfold NameOk
    decide
  · intro i j hi hj _
    rw [hused i hi, hused j hj]
  · decide
  · intro i _
    exact Nat.zero_lt_one
  · intro i j hi hj _
    rw [hused i hi, hused j hj]
  · intro e he
    obtain ⟨j, -, rfl⟩ := List.mem_map.mp he
    exact Nat.zero_lt_one
  · intro i hi p
    rw [hused i hi]
    simp only [History.init]
    rw [lastWritten_writeEvents]
    by_cases hp : p < readmeText.length
    · rw [if_pos ⟨rfl, Nat.zero_le _, by omega⟩]
      rfl
    · rw [if_neg fun hall => hp (by omega)]
      exact List.getD_eq_default _ _ (Nat.le_of_not_lt hp)
  · intro i hi p hp
    rw [hused i hi] at hp
    have hp' : readmeText.length ≤ p := hp
    have hnone : writtenSince 0 p (writeEvents 0 0 readmeText.length
        (fun j => readmeText.getD j 0) ++ []) = none := by
      rw [writtenSince_append, lastWritten_writeEvents, if_neg fun hall => by omega]
      rfl
    rw [List.append_nil] at hnone
    exact hnone

/-- At boot no process has a descriptor. -/
theorem boot_fds {L : Layout} {mem : Memory} {mmu : Mmu} {k : Kernel} (h : boot L mem mmu = some k)
    (p : Fin procMax) (fd : Fin fdMax) : ((k.procs p).fds fd).used = false := by
  obtain ⟨satp, s, -, rfl⟩ := boot_some h
  by_contra hused
  rw [Bool.not_eq_false] at hused
  rcases (createProcess_change 0 (bootKernel satp s)).fds p fd hused with hsame | ⟨-, c, hc, -⟩
  · have hfree : ((Process.unused).fds fd).used = true := by
      rw [← hused]
      exact congrArg FileDesc.used hsame.symm
    cases hfree
  · cases hc

theorem fsStep_inv {L : Layout} {op : FsOp} {t t' : Traced} (ht : FsInv t)
    (hop : op.enabled t = true) (h : fsStep L op t = .ok t') : FsInv t' := by
  cases op with
  | kernel op =>
      obtain ⟨k, hk, rfl⟩ := map_ok h
      exact ⟨ht.inodes.congr_opened _, ht.descs.change (step_change op hk)⟩
  | fsOpen path flags =>
      cases h
      exact fsOpen_inv ht path flags.toNat hop
  | fsClose fd =>
      cases h
      exact fsClose_inv ht fd
  | fsRead fd buf len =>
      cases h
      exact fsRead_inv ht fd buf.toNat len.toNat
  | fsWrite fd buf src len =>
      cases h
      exact fsWrite_inv ht fd buf.toNat src len.toNat
  | fsUnlink path =>
      cases h
      exact fsUnlink_inv ht path
  | fsRename oldPath newPath =>
      cases h
      exact fsRename_inv ht oldPath newPath

/-- Every state of every run. -/
theorem FsReachable.inv {L : Layout} {ok : Traced → FsOp → Prop} {t : Traced}
    (h : FsReachable L ok t) : FsInv t := by
  induction h with
  | boot hboot =>
      refine ⟨fsInit_ok, fun p fd hused => ?_, fun p _ fd => boot_fds hboot p fd⟩
      have hno := boot_fds hboot p fd
      dsimp only at hused
      rw [hno] at hused
      cases hused
  | step op ht hop hok hstep ih => exact fsStep_inv ih hop hstep

/-! ## The ramfs refines a map of byte files -/

/-- The bytes of a read are those of the inode, from the descriptor's offset on. -/
theorem fsRead_getElem {s : System} {fd : Int} {buf len : Nat} {p : Fin procMax} {i : Fin fdMax}
    {slot : Fin ramfsMaxFiles} (hget : getOpenFd fd s.kernel = some (p, i))
    (hslot : FileDesc.slot ((s.kernel.procs p).fds i) = some slot) {j : Nat} {b : UInt8}
    (h : (fsRead fd buf len s).2.1[j]? = some b) :
    b = (s.inodes slot).data (((s.kernel.procs p).fds i).offset + j) ∧
      ((s.kernel.procs p).fds i).offset + j < (s.inodes slot).size := by
  unfold fsRead at h
  split at h
  · cases h
  · rw [hget] at h
    dsimp only at h
    split at h
    · cases h
    · rw [hslot] at h
      dsimp only at h
      split at h
      · cases h
      · dsimp only at h
        rw [List.getElem?_map, Option.map_eq_some_iff] at h
        obtain ⟨a, ha, rfl⟩ := h
        obtain ⟨hj, hval⟩ := List.getElem?_eq_some_iff.mp ha
        rw [List.length_range] at hj
        rw [List.getElem_range] at hval
        subst hval
        refine ⟨rfl, ?_⟩
        split at hj <;> omega

/-- A write through an `O_APPEND` descriptor starts at the end of the file. -/
theorem fsWrite_append {s : System} {fd : Int} {buf : Nat} {src : Nat → UInt8} {len : Nat}
    {p : Fin procMax} {i : Fin fdMax} (hget : getOpenFd fd s.kernel = some (p, i))
    (happend : ((s.kernel.procs p).fds i).flags &&& oAppend ≠ 0) (j : Fin ramfsMaxFiles) {pos : Nat}
    (hpos : pos < (s.inodes j).size) :
    ((fsWrite fd buf src len s).2.inodes j).data pos = (s.inodes j).data pos := by
  have hcase := fsWrite_case fd buf src len s
  generalize fsWrite fd buf src len s = res at hcase
  cases hcase with
  | refused => rfl
  | full hget' hslot hfull => rfl
  | stored hget' hslot hoffset hn hroom hbuf hmode =>
      rename_i p' i' slot offset n
      rw [hget] at hget'
      cases hget'
      unfold writeOffset at hoffset
      rw [if_pos happend] at hoffset
      dsimp only
      by_cases hj : j = slot
      · subst hj
        rw [Function.update_self]
        exact if_neg (by omega)
      · rw [Function.update_of_ne hj]

/-- What holds of the ramfs and its history in one state: the files are byte
arrays under distinct names, every open descriptor is on the incarnation it was
opened on, a read returns what was last written there, and appending leaves the
old bytes alone. -/
structure ByteFiles (t : Traced) : Prop where
  names : ∀ i, (t.sys.inodes i).used = true → NameOk (t.sys.inodes i).name
  distinct : ∀ i j, (t.sys.inodes i).used = true → (t.sys.inodes j).used = true →
    (t.sys.inodes i).name = (t.sys.inodes j).name → i = j
  sizes : ∀ i, (t.sys.inodes i).used = true → (t.sys.inodes i).size ≤ 1024
  offsets : ∀ p fd, ((t.sys.kernel.procs p).fds fd).used = true →
    ((t.sys.kernel.procs p).fds fd).offset ≤ 1024
  numbers : ∀ i j, (t.sys.inodes i).used = true → (t.sys.inodes j).used = true →
    t.hist.incarnation i = t.hist.incarnation j → i = j
  refers : ∀ p fd, ((t.sys.kernel.procs p).fds fd).used = true →
    ∃ slot : Fin ramfsMaxFiles, ((t.sys.kernel.procs p).fds fd).inode = slot.val ∧
      (t.sys.inodes slot).used = true ∧ t.hist.incarnation slot = t.hist.opened p fd
  reads : ∀ fd buf len p i j b, getOpenFd fd t.sys.kernel = some (p, i) →
    (fsRead fd buf len t.sys).2.1[j]? = some b →
    b = (lastWritten (t.hist.opened p i) (((t.sys.kernel.procs p).fds i).offset + j)
      t.hist.events).getD 0
  appends : ∀ fd buf src len p i, getOpenFd fd t.sys.kernel = some (p, i) →
    ((t.sys.kernel.procs p).fds i).flags &&& oAppend ≠ 0 →
    ∀ j pos, pos < (t.sys.inodes j).size →
      ((fsWrite fd buf src len t.sys).2.inodes j).data pos = (t.sys.inodes j).data pos

theorem FsInv.byteFiles {t : Traced} (ht : FsInv t) : ByteFiles t where
  names := ht.inodes.name_ok
  distinct := ht.inodes.name_inj
  sizes i _ := ht.inodes.size_le i
  offsets p fd hused := by
    obtain ⟨-, -, -, -, hoffset⟩ := ht.descs.refers p fd hused
    exact hoffset
  numbers := ht.inodes.inc_inj
  refers p fd hused := by
    obtain ⟨slot, hslot, hslotUsed, hinc, -⟩ := ht.descs.refers p fd hused
    exact ⟨slot, FileDesc.slot_eq hslot, hslotUsed, hinc⟩
  reads fd buf len p i j b hget hb := by
    obtain ⟨-, hused⟩ := getOpenFd_some hget
    obtain ⟨slot, hslot, hslotUsed, hinc, -⟩ := ht.descs.refers p i hused
    rw [(fsRead_getElem hget hslot hb).1, ht.inodes.data slot hslotUsed, hinc]
  appends fd buf src len p i hget happend j pos hpos := fsWrite_append hget happend j hpos

/-- In every state of every run of file calls, forks, exits and the other calls of
the kernel, by any processes, the ramfs is a map of byte files. -/
theorem ramfs_byteFiles {L : Layout} {t : Traced} (ht : FsReachable L (fun _ _ => True) t) :
    ByteFiles t := ht.inv.byteFiles

/-- The operations of a process that writes a file and reads it back after a
fork, an unlink of another file and a rename. -/
def sampleFileOps : List FsOp :=
  [.kernel (.createUserProcess smallEntry), .kernel (.switchTo 1),
    .fsOpen (some (bytesOf "/a")) 0x103, .fsWrite 0 1 (fun j => .ofNat (j + 65)) 3,
    .fsUnlink (some (bytesOf "README")), .kernel .fork, .kernel (.switchTo 2),
    .fsRename (some (bytesOf "a")) (some (bytesOf "b")), .fsOpen (some (bytesOf "b")) 0x401,
    .fsWrite 0 1 (fun j => .ofNat (j + 65)) 2]

theorem ramfs_byteFiles_sample :
    ∃ t, smallFs (fun _ _ => true) sampleFileOps = some t ∧ ByteFiles t := by
  have hsome : (smallFs (fun _ _ => true) sampleFileOps).isSome = true := by decide +kernel
  obtain ⟨t, ht⟩ := Option.isSome_iff_exists.mp hsome
  exact ⟨t, ht, ramfs_byteFiles (smallFs_reachable (fun _ _ _ => trivial) ht)⟩

end Sugimotos.Fs
