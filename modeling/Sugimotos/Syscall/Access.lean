/-
# System calls touch only permitted memory

Whatever number and arguments a user process passes, and whatever runs in between: every
address of user memory that the dispatcher and everything below it dereferences lies, at that
moment, in a VMA of the caller that allows the access.
-/

import Sugimotos.Proc.WaitStatus
import Sugimotos.Syscall.Dispatch

namespace Sugimotos.Syscall

open Sugimotos.Math Sugimotos.Mm Sugimotos.Proc Sugimotos.Fs Sugimotos.Event

variable {L : Layout} {i : Fin procMax} {s s' : Os}

/-! ## Calls of the file system -/

/-- Only descriptors differ. -/
structure FdsOnly (k k' : Kernel) : Prop where
  phys : k'.phys = k.phys
  current : k'.currentProc = k.currentProc
  globals : SameGlobals k k'
  touched : k'.touched = k.touched
  procs : ∀ j, ∃ fds, k'.procs j = { k.procs j with fds := fds }

namespace FdsOnly

variable {k k' k₁ : Kernel}

theorem refl (k : Kernel) : FdsOnly k k := ⟨rfl, rfl, ⟨rfl, rfl⟩, rfl, fun _ => ⟨_, rfl⟩⟩

theorem setFd (k : Kernel) (p : Fin procMax) (fd : Fin fdMax) (d : FileDesc) :
    FdsOnly k (Kernel.setFd k p fd d) := by
  refine ⟨rfl, rfl, ⟨rfl, rfl⟩, rfl, fun j => ?_⟩
  by_cases hj : j = p
  · subst hj
    unfold Kernel.setFd
    rw [Kernel.setProc_self]
    exact ⟨_, rfl⟩
  · unfold Kernel.setFd
    rw [Kernel.setProc_other k _ hj]
    exact ⟨_, rfl⟩

theorem running (h : FdsOnly k k') : k'.running = k.running := by
  have hstate : ∀ j, (k'.procs j).state = (k.procs j).state := by
    intro j
    obtain ⟨fds, hfds⟩ := h.procs j
    rw [hfds]
  unfold Kernel.running
  simp only [h.current, hstate]

theorem guarded (h : FdsOnly k k') (hk : Guarded L k) : Guarded L k' := by
  refine hk.of_touched (hk.inv.kept_records h.globals (fun j => ?_) h.phys).inv h.touched
  obtain ⟨fds, hfds⟩ := h.procs j
  rw [hfds]
  exact ⟨rfl, rfl, rfl, rfl, rfl, Iff.rfl⟩

theorem serving (h : FdsOnly k k') (hk : Serving L i k) : Serving L i k' := by
  refine (h.guarded hk.guarded).serving (h.running.trans hk.running) ?_
  obtain ⟨fds, hfds⟩ := h.procs i
  rw [hfds]
  exact hk.user

theorem spares (h : FdsOnly k k') : Spares i k k' := by
  intro j _ hused hlive
  obtain ⟨fds, hfds⟩ := h.procs j
  rw [hfds]
  exact ⟨rfl, hused, hlive⟩

theorem byteOk {need va : Nat} (h : FdsOnly k k') (hok : ByteOk k i need va) :
    ByteOk k' i need va := by
  unfold ByteOk procVmaRangeOk at hok ⊢
  obtain ⟨fds, hfds⟩ := h.procs i
  rw [hfds]
  exact hok

theorem installFd (inode : Int) (flags offset : Nat) (k : Kernel) :
    FdsOnly k (Fs.installFd inode flags offset k).2 := by
  unfold Fs.installFd
  split
  · exact refl k
  · split
    · exact refl k
    · exact setFd ..

end FdsOnly

theorem fsOpen_fdsOnly (path : Option (List UInt8)) (flags : Nat) (s : System) :
    FdsOnly s.kernel (fsOpen path flags s).2.kernel := by
  unfold fsOpen
  split
  · exact FdsOnly.refl _
  · split
    · exact FdsOnly.refl _
    · exact FdsOnly.installFd ..

theorem fsClose_fdsOnly (fd : Int) (s : System) : FdsOnly s.kernel (fsClose fd s).2.kernel := by
  unfold fsClose
  split
  · exact FdsOnly.refl _
  · exact FdsOnly.setFd ..

theorem fsRead_fdsOnly (fd : Int) (buf len : Nat) (s : System) :
    FdsOnly s.kernel (fsRead fd buf len s).2.2.kernel := by
  unfold fsRead
  split
  · exact FdsOnly.refl _
  split
  · exact FdsOnly.refl _
  dsimp only
  split
  · exact FdsOnly.refl _
  split
  · exact FdsOnly.refl _
  split
  · exact FdsOnly.refl _
  · exact FdsOnly.setFd ..

theorem fsWrite_fdsOnly (fd : Int) (buf : Nat) (src : Nat → UInt8) (len : Nat) (s : System) :
    FdsOnly s.kernel (fsWrite fd buf src len s).2.kernel := by
  unfold fsWrite
  split
  · exact FdsOnly.refl _
  split
  · exact FdsOnly.refl _
  dsimp only
  split
  · exact FdsOnly.refl _
  split
  · exact FdsOnly.refl _
  split
  · exact FdsOnly.setFd ..
  · exact FdsOnly.setFd ..

theorem fsUnlink_fdsOnly (path : Option (List UInt8)) (s : System) :
    FdsOnly s.kernel (fsUnlink path s).2.kernel := by
  unfold fsUnlink
  split
  · exact FdsOnly.refl _
  split
  · exact FdsOnly.refl _
  · exact ⟨rfl, rfl, ⟨rfl, rfl⟩, rfl, fun j => ⟨_, rfl⟩⟩

theorem fsRename_fdsOnly (oldPath newPath : Option (List UInt8)) (s : System) :
    FdsOnly s.kernel (fsRename oldPath newPath s).2.kernel := by
  unfold fsRename
  split
  · split
    · exact FdsOnly.refl _
    split
    · exact FdsOnly.refl _
    split
    · exact FdsOnly.refl _
    · exact FdsOnly.refl _
  · exact FdsOnly.refl _

/-! ## What a call keeps -/

/-- A user process that is there and has not exited. -/
structure Present (k : Kernel) (i : Fin procMax) : Prop where
  user : (k.procs i).isUser = true
  used : (k.procs i).state ≠ .unused
  live : (k.procs i).state ≠ .zombie

theorem Present.setState {k : Kernel} (huser : (k.procs i).isUser = true) {state : ProcState}
    (hused : state ≠ .unused) (hlive : state ≠ .zombie) :
    Present (k.setProc i { k.procs i with state := state }) i := by
  constructor <;> rw [Kernel.setProc_self]
  · exact huser
  · exact hused
  · exact hlive

theorem FdsOnly.present {k k' : Kernel} (h : FdsOnly k k') (hi : Present k i) : Present k' i := by
  obtain ⟨fds, hfds⟩ := h.procs i
  constructor <;> rw [hfds]
  · exact hi.user
  · exact hi.used
  · exact hi.live

/-- What holds of the state in which a call of process `i` leaves it for good or for now. -/
def Left (L : Layout) (i : Fin procMax) (k : Kernel) : SysHalt → Prop
  | .stop _ touched => ∀ t ∈ touched, t.Allowed
  | .blocked _ s => Guarded L s.kernel ∧ Spares i k s.kernel ∧ Present s.kernel i
  | .exited s => Guarded L s.kernel ∧ Spares i k s.kernel

/-- A call of process `i` that keeps the invariant. -/
def Keeps (L : Layout) (i : Fin procMax) (k : Kernel) {α : Type} (m : Except SysHalt (α × Os)) :
    Prop :=
  Outcome m (fun out => Guarded L out.2.kernel ∧ Spares i k out.2.kernel) (Left L i k)

/-- A call that goes on working for process `i`. -/
def Working (L : Layout) (i : Fin procMax) (k : Kernel) {α : Type} (m : Except SysHalt (α × Os)) :
    Prop :=
  Outcome m (fun out => Serving L i out.2.kernel ∧ Spares i k out.2.kernel) (Left L i k)

section Sequencing

variable {k k₁ : Kernel} {α β : Type}

theorem Working.keeps {m : Except SysHalt (α × Os)} (h : Working L i k m) : Keeps L i k m :=
  Outcome.imp h fun _ hout => ⟨hout.1.guarded, hout.2⟩

theorem Keeps.error {e : SysHalt} (h : Keeps L i k (.error e : Except SysHalt (α × Os))) :
    Keeps L i k (.error e : Except SysHalt (β × Os)) := h

theorem Left.after (hspares : Spares i k k₁) {e : SysHalt} (h : Left L i k₁ e) : Left L i k e := by
  cases e with
  | stop e touched => exact h
  | blocked call s => exact ⟨h.1, hspares.trans h.2.1, h.2.2⟩
  | exited s => exact ⟨h.1, hspares.trans h.2⟩

theorem Keeps.after (hspares : Spares i k k₁) {m : Except SysHalt (α × Os)} (h : Keeps L i k₁ m) :
    Keeps L i k m :=
  Outcome.mono h (fun _ hout => ⟨hout.1, hspares.trans hout.2⟩) fun _ => Left.after hspares

theorem Working.after (hspares : Spares i k k₁) {m : Except SysHalt (α × Os)}
    (h : Working L i k₁ m) : Working L i k m :=
  Outcome.mono h (fun _ hout => ⟨hout.1, hspares.trans hout.2⟩) fun _ => Left.after hspares

theorem onKernel_working {m : Except Halt (α × Kernel)} (h : Serves L i s.kernel m) :
    Working L i s.kernel (s.onKernel m) := by
  cases m with
  | ok out => exact ⟨h.1, .of_procs h.2.1⟩
  | error e =>
      cases e with
      | stop e touched => exact h
      | exited k => exact h

theorem onKernel_keeps {m : Except Halt (α × Kernel)} (h : Ends L i s.kernel m) :
    Keeps L i s.kernel (s.onKernel m) := by
  cases m with
  | ok out => exact h
  | error e =>
      cases e with
      | stop e touched => exact h
      | exited k => exact h

end Sequencing

theorem Serving.keeps {α : Type} (h : Serving L i s.kernel) (a : α) :
    Keeps L i s.kernel (.ok (a, s)) := ⟨h.guarded, .refl i _⟩

theorem onFiles_keeps (hs : Serving L i s.kernel) {out : Int × System}
    (h : FdsOnly s.kernel out.2.kernel) : Keeps L i s.kernel (s.onFiles out) :=
  ⟨h.guarded hs.guarded, h.spares⟩

/-! ## Calls with paths -/

/-- A call that copies a path and goes on with it. -/
theorem withPath_keeps (h : Serving L i s.kernel) (userPath : UInt32)
    {call : List UInt8 → SysCall Int}
    (hcall : ∀ kpath s, Serving L i s.kernel → Keeps L i s.kernel (call kpath s)) :
    Keeps L i s.kernel
      (match s.onKernel (copyStringFromUser L userPath.toNat userPathMax s.kernel) with
      | .error e => .error e
      | .ok (none, s) => .ok (-1, s)
      | .ok (some kpath, s) => call kpath s) := by
  have hcopy := onKernel_working (s := s)
    (copyStringFromUser_serves h userPath.toNat userPathMax)
  cases hres : s.onKernel (copyStringFromUser L userPath.toNat userPathMax s.kernel) with
  | error e =>
      rw [hres] at hcopy
      exact hcopy.keeps.error
  | ok out =>
      obtain ⟨kpath, s₁⟩ := out
      rw [hres] at hcopy
      obtain ⟨hserving, hspares⟩ := hcopy
      refine Keeps.after hspares ?_
      cases kpath with
      | none => exact Serving.keeps hserving _
      | some kpath => exact hcall kpath s₁ hserving

theorem sysOpen_keeps (h : Serving L i s.kernel) (userPath flags : UInt32) :
    Keeps L i s.kernel (sysOpen L userPath flags s) :=
  withPath_keeps h userPath fun _ _ hs => onFiles_keeps hs (fsOpen_fdsOnly ..)

theorem sysUnlink_keeps (h : Serving L i s.kernel) (userPath : UInt32) :
    Keeps L i s.kernel (sysUnlink L userPath s) :=
  withPath_keeps h userPath fun _ _ hs => onFiles_keeps hs (fsUnlink_fdsOnly ..)

theorem sysRename_keeps (h : Serving L i s.kernel) (userOldPath userNewPath : UInt32) :
    Keeps L i s.kernel (sysRename L userOldPath userNewPath s) :=
  withPath_keeps h userOldPath fun _ _ hs =>
    withPath_keeps hs userNewPath fun _ _ hs => onFiles_keeps hs (fsRename_fdsOnly ..)

/-! ## Reads, writes and listings -/

theorem copyFromKernel_working (h : Serving L i s.kernel) {buf : Nat} {src : List UInt8}
    (hbuf : buf < 4294967296)
    (hok : ∀ j, j < src.length → ByteOk s.kernel i vmaProtW (u32 (buf + j))) :
    Working L i s.kernel (copyFromKernel L buf src s) := onKernel_working (storeAll_serves h hbuf hok)

/-- The check that `sys_read` and `sys_listdir` make covers what is copied. -/
theorem copyChecked_working (h : Serving L i s.kernel) {userBuf len : UInt32} {src : List UInt8}
    (hcheck : ¬ (len ≠ 0 ∧ ¬ procUserWritableOk s.kernel userBuf.toNat len.toNat))
    (hlen : src.length ≤ len.toNat) :
    Working L i s.kernel (copyFromKernel L userBuf.toNat src s) := by
  apply copyFromKernel_working h userBuf.toNat_lt
  intro j hj
  have hne : len ≠ 0 := by
    rintro rfl
    exact Nat.not_lt_zero j (hj.trans_le hlen)
  have hok : procUserWritableOk s.kernel userBuf.toNat len.toNat = true := by
    by_contra hno
    exact hcheck ⟨hne, hno⟩
  rw [h.writable] at hok
  exact h.bytesOk userBuf.toNat_lt len.toNat_lt hok j (hj.trans_le hlen)

theorem fsRead_length (fd : Int) (buf len : Nat) (files : System) :
    (fsRead fd buf len files).2.1.length ≤ len := by
  unfold fsRead
  split
  · exact Nat.zero_le _
  split
  · exact Nat.zero_le _
  dsimp only
  split
  · exact Nat.zero_le _
  split
  · exact Nat.zero_le _
  split
  · exact Nat.zero_le _
  · rw [List.length_map, List.length_range]
    split
    · exact le_refl _
    · omega

theorem sysRead_keeps (h : Serving L i s.kernel) (fd : Int) (userBuf len : UInt32) :
    Keeps L i s.kernel (sysRead L fd userBuf len s) := by
  unfold sysRead
  split
  · exact Serving.keeps h _
  · rename_i hcheck
    have hcopy := copyChecked_working h hcheck (fsRead_length fd userBuf.toNat len.toNat s.files)
    unfold fsReadUser
    cases hcall : copyFromKernel L userBuf.toNat
        (fsRead fd userBuf.toNat len.toNat s.files).2.1 s with
    | error e =>
        rw [hcall] at hcopy
        exact hcopy.keeps.error
    | ok out =>
        rw [hcall] at hcopy
        exact Keeps.after hcopy.2 (onFiles_keeps hcopy.1 (fsRead_fdsOnly ..))

theorem fsListdir_length (buf len : Nat) (inodes : Inodes) :
    (fsListdir buf len inodes).2.length ≤ len := by
  obtain ⟨shown, hidden, -, hout, hlt, -⟩ :=
    listdirLoop_eq len inodes (List.finRange ramfsMaxFiles) []
  have hlisting : listing len inodes = lines shown := hout
  unfold fsListdir
  split
  · exact Nat.zero_le _
  · rename_i hlen
    rw [not_or] at hlen
    have hfits : (lines shown).length < len := hlt (Nat.pos_of_ne_zero hlen.2)
    dsimp only
    rw [hlisting, if_pos hfits, List.length_append, List.length_singleton]
    exact hfits

theorem sysListdir_keeps (h : Serving L i s.kernel) (userBuf len : UInt32) :
    Keeps L i s.kernel (sysListdir L userBuf len s) := by
  unfold sysListdir
  split
  · exact Serving.keeps h _
  · rename_i hcheck
    have hcopy := copyChecked_working h hcheck
      (fsListdir_length userBuf.toNat len.toNat s.files.inodes)
    unfold fsListdirUser
    dsimp only
    split
    · rename_i hcall
      rw [hcall] at hcopy
      exact hcopy.keeps.error
    · rename_i hcall
      rw [hcall] at hcopy
      exact hcopy.keeps

theorem copyToInode_working (h : Serving L i s.kernel) (slot : Fin ramfsMaxFiles)
    {offset buf n : Nat} (hbuf : buf < 4294967296)
    (hok : ∀ j, j < n → ByteOk s.kernel i vmaProtR (u32 (buf + j))) :
    Working L i s.kernel (copyToInode L slot offset buf n s) := by
  induction n generalizing offset buf s with
  | zero => exact ⟨h, .refl i _⟩
  | succ n ih =>
      have hfirst := hok 0 (Nat.zero_lt_succ _)
      rw [Nat.add_zero, u32_of_lt hbuf] at hfirst
      have hload := loadByte_serves h hfirst
      unfold copyToInode
      cases hcall : loadByte L buf s.kernel with
      | error e =>
          rw [hcall] at hload
          cases e with
          | stop e touched => exact hload
          | exited k => exact hload
      | ok out =>
          obtain ⟨byte, k⟩ := out
          rw [hcall] at hload
          obtain ⟨hserving, htable⟩ := hload
          refine Working.after (Spares.of_procs htable.1) (ih hserving (u32_lt _) fun j hj => ?_)
          rw [u32_succ_add]
          exact (hok (j + 1) (Nat.succ_lt_succ hj)).table htable

theorem sysWrite_keeps (h : Serving L i s.kernel) (fd : Int) (userBuf len : UInt32) :
    Keeps L i s.kernel (sysWrite L fd userBuf len s) := by
  unfold sysWrite
  split
  · exact Serving.keeps h _
  rename_i hcheck
  unfold fsWriteUser
  split
  · exact Serving.keeps h _
  split
  · exact Serving.keeps h _
  rename_i p fdi hget
  dsimp only
  split
  · exact Serving.keeps h _
  rename_i slot hslot
  split
  · exact Serving.keeps h _
  generalize writeOffset ((s.kernel.procs p).fds fdi) (s.files.inodes slot) = offset
  have hfds := FdsOnly.setFd s.kernel p fdi { (s.kernel.procs p).fds fdi with offset := offset }
  dsimp only at hfds
  generalize Kernel.setFd s.kernel p fdi _ = k₁ at hfds ⊢
  refine Keeps.after hfds.spares ?_
  have hserving : Serving L i (s.withKernel k₁).kernel := hfds.serving h
  split
  · exact Serving.keeps hserving _
  have hcount : writeCount offset len.toNat ≤ len.toNat := by
    unfold writeCount
    split
    · exact le_refl _
    · omega
  generalize writeCount offset len.toNat = n at hcount ⊢
  have hbytes : ∀ j, j < n → ByteOk k₁ i vmaProtR (u32 (userBuf.toNat + j)) := by
    intro j hj
    have hne : len ≠ 0 := by
      rintro rfl
      exact Nat.not_lt_zero j (hj.trans_le hcount)
    have hok : procUserReadableOk s.kernel userBuf.toNat len.toNat = true := by
      by_contra hno
      exact hcheck ⟨hne, hno⟩
    rw [h.readable] at hok
    exact hfds.byteOk (h.bytesOk userBuf.toNat_lt len.toNat_lt hok j (hj.trans_le hcount))
  have hcopy : Working L i k₁ (copyToInode L slot offset userBuf.toNat n (s.withKernel k₁)) :=
    copyToInode_working hserving slot userBuf.toNat_lt hbytes
  split
  · rename_i hcall
    rw [hcall] at hcopy
    exact hcopy.keeps.error
  · rename_i hcall
    rw [hcall] at hcopy
    exact Keeps.after hcopy.2 (onFiles_keeps hcopy.1 (FdsOnly.setFd ..))

/-! ## The other handlers -/

theorem gpuInfoBytes_length (d : Display) : (gpuInfoBytes d).length = 20 := by
  simp [gpuInfoBytes, wordBytes, intBytes_length]

theorem sysEventBytes_length (pad : UInt32) (e : KEvent) :
    (sysEventBytes pad e).length = sysEventSize := by
  simp [sysEventBytes, wordBytes, intBytes_length]

theorem sysGpuInfo_keeps (h : Serving L i s.kernel) (userInfo : UInt32) :
    Keeps L i s.kernel (sysGpuInfo L userInfo s) := by
  have hcopy : Working L i s.kernel
      (s.onKernel (copyToUser L userInfo.toNat (gpuInfoBytes s.display) s.kernel)) :=
    onKernel_working (copyToUser_serves h userInfo.toNat_lt (by rw [gpuInfoBytes_length]; decide))
  unfold sysGpuInfo
  split
  · rename_i hcall
    rw [hcall] at hcopy
    exact hcopy.keeps.error
  · rename_i hcall
    rw [hcall] at hcopy
    exact hcopy.keeps

theorem sysGetEvent_keeps (h : Serving L i s.kernel) (userEvent : UInt32) :
    Keeps L i s.kernel (sysGetEvent L userEvent s) := by
  unfold sysGetEvent
  split
  · exact Serving.keeps h _
  split
  rename_i result event events hpop
  cases event with
  | none => exact ⟨h.guarded, .refl i _⟩
  | some event =>
      dsimp only
      split
      · exact ⟨h.guarded, .refl i _⟩
      have hcopy : Working L i s.kernel (Os.onKernel { s with events := events }
          (copyToUser L userEvent.toNat (sysEventBytes s.pad event) s.kernel)) :=
        onKernel_working
          (copyToUser_serves h userEvent.toNat_lt (by rw [sysEventBytes_length]; decide))
      split
      · rename_i hcall
        rw [hcall] at hcopy
        exact hcopy.keeps.error
      · rename_i hcall
        rw [hcall] at hcopy
        exact hcopy.keeps
      · rename_i hcall
        rw [hcall] at hcopy
        exact hcopy.keeps

theorem sysExec_keeps (h : Serving L i s.kernel) (entryPc argv : UInt32) :
    Keeps L i s.kernel (sysExec L entryPc argv s) := by
  have hexec := onKernel_keeps (s := s)
    (procExec_ends h.guarded h.running entryPc.toNat argv.toNat)
  unfold sysExec
  split
  · rename_i hcall
    rw [hcall] at hexec
    exact hexec.error
  · rename_i hcall
    rw [hcall] at hexec
    exact hexec

theorem procExit_leaves {k : Kernel} (h : Serving L i k) (status : Int) :
    Guarded L (procExit status k) ∧ Spares i k (procExit status k) := by
  have hstate := (Kernel.running_eq_some.mp h.running).2
  have hkept := procExit_kept h.inv status h.cur (by rw [hstate]; decide)
  exact ⟨h.guarded.of_touched hkept.inv (procExit_touched _ _),
    (Change.of_exited h.running rfl rfl).spares h.cur⟩

theorem sysExit_keeps (h : Serving L i s.kernel) (status : UInt32) :
    Keeps L i s.kernel (sysExit status s) := procExit_leaves h status.toInt32.toInt

theorem sysFork_keeps (h : Serving L i s.kernel) : Keeps L i s.kernel (sysFork L s) := by
  unfold sysFork
  cases hcall : procFork L s.kernel with
  | error e => exact h.touches
  | ok out =>
      have hkept := procFork_kept h.inv h.running hcall
      have hchange : Change 128 s.kernel out.2 := procFork_change h.running hcall
      exact ⟨h.guarded.of_touched hkept.inv (procFork_touched hcall), hchange.spares h.cur⟩

theorem sysMmap_keeps (h : Serving L i s.kernel) (userAddr length prot flags : UInt32) :
    Keeps L i s.kernel (sysMmap L userAddr length prot flags s) := by
  have hkept := procMmap_kept h.inv i userAddr.toNat length.toNat prot.toNat flags.toNat
  unfold sysMmap
  rw [h.cur]
  dsimp only
  obtain ⟨⟨result, proc, phys⟩, hcall, hout⟩ := hkept.exists_ok
  rw [hcall]
  have hends : Guarded L ({ s.kernel with phys := phys }.setProc i proc) ∧
      Spares i s.kernel ({ s.kernel with phys := phys }.setProc i proc) :=
    ⟨h.guarded.of_touched hout.inv rfl, Spares.setProc _ i proc phys⟩
  cases result with
  | none => exact hends
  | some addr => exact hends

theorem sysMunmap_keeps (h : Serving L i s.kernel) (userAddr length : UInt32) :
    Keeps L i s.kernel (sysMunmap L userAddr length s) := by
  have hkept := procMunmap_kept h.inv i userAddr.toNat length.toNat
  unfold sysMunmap
  rw [h.cur]
  dsimp only
  obtain ⟨⟨ok, proc, phys⟩, hcall, hout⟩ := hkept.exists_ok
  rw [hcall]
  exact ⟨h.guarded.of_touched hout.inv rfl, Spares.setProc _ i proc phys⟩

/-! ## Waiting -/

/-- A process that has blocked in `sys_waitpid` is there. -/
theorem blocked_present {k k' : Kernel} (h : WaitKeeps L i k (.blocked k'))
    (huser : (k.procs i).isUser = true) : Present k' i := by
  obtain ⟨-, -, hsame, hstate⟩ := h
  refine ⟨hsame.trans huser, ?_, ?_⟩ <;> rw [hstate] <;> nofun

theorem sysWaitpid_keeps (h : Serving L i s.kernel) (pid : Int) (statusPtr options : UInt32) :
    Keeps L i s.kernel (sysWaitpid L pid statusPtr options s) := by
  have hpass : WaitKeeps L i s.kernel (Proc.sysWaitpid L i ⟨pid, statusPtr, options⟩ s.kernel) :=
    Proc.sysWaitpid_keeps h.guarded h.running (WaitCall.mayCall_iff.mpr (.inr h.user))
  unfold sysWaitpid
  rw [h.cur]
  dsimp only
  split
  · rename_i hcall
    rw [hcall] at hpass
    exact hpass
  · rename_i hcall
    rw [hcall] at hpass
    exact ⟨hpass.1, hpass.2.1, blocked_present hpass h.user⟩
  · rename_i hcall
    rw [hcall] at hpass
    exact hpass
  · rename_i hcall
    rw [hcall] at hpass
    exact hpass

/-- Every system call, whatever its number and arguments. -/
theorem handler_keeps (h : Serving L i s.kernel) (number : UInt32) (args : SyscallArgs) :
    Keeps L i s.kernel (handler L number args s) := by
  generalize hcall : handler L number args = call
  unfold handler at hcall
  split at hcall
  all_goals subst hcall
  · exact ⟨h.guarded, .refl i _⟩
  · exact ⟨h.guarded, .refl i _⟩
  · exact Serving.keeps h _
  · exact sysExit_keeps h _
  · exact sysFork_keeps h
  · exact sysWaitpid_keeps h _ _ _
  · exact sysWaitpid_keeps h _ _ _
  · exact sysOpen_keeps h _ _
  · exact onFiles_keeps h (fsClose_fdsOnly ..)
  · exact sysRead_keeps h _ _ _
  · exact sysWrite_keeps h _ _ _
  · exact sysUnlink_keeps h _
  · exact sysRename_keeps h _ _
  · exact sysListdir_keeps h _ _
  · exact sysMmap_keeps h _ _ _ _
  · exact sysMunmap_keeps h _ _
  · exact sysGpuInfo_keeps h _
  · unfold sysGpuFlush
    split <;> exact ⟨h.guarded, .refl i _⟩
  · exact sysGetEvent_keeps h _
  · exact Serving.keeps h _
  · exact sysExec_keeps h _ _
  · exact Serving.keeps h _

end Sugimotos.Syscall
