/-
# The calls on the flat machine

Each system call that returns has done to the paged machine what the flat call does to the flat
one.  Then the same for whole executions of a process: loads, stores, page faults, calls.
-/

import Sugimotos.Syscall.Flat

namespace Sugimotos.Syscall

open Sugimotos.Math Sugimotos.Mm Sugimotos.Proc Sugimotos.Fs Sugimotos.Event

variable {L : Layout} {i : Fin procMax} {s s' : Os} {k k' : Kernel}

/-- If the call returns, the flat call returns the same and sees the same afterwards. -/
def Shows (L : Layout) (i : Fin procMax) (flat : Flat → Int × Flat) (s : Os)
    (m : Except SysHalt (Int × Os)) : Prop :=
  ∀ v s', m = .ok (v, s') → Serving L i s'.kernel ∧ flat (.of i s) = (v, .of i s')

theorem Shows.of_error {flat : Flat → Int × Flat} {m : Except SysHalt (Int × Os)} {e : SysHalt}
    (h : m = .error e) : Shows L i flat s m := by
  intro v s' hm
  rw [h] at hm
  cases hm

theorem Shows.of_ok {flat : Flat → Int × Flat} {v : Int} (hserving : Serving L i s'.kernel)
    (hflat : flat (.of i s) = (v, .of i s')) : Shows L i flat s (.ok (v, s')) := by
  intro v' s'' hm
  cases hm
  exact ⟨hserving, hflat⟩

/-! ## What the process does not see -/

theorem FdsOnly.view (h : FdsOnly k k') : k'.view i = k.view i := by
  funext va
  obtain ⟨fds, hfds⟩ := h.procs i
  unfold Kernel.view Kernel.byteAt
  rw [hfds, h.phys]

/-- Faults that leave the view alone are not seen. -/
theorem Flat.of_withKernel (htable : SameTable s.kernel k) (hview : k.view i = s.kernel.view i) :
    Flat.of i (s.withKernel k) = Flat.of i s := by
  unfold Flat.of Files.of Os.withKernel
  dsimp only [Os.kernel]
  rw [htable.1, htable.2, hview]

/-- A store is seen as a store. -/
theorem Flat.of_leaves {addr : UInt32} {bytes : List UInt8}
    (h : Leaves L i s.kernel ((s.kernel.view i).write addr.toNat bytes) k) :
    Flat.of i (s.withKernel k) = (Flat.of i s).store addr bytes := by
  obtain ⟨-, htable, hview⟩ := h
  unfold Flat.of Files.of Os.withKernel Flat.store
  dsimp only [Os.kernel]
  rw [htable.1, htable.2, hview]

theorem FdsOnly.vmas (h : FdsOnly k k') : (k'.procs i).vmas = (k.procs i).vmas := by
  obtain ⟨fds, hfds⟩ := h.procs i
  rw [hfds]

/-- Files and descriptors are all that changes. -/
theorem Flat.of_files {files : System} (hview : files.kernel.view i = s.kernel.view i)
    (hvmas : (files.kernel.procs i).vmas = (s.kernel.procs i).vmas) :
    Flat.of i { s with files := files } = { Flat.of i s with files := .of files } := by
  unfold Flat.of
  dsimp only [Os.kernel]
  rw [hview, hvmas]

/-- The check of a range, on the flat machine. -/
theorem Flat.allows_iff (h : Serving L i s.kernel) {addr len need : Nat} (haddr : addr < 4294967296)
    (hpos : 0 < len) (hlen : len < 4294967296) :
    (Flat.of i s).allows addr len need ↔
      procVmaRangeOk (s.kernel.procs i) addr len need = true :=
  (procVmaRangeOk_iff (h.inv.vma h.user) h.user haddr hpos hlen).symm

/-! ## Files -/

theorem file_shows (h : Serving L i s.kernel) {call : System → Int × System}
    (hsame : Alike.Same (call s.files) (call (Files.of s.files).bare))
    (hfds : FdsOnly s.kernel (call s.files).2.kernel) :
    Shows L i (Flat.file call) s (s.onFiles (call s.files)) := by
  refine Shows.of_ok (hfds.serving h) ?_
  rw [Flat.of_files hfds.view hfds.vmas, ← hsame.1.symm, hsame.2]
  rfl

theorem Flat.withPath_eq {ptr : UInt32} {flat : List UInt8 → Flat → Int × Flat}
    {kpath : Option (List UInt8)} :
    kpath = (if ptr.toNat = 0 then none else (s.kernel.view i).cstr ptr.toNat userPathMax 0) →
      Flat.withPath ptr flat (.of i s) =
        match kpath with
        | none => (-1, .of i s)
        | some kpath => flat kpath (.of i s) := by
  rintro rfl
  rfl

/-- A call with a path. -/
theorem withPath_shows (h : Serving L i s.kernel) (ptr : UInt32) {call : List UInt8 → SysCall Int}
    {flat : List UInt8 → Flat → Int × Flat}
    (hcall : ∀ kpath s, Serving L i s.kernel → Shows L i (flat kpath) s (call kpath s)) :
    Shows L i (Flat.withPath ptr flat) s
      (match s.onKernel (copyStringFromUser L ptr.toNat userPathMax s.kernel) with
      | .error e => .error e
      | .ok (none, s) => .ok (-1, s)
      | .ok (some kpath, s) => call kpath s) := by
  have hreads := copyStringFromUser_readsAs h.reader ptr.toNat_lt userPathMax
  have hserves := copyStringFromUser_serves h ptr.toNat userPathMax
  cases hres : copyStringFromUser L ptr.toNat userPathMax s.kernel with
  | error e => cases e <;> exact Shows.of_error rfl
  | ok out =>
      obtain ⟨kpath, k⟩ := out
      rw [hres] at hreads hserves
      obtain ⟨hpath, hsame⟩ := hreads
      obtain ⟨hserving, htable⟩ := hserves
      have hunseen : Flat.of i (s.withKernel k) = Flat.of i s := Flat.of_withKernel htable hsame.view
      have hwith : Flat.withPath ptr flat (.of i s) = _ := Flat.withPath_eq hpath
      cases kpath with
      | none =>
          refine Shows.of_ok hserving ?_
          rw [hwith, hunseen]
      | some kpath =>
          intro v s' hm
          obtain ⟨hserving', hshown⟩ := hcall kpath (s.withKernel k) hserving v s' hm
          rw [hunseen] at hshown
          exact ⟨hserving', hwith.trans hshown⟩

/-- A call with a checked buffer. -/
theorem withBuffer_shows (h : Serving L i s.kernel) {addr len : UInt32} {need : Nat} {ok : Bool}
    (hok : ok = procVmaRangeOk (s.kernel.procs i) addr.toNat len.toNat need)
    {flat : Flat → Int × Flat} {m : Except SysHalt (Int × Os)}
    (hcall : (len = 0 ∨ procVmaRangeOk (s.kernel.procs i) addr.toNat len.toNat need = true) →
      Shows L i flat s m) :
    Shows L i (Flat.withBuffer addr len need flat) s
      (if len ≠ 0 ∧ ¬ ok then .ok (-1, s) else m) := by
  have hallows : len ≠ 0 → ((Flat.of i s).allows addr.toNat len.toNat need ↔ ok = true) := by
    intro hne
    have hpos : 0 < len.toNat := Nat.pos_of_ne_zero fun hzero => hne (UInt32.toNat_inj.mp hzero)
    rw [hok]
    exact Flat.allows_iff h addr.toNat_lt hpos len.toNat_lt
  by_cases hrefused : len ≠ 0 ∧ ¬ ok = true
  · rw [if_pos hrefused]
    refine Shows.of_ok h ?_
    unfold Flat.withBuffer
    rw [if_neg]
    rintro (hzero | hallowed)
    · exact hrefused.1 hzero
    · exact hrefused.2 ((hallows hrefused.1).mp hallowed)
  · rw [if_neg hrefused]
    have hpass : len ≠ 0 → ok = true := fun hne => not_not.mp fun hno => hrefused ⟨hne, hno⟩
    have hchecked : len = 0 ∨ procVmaRangeOk (s.kernel.procs i) addr.toNat len.toNat need = true := by
      rw [← hok]
      exact or_iff_not_imp_left.mpr hpass
    intro v s' hm
    obtain ⟨hserving, hshown⟩ := hcall hchecked v s' hm
    refine ⟨hserving, ?_⟩
    unfold Flat.withBuffer
    rw [if_pos]
    · exact hshown
    · exact or_iff_not_imp_left.mpr fun hne => (hallows hne).mpr (hpass hne)

/-! ## Copies -/

/-- The bytes of a range that the check passed. -/
theorem checked_bytes (h : Serving L i s.kernel) {addr len : UInt32} {need n : Nat}
    (hchecked : len = 0 ∨ procVmaRangeOk (s.kernel.procs i) addr.toNat len.toNat need = true)
    (hn : n ≤ len.toNat) :
    addr.toNat + n < 4294967296 ∧ ∀ j, j < n → ByteOk s.kernel i need (addr.toNat + j) := by
  rcases hchecked with hzero | hrange
  · subst hzero
    obtain rfl := Nat.le_zero.mp hn
    exact ⟨addr.toNat_lt, nofun⟩
  · constructor
    · by_cases hpos : 0 < n
      · have hfits := (procVmaRangeOk_covers hrange addr.toNat_lt len.toNat_lt
          (le_refl addr.toNat) (Nat.lt_add_of_pos_right (hpos.trans_le hn))).2.1
        omega
      · rw [Nat.eq_zero_of_not_pos hpos]
        exact addr.toNat_lt
    · intro j hj
      exact (h.byteOk addr.toNat_lt len.toNat_lt hrange (hj.trans_le hn)).1

/-- A copy to the process that returns is seen as a store. -/
theorem copyFromKernel_shows (h : Serving L i s.kernel) {addr len : UInt32} {src : List UInt8}
    (hchecked : len = 0 ∨ procVmaRangeOk (s.kernel.procs i) addr.toNat len.toNat vmaProtW = true)
    (hlen : src.length ≤ len.toNat) {s' : Os}
    (hcall : copyFromKernel L addr.toNat src s = .ok ((), s')) :
    ∃ k, s' = s.withKernel k ∧ Leaves L i s.kernel ((s.kernel.view i).write addr.toNat src) k := by
  obtain ⟨hfits, hok⟩ := checked_bytes h hchecked hlen
  unfold copyFromKernel at hcall
  cases hstore : storeAll L addr.toNat src s.kernel with
  | error e =>
      rw [hstore] at hcall
      cases e <;> cases hcall
  | ok k =>
      rw [hstore] at hcall
      cases hcall
      exact ⟨k, rfl, storeAll_view h hfits hok hstore⟩

theorem sysRead_shows (h : Serving L i s.kernel) (fd : Int) (userBuf len : UInt32) :
    Shows L i (Flat.withBuffer userBuf len vmaProtW (Flat.read fd userBuf len)) s
      (sysRead L fd userBuf len s) := by
  refine withBuffer_shows h (h.writable _ _) fun hchecked => ?_
  unfold fsReadUser
  cases hcall : copyFromKernel L userBuf.toNat
      (fsRead fd userBuf.toNat len.toNat s.files).2.1 s with
  | error e => exact Shows.of_error rfl
  | ok out =>
      obtain ⟨⟨⟩, s₁⟩ := out
      obtain ⟨k, rfl, hleaves⟩ := copyFromKernel_shows h hchecked (fsRead_length ..) hcall
      have hfds := fsRead_fdsOnly fd userBuf.toNat len.toNat (s.withKernel k).files
      -- The copy changes no descriptor: the call reads what it would have read before.
      have halike : Alike (s.withKernel k).files (Files.of s.files).bare :=
        Alike.of_parts rfl hleaves.2.1.2 fun p => by rw [hleaves.2.1.1]; rfl
      obtain ⟨hvalue, -, hfiles⟩ := halike.fsRead fd userBuf.toNat len.toNat
      have hbytes := ((Alike.bare s.files).fsRead fd userBuf.toNat len.toNat).2.1
      refine Shows.of_ok (hfds.serving hleaves.1) ?_
      rw [Flat.of_files hfds.view hfds.vmas, Flat.of_leaves hleaves, hfiles, hvalue, hbytes]
      rfl

theorem sysListdir_shows (h : Serving L i s.kernel) (userBuf len : UInt32) :
    Shows L i (Flat.withBuffer userBuf len vmaProtW (Flat.listdir userBuf len)) s
      (sysListdir L userBuf len s) := by
  refine withBuffer_shows h (h.writable _ _) fun hchecked => ?_
  unfold fsListdirUser
  dsimp only
  cases hcall : copyFromKernel L userBuf.toNat
      (fsListdir userBuf.toNat len.toNat s.files.inodes).2 s with
  | error e => exact Shows.of_error rfl
  | ok out =>
      obtain ⟨⟨⟩, s₁⟩ := out
      obtain ⟨k, rfl, hleaves⟩ := copyFromKernel_shows h hchecked (fsListdir_length ..) hcall
      refine Shows.of_ok hleaves.1 ?_
      rw [Flat.of_leaves hleaves]
      rfl

theorem storeBytes_zero (data : Nat → UInt8) (offset : Nat) (src : Nat → UInt8) :
    storeBytes data offset 0 src = data := by
  funext p
  exact if_neg (by omega)

theorem storeBytes_succ (data : Nat → UInt8) (offset n : Nat) (src : Nat → UInt8) :
    storeBytes (Function.update data offset (src 0)) (offset + 1) n (fun j => src (j + 1)) =
      storeBytes data offset (n + 1) src := by
  funext p
  unfold storeBytes
  by_cases hfirst : p = offset
  · subst hfirst
    rw [if_neg (by omega), if_pos (by omega), Function.update_self, Nat.sub_self]
  · rw [Function.update_of_ne hfirst]
    by_cases hin : offset + 1 ≤ p ∧ p < offset + 1 + n
    · rw [if_pos hin, if_pos (by omega)]
      dsimp only
      rw [show p - (offset + 1) + 1 = p - offset by omega]
    · rw [if_neg hin, if_neg (by omega)]

/-- The copy of a write: the inode gets the bytes that the process sees. -/
theorem copyToInode_shows (h : Serving L i s.kernel) (slot : Fin ramfsMaxFiles)
    {offset buf n : Nat} (hfits : buf + n < 4294967296)
    (hok : ∀ j, j < n → ByteOk s.kernel i vmaProtR (buf + j))
    {src : Nat → UInt8} (hsrc : ∀ j, j < n → s.kernel.view i (buf + j) = some (src j))
    (hcall : copyToInode L slot offset buf n s = .ok ((), s')) :
    ∃ k, s' = { s with files := ⟨k, Function.update s.files.inodes slot
        { s.files.inodes slot with
          data := storeBytes (s.files.inodes slot).data offset n src }⟩ } ∧
      Serving L i k ∧ SameTable s.kernel k ∧ k.view i = s.kernel.view i := by
  induction n generalizing offset buf src s with
  | zero =>
      cases hcall
      refine ⟨_, ?_, h, ⟨rfl, rfl⟩, rfl⟩
      rw [storeBytes_zero, Function.update_eq_self]
  | succ n ih =>
      have hva : buf < 4294967296 := by omega
      have hreads := loadByte_readsAs h.reader hva (hsrc 0 (Nat.zero_lt_succ n))
      have hserves := loadByte_serves h (hok 0 (Nat.zero_lt_succ n))
      unfold copyToInode at hcall
      cases hload : loadByte L buf s.kernel with
      | error e =>
          rw [hload] at hcall
          cases e <;> cases hcall
      | ok out =>
          obtain ⟨byte, k⟩ := out
          rw [Nat.add_zero] at hserves
          rw [hload] at hcall hreads hserves
          obtain ⟨rfl, hsame⟩ := hreads
          obtain ⟨hserving, htable⟩ := hserves
          dsimp only at hcall
          rw [u32_of_lt (show buf + 1 < 4294967296 by omega)] at hcall
          have hshift : ∀ j, buf + 1 + j = buf + (j + 1) := fun j => by omega
          have hok' : ∀ j, j < n → ByteOk k i vmaProtR (buf + 1 + j) := by
            intro j hj
            rw [hshift]
            exact (hok (j + 1) (Nat.succ_lt_succ hj)).table htable
          have hsrc' : ∀ j, j < n → k.view i (buf + 1 + j) = some (src (j + 1)) := by
            intro j hj
            rw [hshift]
            exact (congrFun hsame.view _).trans (hsrc (j + 1) (Nat.succ_lt_succ hj))
          obtain ⟨k', hs', hserving', htable', hview'⟩ := ih hserving (by omega) hok' hsrc' hcall
          refine ⟨k', ?_, hserving', sameTable_follows.trans htable htable',
            hview'.trans hsame.view⟩
          rw [hs']
          dsimp only [Os.withKernel]
          rw [Function.update_self, Function.update_idem]
          dsimp only
          rw [storeBytes_succ]

/-- A descriptor written twice. -/
theorem setFd_again {p : Fin procMax} {fd : Fin fdMax} {d : FileDesc}
    (h : k'.procs = (Kernel.setFd k p fd d).procs) (d' : FileDesc) :
    (Kernel.setFd k' p fd d').procs = (Kernel.setFd k p fd d').procs := by
  simp only [Kernel.setFd, Kernel.setProc] at h ⊢
  rw [h]
  simp only [Function.update_self, Function.update_idem]

/-- A byte that may be read is a byte of the source. -/
theorem source_view (h : Serving L i s.kernel) {buf : UInt32} {j : Nat}
    (hok : ByteOk s.kernel i vmaProtR (buf.toNat + j)) :
    s.kernel.view i (buf.toNat + j) = some ((Flat.of i s).source buf j) := by
  have hread : s.kernel.view i (buf.toNat + j) ≠ none := by
    rw [← h.reader.readable_byte hok.2, h.readable]
    exact hok.1
  obtain ⟨byte, hbyte⟩ := Option.ne_none_iff_exists'.mp hread
  have hsource : (Flat.of i s).source buf j = byte := by
    change (s.kernel.view i (buf.toNat + j)).getD 0 = byte
    rw [hbyte, Option.getD_some]
  rw [hsource, hbyte]

/-- `fs_write` from user memory, if it returns, does to the files what `fs_write` does with the
bytes that the process sees. -/
theorem fsWriteUser_same (h : Serving L i s.kernel) (fd : Int) {userBuf len : UInt32}
    (hchecked : len = 0 ∨ procVmaRangeOk (s.kernel.procs i) userBuf.toNat len.toNat vmaProtR = true)
    {v : Int} (hcall : fsWriteUser L fd userBuf.toNat len.toNat s = .ok (v, s')) :
    ∃ files, s' = { s with files := files } ∧ Serving L i files.kernel ∧
      files.kernel.view i = s.kernel.view i ∧
      (files.kernel.procs i).vmas = (s.kernel.procs i).vmas ∧
      Alike.Same (v, files)
        (fsWrite fd userBuf.toNat ((Flat.of i s).source userBuf) len.toNat s.files) := by
  have hstays : ∃ files, s = { s with files := files } ∧ Serving L i files.kernel ∧
      files.kernel.view i = s.kernel.view i ∧
      (files.kernel.procs i).vmas = (s.kernel.procs i).vmas ∧
      Alike.Same ((-1 : Int), files) (-1, s.files) := ⟨s.files, rfl, h, rfl, rfl, rfl, rfl⟩
  unfold fsWriteUser at hcall
  unfold fsWrite
  by_cases hnull : userBuf.toNat = 0
  · rw [if_pos hnull] at hcall ⊢
    cases hcall
    exact hstays
  rw [if_neg hnull] at hcall ⊢
  cases hget : getOpenFd fd s.kernel with
  | none =>
      rw [hget] at hcall
      cases hcall
      exact hstays
  | some open' =>
      obtain ⟨p, fdi⟩ := open'
      rw [hget] at hcall
      dsimp only at hcall ⊢
      cases hslot : FileDesc.slot ((s.kernel.procs p).fds fdi) with
      | none =>
          rw [hslot] at hcall
          cases hcall
          exact hstays
      | some slot =>
          rw [hslot] at hcall
          dsimp only at hcall ⊢
          split at hcall
          · rename_i hmode
            rw [if_pos hmode]
            cases hcall
            exact hstays
          rename_i hmode
          rw [if_neg hmode]
          generalize hoffset : writeOffset ((s.kernel.procs p).fds fdi) (s.files.inodes slot) =
            offset at hcall ⊢
          have hfds := FdsOnly.setFd s.kernel p fdi
            { (s.kernel.procs p).fds fdi with offset := offset }
          split at hcall
          · rename_i hfull
            rw [if_pos hfull]
            cases hcall
            exact ⟨_, rfl, hfds.serving h, hfds.view, hfds.vmas, rfl, rfl⟩
          rename_i hfull
          rw [if_neg hfull]
          have hcount : writeCount offset len.toNat ≤ len.toNat := by
            unfold writeCount
            split
            · exact le_refl _
            · omega
          obtain ⟨hfits, hok⟩ := checked_bytes h hchecked hcount
          generalize writeCount offset len.toNat = n at hcall hfits hok ⊢
          cases hcopy : copyToInode L slot offset userBuf.toNat n (s.withKernel
              (Kernel.setFd s.kernel p fdi
                { (s.kernel.procs p).fds fdi with offset := offset })) with
          | error e =>
              rw [hcopy] at hcall
              cases hcall
          | ok out =>
              obtain ⟨⟨⟩, s₁⟩ := out
              rw [hcopy] at hcall
              have hok' := fun j hj => hfds.byteOk (hok j hj)
              have hsrc := fun j hj => (congrFun hfds.view _).trans (source_view h (hok j hj))
              have hshows := copyToInode_shows (hfds.serving h) slot hfits hok' hsrc hcopy
              obtain ⟨k, rfl, hserving, htable, hview⟩ := hshows
              cases hcall
              have hlast := FdsOnly.setFd k p fdi
                { (s.kernel.procs p).fds fdi with offset := offset + n }
              refine ⟨_, rfl, hlast.serving hserving, hlast.view.trans (hview.trans hfds.view),
                ?_, rfl, ?_⟩
              · rw [hlast.vmas, htable.1]
                exact hfds.vmas
              · refine Alike.of_parts ?_ (htable.2) fun q => ?_
                · simp only [Os.withKernel, Function.update_self, Function.update_idem]
                · exact congrArg Process.fds (congrFun (setFd_again htable.1 _) q)

theorem sysWrite_shows (h : Serving L i s.kernel) (fd : Int) (userBuf len : UInt32) :
    Shows L i (Flat.withBuffer userBuf len vmaProtR (Flat.write fd userBuf len)) s
      (sysWrite L fd userBuf len s) := by
  refine withBuffer_shows h (h.readable _ _) fun hchecked => ?_
  intro v s' hm
  obtain ⟨files, rfl, hserving, hview, hvmas, hvalue, hfiles⟩ := fsWriteUser_same h fd hchecked hm
  have hsame := (Alike.bare s.files).fsWrite fd userBuf.toNat ((Flat.of i s).source userBuf) len.toNat
  refine ⟨hserving, ?_⟩
  have hv : v = _ := hvalue
  rw [Flat.of_files hview hvmas, hfiles, hsame.2, hv, hsame.1]
  rfl

/-! ## Devices -/

/-- What `copy_to_user` does, on the flat machine. -/
theorem copyToUser_shows (h : Serving L i s.kernel) {addr : UInt32} {bytes : List UInt8}
    (hpos : 0 < bytes.length) (hlen : bytes.length < 4294967296) {ok : Bool}
    (hcall : s.onKernel (copyToUser L addr.toNat bytes s.kernel) = .ok (ok, s')) :
    (ok = true ↔ addr ≠ 0 ∧ (Flat.of i s).allows addr.toNat bytes.length vmaProtW) ∧
      Serving L i s'.kernel ∧
      Flat.of i s' = if ok then (Flat.of i s).store addr bytes else Flat.of i s := by
  cases hcopy : copyToUser L addr.toNat bytes s.kernel with
  | error e =>
      rw [hcopy] at hcall
      cases e <;> cases hcall
  | ok out =>
      obtain ⟨ok', k⟩ := out
      rw [hcopy] at hcall
      cases hcall
      obtain ⟨hiff, hleaves⟩ := copyToUser_view h addr.toNat_lt hlen hcopy
      have hnull : addr.toNat ≠ 0 ↔ addr ≠ 0 := not_congr (UInt32.toNat_inj (b := 0))
      have hnil : bytes ≠ [] := List.length_pos_iff.mp hpos
      refine ⟨?_, hleaves.1, ?_⟩
      · rw [hiff, Flat.allows_iff h addr.toNat_lt hpos hlen, hnull]
        exact or_iff_right hnil
      · cases ok with
        | true => exact Flat.of_leaves hleaves
        | false => exact Flat.of_withKernel hleaves.2.1 hleaves.2.2

theorem sysGpuInfo_shows (h : Serving L i s.kernel) (userInfo : UInt32) :
    Shows L i (fun f => f.fillIn userInfo (gpuInfoBytes f.display)) s
      (sysGpuInfo L userInfo s) := by
  unfold sysGpuInfo
  cases hcall : s.onKernel (copyToUser L userInfo.toNat (gpuInfoBytes s.display) s.kernel) with
  | error e => exact Shows.of_error rfl
  | ok out =>
      obtain ⟨ok, s₁⟩ := out
      obtain ⟨hiff, hserving, hflat⟩ := copyToUser_shows h
        (by rw [gpuInfoBytes_length]; decide) (by rw [gpuInfoBytes_length]; decide) hcall
      refine Shows.of_ok hserving ?_
      rw [hflat]
      unfold Flat.fillIn
      cases ok with
      | true => exact if_pos (hiff.mp rfl)
      | false => exact if_neg fun hok => Bool.false_ne_true (hiff.mpr hok)

/-- An event taken from the queue is delivered: the check comes first. -/
theorem deliverEvent_shows (h : Serving L i s.kernel) {userEvent : UInt32}
    (hroom : userEvent ≠ 0 ∧ (Flat.of i s).allows userEvent.toNat sysEventSize vmaProtW)
    (event : KEvent) (events : Kevents) {v : Int}
    (hcall : (match ({ s with events := events } : Os).onKernel
        (copyToUser L userEvent.toNat (sysEventBytes s.pad event) s.kernel) with
      | .error e => .error e
      | .ok (false, s) => .ok (-1, s)
      | .ok (true, s) => .ok (1, s)) = Except.ok (v, s')) :
    v = 1 ∧ Serving L i s'.kernel ∧
      Flat.of i s' = { Flat.of i s with events := events }.store userEvent
        (sysEventBytes s.pad event) := by
  have hserving : Serving L i ({ s with events := events } : Os).kernel := h
  cases hcopy : ({ s with events := events } : Os).onKernel
      (copyToUser L userEvent.toNat (sysEventBytes s.pad event) s.kernel) with
  | error e =>
      rw [hcopy] at hcall
      cases hcall
  | ok out =>
      obtain ⟨ok, s₁⟩ := out
      have hlen := sysEventBytes_length s.pad event
      obtain ⟨hiff, hserving', hflat⟩ := copyToUser_shows hserving (by rw [hlen]; decide)
        (by rw [hlen]; decide) hcopy
      rw [hlen] at hiff
      have htrue : ok = true := hiff.mpr hroom
      subst htrue
      rw [hcopy] at hcall
      cases hcall
      exact ⟨rfl, hserving', hflat⟩

theorem sysGetEvent_shows (h : Serving L i s.kernel) (userEvent : UInt32) :
    Shows L i (Flat.getEvent userEvent) s (sysGetEvent L userEvent s) := by
  have hallows : (Flat.of i s).allows userEvent.toNat sysEventSize vmaProtW ↔
      procUserWritableOk s.kernel userEvent.toNat sysEventSize = true := by
    rw [h.writable]
    exact Flat.allows_iff h userEvent.toNat_lt (by decide) (by decide)
  intro v s' hm
  unfold sysGetEvent at hm
  unfold Flat.getEvent
  split at hm
  · rename_i hrefused
    cases hm
    refine ⟨h, if_neg fun hroom => ?_⟩
    rcases hrefused with hnull | hno
    · exact hroom.1 hnull
    · exact hno (hallows.mp hroom.2)
  rename_i hchecked
  rw [not_or, not_not] at hchecked
  have hroom : userEvent ≠ 0 ∧ (Flat.of i s).allows userEvent.toNat sysEventSize vmaProtW :=
    ⟨hchecked.1, hallows.mpr hchecked.2⟩
  rw [if_pos hroom]
  split at hm
  rename_i result event events hpop
  have hflat : keventPop (some ⟨0, 0, 0, 0, 0, 0⟩) (Flat.of i s).events =
      (result, event, events) := hpop
  rw [hflat]
  cases event with
  | none =>
      cases hm
      exact ⟨h, rfl⟩
  | some event =>
      dsimp only at hm ⊢
      split at hm
      · rename_i hresult
        cases hm
        exact ⟨h, if_pos hresult⟩
      · rename_i hresult
        obtain ⟨rfl, hserving, hflat⟩ := deliverEvent_shows h hroom event events hm
        exact ⟨hserving, (if_neg hresult).trans (by rw [hflat]; rfl)⟩

/-- Every call that the flat machine has. -/
theorem handler_shows (h : Serving L i s.kernel) {number : UInt32} {args : SyscallArgs}
    {flat : Flat → Int × Flat} (hflat : Flat.call number args = some flat) :
    Shows L i flat s (handler L number args s) := by
  generalize hcall : handler L number args = call
  unfold handler at hcall
  unfold Flat.call at hflat
  generalize number.toNat = n at hcall hflat
  split at hcall
  all_goals subst hcall
  · cases hflat
    exact Shows.of_ok h rfl
  · cases hflat
    exact Shows.of_ok h rfl
  · cases hflat
    exact Shows.of_ok h rfl
  · cases hflat
  · cases hflat
  · cases hflat
  · cases hflat
  · cases hflat
    exact withPath_shows h _ fun kpath s hs =>
      file_shows hs ((Alike.bare s.files).fsOpen _ _) (fsOpen_fdsOnly ..)
  · cases hflat
    exact file_shows h ((Alike.bare s.files).fsClose _) (fsClose_fdsOnly ..)
  · cases hflat
    exact sysRead_shows h _ _ _
  · cases hflat
    exact sysWrite_shows h _ _ _
  · cases hflat
    exact withPath_shows h _ fun kpath s hs =>
      file_shows hs ((Alike.bare s.files).fsUnlink _) (fsUnlink_fdsOnly ..)
  · cases hflat
    exact withPath_shows h _ fun koldPath s hs => withPath_shows hs _ fun knewPath s hs =>
      file_shows hs ((Alike.bare s.files).fsRename _ _) (fsRename_fdsOnly ..)
  · cases hflat
    exact sysListdir_shows h _ _
  · cases hflat
  · cases hflat
  · cases hflat
    exact sysGpuInfo_shows h _
  · cases hflat
    unfold sysGpuFlush
    by_cases hready : s.display.ready = true
    · rw [if_neg (not_not_intro hready)]
      exact Shows.of_ok h (if_pos hready)
    · rw [if_pos hready]
      exact Shows.of_ok h (if_neg hready)
  · cases hflat
    exact sysGetEvent_shows h _
  · cases hflat
    exact Shows.of_ok h rfl
  · cases hflat
  · -- The flat machine does not know the number, either.
    have hunknown : flat = fun f => (-1, f) := by
      split at hflat
      all_goals first
        | contradiction
        | exact (Option.some.inj hflat).symm
    rw [hunknown]
    exact Shows.of_ok h rfl

end Sugimotos.Syscall
