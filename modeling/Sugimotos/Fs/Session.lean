/-
# One file at a time

A process that has no descriptor open opens a file, reads or writes it in one go and closes it.
Each call is described by the store, and the process has no descriptor open afterwards.
-/

import Sugimotos.Fs.Store

namespace Sugimotos.Fs

open Sugimotos.Mm Sugimotos.Proc

/-- The process `p` runs and has no descriptor open. -/
structure Closed (s : System) (p : Fin procMax) : Prop where
  current : s.kernel.currentProc = some p
  fds : ∀ i, ((s.kernel.procs p).fds i).used = false
  sized : Inodes.Sized s.inodes

/-- The process `p` runs and has one descriptor open, which is its first. -/
structure Opened (s : System) (p : Fin procMax) (slot : Fin ramfsMaxFiles) (offset flags : Nat) :
    Prop where
  current : s.kernel.currentProc = some p
  first : (s.kernel.procs p).fds 0 = ⟨true, slot.val, offset, flags⟩
  others : ∀ i, i ≠ 0 → ((s.kernel.procs p).fds i).used = false
  used : (s.inodes slot).used = true
  sized : Inodes.Sized s.inodes

section

variable {s : System} {p : Fin procMax} {slot : Fin ramfsMaxFiles} {offset flags : Nat}

/-! ## Opening and closing -/

theorem Closed.installFd (h : Closed s p) (inode : Int) (flags offset : Nat) :
    Fs.installFd inode flags offset s.kernel =
      (0, Kernel.setFd s.kernel p 0 ⟨true, inode, offset, flags⟩) := by
  have hfirst : allocFd (s.kernel.procs p) = some 0 := by
    unfold allocFd
    rw [List.finRange_succ, List.find?_cons_of_pos]
    rw [h.fds 0]
    rfl
  unfold Fs.installFd
  rw [h.current]
  dsimp only
  rw [hfirst]
  rfl

/-- The descriptor is installed on a slot in use. -/
theorem Closed.opened (h : Closed s p) {inodes : Inodes} (hused : (inodes slot).used = true)
    (hsized : Inodes.Sized inodes) (offset flags : Nat) :
    Opened ⟨Kernel.setFd s.kernel p 0 ⟨true, slot.val, offset, flags⟩, inodes⟩ p slot offset flags where
  current := h.current
  first := by rw [setFd_fds, if_pos ⟨rfl, rfl⟩]
  others i hi := by rw [setFd_fds, if_neg fun hboth => hi hboth.2, h.fds i]
  used := hused
  sized := hsized

theorem Opened.getOpenFd (h : Opened s p slot offset flags) :
    Fs.getOpenFd 0 s.kernel = some (p, 0) := by
  have hused : ((s.kernel.procs p).fds 0).used = true := by rw [h.first]
  unfold Fs.getOpenFd
  rw [h.current]
  exact if_pos hused

/-- The offset moves; the inodes may change. -/
theorem Opened.move (h : Opened s p slot offset flags) {inodes : Inodes}
    (hused : (inodes slot).used = true) (hsized : Inodes.Sized inodes) (offset' : Nat) :
    Opened ⟨Kernel.setFd s.kernel p 0 ⟨true, slot.val, offset', flags⟩, inodes⟩ p slot offset' flags where
  current := h.current
  first := by rw [setFd_fds, if_pos ⟨rfl, rfl⟩]
  others i hi := by rw [setFd_fds, if_neg fun hboth => hi hboth.2, h.others i hi]
  used := hused
  sized := hsized

/-- `fs_close` gives the descriptor back and leaves the files alone. -/
theorem Opened.close (h : Opened s p slot offset flags) :
    Closed (fsClose 0 s).2 p ∧ (fsClose 0 s).2.inodes = s.inodes := by
  unfold fsClose
  rw [h.getOpenFd]
  refine ⟨⟨h.current, fun i => ?_, h.sized⟩, rfl⟩
  dsimp only
  rw [setFd_fds]
  by_cases hi : i = 0
  · rw [if_pos ⟨rfl, hi⟩]
    rfl
  · rw [if_neg fun hboth => hi hboth.2, h.others i hi]

/-! ## What `fs_open` finds -/

/-- The slot that `ensure_ramfs_inode` finds or makes, as a place in the store. -/
theorem ensureRamfsInode_place (inodes : Inodes) (name : List UInt8) {flags : Nat}
    (hcreat : flags &&& oCreat ≠ 0) :
    (ensureRamfsInode name flags inodes = none ∧ (Inodes.store inodes).place name = none) ∨
      ∃ i inodes' n, ensureRamfsInode name flags inodes = some (i, inodes') ∧
        inodes' = Function.update inodes i n ∧ n.used = true ∧ n.name = name ∧
        (Inodes.Sized inodes → n.size ≤ ramfsDataMax) ∧
        (Inodes.store inodes).place name = some (i, RamfsInode.content n) := by
  unfold ensureRamfsInode Store.place
  rw [Inodes.store_find, Inodes.store_free]
  cases hfind : findInodeByName inodes name with
  | some i =>
      obtain ⟨hused, hname⟩ := findInodeByName_some hfind
      right
      refine ⟨i, inodes, inodes i, rfl, (Function.update_eq_self i inodes).symm, hused, hname,
        fun hsized => hsized i, ?_⟩
      dsimp only
      rw [Inodes.store_used hused]
      rfl
  | none =>
      dsimp only
      rw [if_neg hcreat]
      cases halloc : allocInode inodes with
      | none => exact Or.inl ⟨rfl, rfl⟩
      | some i => exact Or.inr ⟨i, _, _, rfl, rfl, rfl, rfl, fun _ => Nat.zero_le _, rfl⟩

/-- What a call of `fs_open` that may create a file does: it fails and changes nothing, or it
opens the place of the file, whose content it keeps or drops. -/
inductive OpenCase (s : System) (p : Fin procMax) (path : List UInt8) (flags : Nat) : Prop
  | fails (hopen : fsOpen (some path) flags s = (-1, s))
      (hnone : ∀ f, (Inodes.store s.inodes).edit path f = none)
  | opens (s' : System) (i : Fin ramfsMaxFiles) (old : List UInt8)
      (hopen : fsOpen (some path) flags s = (0, s')) (hopened : Opened s' p i 0 flags)
      (hcontent : RamfsInode.content (s'.inodes i) = if flags &&& oTrunc ≠ 0 then [] else old)
      (hedit : ∀ f, (Inodes.store s.inodes).edit path f =
        some (Function.update (Inodes.store s'.inodes) i (some ⟨(s'.inodes i).name, f old⟩)))

theorem Closed.open_create (h : Closed s p) (path : List UInt8) (hcreat : flags &&& oCreat ≠ 0)
    (happend : flags &&& oAppend = 0) : OpenCase s p path flags := by
  cases hname : normalizeName (some path) with
  | none =>
      apply OpenCase.fails
      · unfold fsOpen
        rw [hname]
      · intro f
        unfold Store.edit
        rw [hname]
        rfl
  | some name =>
      cases ensureRamfsInode_place s.inodes name hcreat with
      | inl hfull =>
          apply OpenCase.fails
          · unfold fsOpen
            rw [hname]
            dsimp only
            rw [hfull.1]
          · intro f
            unfold Store.edit
            rw [hname, Option.bind_some, hfull.2]
            rfl
      | inr hplace =>
          obtain ⟨i, inodes', n, hensure, rfl, hused, hnamed, hsize, hplace⟩ := hplace
          -- Dropping the content only sets the size of the slot.
          have htrunc : ∃ m, truncateIf flags i (Function.update s.inodes i n) =
              Function.update s.inodes i m ∧ m.used = true ∧ m.name = name ∧
              (Inodes.Sized s.inodes → m.size ≤ ramfsDataMax) ∧
              RamfsInode.content m = if flags &&& oTrunc ≠ 0 then [] else RamfsInode.content n := by
            unfold truncateIf
            by_cases hdrop : flags &&& oTrunc ≠ 0
            · rw [if_pos hdrop, Function.update_self, Function.update_idem]
              exact ⟨_, rfl, hused, hnamed, fun _ => Nat.zero_le _, (if_pos hdrop).symm⟩
            · rw [if_neg hdrop]
              exact ⟨n, rfl, hused, hnamed, hsize, (if_neg hdrop).symm⟩
          obtain ⟨m, hinodes, hmused, hmname, hmsize, hmcontent⟩ := htrunc
          have hsized : Inodes.Sized (Function.update s.inodes i m) := h.sized.update (hmsize h.sized)
          have hself : Function.update s.inodes i m i = m := Function.update_self ..
          refine OpenCase.opens
            ⟨Kernel.setFd s.kernel p 0 ⟨true, i.val, 0, flags⟩, Function.update s.inodes i m⟩ i
            (RamfsInode.content n) ?_ (h.opened (by rw [hself, hmused]) hsized 0 flags) ?_ ?_
          · unfold fsOpen
            rw [hname]
            dsimp only
            rw [hensure]
            dsimp only
            rw [hinodes, if_neg (not_not.mpr happend), h.installFd]
          · dsimp only
            rw [hself, hmcontent]
          · intro f
            unfold Store.edit
            rw [hname, Option.bind_some, hplace, Option.map_some]
            dsimp only
            rw [Inodes.store_update _ _ hmused, Function.update_idem, hself, hmname]

/-- Opening without `O_CREAT` finds the file or fails; it changes no file. -/
theorem Closed.open_read (h : Closed s p) (path : List UInt8) (hcreat : flags &&& oCreat = 0)
    (htrunc : flags &&& oTrunc = 0) (happend : flags &&& oAppend = 0) :
    (fsOpen (some path) flags s = (-1, s) ∧ (Inodes.store s.inodes).read path = none) ∨
      ∃ s' i, fsOpen (some path) flags s = (0, s') ∧ Opened s' p i 0 flags ∧ s'.inodes = s.inodes ∧
        (Inodes.store s.inodes).read path = some (RamfsInode.content (s.inodes i)) := by
  unfold fsOpen Store.read
  cases hname : normalizeName (some path) with
  | none => exact Or.inl ⟨rfl, rfl⟩
  | some name =>
      dsimp only [Option.bind_some]
      rw [Inodes.store_find]
      unfold ensureRamfsInode
      cases hfind : findInodeByName s.inodes name with
      | none =>
          dsimp only
          rw [if_pos hcreat]
          exact Or.inl ⟨rfl, rfl⟩
      | some i =>
          right
          obtain ⟨hused, -⟩ := findInodeByName_some hfind
          dsimp only [Option.bind_some]
          rw [truncateIf, if_neg (not_not.mpr htrunc), if_neg (not_not.mpr happend), h.installFd,
            Inodes.store_used hused]
          exact ⟨_, i, rfl, h.opened hused h.sized 0 flags, rfl, rfl⟩

/-! ## Writing -/

theorem RamfsInode.content_length (n : RamfsInode) : (RamfsInode.content n).length = n.size := by
  rw [RamfsInode.content, List.length_map, List.length_range]

/-- Bytes stored behind the last one are added to the content. -/
theorem storeBytes_content (data : Nat → UInt8) (size : Nat) (word : List UInt8) (n : Nat)
    (hn : n ≤ word.length) :
    (List.range (size + n)).map (storeBytes data size n fun k => word.getD k 0) =
      (List.range size).map data ++ word.take n := by
  apply List.ext_getElem
  · simp only [List.length_map, List.length_range, List.length_append, List.length_take,
      Nat.min_eq_left hn]
  · intro k hk hk'
    rw [List.getElem_map, List.getElem_range, storeBytes]
    rw [List.length_map, List.length_range] at hk
    by_cases hlow : k < size
    · rw [if_neg (by omega), List.getElem_append_left (by simpa using hlow), List.getElem_map,
        List.getElem_range]
    · have hin : k - size < word.length := by omega
      rw [if_pos (by omega), List.getElem_append_right (by simpa using hlow), List.getElem_take,
        List.getD_eq_getElem _ _ (by omega)]
      simp only [List.length_map, List.length_range]

/-- `fs_write` through a descriptor at the end of its file adds what the file has room for. -/
theorem Opened.write (h : Opened s p slot (RamfsInode.content (s.inodes slot)).length flags)
    (hmode : flags &&& 3 = oWronly) (happend : flags &&& oAppend = 0) {buf : Nat} (hbuf : buf ≠ 0)
    (word : List UInt8) :
    ∃ n : RamfsInode, n.used = true ∧ n.name = (s.inodes slot).name ∧
      RamfsInode.content n = (RamfsInode.content (s.inodes slot) ++ word).take ramfsDataMax ∧
      (fsWrite 0 buf (fun k => word.getD k 0) word.length s).2.inodes =
        Function.update s.inodes slot n ∧
      Opened (fsWrite 0 buf (fun k => word.getD k 0) word.length s).2 p slot
        (RamfsInode.content n).length flags := by
  have hsize := h.sized slot
  rw [RamfsInode.content_length] at h
  unfold fsWrite
  rw [if_neg hbuf, h.getOpenFd]
  dsimp only
  rw [h.first, FileDesc.slot_of_fin]
  dsimp only
  rw [if_neg (not_not.mpr (Or.inl hmode)), writeOffset, if_neg (not_not.mpr happend)]
  dsimp only
  by_cases hfull : ramfsDataMax ≤ (s.inodes slot).size
  · -- The file is full: nothing is stored.
    rw [if_pos hfull]
    refine ⟨s.inodes slot, h.used, rfl, ?_, (Function.update_eq_self slot s.inodes).symm, ?_⟩
    · rw [List.take_append_of_le_length (by rw [RamfsInode.content_length]; exact hfull),
        List.take_of_length_le (by rw [RamfsInode.content_length]; exact hsize)]
    · rw [RamfsInode.content_length]
      exact h.move h.used h.sized _
  · rw [if_neg hfull]
    have hroom := writeCount_le word.length (Nat.not_le.mp hfull)
    have hcount : writeCount (s.inodes slot).size word.length =
        min word.length (ramfsDataMax - (s.inodes slot).size) := by
      unfold writeCount
      split <;> omega
    have hnone : (if (s.inodes slot).size < (s.inodes slot).size +
        writeCount (s.inodes slot).size word.length then (s.inodes slot).size +
        writeCount (s.inodes slot).size word.length else (s.inodes slot).size) =
        (s.inodes slot).size + writeCount (s.inodes slot).size word.length := by
      split <;> omega
    rw [hnone]
    refine ⟨{ s.inodes slot with
      data := storeBytes (s.inodes slot).data (s.inodes slot).size
        (writeCount (s.inodes slot).size word.length) fun k => word.getD k 0
      size := (s.inodes slot).size + writeCount (s.inodes slot).size word.length },
      h.used, rfl, ?_, rfl, ?_⟩
    · unfold RamfsInode.content
      dsimp only
      have hshort : ((List.range (s.inodes slot).size).map (s.inodes slot).data).length ≤
          ramfsDataMax := by rwa [List.length_map, List.length_range]
      rw [storeBytes_content _ _ _ _ (by omega), List.take_append, List.take_of_length_le hshort,
        List.length_map, List.length_range, hcount, Nat.min_comm, ← List.take_eq_take_min]
    · rw [RamfsInode.content_length]
      apply h.move
      · rw [Function.update_self]
        exact h.used
      · apply h.sized.update
        dsimp only
        omega

/-! ## Reading -/

/-- `fs_read` of a whole file, from its start, with a buffer that is large enough. -/
theorem Opened.read (h : Opened s p slot 0 flags) (hmode : flags &&& 3 ≠ oWronly) {buf len : Nat}
    (hbuf : buf ≠ 0) (hlen : ramfsDataMax ≤ len) :
    ∃ s', fsRead 0 buf len s =
        (((RamfsInode.content (s.inodes slot)).length : Int), RamfsInode.content (s.inodes slot), s') ∧
      Opened s' p slot (s.inodes slot).size flags ∧ s'.inodes = s.inodes := by
  have hsize := h.sized slot
  unfold fsRead
  rw [if_neg hbuf, h.getOpenFd]
  dsimp only
  rw [h.first, if_neg hmode, FileDesc.slot_of_fin]
  dsimp only
  by_cases hempty : (s.inodes slot).size = 0
  · rw [if_pos (Nat.le_zero.mpr hempty), RamfsInode.content_length, RamfsInode.content, hempty]
    exact ⟨s, rfl, h, rfl⟩
  · rw [if_neg (by omega), if_neg (by omega), RamfsInode.content_length, Nat.sub_zero]
    refine ⟨_, ?_, h.move h.used h.sized _, rfl⟩
    rw [Nat.zero_add]
    congr 2
    unfold RamfsInode.content
    apply List.map_congr_left
    intro k _
    rw [Nat.zero_add]

/-- At the end of the file there is nothing to read. -/
theorem Opened.read_end (h : Opened s p slot offset flags) (hmode : flags &&& 3 ≠ oWronly)
    (hend : (s.inodes slot).size ≤ offset) {buf : Nat} (hbuf : buf ≠ 0) (len : Nat) :
    fsRead 0 buf len s = (0, [], s) := by
  unfold fsRead
  rw [if_neg hbuf, h.getOpenFd]
  dsimp only
  rw [h.first, if_neg hmode, FileDesc.slot_of_fin]
  exact if_pos hend

/-! ## Removing -/

/-- `fs_unlink` of a file that nobody has open. -/
theorem Closed.unlink (h : Closed s p) (path : List UInt8) :
    (fsUnlink (some path) s = (-1, s) ∧ (Inodes.store s.inodes).remove path = none) ∨
      ∃ s', fsUnlink (some path) s = (0, s') ∧ Closed s' p ∧
        (Inodes.store s.inodes).remove path = some (Inodes.store s'.inodes) := by
  unfold fsUnlink Store.remove
  cases hname : normalizeName (some path) with
  | none => exact Or.inl ⟨rfl, rfl⟩
  | some name =>
      dsimp only [Option.bind_some]
      rw [Inodes.store_find]
      cases hfind : findInodeByName s.inodes name with
      | none => exact Or.inl ⟨rfl, rfl⟩
      | some i =>
          right
          refine ⟨_, rfl, ⟨h.current, fun j => ?_, h.sized.update (Nat.zero_le _)⟩, ?_⟩
          · unfold revoke
            dsimp only
            split
            · rfl
            · exact h.fds j
          · rw [Option.map_some, Inodes.store_zero]

end

end Sugimotos.Fs
