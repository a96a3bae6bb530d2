/-
# The shell as a process of the system

Whatever is typed, the shell changes files and descriptors by calls of `fs.c` alone.  So its runs
are runs of the file system and the process table, and what holds in all of those holds in them.
-/

import Sugimotos.Apps.ShellRuns
import Sugimotos.Syscall.Access

namespace Sugimotos.Apps

open Sugimotos.Lib Sugimotos.Fs Sugimotos.Mm Sugimotos.Proc

section

variable (L : Layout)

/-- Calls of the running process lead from one state to the other. -/
def Leads (s s' : System) : Prop :=
  ∀ t : Traced, t.sys = s → FsReachable L (fun _ _ => True) t → s.kernel.running.isSome = true →
    (∃ t' : Traced, t'.sys = s' ∧ FsReachable L (fun _ _ => True) t') ∧ s'.kernel.running.isSome = true

variable {L} {s s' s'' : System}

theorem Leads.refl (s : System) : Leads L s s := fun t hsys ht hrunning => ⟨⟨t, hsys, ht⟩, hrunning⟩

theorem Leads.trans (h : Leads L s s') (h' : Leads L s' s'') : Leads L s s'' := by
  intro t hsys ht hrunning
  obtain ⟨⟨t', hsys', ht'⟩, hrunning'⟩ := h t hsys ht hrunning
  exact h' t' hsys' ht' hrunning'

/-- One call. -/
theorem Leads.call (op : FsOp) (hop : ∀ t, op.enabled t = t.sys.kernel.running.isSome)
    (hstep : ∀ t : Traced, t.sys = s → ∃ t' : Traced, fsStep L op t = .ok t' ∧ t'.sys = s')
    (hfds : Syscall.FdsOnly s.kernel s'.kernel) : Leads L s s' := by
  intro t hsys ht hrunning
  obtain ⟨t', hcall, hsys'⟩ := hstep t hsys
  refine ⟨⟨t', hsys', ht.step op ?_ trivial hcall⟩, ?_⟩
  · rw [hop, hsys]
    exact hrunning
  · rw [hfds.running]
    exact hrunning

theorem Leads.fsOpen (path : Option Line) (flags : UInt32) (s : System) :
    Leads L s (Fs.fsOpen path flags.toNat s).2 := by
  refine .call (.fsOpen path flags) (fun _ => rfl) (fun t hsys => ?_) (Syscall.fsOpen_fdsOnly ..)
  subst hsys
  exact ⟨_, rfl, rfl⟩

theorem Leads.fsClose (fd : Int) (s : System) : Leads L s (Fs.fsClose fd s).2 := by
  refine .call (.fsClose fd) (fun _ => rfl) (fun t hsys => ?_) (Syscall.fsClose_fdsOnly ..)
  subst hsys
  exact ⟨_, rfl, rfl⟩

theorem Leads.fsRead (fd : Int) (buf len : UInt32) (s : System) :
    Leads L s (Fs.fsRead fd buf.toNat len.toNat s).2.2 := by
  refine .call (.fsRead fd buf len) (fun _ => rfl) (fun t hsys => ?_) (Syscall.fsRead_fdsOnly ..)
  subst hsys
  exact ⟨_, rfl, rfl⟩

theorem Leads.fsWrite (fd : Int) (buf : UInt32) (src : Nat → UInt8) (len : UInt32) (s : System) :
    Leads L s (Fs.fsWrite fd buf.toNat src len.toNat s).2 := by
  refine .call (.fsWrite fd buf src len) (fun _ => rfl) (fun t hsys => ?_) (Syscall.fsWrite_fdsOnly ..)
  subst hsys
  exact ⟨_, rfl, rfl⟩

theorem Leads.fsUnlink (path : Option Line) (s : System) : Leads L s (Fs.fsUnlink path s).2 := by
  refine .call (.fsUnlink path) (fun _ => rfl) (fun t hsys => ?_) (Syscall.fsUnlink_fdsOnly ..)
  subst hsys
  exact ⟨_, rfl, rfl⟩

/-- `u_write` of a string that a line can hold. -/
theorem uWrite_leads (fd : Int) {word : Line} (h : word.length ≤ shellMaxLine) (s : System) :
    Leads L s (uWrite fd word s) := by
  have hlen : (UInt32.ofNat word.length).toNat = word.length := by
    have hmax : word.length ≤ 128 := h
    rw [UInt32.toNat_ofNat']
    exact Nat.mod_eq_of_lt (by omega)
  have hwrite := @Leads.fsWrite L fd 0x80400000 (fun n => word.getD n 0) (.ofNat word.length) s
  rw [hlen] at hwrite
  exact hwrite

theorem shellWriteLoop_leads (fd : Int) {words : List Line} (h : ∀ w ∈ words, w.length ≤ shellMaxLine)
    (first : Bool) (s : System) : Leads L s (shellWriteLoop fd first words s) := by
  induction words generalizing first s with
  | nil => exact .refl s
  | cons word words ih =>
      rw [shellWriteLoop]
      have hword := h word List.mem_cons_self
      have hrest := fun s => ih (fun w hw => h w (List.mem_cons_of_mem _ hw)) false s
      cases first with
      | true => exact (uWrite_leads fd hword s).trans (hrest _)
      | false =>
          have hblank := @uWrite_leads L fd (bytesOf " ") (by decide) s
          exact (hblank.trans (uWrite_leads fd hword _)).trans (hrest _)

/-! ## The commands -/

variable {sh sh' : Shell} (wild : Nat → Int → UInt32) {turns : Nat}

theorem say_sys (s : String) (sh : Shell) : (say s sh).sys = sh.sys := rfl

theorem shellTouch_leads (path : Line) (sh : Shell) : Leads L sh.sys (shellTouch path sh).sys := by
  have hflags : (0x103 : UInt32).toNat = oCreat ||| oRdwr := by decide
  have hopen := @Leads.fsOpen L (some path) 0x103 sh.sys
  rw [hflags] at hopen
  unfold shellTouch
  generalize Fs.fsOpen (some path) (oCreat ||| oRdwr) sh.sys = r at hopen ⊢
  obtain ⟨fd, sys⟩ := r
  dsimp only at hopen ⊢
  split
  · exact hopen
  · exact hopen.trans (.fsClose fd sys)

theorem shellLs_sys (sh : Shell) : (shellLs sh).sys = sh.sys := by
  unfold shellLs
  generalize fsListdir shellBuf iobufSize sh.sys.inodes = r
  obtain ⟨n, buf⟩ := r
  dsimp only
  split
  · exact say_sys _ sh
  · rfl

theorem shellCatLoop_leads (fd : Int) (h : shellCatLoop fd turns sh = some sh') :
    Leads L sh.sys sh'.sys := by
  induction turns generalizing sh with
  | zero => cases h
  | succ turns ih =>
      have hbuf : (0x80400000 : UInt32).toNat = shellBuf ∧ (1024 : UInt32).toNat = iobufSize := by decide
      have hread := @Leads.fsRead L fd 0x80400000 1024 sh.sys
      rw [hbuf.1, hbuf.2] at hread
      rw [shellCatLoop] at h
      generalize Fs.fsRead fd shellBuf iobufSize sh.sys = r at hread h
      obtain ⟨n, buf, sys⟩ := r
      dsimp only at hread h
      split at h
      · cases h
        exact hread
      · exact hread.trans (ih h)

theorem shellCat_leads (path : Line) (h : shellCat turns path sh = some sh') :
    Leads L sh.sys sh'.sys := by
  have hflags : (0x1 : UInt32).toNat = oRdonly := by decide
  have hopen := @Leads.fsOpen L (some path) 0x1 sh.sys
  rw [hflags] at hopen
  unfold shellCat at h
  generalize Fs.fsOpen (some path) oRdonly sh.sys = r at hopen h
  obtain ⟨fd, sys⟩ := r
  dsimp only at hopen h
  split at h
  · cases h
    exact hopen
  · obtain ⟨sh₁, hloop, rfl⟩ := Option.map_eq_some_iff.mp h
    exact (hopen.trans (shellCatLoop_leads fd hloop)).trans (.fsClose fd sh₁.sys)

theorem shellRm_leads (path : Line) (sh : Shell) : Leads L sh.sys (shellRm path sh).sys := by
  have hunlink := @Leads.fsUnlink L (some path) sh.sys
  unfold shellRm
  generalize Fs.fsUnlink (some path) sh.sys = r at hunlink ⊢
  obtain ⟨rc, sys⟩ := r
  dsimp only at hunlink ⊢
  split <;> exact hunlink

theorem shellWrite_leads (path : Line) {words : List Line} (h : ∀ w ∈ words, w.length ≤ shellMaxLine)
    (sh : Shell) : Leads L sh.sys (shellWrite path words sh).sys := by
  have hflags : (0x302 : UInt32).toNat = oCreat ||| oTrunc ||| oWronly := by decide
  have hopen := @Leads.fsOpen L (some path) 0x302 sh.sys
  rw [hflags] at hopen
  unfold shellWrite
  generalize Fs.fsOpen (some path) (oCreat ||| oTrunc ||| oWronly) sh.sys = r at hopen ⊢
  obtain ⟨fd, sys⟩ := r
  dsimp only at hopen ⊢
  split
  · exact hopen
  · exact (hopen.trans (shellWriteLoop_leads fd h true sys)).trans (.fsClose fd _)

/-- The commands for windows leave the system alone. -/
theorem shellImg_sys (path : Line) (sh : Shell) : (shellImg wild path sh).sys = sh.sys := by
  unfold shellImg
  generalize imgOpenPath wild path sh.wm = r
  obtain ⟨rc, wm⟩ := r
  dsimp only
  split <;> rfl

theorem fmRun_sys (sh : Shell) : (fmRun wild sh).sys = sh.sys := by
  have hopen : ∀ sh : Shell, (fmOpen wild sh).sys = sh.sys := by
    intro sh
    unfold fmOpen
    generalize Gui.wmCreate _ _ _ sh.wm = r
    obtain ⟨win, wm⟩ := r
    rfl
  unfold fmRun
  generalize Gui.wmFocus sh.fm.winId sh.wm = r
  obtain ⟨rc, wm⟩ := r
  dsimp only
  split
  · split
    · rfl
    · rw [hopen]
  · rw [hopen]

theorem shellGui_sys (sh : Shell) : (shellGui wild sh).sys = sh.sys := by
  unfold shellGui
  generalize Gui.wmCreate _ _ _ sh.wm = r
  obtain ⟨win, wm⟩ := r
  dsimp only
  split <;> rfl

theorem runCommand_leads {args : List Line} (hargs : ∀ w ∈ args, w.length ≤ shellMaxLine)
    (h : runCommand wild turns args sh = some sh') : Leads L sh.sys sh'.sys := by
  have hsame : ∀ {sh'' : Shell}, some sh'' = some sh' → sh''.sys = sh.sys → Leads L sh.sys sh'.sys := by
    rintro sh'' heq hsys
    rw [← Option.some.inj heq, hsys]
    exact .refl sh.sys
  have hleads : ∀ {sh'' : Shell}, Leads L sh.sys sh''.sys → some sh'' = some sh' →
      Leads L sh.sys sh'.sys := by
    rintro sh'' hl heq
    rw [← Option.some.inj heq]
    exact hl
  unfold runCommand at h
  cases args with
  | nil => exact hsame h rfl
  | cons cmd args =>
      dsimp only at h
      by_cases hcmd : strEq cmd (bytesOf "help") = true
      · rw [if_pos hcmd] at h
        exact hsame h (say_sys _ sh)
      rw [if_neg hcmd] at h
      by_cases hcmd : strEq cmd (bytesOf "ls") = true
      · rw [if_pos hcmd] at h
        exact hsame h (shellLs_sys sh)
      rw [if_neg hcmd] at h
      by_cases hcmd : strEq cmd (bytesOf "cat") = true
      · rw [if_pos hcmd] at h
        cases args with
        | nil => exact hsame h (say_sys _ sh)
        | cons path rest => exact shellCat_leads path h
      rw [if_neg hcmd] at h
      by_cases hcmd : strEq cmd (bytesOf "touch") = true
      · rw [if_pos hcmd] at h
        cases args with
        | nil => exact hsame h (say_sys _ sh)
        | cons path rest => exact hleads (shellTouch_leads path sh) h
      rw [if_neg hcmd] at h
      by_cases hcmd : strEq cmd (bytesOf "gui") = true
      · rw [if_pos hcmd] at h
        exact hsame h (shellGui_sys wild sh)
      rw [if_neg hcmd] at h
      by_cases hcmd : strEq cmd (bytesOf "write") = true
      · rw [if_pos hcmd] at h
        cases args with
        | nil => exact hsame h (say_sys _ sh)
        | cons path rest =>
            cases rest with
            | nil => exact hsame h (say_sys _ sh)
            | cons word words =>
                refine hleads (shellWrite_leads path (fun w hw => hargs w ?_) sh) h
                exact List.mem_cons_of_mem _ (List.mem_cons_of_mem _ hw)
      rw [if_neg hcmd] at h
      by_cases hcmd : strEq cmd (bytesOf "img") = true
      · rw [if_pos hcmd] at h
        cases args with
        | nil => exact hsame h (say_sys _ sh)
        | cons path rest => exact hsame h (shellImg_sys wild path sh)
      rw [if_neg hcmd] at h
      by_cases hcmd : strEq cmd (bytesOf "fm") = true
      · rw [if_pos hcmd] at h
        exact hsame h (fmRun_sys wild sh)
      rw [if_neg hcmd] at h
      by_cases hcmd : strEq cmd (bytesOf "rm") = true
      · rw [if_pos hcmd] at h
        cases args with
        | nil => exact hsame h (say_sys _ sh)
        | cons path rest => exact hleads (shellRm_leads path sh) h
      rw [if_neg hcmd] at h
      by_cases hcmd : strEq cmd (bytesOf "shutdown") = true
      · rw [if_pos hcmd] at h
        exact hsame h rfl
      · rw [if_neg hcmd] at h
        exact hsame h (say_sys _ sh)

/-! ## The keys -/

theorem termViewSync_sys (sh : Shell) : (termViewSync sh).sys = sh.sys := by
  unfold termViewSync
  split <;> rfl

theorem stringAt_length (max : Nat) (buf : Buf) (p : Nat) : (stringAt max buf p).length ≤ max := by
  unfold stringAt
  refine (List.takeWhile_prefix _).length_le.trans ?_
  rw [List.length_map, List.length_range]

theorem shellEnter_leads (h : shellEnter wild turns sh = some sh') : Leads L sh.sys sh'.sys := by
  unfold shellEnter at h
  dsimp only at h
  split at h
  · cases h
  · rename_i line argv hsplit
    split at h
    · cases h
    · rename_i sh₁ hrun
      have hargs : ∀ w ∈ argv.map (stringAt shellMaxLine line), w.length ≤ shellMaxLine := by
        intro w hw
        obtain ⟨q, -, rfl⟩ := List.mem_map.mp hw
        exact stringAt_length ..
      have hleads : Leads L sh.sys sh₁.sys := by
        have hcommand := @runCommand_leads L _ _ wild _ _ hargs hrun
        exact hcommand
      split at h
      · cases h
        exact hleads
      · cases h
        rw [termViewSync_sys]
        exact hleads

theorem shellKey_leads {ch : Int} (h : shellKey wild turns ch sh = some sh') :
    Leads L sh.sys sh'.sys := by
  unfold shellKey at h
  split at h
  · cases h
    exact .refl _
  split at h
  · cases h
    exact .refl _
  split at h
  · exact shellEnter_leads wild h
  split at h
  · cases h
    unfold shellErase
    split
    · dsimp only
      rw [termViewSync_sys]
      exact .refl _
    · exact .refl _
  split at h
  · cases h
    unfold shellType
    split
    · dsimp only
      rw [termViewSync_sys]
      exact .refl _
    · exact .refl _
  · cases h
    exact .refl _

theorem shellKeys_leads {chs : List Int} (h : shellKeys wild turns chs sh = some sh') :
    Leads L sh.sys sh'.sys := by
  induction chs generalizing sh with
  | nil =>
      cases h
      exact .refl _
  | cons ch chs ih =>
      obtain ⟨sh₁, hkey, hkeys⟩ := Option.bind_eq_some_iff.mp h
      exact (shellKey_leads wild hkey).trans (ih hkeys)

theorem userInitEntry_sys (gpu : Option (Int × Int)) (sh : Shell) :
    (userInitEntry wild gpu sh).sys = sh.sys := by
  have hreset : ∀ sh : Shell, (termViewReset sh).sys = sh.sys := fun _ => termViewSync_sys _
  unfold userInitEntry
  dsimp only
  rw [say_sys]
  dsimp only
  rw [say_sys]
  split
  · dsimp only
    rw [hreset]
    dsimp only
    rw [say_sys]
    dsimp only
    rw [say_sys]
    dsimp only
    rw [say_sys, say_sys]
  · dsimp only
    rw [say_sys]
    dsimp only
    rw [say_sys]
    dsimp only
    rw [say_sys, say_sys]

end

/-- The shell begins in a reachable state in which its process runs and has no descriptor.  Then
every state after some keys is reachable. -/
theorem shell_reachable {L : Layout} {t : Traced} (ht : FsReachable L (fun _ _ => True) t)
    {p : Fin procMax} (hrunning : t.sys.kernel.running = some p)
    (hfds : ∀ i, ((t.sys.kernel.procs p).fds i).used = false) {sh : Shell} (hsys : sh.sys = t.sys)
    (hfm : sh.fm.active = false) (hup : sh.down = false) (wild : Nat → Int → UInt32)
    (gpu : Option (Int × Int)) {turns : Nat} (hturns : shellMaxLine < turns) (chs : List Int) :
    ∃ sh' t', shellKeys wild turns chs (userInitEntry wild gpu sh) = some sh' ∧ t'.sys = sh'.sys ∧
      FsReachable L (fun _ _ => True) t' := by
  have hcurrent : t.sys.kernel.currentProc = some p := (Option.filter_eq_some_iff.mp hrunning).1
  have hboots := Boots.of_reachable ht hsys hcurrent hfds hfm hup
  obtain ⟨sh', hkeys, -⟩ := shell_refines wild gpu hboots hturns chs
  have hleads := @shellKeys_leads L _ _ wild _ _ hkeys
  rw [userInitEntry_sys, hsys] at hleads
  obtain ⟨⟨t', hsys', ht'⟩, -⟩ := hleads t rfl ht (by rw [hrunning]; rfl)
  exact ⟨sh', t', hkeys, hsys', ht'⟩

/-- The process of the shell, on a machine that has just booted. -/
theorem shell_reachable_small : ∃ t, smallFs (fun _ _ => true)
      [.kernel .createProcess, .kernel (.switchTo 1)] = some t ∧
    ∃ sh' t', shellKeys (fun _ _ => 0) 200 smallKeys
        (userInitEntry (fun _ _ => 0) none { smallShell t.sys.kernel with sys := t.sys }) = some sh' ∧
      t'.sys = sh'.sys ∧ FsReachable smallLayout (fun _ _ => True) t' := by
  have hsome : (smallFs (fun _ _ => true) [.kernel .createProcess, .kernel (.switchTo 1)]).any
      (fun t => decide (t.sys.kernel.running = some 1) &&
        decide (∀ i, ((t.sys.kernel.procs 1).fds i).used = false)) = true := by decide +kernel
  obtain ⟨t, ht, hstate⟩ := (Option.any_eq_true _ _).mp hsome
  rw [Bool.and_eq_true] at hstate
  have hreach : FsReachable smallLayout (fun _ _ => True) t :=
    smallFs_reachable (fun _ _ _ => trivial) ht
  have hturns : shellMaxLine < 200 := by decide
  exact ⟨t, ht, shell_reachable hreach (of_decide_eq_true hstate.1) (of_decide_eq_true hstate.2)
    rfl rfl rfl (fun _ _ => 0) none hturns smallKeys⟩

end Sugimotos.Apps
