/-
# The shell

Model of `kernel/apps/user_init.c` with `fm_run` and `img_open_path`.  The shell is a process
in kernel mode: it calls the file system, the window manager and the console as functions.  A
key is the value of one call of `u_getchar`; when there is none the shell yields.
-/

import Sugimotos.Apps.FileDb
import Sugimotos.Apps.SplitArgs
import Sugimotos.Fs.Listdir
import Sugimotos.Gui.Wm
import Sugimotos.Syscall.Sbi

namespace Sugimotos.Apps

open Sugimotos.Lib Sugimotos.Fs Sugimotos.Syscall
open Sugimotos.Gui (Wm wmInit wmCreate wmFocus wmSetText wmRender)

abbrev shellMaxLine : Nat := 128
abbrev shellMaxArgs : Nat := 12

/-- `sizeof(g_iobuf)`. -/
abbrev iobufSize : Nat := 1024

/-- An address that stands for those of the shell's own buffers, of which the file system only
asks that they are not `NULL`. -/
abbrev shellBuf : Nat := 0x80400000

/-- The string at `p` in a buffer, of which at most `max` characters are looked at. -/
def stringAt (max : Nat) (buf : Buf) (p : Nat) : Line :=
  ((List.range max).map fun n => buf (p + n)).takeWhile (· ≠ 0)

/-! ## The terminal's text -/

/-- `g_term_view` and `g_term_view_len`. -/
structure TermView where
  text : Buf
  len : Nat

/-- `term_view_append_char`. -/
def termViewAppendChar (c : UInt8) (v : TermView) : TermView :=
  if Gui.wmTextMax ≤ v.len + 1 then v
  else ⟨Function.update (Function.update v.text v.len c) (v.len + 1) 0, v.len + 1⟩

/-- `term_view_append`. -/
def termViewAppend (s : Line) (v : TermView) : TermView := s.foldl (fun v c => termViewAppendChar c v) v

/-- `term_view_backspace`. -/
def termViewBackspace (v : TermView) : TermView :=
  if v.len = 0 then v
  else if v.text (v.len - 1) = newline then v
  else ⟨Function.update v.text (v.len - 1) 0, v.len - 1⟩

/-! ## The state -/

/-- What `fm_run` uses of `struct file_manager`. -/
structure FileManager where
  active : Bool
  winId : Int

/-- The shell's variables and the parts of the kernel it calls.  `down` is set once
`sbi_shutdown` was called, which does not return. -/
structure Shell where
  sys : System
  wm : Wm
  sbi : Sbi
  line : Buf
  len : Nat
  view : TermView
  mainWin : Int
  fm : FileManager
  fileDb : FileDb
  down : Bool

/-- `u_puts`. -/
def uPuts (s : Line) (sh : Shell) : Shell := { sh with sbi := s.foldl (fun sbi c => putchar c sbi) sh.sbi }

/-- `u_puts` of a string constant. -/
def say (s : String) (sh : Shell) : Shell := uPuts (bytesOf s) sh

/-- `u_putchar`. -/
def uPutchar (c : UInt8) (sh : Shell) : Shell := { sh with sbi := putchar c sh.sbi }

/-- `term_view_sync`. -/
def termViewSync (sh : Shell) : Shell :=
  if 0 < sh.mainWin then
    { sh with wm := (wmSetText sh.mainWin (stringAt Gui.wmTextMax sh.view.text 0) sh.wm).2 }
  else sh

def viewAppend (s : Line) (sh : Shell) : Shell := { sh with view := termViewAppend s sh.view }

/-! ## The commands -/

/-- `shell_help`. -/
def shellHelp (sh : Shell) : Shell :=
  say "commands: help, ls, cat, touch, write, rm, gui, img, fm, shutdown\n" sh

/-- `shell_touch`. -/
def shellTouch (path : Line) (sh : Shell) : Shell :=
  let (fd, sys) := fsOpen (some path) (oCreat ||| oRdwr) sh.sys
  if fd < 0 then say "touch: fail\n" { sh with sys := sys }
  else { sh with sys := (fsClose fd sys).2, fileDb := filedbAdd path sh.fileDb }

/-- `shell_ls`. -/
def shellLs (sh : Shell) : Shell :=
  let (n, buf) := fsListdir shellBuf iobufSize sh.sys.inodes
  if n < 0 then say "ls: fail\n" sh else uPuts (buf.take n.toNat) sh

/-- The loop of `shell_cat`.  A bound that is too small gives nothing. -/
def shellCatLoop (fd : Int) : Nat → Shell → Option Shell
  | 0, _ => none
  | turns + 1, sh =>
      let (n, buf, sys) := fsRead fd shellBuf iobufSize sh.sys
      let sh := { sh with sys := sys }
      if n ≤ 0 then some sh else shellCatLoop fd turns (uPuts (buf.take n.toNat) sh)

/-- `shell_cat`. -/
def shellCat (turns : Nat) (path : Line) (sh : Shell) : Option Shell :=
  let (fd, sys) := fsOpen (some path) oRdonly sh.sys
  let sh := { sh with sys := sys }
  if fd < 0 then some (say "cat: fail\n" sh)
  else
    (shellCatLoop fd turns sh).map fun sh =>
      uPutchar newline { sh with sys := (fsClose fd sh.sys).2 }

/-- `shell_rm`. -/
def shellRm (path : Line) (sh : Shell) : Shell :=
  let (r, sys) := fsUnlink (some path) sh.sys
  let sh := { sh with sys := sys }
  if r < 0 then say "rm: fail\n" sh else { sh with fileDb := filedbRemove path sh.fileDb }

/-- `u_write(fd, s, str_len(s))`; the result is not looked at. -/
def uWrite (fd : Int) (s : Line) (sys : System) : System :=
  (fsWrite fd shellBuf (fun n => s.getD n 0) s.length sys).2

/-- The loop of `shell_write` over the arguments behind the path; `first` says whether
`i` is 2. -/
def shellWriteLoop (fd : Int) : Bool → List Line → System → System
  | _, [], sys => sys
  | first, word :: words, sys =>
      let sys := if first then sys else uWrite fd (bytesOf " ") sys
      shellWriteLoop fd false words (uWrite fd word sys)

/-- `shell_write`, with the arguments from the third on. -/
def shellWrite (path : Line) (words : List Line) (sh : Shell) : Shell :=
  let (fd, sys) := fsOpen (some path) (oCreat ||| oTrunc ||| oWronly) sh.sys
  if fd < 0 then say "write: fail\n" { sh with sys := sys }
  else
    { sh with
      sys := (fsClose fd (shellWriteLoop fd true words sys)).2
      fileDb := filedbAdd path sh.fileDb }

section

-- The words that a drawing call reads outside its images.
variable (wild : Nat → Int → UInt32)

/-- `img_open_path`. -/
def imgOpenPath (path : Line) (wm : Wm) : Int × Wm :=
  let (win, wm) := wmCreate (some (bytesOf "ImageViewer")) 320 240 wm
  if win < 0 then (-1, wm) else (win, wmRender wild (wmSetText win path wm).2)

/-- `shell_img`. -/
def shellImg (path : Line) (sh : Shell) : Shell :=
  let (r, wm) := imgOpenPath wild path sh.wm
  let sh := { sh with wm := wm }
  if r < 0 then say "img: fail\n" sh else sh

/-- The part of `fm_run` that opens the window. -/
def fmOpen (sh : Shell) : Shell :=
  let (win, wm) := wmCreate (some (bytesOf "FileManager")) 400 300 sh.wm
  let text := bytesOf "File Manager (Direct Kernel Access)\nClick to select files."
  { sh with fm := ⟨true, win⟩, wm := wmRender wild (wmSetText win text wm).2 }

/-- `fm_run`. -/
def fmRun (sh : Shell) : Shell :=
  if sh.fm.active then
    let (r, wm) := wmFocus sh.fm.winId sh.wm
    let sh := { sh with wm := wm }
    if 0 ≤ r then sh else fmOpen wild sh
  else fmOpen wild sh

/-- The command `gui`. -/
def shellGui (sh : Shell) : Shell :=
  let sh :=
    if sh.mainWin ≤ 0 then
      let (win, wm) := wmCreate (some (bytesOf "terminal")) 520 300 sh.wm
      { sh with mainWin := win, wm := wm }
    else sh
  { sh with wm := wmRender wild sh.wm }

/-- The chain of comparisons with the names of the commands. -/
def runCommand (turns : Nat) (argv : List Line) (sh : Shell) : Option Shell :=
  match argv with
  | [] => some sh
  | cmd :: args =>
      if strEq cmd (bytesOf "help") then some (shellHelp sh)
      else if strEq cmd (bytesOf "ls") then some (shellLs sh)
      else if strEq cmd (bytesOf "cat") then
        match args with
        | path :: _ => shellCat turns path sh
        | [] => some (say "usage: cat <path>\n" sh)
      else if strEq cmd (bytesOf "touch") then
        match args with
        | path :: _ => some (shellTouch path sh)
        | [] => some (say "usage: touch <path>\n" sh)
      else if strEq cmd (bytesOf "gui") then some (shellGui wild sh)
      else if strEq cmd (bytesOf "write") then
        match args with
        | path :: word :: words => some (shellWrite path (word :: words) sh)
        | _ => some (say "usage: write <path> <text>\n" sh)
      else if strEq cmd (bytesOf "img") then
        match args with
        | path :: _ => some (shellImg wild path sh)
        | [] => some (say "usage: img <path>\n" sh)
      else if strEq cmd (bytesOf "fm") then some (fmRun wild sh)
      else if strEq cmd (bytesOf "rm") then
        match args with
        | path :: _ => some (shellRm path sh)
        | [] => some (say "usage: rm <path>\n" sh)
      else if strEq cmd (bytesOf "shutdown") then some { sh with down := true }
      else some (say "unknown command\n" sh)

/-! ## The loop -/

/-- Return or newline: the line ends and its command runs. -/
def shellEnter (turns : Nat) (sh : Shell) : Option Shell :=
  let sh := viewAppend [newline] (uPutchar newline sh)
  let line := Function.update sh.line sh.len 0
  match splitArgs turns line shellMaxArgs with
  | none => none
  | some (line, argv) =>
      match runCommand wild turns (argv.map (stringAt shellMaxLine line)) { sh with line := line } with
      | none => none
      | some sh =>
          if sh.down then some sh
          else some (termViewSync (viewAppend (bytesOf "k> ") (say "k> " { sh with len := 0 })))

/-- Backspace. -/
def shellErase (sh : Shell) : Shell :=
  if 0 < sh.len then
    let sh := say "\x08 \x08" { sh with len := sh.len - 1 }
    termViewSync { sh with view := termViewBackspace sh.view }
  else sh

/-- A character is typed. -/
def shellType (c : UInt8) (sh : Shell) : Shell :=
  if sh.len + 1 < shellMaxLine then
    let sh := uPutchar c { sh with line := Function.update sh.line sh.len c, len := sh.len + 1 }
    termViewSync { sh with view := termViewAppendChar c sh.view }
  else sh

/-- One turn of the loop in `user_init_entry`, for the value `ch` of `u_getchar`. -/
def shellKey (turns : Nat) (ch : Int) (sh : Shell) : Option Shell :=
  if sh.down then some sh
  else if ch < 0 then some sh
  else if ch = 13 ∨ ch = 10 then shellEnter wild turns sh
  else if ch = 8 ∨ ch = 127 then some (shellErase sh)
  else if 32 ≤ ch ∧ ch ≤ 126 then some (shellType (.ofNat ch.toNat) sh)
  else some sh

/-- The turns for a list of keys. -/
def shellKeys (turns : Nat) : List Int → Shell → Option Shell
  | [], sh => some sh
  | ch :: keys, sh => (shellKey wild turns ch sh).bind (shellKeys turns keys)

/-- `term_view_reset`. -/
def termViewReset (sh : Shell) : Shell :=
  let view := termViewAppend (bytesOf "kernel:shell integrated (S-mode)\n")
    { sh.view with len := 0, text := Function.update sh.view.text 0 0 }
  termViewSync { sh with view := termViewAppend (bytesOf "k> ") view }

/-- `user_init_entry` up to the loop, with the result of `virtio_gpu_init`.  What `wm_init` and
`wm_input_init` print is left out. -/
def userInitEntry (gpu : Option (Int × Int)) (sh : Shell) : Shell :=
  let sh := say "kernel:starting shell...\n" sh
  let sh := say "shell: calling wm_init...\n" sh
  let sh := { sh with wm := wmInit gpu sh.wm }
  let sh := say "shell: calling wm_input_init...\n" sh
  let sh :=
    { sh with
      view := ⟨Function.update sh.view.text 0 0, 0⟩
      fileDb := { sh.fileDb with count := 0 } }
  let sh := say "shell: creating terminal window...\n" sh
  let (win, wm) := wmCreate (some (bytesOf "terminal")) 520 300 sh.wm
  let sh := { sh with mainWin := win, wm := wm }
  let sh :=
    if 0 < win then
      let sh := termViewReset sh
      { sh with wm := (wmFocus win sh.wm).2 }
    else sh
  let sh := say "shell: performing initial render...\n" sh
  let sh := { sh with wm := wmRender wild sh.wm }
  { say "kernel> " sh with len := 0 }

end

end Sugimotos.Apps
