/-
# What the shell is for

The shell as its user sees it: files with names and contents, a line that is being typed, the
paths touched or written, windows by their number, the text of the terminal's window.  A key is
answered by the characters that appear on the console.  Descriptors, buffers, offsets and the
window manager are gone.
-/

import Sugimotos.Apps.Arguments
import Sugimotos.Apps.Getchar
import Sugimotos.Fs.Session
import Sugimotos.Gui.Badges

namespace Sugimotos.Apps

open Sugimotos.Lib Sugimotos.Fs Sugimotos.Mm Sugimotos.Proc

/-- What the user of the shell has in front of them. -/
structure Desk where
  files : Store
  paths : List Line
  line : Line
  /-- The text that is kept for the terminal, and the one that its window has. -/
  view : Line
  shown : Line
  windows : Nat
  manager : Bool
  down : Bool

/-- The characters that appear, and the desk afterwards. -/
abbrev Reply : Type := Line × Desk

/-- A path joins those touched or written. -/
def addPath (path : Line) (paths : List Line) : List Line :=
  if path ∈ paths ∨ fileDbMax ≤ paths.length then paths else paths ++ [path.kept]

/-- The words with one space between them. -/
def joined : List Line → Line
  | [] => []
  | word :: words => word ++ words.flatMap fun w => bytesOf " " ++ w

namespace Desk

def say (s : String) (d : Desk) : Reply := (bytesOf s, d)

def touch (path : Line) (d : Desk) : Reply :=
  match d.files.touch path with
  | none => d.say "touch: fail\n"
  | some files => ([], { d with files := files, paths := addPath path d.paths })

def ls (d : Desk) : Reply := (firstLines iobufSize d.files.names, d)

def cat (path : Line) (d : Desk) : Reply :=
  match d.files.read path with
  | none => d.say "cat: fail\n"
  | some content => (content ++ [newline], d)

def rm (path : Line) (d : Desk) : Reply :=
  match d.files.remove path with
  | none => d.say "rm: fail\n"
  | some files => ([], { d with files := files, paths := d.paths.erase path })

def write (path : Line) (words : List Line) (d : Desk) : Reply :=
  match d.files.write path (joined words) with
  | none => d.say "write: fail\n"
  | some files => ([], { d with files := files, paths := addPath path d.paths })

def img (d : Desk) : Reply :=
  if d.windows = Gui.wmMaxWindows then d.say "img: fail\n" else ([], { d with windows := d.windows + 1 })

def fm (d : Desk) : Reply :=
  if d.manager ∨ d.windows = Gui.wmMaxWindows then ([], d)
  else ([], { d with windows := d.windows + 1, manager := true })

/-- The commands. -/
def run (args : List Line) (d : Desk) : Reply :=
  match args with
  | [] => ([], d)
  | cmd :: args =>
      if cmd = bytesOf "help" then
        d.say "commands: help, ls, cat, touch, write, rm, gui, img, fm, shutdown\n"
      else if cmd = bytesOf "ls" then d.ls
      else if cmd = bytesOf "cat" then
        match args with
        | path :: _ => d.cat path
        | [] => d.say "usage: cat <path>\n"
      else if cmd = bytesOf "touch" then
        match args with
        | path :: _ => d.touch path
        | [] => d.say "usage: touch <path>\n"
      else if cmd = bytesOf "gui" then ([], d)
      else if cmd = bytesOf "write" then
        match args with
        | path :: word :: words => d.write path (word :: words)
        | _ => d.say "usage: write <path> <text>\n"
      else if cmd = bytesOf "img" then
        match args with
        | _ :: _ => d.img
        | [] => d.say "usage: img <path>\n"
      else if cmd = bytesOf "fm" then d.fm
      else if cmd = bytesOf "rm" then
        match args with
        | path :: _ => d.rm path
        | [] => d.say "usage: rm <path>\n"
      else if cmd = bytesOf "shutdown" then ([], { d with down := true })
      else d.say "unknown command\n"

/-- The terminal's text grows, as far as it has room. -/
def put (s : Line) (d : Desk) : Desk := { d with view := (d.view ++ s).take (Gui.wmTextMax - 1) }

/-- Its last character goes, unless it is a newline. -/
def unput (d : Desk) : Desk :=
  if d.view.getLast? = some newline then d else { d with view := d.view.dropLast }

/-- The terminal's window gets the text. -/
def sync (d : Desk) : Desk := { d with shown := d.view }

/-- The line is run, and a new one begins. -/
def enter (d : Desk) : Reply :=
  let r := (d.put [newline]).run (arguments shellMaxArgs d.line)
  if r.2.down then (newline :: r.1, r.2)
  else (newline :: r.1 ++ bytesOf "k> ", (put (bytesOf "k> ") { r.2 with line := [] }).sync)

def erase (d : Desk) : Reply :=
  if d.line = [] then ([], d)
  else (bytesOf "\x08 \x08", (unput { d with line := d.line.dropLast }).sync)

def type (c : UInt8) (d : Desk) : Reply :=
  if d.line.length + 1 < shellMaxLine then ([c], (put [c] { d with line := d.line ++ [c] }).sync)
  else ([], d)

/-- One key, as `u_getchar` gives it. -/
def key (ch : Int) (d : Desk) : Reply :=
  if d.down then ([], d)
  else if ch < 0 then ([], d)
  else if ch = 13 ∨ ch = 10 then d.enter
  else if ch = 8 ∨ ch = 127 then d.erase
  else if 32 ≤ ch ∧ ch ≤ 126 then d.type (.ofNat ch.toNat)
  else ([], d)

/-- Many keys, with all that appears. -/
def keys : List Int → Desk → Reply
  | [], d => ([], d)
  | ch :: chs, d => ((d.key ch).1 ++ (keys chs (d.key ch).2).1, (keys chs (d.key ch).2).2)

end Desk

/-! ## The shell and the desk -/

/-- The buffer of the line holds what was typed. -/
structure Typed (buf : Buf) (len : Nat) (cs : Line) : Prop where
  len : len = cs.length
  short : cs.length < shellMaxLine
  chars : ∀ i, i < cs.length → cs[i]? = some (buf i)
  noNul : NoNul cs

/-- The window of the file manager. -/
structure Manages (fm : FileManager) (windows : Nat) (manager : Bool) : Prop where
  shown : manager = true → ∃ k : Nat, k < windows ∧ fm.active = true ∧ fm.winId = k + 1
  hidden : manager = false → fm.active = true → fm.winId ≤ 0

/-- The buffer of the terminal holds that text. -/
structure Viewed (v : TermView) (text : Line) : Prop where
  len : v.len = text.length
  short : text.length < Gui.wmTextMax
  string : IsString v.text 0 text
  noNul : NoNul text

/-- The slot of the first window. -/
def mainSlot : Gui.Slot := ⟨0, Nat.succ_pos 7⟩

/-- The terminal's window is the first one and has the text `shown`. -/
structure Terminal (mainWin : Int) (v : TermView) (wm : Gui.Wm) (windows : Nat) (view shown : Line) :
    Prop where
  main : mainWin = 1
  opened : 0 < windows
  view : Viewed v view
  text : IsString (wm.windows mainSlot).text 0 shown

/-- The shell, run by process `p`, is at that desk, whatever the line. -/
structure Stands (p : Fin procMax) (sh : Shell) (d : Desk) : Prop where
  closed : Closed sh.sys p
  files : Inodes.store sh.sys.inodes = d.files
  fits : sh.fileDb.Fits
  paths : sh.fileDb.paths = d.paths
  windows : Gui.Numbered sh.wm d.windows
  terminal : Terminal sh.mainWin sh.view sh.wm d.windows d.view d.shown
  manager : Manages sh.fm d.windows d.manager
  down : sh.down = d.down

/-- The same, with the line that is being typed. -/
structure Shows (p : Fin procMax) (sh : Shell) (d : Desk) : Prop extends Stands p sh d where
  line : d.down = false → Typed sh.line sh.len d.line

/-- The shell goes on, prints the reply and is at the desk of the reply. -/
def Answers (rel : Shell → Desk → Prop) (sh : Shell) (next : Option Shell) (r : Reply) : Prop :=
  ∃ sh', next = some sh' ∧ rel sh' r.2 ∧ sh'.sbi = sh.sbi.say r.1

section

variable {p : Fin procMax} {sh : Shell} {d : Desk} {path : Line}

theorem foldl_putchar (s : Line) (sbi : Syscall.Sbi) :
    s.foldl (fun sbi c => Syscall.putchar c sbi) sbi = sbi.say s := by
  induction s generalizing sbi with
  | nil => rw [List.foldl_nil, Syscall.Sbi.say_nil]
  | cons c s ih =>
      have hchar : Syscall.putchar c sbi = sbi.say [c] := rfl
      rw [List.foldl_cons, ih, hchar, Syscall.Sbi.say_say, List.singleton_append]

theorem uPuts_eq (s : Line) (sh : Shell) :
    uPuts s sh = { sh with sbi := sh.sbi.say s } := by
  rw [uPuts, foldl_putchar]

/-- Printing changes nothing that the desk shows. -/
theorem Stands.puts (h : Stands p sh d) (s : Line) : Stands p (uPuts s sh) d := by
  rw [uPuts_eq]
  exact ⟨h.closed, h.files, h.fits, h.paths, h.windows, h.terminal, h.manager, h.down⟩

theorem uPuts_sbi (s : Line) (sh : Shell) : (uPuts s sh).sbi = sh.sbi.say s := by
  rw [uPuts_eq]

/-- The windows change, but not that of the terminal. -/
theorem Terminal.drawn {mainWin : Int} {v : TermView} {wm wm' : Gui.Wm} {n n' : Nat} {view shown : Line}
    (h : Terminal mainWin v wm n view shown) (hn : n ≤ n')
    (hwm : (wm'.windows mainSlot).badge = (wm.windows mainSlot).badge) :
    Terminal mainWin v wm' n' view shown where
  main := h.main
  opened := h.opened.trans_le hn
  view := h.view
  text := by
    have htext := congrArg Gui.Badge.text hwm
    exact h.text.congr fun i _ => congrFun htext i

/-- Only the windows were drawn or raised. -/
theorem Stands.drawn (h : Stands p sh d) {wm : Gui.Wm} (hwm : Gui.SameBadges sh.wm wm) :
    Stands p { sh with wm := wm } d :=
  ⟨h.closed, h.files, h.fits, h.paths, h.windows.same hwm, h.terminal.drawn le_rfl (hwm.badge mainSlot),
    h.manager, h.down⟩

/-! ## The terminal's text -/

theorem noNul_of_all {cs : Line} (h : cs.all (fun c => decide (c ≠ 0)) = true) : NoNul cs :=
  fun c hc => of_decide_eq_true (List.all_eq_true.mp h c hc)

theorem Viewed.empty (text : Buf) : Viewed ⟨Function.update text 0 0, 0⟩ [] where
  len := rfl
  short := Nat.succ_pos 4095
  string := ⟨fun i hi => absurd hi (Nat.not_lt_zero i), Function.update_self 0 0 text⟩
  noNul _ hc := absurd hc List.not_mem_nil

theorem Viewed.appendChar {v : TermView} {text : Line} (h : Viewed v text) {c : UInt8} (hc : c ≠ 0) :
    Viewed (termViewAppendChar c v) ((text ++ [c]).take (Gui.wmTextMax - 1)) := by
  have hshort : text.length < 4096 := h.short
  unfold termViewAppendChar
  rw [h.len]
  by_cases hfull : Gui.wmTextMax ≤ text.length + 1
  · have hlen : text.length = Gui.wmTextMax - 1 := by
      have hfull' : 4096 ≤ text.length + 1 := hfull
      show text.length = 4095
      omega
    rw [if_pos hfull, ← hlen, List.take_left]
    exact h
  · have hfull' : ¬ 4096 ≤ text.length + 1 := hfull
    have hall : (text ++ [c]).take (Gui.wmTextMax - 1) = text ++ [c] := by
      apply List.take_of_length_le
      rw [List.length_append, List.length_singleton]
      show text.length + 1 ≤ 4095
      omega
    rw [if_neg hfull, hall]
    refine ⟨?_, ?_, ⟨fun i hi => ?_, ?_⟩, fun e he => ?_⟩
    · rw [List.length_append, List.length_singleton]
    · rw [List.length_append, List.length_singleton]
      exact Nat.not_le.mp hfull
    · rw [List.length_append, List.length_singleton] at hi
      dsimp only
      rw [Nat.zero_add, Function.update_of_ne (Nat.ne_of_lt hi)]
      by_cases hlast : i = text.length
      · rw [hlast, Function.update_self, List.getElem?_concat_length]
      · rw [Function.update_of_ne hlast, List.getElem?_append_left (by omega)]
        have hchar := h.string.chars i (by omega)
        rw [Nat.zero_add] at hchar
        exact hchar
    · rw [List.length_append, List.length_singleton, Nat.zero_add]
      exact Function.update_self ..
    · cases List.mem_append.mp he with
      | inl he => exact h.noNul e he
      | inr he =>
          rw [List.mem_singleton.mp he]
          exact hc

theorem Viewed.append {v : TermView} {text : Line} (h : Viewed v text) {s : Line} (hs : NoNul s) :
    Viewed (termViewAppend s v) ((text ++ s).take (Gui.wmTextMax - 1)) := by
  induction s generalizing v text with
  | nil =>
      rw [List.append_nil, List.take_of_length_le (Nat.le_sub_one_of_lt h.short)]
      exact h
  | cons c s ih =>
      have hchar := ih (h.appendChar (hs c List.mem_cons_self)) fun e he => hs e (List.mem_cons_of_mem c he)
      rw [take_take_append, List.append_assoc] at hchar
      exact hchar

theorem Viewed.backspace {v : TermView} (h : Viewed v d.view) :
    Viewed (termViewBackspace v) d.unput.view := by
  unfold termViewBackspace Desk.unput
  rw [h.len]
  by_cases hempty : d.view.length = 0
  · have hnil : d.view = [] := List.eq_nil_of_length_eq_zero hempty
    have hlast : ¬ d.view.getLast? = some newline := by
      rw [hnil]
      exact fun heq => by cases heq
    have hsame : d.view.dropLast = d.view := by
      rw [hnil]
      rfl
    rw [if_pos hempty, if_neg hlast]
    dsimp only
    rw [hsame]
    exact h
  · have hlast : d.view.getLast? = some (v.text (d.view.length - 1)) := by
      rw [List.getLast?_eq_getElem?]
      have hchar := h.string.chars (d.view.length - 1) (by omega)
      rw [Nat.zero_add] at hchar
      exact hchar
    rw [if_neg hempty, hlast]
    by_cases hnewline : v.text (d.view.length - 1) = newline
    · rw [if_pos hnewline, if_pos (congrArg some hnewline)]
      exact h
    · rw [if_neg hnewline, if_neg fun heq => hnewline (Option.some.inj heq)]
      refine ⟨?_, ?_, ⟨fun i hi => ?_, ?_⟩, fun e he => h.noNul e (List.dropLast_subset _ he)⟩
      · exact List.length_dropLast.symm
      · rw [List.length_dropLast]
        exact (Nat.sub_le _ _).trans_lt h.short
      · rw [List.length_dropLast] at hi
        dsimp only
        rw [Nat.zero_add, Function.update_of_ne (Nat.ne_of_lt hi), List.getElem?_dropLast, if_pos hi]
        have hchar := h.string.chars i (by omega)
        rw [Nat.zero_add] at hchar
        exact hchar
      · dsimp only
        rw [List.length_dropLast, Nat.zero_add, Function.update_self]

/-- A string that fits is stored. -/
theorem storeText_isString {text : Line} (h : text.length < Gui.wmTextMax) (win : Gui.WmWindow) :
    IsString (win.storeText (Gui.strncpy text Gui.wmTextMax)).text 0 text := by
  have hstored : ∀ i, i < Gui.wmTextMax → (win.storeText (Gui.strncpy text Gui.wmTextMax)).text i =
      ((Gui.strncpy text Gui.wmTextMax)[i]?).getD (win.text i) := by
    intro i hi
    unfold Gui.WmWindow.storeText
    dsimp only
    rw [if_pos hi, List.getD_eq_getElem?_getD]
  refine ⟨fun i hi => ?_, ?_⟩
  · rw [Nat.zero_add, hstored i (hi.trans h), Gui.strncpy_getElem?, if_pos hi, if_pos (hi.trans h),
      List.getElem?_eq_getElem hi]
    rfl
  · rw [Nat.zero_add, hstored _ h, Gui.strncpy_getElem?, if_neg (Nat.lt_irrefl _), if_pos ⟨h, h.le⟩]
    rfl

/-- `term_view_sync` with the terminal's window among those numbered. -/
theorem termViewSync_terminal {n : Nat} {text : Line} (hwindows : Gui.Numbered sh.wm n)
    (hmain : sh.mainWin = 1) (hopened : 0 < n) (hview : Viewed sh.view text) :
    ∃ wm, termViewSync sh = { sh with wm := wm } ∧ Gui.Numbered wm n ∧
      Terminal sh.mainWin sh.view wm n text text := by
  have hstring : stringAt Gui.wmTextMax sh.view.text 0 = text :=
    stringAt_eq hview.string hview.noNul hview.short
  obtain ⟨i, hi, hfind⟩ := hwindows.find hopened
  obtain rfl : i = mainSlot := Fin.ext hi
  have hfind' : Gui.wmFind sh.wm sh.mainWin = some mainSlot := by
    rw [hmain]
    exact hfind
  unfold termViewSync
  rw [if_pos (by rw [hmain]; decide), hstring]
  refine ⟨_, rfl, (hwindows.setText sh.mainWin text).1, hmain, hopened, hview, ?_⟩
  rw [Gui.wmSetText_text hfind']
  exact storeText_isString hview.short _

theorem Stands.append (h : Stands p sh d) {s : Line} (hs : NoNul s) :
    Stands p (viewAppend s sh) (d.put s) :=
  ⟨h.closed, h.files, h.fits, h.paths, h.windows,
    ⟨h.terminal.main, h.terminal.opened, h.terminal.view.append hs, h.terminal.text⟩, h.manager, h.down⟩

theorem Stands.sync (h : Stands p sh d) : Stands p (termViewSync sh) d.sync := by
  obtain ⟨wm, hsync, hnumbered, hterminal⟩ :=
    termViewSync_terminal h.windows h.terminal.main h.terminal.opened h.terminal.view
  rw [hsync]
  exact ⟨h.closed, h.files, h.fits, h.paths, hnumbered, hterminal, h.manager, h.down⟩

theorem termViewSync_sbi (sh : Shell) : (termViewSync sh).sbi = sh.sbi := by
  unfold termViewSync
  split <;> rfl

/-- A message and nothing else. -/
theorem Stands.said (h : Stands p sh d) (s : String) : Answers (Stands p) sh (some (say s sh)) (d.say s) :=
  ⟨_, rfl, h.puts _, uPuts_sbi _ _⟩

/-! ## The commands on files -/

/-- The files change, and a path is added. -/
theorem Stands.stored (h : Stands p sh d) {sys : System} (hclosed : Closed sys p) (path : Line) :
    Stands p { sh with sys := sys, fileDb := filedbAdd path sh.fileDb }
      { d with files := Inodes.store sys.inodes, paths := addPath path d.paths } where
  closed := hclosed
  files := rfl
  fits := h.fits.add path
  paths := by rw [filedbAdd_paths, h.paths, addPath]
  windows := h.windows
  terminal := h.terminal
  manager := h.manager
  down := h.down

/-- `fs_close` on a session's descriptor. -/
theorem Stands.reopened (h : Stands p sh d) {sys : System} (hclosed : Closed sys p)
    (hinodes : sys.inodes = sh.sys.inodes) : Stands p { sh with sys := sys } d :=
  ⟨hclosed, by dsimp only; rw [hinodes, h.files], h.fits, h.paths, h.windows, h.terminal, h.manager, h.down⟩

theorem Stands.touch (h : Stands p sh d) (path : Line) :
    Answers (Stands p) sh (some (shellTouch path sh)) (d.touch path) := by
  unfold shellTouch Desk.touch Store.touch
  have hcreat : (oCreat ||| oRdwr) &&& oCreat ≠ 0 := by decide
  have happend : (oCreat ||| oRdwr) &&& oAppend = 0 := by decide
  cases h.closed.open_create path hcreat happend with
  | fails hopen hnone =>
      rw [hopen, ← h.files, hnone]
      exact h.said "touch: fail\n"
  | opens s' i old hopen hopened hcontent hedit =>
      obtain ⟨hclosed, hinodes⟩ := hopened.close
      rw [hopen, ← h.files, hedit]
      have hsame : Function.update (Inodes.store s'.inodes) i (some ⟨(s'.inodes i).name, id old⟩) =
          Inodes.store (fsClose 0 s').2.inodes := by
        have htrunc : ¬ (oCreat ||| oRdwr) &&& oTrunc ≠ 0 := by decide
        rw [if_neg htrunc] at hcontent
        rw [hinodes, id, ← hcontent, ← Inodes.store_used hopened.used, Function.update_eq_self]
      rw [hsame]
      exact ⟨_, rfl, h.stored hclosed path, (Syscall.Sbi.say_nil _).symm⟩

/-- Text was written at the end of the open file, as far as it had room. -/
structure Grown (p : Fin procMax) (i : Fin ramfsMaxFiles) (flags : Nat) (text : Line) (s s' : System) :
    Prop where
  opened : Opened s' p i (RamfsInode.content (s'.inodes i)).length flags
  content : RamfsInode.content (s'.inodes i) =
    (RamfsInode.content (s.inodes i) ++ text).take ramfsDataMax
  name : (s'.inodes i).name = (s.inodes i).name
  store : ∀ j, j ≠ i → Inodes.store s'.inodes j = Inodes.store s.inodes j

theorem Grown.trans {i : Fin ramfsMaxFiles} {flags : Nat} {text more : Line} {s s' s'' : System}
    (h : Grown p i flags text s s') (h' : Grown p i flags more s' s'') :
    Grown p i flags (text ++ more) s s'' where
  opened := h'.opened
  content := by rw [h'.content, h.content, take_take_append, List.append_assoc]
  name := h'.name.trans h.name
  store j hj := (h'.store j hj).trans (h.store j hj)

theorem Grown.refl {i : Fin ramfsMaxFiles} {flags : Nat} {s : System}
    (h : Opened s p i (RamfsInode.content (s.inodes i)).length flags) : Grown p i flags [] s s where
  opened := h
  content := by
    rw [List.append_nil, List.take_of_length_le]
    rw [RamfsInode.content_length]
    exact h.sized i
  name := rfl
  store _ _ := rfl

theorem uWrite_grown {i : Fin ramfsMaxFiles} {flags : Nat} {s : System}
    (h : Opened s p i (RamfsInode.content (s.inodes i)).length flags) (hmode : flags &&& 3 = oWronly)
    (happend : flags &&& oAppend = 0) (word : Line) : Grown p i flags word s (uWrite 0 word s) := by
  obtain ⟨n, -, hname, hcontent, hinodes, hopened⟩ :=
    h.write hmode happend (by decide : shellBuf ≠ 0) word
  have hself : (uWrite 0 word s).inodes i = n := by
    rw [uWrite, hinodes, Function.update_self]
  constructor
  · rw [hself]
    exact hopened
  · rw [hself, hcontent]
  · rw [hself, hname]
  · intro j hj
    rw [uWrite, hinodes, Inodes.store, Inodes.store, Function.update_of_ne hj]

/-- The words behind the first are written, each with a space in front. -/
theorem shellWriteLoop_grown {i : Fin ramfsMaxFiles} {flags : Nat} {s : System} (words : List Line)
    (h : Opened s p i (RamfsInode.content (s.inodes i)).length flags) (hmode : flags &&& 3 = oWronly)
    (happend : flags &&& oAppend = 0) :
    Grown p i flags (words.flatMap fun w => bytesOf " " ++ w) s (shellWriteLoop 0 false words s) := by
  induction words generalizing s with
  | nil => exact .refl h
  | cons word words ih =>
      have hspace := uWrite_grown h hmode happend (bytesOf " ")
      have hword := hspace.trans (uWrite_grown hspace.opened hmode happend word)
      exact hword.trans (ih hword.opened)

theorem Stands.write (h : Stands p sh d) (path word : Line) (words : List Line) :
    Answers (Stands p) sh (some (shellWrite path (word :: words) sh)) (d.write path (word :: words)) := by
  unfold shellWrite Desk.write Store.write
  have hcreat : (oCreat ||| oTrunc ||| oWronly) &&& oCreat ≠ 0 := by decide
  have happend : (oCreat ||| oTrunc ||| oWronly) &&& oAppend = 0 := by decide
  cases h.closed.open_create path hcreat happend with
  | fails hopen hnone =>
      rw [hopen, ← h.files, hnone]
      exact h.said "write: fail\n"
  | opens s' i old hopen hopened hcontent hedit =>
      have htrunc : (oCreat ||| oTrunc ||| oWronly) &&& oTrunc ≠ 0 := by decide
      have hmode : (oCreat ||| oTrunc ||| oWronly) &&& 3 = oWronly := by decide
      rw [if_pos htrunc] at hcontent
      have hstart : Opened s' p i (RamfsInode.content (s'.inodes i)).length
          (oCreat ||| oTrunc ||| oWronly) := by
        rw [hcontent]
        exact hopened
      have hfirst := uWrite_grown hstart hmode happend word
      have hgrown := hfirst.trans (shellWriteLoop_grown words hfirst.opened hmode happend)
      obtain ⟨hclosed, hinodes⟩ := hgrown.opened.close
      rw [hopen, ← h.files, hedit]
      have hsame : Function.update (Inodes.store s'.inodes) i
          (some ⟨(s'.inodes i).name, (joined (word :: words)).take ramfsDataMax⟩) =
          Inodes.store (fsClose 0 (shellWriteLoop 0 true (word :: words) s')).2.inodes := by
        change _ = Inodes.store (fsClose 0 (shellWriteLoop 0 false words (uWrite 0 word s'))).2.inodes
        rw [hinodes]
        funext j
        by_cases hj : j = i
        · have hused := Inodes.store_used hgrown.opened.used
          rw [hgrown.content, hgrown.name, hcontent, List.nil_append] at hused
          rw [hj, Function.update_self, hused]
          rfl
        · rw [Function.update_of_ne hj, hgrown.store j hj]
      rw [hsame]
      exact ⟨_, rfl, h.stored hclosed path, (Syscall.Sbi.say_nil _).symm⟩

/-- The loop prints the file. -/
theorem shellCatLoop_spec {i : Fin ramfsMaxFiles} {flags : Nat} {sys : System} {turns : Nat}
    (hopened : Opened sys p i 0 flags) (hmode : flags &&& 3 ≠ oWronly) (hturns : 2 ≤ turns) (sh : Shell) :
    ∃ sys', shellCatLoop 0 turns { sh with sys := sys } =
        some (uPuts (RamfsInode.content (sys.inodes i)) { sh with sys := sys' }) ∧
      Closed (fsClose 0 sys').2 p ∧ (fsClose 0 sys').2.inodes = sys.inodes := by
  obtain ⟨turns, rfl⟩ := Nat.exists_eq_add_of_le' hturns
  obtain ⟨sys', hread, hopened', hinodes⟩ :=
    hopened.read hmode (by decide : shellBuf ≠ 0) (Nat.le_refl iobufSize)
  obtain ⟨hclosed, hsame⟩ := hopened'.close
  refine ⟨sys', ?_, hclosed, hsame.trans hinodes⟩
  rw [shellCatLoop]
  dsimp only
  rw [hread]
  dsimp only
  by_cases hempty : RamfsInode.content (sys.inodes i) = []
  · rw [hempty, if_pos (by decide), uPuts_eq, Syscall.Sbi.say_nil]
  · have hpos := List.length_pos_iff.mpr hempty
    rw [if_neg (by omega), Int.toNat_natCast, List.take_length, uPuts_eq, shellCatLoop]
    dsimp only
    rw [hopened'.read_end hmode (by rw [hinodes]) (by decide) iobufSize]
    rfl

theorem Stands.cat (h : Stands p sh d) (path : Line) {turns : Nat} (hturns : 2 ≤ turns) :
    Answers (Stands p) sh (shellCat turns path sh) (d.cat path) := by
  unfold shellCat Desk.cat
  cases h.closed.open_read path (by decide : oRdonly &&& oCreat = 0) (by decide) (by decide) with
  | inl hfail =>
      rw [hfail.1, ← h.files, hfail.2]
      exact h.said "cat: fail\n"
  | inr hopen =>
      obtain ⟨s', i, hopen, hopened, hinodes, hread⟩ := hopen
      obtain ⟨sys', hloop, hclosed, hsame⟩ := shellCatLoop_spec hopened (by decide) hturns sh
      rw [hopen, ← h.files, hread]
      dsimp only
      rw [if_neg (by decide), hloop, hinodes]
      refine ⟨_, rfl, ?_, ?_⟩
      · have hputs := ((h.reopened hclosed (hsame.trans hinodes)).puts
          (RamfsInode.content (sh.sys.inodes i))).puts [newline]
        rw [uPuts_eq, uPuts_eq] at hputs
        rw [uPuts_eq]
        exact hputs
      · rw [uPuts_eq]
        exact Syscall.Sbi.say_say ..

theorem Stands.rm (h : Stands p sh d) (path : Line) :
    Answers (Stands p) sh (some (shellRm path sh)) (d.rm path) := by
  unfold shellRm Desk.rm
  cases h.closed.unlink path with
  | inl hfail =>
      rw [hfail.1, ← h.files, hfail.2]
      exact h.said "rm: fail\n"
  | inr hgone =>
      obtain ⟨s', hunlink, hclosed, hremove⟩ := hgone
      have hpaths : (filedbRemove path sh.fileDb).paths = d.paths.erase path := by
        rw [filedbRemove_paths h.fits, h.paths]
      rw [hunlink, ← h.files, hremove]
      refine ⟨_, rfl, ?_, (Syscall.Sbi.say_nil _).symm⟩
      exact ⟨hclosed, rfl, h.fits.remove path, hpaths, h.windows, h.terminal, h.manager, h.down⟩

theorem Stands.ls (h : Stands p sh d) : Answers (Stands p) sh (some (shellLs sh)) d.ls := by
  have hlist : fsListdir shellBuf iobufSize sh.sys.inodes =
      (((listing iobufSize sh.sys.inodes).length : Int),
        if (listing iobufSize sh.sys.inodes).length < iobufSize then listing iobufSize sh.sys.inodes ++ [0]
        else listing iobufSize sh.sys.inodes) := if_neg (by decide)
  have htake : (if (listing iobufSize sh.sys.inodes).length < iobufSize then
      listing iobufSize sh.sys.inodes ++ [0] else listing iobufSize sh.sys.inodes).take
      (listing iobufSize sh.sys.inodes).length = listing iobufSize sh.sys.inodes := by
    split
    · rw [List.take_left]
    · rw [List.take_length]
  unfold shellLs Desk.ls
  rw [hlist]
  dsimp only
  rw [if_neg (by omega), Int.toNat_natCast, htake, listing_store, h.files]
  exact ⟨_, rfl, h.puts _, uPuts_sbi _ _⟩

/-! ## The commands on windows -/

section

variable (wild : Nat → Int → UInt32)

/-- The number of windows grows by one, and the file manager stays where it is. -/
theorem Manages.more {fm : FileManager} {n : Nat} {b : Bool} (h : Manages fm n b) :
    Manages fm (n + 1) b where
  shown hb := by
    obtain ⟨k, hk, hrest⟩ := h.shown hb
    exact ⟨k, Nat.lt_succ_of_lt hk, hrest⟩
  hidden := h.hidden

/-- A window that was opened gets a text. -/
theorem Stands.labelled (h : Stands p sh d) {win : Int} {wm : Gui.Wm} (hid : win = d.windows + 1)
    (hnumbered : Gui.Numbered wm (d.windows + 1))
    (hfirst : Terminal sh.mainWin sh.view wm (d.windows + 1) d.view d.shown) (text : Line) :
    Gui.Numbered (Gui.wmSetText win text wm).2 (d.windows + 1) ∧
      Terminal sh.mainWin sh.view (Gui.wmSetText win text wm).2 (d.windows + 1) d.view d.shown := by
  obtain ⟨hnumbered', hother⟩ := hnumbered.setText win text
  refine ⟨hnumbered', hfirst.drawn le_rfl (hother mainSlot ?_)⟩
  obtain ⟨old, hbadge⟩ := hnumbered.used mainSlot (Nat.succ_pos _)
  have hnumber : (wm.windows mainSlot).id = 1 := congrArg Gui.Badge.id hbadge
  have hopened := h.terminal.opened
  rw [hnumber, hid]
  omega

theorem Stands.img (h : Stands p sh d) (path : Line) :
    Answers (Stands p) sh (some (shellImg wild path sh)) d.img := by
  unfold shellImg imgOpenPath Desk.img
  cases h.windows.create (some (bytesOf "ImageViewer")) 320 240 with
  | inl hfull =>
      obtain ⟨hn, hcreate⟩ := hfull
      rw [hcreate, if_pos hn]
      exact h.said "img: fail\n"
  | inr hroom =>
      obtain ⟨hn, hid, hnumbered, hold⟩ := hroom
      have hfirst := h.terminal.drawn (Nat.le_succ d.windows) (hold mainSlot h.terminal.opened)
      generalize Gui.wmCreate (some (bytesOf "ImageViewer")) 320 240 sh.wm = r at hid hnumbered hfirst
      obtain ⟨win, wm⟩ := r
      dsimp only at hid hnumbered ⊢
      have hpos : ¬ win < 0 := by omega
      rw [if_neg (Nat.ne_of_lt hn), if_neg hpos]
      dsimp only
      rw [if_neg hpos]
      obtain ⟨hnumbered', hfirst'⟩ := h.labelled hid hnumbered hfirst path
      have hwm := Gui.wmRender_badges wild (Gui.wmSetText win path wm).2
      exact ⟨_, rfl, ⟨h.closed, h.files, h.fits, h.paths, hnumbered'.same hwm,
        hfirst'.drawn le_rfl (hwm.badge mainSlot), h.manager.more, h.down⟩, (Syscall.Sbi.say_nil _).symm⟩

/-- The window of the file manager is opened if there is room. -/
theorem Stands.fmOpen (h : Stands p sh d) (hhidden : d.manager = false) :
    Answers (Stands p) sh (some (fmOpen wild sh)) d.fm := by
  unfold Apps.fmOpen Desk.fm
  cases h.windows.create (some (bytesOf "FileManager")) 400 300 with
  | inl hfull =>
      obtain ⟨hn, hcreate⟩ := hfull
      rw [hcreate, if_pos (Or.inr hn)]
      have hnone : Gui.wmSetText (-1) (bytesOf "File Manager (Direct Kernel Access)\nClick to select files.")
          sh.wm = (-1, sh.wm) := by
        unfold Gui.wmSetText
        rw [h.windows.find_none (by decide)]
      have hwm := Gui.wmRender_badges wild sh.wm
      dsimp only
      rw [hnone]
      refine ⟨_, rfl, ⟨h.closed, h.files, h.fits, h.paths, h.windows.same hwm,
        h.terminal.drawn le_rfl (hwm.badge mainSlot), ?_, h.down⟩, (Syscall.Sbi.say_nil _).symm⟩
      have hneg : (-1 : Int) ≤ 0 := by decide
      refine ⟨fun hshown => ?_, fun _ _ => hneg⟩
      rw [hhidden] at hshown
      exact absurd hshown Bool.false_ne_true
  | inr hroom =>
      obtain ⟨hn, hid, hnumbered, hold⟩ := hroom
      have hfirst := h.terminal.drawn (Nat.le_succ d.windows) (hold mainSlot h.terminal.opened)
      generalize Gui.wmCreate (some (bytesOf "FileManager")) 400 300 sh.wm = r at hid hnumbered hfirst
      obtain ⟨win, wm⟩ := r
      dsimp only at hid hnumbered ⊢
      have hopen : ¬ (d.manager = true ∨ d.windows = Gui.wmMaxWindows) := by
        rw [hhidden]
        exact not_or.mpr ⟨Bool.false_ne_true, Nat.ne_of_lt hn⟩
      rw [if_neg hopen]
      obtain ⟨hnumbered', hfirst'⟩ := h.labelled hid hnumbered hfirst
        (bytesOf "File Manager (Direct Kernel Access)\nClick to select files.")
      have hwm := Gui.wmRender_badges wild (Gui.wmSetText win
        (bytesOf "File Manager (Direct Kernel Access)\nClick to select files.") wm).2
      exact ⟨_, rfl, ⟨h.closed, h.files, h.fits, h.paths, hnumbered'.same hwm,
        hfirst'.drawn le_rfl (hwm.badge mainSlot),
        ⟨fun _ => ⟨d.windows, Nat.lt_succ_self _, rfl, hid⟩, fun hfalse => absurd hfalse.symm
          Bool.false_ne_true⟩, h.down⟩, (Syscall.Sbi.say_nil _).symm⟩

theorem Stands.fm (h : Stands p sh d) : Answers (Stands p) sh (some (fmRun wild sh)) d.fm := by
  unfold fmRun
  cases hmanager : d.manager with
  | true =>
      obtain ⟨k, hk, hactive, hwin⟩ := h.manager.shown hmanager
      have hfocus := h.windows.focus hk
      have hwm := Gui.wmFocus_badges sh.fm.winId sh.wm
      rw [← hwin] at hfocus
      rw [if_pos hactive]
      generalize Gui.wmFocus sh.fm.winId sh.wm = r at hfocus hwm
      obtain ⟨rc, wm⟩ := r
      dsimp only at hfocus hwm ⊢
      rw [if_pos (by omega), Desk.fm, if_pos (Or.inl hmanager)]
      exact ⟨_, rfl, h.drawn hwm, (Syscall.Sbi.say_nil _).symm⟩
  | false =>
      by_cases hactive : sh.fm.active = true
      · rw [if_pos hactive, h.windows.focus_none (h.manager.hidden hmanager hactive)]
        dsimp only
        rw [if_neg (by decide)]
        exact h.fmOpen wild hmanager
      · rw [if_neg hactive]
        exact h.fmOpen wild hmanager

theorem Stands.gui (h : Stands p sh d) : Answers (Stands p) sh (some (shellGui wild sh)) ([], d) := by
  unfold shellGui
  rw [if_neg (by rw [h.terminal.main]; decide)]
  exact ⟨_, rfl, h.drawn (Gui.wmRender_badges wild sh.wm), (Syscall.Sbi.say_nil _).symm⟩

/-! ## The commands -/

theorem Stands.run (h : Stands p sh d) {turns : Nat} (hturns : 2 ≤ turns) (args : List Line) :
    Answers (Stands p) sh (runCommand wild turns args sh) (d.run args) := by
  unfold runCommand Desk.run
  cases args with
  | nil => exact ⟨sh, rfl, h, (Syscall.Sbi.say_nil _).symm⟩
  | cons cmd args =>
      simp only [strEq_iff]
      by_cases hhelp : cmd = bytesOf "help"
      · rw [if_pos hhelp, if_pos hhelp]
        exact h.said _
      rw [if_neg hhelp, if_neg hhelp]
      by_cases hls : cmd = bytesOf "ls"
      · rw [if_pos hls, if_pos hls]
        exact h.ls
      rw [if_neg hls, if_neg hls]
      by_cases hcat : cmd = bytesOf "cat"
      · rw [if_pos hcat, if_pos hcat]
        cases args with
        | nil => exact h.said _
        | cons path args => exact h.cat path hturns
      rw [if_neg hcat, if_neg hcat]
      by_cases htouch : cmd = bytesOf "touch"
      · rw [if_pos htouch, if_pos htouch]
        cases args with
        | nil => exact h.said _
        | cons path args => exact h.touch path
      rw [if_neg htouch, if_neg htouch]
      by_cases hgui : cmd = bytesOf "gui"
      · rw [if_pos hgui, if_pos hgui]
        exact h.gui wild
      rw [if_neg hgui, if_neg hgui]
      by_cases hwrite : cmd = bytesOf "write"
      · rw [if_pos hwrite, if_pos hwrite]
        cases args with
        | nil => exact h.said _
        | cons path args =>
            cases args with
            | nil => exact h.said _
            | cons word words => exact h.write path word words
      rw [if_neg hwrite, if_neg hwrite]
      by_cases himg : cmd = bytesOf "img"
      · rw [if_pos himg, if_pos himg]
        cases args with
        | nil => exact h.said _
        | cons path args => exact h.img wild path
      rw [if_neg himg, if_neg himg]
      by_cases hfm : cmd = bytesOf "fm"
      · rw [if_pos hfm, if_pos hfm]
        exact h.fm wild
      rw [if_neg hfm, if_neg hfm]
      by_cases hrm : cmd = bytesOf "rm"
      · rw [if_pos hrm, if_pos hrm]
        cases args with
        | nil => exact h.said _
        | cons path args => exact h.rm path
      rw [if_neg hrm, if_neg hrm]
      by_cases hdown : cmd = bytesOf "shutdown"
      · rw [if_pos hdown, if_pos hdown]
        refine ⟨_, rfl, ?_, (Syscall.Sbi.say_nil _).symm⟩
        exact ⟨h.closed, h.files, h.fits, h.paths, h.windows, h.terminal, h.manager, rfl⟩
      · rw [if_neg hdown, if_neg hdown]
        exact h.said _

/-! ## The keys -/

/-- The characters that can be typed. -/
theorem printable_ne_zero {ch : Int} (h : 32 ≤ ch ∧ ch ≤ 126) : UInt8.ofNat ch.toNat ≠ 0 := by
  intro hzero
  have hval := congrArg UInt8.toNat hzero
  rw [UInt8.toNat_ofNat', UInt8.toNat_zero] at hval
  omega

theorem Shows.append (h : Shows p sh d) {s : Line} (hs : NoNul s) : Shows p (viewAppend s sh) (d.put s) :=
  ⟨h.toStands.append hs, h.line⟩

theorem Shows.backspace (h : Shows p sh d) :
    Shows p { sh with view := termViewBackspace sh.view } d.unput := by
  have hview := h.terminal.view.backspace
  unfold Desk.unput at hview ⊢
  split
  · rename_i hlast
    rw [if_pos hlast] at hview
    exact ⟨⟨h.closed, h.files, h.fits, h.paths, h.windows,
      ⟨h.terminal.main, h.terminal.opened, hview, h.terminal.text⟩, h.manager, h.down⟩, h.line⟩
  · rename_i hlast
    rw [if_neg hlast] at hview
    exact ⟨⟨h.closed, h.files, h.fits, h.paths, h.windows,
      ⟨h.terminal.main, h.terminal.opened, hview, h.terminal.text⟩, h.manager, h.down⟩, h.line⟩

theorem Shows.puts (h : Shows p sh d) (s : Line) : Shows p (uPuts s sh) d := by
  refine ⟨h.toStands.puts s, ?_⟩
  rw [uPuts_eq]
  exact h.line

theorem Shows.sync (h : Shows p sh d) : Shows p (termViewSync sh) d.sync := by
  refine ⟨h.toStands.sync, ?_⟩
  unfold termViewSync
  split
  · exact h.line
  · exact h.line

theorem Shows.type (h : Shows p sh d) (hup : d.down = false) {c : UInt8} (hc : c ≠ 0) :
    Answers (Shows p) sh (some (shellType c sh)) (d.type c) := by
  have htyped := h.line hup
  unfold shellType Desk.type
  rw [htyped.len]
  by_cases hroom : d.line.length + 1 < shellMaxLine
  · rw [if_pos hroom, if_pos hroom]
    have hline : Typed (Function.update sh.line d.line.length c) (d.line.length + 1) (d.line ++ [c]) := by
      constructor
      · rw [List.length_append, List.length_singleton]
      · rw [List.length_append, List.length_singleton]
        exact hroom
      · intro i hi
        rw [List.length_append, List.length_singleton] at hi
        by_cases hlast : i = d.line.length
        · rw [hlast, Function.update_self, List.getElem?_concat_length]
        · rw [Function.update_of_ne hlast, List.getElem?_append_left (by omega)]
          exact htyped.chars i (by omega)
      · intro e he
        cases List.mem_append.mp he with
        | inl he => exact htyped.noNul e he
        | inr he =>
            rw [List.mem_singleton.mp he]
            exact hc
    have hshows : Shows p { sh with
        line := Function.update sh.line d.line.length c
        len := d.line.length + 1
        sbi := sh.sbi.say [c] } { d with line := d.line ++ [c] } :=
      ⟨⟨h.closed, h.files, h.fits, h.paths, h.windows, h.terminal, h.manager, h.down⟩, fun _ => hline⟩
    have hchar : NoNul [c] := fun e he => by
      rw [List.mem_singleton.mp he]
      exact hc
    refine ⟨_, rfl, (hshows.append hchar).sync, ?_⟩
    rw [termViewSync_sbi]
    rfl
  · rw [if_neg hroom, if_neg hroom]
    exact ⟨sh, rfl, h, (Syscall.Sbi.say_nil _).symm⟩

theorem Shows.erase (h : Shows p sh d) (hup : d.down = false) :
    Answers (Shows p) sh (some (shellErase sh)) d.erase := by
  have htyped := h.line hup
  unfold shellErase Desk.erase
  by_cases hempty : d.line = []
  · have hzero : ¬ 0 < sh.len := by
      rw [htyped.len, hempty]
      exact Nat.lt_irrefl 0
    rw [if_neg hzero, if_pos hempty]
    exact ⟨sh, rfl, h, (Syscall.Sbi.say_nil _).symm⟩
  · have hpos : 0 < sh.len := by
      rw [htyped.len]
      exact List.length_pos_iff.mpr hempty
    rw [if_pos hpos, if_neg hempty]
    have hline : Typed sh.line (sh.len - 1) d.line.dropLast := by
      constructor
      · rw [List.length_dropLast, htyped.len]
      · rw [List.length_dropLast]
        exact (Nat.sub_le _ _).trans_lt htyped.short
      · intro i hi
        rw [List.length_dropLast] at hi
        rw [List.getElem?_dropLast, if_pos (by omega)]
        exact htyped.chars i (by omega)
      · exact fun e he => htyped.noNul e (List.dropLast_subset _ he)
    have hshows : Shows p { sh with len := sh.len - 1 } { d with line := d.line.dropLast } :=
      ⟨⟨h.closed, h.files, h.fits, h.paths, h.windows, h.terminal, h.manager, h.down⟩, fun _ => hline⟩
    have hsaid := hshows.puts (bytesOf "\x08 \x08")
    refine ⟨_, rfl, hsaid.backspace.sync, ?_⟩
    rw [termViewSync_sbi]
    exact uPuts_sbi _ _

theorem Shows.enter (h : Shows p sh d) (hup : d.down = false) {turns : Nat}
    (hturns : shellMaxLine < turns) : Answers (Shows p) sh (shellEnter wild turns sh) d.enter := by
  have htyped := h.line hup
  have hstring : IsString (Function.update sh.line sh.len 0) 0 d.line := by
    constructor
    · intro i hi
      rw [Nat.zero_add, Function.update_of_ne (by rw [htyped.len]; exact Nat.ne_of_lt hi)]
      exact htyped.chars i hi
    · rw [Nat.zero_add, htyped.len, Function.update_self]
  obtain ⟨buf, argv, hsplit, hargs⟩ :=
    @splitArgs_arguments d.line _ turns shellMaxArgs hstring htyped.noNul htyped.short hturns
  have hnewline : NoNul [newline] := fun e he => by
    rw [List.mem_singleton.mp he]
    decide
  have happend := h.toStands.append hnewline
  have hstands : Stands p { viewAppend [newline] (uPutchar newline sh) with line := buf } (d.put [newline]) :=
    ⟨h.closed, h.files, h.fits, h.paths, h.windows, happend.terminal, h.manager, h.down⟩
  obtain ⟨sh', hrun, hstands', hsent⟩ := hstands.run wild
    ((by decide : 2 ≤ shellMaxLine).trans hturns.le) (arguments shellMaxArgs d.line)
  have henter : shellEnter wild turns sh =
      if sh'.down then some sh'
      else some (termViewSync (viewAppend (bytesOf "k> ") (Apps.say "k> " { sh' with len := 0 }))) := by
    have hsplit' : splitArgs turns (Function.update (viewAppend [newline] (uPutchar newline sh)).line
        (viewAppend [newline] (uPutchar newline sh)).len 0) shellMaxArgs = some (buf, argv) := hsplit
    unfold shellEnter
    dsimp only
    rw [hsplit']
    dsimp only
    rw [hargs, hrun]
  -- From here on only the reply to the command matters.
  generalize hr : (d.put [newline]).run (arguments shellMaxArgs d.line) = r at hstands' hsent
  have hreply : d.enter = if r.2.down then (newline :: r.1, r.2)
      else (newline :: r.1 ++ bytesOf "k> ", (Desk.put (bytesOf "k> ") { r.2 with line := [] }).sync) := by
    rw [← hr]
    rfl
  have hsent' : sh'.sbi = sh.sbi.say (newline :: r.1) := by
    rw [hsent]
    exact Syscall.Sbi.say_say [newline] _ sh.sbi
  rw [henter, hreply]
  cases hdown : r.2.down with
  | true =>
      rw [if_pos (hstands'.down.trans hdown), if_pos rfl]
      refine ⟨sh', rfl, ⟨hstands', fun hup => ?_⟩, hsent'⟩
      rw [hdown] at hup
      exact absurd hup.symm Bool.false_ne_true
  | false =>
      have hdown' : ¬ sh'.down = true := by
        rw [hstands'.down, hdown]
        exact Bool.false_ne_true
      rw [if_neg hdown', if_neg Bool.false_ne_true]
      have hnew : Shows p { sh' with len := 0 } { r.2 with line := [] } := by
        refine ⟨⟨hstands'.closed, hstands'.files, hstands'.fits, hstands'.paths, hstands'.windows,
          hstands'.terminal, hstands'.manager, hstands'.down⟩, fun _ => ⟨rfl, Nat.succ_pos 127, ?_, ?_⟩⟩
        · exact fun i hi => absurd hi (Nat.not_lt_zero i)
        · exact fun c hc => absurd hc List.not_mem_nil
      have hprompts : NoNul (bytesOf "k> ") := noNul_of_all (by decide)
      refine ⟨_, rfl, ((hnew.puts (bytesOf "k> ")).append hprompts).sync, ?_⟩
      rw [termViewSync_sbi]
      exact (uPuts_sbi _ _).trans ((congrArg _ hsent').trans (Syscall.Sbi.say_say ..))

/-- One key. -/
theorem Shows.key (h : Shows p sh d) {turns : Nat} (hturns : shellMaxLine < turns) (ch : Int) :
    Answers (Shows p) sh (shellKey wild turns ch sh) (d.key ch) := by
  have hnothing : Answers (Shows p) sh (some sh) ([], d) := ⟨sh, rfl, h, (Syscall.Sbi.say_nil _).symm⟩
  unfold shellKey Desk.key
  rw [h.down]
  cases hdown : d.down with
  | true => exact hnothing
  | false =>
      rw [if_neg Bool.false_ne_true, if_neg Bool.false_ne_true]
      by_cases hnone : ch < 0
      · rw [if_pos hnone, if_pos hnone]
        exact hnothing
      rw [if_neg hnone, if_neg hnone]
      by_cases henter : ch = 13 ∨ ch = 10
      · rw [if_pos henter, if_pos henter]
        exact h.enter wild hdown hturns
      rw [if_neg henter, if_neg henter]
      by_cases herase : ch = 8 ∨ ch = 127
      · rw [if_pos herase, if_pos herase]
        exact h.erase hdown
      rw [if_neg herase, if_neg herase]
      by_cases htype : 32 ≤ ch ∧ ch ≤ 126
      · rw [if_pos htype, if_pos htype]
        exact h.type hdown (printable_ne_zero htype)
      · rw [if_neg htype, if_neg htype]
        exact hnothing

/-- Any number of keys. -/
theorem Shows.keys (h : Shows p sh d) {turns : Nat} (hturns : shellMaxLine < turns) (chs : List Int) :
    Answers (Shows p) sh (shellKeys wild turns chs sh) (d.keys chs) := by
  induction chs generalizing sh d with
  | nil => exact ⟨sh, rfl, h, (Syscall.Sbi.say_nil _).symm⟩
  | cons ch chs ih =>
      obtain ⟨sh₁, hkey, hshows, hsent⟩ := h.key wild hturns ch
      obtain ⟨sh₂, hkeys, hshows', hsent'⟩ := ih hshows
      refine ⟨sh₂, ?_, hshows', ?_⟩
      · rw [shellKeys, hkey, Option.bind_some, hkeys]
      · rw [hsent', hsent, Syscall.Sbi.say_say]
        rfl

/-! ## From the start of the shell -/

/-- The text of the terminal's window at the start. -/
def banner : Line := bytesOf "kernel:shell integrated (S-mode)\n" ++ bytesOf "k> "

/-- The desk of a shell that starts. -/
def Desk.start (files : Store) : Desk := ⟨files, [], [], banner, banner, 1, false, false⟩

/-- What `user_init_entry` prints before it creates the terminal's window. -/
def opening : Line :=
  bytesOf "kernel:starting shell...\n" ++ bytesOf "shell: calling wm_init...\n" ++
    bytesOf "shell: calling wm_input_init...\n" ++ bytesOf "shell: creating terminal window...\n"

/-- What `user_init_entry` prints before the first key. -/
def greeting : Line :=
  opening ++ bytesOf "shell: performing initial render...\n" ++ bytesOf "kernel> "

/-- Before `user_init_entry` runs: the process has no descriptor open, and the variables of the
file manager and of the shutdown are as they are at boot. -/
structure Boots (p : Fin procMax) (sh : Shell) : Prop where
  closed : Closed sh.sys p
  fm : sh.fm.active = false
  up : sh.down = false

theorem wmInit_numbered (gpu : Option (Int × Int)) (wm : Gui.Wm) :
    Gui.Numbered (Gui.wmInit gpu wm) 0 := by
  cases gpu with
  | none => exact ⟨Nat.zero_le _, rfl, fun i hi => absurd hi (Nat.not_lt_zero _), fun _ _ => rfl⟩
  | some size => exact ⟨Nat.zero_le _, rfl, fun i hi => absurd hi (Nat.not_lt_zero _), fun _ _ => rfl⟩

/-- `user_init_entry` up to its loop. -/
theorem Boots.start (h : Boots p sh) (gpu : Option (Int × Int)) :
    Shows p (userInitEntry wild gpu sh) (Desk.start (Inodes.store sh.sys.inodes)) ∧
      (userInitEntry wild gpu sh).sbi = sh.sbi.say greeting := by
  cases (wmInit_numbered gpu sh.wm).create (some (bytesOf "terminal")) 520 300 with
  | inl hfull => exact absurd hfull.1 (by decide)
  | inr hroom =>
      obtain ⟨-, hid, hnumbered, -⟩ := hroom
      unfold userInitEntry Apps.say
      dsimp only
      simp only [uPuts_eq]
      generalize Gui.wmCreate (some (bytesOf "terminal")) 520 300 (Gui.wmInit gpu sh.wm) = r at hid hnumbered
      obtain ⟨win, wm⟩ := r
      dsimp only at hid hnumbered ⊢
      have hwin : 0 < win := by omega
      rw [if_pos hwin]
      have hopening : ∀ sbi : Syscall.Sbi, (((sbi.say (bytesOf "kernel:starting shell...\n")).say
          (bytesOf "shell: calling wm_init...\n")).say
            (bytesOf "shell: calling wm_input_init...\n")).say
              (bytesOf "shell: creating terminal window...\n") = sbi.say opening := by
        intro sbi
        unfold opening
        simp only [Syscall.Sbi.say_say, List.append_assoc]
      simp only [hopening]
      -- The window gets its first text.
      have hreset : Stands p (termViewReset { sh with
          sbi := sh.sbi.say opening
          view := ⟨Function.update sh.view.text 0 0, 0⟩
          fileDb := { sh.fileDb with count := 0 }
          mainWin := win
          wm := wm }) (Desk.start (Inodes.store sh.sys.inodes)) := by
        have hlines : NoNul (bytesOf "kernel:shell integrated (S-mode)\n") ∧ NoNul (bytesOf "k> ") :=
          ⟨noNul_of_all (by decide), noNul_of_all (by decide)⟩
        have hview := ((Viewed.empty (Function.update sh.view.text 0 0)).append hlines.1).append hlines.2
        have hbanner : (([] ++ bytesOf "kernel:shell integrated (S-mode)\n").take (Gui.wmTextMax - 1) ++
            bytesOf "k> ").take (Gui.wmTextMax - 1) = banner := by decide +kernel
        rw [hbanner] at hview
        unfold termViewReset
        dsimp only
        have hfirst : win = 1 := by omega
        subst hfirst
        generalize termViewAppend (bytesOf "k> ") (termViewAppend
          (bytesOf "kernel:shell integrated (S-mode)\n")
          ⟨Function.update (Function.update sh.view.text 0 0) 0 0, 0⟩) = v at hview ⊢
        obtain ⟨wm', hsync, hnumbered', hterminal⟩ :=
          @termViewSync_terminal { sh with
            sbi := sh.sbi.say opening
            view := v
            fileDb := { sh.fileDb with count := 0 }
            mainWin := 1
            wm := wm } 1 banner hnumbered rfl Nat.one_pos hview
        rw [hsync]
        refine ⟨h.closed, rfl, ⟨Nat.zero_le _, fun i hi => absurd hi (Nat.not_lt_zero i)⟩, rfl,
          hnumbered', hterminal,
          ⟨fun hshown => absurd hshown Bool.false_ne_true, fun _ hactive => ?_⟩, h.up⟩
        rw [h.fm] at hactive
        exact absurd hactive Bool.false_ne_true
      have hfocus := (hreset.drawn (Gui.wmFocus_badges win _)).puts
        (bytesOf "shell: performing initial render...\n")
      have hdone := (hfocus.drawn (Gui.wmRender_badges wild _)).puts (bytesOf "kernel> ")
      simp only [uPuts_eq] at hdone
      constructor
      · refine ⟨⟨hdone.closed, hdone.files, hdone.fits, hdone.paths, hdone.windows, hdone.terminal,
          hdone.manager, hdone.down⟩, fun _ => ⟨rfl, Nat.succ_pos 127, ?_, ?_⟩⟩
        · exact fun i hi => absurd hi (Nat.not_lt_zero i)
        · exact fun c hc => absurd hc List.not_mem_nil
      · unfold termViewReset greeting
        rw [termViewSync_sbi]
        simp only [Syscall.Sbi.say_say, List.append_assoc]

end

end

end Sugimotos.Apps
