/-
# What a run of the shell shows

From its start on the shell is the desk, whatever the keys are.  So what is written to a file with
one line is what another shows, whatever is entered in between, if it leaves that file alone.
-/

import Sugimotos.Apps.Desk

namespace Sugimotos.Apps

open Sugimotos.Lib Sugimotos.Fs Sugimotos.Mm Sugimotos.Proc Sugimotos.Math

/-! ## The shell is its desk -/

/-- The shell can begin in every reachable state in which a process runs that has no descriptor. -/
theorem Boots.of_reachable {L : Layout} {ok : Traced → FsOp → Prop} {t : Traced} {p : Fin procMax}
    {sh : Shell} (h : FsReachable L ok t) (hsys : sh.sys = t.sys)
    (hcurrent : t.sys.kernel.currentProc = some p)
    (hfds : ∀ i, ((t.sys.kernel.procs p).fds i).used = false)
    (hfm : sh.fm.active = false) (hup : sh.down = false) : Boots p sh := by
  have hsized := h.inv.inodes.size_le
  rw [← hsys] at hcurrent hfds hsized
  exact ⟨⟨hcurrent, hfds, hsized⟩, hfm, hup⟩

section

variable {p : Fin procMax} {sh : Shell} {d : Desk} (wild : Nat → Int → UInt32) (gpu : Option (Int × Int))

/-- Whatever the keys are, the shell goes on and prints what the desk says.  Between two keys no
descriptor is open. -/
theorem shell_refines (h : Boots p sh) {turns : Nat} (hturns : shellMaxLine < turns) (chs : List Int) :
    ∃ sh', shellKeys wild turns chs (userInitEntry wild gpu sh) = some sh' ∧
      Shows p sh' ((Desk.start (Inodes.store sh.sys.inodes)).keys chs).2 ∧
      sh'.sbi.sent = sh.sbi.sent ++ greeting ++ ((Desk.start (Inodes.store sh.sys.inodes)).keys chs).1 := by
  obtain ⟨hstart, hgreeting⟩ := h.start wild gpu
  obtain ⟨sh', hkeys, hshows, hsent⟩ := hstart.keys wild hturns chs
  refine ⟨sh', hkeys, hshows, ?_⟩
  rw [hsent, hgreeting, Syscall.Sbi.say_sent, Syscall.Sbi.say_sent]

end

/-- A shell that begins on the machine `k`. -/
def smallShell (k : Kernel) : Shell where
  sys := ⟨k, fsInit⟩
  wm := Gui.Wm.boot
  sbi := .init []
  line := fun _ => 0
  len := 0
  view := ⟨fun _ => 0, 0⟩
  mainWin := 0
  fm := ⟨false, 0⟩
  fileDb := ⟨fun _ => [], 0⟩
  down := false

/-- The process of the shell is made and runs. -/
def shellOps : List Op := [.createProcess, .switchTo 1]

theorem smallShell_boots : ∃ k, smallRun shellOps = some k ∧ Boots 1 (smallShell k) := by
  have hsome : (smallRun shellOps).any (fun k => k.currentProc = some 1 &&
      decide (∀ i, ((k.procs 1).fds i).used = false)) = true := by decide +kernel
  obtain ⟨k, hk, hrun⟩ := (Option.any_eq_true _ _).mp hsome
  rw [Bool.and_eq_true] at hrun
  exact ⟨k, hk, ⟨⟨of_decide_eq_true hrun.1, of_decide_eq_true hrun.2, fsInit_ok.size_le⟩, rfl, rfl⟩⟩

/-- `touch a`, and `ls` with a backspace in it. -/
def smallKeys : List Int := [116, 111, 117, 99, 104, 32, 97, 13, 108, 97, 8, 115, 13]

theorem shell_refines_small : ∃ k sh', smallRun shellOps = some k ∧
    shellKeys (fun _ _ => 0) 200 smallKeys (userInitEntry (fun _ _ => 0) none (smallShell k)) = some sh' ∧
    Shows 1 sh' ((Desk.start (Inodes.store fsInit)).keys smallKeys).2 ∧
    sh'.sbi.sent = greeting ++ bytesOf "touch a\nk> la\x08 \x08s\nREADME\na\nk> " := by
  obtain ⟨k, hk, hboots⟩ := smallShell_boots
  have hturns : shellMaxLine < 200 := by decide
  obtain ⟨sh', hkeys, hshows, hsent⟩ := shell_refines (fun _ _ => 0) none hboots hturns smallKeys
  have hreply : ((Desk.start (Inodes.store fsInit)).keys smallKeys).1 =
      bytesOf "touch a\nk> la\x08 \x08s\nREADME\na\nk> " := by decide +kernel
  refine ⟨k, sh', hk, hkeys, hshows, ?_⟩
  rw [← hreply]
  exact hsent

/-! ## A line that is typed -/

/-- The keys of a line, and then return. -/
def typed (s : Line) : List Int := s.map fun c => (c.toNat : Int)

def entered (s : Line) : List Int := typed s ++ [13]

/-- A word that can be typed. -/
structure Word (w : Line) : Prop where
  ne : w ≠ []
  chars : ∀ c ∈ w, 33 ≤ c.toNat ∧ c.toNat ≤ 126

theorem Word.of_all {w : Line} (hne : w ≠ [])
    (hall : w.all (fun c => decide (33 ≤ c.toNat ∧ c.toNat ≤ 126)) = true) : Word w :=
  ⟨hne, fun c hc => of_decide_eq_true (List.all_eq_true.mp hall c hc)⟩

theorem Word.not_separator {w : Line} (h : Word w) : ∀ c ∈ w, isSeparator c = false := by
  intro c hc
  have hchar := (h.chars c hc).1
  have hne : ∀ n : UInt8, n.toNat < 33 → c ≠ n := by
    rintro n hn rfl
    omega
  unfold isSeparator
  rw [decide_eq_false (hne 32 (by decide)), decide_eq_false (hne 9 (by decide)),
    decide_eq_false (hne 10 (by decide)), decide_eq_false (hne 13 (by decide))]
  rfl

theorem joined_tail (words : List Line) :
    (words.flatMap fun w => bytesOf " " ++ w) = [] ∨
      ∃ c rest, (words.flatMap fun w => bytesOf " " ++ w) = c :: rest ∧ isSeparator c = true := by
  cases words with
  | nil => exact .inl rfl
  | cons w words => exact .inr ⟨32, _, rfl, rfl⟩

theorem arguments_tail {limit : Nat} {words : List Line} (h : ∀ w ∈ words, Word w)
    (hlimit : words.length ≤ limit) :
    arguments limit (words.flatMap fun w => bytesOf " " ++ w) = words := by
  induction words generalizing limit with
  | nil => cases limit <;> rfl
  | cons w words ih =>
      obtain ⟨limit, rfl⟩ := Nat.exists_eq_succ_of_ne_zero (Nat.ne_zero_of_lt hlimit)
      have hword := h w List.mem_cons_self
      have hparts : Parts isSeparator (bytesOf " ") w (words.flatMap fun w => bytesOf " " ++ w) :=
        ⟨fun c hc => by rw [List.mem_singleton.mp hc]; rfl, hword.ne, hword.not_separator,
          joined_tail words⟩
      have hne : w ++ (words.flatMap fun w => bytesOf " " ++ w) ≠ [] :=
        fun hnil => hword.ne (List.append_eq_nil_iff.mp hnil).1
      rw [List.flatMap_cons, List.append_assoc, arguments, Parts.skip hparts, if_neg hne]
      by_cases hlast : limit = 0
      · obtain rfl : words = [] := by
          rw [List.length_cons, hlast] at hlimit
          exact List.eq_nil_of_length_eq_zero (by omega)
        rw [if_pos hlast, List.flatMap_nil, List.append_nil]
      · rw [List.length_cons] at hlimit
        have hrest := ih (fun w hw => h w (List.mem_cons_of_mem _ hw)) (Nat.le_of_succ_le_succ hlimit)
        rw [if_neg hlast, Parts.first hparts, Parts.rest hparts, hrest]

/-- A line of words is taken apart into them. -/
theorem arguments_joined {limit : Nat} {word : Line} {words : List Line} (hword : Word word)
    (h : ∀ w ∈ words, Word w) (hlimit : words.length + 1 ≤ limit) :
    arguments limit (joined (word :: words)) = word :: words := by
  have hall := @arguments_tail limit (word :: words) (fun w hw => by
    cases hw with
    | head => exact hword
    | tail _ hw => exact h w hw) hlimit
  obtain ⟨limit, rfl⟩ := Nat.exists_eq_succ_of_ne_zero (Nat.ne_zero_of_lt hlimit)
  have hskip : ∀ cs : Line, skipSeps (bytesOf " " ++ cs) = skipSeps cs := fun _ => rfl
  rw [List.flatMap_cons, List.append_assoc, arguments, hskip] at hall
  rw [joined, arguments, hall]

theorem joined_chars {words : List Line} (h : ∀ w ∈ words, Word w) :
    ∀ c ∈ joined words, 32 ≤ c.toNat ∧ c.toNat ≤ 126 := by
  cases words with
  | nil => exact fun c hc => absurd hc List.not_mem_nil
  | cons w words =>
      intro c hc
      rw [joined, List.mem_append, List.mem_flatMap] at hc
      have hof : ∀ w, Word w → c ∈ w → 32 ≤ c.toNat ∧ c.toNat ≤ 126 := fun w hw hc =>
        ⟨Nat.le_of_succ_le (hw.chars c hc).1, (hw.chars c hc).2⟩
      rcases hc with hc | ⟨w', hw', hc⟩
      · exact hof w (h w List.mem_cons_self) hc
      · rw [List.mem_append] at hc
        cases hc with
        | inl hblank =>
            obtain rfl : c = 32 := List.mem_singleton.mp hblank
            decide
        | inr hc => exact hof w' (h w' (List.mem_cons_of_mem _ hw')) hc

namespace Desk

variable {d : Desk} {s : Line}

theorem keys_append (a b : List Int) (d : Desk) :
    d.keys (a ++ b) = ((d.keys a).1 ++ ((d.keys a).2.keys b).1, ((d.keys a).2.keys b).2) := by
  induction a generalizing d with
  | nil => rfl
  | cons ch a ih =>
      rw [List.cons_append, keys, ih, keys]
      simp only [List.append_assoc]

theorem key_char (hup : d.down = false) {c : UInt8} (hc : 32 ≤ c.toNat ∧ c.toNat ≤ 126)
    (hroom : d.line.length + 1 < shellMaxLine) :
    d.key (c.toNat : Int) = ([c], (put [c] { d with line := d.line ++ [c] }).sync) := by
  have hrunning : ¬ d.down = true := by
    rw [hup]
    exact Bool.false_ne_true
  unfold key
  rw [if_neg hrunning, if_neg (by omega), if_neg (by omega), if_neg (by omega), if_pos (by omega),
    Int.toNat_natCast, UInt8.ofNat_toNat, type, if_pos hroom]

/-- The characters of a line appear, and the line has them. -/
theorem keys_typed (hup : d.down = false) (hchars : ∀ c ∈ s, 32 ≤ c.toNat ∧ c.toNat ≤ 126)
    (hroom : d.line.length + s.length < shellMaxLine) :
    ∃ d', d.keys (typed s) = (s, d') ∧ d'.line = d.line ++ s ∧ d'.files = d.files ∧ d'.down = false := by
  induction s generalizing d with
  | nil => exact ⟨d, rfl, (List.append_nil _).symm, rfl, hup⟩
  | cons c s ih =>
      rw [List.length_cons] at hroom
      have hkey := key_char hup (hchars c List.mem_cons_self) (by omega)
      obtain ⟨d', hrest, hline, hfiles, hdown⟩ := @ih (put [c] { d with line := d.line ++ [c] }).sync hup
        (fun c hc => hchars c (List.mem_cons_of_mem _ hc))
        (by
          have hlen : (d.line ++ [c]).length = d.line.length + 1 := List.length_append
          show (d.line ++ [c]).length + s.length < shellMaxLine
          omega)
      refine ⟨d', ?_, ?_, hfiles, hdown⟩
      · unfold typed at hrest ⊢
        rw [List.map_cons, keys, hkey, hrest]
        rfl
      · rw [hline]
        exact List.append_assoc d.line [c] s

/-- A line is typed and entered. -/
theorem keys_entered (hup : d.down = false) (hempty : d.line = []) {out : Line} {files : Store}
    (hchars : ∀ c ∈ s, 32 ≤ c.toNat ∧ c.toNat ≤ 126) (hroom : s.length < shellMaxLine)
    (hrun : ∀ d' : Desk, d'.files = d.files → d'.down = false →
      ∃ d'', d'.run (arguments shellMaxArgs s) = (out, d'') ∧ d''.files = files ∧ d''.down = false) :
    (d.keys (entered s)).1 = s ++ newline :: (out ++ bytesOf "k> ") ∧
      (d.keys (entered s)).2.files = files := by
  obtain ⟨d', htyped, hline, hfiles, hdown⟩ :=
    keys_typed hup hchars (by rw [hempty, List.length_nil]; omega)
  rw [hempty, List.nil_append] at hline
  obtain ⟨d'', hrun', hfiles', hdown'⟩ := hrun (d'.put [newline]) hfiles hdown
  have henter : d'.key 13 = (newline :: (out ++ bytesOf "k> "),
      (put (bytesOf "k> ") { d'' with line := [] }).sync) := by
    have hrunning : ¬ d'.down = true := by
      rw [hdown]
      exact Bool.false_ne_true
    unfold key
    rw [if_neg hrunning, if_neg (by decide), if_pos (.inl rfl), enter, hline]
    dsimp only
    rw [hrun']
    dsimp only
    rw [hdown', if_neg Bool.false_ne_true]
    rfl
  rw [entered, keys_append, htyped]
  dsimp only
  rw [keys, henter, keys]
  dsimp only
  rw [List.append_nil]
  exact ⟨rfl, hfiles'⟩

/-! ## What was written is there until the file is written again or removed -/

/-- A command that can change what the file of that name holds. -/
def alters (name : Line) : List Line → Bool
  | cmd :: path :: _ =>
      (cmd = bytesOf "write" || cmd = bytesOf "rm") && normalizeName (some path) = some name
  | _ => false

/-- None of the keys runs such a command. -/
def spares (name : Line) : List Int → Desk → Bool
  | [], _ => true
  | ch :: chs, d =>
      !((ch = 13 || ch = 10) && alters name (arguments shellMaxArgs d.line)) &&
        spares name chs (d.key ch).2

variable {path name content : Line}

theorem touch_keeps (hname : normalizeName (some path) = some name)
    (hread : d.files.read path = some content) (path' : Line) :
    (d.touch path').2.files.read path = some content := by
  unfold touch
  cases htouch : d.files.touch path' with
  | none => exact hread
  | some files =>
      dsimp only
      rw [Store.read_edit htouch hname, hread]
      exact ite_self _

theorem write_keeps (hname : normalizeName (some path) = some name)
    (hread : d.files.read path = some content) {path' : Line}
    (hother : normalizeName (some path') ≠ some name) (words : List Line) :
    (d.write path' words).2.files.read path = some content := by
  unfold write
  cases hwrite : d.files.write path' (joined words) with
  | none => exact hread
  | some files =>
      dsimp only
      rw [Store.read_edit hwrite hname, if_neg hother, hread]

theorem rm_keeps (hname : normalizeName (some path) = some name)
    (hread : d.files.read path = some content) {path' : Line}
    (hother : normalizeName (some path') ≠ some name) :
    (d.rm path').2.files.read path = some content := by
  unfold rm
  cases hremove : d.files.remove path' with
  | none => exact hread
  | some files =>
      dsimp only
      rw [Store.read_remove hremove hname hother, hread]

/-- What holds of the desk after each command holds of it after the line. -/
theorem run_cases {motive : Desk → Prop} {args : List Line} (hsame : motive d)
    (htouch : ∀ path, motive (d.touch path).2)
    (hwrite : ∀ path words, args = bytesOf "write" :: path :: words → motive (d.write path words).2)
    (hrm : ∀ path rest, args = bytesOf "rm" :: path :: rest → motive (d.rm path).2)
    (himg : motive d.img.2) (hfm : motive d.fm.2) (hdown : motive { d with down := true }) :
    motive (d.run args).2 := by
  cases args with
  | nil => exact hsame
  | cons cmd args =>
      unfold run
      dsimp only
      by_cases hcmd : cmd = bytesOf "help"
      · rw [if_pos hcmd]
        exact hsame
      rw [if_neg hcmd]
      by_cases hcmd : cmd = bytesOf "ls"
      · rw [if_pos hcmd]
        exact hsame
      rw [if_neg hcmd]
      by_cases hcmd : cmd = bytesOf "cat"
      · rw [if_pos hcmd]
        cases args with
        | nil => exact hsame
        | cons path rest =>
            dsimp only
            unfold cat
            cases d.files.read path with
            | none => exact hsame
            | some content => exact hsame
      rw [if_neg hcmd]
      by_cases hcmd : cmd = bytesOf "touch"
      · rw [if_pos hcmd]
        cases args with
        | nil => exact hsame
        | cons path rest => exact htouch path
      rw [if_neg hcmd]
      by_cases hcmd : cmd = bytesOf "gui"
      · rw [if_pos hcmd]
        exact hsame
      rw [if_neg hcmd]
      by_cases hcmd : cmd = bytesOf "write"
      · rw [if_pos hcmd]
        cases args with
        | nil => exact hsame
        | cons path words =>
            cases words with
            | nil => exact hsame
            | cons word words => exact hwrite _ _ (by rw [hcmd])
      rw [if_neg hcmd]
      by_cases hcmd : cmd = bytesOf "img"
      · rw [if_pos hcmd]
        cases args with
        | nil => exact hsame
        | cons path rest => exact himg
      rw [if_neg hcmd]
      by_cases hcmd : cmd = bytesOf "fm"
      · rw [if_pos hcmd]
        exact hfm
      rw [if_neg hcmd]
      by_cases hcmd : cmd = bytesOf "rm"
      · rw [if_pos hcmd]
        cases args with
        | nil => exact hsame
        | cons path rest => exact hrm _ _ (by rw [hcmd])
      rw [if_neg hcmd]
      by_cases hcmd : cmd = bytesOf "shutdown"
      · rw [if_pos hcmd]
        exact hdown
      · rw [if_neg hcmd]
        exact hsame

theorem img_files (d : Desk) : d.img.2.files = d.files := by
  unfold img
  split <;> rfl

theorem fm_files (d : Desk) : d.fm.2.files = d.files := by
  unfold fm
  split <;> rfl

/-- A command that does not alter the file. -/
theorem run_keeps (hname : normalizeName (some path) = some name)
    (hread : d.files.read path = some content) {args : List Line} (hargs : alters name args = false) :
    (d.run args).2.files.read path = some content := by
  have hother : ∀ cmd path' rest, args = cmd :: path' :: rest →
      cmd = bytesOf "write" ∨ cmd = bytesOf "rm" → normalizeName (some path') ≠ some name := by
    rintro cmd path' rest rfl hcmd hsame
    have hcmd' : (cmd = bytesOf "write" || cmd = bytesOf "rm" : Bool) = true := by
      rw [Bool.or_eq_true, decide_eq_true_iff, decide_eq_true_iff]
      exact hcmd
    rw [alters, hcmd', decide_eq_true hsame] at hargs
    exact Bool.false_ne_true hargs.symm
  apply @run_cases d fun d' => d'.files.read path = some content
  · exact hread
  · exact touch_keeps hname hread
  · exact fun path' words hline => write_keeps hname hread (hother _ _ _ hline (.inl rfl)) words
  · exact fun path' rest hline => rm_keeps hname hread (hother _ _ _ hline (.inr rfl))
  · rw [img_files]
    exact hread
  · rw [fm_files]
    exact hread
  · exact hread

theorem key_keeps (hname : normalizeName (some path) = some name)
    (hread : d.files.read path = some content) {ch : Int}
    (hkey : ch = 13 ∨ ch = 10 → alters name (arguments shellMaxArgs d.line) = false) :
    (d.key ch).2.files.read path = some content := by
  unfold key
  by_cases hdown : d.down = true
  · rw [if_pos hdown]
    exact hread
  rw [if_neg hdown]
  by_cases hnone : ch < 0
  · rw [if_pos hnone]
    exact hread
  rw [if_neg hnone]
  by_cases henter : ch = 13 ∨ ch = 10
  · rw [if_pos henter]
    have hrun := @run_keeps (d.put [newline]) path name content hname hread _ (hkey henter)
    unfold enter
    dsimp only
    by_cases hafter : ((d.put [newline]).run (arguments shellMaxArgs d.line)).2.down = true
    · rw [if_pos hafter]
      exact hrun
    · rw [if_neg hafter]
      exact hrun
  rw [if_neg henter]
  by_cases herase : ch = 8 ∨ ch = 127
  · rw [if_pos herase, erase]
    split
    · exact hread
    · unfold unput
      split <;> exact hread
  rw [if_neg herase]
  by_cases htype : 32 ≤ ch ∧ ch ≤ 126
  · rw [if_pos htype, type]
    split <;> exact hread
  · rw [if_neg htype]
    exact hread

/-- Over any keys that do not alter it, a file keeps what it holds. -/
theorem keys_keep (hname : normalizeName (some path) = some name)
    (hread : d.files.read path = some content) {chs : List Int} (hspares : spares name chs d = true) :
    (d.keys chs).2.files.read path = some content := by
  induction chs generalizing d with
  | nil => exact hread
  | cons ch chs ih =>
      rw [spares, Bool.and_eq_true, Bool.not_eq_true'] at hspares
      obtain ⟨hkey, hrest⟩ := hspares
      refine ih (key_keeps hname hread fun henter => ?_) hrest
      have hpressed : (ch = 13 || ch = 10 : Bool) = true := by
        rw [Bool.or_eq_true, decide_eq_true_iff, decide_eq_true_iff]
        exact henter
      rw [hpressed, Bool.true_and] at hkey
      exact hkey

/-- The line that writes the words to the file. -/
def writeLine (path : Line) (words : List Line) : Line := joined (bytesOf "write" :: path :: words)

/-- The line that shows the file. -/
def catLine (path : Line) : Line := joined [bytesOf "cat", path]

theorem word_write : Word (bytesOf "write") := .of_all (by decide) (by decide)

theorem word_cat : Word (bytesOf "cat") := .of_all (by decide) (by decide)

/-- Words that can be written to a file of that path with one line. -/
structure Writable (path : Line) (words : List Line) : Prop where
  target : Word path
  each : ∀ w ∈ words, Word w
  some : words ≠ []
  few : words.length + 2 ≤ shellMaxArgs
  short : (writeLine path words).length < shellMaxLine

variable {words : List Line}

theorem Writable.joined_length (h : Writable path words) :
    (joined words).length + path.length + 7 = (writeLine path words).length := by
  obtain ⟨word, words, rfl⟩ := List.exists_cons_of_ne_nil h.some
  unfold writeLine joined
  simp only [List.flatMap_cons, List.length_append]
  have hblank : (bytesOf " ").length = 1 := rfl
  have hwrite : (bytesOf "write").length = 5 := rfl
  omega

/-- The line is entered: the file holds the words. -/
theorem keys_write (h : Writable path words) (hname : normalizeName (some path) = some name)
    (hroom : (d.files.place name).isSome = true) (hup : d.down = false) (hempty : d.line = []) :
    (d.keys (entered (writeLine path words))).1 = writeLine path words ++ newline :: bytesOf "k> " ∧
      (d.keys (entered (writeLine path words))).2.files.read path = some (joined words) := by
  obtain ⟨word, rest, hcons⟩ := List.exists_cons_of_ne_nil h.some
  have hwords : ∀ w ∈ path :: words, Word w := by
    intro w hw
    cases hw with
    | head => exact h.target
    | tail _ hw => exact h.each w hw
  have hargs : arguments shellMaxArgs (writeLine path words) = bytesOf "write" :: path :: words :=
    arguments_joined word_write hwords h.few
  obtain ⟨⟨i, old⟩, hplace⟩ := Option.isSome_iff_exists.mp hroom
  -- What the store does.
  obtain ⟨files, hfiles⟩ : ∃ files, d.files.write path (joined words) = some files := by
    unfold Store.write Store.edit
    rw [hname, Option.bind_some, hplace]
    exact ⟨_, rfl⟩
  have hread : files.read path = some (joined words) := by
    have hfits : (joined words).length ≤ ramfsDataMax := by
      have hlen := h.joined_length
      have hshort : (writeLine path words).length < 128 := h.short
      have hmax : ramfsDataMax = 1024 := rfl
      omega
    rw [Store.read_edit hfiles hname, if_pos hname, List.take_of_length_le hfits]
  have hrun : ∀ d' : Desk, d'.files = d.files → d'.down = false →
      ∃ d'', d'.run (arguments shellMaxArgs (writeLine path words)) = ([], d'') ∧ d''.files = files ∧
        d''.down = false := by
    intro d' hsame hdown
    have hwrite : d'.write path words =
        ([], { d' with files := files, paths := addPath path d'.paths }) := by
      unfold write
      rw [hsame, hfiles]
    refine ⟨{ d' with files := files, paths := addPath path d'.paths }, ?_, rfl, hdown⟩
    rw [hargs]
    rw [hcons] at hwrite ⊢
    exact hwrite
  have hchars : ∀ c ∈ writeLine path words, 32 ≤ c.toNat ∧ c.toNat ≤ 126 := joined_chars fun w hw => by
    cases hw with
    | head => exact word_write
    | tail _ hw => exact hwords w hw
  obtain ⟨hout, hafter⟩ := keys_entered hup hempty hchars h.short hrun
  rw [hafter]
  exact ⟨hout, hread⟩

/-- A file is shown as it is. -/
theorem keys_cat (hpath : Word path) (hshort : (catLine path).length < shellMaxLine)
    (hread : d.files.read path = some content) (hup : d.down = false) (hempty : d.line = []) :
    (d.keys (entered (catLine path))).1 =
      catLine path ++ newline :: (content ++ newline :: bytesOf "k> ") := by
  have hwords : ∀ w ∈ [path], Word w := by
    intro w hw
    obtain rfl := List.mem_singleton.mp hw
    exact hpath
  have hargs : arguments shellMaxArgs (catLine path) = [bytesOf "cat", path] :=
    arguments_joined word_cat hwords (by rw [List.length_singleton]; decide)
  have hrun : ∀ d' : Desk, d'.files = d.files → d'.down = false →
      ∃ d'', d'.run (arguments shellMaxArgs (catLine path)) = (content ++ [newline], d'') ∧
        d''.files = d.files ∧ d''.down = false := by
    intro d' hsame hdown
    have hcat : d'.cat path = (content ++ [newline], d') := by
      unfold cat
      rw [hsame, hread]
    refine ⟨d', ?_, hsame, hdown⟩
    rw [hargs]
    exact hcat
  have hchars : ∀ c ∈ catLine path, 32 ≤ c.toNat ∧ c.toNat ≤ 126 := joined_chars fun w hw => by
    cases hw with
    | head => exact word_cat
    | tail _ hw => exact hwords w hw
  rw [(keys_entered hup hempty hchars hshort hrun).1, List.append_assoc]
  rfl

end Desk

section

variable {p : Fin procMax} {sh : Shell} (wild : Nat → Int → UInt32) (gpu : Option (Int × Int))

/-- Words are written to a file from a run's empty line; whatever is entered then, `cat` shows
them unless the file was written again or removed. -/
theorem written_stays (h : Boots p sh) {turns : Nat} (hturns : shellMaxLine < turns)
    {path name : Line} {words : List Line} {before between : List Int} {d₁ d₂ : Desk}
    (hwords : Desk.Writable path words) (hname : normalizeName (some path) = some name)
    (hd₁ : ((Desk.start (Inodes.store sh.sys.inodes)).keys before).2 = d₁)
    (hup₁ : d₁.down = false) (hempty₁ : d₁.line = []) (hroom : (d₁.files.place name).isSome = true)
    (hd₂ : (d₁.keys (entered (Desk.writeLine path words))).2 = d₂)
    (hspares : Desk.spares name between d₂ = true)
    (hup₂ : (d₂.keys between).2.down = false) (hempty₂ : (d₂.keys between).2.line = []) :
    ∃ sh₁ sh₂, shellKeys wild turns (before ++ entered (Desk.writeLine path words) ++ between)
        (userInitEntry wild gpu sh) = some sh₁ ∧
      shellKeys wild turns (entered (Desk.catLine path)) sh₁ = some sh₂ ∧
      sh₂.sbi.sent = sh₁.sbi.sent ++
        (Desk.catLine path ++ newline :: (joined words ++ newline :: bytesOf "k> ")) := by
  obtain ⟨hstart, -⟩ := h.start wild gpu
  obtain ⟨sh₁, hkeys₁, hshows₁, -⟩ :=
    hstart.keys wild hturns (before ++ entered (Desk.writeLine path words) ++ between)
  obtain ⟨sh₂, hkeys₂, -, hsent₂⟩ := hshows₁.keys wild hturns (entered (Desk.catLine path))
  refine ⟨sh₁, sh₂, hkeys₁, hkeys₂, ?_⟩
  rw [hsent₂, Syscall.Sbi.say_sent]
  congr 1
  rw [Desk.keys_append, Desk.keys_append]
  dsimp only
  rw [hd₁, hd₂]
  have hread : d₂.files.read path = some (joined words) := by
    rw [← hd₂]
    exact (Desk.keys_write hwords hname hroom hup₁ hempty₁).2
  have hshort : (Desk.catLine path).length < shellMaxLine := by
    have hlen := hwords.joined_length
    have hline := hwords.short
    have hcat : (Desk.catLine path).length = path.length + 4 := by
      unfold Desk.catLine joined
      simp only [List.flatMap_cons, List.flatMap_nil, List.append_nil, List.length_append]
      have hblank : (bytesOf " ").length = 1 := rfl
      have hname : (bytesOf "cat").length = 3 := rfl
      omega
    omega
  exact Desk.keys_cat hwords.target hshort (Desk.keys_keep hname hread hspares) hup₂ hempty₂

end

/-- `write /note so it is`. -/
def noteWords : List Line := [bytesOf "so", bytesOf "it", bytesOf "is"]

def noteDesk : Desk :=
  ((Desk.start (Inodes.store fsInit)).keys (entered (Desk.writeLine (bytesOf "/note") noteWords))).2

theorem noteWords_writable : Desk.Writable (bytesOf "/note") noteWords where
  target := .of_all (by decide) (by decide)
  each := List.forall_mem_cons.mpr ⟨.of_all (by decide) (by decide),
    List.forall_mem_cons.mpr ⟨.of_all (by decide) (by decide),
      List.forall_mem_cons.mpr ⟨.of_all (by decide) (by decide), fun _ hw => absurd hw List.not_mem_nil⟩⟩⟩
  some := by decide
  few := by decide
  short := by decide

theorem written_stays_small : ∃ k sh₁ sh₂, smallRun shellOps = some k ∧
    shellKeys (fun _ _ => 0) 200
      ([] ++ entered (Desk.writeLine (bytesOf "/note") noteWords) ++ entered (bytesOf "rm README"))
      (userInitEntry (fun _ _ => 0) none (smallShell k)) = some sh₁ ∧
    shellKeys (fun _ _ => 0) 200 (entered (Desk.catLine (bytesOf "/note"))) sh₁ = some sh₂ ∧
    sh₂.sbi.sent = sh₁.sbi.sent ++ bytesOf "cat /note\nso it is\nk> " := by
  obtain ⟨k, hk, hboots⟩ := smallShell_boots
  have hturns : shellMaxLine < 200 := by decide
  have hname : normalizeName (some (bytesOf "/note")) = some (bytesOf "note") := by decide
  have hstart : ((Desk.start (Inodes.store (smallShell k).sys.inodes)).keys []).2 =
      Desk.start (Inodes.store fsInit) := rfl
  have hroom : ((Desk.start (Inodes.store fsInit)).files.place (bytesOf "note")).isSome = true := by
    decide +kernel
  have hspares : Desk.spares (bytesOf "note") (entered (bytesOf "rm README")) noteDesk = true := by
    decide +kernel
  have hafter : (noteDesk.keys (entered (bytesOf "rm README"))).2.down = false ∧
      (noteDesk.keys (entered (bytesOf "rm README"))).2.line = [] := by decide +kernel
  obtain ⟨sh₁, sh₂, hkeys₁, hkeys₂, hsent⟩ := written_stays (fun _ _ => 0) none hboots hturns
    noteWords_writable hname hstart rfl rfl hroom rfl hspares hafter.1 hafter.2
  exact ⟨k, sh₁, sh₂, hk, hkeys₁, hkeys₂, hsent⟩

end Sugimotos.Apps
