/-
# What the terminal's window says

The window has what was entered, each line behind its prompt, and the line that is being typed, as
long as all of it fits the text of a window.  What the commands print goes to the console only.
-/

import Sugimotos.Apps.ShellRuns

namespace Sugimotos.Apps

open Sugimotos.Lib Sugimotos.Fs Sugimotos.Mm Sugimotos.Proc

namespace Desk

variable {d : Desk} {done : Line}

/-- A line was entered and a prompt printed. -/
def prompted (ch : Int) (d : Desk) : Bool := (ch = 13 || ch = 10) && !(d.key ch).2.down

/-- The text in front of the line that is being typed, after some keys. -/
def page : List Int → Desk → Line → Line
  | [], _, done => done
  | ch :: chs, d, done =>
      page chs (d.key ch).2
        (if prompted ch d then done ++ d.line ++ newline :: bytesOf "k> " else done)

/-- The window has that text and the line. -/
structure Paged (d : Desk) (done : Line) : Prop where
  view : d.view = done ++ d.line
  shown : d.shown = d.view
  plain : ∀ c ∈ d.line, c ≠ newline
  short : d.line.length < shellMaxLine

theorem page_length (chs : List Int) (d : Desk) (done : Line) :
    done.length ≤ (page chs d done).length := by
  induction chs generalizing d done with
  | nil => exact Nat.le_refl _
  | cons ch chs ih =>
      rw [page]
      refine Nat.le_trans ?_ (ih _ _)
      split
      · rw [List.append_assoc, List.length_append]
        exact Nat.le_add_right _ _
      · exact Nat.le_refl _

/-- Without the shutdown at the end there was none before. -/
theorem keys_up {chs : List Int} (h : (d.keys chs).2.down = false) : d.down = false := by
  induction chs generalizing d with
  | nil => exact h
  | cons ch chs ih =>
      cases hdown : d.down with
      | false => rfl
      | true =>
          have hafter := ih h
          unfold key at hafter
          rw [if_pos hdown, hdown] at hafter
          exact hafter

/-- The commands print to the console. -/
theorem run_terminal (d : Desk) (args : List Line) :
    (d.run args).2.view = d.view ∧ (d.run args).2.shown = d.shown := by
  apply @run_cases d fun d' => d'.view = d.view ∧ d'.shown = d.shown
  · exact ⟨rfl, rfl⟩
  · intro path
    unfold touch
    cases d.files.touch path <;> exact ⟨rfl, rfl⟩
  · intro path words _
    unfold write
    cases d.files.write path (joined words) <;> exact ⟨rfl, rfl⟩
  · intro path _ _
    unfold rm
    cases d.files.remove path <;> exact ⟨rfl, rfl⟩
  · unfold img
    split <;> exact ⟨rfl, rfl⟩
  · unfold fm
    split <;> exact ⟨rfl, rfl⟩
  · exact ⟨rfl, rfl⟩

/-- Text for which there is room is added as it is. -/
theorem put_view {s : Line} (h : (d.view ++ s).length < Gui.wmTextMax) : (d.put s).view = d.view ++ s :=
  List.take_of_length_le (Nat.le_sub_one_of_lt h)

theorem Paged.enter (h : Paged d done)
    (hfits : (done ++ d.line ++ newline :: bytesOf "k> ").length < Gui.wmTextMax)
    (hup : d.enter.2.down = false) : Paged d.enter.2 (done ++ d.line ++ newline :: bytesOf "k> ") := by
  have hrun := run_terminal (d.put [newline]) (arguments shellMaxArgs d.line)
  have hlength : (done ++ d.line ++ newline :: bytesOf "k> ").length =
      (done ++ d.line).length + 4 := List.length_append
  have hput : (d.put [newline]).view = done ++ d.line ++ [newline] := by
    rw [put_view, h.view]
    rw [h.view, List.length_append, List.length_singleton]
    omega
  unfold Desk.enter at hup ⊢
  dsimp only at hup ⊢
  generalize (d.put [newline]).run (arguments shellMaxArgs d.line) = r at hrun hup ⊢
  have hdown : ¬ r.2.down = true := by
    intro hdown
    rw [if_pos hdown] at hup
    rw [hdown] at hup
    exact Bool.false_ne_true hup.symm
  rw [if_neg hdown]
  have hview : (put (bytesOf "k> ") { r.2 with line := [] }).view =
      done ++ d.line ++ newline :: bytesOf "k> " := by
    have hlast : ({ r.2 with line := [] } : Desk).view ++ bytesOf "k> " =
        done ++ d.line ++ newline :: bytesOf "k> " := by
      show r.2.view ++ bytesOf "k> " = _
      rw [hrun.1, hput, List.append_assoc (done ++ d.line)]
      rfl
    rw [put_view, hlast]
    rw [hlast]
    exact hfits
  exact ⟨hview.trans (List.append_nil _).symm, rfl, fun c hc => absurd hc List.not_mem_nil,
    Nat.succ_pos 127⟩

theorem Paged.erase (h : Paged d done) : Paged d.erase.2 done := by
  unfold Desk.erase
  by_cases hempty : d.line = []
  · rw [if_pos hempty]
    exact h
  · rw [if_neg hempty]
    -- The last character is one of the line, so it is no newline.
    have hlast : ¬ d.view.getLast? = some newline := by
      rw [h.view, List.getLast?_append_of_ne_nil _ hempty, List.getLast?_eq_some_getLast hempty]
      exact fun heq => h.plain _ (List.getLast_mem hempty) (Option.some.inj heq)
    have hview : (unput { d with line := d.line.dropLast }).view = done ++ d.line.dropLast := by
      unfold unput
      dsimp only
      rw [if_neg hlast, h.view, List.dropLast_append_of_ne_nil hempty]
    have hline : (unput { d with line := d.line.dropLast }).line = d.line.dropLast := by
      unfold unput
      split <;> rfl
    refine ⟨?_, rfl, fun c hc => ?_, ?_⟩
    · show (unput { d with line := d.line.dropLast }).view =
        done ++ (unput { d with line := d.line.dropLast }).line
      rw [hview, hline]
    · have hmem : c ∈ (unput { d with line := d.line.dropLast }).line := hc
      rw [hline] at hmem
      exact h.plain c (List.dropLast_subset _ hmem)
    · show (unput { d with line := d.line.dropLast }).line.length < shellMaxLine
      rw [hline, List.length_dropLast]
      exact (Nat.sub_le _ _).trans_lt h.short

theorem Paged.type (h : Paged d done) (hfits : done.length + shellMaxLine ≤ Gui.wmTextMax) {c : UInt8}
    (hc : c ≠ newline) : Paged (d.type c).2 done := by
  unfold Desk.type
  by_cases hroom : d.line.length + 1 < shellMaxLine
  · rw [if_pos hroom]
    have hview : (put [c] { d with line := d.line ++ [c] }).view = done ++ (d.line ++ [c]) := by
      have hall : ({ d with line := d.line ++ [c] } : Desk).view ++ [c] = done ++ (d.line ++ [c]) := by
        rw [← List.append_assoc, ← h.view]
      rw [put_view, hall]
      rw [hall, List.length_append, List.length_append, List.length_singleton]
      omega
    refine ⟨hview, rfl, fun e he => ?_, ?_⟩
    · have hmem : e ∈ d.line ++ [c] := he
      cases List.mem_append.mp hmem with
      | inl hmem => exact h.plain e hmem
      | inr hmem =>
          rw [List.mem_singleton.mp hmem]
          exact hc
    · have hlength : (d.line ++ [c]).length = d.line.length + 1 := List.length_append
      show (d.line ++ [c]).length < shellMaxLine
      omega
  · rw [if_neg hroom]
    exact h

theorem Paged.key (h : Paged d done) {ch : Int} (hup : d.down = false)
    (hup' : (d.key ch).2.down = false)
    (hfits : (if prompted ch d then done ++ d.line ++ newline :: bytesOf "k> " else done).length +
      shellMaxLine ≤ Gui.wmTextMax) :
    Paged (d.key ch).2 (if prompted ch d then done ++ d.line ++ newline :: bytesOf "k> " else done) := by
  have hrunning : ¬ d.down = true := by
    rw [hup]
    exact Bool.false_ne_true
  by_cases hnone : ch < 0
  · have hno : prompted ch d = false := by
      rw [prompted, decide_eq_false (by omega), decide_eq_false (by omega)]
      rfl
    rw [hno, if_neg Bool.false_ne_true]
    unfold Desk.key
    rw [if_neg hrunning, if_pos hnone]
    exact h
  by_cases henter : ch = 13 ∨ ch = 10
  · have hyes : prompted ch d = true := by
      rw [prompted, hup']
      rcases henter with rfl | rfl <;> rfl
    rw [hyes, if_pos rfl] at hfits ⊢
    unfold Desk.key at hup' ⊢
    rw [if_neg hrunning, if_neg hnone, if_pos henter] at hup' ⊢
    exact h.enter (Nat.lt_of_lt_of_le (Nat.lt_add_of_pos_right (Nat.succ_pos 127)) hfits) hup'
  · have hno : prompted ch d = false := by
      rw [prompted, decide_eq_false fun heq => henter (.inl heq), decide_eq_false fun heq => henter (.inr heq)]
      rfl
    rw [hno, if_neg Bool.false_ne_true] at hfits ⊢
    unfold Desk.key
    rw [if_neg hrunning, if_neg hnone, if_neg henter]
    by_cases herase : ch = 8 ∨ ch = 127
    · rw [if_pos herase]
      exact h.erase
    rw [if_neg herase]
    by_cases htype : 32 ≤ ch ∧ ch ≤ 126
    · rw [if_pos htype]
      refine h.type hfits fun heq => ?_
      have hval := congrArg UInt8.toNat heq
      have hnewline : newline.toNat = 10 := rfl
      rw [UInt8.toNat_ofNat', hnewline] at hval
      omega
    · rw [if_neg htype]
      exact h

theorem Paged.keys (h : Paged d done) {chs : List Int} (hup : (d.keys chs).2.down = false)
    (hfits : (page chs d done).length + shellMaxLine ≤ Gui.wmTextMax) :
    Paged (d.keys chs).2 (page chs d done) := by
  induction chs generalizing d done with
  | nil => exact h
  | cons ch chs ih =>
      have hup' : (d.key ch).2.down = false := keys_up hup
      rw [page] at hfits ⊢
      exact ih (h.key (@keys_up d (ch :: chs) hup) hup'
        ((Nat.add_le_add_right (page_length _ _ _) _).trans hfits)) hup hfits

end Desk

/-- From the start of the shell on, the terminal's window has the banner, the lines that were
entered, each with its prompt, and the line that is being typed. -/
theorem terminal_exact {p : Fin procMax} {sh : Shell} (wild : Nat → Int → UInt32)
    (gpu : Option (Int × Int)) (h : Boots p sh) {turns : Nat} (hturns : shellMaxLine < turns)
    {chs : List Int} {d : Desk} (hd : Desk.start (Inodes.store sh.sys.inodes) = d)
    (hup : (d.keys chs).2.down = false)
    (hfits : (Desk.page chs d banner).length + shellMaxLine ≤ Gui.wmTextMax) :
    ∃ sh', shellKeys wild turns chs (userInitEntry wild gpu sh) = some sh' ∧
      Gui.wmFind sh'.wm sh'.mainWin = some mainSlot ∧
      IsString (sh'.wm.windows mainSlot).text 0 (Desk.page chs d banner ++ (d.keys chs).2.line) := by
  obtain ⟨hstart, -⟩ := h.start wild gpu
  rw [hd] at hstart
  obtain ⟨sh', hkeys, hshows, -⟩ := hstart.keys wild hturns chs
  have hpaged : Desk.Paged d banner := by
    rw [← hd]
    exact ⟨(List.append_nil _).symm, rfl, fun c hc => absurd hc List.not_mem_nil, Nat.succ_pos 127⟩
  have hafter := hpaged.keys hup hfits
  refine ⟨sh', hkeys, ?_, ?_⟩
  · obtain ⟨i, hi, hfind⟩ := hshows.windows.find hshows.terminal.opened
    obtain rfl : i = mainSlot := Fin.ext hi
    rw [hshows.terminal.main]
    exact hfind
  · rw [← hafter.view, ← hafter.shown]
    exact hshows.terminal.text

/-- The keys of `smallKeys` on the terminal's window. -/
theorem terminal_exact_small : ∃ k sh', smallRun shellOps = some k ∧
    shellKeys (fun _ _ => 0) 200 smallKeys (userInitEntry (fun _ _ => 0) none (smallShell k)) = some sh' ∧
    IsString (sh'.wm.windows mainSlot).text 0
      (bytesOf "kernel:shell integrated (S-mode)\nk> touch a\nk> ls\nk> ") := by
  obtain ⟨k, hk, hboots⟩ := smallShell_boots
  have hturns : shellMaxLine < 200 := by decide
  have hstart : Desk.start (Inodes.store (smallShell k).sys.inodes) = Desk.start (Inodes.store fsInit) := rfl
  have hup : ((Desk.start (Inodes.store fsInit)).keys smallKeys).2.down = false := by decide +kernel
  have hfits : (Desk.page smallKeys (Desk.start (Inodes.store fsInit)) banner).length + shellMaxLine ≤
      Gui.wmTextMax := by decide +kernel
  obtain ⟨sh', hkeys, -, htext⟩ := terminal_exact (fun _ _ => 0) none hboots hturns hstart hup hfits
  have hpage : Desk.page smallKeys (Desk.start (Inodes.store fsInit)) banner ++
      ((Desk.start (Inodes.store fsInit)).keys smallKeys).2.line =
      bytesOf "kernel:shell integrated (S-mode)\nk> touch a\nk> ls\nk> " := by decide +kernel
  refine ⟨k, sh', hk, hkeys, ?_⟩
  rw [← hpage]
  exact htext

end Sugimotos.Apps
