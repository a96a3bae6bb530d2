/-
# The shell at its keyboard

The events of the input devices arrive while the shell runs: `virtio_input_handle_irq` pushes them
at any time, and each turn of the shell's loop asks `u_getchar` for a character, which asks the
serial console when the keyboard has none.  What is printed depends on the characters that the
turns get alone; as long as the two queues of the keyboard have room, those are all the characters
of the keys and of the serial console, each in its order.  What the drivers print is left out.
-/

import Sugimotos.Apps.ShellRuns

namespace Sugimotos.Apps

open Sugimotos.Lib Sugimotos.Fs Sugimotos.Mm Sugimotos.Proc Sugimotos.Event

/-- The queues of the keyboard, and the shell. -/
structure Console where
  keyboard : Kevents × InputQ
  shell : Shell

inductive ConsoleOp
  /-- An event arrives. -/
  | push (type a b c d : UInt32)
  /-- The serial console has another character. -/
  | type (ch : UInt8)
  /-- A turn of the loop in `user_init_entry`. -/
  | turn
  deriving DecidableEq

def keyboardStep : ConsoleOp → Kevents × InputQ → Kevents × InputQ
  | .push type a b c d, s => ((keventPush type a b c d s.1).2, s.2)
  | .type _, s => s
  | .turn, s => (uGetchar s).2

def keyboardRun (ops : List ConsoleOp) (s : Kevents × InputQ) : Kevents × InputQ :=
  ops.foldl (fun s op => keyboardStep op s) s

/-- `u_getchar`, with the `getchar` at its end. -/
def consoleKey (s : Console) : Int × Console :=
  let key := uGetchar s.keyboard
  if key.1 ≥ 0 then (key.1, ⟨key.2, s.shell⟩)
  else
    let ch := Syscall.getchar s.shell.sbi
    (ch.1, ⟨key.2, { s.shell with sbi := ch.2 }⟩)

section

variable (wild : Nat → Int → UInt32)

def consoleStep (turns : Nat) : ConsoleOp → Console → Option Console
  | .push type a b c d, s => some { s with keyboard := keyboardStep (.push type a b c d) s.keyboard }
  | .type ch, s =>
      some { s with shell :=
        { s.shell with sbi := { s.shell.sbi with typed := s.shell.sbi.typed ++ [ch] } } }
  | .turn, s =>
      (shellKey wild turns (consoleKey s).1 (consoleKey s).2.shell).map fun sh =>
        ⟨(consoleKey s).2.keyboard, sh⟩

def consoleRun (turns : Nat) : List ConsoleOp → Console → Option Console
  | [], s => some s
  | op :: ops, s => (consoleStep wild turns op s).bind (consoleRun turns ops)

end

/-! ## What the turns get -/

/-- What of a call's result is a character. -/
def got (ch : Int) : List Int := if ch ≥ 0 then [ch] else []

/-- What there is to read: the queues of the keyboard and the characters of the serial console. -/
structure Inputs where
  keyboard : Kevents × InputQ
  serial : Line

def Inputs.getchar (s : Inputs) : Int × Inputs :=
  let key := uGetchar s.keyboard
  if key.1 ≥ 0 then (key.1, ⟨key.2, s.serial⟩)
  else
    match s.serial with
    | [] => (-1, ⟨key.2, []⟩)
    | ch :: serial => (ch.toNat, ⟨key.2, serial⟩)

def Inputs.step : ConsoleOp → Inputs → Inputs
  | .push type a b c d, s => { s with keyboard := keyboardStep (.push type a b c d) s.keyboard }
  | .type ch, s => { s with serial := s.serial ++ [ch] }
  | .turn, s => s.getchar.2

def Inputs.run (ops : List ConsoleOp) (s : Inputs) : Inputs := ops.foldl (fun s op => Inputs.step op s) s

/-- The characters that the turns of a run get. -/
def heard : List ConsoleOp → Inputs → List Int
  | [], _ => []
  | .push type a b c d :: ops, s => heard ops (Inputs.step (.push type a b c d) s)
  | .type ch :: ops, s => heard ops (Inputs.step (.type ch) s)
  | .turn :: ops, s => got s.getchar.1 ++ heard ops (Inputs.step .turn s)

/-- One list is made of two others, each in its order. -/
inductive Merge {α : Type} : List α → List α → List α → Prop
  | nil : Merge [] [] []
  | left {x : α} {xs ys zs : List α} (h : Merge xs ys zs) : Merge (x :: xs) ys (x :: zs)
  | right {y : α} {xs ys zs : List α} (h : Merge xs ys zs) : Merge xs (y :: ys) (y :: zs)

/-! ## What is pressed and what is kept -/

/-- The events that arrive.  Their numbers say nothing about the keys. -/
def arrivals : List ConsoleOp → List KEvent
  | [] => []
  | .push type a b c d :: ops => ⟨type, a, b, c, d, 0⟩ :: arrivals ops
  | .type _ :: ops => arrivals ops
  | .turn :: ops => arrivals ops

/-- The characters that arrive at the serial console. -/
def serialArrivals : List ConsoleOp → Line
  | [] => []
  | .type ch :: ops => ch :: serialArrivals ops
  | .push .. :: ops => serialArrivals ops
  | .turn :: ops => serialArrivals ops

/-- An event finds a free cell, and the characters of the next events fit the input queue. -/
def keeps : ConsoleOp → Kevents × InputQ → Bool
  | .push .., s => s.1.contents.length < 127
  | .type _, _ => true
  | .turn, s => !s.2.contents.isEmpty || (decodeKeys s.2.shift (s.1.contents.take 32)).length ≤ 15

def keepsAll : List ConsoleOp → Kevents × InputQ → Bool
  | [], _ => true
  | op :: ops, s => keeps op s && keepsAll ops (keyboardStep op s)

/-- The characters in the queues. -/
def spelled (s : Kevents × InputQ) : Line := s.2.contents ++ decodeKeys s.2.shift s.1.contents

section

variable {s : Kevents × InputQ} {events : Kevents} {q : InputQ}

/-- A pop gives the first character that is spelled, if it is in the input queue. -/
theorem inputQPop_spelled (h : ShellInv (events, q)) :
    ShellInv (events, (inputQPop q).2) ∧
      got (inputQPop q).1 ++ typed (spelled (events, (inputQPop q).2)) = typed (spelled (events, q)) ∧
      (inputQPop q).2.shift = q.shift ∧
      (¬ (inputQPop q).1 ≥ 0 → q.contents = [] ∧ (inputQPop q).2 = q) ∧
      (inputQPop q).2.contents.length = q.contents.length - 1 := by
  have hpop := inputQPop_spec h.input
  dsimp only at hpop
  cases hcontents : q.contents with
  | nil =>
      rw [hcontents] at hpop
      dsimp only at hpop
      rw [hpop]
      refine ⟨h, ?_, rfl, fun _ => ⟨rfl, rfl⟩, ?_⟩
      · rw [got, if_neg (show ¬ (-1 : Int) ≥ 0 by decide), List.nil_append]
      · rw [hcontents]
        rfl
  | cons ch rest =>
      rw [hcontents] at hpop
      obtain ⟨hch, hrest, hring, hshift⟩ := hpop
      have hpos : (inputQPop q).1 ≥ 0 := by
        rw [hch]
        exact Int.natCast_nonneg _
      refine ⟨⟨h.events, hring⟩, ?_, hshift, fun hneg => absurd hpos hneg, ?_⟩
      · unfold spelled
        dsimp only
        rw [got, if_pos hpos, hrest, hshift, hcontents, hch]
        rfl
      · rw [hrest]
        rfl

/-- A call of `u_getchar` gives the next character that is spelled, if there is one. -/
theorem uGetchar_spelled (h : ShellInv s) (hkeeps : keeps .turn s = true) :
    ShellInv (uGetchar s).2 ∧
      got (uGetchar s).1 ++ typed (spelled (uGetchar s).2) = typed (spelled s) ∧
      shiftAfter (uGetchar s).2.2.shift (uGetchar s).2.1.contents = shiftAfter s.2.shift s.1.contents := by
  obtain ⟨hinv, hspelled, hshift, hnone, -⟩ := inputQPop_spelled h
  unfold uGetchar
  dsimp only
  by_cases hpos : (inputQPop s.2).1 ≥ 0
  · rw [if_pos hpos]
    exact ⟨hinv, hspelled, by rw [hshift]⟩
  · obtain ⟨hempty, hsame⟩ := hnone hpos
    rw [if_neg hpos, hsame]
    have hfits : (decodeKeys s.2.shift (s.1.contents.take 32)).length ≤ 15 := by
      rw [keeps, hempty] at hkeeps
      exact of_decide_eq_true hkeeps
    have hbatch : Batched 32 s (uGetcharLoop 32 (s.1, s.2)) := uGetcharLoop_batched 32 h
    generalize uGetcharLoop 32 (s.1, s.2) = s₁ at hbatch ⊢
    obtain ⟨hinv₁, hspelled₁, hshift₁, hnone₁, -⟩ := inputQPop_spelled hbatch.inv
    have hcontents : s₁.2.contents = decodeKeys s.2.shift (s.1.contents.take 32) := by
      rw [hbatch.contents, hempty, List.nil_append, List.take_of_length_le hfits]
    have hmoved : spelled s₁ = spelled s := by
      unfold spelled
      rw [hcontents, hbatch.shift, hbatch.events, hempty, List.nil_append, ← decodeKeys_split]
    have hshifts : shiftAfter s₁.2.shift s₁.1.contents = shiftAfter s.2.shift s.1.contents := by
      unfold shiftAfter at *
      rw [hbatch.shift, hbatch.events, shiftAfter, ← List.foldl_append, List.take_append_drop]
    by_cases hpos₁ : (inputQPop s₁.2).1 ≥ 0
    · rw [if_pos hpos₁]
      refine ⟨hinv₁, hspelled₁.trans (congrArg typed hmoved), ?_⟩
      rw [hshift₁]
      exact hshifts
    · rw [if_neg hpos₁, (hnone₁ hpos₁).2]
      refine ⟨hbatch.inv, ?_, hshifts⟩
      rw [got, if_neg (show ¬ getcharIdle ≥ 0 by decide), List.nil_append]
      exact congrArg typed hmoved

/-- An event that finds room is spelled last. -/
theorem keventPush_spelled (h : ShellInv s) {type a b c d : UInt32}
    (hkeeps : keeps (.push type a b c d) s = true) :
    ShellInv (keyboardStep (.push type a b c d) s) ∧
      spelled (keyboardStep (.push type a b c d) s) =
        spelled s ++ keyChars (shiftAfter s.2.shift s.1.contents) ⟨type, a, b, c, d, 0⟩ ∧
      shiftAfter (keyboardStep (.push type a b c d) s).2.shift
          (keyboardStep (.push type a b c d) s).1.contents =
        keyShift (shiftAfter s.2.shift s.1.contents) ⟨type, a, b, c, d, 0⟩ := by
  have hroom : s.1.contents.length ≠ 127 := Nat.ne_of_lt (of_decide_eq_true hkeeps)
  have hpush := keventPush_spec h.events type a b c d
  rw [if_neg hroom] at hpush
  refine ⟨⟨keventPush_inRing h.events type a b c d, h.input⟩, ?_, ?_⟩
  · unfold spelled keyboardStep
    dsimp only
    rw [hpush, decodeKeys_append, decodeKeys, decodeKeys, List.append_nil, List.append_assoc]
    rfl
  · unfold keyboardStep
    dsimp only
    rw [hpush]
    unfold shiftAfter
    rw [List.foldl_append, List.foldl_cons, List.foldl_nil]
    rfl

/-- A call leaves less to do. -/
theorem uGetchar_callsLeft (h : ShellInv s) : callsLeft (uGetchar s).2 ≤ callsLeft s - 1 := by
  by_cases hzero : callsLeft s = 0
  · obtain ⟨hevents, hinput⟩ := drained_iff.mpr hzero
    obtain ⟨-, -, -, hnone, -⟩ := inputQPop_spelled h
    have hpop := inputQPop_spec h.input
    rw [hinput] at hpop
    dsimp only at hpop
    have hbatch : Batched 32 s (uGetcharLoop 32 (s.1, s.2)) := uGetcharLoop_batched 32 h
    unfold uGetchar
    dsimp only
    rw [hpop, if_neg (show ¬ (-1 : Int) ≥ 0 by decide)]
    generalize uGetcharLoop 32 (s.1, s.2) = s₁ at hbatch ⊢
    obtain ⟨-, -, -, -, hlength⟩ := inputQPop_spelled hbatch.inv
    have hcontents : s₁.2.contents = [] := by
      rw [hbatch.contents, hevents, hinput]
      rfl
    have hnext : callsLeft (s₁.1, (inputQPop s₁.2).2) = 0 := by
      unfold callsLeft
      dsimp only
      rw [hlength, hcontents, hbatch.events, hevents]
      rfl
    split
    · exact hnext.le.trans (Nat.zero_le _)
    · exact hnext.le.trans (Nat.zero_le _)
  · exact Nat.le_sub_one_of_lt ((uGetchar_spec h).2.2 hzero)

end

/-- What there still is to do: every turn makes it less. -/
def Inputs.left (s : Inputs) : Nat := callsLeft s.keyboard + s.serial.length

/-- Nothing is left in the queues. -/
theorem spelled_nil {s : Kevents × InputQ} (h : callsLeft s = 0) : spelled s = [] := by
  obtain ⟨hevents, hinput⟩ := drained_iff.mpr h
  unfold spelled
  rw [hevents, hinput]
  rfl

theorem Inputs.getchar_left {s : Inputs} (h : ShellInv s.keyboard)
    (hkeeps : keeps .turn s.keyboard = true) : s.getchar.2.left ≤ s.left - 1 := by
  have hcalls := uGetchar_callsLeft h
  obtain ⟨-, hgot, -⟩ := uGetchar_spelled h hkeeps
  unfold Inputs.getchar Inputs.left
  dsimp only
  by_cases hpos : (uGetchar s.keyboard).1 ≥ 0
  · -- A key has been read, so there was something to do.
    have hsome : callsLeft s.keyboard ≠ 0 := by
      intro hzero
      rw [spelled_nil hzero, got, if_pos hpos] at hgot
      cases hgot
    rw [if_pos hpos]
    dsimp only
    omega
  · rw [if_neg hpos]
    cases s.serial with
    | nil =>
        dsimp only
        rw [List.length_nil]
        omega
    | cons ch serial =>
        dsimp only
        rw [List.length_cons]
        omega

theorem Inputs.step_keyboard (op : ConsoleOp) (s : Inputs) :
    (Inputs.step op s).keyboard = keyboardStep op s.keyboard := by
  cases op with
  | push type a b c d => rfl
  | type ch => rfl
  | turn =>
      unfold Inputs.step Inputs.getchar keyboardStep
      dsimp only
      split
      · rfl
      · split <;> rfl

theorem keyboardStep_inv {op : ConsoleOp} {s : Kevents × InputQ} (h : ShellInv s) :
    ShellInv (keyboardStep op s) := by
  cases op with
  | push type a b c d => exact ⟨keventPush_inRing h.events type a b c d, h.input⟩
  | type ch => exact h
  | turn => exact (uGetchar_spec h).1

/-- What the turns of a run get, if nothing is left in the end. -/
theorem heard_merge {ops : List ConsoleOp} {s : Inputs} (h : ShellInv s.keyboard)
    (hkeeps : keepsAll ops s.keyboard = true) (hall : (Inputs.run ops s).left = 0) :
    Merge (typed (spelled s.keyboard ++
        decodeKeys (shiftAfter s.keyboard.2.shift s.keyboard.1.contents) (arrivals ops)))
      (typed (s.serial ++ serialArrivals ops)) (heard ops s) := by
  induction ops generalizing s with
  | nil =>
      have hleft : callsLeft s.keyboard + s.serial.length = 0 := hall
      rw [spelled_nil (by omega), List.eq_nil_of_length_eq_zero (l := s.serial) (by omega)]
      exact .nil
  | cons op ops ih =>
      rw [keepsAll, Bool.and_eq_true] at hkeeps
      have hrest := ih (s := Inputs.step op s) (by rw [Inputs.step_keyboard]; exact keyboardStep_inv h)
        (by rw [Inputs.step_keyboard]; exact hkeeps.2) hall
      cases op with
      | push type a b c d =>
          obtain ⟨-, hspelled, hshift⟩ := keventPush_spelled h hkeeps.1
          have hkeyboard : (Inputs.step (.push type a b c d) s).keyboard =
              keyboardStep (.push type a b c d) s.keyboard := rfl
          rw [hkeyboard, hspelled, hshift, List.append_assoc] at hrest
          exact hrest
      | type ch =>
          have hserial : (Inputs.step (.type ch) s).serial ++ serialArrivals ops =
              s.serial ++ serialArrivals (.type ch :: ops) := List.append_assoc s.serial [ch] _
          rw [hserial] at hrest
          exact hrest
      | turn =>
          obtain ⟨-, hspelled, hshift⟩ := uGetchar_spelled h hkeeps.1
          rw [heard]
          have hkeyboard : (Inputs.step .turn s).keyboard = (uGetchar s.keyboard).2 :=
            Inputs.step_keyboard .turn s
          rw [hkeyboard, hshift] at hrest
          have hkeys : ∀ rest : Line, typed (spelled s.keyboard ++ rest) =
              got (uGetchar s.keyboard).1 ++ typed (spelled (uGetchar s.keyboard).2 ++ rest) := by
            intro rest
            unfold typed at hspelled ⊢
            rw [List.map_append, List.map_append, ← hspelled, List.append_assoc]
          rw [arrivals, serialArrivals, hkeys]
          unfold Inputs.step Inputs.getchar at hrest
          unfold Inputs.getchar Inputs.step Inputs.getchar
          dsimp only at hrest ⊢
          by_cases hpos : (uGetchar s.keyboard).1 ≥ 0
          · simp only [if_pos hpos] at hrest ⊢
            rw [got, if_pos hpos]
            exact hrest.left
          · simp only [if_neg hpos] at hrest ⊢
            rw [got, if_neg hpos, List.nil_append]
            cases hserial : s.serial with
            | nil =>
                rw [hserial] at hrest
                exact hrest
            | cons ch serial =>
                rw [hserial] at hrest
                dsimp only at hrest ⊢
                rw [got, if_pos (Int.natCast_nonneg _)]
                exact hrest.right

theorem Inputs.run_keyboard (ops : List ConsoleOp) (s : Inputs) :
    (Inputs.run ops s).keyboard = keyboardRun ops s.keyboard := by
  induction ops generalizing s with
  | nil => rfl
  | cons op ops ih =>
      have hrest := ih (Inputs.step op s)
      rw [Inputs.step_keyboard] at hrest
      exact hrest

/-- A turn takes characters from the serial console and adds none. -/
theorem Inputs.run_serial (ops : List ConsoleOp) (s : Inputs) :
    (Inputs.run ops s).serial.length ≤ (s.serial ++ serialArrivals ops).length := by
  induction ops generalizing s with
  | nil => rw [serialArrivals, List.append_nil]; exact le_rfl
  | cons op ops ih =>
      refine (ih (Inputs.step op s)).trans ?_
      cases op with
      | push type a b c d => exact le_rfl
      | type ch => exact (congrArg List.length (List.append_assoc s.serial [ch] _)).le
      | turn =>
          have hturn : (Inputs.step .turn s).serial.length ≤ s.serial.length := by
            unfold Inputs.step Inputs.getchar
            dsimp only
            split
            · exact le_rfl
            · split
              · exact Nat.zero_le _
              · rename_i heq
                rw [heq]
                exact Nat.le_succ _
          rw [List.length_append, List.length_append]
          exact Nat.add_le_add_right hturn _

theorem keyboardRun_inv (ops : List ConsoleOp) {s : Kevents × InputQ} (h : ShellInv s) :
    ShellInv (keyboardRun ops s) := by
  induction ops generalizing s with
  | nil => exact h
  | cons op ops ih => exact ih (keyboardStep_inv h)

theorem keepsAll_append {first second : List ConsoleOp} {s : Kevents × InputQ} :
    keepsAll (first ++ second) s = (keepsAll first s && keepsAll second (keyboardRun first s)) := by
  induction first generalizing s with
  | nil => rfl
  | cons op first ih =>
      rw [List.cons_append, keepsAll, keepsAll, ih, Bool.and_assoc]
      rfl

/-- After enough turns everything has been read. -/
theorem Inputs.run_turns {n : Nat} {s : Inputs} (h : ShellInv s.keyboard)
    (hkeeps : keepsAll (List.replicate n .turn) s.keyboard = true) :
    (Inputs.run (List.replicate n .turn) s).left ≤ s.left - n := by
  induction n generalizing s with
  | zero => exact le_rfl
  | succ n ih =>
      rw [List.replicate_succ, keepsAll, Bool.and_eq_true] at hkeeps
      have hone := Inputs.getchar_left h hkeeps.1
      have hrest := ih (s := Inputs.step .turn s)
        (by rw [Inputs.step_keyboard]; exact keyboardStep_inv h)
        (by rw [Inputs.step_keyboard]; exact hkeeps.2)
      rw [List.replicate_succ]
      refine hrest.trans ?_
      change s.getchar.2.left - n ≤ _
      omega

/-! ## Whole runs -/

theorem Desk.keys_got (ch : Int) (d : Desk) : d.keys (got ch) = d.key ch := by
  unfold got
  by_cases hpos : ch ≥ 0
  · rw [if_pos hpos, Desk.keys, Desk.keys]
    dsimp only
    rw [List.append_nil]
  · have hneg : ch < 0 := Int.not_le.mp hpos
    rw [if_neg hpos, Desk.keys, Desk.key, if_pos hneg]
    split <;> rfl

/-- What a console has to read. -/
def Console.inputs (s : Console) : Inputs := ⟨s.keyboard, s.shell.sbi.typed⟩

/-- As long as `getchar` finds its own queue empty it asks the serial console. -/
theorem consoleKey_eq {s : Console} (hidle : s.shell.sbi.kbdqHead = s.shell.sbi.kbdqTail) :
    consoleKey s = (s.inputs.getchar.1, ⟨s.inputs.getchar.2.keyboard,
      { s.shell with sbi := { s.shell.sbi with typed := s.inputs.getchar.2.serial } }⟩) := by
  unfold consoleKey Inputs.getchar Syscall.getchar Console.inputs
  dsimp only
  by_cases hpos : (uGetchar s.keyboard).1 ≥ 0
  · simp only [if_pos hpos]
  · simp only [if_neg hpos]
    rw [if_neg (not_not.mpr hidle)]
    cases htyped : s.shell.sbi.typed with
    | nil =>
        dsimp only
        rw [← htyped]
    | cons ch typed => rfl

theorem arrivals_turns (ops : List ConsoleOp) (n : Nat) :
    arrivals (ops ++ List.replicate n .turn) = arrivals ops ∧
      serialArrivals (ops ++ List.replicate n .turn) = serialArrivals ops := by
  induction ops with
  | nil =>
      induction n with
      | zero => exact ⟨rfl, rfl⟩
      | succ n ih => exact ih
  | cons op ops ih =>
      cases op with
      | push type a b c d => exact ⟨congrArg (_ :: ·) ih.1, ih.2⟩
      | type ch => exact ⟨ih.1, congrArg (_ :: ·) ih.2⟩
      | turn => exact ih

section

variable {p : Fin procMax} {d : Desk} {s : Console} (wild : Nat → Int → UInt32) {turns : Nat}

/-- The shell answers what its turns get. -/
theorem Shows.consoleRun (h : Shows p s.shell d) (hturns : shellMaxLine < turns)
    (hidle : s.shell.sbi.kbdqHead = s.shell.sbi.kbdqTail) (ops : List ConsoleOp) :
    ∃ s', Apps.consoleRun wild turns ops s = some s' ∧
      Shows p s'.shell (d.keys (heard ops s.inputs)).2 ∧
      s'.shell.sbi.sent = s.shell.sbi.sent ++ (d.keys (heard ops s.inputs)).1 := by
  induction ops generalizing s d with
  | nil => exact ⟨s, rfl, h, (List.append_nil _).symm⟩
  | cons op ops ih =>
      cases op with
      | push type a b c d' => exact ih (s := { s with keyboard := _ }) h hidle
      | type ch =>
          have hshows : Shows p { s.shell with
              sbi := { s.shell.sbi with typed := s.shell.sbi.typed ++ [ch] } } d :=
            ⟨⟨h.closed, h.files, h.fits, h.paths, h.windows, h.terminal, h.manager, h.down⟩, h.line⟩
          exact ih (s := ⟨s.keyboard, _⟩) hshows hidle
      | turn =>
          have hkey := consoleKey_eq hidle
          generalize hr : s.inputs.getchar = r at hkey
          obtain ⟨ch, inputs⟩ := r
          dsimp only at hkey
          have hshows : Shows p { s.shell with
              sbi := { s.shell.sbi with typed := inputs.serial } } d :=
            ⟨⟨h.closed, h.files, h.fits, h.paths, h.windows, h.terminal, h.manager, h.down⟩, h.line⟩
          obtain ⟨sh, hrun, hshows', hsbi⟩ := hshows.key wild hturns ch
          obtain ⟨s', hrest, hshows'', hsent⟩ := ih (s := ⟨inputs.keyboard, sh⟩) hshows' (by
            dsimp only
            rw [hsbi]
            exact hidle)
          have hinputs : Console.inputs ⟨inputs.keyboard, sh⟩ = Inputs.step .turn s.inputs := by
            have hstep : Inputs.step .turn s.inputs = s.inputs.getchar.2 := rfl
            rw [hstep, hr]
            unfold Console.inputs
            dsimp only
            rw [hsbi]
            rfl
          rw [hinputs] at hshows'' hsent
          have hkeys := Desk.keys_append (got ch) (heard ops (Inputs.step .turn s.inputs)) d
          rw [Desk.keys_got] at hkeys
          refine ⟨s', ?_, ?_, ?_⟩
          · rw [Apps.consoleRun, consoleStep, hkey]
            dsimp only
            rw [hrun]
            exact hrest
          · rw [heard, hr, hkeys]
            exact hshows''
          · rw [heard, hr, hkeys, hsent]
            dsimp only
            rw [hsbi, Syscall.Sbi.say_sent, List.append_assoc]

end

theorem inputQStart_inRing : inputQStart.InRing := ⟨by decide, by decide⟩

/-- The shell is started while some events and characters wait, and more arrive in any order with
its turns.  It answers what the turns get; once it has had enough turns, that is every key and
every character of the serial console, each in its order. -/
theorem console_answers {p : Fin procMax} {sh : Shell} (wild : Nat → Int → UInt32)
    (gpu : Option (Int × Int)) (h : Boots p sh) (hidle : sh.sbi.kbdqHead = sh.sbi.kbdqTail)
    {turns : Nat} (hturns : shellMaxLine < turns) {waiting : Kevents} (hwaiting : waiting.InRing)
    {ops : List ConsoleOp} {n : Nat}
    (hkeeps : keepsAll (ops ++ List.replicate n .turn) (waiting, inputQStart) = true)
    (hlong : callsLeft (keyboardRun ops (waiting, inputQStart)) +
      (sh.sbi.typed ++ serialArrivals ops).length ≤ n) :
    let answered := heard (ops ++ List.replicate n .turn) ⟨(waiting, inputQStart), sh.sbi.typed⟩
    Merge (typed (decodeKeys false (waiting.contents ++ arrivals ops)))
        (typed (sh.sbi.typed ++ serialArrivals ops)) answered ∧
      ∃ s, consoleRun wild turns (ops ++ List.replicate n .turn)
          ⟨(waiting, inputQStart), userInitEntry wild gpu sh⟩ = some s ∧
        Shows p s.shell ((Desk.start (Inodes.store sh.sys.inodes)).keys answered).2 ∧
        s.shell.sbi.sent = sh.sbi.sent ++ greeting ++
          ((Desk.start (Inodes.store sh.sys.inodes)).keys answered).1 := by
  intro answered
  have hinv : ShellInv (waiting, inputQStart) := ⟨hwaiting, inputQStart_inRing⟩
  constructor
  · have hsplit := hkeeps
    rw [keepsAll_append, Bool.and_eq_true] at hsplit
    have hserial := Inputs.run_serial ops ⟨(waiting, inputQStart), sh.sbi.typed⟩
    have hkeyboard := Inputs.run_keyboard ops ⟨(waiting, inputQStart), sh.sbi.typed⟩
    have hturned := Inputs.run_turns (s := Inputs.run ops ⟨(waiting, inputQStart), sh.sbi.typed⟩)
      (by rw [hkeyboard]; exact keyboardRun_inv ops hinv) (by rw [hkeyboard]; exact hsplit.2)
    have hleft : (Inputs.run (ops ++ List.replicate n .turn)
        ⟨(waiting, inputQStart), sh.sbi.typed⟩).left = 0 := by
      unfold Inputs.run at hturned ⊢
      rw [List.foldl_append]
      change (Inputs.run ops _).serial.length ≤ _ at hserial
      unfold Inputs.left at hturned ⊢
      unfold Inputs.run at hkeyboard hserial
      rw [hkeyboard] at hturned
      dsimp only at hturned hserial
      omega
    have hmerge := heard_merge (s := ⟨(waiting, inputQStart), sh.sbi.typed⟩) hinv hkeeps hleft
    have hstart : ∀ events : List KEvent, spelled (waiting, inputQStart) ++
        decodeKeys (shiftAfter false waiting.contents) events =
          decodeKeys false (waiting.contents ++ events) := by
      intro events
      have hempty : inputQStart.contents = [] := rfl
      unfold spelled
      rw [decodeKeys_append, hempty]
      rfl
    have harrivals := arrivals_turns ops n
    rw [harrivals.1, harrivals.2] at hmerge
    rw [← hstart]
    exact hmerge
  · obtain ⟨hshows, hsbi⟩ := h.start wild gpu
    have htyped : (userInitEntry wild gpu sh).sbi.typed = sh.sbi.typed := by
      rw [hsbi]
      rfl
    obtain ⟨s, hrun, hshows', hsent⟩ := Shows.consoleRun
      (s := ⟨(waiting, inputQStart), userInitEntry wild gpu sh⟩) wild hshows hturns
      (by dsimp only; rw [hsbi]; exact hidle) (ops ++ List.replicate n .turn)
    have hinputs : Console.inputs ⟨(waiting, inputQStart), userInitEntry wild gpu sh⟩ =
        ⟨(waiting, inputQStart), sh.sbi.typed⟩ := congrArg _ htyped
    rw [hinputs] at hshows' hsent
    refine ⟨s, hrun, hshows', ?_⟩
    rw [hsent]
    dsimp only
    rw [hsbi, Syscall.Sbi.say_sent]

/-- Shift and the key `L` between the turns, then `s` and return. -/
def smallArrivals : List ConsoleOp :=
  [.turn, .push 1 1 42 1 0, .push 1 1 38 1 0, .turn, .push 1 1 42 0 0, .push 1 1 14 1 0,
    .push 1 1 38 1 0, .turn, .type 10, .push 1 1 31 1 0]

theorem console_answers_small : ∃ k s, smallRun shellOps = some k ∧
    consoleRun (fun _ _ => 0) 200 (smallArrivals ++ List.replicate 100 .turn)
      ⟨(keventInit, inputQStart), userInitEntry (fun _ _ => 0) none (smallShell k)⟩ = some s ∧
    s.shell.sbi.sent = greeting ++ bytesOf "L\x08 \x08ls\nREADME\nk> " := by
  obtain ⟨k, hk, hboots⟩ := smallShell_boots
  have hturns : shellMaxLine < 200 := by decide
  have hkeeps : keepsAll (smallArrivals ++ List.replicate 100 .turn) (keventInit, inputQStart) = true := by
    decide +kernel
  have hlong : callsLeft (keyboardRun smallArrivals (keventInit, inputQStart)) +
      ((smallShell k).sbi.typed ++ serialArrivals smallArrivals).length ≤ 100 := by
    have hcalls : callsLeft (keyboardRun smallArrivals (keventInit, inputQStart)) ≤ 99 := by
      decide +kernel
    exact Nat.add_le_add_right hcalls 1
  obtain ⟨-, s, hrun, -, hsent⟩ :=
    console_answers (fun _ _ => 0) none hboots rfl hturns keventInit_inRing hkeeps hlong
  have hreply : ((Desk.start (Inodes.store fsInit)).keys (heard
      (smallArrivals ++ List.replicate 100 .turn) ⟨(keventInit, inputQStart), []⟩)).1 =
      bytesOf "L\x08 \x08ls\nREADME\nk> " := by decide +kernel
  refine ⟨k, s, hk, hrun, ?_⟩
  rw [← hreply]
  exact hsent

end Sugimotos.Apps
