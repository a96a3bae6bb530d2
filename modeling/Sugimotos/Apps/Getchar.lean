/-
# The keyboard of the shell

Model of `u_getchar` in `kernel/apps/user_init.c`: key events of the kernel queue
become characters in a queue of 16 cells.
-/

import Sugimotos.Event.Kevent

namespace Sugimotos.Apps

open Sugimotos.Math Sugimotos.Event

/-! ## Keys -/

abbrev keventTypeInput : UInt32 := 1
abbrev viEvKey : UInt16 := 1
@[match_pattern] abbrev viKey1 : Nat := 2
@[match_pattern] abbrev viKey2 : Nat := 3
@[match_pattern] abbrev viKey3 : Nat := 4
@[match_pattern] abbrev viKey4 : Nat := 5
@[match_pattern] abbrev viKey5 : Nat := 6
@[match_pattern] abbrev viKey6 : Nat := 7
@[match_pattern] abbrev viKey7 : Nat := 8
@[match_pattern] abbrev viKey8 : Nat := 9
@[match_pattern] abbrev viKey9 : Nat := 10
@[match_pattern] abbrev viKey0 : Nat := 11
@[match_pattern] abbrev viKeyMinus : Nat := 12
@[match_pattern] abbrev viKeyEqual : Nat := 13
@[match_pattern] abbrev viKeyBackspace : Nat := 14
@[match_pattern] abbrev viKeyTab : Nat := 15
@[match_pattern] abbrev viKeyQ : Nat := 16
@[match_pattern] abbrev viKeyW : Nat := 17
@[match_pattern] abbrev viKeyE : Nat := 18
@[match_pattern] abbrev viKeyR : Nat := 19
@[match_pattern] abbrev viKeyT : Nat := 20
@[match_pattern] abbrev viKeyY : Nat := 21
@[match_pattern] abbrev viKeyU : Nat := 22
@[match_pattern] abbrev viKeyI : Nat := 23
@[match_pattern] abbrev viKeyO : Nat := 24
@[match_pattern] abbrev viKeyP : Nat := 25
@[match_pattern] abbrev viKeyLeftbrace : Nat := 26
@[match_pattern] abbrev viKeyRightbrace : Nat := 27
@[match_pattern] abbrev viKeyEnter : Nat := 28
@[match_pattern] abbrev viKeyA : Nat := 30
@[match_pattern] abbrev viKeyS : Nat := 31
@[match_pattern] abbrev viKeyD : Nat := 32
@[match_pattern] abbrev viKeyF : Nat := 33
@[match_pattern] abbrev viKeyG : Nat := 34
@[match_pattern] abbrev viKeyH : Nat := 35
@[match_pattern] abbrev viKeyJ : Nat := 36
@[match_pattern] abbrev viKeyK : Nat := 37
@[match_pattern] abbrev viKeyL : Nat := 38
@[match_pattern] abbrev viKeySemicolon : Nat := 39
@[match_pattern] abbrev viKeyApostrophe : Nat := 40
@[match_pattern] abbrev viKeyGrave : Nat := 41
@[match_pattern] abbrev viKeyLeftshift : Nat := 42
@[match_pattern] abbrev viKeyBackslash : Nat := 43
@[match_pattern] abbrev viKeyZ : Nat := 44
@[match_pattern] abbrev viKeyX : Nat := 45
@[match_pattern] abbrev viKeyC : Nat := 46
@[match_pattern] abbrev viKeyV : Nat := 47
@[match_pattern] abbrev viKeyB : Nat := 48
@[match_pattern] abbrev viKeyN : Nat := 49
@[match_pattern] abbrev viKeyM : Nat := 50
@[match_pattern] abbrev viKeyComma : Nat := 51
@[match_pattern] abbrev viKeyDot : Nat := 52
@[match_pattern] abbrev viKeySlash : Nat := 53
@[match_pattern] abbrev viKeyRightshift : Nat := 54
@[match_pattern] abbrev viKeySpace : Nat := 57
@[match_pattern] abbrev viKeyUp : Nat := 103
@[match_pattern] abbrev viKeyDown : Nat := 108

/-- The byte of a character. -/
def ascii (c : Char) : UInt8 := .ofNat c.toNat

/-- `map_key_ascii`.  34, 39, 92 and 96 are the two quotes, the backslash and the
grave accent. -/
def mapKeyAscii (code : UInt16) (shift : Bool) : UInt8 :=
  match code.toNat with
  | viKeyA => ascii (if shift then 'A' else 'a')
  | viKeyB => ascii (if shift then 'B' else 'b')
  | viKeyC => ascii (if shift then 'C' else 'c')
  | viKeyD => ascii (if shift then 'D' else 'd')
  | viKeyE => ascii (if shift then 'E' else 'e')
  | viKeyF => ascii (if shift then 'F' else 'f')
  | viKeyG => ascii (if shift then 'G' else 'g')
  | viKeyH => ascii (if shift then 'H' else 'h')
  | viKeyI => ascii (if shift then 'I' else 'i')
  | viKeyJ => ascii (if shift then 'J' else 'j')
  | viKeyK => ascii (if shift then 'K' else 'k')
  | viKeyL => ascii (if shift then 'L' else 'l')
  | viKeyM => ascii (if shift then 'M' else 'm')
  | viKeyN => ascii (if shift then 'N' else 'n')
  | viKeyO => ascii (if shift then 'O' else 'o')
  | viKeyP => ascii (if shift then 'P' else 'p')
  | viKeyQ => ascii (if shift then 'Q' else 'q')
  | viKeyR => ascii (if shift then 'R' else 'r')
  | viKeyS => ascii (if shift then 'S' else 's')
  | viKeyT => ascii (if shift then 'T' else 't')
  | viKeyU => ascii (if shift then 'U' else 'u')
  | viKeyV => ascii (if shift then 'V' else 'v')
  | viKeyW => ascii (if shift then 'W' else 'w')
  | viKeyX => ascii (if shift then 'X' else 'x')
  | viKeyY => ascii (if shift then 'Y' else 'y')
  | viKeyZ => ascii (if shift then 'Z' else 'z')
  | viKey1 => ascii (if shift then '!' else '1')
  | viKey2 => ascii (if shift then '@' else '2')
  | viKey3 => ascii (if shift then '#' else '3')
  | viKey4 => ascii (if shift then '$' else '4')
  | viKey5 => ascii (if shift then '%' else '5')
  | viKey6 => ascii (if shift then '^' else '6')
  | viKey7 => ascii (if shift then '&' else '7')
  | viKey8 => ascii (if shift then '*' else '8')
  | viKey9 => ascii (if shift then '(' else '9')
  | viKey0 => ascii (if shift then ')' else '0')
  | viKeyMinus => ascii (if shift then '_' else '-')
  | viKeyEqual => ascii (if shift then '+' else '=')
  | viKeySpace => ascii ' '
  | viKeyTab => ascii '\t'
  | viKeyEnter => ascii '\n'
  | viKeyBackspace => ascii (Char.ofNat 8)
  | viKeyComma => ascii (if shift then '<' else ',')
  | viKeyDot => ascii (if shift then '>' else '.')
  | viKeySlash => ascii (if shift then '?' else '/')
  | viKeySemicolon => ascii (if shift then ':' else ';')
  | viKeyApostrophe => ascii (if shift then Char.ofNat 34 else Char.ofNat 39)
  | viKeyLeftbrace => ascii (if shift then '{' else '[')
  | viKeyRightbrace => ascii (if shift then '}' else ']')
  | viKeyBackslash => ascii (if shift then '|' else Char.ofNat 92)
  | viKeyGrave => ascii (if shift then '~' else Char.ofNat 96)
  | _ => 0

/-! ## The input queue -/

abbrev inputQSize : Nat := 16

/-- `g_input_q`, `g_input_q_head`, `g_input_q_tail` and `g_input_shift`. -/
structure InputQ where
  q : Nat → UInt8
  head : Nat
  tail : Nat
  shift : Bool

def inputQPush (ch : UInt8) (s : InputQ) : InputQ :=
  let next := (s.tail + 1) % inputQSize
  if next = s.head then s
  else { s with q := Function.update s.q s.tail ch, tail := next }

def inputQPop (s : InputQ) : Int × InputQ :=
  if s.head = s.tail then (-1, s)
  else ((s.q s.head).toNat, { s with head := (s.head + 1) % inputQSize })

/-- What the loop of `u_getchar` does with one event. -/
def uGetcharEvent (kev : KEvent) (s : InputQ) : InputQ :=
  if kev.type ≠ keventTypeInput then s
  else
    let type : UInt16 := kev.a.toUInt16
    let code : UInt16 := kev.b.toUInt16
    let value := kev.c
    if type ≠ viEvKey then s
    else if code.toNat = viKeyLeftshift ∨ code.toNat = viKeyRightshift then
      { s with shift := value ≠ 0 }
    else if value = 0 then s
    else if code.toNat = viKeyUp then
      inputQPush (ascii 'A') (inputQPush (ascii '[') (inputQPush 27 s))
    else if code.toNat = viKeyDown then
      inputQPush (ascii 'B') (inputQPush (ascii '[') (inputQPush 27 s))
    else
      let a := mapKeyAscii code s.shift
      if a ≠ 0 then inputQPush a s else s

/-- The loop of `u_getchar`, with the turns left. -/
def uGetcharLoop : Nat → Kevents × InputQ → Kevents × InputQ
  | 0, s => s
  | turns + 1, s =>
      match keventPop (some ⟨0, 0, 0, 0, 0, 0⟩) s.1 with
      | (rc, some kev, events) =>
          if rc ≤ 0 then (events, s.2)
          else uGetcharLoop turns (events, uGetcharEvent kev s.2)
      | (_, none, events) => (events, s.2)

/-- `getchar` while the serial console has no input.  Nothing puts characters into
its own queue. -/
def getcharIdle : Int := -1

def uGetchar (s : Kevents × InputQ) : Int × Kevents × InputQ :=
  let ch := inputQPop s.2
  if ch.1 ≥ 0 then (ch.1, s.1, ch.2)
  else
    let s := uGetcharLoop 32 (s.1, ch.2)
    let ch := inputQPop s.2
    if ch.1 ≥ 0 then (ch.1, s.1, ch.2) else (getcharIdle, s.1, ch.2)

/-- The characters that some calls of `u_getchar` return, and the state they leave. -/
def uGetchars : Nat → Kevents × InputQ → List Int × Kevents × InputQ
  | 0, s => ([], s)
  | calls + 1, s =>
      let r := uGetchar s
      let rest := uGetchars calls r.2
      (if r.1 ≥ 0 then r.1 :: rest.1 else rest.1, rest.2)

/-! ## What the keys spell -/

/-- Whether the event is a press of a key other than shift. -/
def KeyPress (kev : KEvent) : Prop :=
  kev.type = keventTypeInput ∧ kev.a.toUInt16 = viEvKey ∧ kev.c ≠ 0 ∧
    ¬ (kev.b.toUInt16.toNat = viKeyLeftshift ∨ kev.b.toUInt16.toNat = viKeyRightshift)

instance (kev : KEvent) : Decidable (KeyPress kev) := inferInstanceAs (Decidable (_ ∧ _ ∧ _ ∧ ¬ _))

/-- The characters a key event stands for. -/
def keyChars (shift : Bool) (kev : KEvent) : List UInt8 :=
  if ¬ KeyPress kev then []
  else if kev.b.toUInt16.toNat = viKeyUp then [27, ascii '[', ascii 'A']
  else if kev.b.toUInt16.toNat = viKeyDown then [27, ascii '[', ascii 'B']
  else if mapKeyAscii kev.b.toUInt16 shift = 0 then []
  else [mapKeyAscii kev.b.toUInt16 shift]

/-- The shift state after an event. -/
def keyShift (shift : Bool) (kev : KEvent) : Bool :=
  if kev.type = keventTypeInput ∧ kev.a.toUInt16 = viEvKey ∧
      (kev.b.toUInt16.toNat = viKeyLeftshift ∨ kev.b.toUInt16.toNat = viKeyRightshift) then
    kev.c ≠ 0
  else shift

def decodeKeys : Bool → List KEvent → List UInt8
  | _, [] => []
  | shift, kev :: rest => keyChars shift kev ++ decodeKeys (keyShift shift kev) rest

def shiftAfter (shift : Bool) (events : List KEvent) : Bool := events.foldl keyShift shift

theorem decodeKeys_append (shift : Bool) (first second : List KEvent) :
    decodeKeys shift (first ++ second) =
      decodeKeys shift first ++ decodeKeys (shiftAfter shift first) second := by
  induction first generalizing shift with
  | nil => rfl
  | cons kev rest ih =>
      unfold shiftAfter
      rw [List.cons_append, decodeKeys, decodeKeys, List.foldl_cons, ih, List.append_assoc]
      rfl

/-! ## The input queue holds a list -/

/-- Both indices name a cell. -/
structure InputQ.InRing (s : InputQ) : Prop where
  head : s.head < inputQSize
  tail : s.tail < inputQSize

/-- The characters in the queue. -/
def InputQ.contents (s : InputQ) : List UInt8 := ringList s.q inputQSize s.head s.tail

/-- The queue after it was offered some characters. -/
structure Offered (chars : List UInt8) (s s' : InputQ) : Prop where
  inRing : s'.InRing
  contents : s'.contents = (s.contents ++ chars).take 15
  shift : s'.shift = s.shift

theorem take_take_append (l m : List UInt8) (n : Nat) :
    (l.take n ++ m).take n = (l ++ m).take n := by
  rw [List.take_append, List.take_append, List.take_take, Nat.min_self, List.length_take]
  congr 2
  omega

theorem InputQ.InRing.length {s : InputQ} (h : s.InRing) : s.contents.length ≤ 15 := by
  unfold contents
  rw [length_ringList]
  exact Nat.le_of_lt_succ (ringCount_lt h.head)

theorem Offered.refl {s : InputQ} (h : s.InRing) : Offered [] s s := by
  refine ⟨h, ?_, rfl⟩
  rw [List.append_nil, List.take_of_length_le h.length]

theorem Offered.trans {chars more : List UInt8} {s s₁ s' : InputQ} (h : Offered chars s s₁)
    (h' : Offered more s₁ s') : Offered (chars ++ more) s s' := by
  refine ⟨h'.inRing, ?_, h'.shift.trans h.shift⟩
  rw [h'.contents, h.contents, take_take_append, List.append_assoc]

theorem inputQPush_offered {s : InputQ} (h : s.InRing) (ch : UInt8) :
    Offered [ch] s (inputQPush ch s) := by
  have hfull : (s.tail + 1) % inputQSize = s.head ↔ s.contents.length + 1 = 16 :=
    ringNext_eq_head h.head h.tail
  unfold inputQPush
  dsimp only
  split
  · rename_i hnext
    have hlen : s.contents.length = 15 := Nat.succ.inj (hfull.mp hnext)
    refine ⟨h, ?_, rfl⟩
    rw [List.take_left' hlen]
  · rename_i hnext
    have hput := ringList_put h.head h.tail s.q hnext ch
    refine ⟨⟨h.head, ringNext_lt h.tail⟩, hput.trans ?_, rfl⟩
    have hlen := h.length
    have hne : s.contents.length ≠ 15 := fun heq => hnext (hfull.mpr (by rw [heq]))
    rw [List.take_of_length_le]
    · rfl
    · rw [List.length_append, List.length_singleton]
      omega

theorem inputQPop_spec {s : InputQ} (h : s.InRing) :
    match s.contents with
    | [] => inputQPop s = (-1, s)
    | ch :: rest => (inputQPop s).1 = ch.toNat ∧ (inputQPop s).2.contents = rest ∧
        (inputQPop s).2.InRing ∧ (inputQPop s).2.shift = s.shift := by
  by_cases hempty : s.head = s.tail
  · have hnil : s.contents = [] := (ringList_eq_nil h.head h.tail).mpr hempty
    rw [hnil]
    exact if_pos hempty
  · have hcons : s.contents = s.q s.head :: ringList s.q inputQSize _ s.tail :=
      ringList_take h.head h.tail hempty
    rw [hcons]
    unfold inputQPop
    rw [if_neg hempty]
    exact ⟨rfl, rfl, ⟨ringNext_lt h.head, h.tail⟩, rfl⟩

/-- One event in the loop. -/
theorem uGetcharEvent_spec {s : InputQ} (h : s.InRing) (kev : KEvent) :
    (uGetcharEvent kev s).InRing ∧
      (uGetcharEvent kev s).contents = (s.contents ++ keyChars s.shift kev).take 15 ∧
      (uGetcharEvent kev s).shift = keyShift s.shift kev := by
  have hoffered : ∀ {chars : List UInt8} {s' : InputQ}, Offered chars s s' →
      keyChars s.shift kev = chars → keyShift s.shift kev = s.shift →
      s'.InRing ∧ s'.contents = (s.contents ++ keyChars s.shift kev).take 15 ∧
        s'.shift = keyShift s.shift kev := by
    intro chars s' hoff hchars hshift
    rw [hchars, hshift]
    exact ⟨hoff.inRing, hoff.contents, hoff.shift⟩
  have hthree : ∀ last : UInt8, Offered [27, ascii '[', last] s
      (inputQPush last (inputQPush (ascii '[') (inputQPush 27 s))) := by
    intro last
    have h27 := inputQPush_offered h 27
    have hbracket := inputQPush_offered h27.inRing (ascii '[')
    exact (h27.trans hbracket).trans (inputQPush_offered hbracket.inRing last)
  unfold uGetcharEvent
  dsimp only
  by_cases htype : kev.type = keventTypeInput
  case neg =>
    rw [if_pos htype]
    exact hoffered (Offered.refl h) (if_pos fun hpress => htype hpress.1)
      (if_neg fun hall => htype hall.1)
  rw [if_neg (not_not.mpr htype)]
  by_cases hkey : kev.a.toUInt16 = viEvKey
  case neg =>
    rw [if_pos hkey]
    exact hoffered (Offered.refl h) (if_pos fun hpress => hkey hpress.2.1)
      (if_neg fun hall => hkey hall.2.1)
  rw [if_neg (not_not.mpr hkey)]
  by_cases hshift : kev.b.toUInt16.toNat = viKeyLeftshift ∨ kev.b.toUInt16.toNat = viKeyRightshift
  · have hchars : keyChars s.shift kev = [] := if_pos fun hpress => hpress.2.2.2 hshift
    rw [if_pos hshift, hchars]
    refine ⟨⟨h.head, h.tail⟩, (Offered.refl h).contents, ?_⟩
    unfold keyShift
    rw [if_pos ⟨htype, hkey, hshift⟩]
  rw [if_neg hshift]
  have hsame : keyShift s.shift kev = s.shift := if_neg fun hall => hshift hall.2.2
  by_cases hvalue : kev.c = 0
  · rw [if_pos hvalue]
    exact hoffered (Offered.refl h) (if_pos fun hpress => hpress.2.2.1 hvalue) hsame
  rw [if_neg hvalue]
  have hpress : KeyPress kev := ⟨htype, hkey, hvalue, hshift⟩
  have hchars : keyChars s.shift kev = _ := if_neg (not_not.mpr hpress)
  by_cases hup : kev.b.toUInt16.toNat = viKeyUp
  · rw [if_pos hup] at hchars ⊢
    exact hoffered (hthree _) hchars hsame
  rw [if_neg hup] at hchars ⊢
  by_cases hdown : kev.b.toUInt16.toNat = viKeyDown
  · rw [if_pos hdown] at hchars ⊢
    exact hoffered (hthree _) hchars hsame
  rw [if_neg hdown] at hchars ⊢
  by_cases hascii : mapKeyAscii kev.b.toUInt16 s.shift = 0
  · rw [if_pos hascii] at hchars
    rw [if_neg (not_not.mpr hascii)]
    exact hoffered (Offered.refl h) hchars hsame
  · rw [if_neg hascii] at hchars
    rw [if_pos hascii]
    exact hoffered (inputQPush_offered h _) hchars hsame

/-! ## One call -/

/-- The queues of the shell are in order. -/
structure ShellInv (s : Kevents × InputQ) : Prop where
  events : s.1.InRing
  input : s.2.InRing

/-- Some events have been taken, and what they spell offered to the input queue. -/
structure Batched (turns : Nat) (s s' : Kevents × InputQ) : Prop where
  inv : ShellInv s'
  events : s'.1.contents = s.1.contents.drop turns
  contents : s'.2.contents =
    (s.2.contents ++ decodeKeys s.2.shift (s.1.contents.take turns)).take 15
  shift : s'.2.shift = shiftAfter s.2.shift (s.1.contents.take turns)

theorem Batched.refl {s : Kevents × InputQ} (h : ShellInv s) {turns : Nat}
    (hnone : s.1.contents.take turns = []) (hrest : s.1.contents.drop turns = s.1.contents) :
    Batched turns s s := by
  refine ⟨h, hrest.symm, ?_, ?_⟩
  · rw [hnone, decodeKeys, List.append_nil, List.take_of_length_le h.input.length]
  · rw [hnone]
    rfl

theorem uGetcharLoop_batched (turns : Nat) {s : Kevents × InputQ} (h : ShellInv s) :
    Batched turns s (uGetcharLoop turns s) := by
  induction turns generalizing s with
  | zero => exact Batched.refl h List.take_zero List.drop_zero
  | succ turns ih =>
      have hpop := keventPop_spec h.events ⟨0, 0, 0, 0, 0, 0⟩
      have hring := keventPop_inRing h.events (some ⟨0, 0, 0, 0, 0, 0⟩)
      unfold uGetcharLoop
      cases hevents : s.1.contents with
      | nil =>
          rw [hevents] at hpop
          rw [show keventPop (some ⟨0, 0, 0, 0, 0, 0⟩) s.1 = _ from hpop]
          dsimp only
          rw [if_pos (le_refl _)]
          exact Batched.refl h (by rw [hevents]; rfl) (by rw [hevents]; rfl)
      | cons kev rest =>
          rw [hevents] at hpop
          obtain ⟨hone, hkev, hrest⟩ := hpop
          rw [show keventPop (some ⟨0, 0, 0, 0, 0, 0⟩) s.1 =
            (1, some kev, (keventPop (some ⟨0, 0, 0, 0, 0, 0⟩) s.1).2.2) from
              Prod.ext hone (Prod.ext hkev rfl)]
          dsimp only
          rw [if_neg (by decide)]
          obtain ⟨hin, hcontents, hshift⟩ := uGetcharEvent_spec h.input kev
          have hnext := ih (s := ((keventPop (some ⟨0, 0, 0, 0, 0, 0⟩) s.1).2.2,
            uGetcharEvent kev s.2)) ⟨hring, hin⟩
          refine ⟨hnext.inv, ?_, ?_, ?_⟩
          · rw [hnext.events, hrest, hevents]
            rfl
          · rw [hnext.contents, hrest, hcontents, hshift, hevents, take_take_append,
              List.append_assoc, List.take_succ_cons]
            rfl
          · rw [hnext.shift, hrest, hshift, hevents]
            rfl

/-- What the events put into the input queue when they are taken 32 at a time: 15
characters at most each time. -/
def toCome (shift : Bool) (events : List KEvent) : List UInt8 :=
  match events with
  | [] => []
  | kev :: rest =>
      (decodeKeys shift ((kev :: rest).take 32)).take 15 ++
        toCome (shiftAfter shift ((kev :: rest).take 32)) (rest.drop 31)
termination_by events.length
decreasing_by
  rw [List.length_drop, List.length_cons]
  omega

theorem toCome_eq (shift : Bool) (events : List KEvent) :
    toCome shift events = (decodeKeys shift (events.take 32)).take 15 ++
      toCome (shiftAfter shift (events.take 32)) (events.drop 32) := by
  cases events with
  | nil =>
      rw [List.take_nil, List.drop_nil, toCome, toCome]
      rfl
  | cons kev rest =>
      rw [toCome, List.drop_succ_cons]

/-- The characters that will come out of the state. -/
def pending (s : Kevents × InputQ) : List UInt8 :=
  s.2.contents ++ toCome s.2.shift s.1.contents

/-- How many calls the state is good for, at most. -/
def callsLeft (s : Kevents × InputQ) : Nat := s.2.contents.length + 16 * s.1.contents.length

/-- A call returns the next character that is to come, if there is one left in its
batch. -/
theorem uGetchar_spec {s : Kevents × InputQ} (h : ShellInv s) :
    ShellInv (uGetchar s).2 ∧
      (if (uGetchar s).1 ≥ 0 then [(uGetchar s).1] else []) ++
        (pending (uGetchar s).2).map (fun ch => (ch.toNat : Int)) =
          (pending s).map (fun ch => (ch.toNat : Int)) ∧
      (callsLeft s ≠ 0 → callsLeft (uGetchar s).2 < callsLeft s) := by
  have hpop := inputQPop_spec h.input
  unfold uGetchar
  dsimp only
  cases hinput : s.2.contents with
  | cons ch rest =>
      rw [hinput] at hpop
      obtain ⟨hch, hrest, hring, hshift⟩ := hpop
      have hpos : (inputQPop s.2).1 ≥ 0 := by
        rw [hch]
        exact Int.natCast_nonneg _
      rw [if_pos hpos]
      refine ⟨⟨h.events, hring⟩, ?_, fun _ => ?_⟩
      · unfold pending
        dsimp only
        rw [if_pos hpos, hrest, hshift, hinput, hch]
        rfl
      · unfold callsLeft
        dsimp only
        rw [hrest, hinput, List.length_cons]
        omega
  | nil =>
      rw [hinput] at hpop
      change inputQPop s.2 = (-1, s.2) at hpop
      rw [hpop, if_neg (show ¬ (-1 : Int) ≥ 0 by decide)]
      have hbatch := uGetcharLoop_batched 32 h
      change Batched 32 s (uGetcharLoop 32 (s.1, s.2)) at hbatch
      generalize uGetcharLoop 32 (s.1, s.2) = s₁ at hbatch ⊢
      have hpending : pending s = pending s₁ := by
        unfold pending
        rw [toCome_eq, hbatch.contents, hbatch.events, hbatch.shift, hinput, List.nil_append,
          List.nil_append]
      have hleft : callsLeft s ≠ 0 → callsLeft s₁ < callsLeft s := by
        intro hsome
        unfold callsLeft at hsome ⊢
        have hlen := hbatch.inv.input.length
        rw [hbatch.events, List.length_drop]
        rw [hinput, List.length_nil] at hsome ⊢
        omega
      have hpop₁ := inputQPop_spec hbatch.inv.input
      cases hinput₁ : s₁.2.contents with
      | cons ch rest =>
          rw [hinput₁] at hpop₁
          obtain ⟨hch, hrest, hring, hshift⟩ := hpop₁
          have hpos : (inputQPop s₁.2).1 ≥ 0 := by
            rw [hch]
            exact Int.natCast_nonneg _
          rw [if_pos hpos]
          refine ⟨⟨hbatch.inv.events, hring⟩, ?_, fun hsome => ?_⟩
          · rw [hpending]
            unfold pending
            dsimp only
            rw [if_pos hpos, hrest, hshift, hinput₁, hch]
            rfl
          · refine lt_of_le_of_lt ?_ (hleft hsome)
            unfold callsLeft
            dsimp only
            rw [hrest, hinput₁, List.length_cons]
            omega
      | nil =>
          rw [hinput₁] at hpop₁
          change inputQPop s₁.2 = (-1, s₁.2) at hpop₁
          rw [hpop₁, if_neg (show ¬ (-1 : Int) ≥ 0 by decide)]
          refine ⟨hbatch.inv, ?_, hleft⟩
          rw [hpending, if_neg (show ¬ getcharIdle ≥ 0 by decide)]
          rfl

/-! ## All calls -/

/-- Nothing is left in the two queues. -/
def Drained (s : Kevents × InputQ) : Prop := s.1.contents = [] ∧ s.2.contents = []

theorem drained_iff {s : Kevents × InputQ} : Drained s ↔ callsLeft s = 0 := by
  unfold Drained callsLeft
  rw [← List.length_eq_zero_iff, ← List.length_eq_zero_iff]
  omega

/-- What the calls return and what is to come after them is what was to come. -/
theorem uGetchars_spec (calls : Nat) {s : Kevents × InputQ} (h : ShellInv s) :
    (uGetchars calls s).1 ++ (pending (uGetchars calls s).2).map (fun ch => (ch.toNat : Int)) =
      (pending s).map (fun ch => (ch.toNat : Int)) := by
  induction calls generalizing s with
  | zero => rfl
  | succ calls ih =>
      obtain ⟨hinv, hout, -⟩ := uGetchar_spec h
      have hrest := ih hinv
      rw [← hout, ← hrest]
      change (if (uGetchar s).1 ≥ 0 then (uGetchar s).1 :: (uGetchars calls (uGetchar s).2).1
        else (uGetchars calls (uGetchar s).2).1) ++ _ = _
      split <;> rfl

theorem uGetchars_drained {s : Kevents × InputQ} (h : ShellInv s) :
    ∃ calls, Drained (uGetchars calls s).2 := by
  induction hn : callsLeft s using Nat.strong_induction_on generalizing s with
  | _ n ih =>
      by_cases hzero : callsLeft s = 0
      · exact ⟨0, drained_iff.mpr hzero⟩
      · obtain ⟨hinv, -, hless⟩ := uGetchar_spec h
        obtain ⟨calls, hcalls⟩ := ih _ (hn ▸ hless hzero) hinv rfl
        exact ⟨calls + 1, hcalls⟩

/-- The characters of the `j`-th batch of 32 events. -/
def batchChars (shift : Bool) (events : List KEvent) (j : Nat) : List UInt8 :=
  decodeKeys (shiftAfter shift (events.take (32 * j))) ((events.drop (32 * j)).take 32)

theorem batchChars_succ (shift : Bool) (events : List KEvent) (j : Nat) :
    batchChars shift events (j + 1) =
      batchChars (shiftAfter shift (events.take 32)) (events.drop 32) j := by
  unfold batchChars shiftAfter
  rw [← List.foldl_append, List.drop_drop, show 32 * (j + 1) = 32 + 32 * j by omega,
    List.take_add]

theorem decodeKeys_split (shift : Bool) (events : List KEvent) :
    decodeKeys shift events = decodeKeys shift (events.take 32) ++
      decodeKeys (shiftAfter shift (events.take 32)) (events.drop 32) := by
  rw [← decodeKeys_append, List.take_append_drop]

/-- Nothing is lost exactly if every batch fits the input queue. -/
theorem toCome_spec (shift : Bool) (events : List KEvent) :
    (toCome shift events).length ≤ (decodeKeys shift events).length ∧
      (toCome shift events = decodeKeys shift events ↔
        ∀ j, (batchChars shift events j).length ≤ 15) := by
  induction hn : events.length using Nat.strong_induction_on generalizing shift events with
  | _ n ih =>
      cases hevents : events with
      | nil =>
          have hbatch : ∀ j, batchChars shift [] j = [] := by
            intro j
            unfold batchChars
            rw [List.drop_nil, List.take_nil, List.take_nil]
            rfl
          rw [toCome, decodeKeys]
          refine ⟨le_refl _, iff_of_true rfl fun j => ?_⟩
          rw [hbatch]
          exact Nat.zero_le _
      | cons kev rest =>
          rw [← hevents]
          have hless : (events.drop 32).length < n := by
            rw [List.length_drop, ← hn, hevents, List.length_cons]
            omega
          obtain ⟨hlen, hiff⟩ := ih _ hless (shiftAfter shift (events.take 32)) _ rfl
          rw [toCome_eq, decodeKeys_split shift events]
          have hbatches : (∀ j, (batchChars shift events j).length ≤ 15) ↔
              (decodeKeys shift (events.take 32)).length ≤ 15 ∧ ∀ j,
                (batchChars (shiftAfter shift (events.take 32)) (events.drop 32) j).length ≤ 15 := by
            constructor
            · intro hall
              refine ⟨hall 0, fun j => ?_⟩
              rw [← batchChars_succ]
              exact hall (j + 1)
            · rintro ⟨hfirst, hothers⟩ j
              cases j with
              | zero => exact hfirst
              | succ j =>
                  rw [batchChars_succ]
                  exact hothers j
          rw [hbatches, ← hiff]
          constructor
          · rw [List.length_append, List.length_append, List.length_take]
            omega
          · constructor
            · intro heq
              have hsum := congrArg List.length heq
              rw [List.length_append, List.length_append, List.length_take] at hsum
              have hfits : (decodeKeys shift (events.take 32)).length ≤ 15 := by omega
              rw [List.take_of_length_le hfits] at heq
              exact ⟨hfits, List.append_cancel_left heq⟩
            · rintro ⟨hfits, heq⟩
              rw [List.take_of_length_le hfits, heq]

/-- The calls end, and they return all characters exactly if no batch of 32 events
spells more than the input queue holds. -/
theorem u_getchar_unaltered {s : Kevents × InputQ} (h : ShellInv s) :
    (∃ calls, Drained (uGetchars calls s).2) ∧
      ∀ calls, Drained (uGetchars calls s).2 →
        ((uGetchars calls s).1 =
            (s.2.contents ++ decodeKeys s.2.shift s.1.contents).map (fun ch => (ch.toNat : Int)) ↔
          ∀ j, (batchChars s.2.shift s.1.contents j).length ≤ 15) := by
  refine ⟨uGetchars_drained h, fun calls hdrained => ?_⟩
  have hout := uGetchars_spec calls h
  have hnone : pending (uGetchars calls s).2 = [] := by
    unfold pending
    rw [hdrained.1, hdrained.2, toCome]
    rfl
  rw [hnone, List.map_nil, List.append_nil] at hout
  rw [hout]
  unfold pending
  have hinj : Function.Injective fun ch : UInt8 => (ch.toNat : Int) :=
    fun a b hab => UInt8.toNat_inj.mp (Int.ofNat.inj hab)
  rw [(List.map_injective_iff.mpr hinj).eq_iff, List.append_cancel_left_eq]
  exact (toCome_spec _ _).2

/-- The kernel queue after some presses of a key. -/
def pressed (code : UInt32) (n : Nat) : Kevents :=
  (List.range n).foldl (fun s _ => (keventPush keventTypeInput 1 code 1 0 s).2) keventInit

/-- The input queue of a shell that starts. -/
def inputQStart : InputQ := ⟨fun _ => 0, 0, 0, false⟩

theorem u_getchar_unaltered_arrows :
    ShellInv (pressed 103 5, inputQStart) ∧
      (uGetchars 16 (pressed 103 5, inputQStart)).1 =
        [27, 91, 65, 27, 91, 65, 27, 91, 65, 27, 91, 65, 27, 91, 65] := by
  have hinv : ShellInv (pressed 103 5, inputQStart) :=
    ⟨⟨by decide, by decide⟩, ⟨by decide, by decide⟩⟩
  have hdrained : Drained (uGetchars 16 (pressed 103 5, inputQStart)).2 :=
    ⟨by decide +kernel, by decide +kernel⟩
  refine ⟨hinv, (((u_getchar_unaltered hinv).2 16 hdrained).mpr fun j => ?_).trans
    (by decide +kernel)⟩
  cases j with
  | zero => decide +kernel
  | succ j =>
      have hshort : (pressed 103 5).contents.length = 5 := by decide +kernel
      unfold batchChars
      rw [List.drop_of_length_le (by rw [hshort]; omega), List.take_nil]
      exact Nat.zero_le _

/-- The sixth arrow of a batch is lost. -/
theorem u_getchar_drops : ¬ ∀ s : Kevents × InputQ, ShellInv s → ∀ calls,
    Drained (uGetchars calls s).2 → (uGetchars calls s).1 =
      (s.2.contents ++ decodeKeys s.2.shift s.1.contents).map (fun ch => (ch.toNat : Int)) := by
  intro hall
  have hout := hall (pressed 103 6, inputQStart) ⟨⟨by decide, by decide⟩, ⟨by decide, by decide⟩⟩
    16 ⟨by decide +kernel, by decide +kernel⟩
  revert hout
  decide +kernel

end Sugimotos.Apps
