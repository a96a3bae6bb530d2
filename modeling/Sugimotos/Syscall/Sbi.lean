/-
# The console

Model of `kernel/sbi/sbi.c`: characters go to and come from the firmware; a ring of 64 cells in
front of it holds characters of the keyboard.
-/

import Sugimotos.Math.RingQueue
import Sugimotos.Lib.Printf

namespace Sugimotos.Syscall

open Sugimotos.Math Sugimotos.Lib

abbrev kbdqCap : Nat := 64

/-- The variables of the file, the characters sent to the firmware and those it has for us. -/
structure Sbi where
  kbdqBuf : Nat → UInt8
  kbdqHead : Nat
  kbdqTail : Nat
  sent : List UInt8
  typed : List UInt8

def Sbi.init (typed : List UInt8) : Sbi := ⟨fun _ => 0, 0, 0, [], typed⟩

/-- `putchar`. -/
def putchar (ch : UInt8) (s : Sbi) : Sbi := { s with sent := s.sent ++ [ch] }

/-- Some characters have been printed. -/
def Sbi.say (text : List UInt8) (s : Sbi) : Sbi := { s with sent := s.sent ++ text }

@[simp] theorem Sbi.say_sent (text : List UInt8) (s : Sbi) : (s.say text).sent = s.sent ++ text := rfl

@[simp] theorem Sbi.say_nil (s : Sbi) : s.say [] = s := by
  unfold say
  rw [List.append_nil]

@[simp] theorem Sbi.say_say (a b : List UInt8) (s : Sbi) : (s.say a).say b = s.say (a ++ b) := by
  unfold say
  rw [List.append_assoc]

/-- `kbd_enqueue_char`. -/
def kbdEnqueueChar (ch : UInt8) (s : Sbi) : Int × Sbi :=
  let next := ringNext kbdqCap s.kbdqTail
  if next = s.kbdqHead then (-1, s)
  else (0, { s with kbdqBuf := Function.update s.kbdqBuf s.kbdqTail ch, kbdqTail := next })

/-- What `printf("kbdq:deq ch=%d\n", ch)` sends. -/
def kbdqTrace (ch : UInt8) : List UInt8 :=
  (printf ("kbdq:deq ch=%d\n".toList.map char) [.word ch.toUInt32]).getD []

/-- `getchar`; the firmware answers `-1` when it has no character. -/
def getchar (s : Sbi) : Int × Sbi :=
  if s.kbdqHead ≠ s.kbdqTail then
    let ch := s.kbdqBuf s.kbdqHead
    (ch.toNat,
      { s with
        kbdqHead := ringNext kbdqCap s.kbdqHead
        sent := s.sent ++ kbdqTrace ch })
  else
    match s.typed with
    | [] => (-1, s)
    | ch :: typed => (ch.toNat, { s with typed := typed })

end Sugimotos.Syscall
