/-
# Programs that wait for answers

A program over a state that it shares with others.  It stops wherever it asks for something,
and goes on with the answer; what is between two questions runs in one piece.  Processes that
run such programs side by side may come between any question and its answer.  As long as no
program begins while another is under way, each returns what it returns alone.
-/

import Mathlib.Logic.Function.Basic

namespace Sugimotos.Math

universe u

/-- A program over a state of type `σ` that asks questions of type `ρ`. -/
inductive Prog (σ ρ α : Type u) : Type u
  | ret (a : α)
  | look (k : σ → Prog σ ρ α)
  | store (f : σ → σ) (next : Prog σ ρ α)
  | ask (q : ρ) (k : Bool → Prog σ ρ α)

namespace Prog

variable {σ ρ α β : Type u}

def bind : Prog σ ρ α → (α → Prog σ ρ β) → Prog σ ρ β
  | ret a, f => f a
  | look k, f => look fun s => (k s).bind f
  | store g next, f => store g (next.bind f)
  | ask q k, f => ask q fun ok => (k ok).bind f

instance : Monad (Prog σ ρ) where
  pure := ret
  bind := bind

/-- How far a program gets: it has returned, or waits for an answer. -/
inductive Pause (σ ρ α : Type u) : Type u
  | returned (a : α)
  | asks (q : ρ) (k : Bool → Prog σ ρ α)

/-- The program up to its next question. -/
def advance : Prog σ ρ α → σ → Pause σ ρ α × σ
  | ret a, s => (.returned a, s)
  | look k, s => (k s).advance s
  | store f next, s => next.advance (f s)
  | ask q k, s => (.asks q k, s)

/-- The program alone: every question is answered at once. -/
def run (serve : ρ → σ → Bool × σ) : Prog σ ρ α → σ → α × σ
  | ret a, s => (a, s)
  | look k, s => (k s).run serve s
  | store f next, s => next.run serve (f s)
  | ask q k, s => (k (serve q s).1).run serve (serve q s).2

/-- What a program that waits returns alone. -/
def Pause.rest (serve : ρ → σ → Bool × σ) : Pause σ ρ α → σ → α × σ
  | .returned a, s => (a, s)
  | .asks q k, s => (ask q k).run serve s

/-- To stop on the way changes nothing. -/
theorem advance_rest (serve : ρ → σ → Bool × σ) (p : Prog σ ρ α) (s : σ) :
    (p.advance s).1.rest serve (p.advance s).2 = p.run serve s := by
  induction p generalizing s with
  | ret a => rfl
  | look k ih => exact ih s s
  | store f next ih => exact ih (f s)
  | ask q k ih => rfl

theorem run_bind (serve : ρ → σ → Bool × σ) (p : Prog σ ρ α) (f : α → Prog σ ρ β) (s : σ) :
    (p >>= f).run serve s = (f (p.run serve s).1).run serve (p.run serve s).2 := by
  show (p.bind f).run serve s = _
  induction p generalizing s with
  | ret a => rfl
  | look k ih => exact ih s s
  | store g next ih => exact ih (g s)
  | ask q k ih => exact ih _ _

end Prog

/-! ## Processes side by side -/

variable {ι σ ρ α γ : Type u}

/-- What a process is at. -/
inductive Task (σ ρ α γ : Type u) : Type u
  | idle
  /-- It waits for an answer in a call that began in the state `before`. -/
  | asks (call : γ) (before : σ) (q : ρ) (k : Bool → Prog σ ρ α)
  /-- It has the answer, and has not gone on yet. -/
  | answered (call : γ) (before : σ) (ok : Bool) (k : Bool → Prog σ ρ α)

/-- A call that has returned. -/
structure Finished (σ α γ : Type u) where
  call : γ
  before : σ
  result : α

/-- The state, the processes, and the calls that have returned, the latest first. -/
structure Sharing (ι σ ρ α γ : Type u) where
  state : σ
  task : ι → Task σ ρ α γ
  finished : List (Finished σ α γ)

/-- What can happen next. -/
inductive Turn (ι γ : Type u)
  | call (i : ι) (c : γ)
  | answer (i : ι)
  | resume (i : ι)

namespace Sharing

variable [DecidableEq ι] (prog : γ → Prog σ ρ α) (serve : ρ → σ → Bool × σ)

def start (s : σ) : Sharing ι σ ρ α γ := ⟨s, fun _ => .idle, []⟩

/-- A call has returned. -/
def log (t : Sharing ι σ ρ α γ) (d : Finished σ α γ) : Sharing ι σ ρ α γ :=
  { t with finished := d :: t.finished }

/-- Process `i` has run up to its next question, or to its end. -/
def paused (t : Sharing ι σ ρ α γ) (i : ι) (c : γ) (before : σ) :
    Prog.Pause σ ρ α × σ → Sharing ι σ ρ α γ
  | (.returned a, s) => ⟨s, Function.update t.task i .idle, ⟨c, before, a⟩ :: t.finished⟩
  | (.asks q k, s) => ⟨s, Function.update t.task i (.asks c before q k), t.finished⟩

/-- A process begins a call, unless it is in one. -/
def begins (t : Sharing ι σ ρ α γ) (i : ι) (c : γ) : Sharing ι σ ρ α γ :=
  match t.task i with
  | .idle => t.paused i c t.state ((prog c).advance t.state)
  | .asks _ _ _ _ => t
  | .answered _ _ _ _ => t

/-- What a process has asked is answered. -/
def answer (t : Sharing ι σ ρ α γ) (i : ι) : Sharing ι σ ρ α γ :=
  match t.task i with
  | .idle => t
  | .asks c before q k =>
      ⟨(serve q t.state).2, Function.update t.task i (.answered c before (serve q t.state).1 k),
        t.finished⟩
  | .answered _ _ _ _ => t

/-- A process goes on with its answer. -/
def resume (t : Sharing ι σ ρ α γ) (i : ι) : Sharing ι σ ρ α γ :=
  match t.task i with
  | .idle => t
  | .asks _ _ _ _ => t
  | .answered c before ok k => t.paused i c before ((k ok).advance t.state)

def turn (t : Sharing ι σ ρ α γ) : Turn ι γ → Sharing ι σ ρ α γ
  | .call i c => t.begins prog i c
  | .answer i => t.answer serve i
  | .resume i => t.resume i

def turns (ops : List (Turn ι γ)) (t : Sharing ι σ ρ α γ) : Sharing ι σ ρ α γ :=
  ops.foldl (turn prog serve) t

/-- Every call that has returned has the result that it has alone. -/
def Undisturbed (t : Sharing ι σ ρ α γ) : Prop :=
  ∀ d ∈ t.finished, d.result = ((prog d.call).run serve d.before).1

/-- No call is under way. -/
def Quiet (t : Sharing ι σ ρ α γ) : Prop := ∀ i, t.task i = .idle

/-- No one of `is` is in a call. -/
def quiet (is : List ι) (t : Sharing ι σ ρ α γ) : Bool :=
  is.all fun i =>
    match t.task i with
    | .idle => true
    | .asks _ _ _ _ => false
    | .answered _ _ _ _ => false

omit [DecidableEq ι] in
theorem Quiet.of_quiet {is : List ι} {t : Sharing ι σ ρ α γ} (hall : ∀ i, i ∈ is)
    (h : t.quiet is = true) : t.Quiet := by
  intro i
  have hi := List.all_eq_true.mp h i (hall i)
  cases htask : t.task i with
  | idle => rfl
  | asks c before q k =>
      rw [htask] at hi
      cases hi
  | answered c before ok k =>
      rw [htask] at hi
      cases hi

end Sharing

section Runs

variable [DecidableEq ι] (prog : γ → Prog σ ρ α) (serve : ρ → σ → Bool × σ)

/-- If this begins a call, then no other one is under way, or the call is one that uses nothing
shared. -/
def Turn.Alone (free : γ → Bool) (t : Sharing ι σ ρ α γ) : Turn ι γ → Prop
  | .call i c => t.task i = .idle → t.Quiet ∨ free c = true
  | .answer _ => True
  | .resume _ => True

/-- The runs in which one call comes after the other. -/
inductive OneByOne (free : γ → Bool) : Sharing ι σ ρ α γ → Prop
  | start (s : σ) : OneByOne free (.start s)
  | turn {t : Sharing ι σ ρ α γ} (h : OneByOne free t) (op : Turn ι γ)
      (halone : op.Alone free t) : OneByOne free (t.turn prog serve op)

/-- What is left of a call leads to what the call returns alone. -/
def Task.OnTrack (s : σ) : Task σ ρ α γ → Prop
  | .idle => True
  | .asks c before q k => (Prog.ask q k).run serve s = (prog c).run serve before
  | .answered c before ok k => (k ok).run serve s = (prog c).run serve before

/-- At most the process `i` is in a call, and all is well with it. -/
structure Sharing.Serial (t : Sharing ι σ ρ α γ) (i : ι) : Prop where
  undisturbed : t.Undisturbed prog serve
  others : ∀ j, j ≠ i → t.task j = .idle
  onTrack : (t.task i).OnTrack prog serve t.state

variable {prog serve} {t : Sharing ι σ ρ α γ} {i : ι}

theorem Sharing.Serial.paused (h : t.Serial prog serve i) {c : γ} {before : σ}
    {p : Prog σ ρ α} (hp : p.run serve t.state = (prog c).run serve before) :
    (t.paused i c before (p.advance t.state)).Serial prog serve i := by
  have hrest := (p.advance_rest serve t.state).trans hp
  generalize p.advance t.state = out at hrest ⊢
  obtain ⟨pause, s⟩ := out
  have hothers : ∀ task j, j ≠ i → Function.update t.task i task j = .idle := by
    intro task j hj
    rw [Function.update_of_ne hj]
    exact h.others j hj
  cases pause with
  | returned a =>
      refine ⟨fun d hd => ?_, hothers _, ?_⟩
      · rcases List.mem_cons.mp hd with rfl | hold
        · exact congrArg Prod.fst hrest
        · exact h.undisturbed d hold
      · show (Function.update t.task i .idle i).OnTrack prog serve s
        rw [Function.update_self]
        trivial
  | asks q k =>
      refine ⟨h.undisturbed, hothers _, ?_⟩
      show (Function.update t.task i (.asks c before q k) i).OnTrack prog serve s
      rw [Function.update_self]
      exact hrest

theorem Sharing.Serial.answer (h : t.Serial prog serve i) :
    (t.answer serve i).Serial prog serve i := by
  have htrack := h.onTrack
  unfold Sharing.answer
  cases htask : t.task i with
  | idle => exact h
  | asks c before q k =>
      rw [htask] at htrack
      refine ⟨h.undisturbed, fun j hj => ?_, ?_⟩
      · dsimp only
        rw [Function.update_of_ne hj]
        exact h.others j hj
      · dsimp only
        rw [Function.update_self]
        exact htrack
  | answered c before ok k => exact h

theorem Sharing.Serial.resume (h : t.Serial prog serve i) : (t.resume i).Serial prog serve i := by
  have htrack := h.onTrack
  unfold Sharing.resume
  cases htask : t.task i with
  | idle => exact h
  | asks c before q k => exact h
  | answered c before ok k =>
      rw [htask] at htrack
      exact h.paused htrack

theorem Sharing.begins_idle {c : γ} (hidle : t.task i = .idle) :
    t.begins prog i c = t.paused i c t.state ((prog c).advance t.state) := by
  unfold Sharing.begins
  rw [hidle]

theorem Sharing.begins_busy {c : γ} (hbusy : t.task i ≠ .idle) : t.begins prog i c = t := by
  unfold Sharing.begins
  cases htask : t.task i with
  | idle => exact absurd htask hbusy
  | asks c' before q k => rfl
  | answered c' before ok k => rfl

/-- A call that uses nothing that is shared. -/
theorem Sharing.begins_ret {c : γ} {a : α} (hidle : t.task i = .idle) (hret : prog c = .ret a) :
    t.begins prog i c = t.log ⟨c, t.state, a⟩ := by
  have hsame : Function.update t.task i .idle = t.task := by
    rw [← hidle]
    exact Function.update_eq_self i t.task
  rw [Sharing.begins_idle hidle, hret]
  show Sharing.mk t.state (Function.update t.task i .idle) _ = _
  rw [hsame]
  rfl

omit [DecidableEq ι] in
theorem Sharing.log_undisturbed {c : γ} {a : α} (h : t.Undisturbed prog serve)
    (hret : prog c = .ret a) : (t.log ⟨c, t.state, a⟩).Undisturbed prog serve := by
  intro d hd
  rcases List.mem_cons.mp hd with rfl | hold
  · show a = ((prog c).run serve t.state).1
    rw [hret]
    rfl
  · exact h d hold

theorem Sharing.answer_idle (hidle : t.task i = .idle) : t.answer serve i = t := by
  unfold Sharing.answer
  rw [hidle]

theorem Sharing.resume_idle (hidle : t.task i = .idle) : t.resume i = t := by
  unfold Sharing.resume
  rw [hidle]

theorem OneByOne.serial {free : γ → Bool} (hfree : ∀ c, free c = true → ∃ a, prog c = .ret a)
    (h : OneByOne prog serve free t) : t.Undisturbed prog serve ∧
      (t.Quiet ∨ ∃ i, t.Serial prog serve i) := by
  induction h with
  | start s =>
      refine ⟨fun d hd => ?_, .inl fun _ => rfl⟩
      cases hd
  | @turn t hrun op halone ih =>
      have hundisturbed := ih.1
      -- A process that has nothing to do, or the one that is in a call.
      have hown : ∀ i, t.task i = .idle ∨ t.Serial prog serve i := by
        intro i
        rcases ih.2 with hquiet | ⟨j, hj⟩
        · exact .inl (hquiet i)
        · by_cases hij : i = j
          · exact .inr (hij ▸ hj)
          · exact .inl (hj.others i hij)
      cases op with
      | call i c =>
          cases htask : t.task i with
          | idle =>
              rcases halone htask with hquiet | hc
              · have hserial : t.Serial prog serve i :=
                  ⟨hundisturbed, fun j _ => hquiet j, by rw [htask]; trivial⟩
                have hpaused := hserial.paused (c := c) (p := prog c) rfl
                have hturn : t.turn prog serve (.call i c) =
                    t.paused i c t.state ((prog c).advance t.state) := Sharing.begins_idle htask
                rw [hturn]
                exact ⟨hpaused.undisturbed, .inr ⟨i, hpaused⟩⟩
              · obtain ⟨a, hret⟩ := hfree c hc
                have hturn : t.turn prog serve (.call i c) = t.log ⟨c, t.state, a⟩ :=
                  Sharing.begins_ret htask hret
                have hlog := Sharing.log_undisturbed hundisturbed hret
                rw [hturn]
                exact ⟨hlog, ih.2.imp id fun ⟨j, hj⟩ => ⟨j, hlog, hj.others, hj.onTrack⟩⟩
          | asks c' before q k =>
              have hturn : t.turn prog serve (.call i c) = t := Sharing.begins_busy fun hno => by
                rw [htask] at hno
                cases hno
              rw [hturn]
              exact ih
          | answered c' before ok k =>
              have hturn : t.turn prog serve (.call i c) = t := Sharing.begins_busy fun hno => by
                rw [htask] at hno
                cases hno
              rw [hturn]
              exact ih
      | answer i =>
          rcases hown i with hidle | hserial
          · have hsame : t.turn prog serve (.answer i) = t := Sharing.answer_idle hidle
            rw [hsame]
            exact ih
          · exact ⟨hserial.answer.undisturbed, .inr ⟨i, hserial.answer⟩⟩
      | resume i =>
          rcases hown i with hidle | hserial
          · have hsame : t.turn prog serve (.resume i) = t := Sharing.resume_idle hidle
            rw [hsame]
            exact ih
          · exact ⟨hserial.resume.undisturbed, .inr ⟨i, hserial.resume⟩⟩

/-- Calls that come one after the other return what they return alone. -/
theorem OneByOne.undisturbed {free : γ → Bool} (hfree : ∀ c, free c = true → ∃ a, prog c = .ret a)
    (h : OneByOne prog serve free t) : t.Undisturbed prog serve := (h.serial hfree).1

variable (prog serve) in
/-- Each of these turns, from `t` on, begins no call next to another one. -/
def Sharing.aloneFrom (free : γ → Bool) (is : List ι) :
    List (Turn ι γ) → Sharing ι σ ρ α γ → Bool
  | [], _ => true
  | .call i c :: ops, t =>
      (t.quiet is || free c) && aloneFrom free is ops (t.turn prog serve (.call i c))
  | .answer i :: ops, t => aloneFrom free is ops (t.turn prog serve (.answer i))
  | .resume i :: ops, t => aloneFrom free is ops (t.turn prog serve (.resume i))

theorem OneByOne.turns {free : γ → Bool} (is : List ι) (hall : ∀ i, i ∈ is)
    {ops : List (Turn ι γ)} (h : OneByOne prog serve free t)
    (hops : t.aloneFrom prog serve free is ops = true) :
    OneByOne prog serve free (t.turns prog serve ops) := by
  induction ops generalizing t with
  | nil => exact h
  | cons op ops ih =>
      cases op with
      | call i c =>
          obtain ⟨halone, hrest⟩ := Bool.and_eq_true_iff.mp hops
          refine ih (h.turn (.call i c) fun _ => ?_) hrest
          rcases Bool.or_eq_true_iff.mp halone with hquiet | hfree
          · exact .inl (.of_quiet hall hquiet)
          · exact .inr hfree
      | answer i => exact ih (h.turn (.answer i) trivial) hops
      | resume i => exact ih (h.turn (.resume i) trivial) hops

end Runs

end Sugimotos.Math
