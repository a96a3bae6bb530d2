/-
# Wait queues

Model of `kernel/process/waitq.c`: the bodies of `waitq_sleep` and
`waitq_wake_all` between the locking and the unlocking of the queue.  A queue has
as many entries as there are process slots, so a process that is not in it always
finds room.
-/

import Sugimotos.Proc.State

namespace Sugimotos.Drivers

open Sugimotos.Mm Sugimotos.Proc

/-- The `waiters` of a `struct waitq`. -/
abbrev Waiters := Fin procMax → Option (Fin procMax)

/-- The `state` fields of `procs`. -/
abbrev ProcStates := Fin procMax → ProcState

/-- `waitq_contains`. -/
def waitqContains (waiters : Waiters) (p : Fin procMax) : Bool :=
  (List.finRange procMax).any fun i => decide (waiters i = some p)

/-- The region of `waitq_sleep`: the current process is entered unless it is there. -/
def waitqRegister (waiters : Waiters) (p : Fin procMax) : Waiters :=
  if waitqContains waiters p then waiters
  else
    match (List.finRange procMax).find? fun i => decide (waiters i = none) with
    | none => waiters
    | some i => Function.update waiters i (some p)

/-- One round of the loop in `waitq_wake_all`. -/
def wakeEntry (w : Waiters × ProcStates) (i : Fin procMax) : Waiters × ProcStates :=
  match w.1 i with
  | none => w
  | some p =>
      (Function.update w.1 i none,
        if w.2 p = .blocked then Function.update w.2 p .runnable else w.2)

/-- The region of `waitq_wake_all`. -/
def waitqWakeAll (waiters : Waiters) (states : ProcStates) : Waiters × ProcStates :=
  (List.finRange procMax).foldl wakeEntry (waiters, states)

/-- The process has an entry. -/
def Registered (waiters : Waiters) (p : Fin procMax) : Prop := ∃ i, waiters i = some p

instance (waiters : Waiters) (p : Fin procMax) : Decidable (Registered waiters p) :=
  inferInstanceAs (Decidable (∃ i, waiters i = some p))

/-- No process has two entries. -/
def Distinct (waiters : Waiters) : Prop :=
  ∀ i j p, waiters i = some p → waiters j = some p → i = j

theorem waitqContains_iff {waiters : Waiters} {p : Fin procMax} :
    waitqContains waiters p = true ↔ Registered waiters p := by
  simp [waitqContains, Registered]

/-! ## Registration -/

/-- A queue without room contains every process. -/
theorem Distinct.full {waiters : Waiters} (h : Distinct waiters) (hfull : ∀ i, waiters i ≠ none)
    (p : Fin procMax) : Registered waiters p := by
  choose entry hentry using fun i => Option.ne_none_iff_exists'.mp (hfull i)
  have hinj : Function.Injective entry := by
    intro i j hij
    exact h i j (entry j) (hij ▸ hentry i) (hentry j)
  obtain ⟨i, hi⟩ := Finite.surjective_of_injective hinj p
  exact ⟨i, hi ▸ hentry i⟩

/-- What registering a process does: it is there already, or it goes into a free
entry. -/
theorem Distinct.register {waiters : Waiters} (h : Distinct waiters) (p : Fin procMax) :
    waitqRegister waiters p = waiters ∧ Registered waiters p ∨
      ¬ Registered waiters p ∧
        ∃ i, waiters i = none ∧ waitqRegister waiters p = Function.update waiters i (some p) := by
  unfold waitqRegister
  by_cases hin : waitqContains waiters p = true
  · rw [if_pos hin]
    exact Or.inl ⟨rfl, waitqContains_iff.mp hin⟩
  · have hout : ¬ Registered waiters p := fun hreg => hin (waitqContains_iff.mpr hreg)
    rw [if_neg hin]
    refine Or.inr ⟨hout, ?_⟩
    cases hfind : (List.finRange procMax).find? fun i => decide (waiters i = none) with
    | none =>
        have hfull : ∀ i, waiters i ≠ none := fun i =>
          of_decide_eq_false (by simpa using List.find?_eq_none.mp hfind i (List.mem_finRange i))
        exact absurd (h.full hfull p) hout
    | some i =>
        have hi := List.find?_some hfind
        exact ⟨i, of_decide_eq_true hi, rfl⟩

/-- The process is never left out for lack of room. -/
theorem Distinct.registered {waiters : Waiters} (h : Distinct waiters) (p : Fin procMax) :
    Registered (waitqRegister waiters p) p := by
  rcases h.register p with ⟨heq, hreg⟩ | ⟨-, i, -, heq⟩
  · rw [heq]
    exact hreg
  · rw [heq]
    exact ⟨i, Function.update_self ..⟩

theorem Distinct.waitqRegister {waiters : Waiters} (h : Distinct waiters) (p : Fin procMax) :
    Distinct (waitqRegister waiters p) := by
  rcases h.register p with ⟨heq, -⟩ | ⟨hout, i, -, heq⟩
  · rw [heq]
    exact h
  · rw [heq]
    intro j l q hj hl
    by_cases hji : j = i <;> by_cases hli : l = i
    · rw [hji, hli]
    · subst hji
      rw [Function.update_self] at hj
      rw [Function.update_of_ne hli] at hl
      cases hj
      exact absurd ⟨l, hl⟩ hout
    · subst hli
      rw [Function.update_self] at hl
      rw [Function.update_of_ne hji] at hj
      cases hl
      exact absurd ⟨j, hj⟩ hout
    · rw [Function.update_of_ne hji] at hj
      rw [Function.update_of_ne hli] at hl
      exact h j l q hj hl

/-- Nobody loses an entry. -/
theorem Distinct.register_keep {waiters : Waiters} (h : Distinct waiters) {p q : Fin procMax}
    (hq : Registered waiters q) : Registered (Drivers.waitqRegister waiters p) q := by
  rcases h.register p with ⟨heq, -⟩ | ⟨-, i, hfree, heq⟩
  · rw [heq]
    exact hq
  · obtain ⟨j, hj⟩ := hq
    have hji : j ≠ i := by
      rintro rfl
      rw [hfree] at hj
      cases hj
    rw [heq]
    exact ⟨j, by rw [Function.update_of_ne hji]; exact hj⟩

/-! ## Waking -/

/-- A process is as it was, or it was blocked and is runnable now. -/
def Woken (states states' : ProcStates) : Prop :=
  ∀ p, states' p = states p ∨ states p = .blocked ∧ states' p = .runnable

theorem Woken.trans {states₁ states₂ states₃ : ProcStates} (h : Woken states₁ states₂)
    (h' : Woken states₂ states₃) : Woken states₁ states₃ := by
  intro p
  rcases h p with heq | ⟨hold, hnew⟩
  · rw [← heq]
    exact h' p
  · rcases h' p with heq' | ⟨hold', -⟩
    · exact Or.inr ⟨hold, heq'.trans hnew⟩
    · rw [hnew] at hold'
      cases hold'

/-- A process that is not blocked stays so. -/
theorem Woken.awake {states states' : ProcStates} (h : Woken states states') {p : Fin procMax}
    (hp : states p ≠ .blocked) : states' p ≠ .blocked := by
  rcases h p with heq | ⟨hold, -⟩
  · rw [heq]
    exact hp
  · exact absurd hold hp

theorem wakeEntry_woken (w : Waiters × ProcStates) (i : Fin procMax) :
    Woken w.2 (wakeEntry w i).2 := by
  intro p
  unfold wakeEntry
  split
  · exact Or.inl rfl
  · rename_i q _
    dsimp only
    split
    · rename_i hblocked
      by_cases hpq : p = q
      · subst hpq
        exact Or.inr ⟨hblocked, Function.update_self ..⟩
      · exact Or.inl (Function.update_of_ne hpq ..)
    · exact Or.inl rfl

/-- The process of the entry is awake. -/
theorem wakeEntry_awake {w : Waiters × ProcStates} {i p : Fin procMax} (hp : w.1 i = some p) :
    (wakeEntry w i).2 p ≠ .blocked := by
  unfold wakeEntry
  rw [hp]
  dsimp only
  split
  · rw [Function.update_self]
    exact nofun
  · rename_i hno
    exact hno

/-- Only the entry itself is cleared. -/
theorem wakeEntry_waiters (w : Waiters × ProcStates) (i : Fin procMax) :
    (wakeEntry w i).1 i = none ∧ ∀ j, j ≠ i → (wakeEntry w i).1 j = w.1 j := by
  unfold wakeEntry
  split
  · rename_i hnone
    exact ⟨hnone, fun _ _ => rfl⟩
  · exact ⟨Function.update_self .., fun j hj => Function.update_of_ne hj ..⟩

theorem wakeEntry_foldl (slots : List (Fin procMax)) (w : Waiters × ProcStates) :
    Woken w.2 (slots.foldl wakeEntry w).2 ∧
      (∀ i, i ∈ slots ∨ w.1 i = none → (slots.foldl wakeEntry w).1 i = none) ∧
      ∀ i p, i ∈ slots → w.1 i = some p → (slots.foldl wakeEntry w).2 p ≠ .blocked := by
  induction slots generalizing w with
  | nil => exact ⟨fun _ => Or.inl rfl, fun i hi => hi.resolve_left (by simp), nofun⟩
  | cons j slots ih =>
      rw [List.foldl_cons]
      obtain ⟨hwoken, hgone, hawake⟩ := ih (wakeEntry w j)
      obtain ⟨hself, hother⟩ := wakeEntry_waiters w j
      refine ⟨(wakeEntry_woken w j).trans hwoken, fun i hi => hgone i ?_, fun i p hi hp => ?_⟩
      · by_cases hij : i = j
        · subst hij
          exact Or.inr hself
        · rcases hi with hi | hi
          · exact Or.inl ((List.mem_cons.mp hi).resolve_left hij)
          · exact Or.inr ((hother i hij).trans hi)
      · by_cases hij : i = j
        · subst hij
          exact hwoken.awake (wakeEntry_awake hp)
        · exact hawake i p ((List.mem_cons.mp hi).resolve_left hij) ((hother i hij).trans hp)

/-- Waking a queue empties it, and leaves nobody in it blocked. -/
theorem waitqWakeAll_spec (waiters : Waiters) (states : ProcStates) :
    Woken states (waitqWakeAll waiters states).2 ∧
      (∀ i, (waitqWakeAll waiters states).1 i = none) ∧
      ∀ p, Registered waiters p → (waitqWakeAll waiters states).2 p ≠ .blocked := by
  obtain ⟨hwoken, hgone, hawake⟩ := wakeEntry_foldl (List.finRange procMax) (waiters, states)
  refine ⟨hwoken, fun i => hgone i (Or.inl (List.mem_finRange i)), ?_⟩
  rintro p ⟨i, hi⟩
  exact hawake i p (List.mem_finRange i) hi

end Sugimotos.Drivers
