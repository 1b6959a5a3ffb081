import EvmLift.Pseudocode.Routine
import EvmLift.Proofs.Semantics.Observation

/-!
# Running statements

A frame gives words to parameters and variables. Running statements in order, without
regard to where jumps go, yields what can be observed of them. A statement that reads
a value without a word has no run.
-/

namespace EvmLift

/-- The words of parameters and variables. -/
structure Frame where
  params : Nat → Option Word
  vars : Nat → Option Word := fun _ => none

namespace Frame

/-- The word of a value. -/
def value? (frame : Frame) : Value → Option Word
  | .const word => some word
  | .var id => frame.vars id
  | .param index => frame.params index

/-- The words of values. -/
def values? (frame : Frame) : List Value → Option (List Word)
  | [] => some []
  | value :: rest => do
      let word ← frame.value? value
      let words ← frame.values? rest
      return word :: words

/-- Values have words exactly if each of them has its word. -/
theorem values?_eq_some_iff {frame : Frame} {values : List Value} {words : List Word} :
    frame.values? values = some words ↔ values.map frame.value? = words.map some := by
  induction values generalizing words with
  | nil => cases words <;> simp [values?]
  | cons value rest ih =>
      simp only [values?, Option.bind_eq_bind, Option.bind_eq_some_iff, Option.pure_def,
        Option.some.injEq]
      cases words with
      | nil => simp
      | cons word words =>
          simp only [List.map_cons, List.cons.injEq, ← ih]
          constructor
          · rintro ⟨first, found, others, rest, rfl, rfl⟩
            exact ⟨found, rest⟩
          · rintro ⟨found, rest⟩
            exact ⟨word, found, words, rest, rfl, rfl⟩

theorem length_of_values? {frame : Frame} {values : List Value} {words : List Word}
    (found : frame.values? values = some words) : words.length = values.length := by
  simpa using (congrArg List.length (values?_eq_some_iff.mp found)).symm

theorem values?_take {frame : Frame} {values : List Value} {words : List Word}
    (found : frame.values? values = some words) (count : Nat) :
    frame.values? (values.take count) = some (words.take count) := by
  rw [values?_eq_some_iff] at found ⊢
  rw [List.map_take, found, List.map_take]

/-- Give a word to a variable. -/
def set (frame : Frame) (id : Nat) (word : Word) : Frame :=
  { frame with vars := fun other => if other = id then some word else frame.vars other }

/-- Give a word to a target. Only variables can be given one. -/
def store (frame : Frame) : Value → Word → Frame
  | .var id, word => frame.set id word
  | _, _ => frame

/-- Give words to targets, in order. -/
def assign (frame : Frame) : List Value → List Word → Frame
  | target :: targets, word :: words => (frame.store target word).assign targets words
  | _, _ => frame

@[simp] theorem params_store (frame : Frame) (target : Value) (word : Word) :
    (frame.store target word).params = frame.params := by
  cases target <;> rfl

theorem vars_store_of_ne {frame : Frame} {target : Value} {id : Nat} (other : .var id ≠ target)
    (word : Word) : (frame.store target word).vars id = frame.vars id := by
  cases target with
  | var stored =>
      simp only [store, set]
      exact if_neg fun equal => other (congrArg Value.var equal)
  | const | param => rfl

@[simp] theorem params_assign (frame : Frame) (targets : List Value) (words : List Word) :
    (frame.assign targets words).params = frame.params := by
  induction targets generalizing frame words with
  | nil => rfl
  | cons target targets ih =>
      cases words with
      | nil => rfl
      | cons word words => rw [assign, ih, params_store]

/-- Assigning leaves the variables alone that are no targets. -/
theorem vars_assign_of_not_mem {frame : Frame} {targets : List Value} {words : List Word}
    {id : Nat} (fresh : .var id ∉ targets) :
    (frame.assign targets words).vars id = frame.vars id := by
  induction targets generalizing frame words with
  | nil => rfl
  | cons target targets ih =>
      cases words with
      | nil => rfl
      | cons word words =>
          rw [List.mem_cons, not_or] at fresh
          rw [assign, ih fresh.2, vars_store_of_ne fresh.1]

/-- Consecutive variables hold the words that they are assigned. -/
theorem map_vars_assign_range' (frame : Frame) (start : Nat) (words : List Word) :
    (List.range' start words.length).map
        (frame.assign ((List.range' start words.length).map Value.var) words).vars =
      words.map some := by
  induction words generalizing frame start with
  | nil => rfl
  | cons word words ih =>
      have above : .var start ∉ (List.range' (start + 1) words.length).map Value.var := by
        intro member
        obtain ⟨later, inside, equal⟩ := List.mem_map.mp member
        cases equal
        rw [List.mem_range'_1] at inside
        omega
      have kept : ((frame.store (.var start) word).assign
          ((List.range' (start + 1) words.length).map Value.var) words).vars start =
            some word := by
        rw [vars_assign_of_not_mem above]
        simp [store, set]
      simp only [List.length_cons, List.range'_succ, List.map_cons, assign, kept, ih]

/-- Where a callee leads. -/
def destination? (frame : Frame) : Callee → Option Destination
  | .routine name => some (.routine name)
  | .fault => some .fault
  | .computed value => (frame.value? value).map .offset

/-- The word of a condition, if there is one. -/
def condition? (frame : Frame) : Option Value → Option (Option Word)
  | some value => (frame.value? value).map some
  | none => some none

end Frame

/-- A frame in the course of a run, with what was seen so far. -/
structure Run where
  frame : Frame
  seen : List Observation := []

namespace Statement

/-- Run one statement. -/
def perform (reading : Reading) (run : Run) : Statement → Option Run
  | .assign offset targets op operands => do
      let words ← run.frame.values? operands
      let event : Event := ⟨offset, op, words⟩
      let results := event.results (reading.answer run.seen event)
      return ⟨run.frame.assign targets results, run.seen ++ reading.sight event⟩
  | .jump offset callee condition args => do
      let destination ← run.frame.destination? callee
      let condition ← run.frame.condition? condition
      let words ← run.frame.values? args
      return ⟨run.frame, run.seen ++ [.jumped offset destination condition words]⟩

theorem perform_assign_eq_some {reading : Reading} {run after : Run} {offset : Nat}
    {targets : List Value} {op : Opcode} {operands : List Value} :
    (assign offset targets op operands).perform reading run = some after ↔
      ∃ words, run.frame.values? operands = some words ∧
        after = ⟨run.frame.assign targets (Event.results ⟨offset, op, words⟩
            (reading.answer run.seen ⟨offset, op, words⟩)),
          run.seen ++ reading.sight ⟨offset, op, words⟩⟩ := by
  simp [perform, Option.bind_eq_some_iff, eq_comm (a := after)]

theorem perform_jump_eq_some {reading : Reading} {run after : Run}
    {offset : Option Nat} {callee : Callee} {condition : Option Value} {args : List Value} :
    (jump offset callee condition args).perform reading run = some after ↔
      ∃ destination decided words, run.frame.destination? callee = some destination ∧
        run.frame.condition? condition = some decided ∧ run.frame.values? args = some words ∧
        after = ⟨run.frame, run.seen ++ [.jumped offset destination decided words]⟩ := by
  simp only [perform, Option.bind_eq_bind, Option.bind_eq_some_iff, Option.pure_def,
    Option.some.injEq]
  constructor
  · rintro ⟨destination, leads, decided, known, words, found, rfl⟩
    exact ⟨destination, decided, words, leads, known, found, rfl⟩
  · rintro ⟨destination, decided, words, leads, known, found, rfl⟩
    exact ⟨destination, leads, decided, known, words, found, rfl⟩

/-- Run statements in order. -/
def performAll (reading : Reading) (run : Run) : List Statement → Option Run
  | [] => some run
  | statement :: rest => do
      let next ← statement.perform reading run
      performAll reading next rest

theorem performAll_cons_eq_some {reading : Reading} {run final : Run} {statement : Statement}
    {rest : List Statement} :
    performAll reading run (statement :: rest) = some final ↔
      ∃ next, statement.perform reading run = some next ∧
        performAll reading next rest = some final := by
  simp [performAll, Option.bind_eq_some_iff]

@[simp] theorem performAll_singleton (reading : Reading) (run : Run) (statement : Statement) :
    performAll reading run [statement] = statement.perform reading run := by
  simp [performAll]

theorem performAll_append (reading : Reading) (run : Run) (first second : List Statement) :
    performAll reading run (first ++ second) =
      (performAll reading run first).bind fun next => performAll reading next second := by
  induction first generalizing run with
  | nil => rfl
  | cons statement rest ih =>
      simp only [List.cons_append, performAll, Option.bind_eq_bind, Option.bind_assoc]
      exact congrArg _ (funext fun next => ih next)

end Statement

namespace Routine

/-- What is seen of a routine in a frame, and the words that it returns. -/
def runIn? (interpretation : Interpretation) (frame : Frame) (routine : Routine) :
    Option (List Observation × List Word) := do
  let run ← Statement.performAll interpretation ⟨frame, []⟩ routine.body
  let words ← run.frame.values? routine.returns
  return (run.seen, words)

theorem runIn?_eq_some_iff {interpretation : Interpretation} {frame : Frame} {routine : Routine}
    {seen : List Observation} {words : List Word} :
    routine.runIn? interpretation frame = some (seen, words) ↔
      ∃ run, Statement.performAll interpretation ⟨frame, []⟩ routine.body = some run ∧
        run.frame.values? routine.returns = some words ∧ run.seen = seen := by
  simp only [runIn?, Option.bind_eq_bind, Option.bind_eq_some_iff, Option.pure_def,
    Option.some.injEq, Prod.mk.injEq]
  constructor
  · rintro ⟨run, performs, words, returns, rfl, rfl⟩
    exact ⟨run, performs, returns, rfl⟩
  · rintro ⟨run, performs, returns, rfl⟩
    exact ⟨run, performs, words, returns, rfl, rfl⟩

/-- What is seen of a routine on arguments, and the words that it returns. There are no variables
before it runs. -/
def meaning? (interpretation : Interpretation) (params : Nat → Option Word)
    (routine : Routine) : Option (List Observation × List Word) :=
  routine.runIn? interpretation ⟨params, fun _ => none⟩

end Routine

end EvmLift
