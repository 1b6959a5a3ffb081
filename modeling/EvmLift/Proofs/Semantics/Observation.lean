import EvmLift.Instruction

/-!
# What can be observed of a run

Whatever runs code, be it instructions on a stack or statements on variables, performs
operations and meets jumps. The theorems about both say that they do so alike. This
module fixes what an observer sees and how the results of opcodes are given: they are a
parameter, and may depend on everything that was seen before.
-/

namespace EvmLift

/-- An opcode at an offset, performed on words. -/
structure Event where
  offset : Nat
  op : Opcode
  /-- The operands, top of the stack first. -/
  operands : List Word
  deriving Repr, DecidableEq

namespace Event

/-- The words that an event leaves, given an answer for each of its results. A push
leaves the constant that it carries. -/
def results (event : Event) (answer : Nat → Word) : List Word :=
  if event.op.isPush then event.operands else (List.range event.op.pushes).map answer

end Event

/-- Where a jump goes, as far as the code that meets it knows. -/
inductive Destination where
  /-- The start of a known routine. -/
  | routine (name : String)
  /-- A known offset at which nothing starts. -/
  | fault
  /-- The offset that a word says. -/
  | offset (word : Word)
  deriving Repr, DecidableEq

/-- What an observer sees of a run that takes no notice of control flow. -/
inductive Observation where
  | performed (event : Event)
  /-- A jump with the values that decide it and the values that it passes. -/
  | jumped (offset : Option Nat) (destination : Destination) (condition : Option Word)
      (args : List Word)
  deriving Repr, DecidableEq

namespace Observation

/-- The event that is observed. -/
def event? : Observation → Option Event
  | .performed event => some event
  | .jumped .. => none

/-- Whether control does not go on after what is observed. -/
def isExit : Observation → Bool
  | .performed event => event.op.terminates
  | .jumped _ _ condition _ => condition != some 0

/-- The first exit among observations, with what is observed before it. -/
def firstExit? : List Observation → Option (List Observation × Observation)
  | [] => none
  | first :: rest =>
      if first.isExit then some ([], first)
      else (firstExit? rest).map fun found => (first :: found.1, found.2)

theorem firstExit?_append {quiet : List Observation}
    (goesOn : ∀ observation ∈ quiet, observation.isExit = false) (rest : List Observation) :
    firstExit? (quiet ++ rest) =
      (firstExit? rest).map fun found => (quiet ++ found.1, found.2) := by
  induction quiet with
  | nil => simp
  | cons first quiet ih =>
      rw [List.forall_mem_cons] at goesOn
      simp [firstExit?, goesOn.1, ih goesOn.2, Function.comp_def]

/-- An exit that is observed has a first one. -/
theorem firstExit?_ne_none {observations : List Observation} {exit : Observation}
    (member : exit ∈ observations) (exits : exit.isExit = true) :
    firstExit? observations ≠ none := by
  induction observations with
  | nil => cases member
  | cons first rest ih =>
      rw [firstExit?]
      split
      · simp
      next goesOn =>
        rcases List.mem_cons.mp member with rfl | later
        · exact absurd exits goesOn
        · simpa using ih later

theorem firstExit?_cons {exit : Observation} (exits : exit.isExit = true)
    (rest : List Observation) : firstExit? (exit :: rest) = some ([], exit) := by
  simp [firstExit?, exits]

end Observation

/-- What is seen of opcodes, and what they leave. -/
structure Reading where
  /-- Whether an opcode is seen when it is performed. -/
  observes : Opcode → Bool
  /-- The results of an event, after what was seen before it. -/
  answer : List Observation → Event → Nat → Word

/-- What is seen of an event. -/
def Reading.sight (reading : Reading) (event : Event) : List Observation :=
  if reading.observes event.op then [.performed event] else []

/-- How opcodes are understood. -/
structure Interpretation extends Reading where
  /-- Where a constant comes from is never seen. -/
  push_silent : ∀ op : Opcode, op.isPush = true → observes op = false

instance : Coe Interpretation Reading := ⟨Interpretation.toReading⟩

namespace Interpretation

/-- The interpretation that runs the operators of opcodes and shows the opcodes that have
none. Their results are given by an answer. -/
def evaluating (answer : List Observation → Event → Nat → Word) : Interpretation where
  observes op := !op.isPush && op.operator.isNone
  push_silent op push := by simp [push]
  answer seen event index :=
    (event.op.operator.bind fun operator => operator.compute? event.operands).getD
      (answer seen event index)

/-- Results depend on the events before, whatever jumps were met. -/
def IgnoresJumps (interpretation : Interpretation) : Prop :=
  ∀ first second : List Observation,
    first.filterMap Observation.event? = second.filterMap Observation.event? →
      interpretation.answer first = interpretation.answer second

end Interpretation

end EvmLift
