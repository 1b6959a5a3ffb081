import EvmLift.Proofs.Semantics.Observation

/-!
# Machines

A machine takes steps until it halts. A run of a machine either halts after some number
of steps, with the events that it performed and an outcome, or goes on forever. What
opcodes leave is decided by an oracle that knows all events before.
-/

namespace EvmLift

/-- The results of an event, after the events before it. -/
abbrev Oracle := List Event → Event → Nat → Word

/-- How an oracle interprets what comes after some events. Everything but pushes is seen. -/
def Oracle.after (oracle : Oracle) (past : List Event) : Interpretation where
  observes op := !op.isPush
  push_silent op push := by simp [push]
  answer seen := oracle (past ++ seen.filterMap Observation.event?)

theorem Oracle.ignoresJumps_after (oracle : Oracle) (past : List Event) :
    (oracle.after past).IgnoresJumps := by
  intro first second same
  simp only [after, same]

/-- How a run ends. -/
inductive Outcome where
  /-- A terminating opcode was performed. -/
  | terminated
  /-- A jump went to an offset that may not be jumped to. -/
  | faulted
  /-- Control went past the end of the code. -/
  | completed
  /-- An instruction took more values than the stack held. -/
  | underflow
  /-- A statement read a value that nothing had given a word, or entered no routine. -/
  | undefined
  /-- A jump left for an offset that the code that jumps does not know. -/
  | departed (offset : Option Nat) (target : Word)
  deriving Repr, DecidableEq

namespace Outcome

/-- Whether the outcome is one that code can ask for. -/
def isRegular : Outcome → Bool
  | .terminated | .faulted | .completed => true
  | _ => false

end Outcome

/-- The end of a run. -/
structure Halt where
  /-- Everything that was performed. -/
  events : List Event
  outcome : Outcome
  deriving Repr, DecidableEq

/-- A machine with the given states. -/
structure Machine (State : Type) where
  step : State → Except Halt State
  /-- The events that were performed before a state was reached. -/
  events : State → List Event

namespace Machine

variable {State : Type}

/-- Take several steps, or fewer if the machine halts before. -/
def run (machine : Machine State) : Nat → State → Except Halt State
  | 0, state => .ok state
  | count + 1, state =>
      match machine.step state with
      | .ok next => machine.run count next
      | .error halt => .error halt

/-- The run from a state halts. -/
def Halts (machine : Machine State) (state : State) (halt : Halt) : Prop :=
  ∃ count, machine.run count state = .error halt

/-- The run from a state comes to another state. -/
def Reaches (machine : Machine State) (state final : State) : Prop :=
  ∃ count, machine.run count state = .ok final

/-- The run from a state never halts. -/
def Diverges (machine : Machine State) (state : State) : Prop :=
  ∀ count, ∃ final, machine.run count state = .ok final

/-- The run from a state performs events, and perhaps more after them. -/
def Performs (machine : Machine State) (state : State) (events : List Event) : Prop :=
  ∃ final, machine.Reaches state final ∧ events <+: machine.events final

end Machine

end EvmLift
