import EvmLift.Pseudocode.Routine
import EvmLift.Warning

/-!
# Falling through

Where control leaves a routine at its end, it goes on with the next one. An added
jump says so and passes what the next routine takes of the returned values.
-/

namespace EvmLift

namespace Routine

/-- Whether control can reach the end of the routine. -/
def fallsThrough (routine : Routine) : Bool :=
  match routine.body.getLast? with
  | some statement => !statement.endsBlock
  | none => true

/-- The jump from the end of a routine to the next one. -/
def jumpTo (routine next : Routine) : Statement :=
  .jump none (.routine next.name) none (routine.returns.take next.arity)

/-- The routine with its way to the next one made explicit. -/
def continueTo (routine next : Routine) : Routine :=
  if routine.fallsThrough then { routine with body := routine.body ++ [routine.jumpTo next] }
  else routine

/-- The warning about a routine that falls through with fewer values than the next
one takes. -/
def fallthroughWarning? (routine next : Routine) : Option Warning :=
  if routine.fallsThrough && routine.returns.length < next.arity then
    some (.shortFallthrough routine.name routine.returns.length next.name next.arity)
  else none

/-- Make the way from each routine to the next one explicit. -/
def chain : List Routine → List Routine
  | routine :: next :: rest => routine.continueTo next :: chain (next :: rest)
  | routines => routines

/-- The warnings about the ways from each routine to the next one. -/
def chainWarnings : List Routine → List Warning
  | routine :: next :: rest =>
      (routine.fallthroughWarning? next).toList ++ chainWarnings (next :: rest)
  | _ => []

end Routine

namespace Program

/-- Add a jump wherever control falls through to the next routine. -/
def addFallthroughs (program : Program) : Program :=
  ⟨Routine.chain program.routines⟩

/-- The warnings about the ways that are made explicit. -/
def fallthroughWarnings (program : Program) : List Warning :=
  Routine.chainWarnings program.routines

/-- The number of jumps that are added. -/
def addedJumps (program : Program) : Nat :=
  program.addFallthroughs.statementCount - program.statementCount

end Program

end EvmLift
