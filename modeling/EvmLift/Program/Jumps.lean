import EvmLift.Pseudocode.Routine
import EvmLift.Warning
import Std.Data.TreeMap

/-!
# Linking of jumps

A jump to a known offset goes to the routine that starts there and passes as many of
its values as that routine takes. If no routine starts there, the jump faults. A
jump to an unknown offset passes nothing, as nothing is known of what it enters.
-/

namespace EvmLift

/-- What a jump has to know of the routine that it enters. -/
structure Entry where
  name : String
  arity : Nat
  deriving Repr, DecidableEq

namespace Routine

/-- The entry of a routine. -/
def entry (routine : Routine) : Entry :=
  ⟨routine.name, routine.arity⟩

end Routine

namespace Statement

/-- Link a jump to the routine it enters. Statements of any other form stay. -/
def link (entryAt? : Nat → Option Entry) : Statement → Statement
  | .jump offset (.computed (.const word)) condition args =>
      match entryAt? word.toNat with
      | some entry => .jump offset (.routine entry.name) condition (args.take entry.arity)
      | none => .jump offset .fault condition []
  | .jump offset (.computed value) condition _ => .jump offset (.computed value) condition []
  | statement => statement

/-- The warning about a jump with fewer values than the routine it enters takes. -/
def linkWarning? (entryAt? : Nat → Option Entry) : Statement → Option Warning
  | .jump offset (.computed (.const word)) _ args => do
      let entry ← entryAt? word.toNat
      if args.length < entry.arity then
        some (.shortJump offset args.length entry.name entry.arity)
      else none
  | _ => none

end Statement

namespace Program

/-- The routines by the offset at which they start. Of several at one offset the last
counts. -/
def entries (program : Program) : Std.TreeMap Nat Entry :=
  .ofList (program.routines.map fun routine => (routine.offset, routine.entry))

/-- Link every jump to a known offset. -/
def linkJumps (program : Program) : Program :=
  let entries := program.entries
  ⟨program.routines.map fun routine =>
    { routine with body := routine.body.map (Statement.link fun offset => entries[offset]?) }⟩

/-- The warnings about the jumps of a program that is not yet linked. -/
def jumpWarnings (program : Program) : List Warning :=
  let entries := program.entries
  program.routines.flatMap fun routine =>
    routine.body.filterMap (Statement.linkWarning? fun offset => entries[offset]?)

end Program

end EvmLift
