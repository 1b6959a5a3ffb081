import EvmLift.Pseudocode.Routine

/-!
# Scopes

A routine is well scoped if each statement reads only variables that statements before
it assign. In a program every variable is assigned once. This is what linking relies on,
and what it keeps.
-/

namespace EvmLift

/-- The variables among values are those that have an identity. -/
theorem Value.mem_filterMap_id? {values : List Value} {id : Nat} :
    id ∈ values.filterMap Value.id? ↔ .var id ∈ values := by
  rw [List.mem_filterMap]
  constructor
  · rintro ⟨value, member, equal⟩
    cases value with
    | var other =>
        cases equal
        exact member
    | const | param => cases equal
  · intro member
    exact ⟨_, member, rfl⟩

namespace Statement

/-- The variables that a statement assigns, in order. -/
def assigned : Statement → List Nat
  | .assign _ targets _ _ => targets.filterMap Value.id?
  | .jump .. => []

theorem mem_assigned {offset : Nat} {targets : List Value} {op : Opcode} {operands : List Value}
    {id : Nat} : id ∈ (assign offset targets op operands).assigned ↔ .var id ∈ targets :=
  Value.mem_filterMap_id?

/-- An assignment that has a target for each result. A push assigns one constant to one
variable and never ends a block. -/
structure ProperAssign (targets : List Value) (op : Opcode) (operands : List Value) : Prop where
  push : op.isPush = true → ∃ id word, targets = [.var id] ∧ operands = [.const word]
  goesOn : op.isPush = true → op.terminates = false
  size : op.isPush = false → targets.length = op.pushes

/-- A statement whose assignment, if it is one, is proper. -/
def Proper : Statement → Prop
  | .assign _ targets op operands => ProperAssign targets op operands
  | .jump .. => True

/-- A statement that assigns one constant to one variable, if it is a push. -/
def PushesConstant : Statement → Prop
  | .assign _ targets op operands =>
      op.isPush = true → ∃ id word, targets = [.var id] ∧ operands = [.const word]
  | .jump .. => True

theorem Proper.pushesConstant {statement : Statement} (proper : statement.Proper) :
    statement.PushesConstant := by
  cases statement with
  | assign => exact proper.push
  | jump => trivial

/-- Statements read only variables that are known, or assigned by an earlier one. -/
def Scoped (known : List Nat) : List Statement → Prop
  | [] => True
  | statement :: rest =>
      (∀ id, .var id ∈ statement.reads → id ∈ known) ∧ Scoped (known ++ statement.assigned) rest

theorem Scoped.append {known : List Nat} {first second : List Statement}
    (scopedFirst : Scoped known first)
    (scopedSecond : Scoped (known ++ first.flatMap assigned) second) :
    Scoped known (first ++ second) := by
  induction first generalizing known with
  | nil => simpa using scopedSecond
  | cons statement rest ih =>
      refine ⟨scopedFirst.1, ih scopedFirst.2 ?_⟩
      simpa [List.append_assoc] using scopedSecond

/-- A change of statements that adds no reads and keeps the assignments keeps scopes. -/
theorem Scoped.map {change : Statement → Statement} {known : List Nat} {body : List Statement}
    (reads : ∀ statement id, .var id ∈ (change statement).reads → .var id ∈ statement.reads)
    (assigned : ∀ statement, (change statement).assigned = statement.assigned)
    (wellScoped : Scoped known body) : Scoped known (body.map change) := by
  induction body generalizing known with
  | nil => trivial
  | cons statement rest ih =>
      refine ⟨fun id member => wellScoped.1 id (reads statement id member), ?_⟩
      rw [assigned]
      exact ih wellScoped.2

end Statement

namespace Routine

/-- The variables that a routine assigns, in order. -/
def assigned (routine : Routine) : List Nat :=
  routine.body.flatMap Statement.assigned

/-- A routine reads and returns only what it has assigned before. -/
structure Scoped (routine : Routine) : Prop where
  proper : ∀ statement ∈ routine.body, statement.Proper
  body : Statement.Scoped [] routine.body
  returns : ∀ id, .var id ∈ routine.returns → id ∈ routine.assigned

end Routine

namespace Program

/-- Every variable is assigned once, and read after that in the same routine. -/
structure Scoped (program : Program) : Prop where
  nodup : (program.routines.flatMap Routine.assigned).Nodup
  routines : ∀ routine ∈ program.routines, routine.Scoped

/-- No variable is assigned by two statements. -/
def Apart (program : Program) : Prop :=
  (program.routines.flatMap Routine.body).Pairwise fun first second =>
    ∀ id ∈ first.assigned, id ∉ second.assigned

/-- Every variable is assigned by one statement at most, and read by later ones of the same
routine only. Pushes assign constants. -/
structure Ordered (program : Program) : Prop where
  apart : program.Apart
  reads : ∀ routine ∈ program.routines, Statement.Scoped [] routine.body
  pushes : ∀ routine ∈ program.routines, ∀ statement ∈ routine.body, statement.PushesConstant

end Program

end EvmLift
