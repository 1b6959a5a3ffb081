import EvmLift.Program.Numbering

/-!
# Numbering along a walk

Numbering walks through a program from one value to the next: through the statements of a
routine in order, in each of them what it reads and then what it assigns, and at the end of the
routine what it returns. This module says what numbering gives to each value that it meets,
whether or not the value has been assigned, and where it fails: at the first value of the walk
that has no number.
-/

namespace EvmLift

/-- A value as the walk through a program meets it. -/
inductive Access where
  /-- The named routine reads the value. -/
  | read (routine : String) (value : Value)
  | assign (target : Value)
  deriving Repr, DecidableEq

namespace Access

/-- The variable that is assigned. -/
def assigned? : Access → Option Nat
  | .assign target => target.id?
  | .read .. => none

end Access

/-- What a statement of the named routine reads, and then what it assigns. -/
def Statement.accesses (routine : String) : Statement → List Access
  | .assign _ targets _ operands => operands.map (.read routine) ++ targets.map .assign
  | .jump _ callee condition args =>
      callee.value?.toList.map (.read routine) ++ condition.toList.map (.read routine) ++
        args.map (.read routine)

/-- The statements of a routine in order, and then what it returns. -/
def Routine.accesses (routine : Routine) : List Access :=
  routine.body.flatMap (Statement.accesses routine.name) ++
    routine.returns.map (.read routine.name)

/-- The walk through a program. -/
def Program.walk (program : Program) : List Access :=
  program.routines.flatMap Routine.accesses

namespace Numbering

variable {numbering : Numbering}

/-! ## What is numbered how -/

/-- A value with the current number of its variable. -/
def number (numbering : Numbering) : Value → Value
  | .var id => .var (numbering.current[id]?.getD 0)
  | value => value

/-- A jump with the current number of the variable that it goes by. -/
def numberCallee (numbering : Numbering) : Callee → Callee
  | .computed value => .computed (numbering.number value)
  | callee => callee

/-- A statement with current numbers for what it reads and new ones for what it assigns. -/
def numberStatement (numbering : Numbering) : Statement → Statement
  | .assign offset targets op operands =>
      .assign offset (numbering.assignAll targets).1 op (operands.map numbering.number)
  | .jump offset callee condition args =>
      .jump offset (numbering.numberCallee callee) (condition.map numbering.number)
        (args.map numbering.number)

/-- The numbers after a statement. -/
def after (numbering : Numbering) : Statement → Numbering
  | .assign _ targets _ _ => (numbering.assignAll targets).2
  | .jump .. => numbering

/-- Statements with their numbers, in order. -/
def numberBody (numbering : Numbering) : List Statement → List Statement
  | [] => []
  | first :: rest => numbering.numberStatement first :: (numbering.after first).numberBody rest

/-- The numbers after several statements. -/
def afterAll (numbering : Numbering) (body : List Statement) : Numbering :=
  body.foldl after numbering

/-- A routine with its numbers. -/
def numberRoutine (numbering : Numbering) (routine : Routine) : Routine :=
  { routine with
    body := numbering.numberBody routine.body
    returns := routine.returns.map (numbering.afterAll routine.body).number }

/-- Routines with their numbers, in order. -/
def numberRoutines (numbering : Numbering) : List Routine → List Routine
  | [] => []
  | first :: rest =>
      numbering.numberRoutine first :: (numbering.afterAll first.body).numberRoutines rest

/-! ## Where numbering fails -/

/-- The numbers after an access. -/
def meet (numbering : Numbering) : Access → Numbering
  | .assign target => (numbering.assign target).2
  | .read .. => numbering

/-- The numbers after several accesses. -/
def meetAll (numbering : Numbering) (walk : List Access) : Numbering :=
  walk.foldl meet numbering

/-- The error at an access, if it reads a variable that has no number. -/
def missing? (numbering : Numbering) : Access → Option UndefinedVariable
  | .read routine (.var id) =>
      if numbering.current[id]?.isSome then none else some ⟨routine, id⟩
  | _ => none

/-- The first error along a walk. -/
def undefined? (numbering : Numbering) : List Access → Option UndefinedVariable
  | [] => none
  | first :: rest => (numbering.missing? first).or ((numbering.meet first).undefined? rest)

@[simp] theorem meetAll_nil (numbering : Numbering) : numbering.meetAll [] = numbering := rfl

@[simp] theorem meetAll_cons (numbering : Numbering) (first : Access) (rest : List Access) :
    numbering.meetAll (first :: rest) = (numbering.meet first).meetAll rest := rfl

theorem meetAll_append (numbering : Numbering) (first second : List Access) :
    numbering.meetAll (first ++ second) = (numbering.meetAll first).meetAll second :=
  List.foldl_append

theorem undefined?_append (numbering : Numbering) (first second : List Access) :
    numbering.undefined? (first ++ second) =
      (numbering.undefined? first).or ((numbering.meetAll first).undefined? second) := by
  induction first generalizing numbering with
  | nil => rfl
  | cons access rest ih => simp only [List.cons_append, undefined?, ih, Option.or_assoc,
      meetAll_cons]

@[simp] theorem meetAll_read (numbering : Numbering) (routine : String) (values : List Value) :
    numbering.meetAll (values.map (.read routine)) = numbering := by
  induction values with
  | nil => rfl
  | cons value rest ih => exact ih

@[simp] theorem meetAll_assign (numbering : Numbering) (targets : List Value) :
    numbering.meetAll (targets.map .assign) = (numbering.assignAll targets).2 := by
  induction targets generalizing numbering with
  | nil => rfl
  | cons target rest ih => exact ih _

@[simp] theorem undefined?_assign (numbering : Numbering) (targets : List Value) :
    numbering.undefined? (targets.map .assign) = none := by
  induction targets generalizing numbering with
  | nil => rfl
  | cons target rest ih => exact ih _

@[simp] theorem meetAll_accesses (numbering : Numbering) (routine : String)
    (statement : Statement) :
    numbering.meetAll (statement.accesses routine) = numbering.after statement := by
  cases statement <;> simp [Statement.accesses, meetAll_append, after]

theorem meetAll_body (numbering : Numbering) (routine : String) (body : List Statement) :
    numbering.meetAll (body.flatMap (Statement.accesses routine)) = numbering.afterAll body := by
  induction body generalizing numbering with
  | nil => rfl
  | cons statement rest ih =>
      rw [List.flatMap_cons, meetAll_append, meetAll_accesses, ih]
      rfl

@[simp] theorem meetAll_routine (numbering : Numbering) (routine : Routine) :
    numbering.meetAll routine.accesses = numbering.afterAll routine.body := by
  rw [Routine.accesses, meetAll_append, meetAll_body, meetAll_read]

/-! ## Numbering gives these numbers, or fails there -/

/-- A result, unless there is an error. -/
def settle {α : Type} (error? : Option UndefinedVariable) (result : α) :
    Except UndefinedVariable α :=
  error?.elim (.ok result) .error

/-- The earlier error counts. -/
theorem settle_bind {α β : Type} {error? later? : Option UndefinedVariable} {result : α}
    {final : β} {next : α → Except UndefinedVariable β}
    (goesOn : next result = settle later? final) :
    (settle error? result >>= next) = settle (error?.or later?) final := by
  cases error? with
  | none => exact goesOn
  | some error => rfl

theorem settle_map {α β : Type} {error? : Option UndefinedVariable} {result : α} {final : β}
    {next : α → Except UndefinedVariable β} (ends : next result = .ok final) :
    (settle error? result >>= next) = settle error? final := by
  cases error? with
  | none => exact ends
  | some error => rfl

theorem read_eq (numbering : Numbering) (routine : String) (value : Value) :
    numbering.read routine value =
      settle (numbering.missing? (.read routine value)) (numbering.number value) := by
  cases value with
  | const | param => rfl
  | var id =>
      cases found : numbering.current[id]? <;> simp [read, missing?, number, found, settle]

theorem readAll_eq (numbering : Numbering) (routine : String) (values : List Value) :
    numbering.readAll routine values =
      settle (numbering.undefined? (values.map (.read routine)))
        (values.map numbering.number) := by
  induction values with
  | nil => rfl
  | cons value rest ih =>
      rw [readAll, read_eq, ih]
      apply settle_bind
      exact settle_map rfl

theorem callee_eq (numbering : Numbering) (routine : String) (callee : Callee) :
    numbering.callee routine callee =
      settle (numbering.undefined? (callee.value?.toList.map (.read routine)))
        (numbering.numberCallee callee) := by
  cases callee with
  | routine | fault => rfl
  | computed value =>
      rw [callee, read_eq]
      exact settle_bind rfl

theorem condition_eq (numbering : Numbering) (routine : String) (condition : Option Value) :
    numbering.condition routine condition =
      settle (numbering.undefined? (condition.toList.map (.read routine)))
        (condition.map numbering.number) := by
  cases condition with
  | none => rfl
  | some value =>
      rw [condition, read_eq]
      exact settle_bind rfl

theorem statement_eq (numbering : Numbering) (routine : String) (statement : Statement) :
    numbering.statement routine statement =
      settle (numbering.undefined? (statement.accesses routine))
        (numbering.numberStatement statement, numbering.after statement) := by
  cases statement with
  | assign offset targets op operands =>
      rw [statement, readAll_eq, Statement.accesses, undefined?_append, undefined?_assign]
      exact settle_bind rfl
  | jump offset callee condition args =>
      rw [statement, callee_eq, condition_eq, readAll_eq, Statement.accesses, undefined?_append,
        undefined?_append, meetAll_append, meetAll_read, meetAll_read, Option.or_assoc]
      apply settle_bind
      apply settle_bind
      exact settle_map rfl

theorem body_eq (numbering : Numbering) (routine : String) (statements : List Statement) :
    numbering.body routine statements =
      settle (numbering.undefined? (statements.flatMap (Statement.accesses routine)))
        (numbering.numberBody statements, numbering.afterAll statements) := by
  induction statements generalizing numbering with
  | nil => rfl
  | cons first rest ih =>
      rw [body, statement_eq, List.flatMap_cons, undefined?_append, meetAll_accesses]
      apply settle_bind
      change (numbering.after first).body routine rest >>= _ = _
      rw [ih]
      exact settle_map rfl

theorem routines_eq (numbering : Numbering) (routines : List Routine) :
    numbering.routines routines =
      settle (numbering.undefined? (routines.flatMap Routine.accesses))
        (numbering.numberRoutines routines) := by
  induction routines generalizing numbering with
  | nil => rfl
  | cons first rest ih =>
      rw [Numbering.routines, body_eq, List.flatMap_cons, undefined?_append, meetAll_routine,
        Routine.accesses, undefined?_append, meetAll_body, Option.or_assoc]
      apply settle_bind
      change (numbering.afterAll first.body).readAll first.name first.returns >>= _ = _
      rw [readAll_eq]
      apply settle_bind
      rw [ih]
      exact settle_map rfl

end Numbering

namespace Program

/-- Numbering fails at the first value of the walk that has no number, and otherwise gives every
value its number. -/
theorem renumber_eq_settle (program : Program) :
    program.renumber =
      Numbering.settle (Numbering.undefined? {} program.walk)
        ⟨Numbering.numberRoutines {} program.routines⟩ := by
  rw [renumber, Numbering.routines_eq, walk]
  cases Numbering.undefined? {} (program.routines.flatMap Routine.accesses) <;> rfl

end Program

end EvmLift
