import EvmLift.Proofs.SingleAssignment
import Mathlib.Data.List.Flatten

/-!
# Numbering is one renaming

A variable gets a new number whenever it is assigned. If all assignments of a program go to
different variables, no number is ever replaced, and the numbers at the end are the numbers
everywhere. Numbering then renames the whole program at once, and never makes two variables
one.
-/

namespace EvmLift

/-- A jump that goes by the image of a value. -/
def Callee.rename (image : Value → Value) : Callee → Callee
  | .computed value => .computed (image value)
  | callee => callee

namespace Statement

/-- A statement with all values replaced by their images. -/
def rename (image : Value → Value) : Statement → Statement
  | .assign offset targets op operands =>
      .assign offset (targets.map image) op (operands.map image)
  | .jump offset callee condition args =>
      .jump offset (callee.rename image) (condition.map image) (args.map image)

@[simp] theorem targets_rename (image : Value → Value) (statement : Statement) :
    (statement.rename image).targets = statement.targets.map image := by
  cases statement <;> rfl

@[simp] theorem reads_rename (image : Value → Value) (statement : Statement) :
    (statement.rename image).reads = statement.reads.map image := by
  cases statement with
  | assign => rfl
  | jump offset callee condition args =>
      cases callee <;> cases condition <;> simp [rename, reads, Callee.rename, Callee.value?]

end Statement

namespace Routine

/-- A routine with all values replaced by their images. -/
def rename (image : Value → Value) (routine : Routine) : Routine :=
  { routine with
    body := routine.body.map (Statement.rename image)
    returns := routine.returns.map image }

end Routine

namespace Numbering

variable {numbering late : Numbering} {known : List Nat}

/-- The later numbers of some variables are the numbers that they have already. -/
def Lasts (numbering late : Numbering) (ids : List Nat) : Prop :=
  ∀ id ∈ ids, late.current[id]? = numbering.current[id]?

/-- The numbers after several routines. -/
def afterRoutines (numbering : Numbering) (routines : List Routine) : Numbering :=
  routines.foldl (fun current routine => current.afterAll routine.body) numbering

theorem afterAll_cons (numbering : Numbering) (first : Statement) (rest : List Statement) :
    numbering.afterAll (first :: rest) = (numbering.after first).afterAll rest := rfl

theorem afterRoutines_cons (numbering : Numbering) (first : Routine) (rest : List Routine) :
    numbering.afterRoutines (first :: rest) =
      (numbering.afterAll first.body).afterRoutines rest := rfl

/-- Variables that are not assigned keep their numbers. -/
theorem current_assignAll_of_not_mem {targets : List Value} {id : Nat}
    (other : id ∉ targets.filterMap Value.id?) :
    (numbering.assignAll targets).2.current[id]? = numbering.current[id]? := by
  induction targets generalizing numbering with
  | nil => rfl
  | cons target rest ih =>
      have different : target ≠ .var id := by
        rintro rfl
        exact other List.mem_cons_self
      have later : id ∉ rest.filterMap Value.id? := by
        intro member
        apply other
        rw [List.mem_filterMap] at member ⊢
        rcases member with ⟨value, listed, found⟩
        exact ⟨value, List.mem_cons_of_mem _ listed, found⟩
      change ((numbering.assign target).2.assignAll rest).2.current[id]? = _
      rw [ih later, current_assign, if_neg different]

theorem current_after_of_not_mem {statement : Statement} {id : Nat}
    (other : id ∉ statement.assigned) :
    (numbering.after statement).current[id]? = numbering.current[id]? := by
  cases statement with
  | assign => exact current_assignAll_of_not_mem other
  | jump => rfl

theorem current_afterAll_of_not_mem {body : List Statement} {id : Nat}
    (other : id ∉ body.flatMap Statement.assigned) :
    (numbering.afterAll body).current[id]? = numbering.current[id]? := by
  induction body generalizing numbering with
  | nil => rfl
  | cons first rest ih =>
      rw [List.flatMap_cons, List.mem_append, not_or] at other
      exact (ih other.2).trans (current_after_of_not_mem other.1)

theorem current_afterRoutines_of_not_mem {routines : List Routine} {id : Nat}
    (other : id ∉ routines.flatMap Routine.assigned) :
    (numbering.afterRoutines routines).current[id]? = numbering.current[id]? := by
  induction routines generalizing numbering with
  | nil => rfl
  | cons first rest ih =>
      rw [List.flatMap_cons, List.mem_append, not_or] at other
      exact (ih other.2).trans (current_afterAll_of_not_mem other.1)

/-- Different targets get the numbers that they have afterwards. -/
theorem assignAll_eq_map {targets : List Value}
    (distinct : (targets.filterMap Value.id?).Nodup) (numbering : Numbering) :
    (numbering.assignAll targets).1 = targets.map (numbering.assignAll targets).2.number := by
  induction targets generalizing numbering with
  | nil => rfl
  | cons target rest ih =>
      change (numbering.assign target).1 :: ((numbering.assign target).2.assignAll rest).1 =
        ((numbering.assign target).2.assignAll rest).2.number target ::
          rest.map ((numbering.assign target).2.assignAll rest).2.number
      cases target with
      | const | param => exact congrArg _ (ih distinct _)
      | var id =>
          rcases List.nodup_cons.mp distinct with ⟨fresh, others⟩
          rw [← ih others, number, current_assignAll_of_not_mem fresh, current_assign, if_pos rfl]
          rfl

theorem Lasts.number_eq {ids : List Nat} (lasts : numbering.Lasts late ids) {value : Value}
    (listed : ∀ id, value = .var id → id ∈ ids) :
    numbering.number value = late.number value := by
  cases value with
  | const | param => rfl
  | var id => rw [number, number, lasts id (listed id rfl)]

theorem Lasts.map_number {ids : List Nat} (lasts : numbering.Lasts late ids) {values : List Value}
    (listed : ∀ id, .var id ∈ values → id ∈ ids) :
    values.map numbering.number = values.map late.number := by
  apply List.map_congr_left
  intro value member
  exact lasts.number_eq fun id equal => listed id (equal ▸ member)

/-- A statement whose numbers last is renamed. -/
theorem numberStatement_eq_rename {statement : Statement}
    (distinct : statement.assigned.Nodup)
    (reads : ∀ id, .var id ∈ statement.reads → id ∈ known)
    (before : numbering.Lasts late known)
    (after : (numbering.after statement).Lasts late statement.assigned) :
    numbering.numberStatement statement = statement.rename late.number := by
  cases statement with
  | assign offset targets op operands =>
      have given : (numbering.assignAll targets).1 = targets.map late.number := by
        rw [assignAll_eq_map distinct]
        apply after.map_number
        intro id member
        exact Statement.mem_assigned.mpr member
      have taken : operands.map numbering.number = operands.map late.number :=
        before.map_number reads
      rw [numberStatement, Statement.rename, given, taken]
  | jump offset callee condition args =>
      simp only [Statement.reads, List.mem_append, Option.mem_toList] at reads
      have target : numbering.numberCallee callee = callee.rename late.number := by
        cases callee with
        | routine | fault => rfl
        | computed value =>
            apply congrArg Callee.computed
            exact before.number_eq fun id equal => reads id (.inl (.inl (congrArg some equal)))
      have decides : condition.map numbering.number = condition.map late.number := by
        cases condition with
        | none => rfl
        | some value =>
            apply congrArg some
            exact before.number_eq fun id equal => reads id (.inl (.inr (congrArg some equal)))
      rw [numberStatement, Statement.rename, target, decides,
        before.map_number fun id passed => reads id (.inr passed)]

/-- Statements that assign different variables are renamed. -/
theorem numberBody_eq_map_rename {body : List Statement}
    (wellScoped : Statement.Scoped known body)
    (distinct : (known ++ body.flatMap Statement.assigned).Nodup)
    (lasts : (numbering.afterAll body).Lasts late (known ++ body.flatMap Statement.assigned)) :
    numbering.numberBody body = body.map (Statement.rename late.number) := by
  induction body generalizing numbering known with
  | nil => rfl
  | cons first rest ih =>
      rw [List.flatMap_cons] at distinct lasts
      have apart := List.nodup_append.mp distinct
      have others := List.nodup_append.mp apart.2.1
      -- What is known before the statement, and what it assigns, is not assigned again.
      have before : numbering.Lasts late known := by
        intro id member
        rw [lasts id (List.mem_append_left _ member)]
        apply current_afterAll_of_not_mem
        intro again
        exact apart.2.2 id member id again rfl
      have after : (numbering.after first).Lasts late first.assigned := by
        intro id member
        rw [lasts id (List.mem_append_right _ (List.mem_append_left _ member)), afterAll_cons]
        apply current_afterAll_of_not_mem
        intro again
        exact others.2.2 id member id again rfl
      rw [numberBody, List.map_cons,
        numberStatement_eq_rename others.1 wellScoped.1 before after]
      apply congrArg
      apply ih wellScoped.2
      · rwa [List.append_assoc]
      · rwa [List.append_assoc]

/-- Routines that assign different variables are renamed. -/
theorem numberRoutines_eq_map_rename {routines : List Routine}
    (wellScoped : ∀ routine ∈ routines, routine.Scoped)
    (distinct : (routines.flatMap Routine.assigned).Nodup)
    (lasts : (numbering.afterRoutines routines).Lasts late
      (routines.flatMap Routine.assigned)) :
    numbering.numberRoutines routines = routines.map (Routine.rename late.number) := by
  induction routines generalizing numbering with
  | nil => rfl
  | cons first rest ih =>
      rw [List.forall_mem_cons] at wellScoped
      rw [List.flatMap_cons] at distinct lasts
      have apart := List.nodup_append.mp distinct
      have own : (numbering.afterAll first.body).Lasts late first.assigned := by
        intro id member
        rw [lasts id (List.mem_append_left _ member), afterRoutines_cons]
        apply current_afterRoutines_of_not_mem
        intro again
        exact apart.2.2 id member id again rfl
      have body : numbering.numberBody first.body = first.body.map (Statement.rename late.number) :=
        numberBody_eq_map_rename wellScoped.1.body apart.1 own
      have returns := own.map_number wellScoped.1.returns
      have renamed : numbering.numberRoutine first = first.rename late.number := by
        rw [numberRoutine, body, returns]
        rfl
      rw [numberRoutines, List.map_cons, renamed]
      apply congrArg
      apply ih wellScoped.2 apart.2.1
      intro id member
      exact lasts id (List.mem_append_right _ member)

end Numbering

namespace Routine

variable {constant? : Nat → Option Word} {mentioned : Nat → Bool} {entryAt? : Nat → Option Entry}

/-- Dropping pushes and linking jumps adds no assignments. -/
theorem sublist_assigned_linked (routine : Routine) :
    List.Sublist ((routine.inlined constant? mentioned).linked entryAt?).assigned
      routine.assigned := by
  have linked : ((routine.inlined constant? mentioned).linked entryAt?).assigned =
      (routine.inlined constant? mentioned).assigned := by
    simp only [assigned, Routine.linked, List.flatMap_map, Statement.assigned_link]
  have replaced : (routine.inline constant?).assigned = routine.assigned := by
    simp only [assigned, Routine.inline, List.flatMap_map, Statement.assigned_inline]
  rw [linked, ← replaced]
  exact List.filter_sublist.flatMap Statement.assigned

end Routine

namespace Program

variable {program : Program}

theorem Scoped.nodup_assigned_linkJumps (wellScoped : program.Scoped) :
    (program.inlineConstants.linkJumps.routines.flatMap Routine.assigned).Nodup := by
  apply List.Nodup.sublist _ wellScoped.nodup
  rw [routines_linkJumps, routines_inlineConstants, List.map_map, List.flatMap_map]
  apply List.Sublist.flatMap_right
  intro routine _
  exact routine.sublist_assigned_linked

theorem targets_map_rename (image : Value → Value) (routines : List Routine) :
    (routines.map (Routine.rename image)).flatMap Routine.targets =
      (routines.flatMap Routine.targets).map image := by
  simp only [Routine.targets, Routine.rename, List.flatMap_map, List.map_flatMap,
    Statement.targets_rename]

/-- Numbering renames the routines of a well scoped program, and gives no number to two of
their variables. -/
theorem Scoped.exists_numbered_eq_rename (wellScoped : program.Scoped)
    (formed : ∀ routine ∈ program.routines, routine.Formed) :
    ∃ numbering : Numbering,
      program.numbered = program.inlineConstants.linkJumps.routines.map
        (Routine.rename numbering.number) ∧
      ∀ first ∈ program.inlineConstants.linkJumps.targets,
        ∀ second ∈ program.inlineConstants.linkJumps.targets,
          numbering.number first = numbering.number second → first = second := by
  have renamed : program.numbered = _ :=
    Numbering.numberRoutines_eq_map_rename wellScoped.linkJumps
      wellScoped.nodup_assigned_linkJumps fun _ _ => rfl
  refine ⟨_, renamed, ?_⟩
  apply List.inj_on_of_nodup_map
  rw [targets, ← targets_map_rename, ← renamed, numbered,
    Numbering.flatMap_targets_numberRoutines (vars_linkJumps formed)]
  exact List.Nodup.map (fun _ _ equal => Value.var.inj equal) List.nodup_range'

end Program

end EvmLift
