import EvmLift.Proofs.Linking.Form

/-!
# Decompiled programs are closed and assign once

In a decompiled program every routine is closed: its parameters are among those that it
declares, and its variables are assigned by statements of its own before they are read. Over
the whole program the assigned variables are numbered from one without gaps, so none of
them is assigned twice.
-/

namespace EvmLift

namespace Statement

/-- Every value of a statement. -/
def values (statement : Statement) : List Value :=
  statement.targets ++ statement.reads

theorem mem_assigned_iff {statement : Statement} {id : Nat} :
    id ∈ statement.assigned ↔ .var id ∈ statement.targets := by
  cases statement with
  | assign => exact mem_assigned
  | jump => simp [assigned, targets]

/-- In scoped statements every variable that is read is known before, or assigned by a
statement that comes earlier. -/
theorem Scoped.exists_earlier {known : List Nat} {front back : List Statement}
    {statement : Statement} (wellScoped : Scoped known (front ++ statement :: back)) {id : Nat}
    (read : .var id ∈ statement.reads) :
    id ∈ known ∨ ∃ earlier ∈ front, .var id ∈ earlier.targets := by
  induction front generalizing known with
  | nil => exact .inl (wellScoped.1 id read)
  | cons first rest ih =>
      rcases ih wellScoped.2 with before | ⟨earlier, listed, assigns⟩
      · rcases List.mem_append.mp before with older | own
        · exact .inl older
        · exact .inr ⟨first, List.mem_cons_self, mem_assigned_iff.mp own⟩
      · exact .inr ⟨earlier, List.mem_cons_of_mem _ listed, assigns⟩

end Statement

namespace Routine

/-- Every value of a routine. -/
def values (routine : Routine) : List Value :=
  routine.body.flatMap Statement.values ++ routine.returns

/-- All targets of assignments, in order. -/
def targets (routine : Routine) : List Value :=
  routine.body.flatMap Statement.targets

/-- A routine that reads nothing from outside but its parameters, and moves no values around
on a stack. -/
structure Closed (routine : Routine) : Prop where
  params : ∀ index, .param index ∈ routine.values → index < routine.arity
  reads : ∀ front statement back id, routine.body = front ++ statement :: back →
    .var id ∈ statement.reads → ∃ earlier ∈ front, .var id ∈ earlier.targets
  returns : ∀ id, .var id ∈ routine.returns → .var id ∈ routine.targets
  unshuffled : ∀ statement ∈ routine.body, ∀ op, statement.op? = some op → op.isShuffle = false

variable {routine next : Routine}

theorem closed_of_formed (formed : routine.Formed) (wellScoped : routine.Scoped) :
    routine.Closed where
  params := by
    intro index member
    rcases List.mem_append.mp member with inside | returned
    · rcases List.mem_flatMap.mp inside with ⟨statement, placed, occurs⟩
      rcases List.mem_append.mp occurs with target | read
      · rcases (formed.body statement placed).targets _ target with ⟨id, equal⟩
        cases equal
      · exact (formed.body statement placed).reads _ read
    · exact formed.returns _ returned
  reads := by
    intro front statement back id placed read
    have inScope := wellScoped.body
    rw [placed] at inScope
    exact (inScope.exists_earlier read).resolve_left List.not_mem_nil
  returns := by
    intro id returned
    rcases List.mem_flatMap.mp (wellScoped.returns id returned) with ⟨statement, placed, assigns⟩
    exact List.mem_flatMap.mpr ⟨statement, placed, Statement.mem_assigned_iff.mp assigns⟩
  unshuffled := fun statement placed => (formed.body statement placed).op

theorem targets_continueTo : (routine.continueTo next).targets = routine.targets := by
  unfold continueTo
  split
  · rw [targets, List.flatMap_append]
    exact List.append_nil _
  · rfl

theorem flatMap_targets_chain (routines : List Routine) :
    (chain routines).flatMap targets = routines.flatMap targets := by
  fun_induction chain routines with
  | case1 routine next rest ih =>
      rw [List.flatMap_cons, List.flatMap_cons, ih, targets_continueTo]
  | case2 => rfl

theorem Scoped.continueTo (wellScoped : routine.Scoped) (next : Routine) :
    (routine.continueTo next).Scoped := by
  unfold Routine.continueTo
  split
  · constructor
    · intro statement member
      rcases List.mem_append.mp member with own | added
      · exact wellScoped.proper statement own
      · rw [List.mem_singleton.mp added]
        trivial
    · apply wellScoped.body.append
      constructor
      · intro id read
        exact wellScoped.returns id (mem_returns_of_mem_reads_jumpTo read)
      · trivial
    · intro id returned
      rw [assigned, List.flatMap_append]
      exact List.mem_append_left _ (wellScoped.returns id returned)
  · exact wellScoped

end Routine

namespace Numbering

variable {numbering : Numbering} {known given : List Nat}

/-- Statements get the next numbers for their targets, in order. -/
theorem flatMap_targets_numberBody {body : List Statement}
    (vars : ∀ statement ∈ body, ∀ target ∈ statement.targets, ∃ id, target = .var id)
    (numbering : Numbering) :
    (numbering.numberBody body).flatMap Statement.targets =
        (List.range' numbering.next (body.flatMap Statement.targets).length).map Value.var ∧
      (numbering.afterAll body).next =
        numbering.next + (body.flatMap Statement.targets).length := by
  induction body generalizing numbering with
  | nil => exact ⟨rfl, rfl⟩
  | cons first rest ih =>
      rw [List.forall_mem_cons] at vars
      rcases assignAll_eq vars.1 numbering with ⟨numbers, next⟩
      rw [← targets_numberStatement] at numbers
      rw [← after_eq] at next
      rcases ih vars.2 (numbering.after first) with ⟨others, final⟩
      rw [next] at others final
      rw [List.flatMap_cons, List.length_append]
      constructor
      · rw [numberBody, List.flatMap_cons, numbers, others, ← List.map_append,
          List.range'_append_1]
      · rw [← Nat.add_assoc]
        exact final

theorem flatMap_targets_numberRoutines {routines : List Routine}
    (vars : ∀ routine ∈ routines, ∀ statement ∈ routine.body,
      ∀ target ∈ statement.targets, ∃ id, target = .var id) (numbering : Numbering) :
    (numbering.numberRoutines routines).flatMap Routine.targets =
      (List.range' numbering.next (routines.flatMap Routine.targets).length).map Value.var := by
  induction routines generalizing numbering with
  | nil => rfl
  | cons first rest ih =>
      rw [List.forall_mem_cons] at vars
      rcases flatMap_targets_numberBody vars.1 numbering with ⟨numbers, next⟩
      rw [numberRoutines, List.flatMap_cons, List.flatMap_cons, List.length_append,
        ih vars.2, next, ← List.range'_append_1, List.map_append]
      exact congrArg (· ++ _) numbers

/-- Where known variables are read, numbers that were given are read afterwards. -/
theorem Knows.mem_given (knows : numbering.Knows known given) {value : Value}
    (reads : ∀ id, value = .var id → id ∈ known) {number : Nat}
    (equal : .var number = numbering.number value) : number ∈ given := by
  cases value with
  | const | param => cases equal
  | var id =>
      rcases knows id (reads id rfl) with ⟨current, listed, found⟩
      rw [Numbering.number, found, Option.getD_some] at equal
      cases equal
      exact listed

theorem scoped_numberBody {body : List Statement} (knows : numbering.Knows known given)
    (wellScoped : Statement.Scoped known body) :
    Statement.Scoped given (numbering.numberBody body) := by
  induction body generalizing numbering known given with
  | nil => trivial
  | cons first rest ih =>
      constructor
      · intro number member
        rcases exists_of_mem_reads member with ⟨value, found, equal⟩
        exact knows.mem_given (fun id own => wellScoped.1 id (own ▸ found)) equal
      · exact ih (knows.after first) wellScoped.2

/-- Numbering keeps scopes. -/
theorem scoped_numberRoutine {routine : Routine} (wellScoped : routine.Scoped) :
    (numbering.numberRoutine routine).Scoped where
  proper := proper_numberBody numbering wellScoped.proper
  body := by
    have nothing : numbering.Knows [] [] := by simp [Knows]
    exact scoped_numberBody nothing wellScoped.body
  returns := by
    intro number member
    have nothing : numbering.Knows [] [] := by simp [Knows]
    rcases List.mem_map.mp member with ⟨value, found, equal⟩
    exact (nothing.afterAll routine.body).mem_given
      (fun id own => wellScoped.returns id (own ▸ found)) equal.symm

end Numbering

namespace Program

/-- All targets of assignments, in order. -/
def targets (program : Program) : List Value :=
  program.routines.flatMap Routine.targets

/-- A program of closed routines that assigns its variables in the order of their numbers,
each one once. -/
structure SingleAssignment (program : Program) : Prop where
  closed : ∀ routine ∈ program.routines, routine.Closed
  numbered : program.targets = (List.range' 1 program.targets.length).map Value.var

variable {program : Program}

theorem Scoped.chain_numbered (wellScoped : program.Scoped) :
    ∀ routine ∈ Routine.chain program.numbered, routine.Scoped := by
  apply Routine.forall_mem_chain
  · intro routine next holds
    exact holds.continueTo next
  · intro routine member
    rcases Numbering.exists_of_mem_numberRoutines member with ⟨numbering, linked, listed, rfl⟩
    exact Numbering.scoped_numberRoutine (wellScoped.linkJumps linked listed)

/-- Linked statements assign to variables only. -/
theorem vars_linkJumps (formed : ∀ routine ∈ program.routines, routine.Formed) :
    ∀ routine ∈ program.inlineConstants.linkJumps.routines, ∀ statement ∈ routine.body,
      ∀ target ∈ statement.targets, ∃ id, target = .var id := by
  intro routine member statement placed
  rcases exists_becomes_of_mem_linkJumps routine member with ⟨original, listed, becomes⟩
  exact ((becomes.formed (formed original listed)).body statement placed).targets

/-- Linking makes well formed routines with scopes into a program that assigns once. -/
theorem Scoped.singleAssignment (wellScoped : program.Scoped)
    (formed : ∀ routine ∈ program.routines, routine.Formed) :
    SingleAssignment ⟨Routine.chain program.numbered⟩ where
  closed := by
    intro routine member
    apply Routine.closed_of_formed
    · exact formed_of_mem_chain_numbered formed routine member
    · exact wellScoped.chain_numbered routine member
  numbered := by
    rw [targets, Routine.flatMap_targets_chain, numbered,
      Numbering.flatMap_targets_numberRoutines (vars_linkJumps formed), List.length_map,
      List.length_range']

end Program

/-- All code decompiles to a program of closed routines that assigns every variable once. -/
theorem singleAssignment_of_code (options : Options) (code : Bytecode) :
    ∃ linked, decompileBlocks (Block.split (options.instructions code)) = .ok linked ∧
      linked.program.SingleAssignment := by
  have standard := Block.forall_mem_split (options.standard_instructions code)
  have bare := Block.forall_mem_split (options.shufflesBare_instructions code)
  have wellScoped := Block.scoped_routines standard
  refine ⟨_, Block.decompileBlocks_eq standard wellScoped.link_eq, ?_⟩
  exact wellScoped.singleAssignment (Block.formed_of_mem_routines standard bare)

end EvmLift
