import EvmLift.Proofs.Linking.Jumps
import EvmLift.Proofs.Linking.Walk

/-!
# Numbering keeps meanings

Numbers are given in the order of assignments, so no two assignments share one. Whatever
a variable holds, its current number holds as well. Numbering fails on no well scoped
routine, as every variable that is read has a number by then.
-/

namespace EvmLift

namespace Numbering

variable {numbering : Numbering} {routine : String} {known given : List Nat}

/-- All known variables have numbers among the given ones. -/
def Knows (numbering : Numbering) (known given : List Nat) : Prop :=
  ∀ id ∈ known, ∃ number ∈ given, numbering.current[id]? = some number

/-- No number is used that was not yet given. -/
def Bounded (numbering : Numbering) : Prop :=
  ∀ id number : Nat, numbering.current[id]? = some number → number < numbering.next

/-- Numbering gives the next number to each target in turn. -/
theorem current_assign (numbering : Numbering) (target : Value) (id : Nat) :
    (numbering.assign target).2.current[id]? =
      if target = .var id then some numbering.next else numbering.current[id]? := by
  cases target with
  | const | param => simp [assign]
  | var other => simp [assign, Std.TreeMap.getElem?_insert]

theorem Bounded.assign (bounded : numbering.Bounded) (target : Value) :
    (numbering.assign target).2.Bounded := by
  intro id number found
  cases target with
  | const | param => exact bounded id number found
  | var other =>
      rw [current_assign] at found
      show number < numbering.next + 1
      split at found
      · cases found
        exact Nat.lt_succ_self _
      · exact Nat.lt_succ_of_lt (bounded id number found)

theorem Knows.assign (knows : numbering.Knows known given) (target : Value) :
    (numbering.assign target).2.Knows (known ++ target.id?.toList)
      (given ++ (numbering.assign target).1.id?.toList) := by
  intro id member
  rw [current_assign]
  split
  next own =>
    cases own
    exact ⟨_, List.mem_append_right _ (List.mem_singleton_self _), rfl⟩
  next other =>
    rcases List.mem_append.mp member with older | own
    · obtain ⟨number, listed, found⟩ := knows id older
      exact ⟨number, List.mem_append_left _ listed, found⟩
    · cases target with
      | const | param => cases own
      | var => exact absurd (congrArg Value.var (List.mem_singleton.mp own).symm) other

theorem Bounded.assignAll (bounded : numbering.Bounded) (targets : List Value) :
    (numbering.assignAll targets).2.Bounded := by
  induction targets generalizing numbering with
  | nil => exact bounded
  | cons target rest ih => exact ih (bounded.assign target)

theorem Knows.assignAll (knows : numbering.Knows known given) (targets : List Value) :
    (numbering.assignAll targets).2.Knows (known ++ targets.filterMap Value.id?)
      (given ++ (numbering.assignAll targets).1.filterMap Value.id?) := by
  induction targets generalizing numbering known given with
  | nil => simpa [Numbering.assignAll] using knows
  | cons target rest ih =>
      have listed := ih (knows.assign target)
      rw [List.append_assoc, List.append_assoc] at listed
      cases target <;> exact listed

/-- Every statement is numbered where it stands. -/
theorem getElem?_numberBody (numbering : Numbering) (body : List Statement) (place : Nat) :
    (numbering.numberBody body)[place]? =
      body[place]?.map (numbering.afterAll (body.take place)).numberStatement := by
  induction body generalizing numbering place with
  | nil => rfl
  | cons first rest ih =>
      cases place with
      | zero => rfl
      | succ place => exact ih (numbering.after first) place

theorem exists_getElem?_numberBody (numbering : Numbering) {body : List Statement} {place : Nat}
    {statement : Statement} (placed : body[place]? = some statement) :
    ∃ own, (numbering.numberBody body)[place]? = some (numberStatement own statement) := by
  rw [getElem?_numberBody, placed]
  exact ⟨_, rfl⟩

theorem exists_of_mem_numberBody {body : List Statement} {statement : Statement}
    (member : statement ∈ numbering.numberBody body) :
    ∃ own, ∃ original ∈ body, statement = numberStatement own original := by
  obtain ⟨place, placed⟩ := List.mem_iff_getElem?.mp member
  rw [getElem?_numberBody, Option.map_eq_some_iff] at placed
  obtain ⟨original, listed, equal⟩ := placed
  exact ⟨_, original, List.mem_of_getElem? listed, equal.symm⟩

/-- Every routine is numbered where it stands. -/
theorem getElem?_numberRoutines (numbering : Numbering) (routines : List Routine)
    (index : Nat) :
    (numbering.numberRoutines routines)[index]? =
      routines[index]?.map
        (((routines.take index).map Routine.body).foldl afterAll numbering).numberRoutine := by
  induction routines generalizing numbering index with
  | nil => rfl
  | cons first rest ih =>
      cases index with
      | zero => rfl
      | succ index => exact ih (numbering.afterAll first.body) index

theorem exists_getElem?_numberRoutines (numbering : Numbering) {routines : List Routine}
    {index : Nat} {routine : Routine} (listed : routines[index]? = some routine) :
    ∃ own, (numbering.numberRoutines routines)[index]? = some (numberRoutine own routine) := by
  rw [getElem?_numberRoutines, listed]
  exact ⟨_, rfl⟩

theorem exists_of_mem_numberRoutines {routines : List Routine} {routine : Routine}
    (member : routine ∈ numbering.numberRoutines routines) :
    ∃ own, ∃ original ∈ routines, routine = numberRoutine own original := by
  obtain ⟨index, placed⟩ := List.mem_iff_getElem?.mp member
  rw [getElem?_numberRoutines, Option.map_eq_some_iff] at placed
  obtain ⟨original, listed, equal⟩ := placed
  exact ⟨_, original, List.mem_of_getElem? listed, equal.symm⟩

theorem Bounded.after (bounded : numbering.Bounded) (statement : Statement) :
    (numbering.after statement).Bounded := by
  cases statement with
  | assign offset targets op operands => exact bounded.assignAll targets
  | jump => exact bounded

theorem Bounded.afterAll (bounded : numbering.Bounded) (body : List Statement) :
    (numbering.afterAll body).Bounded := by
  induction body generalizing numbering with
  | nil => exact bounded
  | cons statement rest ih => exact ih (bounded.after statement)

theorem Knows.after (knows : numbering.Knows known given) (statement : Statement) :
    (numbering.after statement).Knows (known ++ statement.assigned)
      (given ++ (numbering.numberStatement statement).assigned) := by
  cases statement with
  | assign offset targets op operands => exact knows.assignAll targets
  | jump => simpa [Numbering.after, numberStatement, Statement.assigned] using knows

theorem Knows.afterAll (knows : numbering.Knows known given) (body : List Statement) :
    (numbering.afterAll body).Knows (known ++ body.flatMap Statement.assigned)
      (given ++ (numbering.numberBody body).flatMap Statement.assigned) := by
  induction body generalizing numbering known given with
  | nil => simpa [Numbering.afterAll, numberBody] using knows
  | cons statement rest ih =>
      rw [numberBody, List.flatMap_cons, List.flatMap_cons, ← List.append_assoc,
        ← List.append_assoc]
      exact ih (knows.after statement)

/-- Known variables have numbers where they are read. -/
theorem Knows.undefined?_read (knows : numbering.Knows known given) (routine : String)
    {values : List Value} (reads : ∀ id, .var id ∈ values → id ∈ known) :
    numbering.undefined? (values.map (.read routine)) = none := by
  induction values with
  | nil => rfl
  | cons value rest ih =>
      have others := ih fun id member => reads id (List.mem_cons_of_mem _ member)
      have first : numbering.missing? (.read routine value) = none := by
        cases value with
        | const | param => rfl
        | var id =>
            obtain ⟨number, _, found⟩ := knows id (reads id List.mem_cons_self)
            simp [missing?, found]
      rw [List.map_cons, undefined?, first]
      exact others

theorem Knows.undefined?_accesses (knows : numbering.Knows known given) (routine : String)
    {statement : Statement} (reads : ∀ id, .var id ∈ statement.reads → id ∈ known) :
    numbering.undefined? (statement.accesses routine) = none := by
  cases statement with
  | assign offset targets op operands =>
      have taken : numbering.undefined? (operands.map (.read routine)) = none :=
        knows.undefined?_read routine reads
      rw [Statement.accesses, undefined?_append, taken, undefined?_assign]
      rfl
  | jump offset callee condition args =>
      rw [Statement.accesses, ← List.map_append, ← List.map_append]
      exact knows.undefined?_read routine reads

theorem Knows.undefined?_body (knows : numbering.Knows known given) (routine : String)
    {body : List Statement} (reads : Statement.Scoped known body) :
    numbering.undefined? (body.flatMap (Statement.accesses routine)) = none := by
  induction body generalizing numbering known given with
  | nil => rfl
  | cons first rest ih =>
      rw [List.flatMap_cons, undefined?_append, meetAll_accesses,
        knows.undefined?_accesses routine reads.1]
      exact ih (knows.after first) reads.2

/-- In well scoped routines everything that is read has a number. -/
theorem undefined?_routines {routines : List Routine}
    (wellScoped : ∀ routine ∈ routines, routine.Scoped) (numbering : Numbering) :
    numbering.undefined? (routines.flatMap Routine.accesses) = none := by
  induction routines generalizing numbering with
  | nil => rfl
  | cons routine rest ih =>
      rw [List.forall_mem_cons] at wellScoped
      have nothing : numbering.Knows [] [] := by simp [Knows]
      have knows := nothing.afterAll routine.body
      rw [List.nil_append, List.nil_append] at knows
      rw [List.flatMap_cons, undefined?_append, Routine.accesses, undefined?_append,
        nothing.undefined?_body routine.name wellScoped.1.body, meetAll_body,
        knows.undefined?_read routine.name wellScoped.1.returns]
      exact ih wellScoped.2 _

/-- Variables hold in one frame what their numbers hold in the other. -/
structure Relates (numbering : Numbering) (frame numbered : Frame) : Prop where
  params : numbered.params = frame.params
  vars : ∀ id number, numbering.current[id]? = some number →
    numbered.vars number = frame.vars id

namespace Relates

variable {frame numbered : Frame}

theorem value?_number (relates : numbering.Relates frame numbered)
    (knows : numbering.Knows known given) {value : Value}
    (reads : ∀ id, value = .var id → id ∈ known) :
    numbered.value? (numbering.number value) = frame.value? value := by
  cases value with
  | const => rfl
  | param index => exact congrFun relates.params index
  | var id =>
      obtain ⟨number', _, found⟩ := knows id (reads id rfl)
      simp only [number, found, Option.getD_some]
      exact relates.vars id number' found

theorem values?_number (relates : numbering.Relates frame numbered)
    (knows : numbering.Knows known given) {values : List Value}
    (reads : ∀ id, .var id ∈ values → id ∈ known) :
    numbered.values? (values.map numbering.number) = frame.values? values := by
  induction values with
  | nil => rfl
  | cons value rest ih =>
      have first := relates.value?_number knows
        fun id equal => reads id (equal ▸ List.mem_cons_self)
      have others := ih fun id member => reads id (List.mem_cons_of_mem _ member)
      simp only [List.map_cons, Frame.values?, first, others]

theorem store (relates : numbering.Relates frame numbered) (bounded : numbering.Bounded)
    (target : Value) (word : Word) :
    (numbering.assign target).2.Relates (frame.store target word)
      (numbered.store (numbering.assign target).1 word) := by
  cases target with
  | const | param => exact relates
  | var other =>
      refine ⟨relates.params, ?_⟩
      intro id number found
      rw [current_assign] at found
      simp only [Frame.store, Frame.set, Numbering.assign]
      split at found
      next own =>
        cases own
        cases found
        simp
      next different =>
        have fresh : number ≠ numbering.next := Nat.ne_of_lt (bounded id number found)
        have unlike : id ≠ other := fun equal => different (congrArg Value.var equal.symm)
        simp only [if_neg fresh, if_neg unlike]
        exact relates.vars id number found

theorem assignAll (relates : numbering.Relates frame numbered) (bounded : numbering.Bounded)
    {targets : List Value} {words : List Word} (size : words.length = targets.length) :
    (numbering.assignAll targets).2.Relates (frame.assign targets words)
      (numbered.assign (numbering.assignAll targets).1 words) := by
  induction targets generalizing numbering frame numbered words with
  | nil => exact relates
  | cons target rest ih =>
      cases words with
      | nil => cases size
      | cons word words =>
          exact ih (relates.store bounded target word) (bounded.assign target)
            (Nat.succ.inj size)

end Relates

/-- Numbered statements act as the statements did, in the frames that the numberings
before and after them relate. -/
def Keeps (numbering next : Numbering) (body numbered : List Statement) : Prop :=
  ∀ (interpretation : Interpretation) (run after : Run) (frame : Frame),
    numbering.Relates run.frame frame →
    Statement.performAll interpretation run body = some after →
      ∃ final, Statement.performAll interpretation ⟨frame, run.seen⟩ numbered =
          some ⟨final, after.seen⟩ ∧
        next.Relates after.frame final

/-- A proper assignment has as many results as targets. -/
theorem length_results {offset : Nat} {targets : List Value} {op : Opcode}
    {operands : List Value} {words : List Word} (answer : Nat → Word)
    (proper : (Statement.assign offset targets op operands).Proper)
    (size : words.length = operands.length) :
    (Event.results ⟨offset, op, words⟩ answer).length = targets.length := by
  unfold Event.results
  cases push : op.isPush with
  | true =>
      obtain ⟨id, word, rfl, rfl⟩ := proper.push push
      simpa using size
  | false => simpa using (proper.size push).symm

theorem length_assignAll (numbering : Numbering) (targets : List Value) :
    (numbering.assignAll targets).1.length = targets.length := by
  induction targets generalizing numbering with
  | nil => rfl
  | cons target rest ih => exact congrArg Nat.succ (ih _)

/-- Numbering changes neither the constant of a push nor the number of targets. -/
theorem properAssign_number {targets : List Value} {op : Opcode} {operands : List Value}
    (numbering : Numbering) (proper : Statement.ProperAssign targets op operands) :
    Statement.ProperAssign (numbering.assignAll targets).1 op
      (operands.map numbering.number) where
  push := by
    intro push
    obtain ⟨id, word, rfl, rfl⟩ := proper.push push
    exact ⟨numbering.next, word, rfl, rfl⟩
  goesOn := proper.goesOn
  size := by
    rw [length_assignAll]
    exact proper.size

theorem Relates.destination?_number {frame numbered : Frame}
    (relates : numbering.Relates frame numbered) (knows : numbering.Knows known given)
    {callee : Callee} (reads : ∀ id, callee.value? = some (.var id) → id ∈ known) :
    numbered.destination? (numbering.numberCallee callee) = frame.destination? callee := by
  cases callee with
  | routine | fault => rfl
  | computed value =>
      simp only [numberCallee, Frame.destination?,
        relates.value?_number knows fun id equal => reads id (congrArg some equal)]

theorem Relates.condition?_number {frame numbered : Frame}
    (relates : numbering.Relates frame numbered) (knows : numbering.Knows known given)
    {condition : Option Value} (reads : ∀ id, condition = some (.var id) → id ∈ known) :
    numbered.condition? (condition.map numbering.number) = frame.condition? condition := by
  cases condition with
  | none => rfl
  | some value =>
      simp only [Option.map_some, Frame.condition?,
        relates.value?_number knows fun id equal => reads id (congrArg some equal)]

theorem proper_numberStatement (numbering : Numbering) {statement : Statement}
    (proper : statement.Proper) : (numbering.numberStatement statement).Proper := by
  cases statement with
  | assign => exact properAssign_number numbering proper
  | jump => trivial

theorem proper_numberBody (numbering : Numbering) {body : List Statement}
    (proper : ∀ statement ∈ body, statement.Proper) :
    ∀ statement ∈ numbering.numberBody body, statement.Proper := by
  intro statement member
  obtain ⟨own, original, listed, rfl⟩ := exists_of_mem_numberBody member
  exact proper_numberStatement own (proper original listed)

/-- A numbered statement acts as the statement did. -/
theorem keeps_statement {statement : Statement} (knows : numbering.Knows known given)
    (bounded : numbering.Bounded) (proper : statement.Proper)
    (reads : ∀ id, .var id ∈ statement.reads → id ∈ known) :
    numbering.Keeps (numbering.after statement) [statement]
      [numbering.numberStatement statement] := by
  intro interpretation run after frame relates performs
  rw [Statement.performAll_singleton] at performs ⊢
  cases statement with
  | assign offset targets op operands =>
      obtain ⟨words, found, rfl⟩ := Statement.perform_assign_eq_some.mp performs
      have size := length_results (interpretation.answer run.seen ⟨offset, op, words⟩) proper
        (Frame.length_of_values? found)
      refine ⟨_, ?_, relates.assignAll bounded size⟩
      rw [numberStatement, Statement.perform_assign_eq_some]
      exact ⟨words, (relates.values?_number knows reads).trans found, rfl⟩
  | jump offset callee condition args =>
      simp only [Statement.reads, List.mem_append, Option.mem_toList] at reads
      obtain ⟨destination, decided, words, leads, holds, found, rfl⟩ :=
        Statement.perform_jump_eq_some.mp performs
      refine ⟨frame, ?_, relates⟩
      rw [numberStatement, Statement.perform_jump_eq_some]
      refine ⟨destination, decided, words, ?_, ?_, ?_, rfl⟩
      · rw [relates.destination?_number knows fun id own => reads id (.inl (.inl own))]
        exact leads
      · rw [relates.condition?_number knows fun id own => reads id (.inl (.inr own))]
        exact holds
      · rw [relates.values?_number knows fun id own => reads id (.inr own)]
        exact found

/-- Numbered statements act as the statements did. -/
theorem keeps_body {statements : List Statement} (knows : numbering.Knows known given)
    (bounded : numbering.Bounded) (proper : ∀ statement ∈ statements, statement.Proper)
    (reads : Statement.Scoped known statements) :
    numbering.Keeps (numbering.afterAll statements) statements
      (numbering.numberBody statements) := by
  induction statements generalizing numbering known given with
  | nil =>
      intro interpretation run after frame relates performs
      cases performs
      exact ⟨frame, rfl, relates⟩
  | cons first rest ih =>
      rw [List.forall_mem_cons] at proper
      intro interpretation run after frame relates performs
      obtain ⟨middle, performsFirst, performsRest⟩ :=
        Statement.performAll_cons_eq_some.mp performs
      obtain ⟨frame', acts, relates'⟩ :=
        keeps_statement knows bounded proper.1 reads.1 interpretation run middle frame relates
          (by rwa [Statement.performAll_singleton])
      obtain ⟨frame'', actsRest, relates''⟩ :=
        ih (knows.after first) (bounded.after first) proper.2 reads.2 interpretation middle after
          frame' relates' performsRest
      rw [Statement.performAll_singleton] at acts
      exact ⟨frame'', Statement.performAll_cons_eq_some.mpr ⟨_, acts, actsRest⟩, relates''⟩

end Numbering

/-- A routine and what numbering makes of it. -/
structure Routine.Renumbers (before after : Routine) : Prop where
  name : after.name = before.name
  offset : after.offset = before.offset
  arity : after.arity = before.arity
  proper : ∀ statement ∈ after.body, statement.Proper
  meaning : ∀ (interpretation : Interpretation) (params : Nat → Option Word)
    (meaning : List Observation × List Word),
    before.meaning? interpretation params = some meaning →
      after.meaning? interpretation params = some meaning

namespace Numbering

theorem renumbers_numberRoutine {numbering : Numbering} {routine : Routine}
    (bounded : numbering.Bounded) (wellScoped : routine.Scoped) :
    routine.Renumbers (numbering.numberRoutine routine) where
  name := rfl
  offset := rfl
  arity := rfl
  proper := proper_numberBody numbering wellScoped.proper
  meaning := by
    rintro interpretation params ⟨seen, words⟩ means
    have nothing : numbering.Knows [] [] := by simp [Knows]
    have knows := nothing.afterAll routine.body
    rw [List.nil_append, List.nil_append] at knows
    rw [Routine.meaning?, Routine.runIn?_eq_some_iff] at means ⊢
    obtain ⟨after, performs, found, shows⟩ := means
    have start : numbering.Relates ⟨params, fun _ => none⟩ ⟨params, fun _ => none⟩ :=
      ⟨rfl, fun _ _ _ => rfl⟩
    obtain ⟨final, acts, relates⟩ :=
      keeps_body nothing bounded wellScoped.proper wellScoped.body interpretation _ after _ start
        performs
    exact ⟨_, acts, (relates.values?_number knows wellScoped.returns).trans found, shows⟩

theorem renumbers_numberRoutines {numbering : Numbering} {routines : List Routine}
    (bounded : numbering.Bounded) (wellScoped : ∀ routine ∈ routines, routine.Scoped) :
    List.Forall₂ Routine.Renumbers routines (numbering.numberRoutines routines) := by
  induction routines generalizing numbering with
  | nil => exact .nil
  | cons routine rest ih =>
      rw [List.forall_mem_cons] at wellScoped
      exact .cons (renumbers_numberRoutine bounded wellScoped.1)
        (ih (bounded.afterAll routine.body) wellScoped.2)

theorem bounded_empty : Bounded {} := by
  intro id number found
  simp at found

end Numbering

namespace Program

/-- Numbering succeeds on programs whose routines are well scoped. -/
theorem renumber_eq {program : Program}
    (wellScoped : ∀ routine ∈ program.routines, routine.Scoped) :
    program.renumber = .ok ⟨Numbering.numberRoutines {} program.routines⟩ := by
  rw [renumber_eq_settle, walk, Numbering.undefined?_routines wellScoped]
  rfl

end Program

end EvmLift
