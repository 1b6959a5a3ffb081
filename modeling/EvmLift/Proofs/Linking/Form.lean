import EvmLift.Proofs.Lifting.Form
import EvmLift.Proofs.Linking.Signatures

/-!
# Linking keeps the form of statements

Whatever a pass of linking makes of a statement, the statement stays where it is, keeps its
opcode, assigns to variables as before and reads no other parameter. Well formed routines
therefore stay well formed, up to the jumps between neighbours, and these read only what
a routine returns.
-/

namespace EvmLift

namespace Statement

variable {before after : Statement}

/-- What a pass may make of a statement. -/
structure Becomes (before after : Statement) : Prop where
  offset : after.offset? = before.offset?
  op : after.op? = before.op?
  params : ∀ index, .param index ∈ after.reads → .param index ∈ before.reads
  targets : (∀ target ∈ before.targets, ∃ id, target = .var id) →
    ∀ target ∈ after.targets, ∃ id, target = .var id

theorem Becomes.trans {middle : Statement} (first : before.Becomes middle)
    (second : middle.Becomes after) : before.Becomes after where
  offset := second.offset.trans first.offset
  op := second.op.trans first.op
  params := fun index member => first.params index (second.params index member)
  targets := fun vars => second.targets (first.targets vars)

theorem Becomes.formed {arity : Nat} (becomes : before.Becomes after)
    (formed : before.Formed arity) : after.Formed arity where
  reads := by
    intro value member
    cases value with
    | const | var => trivial
    | param index => exact formed.reads _ (becomes.params index member)
  targets := becomes.targets formed.targets
  op := by
    rw [becomes.op]
    exact formed.op

theorem becomes_inline (constant? : Nat → Option Word) (statement : Statement) :
    statement.Becomes (statement.inline constant?) where
  offset := by cases statement <;> rfl
  op := by cases statement <;> rfl
  params := by
    intro index member
    exact (mem_reads_of_mem_inline member).resolve_right (by simp)
  targets := by
    intro vars
    cases statement <;> exact vars

theorem becomes_link (entryAt? : Nat → Option Entry) (statement : Statement) :
    statement.Becomes (statement.link entryAt?) where
  offset := by
    unfold link
    split
    · split <;> rfl
    · rfl
    · rfl
  op := by
    unfold link
    split
    · split <;> rfl
    · rfl
    · rfl
  params := by
    intro index member
    exact mem_reads_of_mem_link statement _ member
  targets := by
    intro vars
    unfold link
    split
    · split <;> exact vars
    · exact vars
    · exact vars

end Statement

namespace Numbering

/-- A numbered statement reads the numbers of what it read before. -/
theorem exists_of_mem_reads {numbering : Numbering} {statement : Statement} {value : Value}
    (member : value ∈ (numbering.numberStatement statement).reads) :
    ∃ read ∈ statement.reads, value = numbering.number read := by
  cases statement with
  | assign offset targets op operands =>
      rcases List.mem_map.mp member with ⟨read, found, equal⟩
      exact ⟨read, found, equal.symm⟩
  | jump offset callee condition args =>
      simp only [numberStatement, Statement.reads, List.mem_append, Option.mem_toList,
        List.mem_map] at member ⊢
      rcases member with (target | decides) | ⟨read, passed, equal⟩
      · cases callee with
        | routine | fault => cases target
        | computed read => exact ⟨read, .inl (.inl rfl), (Option.some.inj target).symm⟩
      · rcases Option.map_eq_some_iff.mp decides with ⟨read, found, equal⟩
        exact ⟨read, .inl (.inr found), equal.symm⟩
      · exact ⟨read, .inr passed, equal.symm⟩

/-- Numbering makes variables of variables only. -/
theorem number_eq_param {numbering : Numbering} {value : Value} {index : Nat}
    (equal : Value.param index = numbering.number value) : value = .param index := by
  cases value with
  | const | var => cases equal
  | param => exact equal.symm

/-- The targets of an assignment get the next numbers in order. -/
theorem assignAll_eq {targets : List Value} (vars : ∀ target ∈ targets, ∃ id, target = .var id)
    (numbering : Numbering) :
    (numbering.assignAll targets).1 =
        (List.range' numbering.next targets.length).map Value.var ∧
      (numbering.assignAll targets).2.next = numbering.next + targets.length := by
  induction targets generalizing numbering with
  | nil => exact ⟨rfl, rfl⟩
  | cons target rest ih =>
      rw [List.forall_mem_cons] at vars
      rcases vars with ⟨⟨id, rfl⟩, others⟩
      rcases ih others (numbering.assign (.var id)).2 with ⟨numbers, next⟩
      constructor
      · rw [List.length_cons, List.range'_succ, List.map_cons]
        exact congrArg _ numbers
      · change ((numbering.assign (.var id)).2.assignAll rest).2.next = _
        rw [next, List.length_cons]
        change numbering.next + 1 + rest.length = _
        omega

theorem targets_numberStatement (numbering : Numbering) (statement : Statement) :
    (numbering.numberStatement statement).targets =
      (numbering.assignAll statement.targets).1 := by
  cases statement <;> rfl

theorem after_eq (numbering : Numbering) (statement : Statement) :
    numbering.after statement = (numbering.assignAll statement.targets).2 := by
  cases statement <;> rfl

theorem becomes_numberStatement (numbering : Numbering) (statement : Statement) :
    statement.Becomes (numbering.numberStatement statement) where
  offset := by cases statement <;> rfl
  op := by cases statement <;> rfl
  params := by
    intro index member
    rcases exists_of_mem_reads member with ⟨read, found, equal⟩
    exact number_eq_param equal ▸ found
  targets := by
    intro vars target member
    rw [targets_numberStatement, (assignAll_eq vars numbering).1] at member
    rcases List.mem_map.mp member with ⟨id, _, equal⟩
    exact ⟨id, equal.symm⟩

end Numbering

namespace Routine

variable {before after routine next : Routine}

/-- What a pass may make of a routine. -/
structure Becomes (before after : Routine) : Prop where
  arity : after.arity = before.arity
  body : ∀ statement ∈ after.body, ∃ original ∈ before.body, original.Becomes statement
  returns : ∀ index, .param index ∈ after.returns → .param index ∈ before.returns

theorem Becomes.trans {middle : Routine} (first : before.Becomes middle)
    (second : middle.Becomes after) : before.Becomes after where
  arity := second.arity.trans first.arity
  body := by
    intro statement member
    rcases second.body statement member with ⟨changed, listed, later⟩
    rcases first.body changed listed with ⟨original, placed, sooner⟩
    exact ⟨original, placed, sooner.trans later⟩
  returns := fun index member => first.returns index (second.returns index member)

theorem Becomes.formed (becomes : before.Becomes after) (formed : before.Formed) :
    after.Formed where
  body := by
    intro statement member
    rcases becomes.body statement member with ⟨original, placed, changes⟩
    rw [becomes.arity]
    exact changes.formed (formed.body original placed)
  returns := by
    intro value member
    rw [becomes.arity]
    cases value with
    | const | var => trivial
    | param index => exact formed.returns _ (becomes.returns index member)

theorem becomes_inlined (constant? : Nat → Option Word) (mentioned : Nat → Bool)
    (routine : Routine) : routine.Becomes (routine.inlined constant? mentioned) where
  arity := rfl
  body := by
    intro statement member
    rcases List.mem_map.mp (List.mem_filter.mp member).1 with ⟨original, placed, rfl⟩
    exact ⟨original, placed, Statement.becomes_inline constant? original⟩
  returns := fun _ member => member

theorem becomes_linked (entryAt? : Nat → Option Entry) (routine : Routine) :
    routine.Becomes (routine.linked entryAt?) where
  arity := rfl
  body := by
    intro statement member
    rcases List.mem_map.mp member with ⟨original, placed, rfl⟩
    exact ⟨original, placed, Statement.becomes_link entryAt? original⟩
  returns := fun _ member => member

theorem becomes_numberRoutine (numbering : Numbering) (routine : Routine) :
    routine.Becomes (numbering.numberRoutine routine) where
  arity := rfl
  body := by
    intro statement member
    rcases Numbering.exists_of_mem_numberBody member with ⟨own, original, placed, rfl⟩
    exact ⟨original, placed, own.becomes_numberStatement original⟩
  returns := by
    intro index member
    rcases List.mem_map.mp member with ⟨value, found, equal⟩
    exact Numbering.number_eq_param equal.symm ▸ found

/-- The jump to the next routine reads returned values, and nothing else. -/
theorem mem_returns_of_mem_reads_jumpTo {value : Value}
    (member : value ∈ (routine.jumpTo next).reads) : value ∈ routine.returns :=
  List.mem_of_mem_take member

theorem mem_body_continueTo {statement : Statement}
    (member : statement ∈ (routine.continueTo next).body) :
    statement ∈ routine.body ∨ statement = routine.jumpTo next := by
  unfold continueTo at member
  split at member
  · exact (List.mem_append.mp member).imp_right List.mem_singleton.mp
  · exact .inl member

theorem arity_continueTo : (routine.continueTo next).arity = routine.arity := by
  unfold continueTo
  split <;> rfl

theorem returns_continueTo : (routine.continueTo next).returns = routine.returns := by
  unfold continueTo
  split <;> rfl

theorem Formed.continueTo (formed : routine.Formed) (next : Routine) :
    (routine.continueTo next).Formed where
  body := by
    intro statement member
    rw [arity_continueTo]
    rcases mem_body_continueTo member with own | rfl
    · exact formed.body statement own
    · constructor
      · intro value read
        exact formed.returns value (mem_returns_of_mem_reads_jumpTo read)
      · intro target assigned
        cases assigned
      · intro op equal
        cases equal
  returns := by
    rw [arity_continueTo, returns_continueTo]
    exact formed.returns

/-- What every routine has, and keeps as it is continued, chained routines have. -/
theorem forall_mem_chain {motive : Routine → Prop}
    (continues : ∀ routine next, motive routine → motive (routine.continueTo next))
    {routines : List Routine} (holds : ∀ routine ∈ routines, motive routine) :
    ∀ routine ∈ chain routines, motive routine := by
  fun_induction chain routines with
  | case1 routine next rest ih =>
      rw [List.forall_mem_cons] at holds ⊢
      exact ⟨continues routine next holds.1, ih holds.2⟩
  | case2 => exact holds

end Routine

namespace Program

variable {program : Program}

/-- Every routine with linked jumps comes of a routine of the program. -/
theorem exists_becomes_of_mem_linkJumps :
    ∀ routine ∈ program.inlineConstants.linkJumps.routines,
      ∃ original ∈ program.routines, original.Becomes routine := by
  intro routine member
  rw [routines_linkJumps, routines_inlineConstants, List.map_map] at member
  rcases List.mem_map.mp member with ⟨original, listed, rfl⟩
  refine ⟨original, listed, ?_⟩
  exact (Routine.becomes_inlined _ _ original).trans (Routine.becomes_linked _ _)

theorem exists_becomes_of_mem_numbered :
    ∀ routine ∈ program.numbered, ∃ original ∈ program.routines, original.Becomes routine := by
  intro routine member
  rcases Numbering.exists_of_mem_numberRoutines member with ⟨numbering, linked, listed, rfl⟩
  rcases exists_becomes_of_mem_linkJumps linked listed with ⟨original, own, becomes⟩
  exact ⟨original, own, becomes.trans (Routine.becomes_numberRoutine numbering linked)⟩

/-- Linking keeps routines well formed. -/
theorem formed_of_mem_chain_numbered
    (formed : ∀ routine ∈ program.routines, routine.Formed) :
    ∀ routine ∈ Routine.chain program.numbered, routine.Formed := by
  apply Routine.forall_mem_chain
  · intro routine next holds
    exact holds.continueTo next
  · intro routine member
    rcases exists_becomes_of_mem_numbered routine member with ⟨original, listed, becomes⟩
    exact becomes.formed (formed original listed)

end Program

end EvmLift
