import EvmLift.Proofs.IdlePushes

/-!
# What inlining changes

Inlining writes constants where variables were read, and drops the pushes that this leaves
without a use. Jumps hand variables on to other routines, and so does the end of a routine:
there the variables stay, and so do their pushes. Nobody who runs the routines sees a
difference, and what is left has nothing more to inline or to drop.
-/

namespace EvmLift

namespace Frame

/-- A frame in which every parameter and every variable has a word. -/
structure Full (frame : Frame) : Prop where
  params : ∀ index, (frame.params index).isSome = true
  vars : ∀ id, (frame.vars id).isSome = true

namespace Full

variable {frame : Frame}

theorem exists_value? (full : frame.Full) (value : Value) :
    ∃ word, frame.value? value = some word := by
  apply Option.isSome_iff_exists.mp
  cases value with
  | const => rfl
  | var id => exact full.vars id
  | param index => exact full.params index

theorem exists_values? (full : frame.Full) (values : List Value) :
    ∃ words, frame.values? values = some words := by
  induction values with
  | nil => exact ⟨[], rfl⟩
  | cons value rest ih =>
      obtain ⟨word, found⟩ := full.exists_value? value
      obtain ⟨words, others⟩ := ih
      exact ⟨word :: words, by simp [values?, found, others]⟩

theorem store (full : frame.Full) (target : Value) (word : Word) :
    (frame.store target word).Full := by
  cases target with
  | const | param => exact full
  | var id =>
      refine ⟨full.params, ?_⟩
      intro other
      simp only [Frame.store, set]
      split
      · rfl
      · exact full.vars other

theorem assign (full : frame.Full) (targets : List Value) (words : List Word) :
    (frame.assign targets words).Full := by
  induction targets generalizing frame words with
  | nil => exact full
  | cons target targets ih =>
      cases words with
      | nil => exact full
      | cons word words => exact ih (full.store target word) words

end Full

end Frame

namespace Value

/-- Where a constant is inlined nothing is left to inline. -/
theorem inline_inline {constant? fewer? : Nat → Option Word}
    (known : ∀ id word, fewer? id = some word → constant? id = some word) (value : Value) :
    (value.inline constant?).inline fewer? = value.inline constant? := by
  cases value with
  | const | param => rfl
  | var id =>
      cases constant : constant? id with
      | some word => simp [inline, constant]
      | none =>
          have unknown : fewer? id = none := by
            apply Option.eq_none_iff_forall_ne_some.mpr
            intro word found
            rw [known id word found] at constant
            cases constant
          simp [inline, constant, unknown]

end Value

namespace Statement

theorem inline_inline {constant? fewer? : Nat → Option Word}
    (known : ∀ id word, fewer? id = some word → constant? id = some word)
    (statement : Statement) :
    (statement.inline constant?).inline fewer? = statement.inline constant? := by
  have values : Value.inline fewer? ∘ Value.inline constant? = Value.inline constant? :=
    funext (Value.inline_inline known)
  cases statement with
  | assign => simp [inline, values]
  | jump offset callee condition args =>
      cases callee <;> simp [inline, Callee.inline, values, Value.inline_inline known]

/-- In a full frame every statement has a run, and leaves a full frame. -/
theorem exists_perform {run : Run} (full : run.frame.Full) (interpretation : Interpretation)
    (statement : Statement) :
    ∃ next, statement.perform interpretation run = some next ∧ next.frame.Full := by
  cases statement with
  | assign offset targets op operands =>
      obtain ⟨words, found⟩ := full.exists_values? operands
      exact ⟨_, perform_assign_eq_some.mpr ⟨words, found, rfl⟩, full.assign targets _⟩
  | jump offset callee condition args =>
      obtain ⟨words, found⟩ := full.exists_values? args
      have leads : ∃ destination, run.frame.destination? callee = some destination := by
        cases callee with
        | routine | fault => exact ⟨_, rfl⟩
        | computed value =>
            obtain ⟨word, known⟩ := full.exists_value? value
            exact ⟨.offset word, by simp [Frame.destination?, known]⟩
      have decides : ∃ decided, run.frame.condition? condition = some decided := by
        cases condition with
        | none => exact ⟨none, rfl⟩
        | some value =>
            obtain ⟨word, known⟩ := full.exists_value? value
            exact ⟨some word, by simp [Frame.condition?, known]⟩
      obtain ⟨destination, leads⟩ := leads
      obtain ⟨decided, decides⟩ := decides
      exact ⟨_, perform_jump_eq_some.mpr
        ⟨destination, decided, words, leads, decides, found, rfl⟩, full⟩

theorem exists_performAll {run : Run} (full : run.frame.Full) (interpretation : Interpretation)
    (body : List Statement) :
    ∃ final, performAll interpretation run body = some final ∧ final.frame.Full := by
  induction body generalizing run with
  | nil => exact ⟨run, rfl, full⟩
  | cons statement rest ih =>
      obtain ⟨next, performs, stays⟩ := exists_perform full interpretation statement
      obtain ⟨final, others, ends⟩ := ih stays
      exact ⟨final, performAll_cons_eq_some.mpr ⟨next, performs, others⟩, ends⟩

end Statement

namespace Routine

/-- In a full frame every routine has a run. -/
theorem isSome_runIn? {frame : Frame} (full : frame.Full) (interpretation : Interpretation)
    (routine : Routine) : (routine.runIn? interpretation frame).isSome = true := by
  have start : (Run.mk frame []).frame.Full := full
  obtain ⟨final, performs, ends⟩ :=
    Statement.exists_performAll start interpretation routine.body
  obtain ⟨words, found⟩ := ends.exists_values? routine.returns
  simp [runIn?, performs, found]

end Routine

namespace Program

variable {program : Program}

/-- The values that jumps and the ends of routines hand on. -/
def handedOn (program : Program) : List Value :=
  program.routines.flatMap fun routine => routine.body.flatMap Statement.args ++ routine.returns

/-- Whether a statement is a push, and nothing that it assigns is handed on. -/
def inlinesAway (program : Program) : Statement → Bool
  | .assign _ targets op _ => op.isPush && targets.all fun target => target ∉ program.handedOn
  | .jump .. => false

theorem mem_handedOn {value : Value} :
    value ∈ program.handedOn ↔
      ∃ routine ∈ program.routines,
        (∃ jump ∈ routine.body, value ∈ jump.args) ∨ value ∈ routine.returns := by
  simp only [handedOn, List.mem_flatMap, List.mem_append]

/-- The pushes that are dropped are those whose variables nobody hands on. -/
theorem Ordered.isDead_inline (ordered : program.Ordered) {routine : Routine}
    (listed : routine ∈ program.routines) {statement : Statement}
    (placed : statement ∈ routine.body) :
    (statement.inline fun id => program.constants[id]?).isDead
        program.replaceConstants.mentions.contains = program.inlinesAway statement := by
  have inlines := ordered.inlines listed statement placed
  rw [Statement.isDead, Statement.definition?_inline inlines.pushes]
  cases statement with
  | jump => rfl
  | assign offset targets op operands =>
      by_cases push : op.isPush = true
      · obtain ⟨id, word, rfl, rfl⟩ := inlines.pushes push
        have found : (Statement.assign offset [.var id] op [.const word]).definition? =
            some (id, word) := if_pos push
        have mentioned := contains_mentions_replaceConstants (inlines.known id word found)
        have same : program.replaceConstants.mentions.contains id =
            decide (.var id ∈ program.handedOn) := by
          rw [Bool.eq_iff_iff, decide_eq_true_iff, mem_handedOn]
          exact mentioned
        simp [found, inlinesAway, push, same]
      · simp [Statement.definition?_eq_none push, inlinesAway, push]

/-- Inlining filters out some pushes and writes constants into the other statements. -/
theorem Ordered.body_inlined (ordered : program.Ordered) {routine : Routine}
    (listed : routine ∈ program.routines) :
    (routine.inlined (fun id => program.constants[id]?)
        program.replaceConstants.mentions.contains).body =
      (routine.body.filter fun statement => !program.inlinesAway statement).map
        (Statement.inline fun id => program.constants[id]?) := by
  simp only [Routine.inlined, Routine.inline, Routine.dropDead, List.filter_map]
  apply congrArg
  apply List.filter_congr
  intro statement placed
  rw [Function.comp_apply, ordered.isDead_inline listed placed]

/-- The statements that are left, over all routines. -/
theorem Ordered.statements_inlineConstants (ordered : program.Ordered) :
    program.inlineConstants.routines.flatMap Routine.body =
      ((program.routines.flatMap Routine.body).filter fun statement =>
          !program.inlinesAway statement).map
        (Statement.inline fun id => program.constants[id]?) := by
  rw [routines_inlineConstants, List.flatMap_map, List.filter_flatMap, List.map_flatMap]
  apply List.flatMap_congr
  intro routine listed
  exact ordered.body_inlined listed

/-- Inlining keeps what it relies on. -/
theorem Ordered.inlineConstants (ordered : program.Ordered) : program.inlineConstants.Ordered where
  apart := by
    rw [Apart, ordered.statements_inlineConstants, List.pairwise_map]
    apply (List.Pairwise.filter _ ordered.apart).imp
    intro first second apart
    rwa [Statement.assigned_inline, Statement.assigned_inline]
  reads := by
    intro routine member
    rw [routines_inlineConstants] at member
    obtain ⟨original, listed, rfl⟩ := List.mem_map.mp member
    exact (ordered.reads original listed).inline (ordered.inlines listed) fun id known _ => known
  pushes := by
    intro routine member statement placed
    rw [routines_inlineConstants] at member
    obtain ⟨original, listed, rfl⟩ := List.mem_map.mp member
    obtain ⟨before, inside, rfl⟩ := List.mem_map.mp (List.mem_filter.mp placed).1
    have pushes : before.PushesConstant := ordered.pushes original listed before inside
    exact pushes.inline

/-- Inlining hands on the same values. -/
theorem handedOn_inlineConstants : program.inlineConstants.handedOn = program.handedOn := by
  rw [handedOn, handedOn, routines_inlineConstants, List.flatMap_map]
  apply List.flatMap_congr
  intro routine _
  apply congrArg (· ++ routine.returns)
  simp only [Routine.inlined, Routine.inline, Routine.dropDead]
  induction routine.body with
  | nil => rfl
  | cons statement rest ih =>
      rw [List.map_cons, List.flatMap_cons, ← ih]
      cases statement with
      | jump offset callee condition args =>
          rw [List.filter_cons_of_pos rfl, List.flatMap_cons]
          rfl
      | assign offset targets op operands =>
          rw [List.filter_cons]
          split <;> rfl

theorem inlinesAway_inline (statement : Statement) (constant? : Nat → Option Word) :
    program.inlineConstants.inlinesAway (statement.inline constant?) =
      program.inlinesAway statement := by
  cases statement with
  | jump => rfl
  | assign => simp only [Statement.inline, inlinesAway, handedOn_inlineConstants]

/-- After inlining the constants that are known were known before. -/
theorem Ordered.constants_inlineConstants (ordered : program.Ordered) {id : Nat} {word : Word}
    (constant : program.inlineConstants.constants[id]? = some word) :
    program.constants[id]? = some word := by
  obtain ⟨statement, placed, found⟩ :=
    ordered.inlineConstants.apart.constants_eq_some_iff.mp constant
  rw [ordered.statements_inlineConstants] at placed
  obtain ⟨before, inside, rfl⟩ := List.mem_map.mp placed
  have listed := (List.mem_filter.mp inside).1
  obtain ⟨routine, own, member⟩ := List.mem_flatMap.mp listed
  rw [Statement.definition?_inline (ordered.pushes routine own before member)] at found
  exact ordered.apart.constants_eq_some_iff.mpr ⟨before, listed, found⟩

/-- There is nothing left to inline or to drop. -/
theorem Ordered.inlineConstants_inlineConstants (ordered : program.Ordered) :
    program.inlineConstants.inlineConstants = program.inlineConstants := by
  have again : Statement.inline (fun id => program.inlineConstants.constants[id]?) ∘
      Statement.inline (fun id => program.constants[id]?) =
        Statement.inline fun id => program.constants[id]? :=
    funext (Statement.inline_inline fun _ _ constant => ordered.constants_inlineConstants constant)
  have same : ∀ routine ∈ program.inlineConstants.routines,
      routine.inlined (fun id => program.inlineConstants.constants[id]?)
        program.inlineConstants.replaceConstants.mentions.contains = routine := by
    intro routine member
    have after := ordered.inlineConstants.body_inlined member
    rw [routines_inlineConstants] at member
    obtain ⟨original, listed, rfl⟩ := List.mem_map.mp member
    -- What stays is what stayed, with the constants that it has already.
    rw [ordered.body_inlined listed, List.filter_map, List.map_map, again] at after
    simp only [Function.comp_def, inlinesAway_inline, List.filter_filter, Bool.and_self] at after
    rw [← ordered.body_inlined listed] at after
    exact congrArg (fun body => { original with body }) after
  have routines := (List.map_congr_left same).trans (List.map_id _)
  rw [← routines_inlineConstants] at routines
  exact congrArg Program.mk routines

/-- As many pushes are removed as nobody hands on. -/
theorem Ordered.removedPushes_eq (ordered : program.Ordered) :
    program.removedPushes =
      (program.routines.flatMap Routine.body).countP program.inlinesAway := by
  have counts := List.length_eq_countP_add_countP program.inlinesAway
    (l := program.routines.flatMap Routine.body)
  have left : program.inlineConstants.statementCount =
      (program.routines.flatMap Routine.body).countP fun statement =>
        !program.inlinesAway statement := by
    rw [statementCount, ordered.statements_inlineConstants, List.length_map,
      List.countP_eq_length_filter]
  rw [removedPushes, left, statementCount]
  simp only [Bool.not_eq_true, Bool.decide_eq_false] at counts
  omega

end Program

/-- A routine of a program, and what inlining makes of it. -/
structure Routine.InlinesTo (program : Program) (before after : Routine) : Prop where
  name : after.name = before.name
  offset : after.offset = before.offset
  arity : after.arity = before.arity
  returns : after.returns = before.returns
  /-- Pushes that nobody hands on are gone, and the other statements stay in order. -/
  body : after.body =
    (before.body.filter fun statement => !program.inlinesAway statement).map
      (Statement.inline fun id => program.constants[id]?)
  /-- The same is seen and returned. -/
  runs : ∀ (interpretation : Interpretation) (frame : Frame),
    after.runIn? interpretation frame = before.runIn? interpretation frame
  /-- A run is missing only where a word is missing. -/
  exists_run : ∀ (interpretation : Interpretation) (frame : Frame), frame.Full →
    (after.runIn? interpretation frame).isSome = true

/-- Inlining drops exactly the pushes that nobody hands on and returns their number. It changes
nothing that a run shows, with every opcode but pushes in view, and has nothing to do after
itself. -/
theorem inlining_of_ordered {program : Program} (ordered : program.Ordered) :
    List.Forall₂ (Routine.InlinesTo program) program.routines program.inlineConstants.routines ∧
      program.removedPushes =
        (program.routines.flatMap Routine.body).countP program.inlinesAway ∧
      program.inlineConstants.inlineConstants = program.inlineConstants ∧
      program.inlineConstants.removedPushes = 0 := by
  refine ⟨?_, ordered.removedPushes_eq, ordered.inlineConstants_inlineConstants, ?_⟩
  · rw [Program.routines_inlineConstants, List.forall₂_map_right_iff, List.forall₂_same]
    intro routine listed
    have runs := Routine.runIn?_inlined (ordered.inlines listed)
      (Program.contains_mentions_of_mem_returns listed) (ordered.reads routine listed)
    exact ⟨rfl, rfl, rfl, rfl, ordered.body_inlined listed, runs,
      fun interpretation frame full => Routine.isSome_runIn? full interpretation _⟩
  · rw [Program.removedPushes, ordered.inlineConstants_inlineConstants, Nat.sub_self]

/-- In this code a jump hands on the first constant. The other two are inlined, and their pushes
go. -/
theorem inlining_of_ordered_lifted :
    ∃ program : Program,
      Program.ofBlocks (Block.split (Bytecode.decode
        [0x60, 7, 0x60, 0, 0x35, 0x60, 9, 0x57, 0x50, 0x00])) = .ok program ∧
      program.Ordered ∧ program.removedPushes = 2 ∧
      List.Forall₂ (Routine.InlinesTo program) program.routines
        program.inlineConstants.routines := by
  have decoded : ∀ instruction ∈ Bytecode.decode
      [0x60, 7, 0x60, 0, 0x35, 0x60, 9, 0x57, 0x50, 0x00], instruction.Standard :=
    Bytecode.standard_of_mem_decode
  have standard := Block.forall_mem_split decoded
  have ordered := (Block.scoped_routines standard).ordered
  exact ⟨_, Block.ofBlocks_eq standard, ordered, by decide +kernel,
    (inlining_of_ordered ordered).1⟩

end EvmLift
