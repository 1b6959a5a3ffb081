import EvmLift.Proofs.Linking.Lookup
import EvmLift.Proofs.Semantics.Frame

/-!
# Inlining keeps meanings

A variable that a push assigns holds the same constant in every frame, so reading the
constant in its place changes nothing. A push whose variable nothing mentions any more is
seen by nobody. After the pass the frame has forgotten just the dropped variables.
-/

namespace EvmLift

namespace Frame

/-- The frame with some of the variables as they once were. -/
def revert (dropped : Nat → Bool) (once : Nat → Option Word) (frame : Frame) : Frame :=
  { frame with vars := fun id => if dropped id then once id else frame.vars id }

/-- Nothing is reverted to what it is. -/
theorem revert_vars (dropped : Nat → Bool) (frame : Frame) :
    frame.revert dropped frame.vars = frame := by
  simp [revert]

variable {dropped : Nat → Bool} {once : Nat → Option Word}

theorem revert_store_of_kept {target : Value}
    (kept : ∀ id, target = .var id → dropped id = false) (frame : Frame) (word : Word) :
    (frame.store target word).revert dropped once =
      (frame.revert dropped once).store target word := by
  cases target with
  | const | param => rfl
  | var id =>
      simp only [revert, store, set, Frame.mk.injEq, true_and]
      funext other
      by_cases equal : other = id <;> simp [equal, kept id rfl]

theorem revert_assign {frame : Frame} {targets : List Value} {words : List Word}
    (kept : ∀ id, .var id ∈ targets → dropped id = false) :
    (frame.assign targets words).revert dropped once =
      (frame.revert dropped once).assign targets words := by
  induction targets generalizing frame words with
  | nil => rfl
  | cons target targets ih =>
      cases words with
      | nil => rfl
      | cons word words =>
          rw [assign, assign, ih fun id member => kept id (List.mem_cons_of_mem _ member),
            revert_store_of_kept]
          rintro id rfl
          exact kept id List.mem_cons_self

/-- Some of the variables hold their constants, if they have one. -/
def HoldsConstants (constant? : Nat → Option Word) (known : List Nat) (frame : Frame) : Prop :=
  ∀ id ∈ known, ∀ word, constant? id = some word → frame.vars id = some word

end Frame

/-- The run with some of the variables as they once were. -/
def Run.revert (dropped : Nat → Bool) (once : Nat → Option Word) (run : Run) : Run :=
  { run with frame := run.frame.revert dropped once }

/-- What is known of a statement when constants are inlined: the constant of a variable
comes from the push that assigns it, and the variables that are still read afterwards
are mentioned. -/
structure Inlines (constant? : Nat → Option Word) (mentioned : Nat → Bool)
    (statement : Statement) : Prop where
  pushes : statement.PushesConstant
  defined : ∀ id word, id ∈ statement.assigned → constant? id = some word →
    statement.definition? = some (id, word)
  known : ∀ id word, statement.definition? = some (id, word) → constant? id = some word
  reads : ∀ id, .var id ∈ (statement.inline constant?).reads → mentioned id = true

namespace Statement

/-- Whether the push of a variable is dropped. -/
def dropped (constant? : Nat → Option Word) (mentioned : Nat → Bool) (id : Nat) : Bool :=
  (constant? id).isSome && !mentioned id

theorem definition?_eq_none {offset : Nat} {targets : List Value} {op : Opcode}
    {operands : List Value} (notPush : ¬op.isPush = true) :
    (assign offset targets op operands).definition? = none := by
  rw [Option.eq_none_iff_forall_ne_some]
  rintro ⟨id, word⟩ found
  obtain ⟨_, _, equal, push⟩ := definition?_eq_some found
  cases equal
  exact notPush push

variable {constant? : Nat → Option Word} {mentioned : Nat → Bool} {once : Nat → Option Word}
variable {statement : Statement} {interpretation : Interpretation} {known : List Nat}
variable {frame : Frame} {run after : Run}

theorem definition?_inline (pushes : statement.PushesConstant) :
    (statement.inline constant?).definition? = statement.definition? := by
  cases statement with
  | jump => rfl
  | assign offset targets op operands =>
      by_cases push : op.isPush = true
      · obtain ⟨id, word, rfl, rfl⟩ := pushes push
        rfl
      · rw [inline, definition?_eq_none push, definition?_eq_none push]

/-- A push already has its constant, so inlining does not touch it. -/
theorem PushesConstant.inline (pushes : statement.PushesConstant) :
    (statement.inline constant?).PushesConstant := by
  cases statement with
  | jump => trivial
  | assign offset targets op operands =>
      intro push
      obtain ⟨id, word, rfl, rfl⟩ := pushes push
      exact ⟨id, word, rfl, rfl⟩

theorem Proper.inline (proper : statement.Proper) : (statement.inline constant?).Proper := by
  cases statement with
  | jump => trivial
  | assign offset targets op operands =>
      have pushes : (assign offset targets op operands).PushesConstant := proper.push
      exact ⟨pushes.inline, proper.goesOn, proper.size⟩

/-- A value that is known has the same word when its constant is inlined. -/
theorem value?_inline (holds : frame.HoldsConstants constant? known) {value : Value}
    (reads : ∀ id, value = .var id → id ∈ known) :
    (frame.revert (dropped constant? mentioned) once).value? (value.inline constant?) =
      frame.value? value := by
  cases value with
  | const | param => rfl
  | var id =>
      cases constant : constant? id with
      | none => simp [Value.inline, constant, Frame.value?, Frame.revert, dropped]
      | some word =>
          have held := holds id (reads id rfl) word constant
          simp [Value.inline, constant, Frame.value?, held]

theorem values?_inline (holds : frame.HoldsConstants constant? known) {values : List Value}
    (reads : ∀ id, .var id ∈ values → id ∈ known) :
    (frame.revert (dropped constant? mentioned) once).values?
        (values.map (Value.inline constant?)) = frame.values? values := by
  induction values with
  | nil => rfl
  | cons value rest ih =>
      have first : (frame.revert (dropped constant? mentioned) once).value? _ = _ :=
        value?_inline holds fun id equal => reads id (equal ▸ List.mem_cons_self)
      have others := ih fun id member => reads id (List.mem_cons_of_mem _ member)
      simp only [List.map_cons, Frame.values?, first, others]

/-- What is mentioned is not dropped. -/
theorem values?_revert {values : List Value}
    (mentions : ∀ id, .var id ∈ values → mentioned id = true) :
    (frame.revert (dropped constant? mentioned) once).values? values = frame.values? values := by
  induction values with
  | nil => rfl
  | cons value rest ih =>
      have first : (frame.revert (dropped constant? mentioned) once).value? value =
          frame.value? value := by
        cases value with
        | const | param => rfl
        | var id =>
            simp [Frame.value?, Frame.revert, dropped, mentions id List.mem_cons_self]
      have others := ih fun id member => mentions id (List.mem_cons_of_mem _ member)
      simp only [Frame.values?, first, others]

theorem destination?_inline (holds : frame.HoldsConstants constant? known) {callee : Callee}
    (reads : ∀ id, callee.value? = some (.var id) → id ∈ known) :
    (frame.revert (dropped constant? mentioned) once).destination? (callee.inline constant?) =
      frame.destination? callee := by
  cases callee with
  | routine | fault => rfl
  | computed value =>
      simp only [Callee.inline, Frame.destination?,
        value?_inline holds fun id equal => reads id (congrArg some equal)]

theorem condition?_inline (holds : frame.HoldsConstants constant? known)
    {condition : Option Value} (reads : ∀ id, condition = some (.var id) → id ∈ known) :
    (frame.revert (dropped constant? mentioned) once).condition?
        (condition.map (Value.inline constant?)) = frame.condition? condition := by
  cases condition with
  | none => rfl
  | some value =>
      simp only [Option.map_some, Frame.condition?,
        value?_inline holds fun id equal => reads id (congrArg some equal)]

/-- A statement that stays acts as before, on what is left of the frame. -/
theorem perform_inline (inlines : Inlines constant? mentioned statement)
    (holds : run.frame.HoldsConstants constant? known)
    (reads : ∀ id, .var id ∈ statement.reads → id ∈ known)
    (stays : statement.isDead mentioned = false) :
    (statement.inline constant?).perform interpretation
        (run.revert (dropped constant? mentioned) once) =
      (statement.perform interpretation run).map
        (Run.revert (dropped constant? mentioned) once) := by
  cases statement with
  | assign offset targets op operands =>
      have kept : ∀ id, .var id ∈ targets → dropped constant? mentioned id = false := by
        intro id member
        cases constant : constant? id with
        | none => simp [dropped, constant]
        | some word =>
            have push := inlines.defined id word (mem_assigned.mpr member) constant
            simpa [dropped, constant, isDead, push] using stays
      have taken : (run.frame.revert (dropped constant? mentioned) once).values?
          (operands.map (Value.inline constant?)) = run.frame.values? operands :=
        values?_inline holds reads
      simp only [inline, perform, Run.revert, taken]
      cases run.frame.values? operands with
      | none => rfl
      | some words => simp [Run.revert, Frame.revert_assign kept]
  | jump offset callee condition args =>
      simp only [Statement.reads, List.mem_append, Option.mem_toList] at reads
      have passed : (run.frame.revert (dropped constant? mentioned) once).values? args =
          run.frame.values? args :=
        values?_revert fun id member => inlines.reads id (by simp [inline, Statement.reads, member])
      simp only [inline, perform, Run.revert, passed,
        destination?_inline holds fun id own => reads id (.inl (.inl own)),
        condition?_inline holds fun id own => reads id (.inl (.inr own))]
      cases run.frame.destination? callee with
      | none => rfl
      | some destination =>
          cases run.frame.condition? condition with
          | none => rfl
          | some decided => cases run.frame.values? args <;> rfl

/-- A push leaves its constant in its variable, and nobody sees it. -/
theorem perform_of_definition? {id : Nat} {word : Word}
    (found : statement.definition? = some (id, word)) :
    statement.perform interpretation run = some { run with frame := run.frame.set id word } := by
  obtain ⟨offset, op, rfl, push⟩ := definition?_eq_some found
  simp [perform, Frame.values?, Frame.value?, Event.results, push, Frame.assign, Frame.store,
    Reading.sight, interpretation.push_silent op push]

/-- A dead push changes only a variable that is dropped. -/
theorem perform_dead (inlines : Inlines constant? mentioned statement)
    (dead : statement.isDead mentioned = true) :
    ∃ next, statement.perform interpretation run = some next ∧
      next.revert (dropped constant? mentioned) once =
        run.revert (dropped constant? mentioned) once := by
  unfold isDead at dead
  split at dead
  next id word found =>
    have gone : dropped constant? mentioned id = true := by
      simpa [dropped, inlines.known id word found] using dead
    refine ⟨_, perform_of_definition? found, ?_⟩
    simp only [Run.revert, Frame.revert, Frame.set, Run.mk.injEq, Frame.mk.injEq, true_and,
      and_true]
    funext other
    by_cases equal : other = id <;> simp [equal, gone]
  · cases dead

/-- Statements keep the constants of variables, and pushes add theirs. -/
theorem holdsConstants_perform (inlines : Inlines constant? mentioned statement)
    (holds : run.frame.HoldsConstants constant? known)
    (performs : statement.perform interpretation run = some after) :
    after.frame.HoldsConstants constant? (known ++ statement.assigned) := by
  intro id member word constant
  by_cases assigns : id ∈ statement.assigned
  · rw [perform_of_definition? (inlines.defined id word assigns constant)] at performs
    cases performs
    simp [Frame.set]
  · have held := holds id ((List.mem_append.mp member).resolve_right assigns) word constant
    cases statement with
    | jump offset callee condition args =>
        obtain ⟨_, _, _, _, _, _, rfl⟩ := perform_jump_eq_some.mp performs
        exact held
    | assign offset targets op operands =>
        obtain ⟨words, _, rfl⟩ := perform_assign_eq_some.mp performs
        rw [mem_assigned] at assigns
        rwa [Frame.vars_assign_of_not_mem assigns]

/-- Inlining and dropping dead pushes changes nothing that is seen. -/
theorem performAll_inline {body : List Statement}
    (inlines : ∀ statement ∈ body, Inlines constant? mentioned statement)
    (wellScoped : Scoped known body) (holds : run.frame.HoldsConstants constant? known) :
    performAll interpretation (run.revert (dropped constant? mentioned) once)
        ((body.map (inline constant?)).filter fun statement => !statement.isDead mentioned) =
      (performAll interpretation run body).map
        (Run.revert (dropped constant? mentioned) once) := by
  induction body generalizing run known with
  | nil => rfl
  | cons statement rest ih =>
      rw [List.forall_mem_cons] at inlines
      have dead : (statement.inline constant?).isDead mentioned = statement.isDead mentioned := by
        simp only [isDead, definition?_inline inlines.1.pushes]
      have remaining : ∀ next, statement.perform interpretation run = some next → _ :=
        fun next performs =>
          ih inlines.2 wellScoped.2 (holdsConstants_perform inlines.1 holds performs)
      rw [List.map_cons]
      cases gone : statement.isDead mentioned with
      | true =>
          obtain ⟨next, performs, same⟩ := perform_dead inlines.1 gone
          rw [List.filter_cons_of_neg (by simp [dead, gone]), performAll, performs, ← same]
          exact remaining next performs
      | false =>
          rw [List.filter_cons_of_pos (by simp [dead, gone]), performAll, performAll,
            perform_inline inlines.1 holds wellScoped.1 gone]
          cases performs : statement.perform interpretation run with
          | none => rfl
          | some next => exact remaining next performs

theorem inline_value (constant? : Nat → Option Word) (value : Value) :
    value.inline constant? = value ∨ ∃ word, value.inline constant? = .const word := by
  cases value with
  | const | param => exact .inl rfl
  | var id =>
      cases constant : constant? id with
      | some word => exact .inr ⟨word, by simp [Value.inline, constant]⟩
      | none => exact .inl (by simp [Value.inline, constant])

/-- Inlining adds only constants to what a statement reads. -/
theorem mem_reads_of_mem_inline {value : Value}
    (member : value ∈ (statement.inline constant?).reads) :
    value ∈ statement.reads ∨ ∃ word, value = .const word := by
  have kept : ∃ read ∈ statement.reads, value = read ∨ value = read.inline constant? := by
    cases statement with
    | assign offset targets op operands =>
        rcases List.mem_map.mp member with ⟨read, found, equal⟩
        exact ⟨read, found, .inr equal.symm⟩
    | jump offset callee condition args =>
        simp only [inline, reads, List.mem_append, Option.mem_toList] at member ⊢
        rcases member with (target | decides) | passed
        · cases callee with
          | routine | fault => cases target
          | computed read => exact ⟨read, .inl (.inl rfl), .inr (Option.some.inj target).symm⟩
        · rcases Option.map_eq_some_iff.mp decides with ⟨read, found, equal⟩
          exact ⟨read, .inl (.inr found), .inr equal.symm⟩
        · exact ⟨value, .inr passed, .inl rfl⟩
  rcases kept with ⟨read, found, rfl | rfl⟩
  · exact .inl found
  · rcases inline_value constant? read with same | constant
    · exact .inl (same.symm ▸ found)
    · exact .inr constant

theorem assigned_inline : (statement.inline constant?).assigned = statement.assigned := by
  cases statement <;> rfl

theorem isDead_eq_false (inlines : Inlines constant? mentioned statement) {id : Nat}
    (assigns : id ∈ statement.assigned) (mentions : mentioned id = true) :
    (statement.inline constant?).isDead mentioned = false := by
  rw [isDead, definition?_inline inlines.pushes]
  split
  next other word found =>
    obtain ⟨_, _, rfl, _⟩ := definition?_eq_some found
    obtain rfl : id = other := by simpa [mem_assigned] using assigns
    simp [mentions]
  · rfl

/-- Variables that are not dropped stay in scope. -/
theorem Scoped.inline {body : List Statement} {known kept : List Nat}
    (inlines : ∀ statement ∈ body, Inlines constant? mentioned statement)
    (stays : ∀ id ∈ known, dropped constant? mentioned id = false → id ∈ kept)
    (reads : Scoped known body) :
    Scoped kept
      ((body.map (Statement.inline constant?)).filter fun statement =>
        !statement.isDead mentioned) := by
  induction body generalizing known kept with
  | nil => trivial
  | cons statement rest ih =>
      rw [List.forall_mem_cons] at inlines
      rw [List.map_cons]
      by_cases gone : (statement.inline constant?).isDead mentioned = true
      · rw [List.filter_cons_of_neg (by simp [gone])]
        refine ih inlines.2 ?_ reads.2
        intro id member alive
        rw [List.mem_append] at member
        rcases member with older | pushed
        · exact stays id older alive
        · -- The only variable that a dead push assigns is dropped.
          rw [isDead, definition?_inline inlines.1.pushes] at gone
          split at gone
          next other word found =>
            obtain ⟨_, _, rfl, _⟩ := definition?_eq_some found
            obtain rfl : id = other := by simpa [mem_assigned] using pushed
            simp [dropped, inlines.1.known id word found, gone] at alive
          · cases gone
      · rw [List.filter_cons_of_pos (by simp [gone])]
        refine ⟨?_, ih inlines.2 ?_ reads.2⟩
        · intro id member
          have read := (mem_reads_of_mem_inline member).resolve_right (by simp)
          apply stays id (reads.1 id read)
          simp [dropped, inlines.1.reads id member]
        · intro id member alive
          rw [assigned_inline, List.mem_append]
          rcases List.mem_append.mp member with older | own
          · exact .inl (stays id older alive)
          · exact .inr own

end Statement

namespace Routine

/-- What inlining makes of a routine. -/
def inlined (constant? : Nat → Option Word) (mentioned : Nat → Bool) (routine : Routine) :
    Routine :=
  (routine.inline constant?).dropDead mentioned

variable {constant? : Nat → Option Word} {mentioned : Nat → Bool} {routine : Routine}

/-- Inlining changes nothing that is seen of a routine, and nothing that it returns. -/
theorem runIn?_inlined (inlines : ∀ statement ∈ routine.body, Inlines constant? mentioned statement)
    (returned : ∀ id, .var id ∈ routine.returns → mentioned id = true)
    (wellScoped : Statement.Scoped [] routine.body) (interpretation : Interpretation)
    (frame : Frame) :
    (routine.inlined constant? mentioned).runIn? interpretation frame =
      routine.runIn? interpretation frame := by
  have nothing : frame.HoldsConstants constant? [] := by simp [Frame.HoldsConstants]
  have performs : Statement.performAll interpretation (Run.revert _ frame.vars ⟨frame, []⟩) _ = _ :=
    Statement.performAll_inline inlines wellScoped nothing
  rw [Run.revert, Frame.revert_vars] at performs
  have returns : ∀ run : Run,
      (run.revert (Statement.dropped constant? mentioned) frame.vars).frame.values?
        routine.returns = run.frame.values? routine.returns :=
    fun run => Statement.values?_revert returned
  simp only [runIn?, inlined, inline, dropDead, performs]
  cases Statement.performAll interpretation ⟨frame, []⟩ routine.body with
  | none => rfl
  | some run =>
      simp only [Option.map_some, Option.bind_eq_bind, Option.bind_some, returns]
      rfl

theorem Scoped.inlined (inlines : ∀ statement ∈ routine.body, Inlines constant? mentioned statement)
    (returned : ∀ id, .var id ∈ routine.returns → mentioned id = true)
    (wellScoped : routine.Scoped) : (routine.inlined constant? mentioned).Scoped where
  proper := by
    intro statement member
    obtain ⟨original, placed, rfl⟩ := List.mem_map.mp (List.mem_filter.mp member).1
    exact (wellScoped.proper original placed).inline
  body := wellScoped.body.inline inlines fun id member _ => member
  returns := by
    intro id member
    have assigns := wellScoped.returns id member
    simp only [assigned, List.mem_flatMap] at assigns ⊢
    obtain ⟨statement, placed, own⟩ := assigns
    have alive := Statement.isDead_eq_false (inlines statement placed) own (returned id member)
    refine ⟨_, List.mem_filter.mpr ⟨List.mem_map_of_mem placed, by simp [alive]⟩, ?_⟩
    rwa [Statement.assigned_inline]

end Routine

namespace Program

variable {program : Program}

theorem Ordered.inlines (ordered : program.Ordered) {routine : Routine}
    (listed : routine ∈ program.routines) :
    ∀ statement ∈ routine.body, Inlines (fun id => program.constants[id]?)
      program.replaceConstants.mentions.contains statement := by
  intro statement member
  have placed : statement ∈ program.routines.flatMap Routine.body :=
    List.mem_flatMap.mpr ⟨routine, listed, member⟩
  refine ⟨ordered.pushes routine listed statement member, ?_, ?_, ?_⟩
  · intro id word assigns constant
    obtain ⟨definer, placed', found⟩ := ordered.apart.constants_eq_some_iff.mp constant
    rw [ordered.apart.eq_of_mem_assigned placed placed' assigns
      (Statement.mem_assigned_of_definition? found)]
    exact found
  · intro id word found
    exact ordered.apart.constants_eq_some_iff.mpr ⟨statement, placed, found⟩
  · intro id member'
    refine contains_mentions.mpr ⟨_, List.mem_map_of_mem listed, ?_⟩
    refine List.mem_filterMap.mpr ⟨.var id, List.mem_append_left _ ?_, rfl⟩
    exact List.mem_flatMap.mpr ⟨_, List.mem_map_of_mem member, member'⟩

theorem contains_mentions_of_mem_returns {routine : Routine}
    (listed : routine ∈ program.routines) :
    ∀ id, .var id ∈ routine.returns →
      program.replaceConstants.mentions.contains id = true := by
  intro id member
  refine contains_mentions.mpr ⟨_, List.mem_map_of_mem listed, ?_⟩
  exact List.mem_filterMap.mpr ⟨_, List.mem_append_right _ member, rfl⟩

theorem routines_inlineConstants :
    program.inlineConstants.routines =
      program.routines.map (Routine.inlined (fun id => program.constants[id]?)
        program.replaceConstants.mentions.contains) := by
  simp [inlineConstants, dropDead, replaceConstants, Routine.inlined, Function.comp_def]

end Program

end EvmLift
