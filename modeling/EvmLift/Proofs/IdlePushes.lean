import EvmLift.Proofs.Linking.Renaming

/-!
# Pushes that nothing uses

Inlining drops a push once nothing mentions its variable, and at that time every jump still
holds all that was live when it was met. Linking cuts this down to what the entered routine
takes, and to nothing if there is none, but drops no pushes any more. So a push stays behind
exactly if some jump held its variable, no jump passes it on, and the rest of the block took it
from the stack.
-/

namespace EvmLift

namespace Statement

variable {constant? : Nat → Option Word} {entryAt? : Nat → Option Entry} {statement : Statement}

/-- The values that a jump passes. -/
def args : Statement → List Value
  | .jump _ _ _ args => args
  | .assign .. => []

/-- The values that a jump still passes when it is linked: those that the routine at its target
takes, and none if no routine is known to start there. -/
def passed (constant? : Nat → Option Word) (entryAt? : Nat → Option Entry) :
    Statement → List Value
  | .jump _ (.computed value) _ args =>
      match value.inline constant? with
      | .const word =>
          match entryAt? word.toNat with
          | some entry => args.take entry.arity
          | none => []
      | _ => []
  | statement => statement.args

theorem mem_reads_of_mem_args {value : Value} (member : value ∈ statement.args) :
    value ∈ statement.reads := by
  cases statement with
  | assign => cases member
  | jump => exact List.mem_append_right _ member

theorem mem_args_of_mem_passed {value : Value}
    (member : value ∈ statement.passed constant? entryAt?) : value ∈ statement.args := by
  unfold passed at member
  split at member
  · split at member
    · split at member
      · exact List.mem_of_mem_take member
      · cases member
    · cases member
  · exact member

/-- A variable whose constant is known is inlined away. -/
theorem inline_ne_var {id : Nat} {word : Word} (constant : constant? id = some word)
    (value : Value) : value.inline constant? ≠ .var id := by
  intro same
  cases value with
  | const | param => cases same
  | var other =>
      cases known : constant? other with
      | some word => simp [Value.inline, known] at same
      | none =>
          simp only [Value.inline, known, Value.var.injEq] at same
          rw [same, constant] at known
          cases known

/-- After inlining only the values that jumps pass have variables whose constants are known. -/
theorem mem_reads_inline_iff {id : Nat} {word : Word} (constant : constant? id = some word) :
    .var id ∈ (statement.inline constant?).reads ↔ .var id ∈ statement.args := by
  have gone := inline_ne_var constant
  cases statement with
  | assign => simp [inline, reads, args, gone]
  | jump offset callee condition args =>
      cases callee <;> cases condition <;>
        simp [inline, reads, Statement.args, Callee.inline, Callee.value?, Ne.symm (gone _)]

/-- After linking only the values that jumps still pass have such variables. -/
theorem mem_reads_link_inline_iff {id : Nat} {word : Word} (constant : constant? id = some word) :
    .var id ∈ ((statement.inline constant?).link entryAt?).reads ↔
      .var id ∈ statement.passed constant? entryAt? := by
  have inlines : _ ↔ .var id ∈ statement.args := mem_reads_inline_iff constant
  cases statement with
  | assign => exact inlines
  | jump offset callee condition args =>
      cases callee with
      | routine | fault => exact inlines
      | computed value =>
          have target := inline_ne_var constant value
          have decides : .var id ∉ (condition.map (Value.inline constant?)).toList := by
            rw [Option.mem_toList, Option.map_eq_some_iff]
            rintro ⟨read, _, same⟩
            exact inline_ne_var constant read same
          simp only [inline, Callee.inline, passed]
          cases inlined : value.inline constant? with
          | const word =>
              cases found : entryAt? word.toNat <;>
                simp [link, found, reads, Callee.value?, decides]
          | var other =>
              rw [inlined] at target
              simp [link, reads, Callee.value?, decides, Ne.symm target]
          | param => simp [link, reads, Callee.value?, decides]

/-- A statement that passes something is no push. -/
theorem isDead_inline_of_mem_args {value : Value} (member : value ∈ statement.args)
    (mentioned : Nat → Bool) : (statement.inline constant?).isDead mentioned = false := by
  cases statement with
  | assign => cases member
  | jump => rfl

end Statement

namespace Routine

variable {routine next : Routine} {id : Nat}

theorem mem_mentions_iff :
    id ∈ routine.mentions ↔
      (∃ statement ∈ routine.body, .var id ∈ statement.reads) ∨ .var id ∈ routine.returns := by
  rw [mentions, Value.mem_filterMap_id?, List.mem_append, List.mem_flatMap]

/-- A routine mentions only what it assigns. -/
theorem Scoped.mem_assigned (wellScoped : routine.Scoped) (mentioned : id ∈ routine.mentions) :
    id ∈ routine.assigned := by
  rcases mem_mentions_iff.mp mentioned with ⟨statement, placed, read⟩ | returned
  · rcases List.append_of_mem placed with ⟨front, back, equal⟩
    have inScope := wellScoped.body
    rw [equal] at inScope
    rcases inScope.exists_earlier read with known | ⟨earlier, listed, assigns⟩
    · cases known
    · apply List.mem_flatMap.mpr
      refine ⟨earlier, ?_, Statement.mem_assigned_iff.mpr assigns⟩
      rw [equal]
      exact List.mem_append_left _ listed
  · exact wellScoped.returns id returned

/-- The jump to the next routine mentions only what is returned. -/
theorem mem_mentions_continueTo :
    id ∈ (routine.continueTo next).mentions ↔ id ∈ routine.mentions := by
  rw [mem_mentions_iff, mem_mentions_iff, returns_continueTo]
  constructor
  · rintro (⟨statement, placed, read⟩ | returned)
    · rcases mem_body_continueTo placed with own | rfl
      · exact .inl ⟨statement, own, read⟩
      · exact .inr (mem_returns_of_mem_reads_jumpTo read)
    · exact .inr returned
  · rintro (⟨statement, placed, read⟩ | returned)
    · refine .inl ⟨statement, ?_, read⟩
      unfold continueTo
      split
      · exact List.mem_append_left _ placed
      · exact placed
    · exact .inr returned

theorem assign_mem_body_continueTo {offset : Nat} {targets : List Value} {op : Opcode}
    {operands : List Value} :
    .assign offset targets op operands ∈ (routine.continueTo next).body ↔
      .assign offset targets op operands ∈ routine.body := by
  unfold continueTo
  split
  · simp [jumpTo]
  · rfl

theorem mem_body_linked_iff {constant? : Nat → Option Word} {mentioned : Nat → Bool}
    {entryAt? : Nat → Option Entry} {statement : Statement} :
    statement ∈ ((routine.inlined constant? mentioned).linked entryAt?).body ↔
      ∃ original ∈ routine.body, (original.inline constant?).isDead mentioned = false ∧
        (original.inline constant?).link entryAt? = statement := by
  simp only [linked, inlined, inline, dropDead, List.mem_map, List.mem_filter,
    Bool.not_eq_true']
  constructor
  · rintro ⟨_, ⟨⟨original, placed, rfl⟩, alive⟩, equal⟩
    exact ⟨original, placed, alive, equal⟩
  · rintro ⟨original, placed, alive, equal⟩
    exact ⟨_, ⟨⟨original, placed, rfl⟩, alive⟩, equal⟩

/-- What is true of some chained routine is true of some routine, if continuing it does not
matter. -/
theorem exists_mem_chain_iff {motive : Routine → Prop}
    (continues : ∀ routine next, motive (routine.continueTo next) ↔ motive routine)
    (routines : List Routine) :
    (∃ routine ∈ chain routines, motive routine) ↔ ∃ routine ∈ routines, motive routine := by
  fun_induction chain routines with
  | case1 routine next rest ih =>
      rw [List.exists_mem_cons_iff, List.exists_mem_cons_iff, ih, continues]
  | case2 => rfl

end Routine

namespace Program

variable {program : Program} {id offset : Nat}

/-- Some routine reads or returns the variable. -/
def Mentions (program : Program) (id : Nat) : Prop :=
  ∃ routine ∈ program.routines, id ∈ routine.mentions

/-- The program has a push at the offset, and mentions nothing that the push assigns. -/
def IdleAt (program : Program) (offset : Nat) : Prop :=
  ∃ routine ∈ program.routines, ∃ targets op operands,
    .assign offset targets op operands ∈ routine.body ∧ op.isPush = true ∧
      ∀ id, .var id ∈ targets → ¬program.Mentions id

/-- The values that a jump of the program still passes when it is linked. -/
def passed (program : Program) : Statement → List Value :=
  Statement.passed (fun id => program.constants[id]?) program.entryAt?

/-- A variable that some jump of a routine finds on the stack, that no jump passes on, and that
is not on the stack any more when the routine ends. -/
structure Stranded (program : Program) (routine : Routine) (id : Nat) : Prop where
  held : ∃ jump ∈ routine.body, .var id ∈ jump.args
  kept : ∀ jump ∈ routine.body, .var id ∉ program.passed jump
  taken : .var id ∉ routine.returns

/-- The program has a push at the offset, whose variable is stranded. -/
def StrandsAt (program : Program) (offset : Nat) : Prop :=
  ∃ routine ∈ program.routines, ∃ id op word,
    .assign offset [.var id] op [.const word] ∈ routine.body ∧ op.isPush = true ∧
      program.Stranded routine id

/-- Only one routine of a well scoped program assigns a variable. -/
theorem Scoped.routine_eq (wellScoped : program.Scoped) {first second : Routine}
    (listedFirst : first ∈ program.routines) (listedSecond : second ∈ program.routines)
    (assignsFirst : id ∈ first.assigned) (assignsSecond : id ∈ second.assigned) :
    first = second := by
  by_contra different
  have symmetric : Std.Symm fun first second : Routine =>
      first.assigned.Disjoint second.assigned :=
    ⟨fun _ _ disjoint _ left right => disjoint right left⟩
  exact (List.nodup_flatMap.mp wellScoped.nodup).2.forall listedFirst listedSecond different
    assignsFirst assignsSecond

/-- Chaining neither adds pushes nor mentions other variables. -/
theorem idleAt_chain_iff (routines : List Routine) :
    IdleAt ⟨Routine.chain routines⟩ offset ↔ IdleAt ⟨routines⟩ offset := by
  have mentions : ∀ id, Mentions ⟨Routine.chain routines⟩ id ↔ Mentions ⟨routines⟩ id := by
    intro id
    exact Routine.exists_mem_chain_iff (fun _ _ => Routine.mem_mentions_continueTo) routines
  simp only [IdleAt, mentions]
  apply Routine.exists_mem_chain_iff
  intro routine next
  simp only [Routine.assign_mem_body_continueTo]

section Renaming

variable {numbering : Numbering} {routines : List Routine}

/-- The variables among numbered values are the numbers of variables. -/
theorem var_mem_map_number_iff {values : List Value} {number : Nat} :
    .var number ∈ values.map numbering.number ↔
      ∃ id, .var id ∈ values ∧ numbering.number (.var id) = .var number := by
  rw [List.mem_map]
  constructor
  · rintro ⟨value, member, equal⟩
    cases value with
    | const | param => cases equal
    | var id => exact ⟨id, member, equal⟩
  · rintro ⟨id, member, equal⟩
    exact ⟨_, member, equal⟩

theorem mentions_rename_iff {number : Nat} :
    Mentions ⟨routines.map (Routine.rename numbering.number)⟩ number ↔
      ∃ id, Mentions ⟨routines⟩ id ∧ numbering.number (.var id) = .var number := by
  have renamed : ∀ routine : Routine,
      number ∈ (routine.rename numbering.number).mentions ↔
        ∃ id ∈ routine.mentions, numbering.number (.var id) = .var number := by
    intro routine
    have values : (routine.rename numbering.number).body.flatMap Statement.reads ++
        (routine.rename numbering.number).returns =
          (routine.body.flatMap Statement.reads ++ routine.returns).map numbering.number := by
      simp only [Routine.rename, List.map_append, List.flatMap_map, List.map_flatMap,
        Statement.reads_rename]
    rw [Routine.mentions, values, Value.mem_filterMap_id?, var_mem_map_number_iff]
    simp only [Routine.mentions, Value.mem_filterMap_id?]
  constructor
  · rintro ⟨routine, member, mentioned⟩
    rcases List.mem_map.mp member with ⟨original, listed, rfl⟩
    rcases (renamed original).mp mentioned with ⟨id, own, equal⟩
    exact ⟨id, ⟨original, listed, own⟩, equal⟩
  · rintro ⟨id, ⟨original, listed, own⟩, equal⟩
    exact ⟨_, List.mem_map_of_mem listed, (renamed original).mpr ⟨id, own, equal⟩⟩

/-- Numbers that keep the variables of a program apart leave its pushes as idle as they are. -/
theorem idleAt_rename_iff (wellScoped : ∀ routine ∈ routines, routine.Scoped)
    (apart : ∀ first ∈ targets ⟨routines⟩, ∀ second ∈ targets ⟨routines⟩,
      numbering.number first = numbering.number second → first = second) :
    IdleAt ⟨routines.map (Routine.rename numbering.number)⟩ offset ↔
      IdleAt ⟨routines⟩ offset := by
  constructor
  · rintro ⟨routine, member, targets, op, operands, placed, push, unused⟩
    rcases List.mem_map.mp member with ⟨original, listed, rfl⟩
    rcases List.mem_map.mp placed with ⟨statement, found, equal⟩
    cases statement with
    | jump => cases equal
    | assign offset targets op operands =>
        cases equal
        refine ⟨original, listed, targets, op, operands, found, push, ?_⟩
        intro id assigned mentioned
        exact unused _ (List.mem_map_of_mem assigned) (mentions_rename_iff.mpr ⟨id, mentioned, rfl⟩)
  · rintro ⟨routine, listed, targets, op, operands, placed, push, unused⟩
    refine ⟨_, List.mem_map_of_mem listed, _, op, _, List.mem_map_of_mem placed, push, ?_⟩
    intro number member mentioned
    rcases var_mem_map_number_iff.mp member with ⟨id, assigned, equal⟩
    rcases mentions_rename_iff.mp mentioned with ⟨other, ⟨user, listedUser, own⟩, equalOther⟩
    have target : .var id ∈ Program.targets ⟨routines⟩ :=
      List.mem_flatMap.mpr ⟨routine, listed, List.mem_flatMap.mpr ⟨_, placed, assigned⟩⟩
    have targetOther : .var other ∈ Program.targets ⟨routines⟩ := by
      rcases List.mem_flatMap.mp ((wellScoped user listedUser).mem_assigned own) with
        ⟨statement, found, assigns⟩
      exact List.mem_flatMap.mpr ⟨user, listedUser,
        List.mem_flatMap.mpr ⟨statement, found, Statement.mem_assigned_iff.mp assigns⟩⟩
    cases apart _ target _ targetOther (equal.trans equalOther.symm)
    exact unused id assigned ⟨user, listedUser, own⟩

end Renaming

section Linking

variable {word : Word}

/-- When pushes are dropped, a pushed variable is mentioned by the jumps that hold it, and where
it is returned. -/
theorem contains_mentions_replaceConstants (constant : program.constants[id]? = some word) :
    program.replaceConstants.mentions.contains id = true ↔
      ∃ routine ∈ program.routines,
        (∃ jump ∈ routine.body, .var id ∈ jump.args) ∨ .var id ∈ routine.returns := by
  have reads : ∀ statement : Statement,
      .var id ∈ (statement.inline fun id => program.constants[id]?).reads ↔
        .var id ∈ statement.args :=
    fun _ => Statement.mem_reads_inline_iff constant
  simp only [contains_mentions, replaceConstants, Routine.mem_mentions_iff, Routine.inline,
    List.mem_map, exists_exists_and_eq_and, reads]

theorem routines_linkJumps_inlineConstants (program : Program) :
    program.inlineConstants.linkJumps.routines =
      program.routines.map fun routine =>
        (routine.inlined (fun id => program.constants[id]?)
          program.replaceConstants.mentions.contains).linked program.entryAt? := by
  rw [routines_linkJumps, routines_inlineConstants, entryAt?_inlineConstants, List.map_map]
  rfl

/-- When jumps are linked, a pushed variable is mentioned only by the jumps that still pass it,
and where it is returned. -/
theorem mentions_linkJumps_iff (constant : program.constants[id]? = some word) :
    program.inlineConstants.linkJumps.Mentions id ↔
      ∃ routine ∈ program.routines,
        (∃ jump ∈ routine.body, .var id ∈ program.passed jump) ∨ .var id ∈ routine.returns := by
  have reads : ∀ statement : Statement,
      .var id ∈ ((statement.inline fun id => program.constants[id]?).link program.entryAt?).reads ↔
        .var id ∈ program.passed statement :=
    fun _ => Statement.mem_reads_link_inline_iff constant
  rw [Mentions, routines_linkJumps_inlineConstants]
  simp only [List.mem_map, exists_exists_and_eq_and, Routine.mem_mentions_iff,
    Routine.mem_body_linked_iff]
  apply exists_congr
  intro routine
  apply and_congr_right
  intro listed
  apply or_congr_left
  constructor
  · rintro ⟨_, ⟨jump, placed, alive, rfl⟩, read⟩
    exact ⟨jump, placed, (reads jump).mp read⟩
  · rintro ⟨jump, placed, passes⟩
    have held := Statement.mem_args_of_mem_passed passes
    exact ⟨_, ⟨jump, placed, Statement.isDead_inline_of_mem_args held _, rfl⟩,
      (reads jump).mpr passes⟩

/-- What is linked to a push was that push before. -/
theorem exists_eq_push_of_link {original : Statement} {targets : List Value} {op : Opcode}
    {operands : List Value} {constant? : Nat → Option Word} {entryAt? : Nat → Option Entry}
    (proper : original.Proper) (push : op.isPush = true)
    (equal : (original.inline constant?).link entryAt? = .assign offset targets op operands) :
    ∃ id word, targets = [.var id] ∧ original = .assign offset [.var id] op [.const word] := by
  have sameOp := ((Statement.becomes_inline constant? original).trans
    (Statement.becomes_link entryAt? _)).op
  rw [equal] at sameOp
  cases original with
  | jump => cases sameOp
  | assign =>
      cases equal
      rcases proper.push push with ⟨id, word, rfl, rfl⟩
      exact ⟨id, word, rfl, rfl⟩

/-- A push assigns its variable and makes the constant of the variable known. -/
theorem Scoped.constant_of_push (wellScoped : program.Scoped) {routine : Routine}
    (listed : routine ∈ program.routines) {op : Opcode} (push : op.isPush = true)
    (placed : .assign offset [.var id] op [.const word] ∈ routine.body) :
    id ∈ routine.assigned ∧ program.constants[id]? = some word := by
  constructor
  · exact List.mem_flatMap.mpr ⟨_, placed, Statement.mem_assigned.mpr List.mem_cons_self⟩
  · apply wellScoped.apart.constants_eq_some_iff.mpr
    exact ⟨_, List.mem_flatMap.mpr ⟨routine, listed, placed⟩, if_pos push⟩

/-- A routine that mentions a variable is the one that assigns it. -/
theorem Scoped.eq_of_mem_mentions (wellScoped : program.Scoped) {routine user : Routine}
    (listed : routine ∈ program.routines) (listedUser : user ∈ program.routines)
    (assigned : id ∈ routine.assigned)
    (mentioned : (∃ jump ∈ user.body, .var id ∈ jump.args) ∨ .var id ∈ user.returns) :
    user = routine := by
  apply wellScoped.routine_eq listedUser listed _ assigned
  apply (wellScoped.routines user listedUser).mem_assigned
  apply Routine.mem_mentions_iff.mpr
  apply mentioned.imp_left
  rintro ⟨jump, placed, passes⟩
  exact ⟨jump, placed, Statement.mem_reads_of_mem_args passes⟩

/-- Linking leaves exactly those pushes idle whose variables it strands. -/
theorem Scoped.idleAt_linkJumps_iff (wellScoped : program.Scoped) :
    program.inlineConstants.linkJumps.IdleAt offset ↔ program.StrandsAt offset := by
  rw [IdleAt, routines_linkJumps_inlineConstants]
  constructor
  · rintro ⟨_, member, targets, op, operands, placed, push, unused⟩
    rcases List.mem_map.mp member with ⟨routine, listed, rfl⟩
    rcases Routine.mem_body_linked_iff.mp placed with ⟨original, found, alive, equal⟩
    have proper := (wellScoped.routines routine listed).proper original found
    rcases exists_eq_push_of_link proper push equal with ⟨id, word, rfl, rfl⟩
    rcases wellScoped.constant_of_push listed push found with ⟨assigned, constant⟩
    have unmentioned := unused id List.mem_cons_self
    rw [mentions_linkJumps_iff constant] at unmentioned
    -- The push is still there, so something held its variable when pushes were dropped.
    have mentioned : program.replaceConstants.mentions.contains id = true := by
      simpa [Statement.inline, Value.inline, Statement.isDead, Statement.definition?, push]
        using alive
    rcases (contains_mentions_replaceConstants constant).mp mentioned with
      ⟨holder, listedHolder, held | returned⟩
    · cases wellScoped.eq_of_mem_mentions listed listedHolder assigned (.inl held)
      refine ⟨routine, listed, id, op, word, found, push, held, ?_, ?_⟩
      · intro jump inside passes
        exact unmentioned ⟨routine, listed, .inl ⟨jump, inside, passes⟩⟩
      · intro returned
        exact unmentioned ⟨routine, listed, .inr returned⟩
    · exact absurd ⟨holder, listedHolder, .inr returned⟩ unmentioned
  · rintro ⟨routine, listed, id, op, word, found, push, stranded⟩
    rcases wellScoped.constant_of_push listed push found with ⟨assigned, constant⟩
    have mentioned := (contains_mentions_replaceConstants constant).mpr
      ⟨routine, listed, .inl stranded.held⟩
    refine ⟨_, List.mem_map_of_mem listed, [.var id], op, [.const word], ?_, push, ?_⟩
    · apply Routine.mem_body_linked_iff.mpr
      refine ⟨_, found, ?_, rfl⟩
      simpa [Statement.inline, Value.inline, Statement.isDead, Statement.definition?, push]
        using mentioned
    · intro other member
      cases List.mem_singleton.mp member
      rw [mentions_linkJumps_iff constant]
      rintro ⟨user, listedUser, ⟨jump, inside, passes⟩ | returned⟩
      · have held := Statement.mem_args_of_mem_passed passes
        cases wellScoped.eq_of_mem_mentions listed listedUser assigned (.inl ⟨jump, inside, held⟩)
        exact stranded.kept jump inside passes
      · cases wellScoped.eq_of_mem_mentions listed listedUser assigned (.inr returned)
        exact stranded.taken returned

end Linking

end Program

/-- The pushes of decompiled code that nothing reads or returns are exactly those whose variables
are stranded in the blocks that they come from. -/
theorem idleAt_iff_strandsAt (options : Options) (code : Bytecode) :
    ∃ lifted linked,
      Program.ofBlocks (Block.split (options.instructions code)) = .ok lifted ∧
      decompileBlocks (Block.split (options.instructions code)) = .ok linked ∧
      ∀ offset, linked.program.IdleAt offset ↔ lifted.StrandsAt offset := by
  have standard := Block.forall_mem_split (options.standard_instructions code)
  have bare := Block.forall_mem_split (options.shufflesBare_instructions code)
  have wellScoped := Block.scoped_routines standard
  have formed := Block.formed_of_mem_routines standard bare
  refine ⟨_, _, Block.ofBlocks_eq standard,
    Block.decompileBlocks_eq standard wellScoped.link_eq, ?_⟩
  intro offset
  rcases wellScoped.exists_numbered_eq_rename formed with ⟨numbering, renamed, apart⟩
  rw [Program.idleAt_chain_iff, renamed,
    Program.idleAt_rename_iff wellScoped.linkJumps apart]
  exact wellScoped.idleAt_linkJumps_iff

/-- Not every push of a decompiled program is used: the first constant of this code is on the
stack when a jump faults, and is taken off right after it. -/
theorem not_forall_pushes_used :
    ¬∀ (options : Options) (code : Bytecode) (linked : Linked),
      decompileBlocks (Block.split (options.instructions code)) = .ok linked →
        ∀ offset, ¬linked.program.IdleAt offset := by
  intro used
  have decompiles : decompileBlocks (Block.split (Options.instructions {}
      [0x60, 7, 0x60, 0xff, 0x60, 0xff, 0x57, 0x50, 0x00])) =
        .ok ⟨⟨[⟨"main", 0, 0,
          [.assign 0 [.var 1] (.push 1) [.const 7], .jump (some 6) .fault (some (.const 0xff)) [],
            .assign 7 [] (.ofByte 0x50) [.const 7], .assign 8 [] (.ofByte 0x00) []],
          []⟩]⟩, []⟩ := by
    decide +kernel
  apply used _ _ _ decompiles 0
  refine ⟨_, List.mem_cons_self, _, _, _, List.mem_cons_self, rfl, ?_⟩
  intro id assigned
  cases List.mem_singleton.mp assigned
  rintro ⟨routine, member, mentioned⟩
  cases List.mem_singleton.mp member
  revert mentioned
  decide

end EvmLift
