import EvmLift.Proofs.Destinations
import EvmLift.Proofs.Linking.Resolution

/-!
# Control flow of decompiled programs

The routines of a decompiled program have different names, and jumps between them go by these
names. A jump to a known offset enters the routine that starts there, and faults without one.
Every routine but the last ends where control leaves it, if need be by an added jump to the
next one, and only added jumps have no offset.
-/

namespace EvmLift

namespace Routine

/-- The statement at the given place makes explicit that a routine goes on with the next one:
it is the last statement, and the one before it does not end the routine. -/
structure FallsTo (routine next : Routine) (place : Nat) (statement : Statement) : Prop where
  last : place + 1 = routine.body.length
  jump : statement = routine.jumpTo next
  reached : ∀ earlier, routine.body.dropLast.getLast? = some earlier → earlier.endsBlock = false

theorem exists_of_getElem?_chain {routines : List Routine} {index : Nat} {after : Routine}
    (listed : (chain routines)[index]? = some after) :
    ∃ routine, routines[index]? = some routine ∧
      after = routine.chained routines[index + 1]? := by
  have size := congrArg List.length (map_signature_chain routines)
  rw [List.length_map, List.length_map] at size
  rcases List.getElem?_eq_some_iff.mp listed with ⟨inside, _⟩
  rw [size] at inside
  have own := List.getElem?_eq_getElem inside
  exact ⟨_, own, Option.some.inj (listed.symm.trans (getElem?_chain own))⟩

theorem getElem?_body_chained {routine : Routine} {place : Nat} {statement : Statement}
    (placed : routine.body[place]? = some statement) (next? : Option Routine) :
    (routine.chained next?).body[place]? = some statement := by
  rw [body_chained, List.getElem?_append_left (List.getElem?_eq_some_iff.mp placed).1]
  exact placed

theorem jumpTo_chained (routine next : Routine) (next? after? : Option Routine) :
    (routine.chained next?).jumpTo (next.chained after?) = routine.jumpTo next := by
  have returns : (routine.chained next?).returns = routine.returns := by
    cases next? with
    | none => rfl
    | some => exact returns_continueTo
  rw [jumpTo, jumpTo, name_chained, arity_chained, returns]

theorem mem_onward {routine : Routine} {next? : Option Routine} {statement : Statement}
    (member : statement ∈ routine.onward next?) :
    ∃ next, next? = some next ∧ statement = routine.jumpTo next := by
  cases next? with
  | none => cases member
  | some next =>
      rw [onward, List.mem_ite_nil_right] at member
      exact ⟨next, rfl, List.mem_singleton.mp member.2⟩

/-- A statement that chaining adds is the last one, and control reaches it. -/
theorem fallsTo_chained {routine next : Routine} {place : Nat} {statement : Statement}
    (placed : (routine.onward (some next))[place]? = some statement) (after? : Option Routine) :
    (routine.chained (some next)).FallsTo (next.chained after?) (routine.body.length + place)
      statement := by
  cases falls : routine.fallsThrough with
  | false => simp [onward, falls] at placed
  | true =>
      have body : (routine.chained (some next)).body = routine.body ++ [routine.jumpTo next] := by
        rw [body_chained]
        simp [onward, falls]
      simp only [onward, falls, if_true] at placed
      rcases List.getElem?_eq_some_iff.mp placed with ⟨inside, equal⟩
      have first : place = 0 := by simpa using inside
      subst first
      constructor
      · simp [body]
      · rw [jumpTo_chained]
        exact equal.symm
      · rw [body, List.dropLast_concat]
        intro earlier found
        simpa [fallsThrough, found] using falls

end Routine

namespace Program

variable {program final : Program}

/-- A jump to an offset enters the routine that starts there. Without one it faults, and passes
nothing. -/
structure Leads (program : Program) (offset : Nat) (callee : Callee) (args : List Value) :
    Prop where
  enters : ∀ routine ∈ program.routines,
    (callee = .routine routine.name ↔ routine.offset = offset)
  faults : callee = .fault ↔ ∀ routine ∈ program.routines, routine.offset ≠ offset
  passes : callee = .fault → args = []

theorem Leads.map {offset : Nat} {callee : Callee} {args : List Value}
    (leads : program.Leads offset callee args) (change : Value → Value) :
    program.Leads offset callee (args.map change) where
  enters := leads.enters
  faults := leads.faults
  passes := fun fault => List.map_eq_nil_iff.mpr (leads.passes fault)

/-- Linking a jump to a known offset settles where it leads, in every program that has the
signatures by which it is linked. -/
theorem exists_leads_link (names : (final.routines.map Routine.name).Nodup)
    (offsets : (final.routines.map Routine.offset).Nodup)
    (entries : ∀ offset entry, program.entryAt? offset = some entry ↔
      (offset, entry) ∈ final.routines.map Routine.signature)
    (offset : Option Nat) (word : Word) (condition : Option Value) (args : List Value) :
    ∃ callee passed,
      Statement.link program.entryAt? (.jump offset (.computed (.const word)) condition args) =
        .jump offset callee condition passed ∧
      final.Leads word.toNat callee passed ∧ callee.value? = none := by
  cases found : program.entryAt? word.toNat with
  | none =>
      have missing : ∀ routine ∈ final.routines, routine.offset ≠ word.toNat := by
        intro routine member same
        have entry := (entries routine.offset routine.entry).mpr (List.mem_map_of_mem member)
        rw [same, found] at entry
        cases entry
      refine ⟨.fault, [], by simp only [Statement.link, found], ?_, rfl⟩
      constructor
      · intro routine member
        constructor
        · intro equal
          cases equal
        · intro same
          exact absurd same (missing routine member)
      · exact ⟨fun _ => missing, fun _ => rfl⟩
      · exact fun _ => rfl
  | some entry =>
      rcases List.mem_map.mp ((entries _ _).mp found) with ⟨target, listed, signature⟩
      rcases Prod.mk.inj signature with ⟨starts, rfl⟩
      refine ⟨.routine target.name, args.take target.arity, ?_, ?_, rfl⟩
      · simp only [Statement.link, found]
        rfl
      · constructor
        · intro routine member
          constructor
          · intro same
            have equal := List.inj_on_of_nodup_map names listed member (Callee.routine.inj same)
            rw [← equal]
            exact starts
          · intro same
            have equal := List.inj_on_of_nodup_map offsets listed member (starts.trans same.symm)
            rw [equal]
        · constructor
          · intro equal
            cases equal
          · intro missing
            exact absurd starts (missing target listed)
        · intro equal
          cases equal

/-- A statement stays where it is once constants are inlined. -/
theorem exists_getElem?_chain_numbered {index place : Nat} {before : Routine}
    {statement : Statement} (listed : program.inlineConstants.routines[index]? = some before)
    (placed : before.body[place]? = some statement) :
    ∃ after own, (Routine.chain program.numbered)[index]? = some after ∧
      after.body[place]? =
        some (Numbering.numberStatement own (statement.link program.entryAt?)) := by
  have linked : program.inlineConstants.linkJumps.routines[index]? =
      some (before.linked program.entryAt?) := by
    rw [routines_linkJumps, List.getElem?_map, listed, entryAt?_inlineConstants]
    rfl
  have linkedBody : (before.linked program.entryAt?).body[place]? =
      some (statement.link program.entryAt?) := by
    rw [Routine.linked, List.getElem?_map, placed]
    rfl
  rcases Numbering.exists_getElem?_numberRoutines {} linked with ⟨own, numbered⟩
  rcases Numbering.exists_getElem?_numberBody own linkedBody with ⟨current, inside⟩
  exact ⟨_, current, Routine.getElem?_chain numbered, Routine.getElem?_body_chained inside _⟩

/-- The linked program. -/
abbrev chained (program : Program) : Program :=
  ⟨Routine.chain program.numbered⟩

/-- A program as lifting leaves it: its routines differ in name and offset, and none of their
statements is linked. -/
structure Lifted (program : Program) : Prop where
  names : (program.routines.map Routine.name).Nodup
  offsets : (program.routines.map Routine.offset).Nodup
  unlinked : ∀ routine ∈ program.routines, ∀ statement ∈ routine.body, statement.Unlinked

namespace Lifted

theorem names_chained (lifted : program.Lifted) :
    (program.chained.routines.map Routine.name).Nodup := by
  have names := congrArg (List.map fun signature : Nat × Entry => signature.2.name)
    program.map_signature_chain_numbered
  rw [List.map_map, List.map_map] at names
  exact names.symm ▸ lifted.names

theorem offsets_chained (lifted : program.Lifted) :
    (program.chained.routines.map Routine.offset).Nodup := by
  rw [map_offset_chain_numbered]
  exact lifted.offsets

/-- Jumps are linked by the signatures of the linked routines. -/
theorem entryAt?_eq_some_iff (lifted : program.Lifted) (offset : Nat) (entry : Entry) :
    program.entryAt? offset = some entry ↔
      (offset, entry) ∈ program.chained.routines.map Routine.signature := by
  rw [map_signature_chain_numbered]
  exact Program.entryAt?_eq_some_iff lifted.offsets

theorem arityOf?_of_entryAt? (lifted : program.Lifted) (offset : Nat) (entry : Entry)
    (found : program.entryAt? offset = some entry) :
    program.chained.arityOf? entry.name = some entry.arity :=
  arityOf?_of_mem_signatures lifted.names_chained ((lifted.entryAt?_eq_some_iff _ _).mp found)

theorem arityOf?_of_mem_numbered (lifted : program.Lifted) :
    ∀ routine ∈ program.numbered,
      program.chained.arityOf? routine.name = some routine.arity := by
  intro routine member
  have listed : routine.signature ∈ program.chained.routines.map Routine.signature := by
    rw [Routine.map_signature_chain]
    exact List.mem_map_of_mem member
  exact arityOf?_of_mem_signatures lifted.names_chained listed

theorem unlinked_inlineConstants (lifted : program.Lifted) :
    ∀ routine ∈ program.inlineConstants.routines, ∀ statement ∈ routine.body,
      statement.Unlinked := by
  intro routine member statement placed
  rw [routines_inlineConstants] at member
  rcases List.mem_map.mp member with ⟨original, listed, rfl⟩
  rcases List.mem_map.mp (List.mem_filter.mp placed).1 with ⟨earlier, own, rfl⟩
  exact (lifted.unlinked original listed earlier own).inline _

theorem offset_of_mem_numbered (lifted : program.Lifted) :
    ∀ routine ∈ program.numbered, ∀ statement ∈ routine.body,
      statement.offset?.isSome = true := by
  intro routine member statement placed
  rcases exists_becomes_of_mem_numbered routine member with ⟨original, listed, becomes⟩
  rcases becomes.body statement placed with ⟨earlier, own, changes⟩
  rw [changes.offset]
  exact (lifted.unlinked original listed earlier own).offset

theorem resolved_of_mem_numbered (lifted : program.Lifted) :
    ∀ routine ∈ program.numbered, ∀ statement ∈ routine.body,
      statement.Resolved program.chained.arityOf? := by
  intro routine member statement placed
  rcases Numbering.exists_of_mem_numberRoutines member with ⟨own, linked, listed, rfl⟩
  rcases Numbering.exists_of_mem_numberBody placed with ⟨current, earlier, inside, rfl⟩
  rw [routines_linkJumps, entryAt?_inlineConstants] at listed
  rcases List.mem_map.mp listed with ⟨inlined, listedBefore, rfl⟩
  rcases List.mem_map.mp inside with ⟨original, placedBefore, rfl⟩
  have unlinked := lifted.unlinked_inlineConstants inlined listedBefore original placedBefore
  apply current.resolved_numberStatement
  exact (Statement.resolved_link lifted.arityOf?_of_entryAt? unlinked).1

/-- Every statement of the linked program is resolved. -/
theorem resolved_of_mem_chained (lifted : program.Lifted) :
    ∀ routine ∈ program.chained.routines, ∀ statement ∈ routine.body,
      statement.Resolved program.chained.arityOf? := by
  intro routine member statement placed
  rcases List.mem_iff_getElem?.mp member with ⟨index, listed⟩
  rcases Routine.exists_of_getElem?_chain listed with ⟨numbered, own, rfl⟩
  rw [Routine.body_chained] at placed
  rcases List.mem_append.mp placed with inside | added
  · exact lifted.resolved_of_mem_numbered numbered (List.mem_of_getElem? own) statement inside
  · rcases Routine.mem_onward added with ⟨next, follows, rfl⟩
    apply Routine.resolved_jumpTo
    exact lifted.arityOf?_of_mem_numbered next (List.mem_of_getElem? follows)

/-- There is one warning for each jump that passes too little. -/
theorem length_warnings (lifted : program.Lifted) :
    (program.inlineConstants.jumpWarnings ++ Routine.chainWarnings program.numbered).length =
      (program.chained.routines.flatMap Routine.body).countP
        (Statement.passesFew program.chained.arityOf?) := by
  have entered := lifted.arityOf?_of_entryAt?
  rw [← entryAt?_inlineConstants] at entered
  rw [List.length_append, length_jumpWarnings entered lifted.unlinked_inlineConstants,
    Routine.countP_passesFew_chain lifted.arityOf?_of_mem_numbered, numbered,
    Numbering.countP_passesFew_numberRoutines]

/-- Just the statements that chaining adds have no offset. -/
theorem offset?_eq_none_iff (lifted : program.Lifted) {index place : Nat} {routine : Routine}
    {statement : Statement} (listed : program.chained.routines[index]? = some routine)
    (placed : routine.body[place]? = some statement) :
    statement.offset? = none ↔
      ∃ next, program.chained.routines[index + 1]? = some next ∧
        routine.FallsTo next place statement := by
  rcases Routine.exists_of_getElem?_chain listed with ⟨numbered, own, rfl⟩
  constructor
  · intro unplaced
    rw [Routine.body_chained] at placed
    -- The numbered statements have offsets, so this one stands beyond them.
    by_cases inside : place < numbered.body.length
    · rw [List.getElem?_append_left inside] at placed
      have offset := lifted.offset_of_mem_numbered numbered (List.mem_of_getElem? own) statement
        (List.mem_of_getElem? placed)
      rw [unplaced] at offset
      cases offset
    · have beyond := Nat.le_of_not_lt inside
      rw [List.getElem?_append_right beyond] at placed
      rcases Routine.mem_onward (List.mem_of_getElem? placed) with ⟨next, follows, _⟩
      rw [follows] at placed ⊢
      refine ⟨_, Routine.getElem?_chain follows, ?_⟩
      have falls := Routine.fallsTo_chained placed program.numbered[index + 1 + 1]?
      rwa [Nat.add_sub_cancel' beyond] at falls
  · rintro ⟨next, _, falls⟩
    rw [falls.jump]
    rfl

end Lifted

end Program

/-- How control flows in a linked program, and what becomes of the jumps of the program whose
constants are inlined. -/
structure Linked.SoundFlow (linked : Linked) (inlined : Program) : Prop where
  names : (linked.program.routines.map Routine.name).Nodup
  named : ∀ routine ∈ linked.program.routines,
    linked.program.named? routine.name = some routine
  /-- A jump to a known offset leads to the routine that starts there. -/
  constants : ∀ (index place : Nat) (before : Routine) (offset : Option Nat) (word : Word)
    (condition : Option Value) (args : List Value),
    inlined.routines[index]? = some before →
    before.body[place]? = some (.jump offset (.computed (.const word)) condition args) →
    ∃ (after : Routine) (callee : Callee) (condition' : Option Value) (args' : List Value),
      linked.program.routines[index]? = some after ∧
      after.body[place]? = some (.jump offset callee condition' args') ∧
      linked.program.Leads word.toNat callee args'
  resolved : ∀ routine ∈ linked.program.routines, ∀ statement ∈ routine.body,
    statement.Resolved linked.program.arityOf?
  /-- There is one warning for each jump that passes too little. -/
  warnings : linked.warnings.length =
    (linked.program.routines.flatMap Routine.body).countP
      (Statement.passesFew linked.program.arityOf?)
  ends : ∀ (index : Nat) (routine next : Routine),
    linked.program.routines[index]? = some routine →
    linked.program.routines[index + 1]? = some next →
    ∃ last, routine.body.getLast? = some last ∧ last.endsBlock = true
  /-- Just the statements that go on with the next routine have no offset. -/
  unplaced : ∀ (index place : Nat) (routine : Routine) (statement : Statement),
    linked.program.routines[index]? = some routine → routine.body[place]? = some statement →
    (statement.offset? = none ↔
      ∃ next, linked.program.routines[index + 1]? = some next ∧
        routine.FallsTo next place statement)

/-- Linking a lifted program makes its control flow sound. -/
theorem Program.Lifted.soundFlow {program : Program} (lifted : program.Lifted) :
    Linked.SoundFlow ⟨program.chained,
      program.inlineConstants.jumpWarnings ++ Routine.chainWarnings program.numbered⟩
      program.inlineConstants where
  names := lifted.names_chained
  named := by
    intro routine member
    exact (named?_eq_some_iff lifted.names_chained).mpr ⟨member, rfl⟩
  constants := by
    intro index place before offset word condition args listed placed
    rcases exists_getElem?_chain_numbered listed placed with ⟨after, own, listedAfter, changed⟩
    rcases exists_leads_link lifted.names_chained lifted.offsets_chained
      lifted.entryAt?_eq_some_iff offset word condition args with
      ⟨callee, passed, links, leads, known⟩
    rw [links] at changed
    -- A jump that goes by no value keeps its callee as variables are numbered.
    have same : own.numberCallee callee = callee := by
      cases callee with
      | routine | fault => rfl
      | computed => cases known
    rw [Numbering.numberStatement, same] at changed
    exact ⟨after, callee, _, _, listedAfter, changed, leads.map _⟩
  resolved := lifted.resolved_of_mem_chained
  warnings := lifted.length_warnings
  ends := by
    intro index routine next listed follows
    rcases Routine.exists_of_getElem?_chain listed with ⟨numbered, own, rfl⟩
    rcases Routine.exists_of_getElem?_chain follows with ⟨numberedNext, ownNext, _⟩
    rw [ownNext]
    exact Routine.exists_last_continueTo numbered numberedNext
  unplaced := by
    intro index place routine statement listed placed
    exact lifted.offset?_eq_none_iff listed placed

theorem Block.lifted_routines {blocks : List Block}
    (standard : ∀ block ∈ blocks, ∀ instruction ∈ block.instructions, instruction.Standard)
    (ordered : (blocks.map Block.offset).Pairwise (· < ·)) :
    (Program.mk (routines {} blocks)).Lifted where
  names := by
    rw [map_name_routines]
    exact List.Nodup.map (fun _ _ => Supply.routineName_injective) List.nodup_range'
  offsets := by
    rw [map_offset_routines]
    exact ordered.imp Nat.ne_of_lt
  unlinked := unlinked_of_mem_routines standard

/-- All code decompiles to a program in which control flows soundly. -/
theorem soundFlow_of_code (options : Options) (code : Bytecode) :
    ∃ lifted linked,
      Program.ofBlocks (Block.split (options.instructions code)) = .ok lifted ∧
      decompileBlocks (Block.split (options.instructions code)) = .ok linked ∧
      linked.SoundFlow lifted.inlineConstants := by
  have standard := Block.forall_mem_split (options.standard_instructions code)
  have ordered := code.pairwise_entryOffsets
  rw [← Block.map_offset_split options code] at ordered
  refine ⟨_, _, Block.ofBlocks_eq standard,
    Block.decompileBlocks_eq standard (Block.scoped_routines standard).link_eq, ?_⟩
  exact (Block.lifted_routines standard ordered).soundFlow

-- The jump goes 2 ^ 64 bytes beyond the jump destination at offset 11.
example :
    (decompileBlocks (Block.split
      (Bytecode.decode [0x68, 1, 0, 0, 0, 0, 0, 0, 0, 11, 0x56, 0x5b]))).toOption.map
        (fun linked => linked.program.routines.map Routine.body) =
      some [[.jump (some 10) .fault none []], []] := by
  decide +kernel

end EvmLift
