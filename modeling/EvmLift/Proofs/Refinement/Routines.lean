import EvmLift.Proofs.Lifting.Meaning
import EvmLift.Proofs.Lifting.Scope
import EvmLift.Proofs.Machine.Basic
import EvmLift.Proofs.Refinement.Entries

/-!
# Routines that implement blocks

What the machines need to know of a linked program, without the passes that led to it: each
block has a routine that shows what the block shows, with its jumps resolved, and the entries
that jumps are resolved with are those of the blocks.
-/

namespace EvmLift

/-- The elements at one place of related lists are related. -/
theorem exists_getElem?_of_forall₂ {α β : Type} {related : α → β → Prop} {left : List α}
    {right : List β} (relates : List.Forall₂ related left right) {index : Nat} {element : α}
    (listed : left[index]? = some element) :
    ∃ other, right[index]? = some other ∧ related element other := by
  induction relates generalizing index with
  | nil => cases listed
  | cons first _ ih =>
      cases index with
      | zero =>
          cases listed
          exact ⟨_, rfl, first⟩
      | succ index => exact ih listed

namespace Block

/-- A routine does what a block does, and resolves its jumps. -/
structure Implements (program : Program) (index : Nat) (block : Block)
    (routine : Routine) : Prop where
  name : routine.name = Supply.routineName index
  arity : ∀ interpretation args,
    routine.arity = (Live.run interpretation args {} block.instructions).params
  proper : ∀ statement ∈ routine.body, statement.Proper
  meaning : ∀ (oracle : Oracle) (past : List Event) (args : Nat → Word)
    (params : Nat → Option Word),
    (∀ index < routine.arity, params index = some (args index)) →
      ∃ seen, routine.meaning? (oracle.after past) params =
          some (seen, (Live.run (oracle.after past) args {} block.instructions).items) ∧
        List.Forall₂ (Observation.Resolves program)
          (Live.run (oracle.after past) args {} block.instructions).seen seen

theorem implements_of_links {program : Program} {block : Block} {supply : Supply}
    {routine : Routine} (standard : ∀ instruction ∈ block.instructions, instruction.Standard)
    (links : Routine.Links program (block.routine supply) routine) :
    Implements program supply.nextRoutine block routine where
  name := links.name
  arity := fun interpretation args =>
    links.arity.trans (arity_routine interpretation args block supply standard)
  proper := links.proper
  meaning := by
    intro oracle past args params supplied
    rw [links.arity] at supplied
    exact links.meaning _ (oracle.ignoresJumps_after past) params _ _
      (meaning?_routine _ standard supplied)

/-- The entries of lifted blocks are those of their routines. -/
theorem entries_eq_some_iff {blocks : List Block}
    (ordered : (blocks.map Block.offset).Pairwise (· < ·)) {offset : Nat} {entry : Entry} :
    (Program.mk (routines {} blocks)).entryAt? offset = some entry ↔
      ∃ routine ∈ routines {} blocks, routine.offset = offset ∧ routine.entry = entry := by
  have distinct : ((routines {} blocks).map Routine.offset).Nodup := by
    rw [map_offset_routines]
    exact ordered.imp Nat.ne_of_lt
  rw [Program.entryAt?_eq_some_iff distinct]
  simp [Routine.signature]

/-- An entry belongs to the routine of some block. -/
theorem exists_block_of_entry {blocks : List Block}
    (ordered : (blocks.map Block.offset).Pairwise (· < ·)) {offset : Nat} {entry : Entry}
    (found : (Program.mk (routines {} blocks)).entryAt? offset = some entry) :
    ∃ (index : Nat) (block : Block) (own : Supply), blocks[index]? = some block ∧
      block.offset = offset ∧ (routines {} blocks)[index]? = some (block.routine own) ∧
      (block.routine own).entry = entry := by
  obtain ⟨routine, member, rfl, rfl⟩ := (entries_eq_some_iff ordered).mp found
  obtain ⟨index, listed⟩ := List.mem_iff_getElem?.mp member
  have inside : index < blocks.length := by
    rw [← length_routines {} blocks]
    exact (List.getElem?_eq_some_iff.mp listed).1
  have listedBlock := List.getElem?_eq_getElem inside
  obtain ⟨own, _, listedRoutine⟩ := exists_getElem?_routines listedBlock
  cases listed.symm.trans listedRoutine
  exact ⟨index, _, own, listedBlock, rfl, listedRoutine, rfl⟩

/-- Where nothing is entered no block starts. -/
theorem offset_ne_of_entries_eq_none {blocks : List Block}
    (ordered : (blocks.map Block.offset).Pairwise (· < ·)) {offset : Nat}
    (missing : (Program.mk (routines {} blocks)).entryAt? offset = none) :
    ∀ block ∈ blocks, block.offset ≠ offset := by
  rintro block member rfl
  obtain ⟨index, listed⟩ := List.mem_iff_getElem?.mp member
  obtain ⟨own, _, listedRoutine⟩ := exists_getElem?_routines listed
  have found := (entries_eq_some_iff ordered).mpr
    ⟨_, List.mem_of_getElem? listedRoutine, rfl, rfl⟩
  have offset : (block.routine own).offset = block.offset := rfl
  rw [offset, missing] at found
  cases found

/-- Routines in the place of blocks, before the jumps between neighbours are added. -/
structure Realizes (program : Program) (blocks : List Block)
    (routines : List Routine) : Prop where
  length : routines.length = blocks.length
  implements : ∀ (index : Nat) (block : Block), blocks[index]? = some block →
    ∃ routine, routines[index]? = some routine ∧ Implements program index block routine
  entered : ∀ (offset : Nat) (entry : Entry), program.entryAt? offset = some entry →
    ∃ (index : Nat) (block : Block) (routine : Routine), blocks[index]? = some block ∧
      block.offset = offset ∧ routines[index]? = some routine ∧ routine.entry = entry
  missing : ∀ offset, program.entryAt? offset = none → ∀ block ∈ blocks, block.offset ≠ offset
  /-- What is left is enough for whatever comes next. -/
  enough : ∀ (index : Nat) (routine next : Routine), routines[index]? = some routine →
    routines[index + 1]? = some next → routine.fallsThrough = true →
    next.arity ≤ routine.returns.length

namespace Realizes

variable {program : Program} {blocks : List Block} {routines : List Routine}
variable {index : Nat} {routine : Routine}

theorem name_eq (realizes : Realizes program blocks routines)
    (found : routines[index]? = some routine) : routine.name = Supply.routineName index := by
  have inside : index < blocks.length := by
    rw [← realizes.length]
    exact (List.getElem?_eq_some_iff.mp found).1
  obtain ⟨own, foundOwn, implements⟩ :=
    realizes.implements index _ (List.getElem?_eq_getElem inside)
  cases found.symm.trans foundOwn
  exact implements.name

/-- Names lead to the routines that bear them. -/
theorem named?_eq (realizes : Realizes program blocks routines)
    (found : routines[index]? = some routine) :
    (Program.mk (Routine.chain routines)).named? routine.name =
      some (routine.chained routines[index + 1]?) := by
  have place := Routine.getElem?_chain found
  obtain ⟨inside, here⟩ := List.getElem?_eq_some_iff.mp place
  rw [Program.named?, List.find?_eq_some_iff_getElem]
  refine ⟨by simp, index, inside, here, ?_⟩
  intro earlier before
  -- An earlier routine bears the name of its own place.
  have insideOwn : earlier < routines.length :=
    Nat.lt_trans before (List.getElem?_eq_some_iff.mp found).1
  have foundEarlier := List.getElem?_eq_getElem insideOwn
  have placeEarlier := Routine.getElem?_chain foundEarlier
  rw [List.getElem?_eq_getElem (Nat.lt_trans before inside), Option.some.injEq] at placeEarlier
  rw [placeEarlier, realizes.name_eq found]
  simp only [Routine.name_chained, realizes.name_eq foundEarlier, Bool.not_eq_true',
    decide_eq_false_iff_not]
  intro same
  exact Nat.ne_of_lt before (Supply.routineName_injective same)

end Realizes

/-- Linking without warnings realizes blocks. -/
theorem realizes_of_links {blocks : List Block} {numbered : List Routine}
    (standard : ∀ block ∈ blocks, ∀ instruction ∈ block.instructions, instruction.Standard)
    (ordered : (blocks.map Block.offset).Pairwise (· < ·))
    (links : List.Forall₂ (Routine.Links ⟨routines {} blocks⟩) (routines {} blocks) numbered)
    (quiet : Routine.chainWarnings numbered = []) :
    Realizes ⟨routines {} blocks⟩ blocks numbered where
  length := by rw [← links.length_eq, length_routines]
  implements := by
    intro index block listed
    obtain ⟨own, named, listedRoutine⟩ := exists_getElem?_routines listed
    obtain ⟨routine, found, linked⟩ := exists_getElem?_of_forall₂ links listedRoutine
    rw [Nat.zero_add] at named
    exact ⟨routine, found,
      named ▸ implements_of_links (standard block (List.mem_of_getElem? listed)) linked⟩
  entered := by
    intro offset entry found
    obtain ⟨index, block, own, listed, same, listedRoutine, rfl⟩ :=
      exists_block_of_entry ordered found
    obtain ⟨routine, foundRoutine, linked⟩ := exists_getElem?_of_forall₂ links listedRoutine
    refine ⟨index, block, routine, listed, same, foundRoutine, ?_⟩
    rw [Routine.entry, linked.name, linked.arity]
    rfl
  missing := fun offset => offset_ne_of_entries_eq_none ordered
  enough := by
    intro index routine next listed listedNext falls
    have warning := Routine.fallthroughWarning?_eq_none quiet listed listedNext
    simpa [Routine.fallthroughWarning?, falls] using warning

end Block

namespace Routine

/-- A routine that does not fall through shows an exit. -/
theorem exists_exit {oracle : Oracle} {past : List Event} {routine : Routine} {run after : Run}
    (proper : ∀ statement ∈ routine.body, statement.Proper)
    (ends : routine.fallsThrough = false)
    (performs : Statement.performAll (oracle.after past) run routine.body = some after) :
    ∃ exit ∈ after.seen, exit.isExit = true := by
  unfold fallsThrough at ends
  rcases routine.body.eq_nil_or_concat with empty | ⟨front, last, joined⟩
  · simp [empty] at ends
  rw [List.concat_eq_append] at joined
  rw [joined, List.getLast?_concat, Bool.not_eq_false'] at ends
  rw [joined, Statement.performAll_append, Option.bind_eq_some_iff] at performs
  obtain ⟨middle, _, performs⟩ := performs
  rw [Statement.performAll_singleton] at performs
  cases last with
  | assign offset targets op operands =>
      obtain ⟨words, _, rfl⟩ := Statement.perform_assign_eq_some.mp performs
      have properLast : Statement.ProperAssign targets op operands :=
        proper (.assign offset targets op operands) (by simp [joined])
      have notPush : op.isPush = false := by
        rw [← Bool.not_eq_true]
        intro push
        exact absurd ends (by simp [Statement.endsBlock, properLast.goesOn push])
      refine ⟨.performed ⟨offset, op, words⟩, ?_, ends⟩
      simp [Reading.sight, Oracle.after, notPush]
  | jump offset callee condition args =>
      obtain ⟨destination, decided, words, _, known, _, rfl⟩ :=
        Statement.perform_jump_eq_some.mp performs
      refine ⟨_, List.mem_append_right _ List.mem_cons_self, ?_⟩
      have none : condition = none := by simpa [Statement.endsBlock] using ends
      subst none
      cases known
      rfl

end Routine

end EvmLift
