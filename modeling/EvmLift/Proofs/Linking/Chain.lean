import EvmLift.Program.Linking
import EvmLift.Proofs.Linking.Inlining
import EvmLift.Proofs.Linking.Numbering

/-!
# Linked programs

The passes of linking together: a well scoped program always links, and each of its
routines keeps its meaning up to the jumps that are resolved. The jumps between neighbours
are added after that.
-/

namespace EvmLift

/-- A routine before linking, and after all passes but the last. -/
structure Routine.Links (program : Program) (before after : Routine) : Prop where
  name : after.name = before.name
  offset : after.offset = before.offset
  arity : after.arity = before.arity
  proper : ∀ statement ∈ after.body, statement.Proper
  meaning : ∀ (interpretation : Interpretation), interpretation.IgnoresJumps →
    ∀ (params : Nat → Option Word) (seen : List Observation) (words : List Word),
      before.meaning? interpretation params = some (seen, words) →
        ∃ seen', after.meaning? interpretation params = some (seen', words) ∧
          List.Forall₂ (Observation.Resolves program) seen seen'

namespace Program

variable {program : Program}

theorem Scoped.inlineConstants (wellScoped : program.Scoped) :
    ∀ routine ∈ program.inlineConstants.routines, routine.Scoped := by
  intro routine member
  rw [routines_inlineConstants] at member
  obtain ⟨original, listed, rfl⟩ := List.mem_map.mp member
  exact (wellScoped.routines original listed).inlined (wellScoped.ordered.inlines listed)
    (contains_mentions_of_mem_returns listed)

/-- Inlining changes no entry. -/
theorem entryAt?_inlineConstants : program.inlineConstants.entryAt? = program.entryAt? := by
  funext offset
  rw [entryAt?, entryAt?, entries, entries, routines_inlineConstants, List.map_map]
  rfl

/-- Inlining leaves only those targets of jumps that no push assigns. -/
theorem Scoped.settles (wellScoped : program.Scoped) {routine : Routine}
    (listed : routine ∈ program.inlineConstants.routines) :
    ∀ statement ∈ routine.body, program.Settles statement := by
  rw [routines_inlineConstants] at listed
  obtain ⟨original, listedBefore, rfl⟩ := List.mem_map.mp listed
  rintro statement member offset value condition args rfl unknown
  obtain ⟨before, placed, equal⟩ := List.mem_map.mp (List.mem_filter.mp member).1
  cases before with
  | assign => cases equal
  | jump offset' callee condition' args' =>
      cases callee with
      | routine | fault => cases equal
      | computed target =>
          cases equal
          refine ⟨original, listedBefore, target, condition', _, placed, ?_⟩
          cases target with
          | param => trivial
          | const word => exact unknown word rfl
          | var id =>
              intro statement member word found
              have constant := wellScoped.apart.constants_eq_some_iff.mpr ⟨statement, member, found⟩
              exact unknown word (by simp [Value.inline, constant])

/-- The routines of a program after all passes but the last. -/
def numbered (program : Program) : List Routine :=
  Numbering.numberRoutines {} program.inlineConstants.linkJumps.routines

theorem Scoped.linkJumps (wellScoped : program.Scoped) :
    ∀ routine ∈ program.inlineConstants.linkJumps.routines, routine.Scoped := by
  intro routine member
  rw [routines_linkJumps] at member
  obtain ⟨original, listed, rfl⟩ := List.mem_map.mp member
  exact (wellScoped.inlineConstants original listed).linked

/-- A well scoped program links. -/
theorem Scoped.link_eq (wellScoped : program.Scoped) :
    program.link = .ok ⟨⟨Routine.chain program.numbered⟩,
      program.inlineConstants.jumpWarnings ++ Routine.chainWarnings program.numbered⟩ := by
  rw [link, renumber_eq wellScoped.linkJumps]
  rfl

/-- Without warnings about jumps the routines of a well scoped program keep their meanings. -/
theorem Scoped.links (wellScoped : program.Scoped)
    (quiet : program.inlineConstants.jumpWarnings = []) :
    List.Forall₂ (Routine.Links program) program.routines program.numbered := by
  have renumbers :=
    Numbering.renumbers_numberRoutines Numbering.bounded_empty wellScoped.linkJumps
  rw [routines_linkJumps, routines_inlineConstants, List.map_map, List.forall₂_map_left_iff,
    entryAt?_inlineConstants] at renumbers
  have listed := (List.forall₂_and_left _ _).mpr ⟨fun _ member => member, renumbers⟩
  rw [numbered, routines_linkJumps, routines_inlineConstants, List.map_map,
    entryAt?_inlineConstants]
  apply listed.imp
  rintro before after ⟨member, renumbered⟩
  refine ⟨renumbered.name, renumbered.offset, renumbered.arity, renumbered.proper, ?_⟩
  intro interpretation ignores params seen words means
  rw [Routine.meaning?, ← Routine.runIn?_inlined (wellScoped.ordered.inlines member)
    (contains_mentions_of_mem_returns member) (wellScoped.routines before member).body] at means
  have inlinedMember : Routine.inlined _ _ before ∈ program.inlineConstants.routines :=
    routines_inlineConstants ▸ List.mem_map_of_mem member
  have fits := linkWarning?_eq_none quiet inlinedMember
  rw [entryAt?_inlineConstants] at fits
  obtain ⟨seen', linked, resolves⟩ :=
    Routine.meaning?_linked ignores (wellScoped.settles inlinedMember) fits means
  exact ⟨seen', renumbered.meaning _ _ _ linked, resolves⟩

/-- A well scoped program links. Without warnings about jumps its routines keep their
meanings. -/
theorem Scoped.exists_link (wellScoped : program.Scoped) :
    ∃ numbered : List Routine,
      program.link = .ok ⟨⟨Routine.chain numbered⟩,
        program.inlineConstants.jumpWarnings ++ Routine.chainWarnings numbered⟩ ∧
      (program.inlineConstants.jumpWarnings = [] →
        List.Forall₂ (Routine.Links program) program.routines numbered) :=
  ⟨program.numbered, wellScoped.link_eq, wellScoped.links⟩

end Program

end EvmLift
