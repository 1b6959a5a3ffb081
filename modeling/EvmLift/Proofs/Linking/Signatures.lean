import EvmLift.Proofs.Lifting.Balance
import EvmLift.Proofs.Linking.Chain
import Std.Data.String.ToNat

/-!
# What linking leaves alone

Linking changes the bodies of routines and what they return. Where a routine starts, its name
and the number of its parameters stay as they were, so the routines of a linked program are
those of the blocks, in the same order, with one name each.
-/

namespace EvmLift

namespace Routine

/-- What other routines know of a routine: where it starts, its name and its parameters. -/
def signature (routine : Routine) : Nat × Entry :=
  (routine.offset, routine.entry)

theorem signature_continueTo (routine next : Routine) :
    (routine.continueTo next).signature = routine.signature := by
  unfold continueTo
  split <;> rfl

theorem map_signature_chain (routines : List Routine) :
    (chain routines).map signature = routines.map signature := by
  fun_induction chain routines with
  | case1 routine next rest ih => rw [List.map_cons, List.map_cons, ih, signature_continueTo]
  | case2 => rfl

end Routine

theorem Numbering.map_signature_numberRoutines (numbering : Numbering) (routines : List Routine) :
    (numbering.numberRoutines routines).map Routine.signature =
      routines.map Routine.signature := by
  induction routines generalizing numbering with
  | nil => rfl
  | cons routine rest ih =>
      rw [numberRoutines, List.map_cons, List.map_cons, ih]
      rfl

namespace Program

/-- Where routines start at different offsets, exactly their signatures are found. -/
theorem entryAt?_eq_some_iff {program : Program}
    (distinct : (program.routines.map Routine.offset).Nodup) {offset : Nat}
    {entry : Entry} :
    program.entryAt? offset = some entry ↔
      (offset, entry) ∈ program.routines.map Routine.signature := by
  have unequal : (program.routines.map Routine.signature).Pairwise
      fun first second => first.1 ≠ second.1 := by
    rw [List.pairwise_map]
    exact List.pairwise_map.mp distinct
  exact getElem?_ofList_eq_some_iff unequal

/-- Linking keeps signatures. -/
theorem map_signature_chain_numbered (program : Program) :
    (Routine.chain program.numbered).map Routine.signature =
      program.routines.map Routine.signature := by
  rw [Routine.map_signature_chain, numbered, Numbering.map_signature_numberRoutines,
    routines_linkJumps, routines_inlineConstants, List.map_map, List.map_map]
  rfl

end Program

namespace Supply

/-- No two routines share a name. -/
theorem routineName_injective {first second : Nat}
    (same : routineName first = routineName second) : first = second := by
  have numbered : ∀ index : Nat, "main" ≠ "func" ++ toString index := by
    intro index equal
    have letters := congrArg String.toList equal
    simp at letters
  unfold routineName at same
  split at same <;> split at same
  · omega
  · exact absurd same (numbered second)
  · exact absurd same.symm (numbered first)
  · exact Nat.repr_inj.mp ((String.append_right_inj "func").mp same)

end Supply

namespace Block

theorem map_offset_routines (supply : Supply) (blocks : List Block) :
    (routines supply blocks).map Routine.offset = blocks.map Block.offset := by
  induction blocks generalizing supply with
  | nil => rfl
  | cons block rest ih => simp only [routines, List.map_cons, ih, routine]

/-- Routines are named in order. -/
theorem map_name_routines (supply : Supply) (blocks : List Block) :
    (routines supply blocks).map Routine.name =
      (List.range' supply.nextRoutine blocks.length).map Supply.routineName := by
  induction blocks generalizing supply with
  | nil => rfl
  | cons block rest ih =>
      rw [routines, List.map_cons, ih, List.length_cons, List.range'_succ, List.map_cons]
      rfl

end Block

end EvmLift
