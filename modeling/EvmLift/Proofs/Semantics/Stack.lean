import EvmLift.Proofs.Semantics.Live
import Mathlib.Data.List.Basic

/-!
# Live words on a stack

A block finds its arguments on a stack. Its live words lie on what is left of that stack, and
what an instruction takes from the top of both is what it takes of the live words and the
arguments. Copying and exchanging slots of a stack is what a shuffle does to the words that
it reaches.
-/

namespace EvmLift

/-- The words of a stack, as arguments. -/
def argumentsOf (base : List Word) (index : Nat) : Word :=
  base.getD index 0

theorem getElem?_eq_argumentsOf {base : List Word} {index : Nat} (inside : index < base.length) :
    base[index]? = some (argumentsOf base index) := by
  simp [argumentsOf, List.getElem?_eq_getElem inside]

theorem map_argumentsOf_range' {base : List Word} {start count : Nat}
    (enough : start + count ≤ base.length) :
    (List.range' start count).map (argumentsOf base) = (base.drop start).take count := by
  apply List.ext_getElem
  · simp
    omega
  · intro index inside _
    simp only [List.length_map, List.length_range'] at inside
    simp [argumentsOf, List.getD_eq_getElem?_getD, List.getElem?_eq_getElem
      (show start + index < base.length by omega)]

namespace Live

variable {base : List Word} {live : Live} {count : Nat}

/-- The live words on the arguments that were not yet taken. -/
def onto (live : Live) (base : List Word) : List Word :=
  live.items ++ base.drop live.params

theorem length_top (live : Live) (args : Nat → Word) (count : Nat) :
    (live.top args count).length = count := by
  simp [top]
  omega

theorem take_onto (enough : (live.drop count).params ≤ base.length) :
    (live.onto base).take count = live.top (argumentsOf base) count := by
  simp only [drop] at enough
  rw [onto, List.take_append, top, map_argumentsOf_range' enough]

theorem drop_onto (live : Live) (base : List Word) (count : Nat) :
    (live.onto base).drop count = (live.drop count).onto base := by
  rw [onto, List.drop_append, List.drop_drop]
  rfl

/-- A stack is what is taken from it, on top of the rest. -/
theorem onto_eq (enough : (live.drop count).params ≤ base.length) :
    live.onto base = live.top (argumentsOf base) count ++ (live.drop count).onto base := by
  rw [← take_onto enough, ← drop_onto, List.take_append_drop]

theorem onto_pushAll (live : Live) (base words : List Word) :
    (live.pushAll words).onto base = words ++ live.onto base :=
  List.append_assoc _ _ _

theorem onto_shuffle (live : Live) (base : List Word) (op : Opcode) :
    (live.shuffle (argumentsOf base) op).onto base =
      op.rearrange (live.top (argumentsOf base) op.pops) ++ (live.drop op.pops).onto base :=
  onto_pushAll _ _ _

end Live

namespace Opcode

variable {op : Opcode} {values rest : List Word}

/-- Copying the last slot that a shuffle reaches. -/
theorem Standard.rearrange_dup (standard : op.Standard) (kind : op.kind = .dup)
    (size : values.length = op.pops) :
    ∃ copied, (values ++ rest)[op.pops - 1]? = some copied ∧
      op.rearrange values ++ rest = copied :: (values ++ rest) := by
  have positive := (standard.dup kind).1
  rcases values.eq_nil_or_concat with rfl | ⟨others, last, rfl⟩
  · rw [List.length_nil] at size
    omega
  · refine ⟨last, ?_, ?_⟩
    · rw [← size]
      simp
    · simp [rearrange, kind]

/-- Exchanging the ends of what a shuffle reaches, slot by slot. -/
theorem Standard.rearrange_swap (standard : op.Standard) (kind : op.kind = .swap)
    (size : values.length = op.pops) :
    ∃ top deep, (values ++ rest)[0]? = some top ∧ (values ++ rest)[op.pops - 1]? = some deep ∧
      op.rearrange values ++ rest =
        ((values ++ rest).set 0 deep).set (op.pops - 1) top := by
  have positive := (standard.swap kind).1
  rw [← size] at positive ⊢
  rcases List.exists_cons_of_length_pos positive with ⟨first, others, rfl⟩
  rcases others.eq_nil_or_concat with rfl | ⟨middle, last, rfl⟩
  · exact ⟨first, first, rfl, rfl, by simp [rearrange, kind, SymbolicStack.exchangeEnds]⟩
  · refine ⟨first, last, rfl, ?_, ?_⟩
    · simp
    · simp [rearrange, kind, SymbolicStack.exchangeEnds]

end Opcode

end EvmLift
