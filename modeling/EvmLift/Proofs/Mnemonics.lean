import EvmLift.Proofs.Encoding
import Mathlib.Data.List.Nodup

/-!
# What a mnemonic tells

Assigned opcodes are told apart by their mnemonics, which are single words. All unassigned
opcodes share one mnemonic, which no assigned opcode has, so of an opcode of the table a
mnemonic tells everything but the byte of an unassigned one.
-/

namespace EvmLift.Opcode

variable {op op' : Opcode}

theorem nodup_mnemonic_assigned : (assigned.map mnemonic).Nodup := by
  decide +kernel

/-- Assigned opcodes are told apart by their mnemonics. -/
theorem eq_of_mnemonic_eq (listed : op ∈ assigned) (listed' : op' ∈ assigned)
    (same : op.mnemonic = op'.mnemonic) : op = op' :=
  List.inj_on_of_nodup_map nodup_mnemonic_assigned listed listed' same

/-- Mnemonics are single words. -/
theorem not_mem_mnemonic_of_mem_assigned :
    ∀ op ∈ assigned, ' ' ∉ op.mnemonic.toList ∧ '\n' ∉ op.mnemonic.toList := by
  decide +kernel

theorem mnemonic_ne_of_mem_assigned (byte : UInt8) :
    ∀ op ∈ assigned, op.mnemonic ≠ (unassigned byte).mnemonic := by
  have shared : (unassigned byte).mnemonic = (unassigned 0).mnemonic := rfl
  rw [shared]
  decide +kernel

theorem mem_assigned_or_eq_unassigned (listed : op ∈ all) :
    op ∈ assigned ∨ op = unassigned op.byte := by
  rw [← ofByte_byte listed, byte_ofByte]
  unfold ofByte
  cases found : assigned.find? (fun other => other.byte = op.byte) with
  | none => exact .inr rfl
  | some other => exact .inl (List.mem_of_find?_eq_some found)

/-- The opcode as far as it is spelled out: without the byte, if it is an unassigned one. -/
def spelled (op : Opcode) : Opcode :=
  if op = unassigned op.byte then unassigned 0 else op

theorem spelled_unassigned (byte : UInt8) : (unassigned byte).spelled = unassigned 0 :=
  if_pos rfl

theorem spelled_of_mem_assigned (listed : op ∈ assigned) : op.spelled = op := by
  apply if_neg
  intro equal
  exact mnemonic_ne_of_mem_assigned op.byte op listed (congrArg mnemonic equal)

/-- Of an opcode of the table a mnemonic tells everything but the byte of an unassigned
one. -/
theorem mnemonic_eq_iff (listed : op ∈ all) (listed' : op' ∈ all) :
    op.mnemonic = op'.mnemonic ↔ op.spelled = op'.spelled := by
  have kept {op : Opcode} (listed : op ∈ all) : op.spelled.mnemonic = op.mnemonic := by
    rcases mem_assigned_or_eq_unassigned listed with assigned | unassigned
    · rw [spelled_of_mem_assigned assigned]
    · rw [unassigned, spelled_unassigned]
      rfl
  constructor
  · intro same
    rcases mem_assigned_or_eq_unassigned listed with assigned | unassigned <;>
      rcases mem_assigned_or_eq_unassigned listed' with assigned' | unassigned'
    · rw [eq_of_mnemonic_eq assigned assigned' same]
    · rw [unassigned'] at same
      exact absurd same (mnemonic_ne_of_mem_assigned _ op assigned)
    · rw [unassigned] at same
      exact absurd same.symm (mnemonic_ne_of_mem_assigned _ op' assigned')
    · rw [unassigned, unassigned', spelled_unassigned, spelled_unassigned]
  · intro same
    rw [← kept listed, ← kept listed', same]

end EvmLift.Opcode
