import EvmLift.Proofs.Standard
import EvmLift.Simplification.Rounds

/-!
# How the rules of simplification fire

What the three rules can do is said here once: they give pushed constants to the
instruction that takes them, or compute a constant. They absorb only pushes, and what
stands before a jump destination does not matter to them. Whatever holds of every scan with
such a rule holds of simplification.
-/

namespace EvmLift

/-- The value of an instruction that computes and carries its operands. -/
def Instruction.result? (instruction : Instruction) : Option Word := do
  let operator ← instruction.op.operator
  let operands ← instruction.constants
  if operands.length = instruction.op.pops then operator.compute? operands else none

namespace Rule

variable {rule : Rule} {before : List Instruction} {next : Instruction} {replacement : Replacement}

/-- The ways in which a rule replaces an instruction. -/
inductive Fired (before : List Instruction) (next : Instruction) : Replacement → Prop where
  | jump {words : List Word} (kind : next.op.kind = .jump) (bare : next.constants = none)
      (pushed : pushedBefore? 1 before = some words) :
      Fired before next ⟨{ next with constants := some words }, 1⟩
  /-- A conditional jump takes its constants in the order of their pushes. -/
  | jumpIf {words : List Word} (kind : next.op.kind = .jumpIf) (bare : next.constants = none)
      (pushed : pushedBefore? 2 before = some words) :
      Fired before next ⟨{ next with constants := some words.reverse }, 2⟩
  | operands {words : List Word} (accepts : acceptsConstants next = true)
      (pushed : pushedBefore? next.op.pops before = some words) :
      Fired before next ⟨{ next with constants := some words }, next.op.pops⟩
  | computed {operator : Operator} {operands : List Word} {value : Word}
      (computes : next.op.operator = some operator) (carried : next.constants = some operands)
      (computed : operator.compute? operands = some value) :
      Fired before next ⟨⟨next.offset, Opcode.pushFor value, some [value]⟩, 0⟩

/-- A rule that moves constants toward their use. -/
structure MovesConstants (rule : Rule) : Prop where
  fired : ∀ before next replacement, rule before next = some replacement →
    Fired before next replacement
  /-- What stands before a jump destination is out of reach. -/
  near : ∀ front (dest : Instruction) back next, dest.op.kind = .jumpDest →
    rule (front ++ dest :: back) next = rule front next

theorem pushedBefore?_succ_eq_some {count : Nat} {nearest : Instruction} {words : List Word} :
    pushedBefore? (count + 1) (nearest :: before) = some words ↔
      ∃ word others, nearest.pushed? = some word ∧ pushedBefore? count before = some others ∧
        words = word :: others := by
  simp only [pushedBefore?, Option.bind_eq_bind, Option.bind_eq_some_iff, Option.pure_def,
    Option.some.injEq]
  constructor
  · rintro ⟨word, constant, others, rest, rfl⟩
    exact ⟨word, others, constant, rest, rfl⟩
  · rintro ⟨word, others, constant, rest, rfl⟩
    exact ⟨word, constant, others, rest, rfl⟩

theorem pushedBefore?_append_dest {front back : List Instruction} {dest : Instruction}
    (kind : dest.op.kind = .jumpDest) (count : Nat) :
    pushedBefore? count (front ++ dest :: back) = pushedBefore? count front := by
  induction count generalizing front with
  | zero => rfl
  | succ count ih =>
      cases front with
      | nil => simp [pushedBefore?, Instruction.pushed?, Opcode.isPush, kind]
      | cons nearest front => simp only [List.cons_append, pushedBefore?, ih]

/-- Absorbed instructions are pushes. -/
theorem kind_of_mem_take {count : Nat} {words : List Word}
    (pushed : pushedBefore? count before = some words) :
    ∀ instruction ∈ before.take count, instruction.op.kind = .push := by
  induction count generalizing before words with
  | zero => simp
  | succ count ih =>
      cases before with
      | nil => simp
      | cons nearest before =>
          obtain ⟨word, others, constant, rest, _⟩ := pushedBefore?_succ_eq_some.mp pushed
          rw [List.take_succ_cons, List.forall_mem_cons]
          refine ⟨?_, ih rest⟩
          unfold Instruction.pushed? at constant
          split at constant
          next push => exact Opcode.isPush_iff.mp push
          · cases constant

/-- Jumps take the constants that are pushed right before them. -/
theorem fuseJump_eq (before : List Instruction) (next : Instruction) :
    fuseJump before next =
      if next.constants.isSome then none
      else
        match next.op.kind with
        | .jump => (pushedBefore? 1 before).map fun words =>
            ⟨{ next with constants := some words }, 1⟩
        | .jumpIf => (pushedBefore? 2 before).map fun words =>
            ⟨{ next with constants := some words.reverse }, 2⟩
        | _ => none := by
  cases kind : next.op.kind
  case jump =>
    rcases before with _ | ⟨nearest, rest⟩
    · simp [fuseJump, pushedBefore?, kind]
    · cases target : nearest.pushed? <;> simp [fuseJump, pushedBefore?, kind, target]
  case jumpIf =>
    rcases before with _ | ⟨second, _ | ⟨first, rest⟩⟩
    · simp [fuseJump, pushedBefore?, kind]
    · simp [fuseJump, pushedBefore?, kind]
    · cases later : second.pushed? <;> cases earlier : first.pushed? <;>
        simp [fuseJump, pushedBefore?, kind, later, earlier]
  all_goals simp [fuseJump, kind]

theorem foldOperands_of_accepts (accepts : acceptsConstants next = true) :
    foldOperands before next = (pushedBefore? next.op.pops before).map fun words =>
      ⟨{ next with constants := some words }, next.op.pops⟩ := by
  rw [foldOperands, if_pos accepts]
  cases pushedBefore? next.op.pops before <;> rfl

theorem foldConstants_eq (before : List Instruction) (next : Instruction) :
    foldConstants before next = next.result?.map fun value =>
      ⟨⟨next.offset, Opcode.pushFor value, some [value]⟩, 0⟩ := by
  unfold foldConstants Instruction.result?
  cases next.op.operator with
  | none => rfl
  | some operator =>
      cases next.constants with
      | none => rfl
      | some operands =>
          simp only [Option.bind_eq_bind, Option.bind_some]
          split
          · cases operator.compute? operands <;> rfl
          · rfl

theorem movesConstants_fuseJump : MovesConstants fuseJump where
  fired := by
    intro before next replacement fires
    rw [fuseJump_eq] at fires
    split at fires
    · cases fires
    next bare =>
      rw [Bool.not_eq_true, Option.isSome_eq_false_iff, Option.isNone_iff_eq_none] at bare
      split at fires
      next kind =>
        obtain ⟨words, pushed, rfl⟩ := Option.map_eq_some_iff.mp fires
        exact .jump kind bare pushed
      next kind =>
        obtain ⟨words, pushed, rfl⟩ := Option.map_eq_some_iff.mp fires
        exact .jumpIf kind bare pushed
      · cases fires
  near := by
    intro front dest back next kind
    simp only [fuseJump_eq, pushedBefore?_append_dest kind]

theorem movesConstants_foldOperands : MovesConstants foldOperands where
  fired := by
    intro before next replacement fires
    unfold foldOperands at fires
    split at fires
    next accepts =>
      simp only [Option.bind_eq_bind, Option.bind_eq_some_iff, Option.pure_def,
        Option.some.injEq] at fires
      obtain ⟨words, pushed, rfl⟩ := fires
      exact .operands accepts pushed
    · cases fires
  near := by
    intro front dest back next kind
    simp only [foldOperands, pushedBefore?_append_dest kind]

theorem movesConstants_foldConstants : MovesConstants foldConstants where
  fired := by
    intro before next replacement fires
    simp only [foldConstants, Option.bind_eq_bind, Option.bind_eq_some_iff] at fires
    obtain ⟨operator, computes, operands, carried, fires⟩ := fires
    split at fires
    · obtain ⟨value, computed, equal⟩ := Option.bind_eq_some_iff.mp fires
      cases equal
      exact .computed computes carried computed
    · cases fires
  near := fun _ _ _ _ _ => rfl

namespace Fired

/-- A rule absorbs pushes. -/
theorem pushed (fired : Fired before next replacement) :
    ∃ words, pushedBefore? replacement.absorbed before = some words := by
  cases fired with
  | jump kind bare pushed => exact ⟨_, pushed⟩
  | jumpIf kind bare pushed => exact ⟨_, pushed⟩
  | operands accepts pushed => exact ⟨_, pushed⟩
  | computed computes carried computed => exact ⟨[], rfl⟩

/-- Jump destinations are not replaced. -/
theorem kind_ne_jumpDest (fired : Fired before next replacement) (standard : next.Standard) :
    next.op.kind ≠ .jumpDest := by
  intro dest
  cases fired with
  | jump kind => simp [kind] at dest
  | jumpIf kind => simp [kind] at dest
  | operands accepts => simp [acceptsConstants, (standard.op.jumpDest dest).1] at accepts
  | computed computes =>
      rw [(standard.op.computes _ computes).1] at dest
      cases dest

/-- The opcode of a replacement is the old one or a push. -/
theorem op_eq_or_isPush (fired : Fired before next replacement) :
    replacement.instruction.op = next.op ∨ replacement.instruction.op.kind = .push := by
  cases fired with
  | jump | jumpIf | operands => exact .inl rfl
  | computed => exact .inr rfl

/-- A replacement stands where the old instruction stood. -/
theorem offset (fired : Fired before next replacement) :
    replacement.instruction.offset = next.offset := by
  cases fired <;> rfl

theorem standard (fired : Fired before next replacement) (standard : next.Standard) :
    replacement.instruction.Standard := by
  cases fired with
  | jump kind | jumpIf kind =>
      refine ⟨standard.op, fun push => ?_⟩
      rw [kind] at push
      cases push
  | operands accepts =>
      -- A push takes no operands, so it accepts no constants.
      refine ⟨standard.op, fun push => ?_⟩
      simp [acceptsConstants, (standard.op.push push).1] at accepts
  | computed => exact ⟨Opcode.standard_push _, fun _ => ⟨_, rfl⟩⟩

end Fired

/-- What holds of every instruction and is kept by replacements holds after a scan. -/
theorem forall_mem_scan {motive : Instruction → Prop}
    (keeps : ∀ before next replacement, motive next → rule before next = some replacement →
      motive replacement.instruction)
    {instructions : List Instruction} (holds : ∀ instruction ∈ instructions, motive instruction) :
    ∀ instruction ∈ (rule.scan instructions).instructions, motive instruction := by
  suffices all : ∀ passed : Scanned, (∀ instruction ∈ passed.instructions, motive instruction) →
      ∀ instruction ∈ (instructions.foldl rule.step passed).instructions, motive instruction by
    intro instruction member
    exact all ⟨[], 0⟩ (by simp) instruction (List.mem_reverse.mp member)
  induction instructions with
  | nil => exact fun passed before => before
  | cons next rest ih =>
      rw [List.forall_mem_cons] at holds
      intro passed before
      apply ih holds.2 (rule.step passed next)
      cases fires : rule passed.instructions next with
      | none =>
          rw [step_eq_of_none fires]
          exact List.forall_mem_cons.mpr ⟨holds.1, before⟩
      | some replacement =>
          rw [step_eq_of_some fires]
          exact List.forall_mem_cons.mpr ⟨keeps _ _ _ holds.1 fires,
            fun instruction member => before instruction (List.mem_of_mem_drop member)⟩

theorem MovesConstants.standard_scan (moves : MovesConstants rule)
    {instructions : List Instruction}
    (standard : ∀ instruction ∈ instructions, instruction.Standard) :
    ∀ instruction ∈ (rule.scan instructions).instructions, instruction.Standard :=
  forall_mem_scan (fun _ _ _ old fires => (moves.fired _ _ _ fires).standard old) standard

/-- Scanning keeps the order of offsets. -/
theorem MovesConstants.sublist_offset_foldl (moves : MovesConstants rule)
    (passed : Scanned) (instructions : List Instruction) :
    ((instructions.foldl rule.step passed).instructions.reverse.map Instruction.offset).Sublist
      ((passed.instructions.reverse ++ instructions).map Instruction.offset) := by
  induction instructions generalizing passed with
  | nil => simp
  | cons next rest ih =>
      apply (ih (rule.step passed next)).trans
      cases fires : rule passed.instructions next with
      | none => simp [step_eq_of_none fires]
      | some replacement =>
          have same := (moves.fired _ _ _ fires).offset
          rw [step_eq_of_some fires, List.reverse_cons, List.append_assoc, List.singleton_append,
            List.map_append, List.map_append, List.map_cons, List.map_cons, same]
          refine List.Sublist.append_right (List.Sublist.map _ ?_) _
          exact List.reverse_sublist.mpr (List.drop_sublist _ _)

theorem MovesConstants.pairwise_offset_scan (moves : MovesConstants rule)
    {instructions : List Instruction} (ordered : instructions.Pairwise (·.offset < ·.offset)) :
    (rule.scan instructions).instructions.Pairwise (·.offset < ·.offset) := by
  have sublist := moves.sublist_offset_foldl ⟨[], 0⟩ instructions
  exact List.pairwise_map.mp ((List.pairwise_map.mpr ordered).sublist sublist)

end Rule

namespace Instruction

/-- Simplification is a chain of scans with rules that move constants. -/
theorem simplify_induction {motive : (List Instruction → List Instruction) → Prop}
    (start : motive id)
    (scan : ∀ pass rule, Rule.MovesConstants rule → motive pass →
      motive fun instructions => (rule.scan (pass instructions)).instructions) :
    motive simplify := by
  have rounds : ∀ count pass, motive pass →
      motive fun instructions => simplifyRounds count (pass instructions) := by
    intro count
    induction count with
    | zero => exact fun pass holds => holds
    | succ count ih =>
        intro pass holds
        have fused := scan _ _ Rule.movesConstants_fuseJump holds
        have folded := scan _ _ Rule.movesConstants_foldOperands fused
        exact ih _ (scan _ _ Rule.movesConstants_foldConstants folded)
  exact scan _ _ Rule.movesConstants_foldOperands (rounds Instruction.rounds id start)

/-- What holds of every instruction and is kept by rules holds after simplification. -/
theorem forall_mem_simplify {motive : Instruction → Prop}
    (keeps : ∀ before next replacement, Rule.Fired before next replacement → motive next →
      motive replacement.instruction)
    {instructions : List Instruction} (holds : ∀ instruction ∈ instructions, motive instruction) :
    ∀ instruction ∈ simplify instructions, motive instruction := by
  refine simplify_induction
    (motive := fun pass => ∀ instruction ∈ pass instructions, motive instruction) holds ?_
  intro pass rule moves old
  apply Rule.forall_mem_scan ?_ old
  intro before next replacement holdsNext fires
  exact keeps before next replacement (moves.fired _ _ _ fires) holdsNext

/-- Simplification yields standard instructions from standard ones. -/
theorem standard_simplify {instructions : List Instruction}
    (standard : ∀ instruction ∈ instructions, instruction.Standard) :
    ∀ instruction ∈ simplify instructions, instruction.Standard :=
  forall_mem_simplify (fun _ _ _ fired => fired.standard) standard

end Instruction

end EvmLift
