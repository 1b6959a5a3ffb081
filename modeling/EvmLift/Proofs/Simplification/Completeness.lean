import EvmLift.Proofs.Simplification.Passes

/-!
# One scan is enough

A later replacement absorbs what stands directly before it, so whatever a scan leaves behind its
cursor still has the same instructions before it as when the cursor passed. If a rule never fires on
its own replacements, there is then no place behind the cursor where it fires, and a second scan
changes nothing. The rules of all three passes are of this kind.
-/

namespace EvmLift

namespace Rule

variable {rule : Rule} {front rest stream : List Instruction} {next : Instruction}
variable {passed : Scanned}

/-- A rule that fires on no replacement of its own, whatever stands before it. -/
def Final (rule : Rule) : Prop :=
  ∀ before next replacement, rule before next = some replacement →
    ∀ remaining, rule remaining replacement.instruction = none

/-- A stream in which the rule fires nowhere. -/
def Exhausted (rule : Rule) (stream : List Instruction) : Prop :=
  ∀ front next back, stream = front ++ next :: back → rule front.reverse next = none

theorem exhausted_nil (rule : Rule) : rule.Exhausted [] := by
  intro front next back parts
  simp at parts

theorem Exhausted.of_append (exhausted : rule.Exhausted (front ++ rest)) :
    rule.Exhausted front := by
  intro earlier next back parts
  apply exhausted earlier next (back ++ rest)
  simp [parts]

theorem exhausted_concat :
    rule.Exhausted (front ++ [next]) ↔ rule.Exhausted front ∧ rule front.reverse next = none := by
  constructor
  · intro exhausted
    exact ⟨exhausted.of_append, exhausted front next [] rfl⟩
  · rintro ⟨exhausted, quiet⟩ earlier other back parts
    rcases back.eq_nil_or_concat with rfl | ⟨back, last, rfl⟩
    · rcases List.append_inj' parts rfl with ⟨rfl, same⟩
      rw [← List.head_eq_of_cons_eq same]
      exact quiet
    · apply exhausted earlier other back
      rw [List.concat_eq_append, ← List.cons_append, ← List.append_assoc] at parts
      exact (List.append_inj' parts rfl).1

/-! ## What a scan leaves -/

/-- Moving the cursor leaves no place behind it where the rule fires. -/
theorem Final.exhausted_step (final : rule.Final)
    (exhausted : rule.Exhausted passed.instructions.reverse) (next : Instruction) :
    rule.Exhausted (rule.step passed next).instructions.reverse := by
  cases fires : rule passed.instructions next with
  | none =>
      rw [step_eq_of_none fires, List.reverse_cons, exhausted_concat, List.reverse_reverse]
      exact ⟨exhausted, fires⟩
  | some replacement =>
      -- What is absorbed stands nearest to the cursor, so the rest is a stream that was passed.
      rw [← List.take_append_drop replacement.absorbed passed.instructions,
        List.reverse_append] at exhausted
      rw [step_eq_of_some fires, List.reverse_cons, exhausted_concat]
      exact ⟨exhausted.of_append, final _ _ _ fires _⟩

theorem Final.exhausted_foldl (final : rule.Final) (passed : Scanned)
    (exhausted : rule.Exhausted passed.instructions.reverse) (rest : List Instruction) :
    rule.Exhausted (rest.foldl rule.step passed).instructions.reverse := by
  induction rest generalizing passed with
  | nil => exact exhausted
  | cons next rest ih => exact ih _ (final.exhausted_step exhausted next)

theorem Final.exhausted_scan (final : rule.Final) (stream : List Instruction) :
    rule.Exhausted (rule.scan stream).instructions :=
  final.exhausted_foldl ⟨[], 0⟩ (exhausted_nil rule) stream

/-! ## Streams that a scan does not change -/

/-- Where the rule fires nowhere, the cursor moves on and nothing else happens. -/
theorem Exhausted.foldl_eq (passed : Scanned)
    (exhausted : rule.Exhausted (passed.instructions.reverse ++ rest)) :
    rest.foldl rule.step passed = ⟨rest.reverse ++ passed.instructions, passed.count⟩ := by
  induction rest generalizing passed with
  | nil => rfl
  | cons next rest ih =>
      have quiet := exhausted _ next rest rfl
      rw [List.reverse_reverse] at quiet
      rw [List.foldl_cons, step_eq_of_none quiet, ih]
      · simp
      · simpa using exhausted

theorem Exhausted.scan_eq (exhausted : rule.Exhausted stream) : rule.scan stream = ⟨stream, 0⟩ := by
  have moved : stream.foldl rule.step ⟨[], 0⟩ = ⟨stream.reverse ++ [], 0⟩ :=
    Exhausted.foldl_eq ⟨[], 0⟩ exhausted
  rw [scan, moved, List.append_nil, List.reverse_reverse]

theorem count_le_foldl (rule : Rule) (passed : Scanned) (rest : List Instruction) :
    passed.count ≤ (rest.foldl rule.step passed).count := by
  induction rest generalizing passed with
  | nil => exact Nat.le_refl _
  | cons next rest ih =>
      refine Nat.le_trans ?_ (ih (rule.step passed next))
      cases fires : rule passed.instructions next with
      | none => rw [step_eq_of_none fires]
      | some replacement =>
          rw [step_eq_of_some fires]
          exact Nat.le_succ _

/-- A scan that counts nothing has met no place where the rule fires. -/
theorem exhausted_of_count_foldl (passed : Scanned)
    (exhausted : rule.Exhausted passed.instructions.reverse)
    (same : (rest.foldl rule.step passed).count = passed.count) :
    rule.Exhausted (passed.instructions.reverse ++ rest) := by
  induction rest generalizing passed with
  | nil => simpa using exhausted
  | cons next rest ih =>
      rw [List.foldl_cons] at same
      cases fires : rule passed.instructions next with
      | none =>
          rw [step_eq_of_none fires] at same
          rw [List.append_cons, ← List.reverse_cons]
          apply ih ⟨next :: passed.instructions, passed.count⟩ _ same
          rw [List.reverse_cons, exhausted_concat, List.reverse_reverse]
          exact ⟨exhausted, fires⟩
      | some replacement =>
          have counted := rule.count_le_foldl (rule.step passed next) rest
          rw [same, step_eq_of_some fires] at counted
          exact absurd counted (Nat.not_succ_le_self _)

theorem count_scan_eq_zero_iff :
    (rule.scan stream).count = 0 ↔ rule.Exhausted stream := by
  constructor
  · intro silent
    exact exhausted_of_count_foldl ⟨[], 0⟩ (exhausted_nil rule) silent
  · intro exhausted
    rw [exhausted.scan_eq]

/-! ## The rules of the passes -/

/-- A jump that has its constants takes no others. -/
theorem final_fuseJump : fuseJump.Final := by
  intro before next replacement fires remaining
  rw [fuseJump_eq] at fires ⊢
  split at fires
  · cases fires
  · split at fires
    · obtain ⟨words, _, rfl⟩ := Option.map_eq_some_iff.mp fires
      rfl
    · obtain ⟨words, _, rfl⟩ := Option.map_eq_some_iff.mp fires
      rfl
    · cases fires

theorem final_foldOperands : foldOperands.Final := by
  intro before next replacement fires remaining
  by_cases accepts : acceptsConstants next = true
  · rw [foldOperands_of_accepts accepts] at fires
    obtain ⟨words, _, rfl⟩ := Option.map_eq_some_iff.mp fires
    simp [foldOperands, acceptsConstants]
  · rw [foldOperands, if_neg accepts] at fires
    cases fires

/-- A push computes nothing. -/
theorem final_foldConstants : foldConstants.Final := by
  intro before next replacement fires remaining
  rw [foldConstants_eq] at fires
  obtain ⟨value, _, rfl⟩ := Option.map_eq_some_iff.mp fires
  rfl

theorem acceptsConstants_iff :
    acceptsConstants next = true ↔ next.op.isShuffle = false ∧ next.op.isJump = false ∧
      next.constants = none ∧ next.op.pops ≠ 0 := by
  simp [acceptsConstants, and_assoc]

/-- The nearest instructions have constants if all of them push one. -/
theorem isSome_pushedBefore?_iff {before : List Instruction} {count : Nat} :
    (pushedBefore? count before).isSome = true ↔
      count ≤ before.length ∧
        ∀ instruction ∈ before.take count, instruction.pushed?.isSome = true := by
  induction count generalizing before with
  | zero => simp [pushedBefore?]
  | succ count ih =>
      cases before with
      | nil => simp [pushedBefore?]
      | cons nearest before =>
          have both : (pushedBefore? (count + 1) (nearest :: before)).isSome = true ↔
              nearest.pushed?.isSome = true ∧ (pushedBefore? count before).isSome = true := by
            simp only [Option.isSome_iff_exists, pushedBefore?_succ_eq_some]
            grind
          rw [both, ih, List.take_succ_cons, List.forall_mem_cons, List.length_cons,
            Nat.succ_le_succ_iff]
          exact and_left_comm

/-- The same in the order of the stream. -/
theorem isSome_pushedBefore?_reverse_iff {count : Nat} :
    (pushedBefore? count front.reverse).isSome = true ↔
      ∃ earlier pushes, front = earlier ++ pushes ∧ pushes.length = count ∧
        ∀ instruction ∈ pushes, instruction.pushed?.isSome = true := by
  rw [isSome_pushedBefore?_iff, List.length_reverse]
  constructor
  · rintro ⟨enough, pushed⟩
    refine ⟨_, _, (List.take_append_drop (front.length - count) front).symm, ?_, ?_⟩
    · rw [List.length_drop]
      omega
    · intro instruction member
      rw [List.take_reverse] at pushed
      exact pushed instruction (List.mem_reverse.mpr member)
  · rintro ⟨earlier, pushes, rfl, rfl, pushed⟩
    refine ⟨by simp, ?_⟩
    intro instruction member
    rw [List.reverse_append, List.take_left' List.length_reverse, List.mem_reverse] at member
    exact pushed instruction member

end Rule

namespace Pass

variable {pass : Pass} {front stream : List Instruction} {next : Instruction}

theorem final_rule (pass : Pass) : pass.rule.Final := by
  cases pass with
  | fuseJumps => exact Rule.final_fuseJump
  | foldOperands => exact Rule.final_foldOperands
  | foldConstants => exact Rule.final_foldConstants

/-- What a pass can rewrite: instructions in the order of the stream, and the one directly behind
them that takes their constants. -/
inductive Window : Pass → List Instruction → Instruction → Prop where
  | jump {pushes : List Instruction} {next : Instruction}
      (pushed : ∀ instruction ∈ pushes, instruction.pushed?.isSome = true)
      (size : pushes.length = 1) (kind : next.op.kind = .jump) (bare : next.constants = none) :
      Window .fuseJumps pushes next
  | jumpIf {pushes : List Instruction} {next : Instruction}
      (pushed : ∀ instruction ∈ pushes, instruction.pushed?.isSome = true)
      (size : pushes.length = 2) (kind : next.op.kind = .jumpIf) (bare : next.constants = none) :
      Window .fuseJumps pushes next
  /-- Shuffles and jumps, and whatever takes nothing or has its constants, are left alone. -/
  | operands {pushes : List Instruction} {next : Instruction}
      (pushed : ∀ instruction ∈ pushes, instruction.pushed?.isSome = true)
      (size : pushes.length = next.op.pops) (takes : next.op.pops ≠ 0)
      (shuffle : next.op.isShuffle = false) (jump : next.op.isJump = false)
      (bare : next.constants = none) :
      Window .foldOperands pushes next
  | constants {next : Instruction} {operator : Operator} {words : List Word} {value : Word}
      (computes : next.op.operator = some operator) (carried : next.constants = some words)
      (size : words.length = next.op.pops) (computed : operator.compute? words = some value) :
      Window .foldConstants [] next

/-- Whether a pass can rewrite something in a stream. -/
def HasWindow (pass : Pass) (stream : List Instruction) : Prop :=
  ∃ front window next back, stream = front ++ window ++ next :: back ∧ pass.Window window next

theorem isSome_fuseJump_iff :
    (Rule.fuseJump front.reverse next).isSome = true ↔
      ∃ earlier window, front = earlier ++ window ∧ fuseJumps.Window window next := by
  rw [Rule.fuseJump_eq]
  constructor
  · intro fires
    split at fires
    · cases fires
    next bare =>
      rw [Bool.not_eq_true, Option.isSome_eq_false_iff, Option.isNone_iff_eq_none] at bare
      split at fires
      next kind =>
        rw [Option.isSome_map, Rule.isSome_pushedBefore?_reverse_iff] at fires
        rcases fires with ⟨earlier, pushes, parts, size, pushed⟩
        exact ⟨earlier, pushes, parts, .jump pushed size kind bare⟩
      next kind =>
        rw [Option.isSome_map, Rule.isSome_pushedBefore?_reverse_iff] at fires
        rcases fires with ⟨earlier, pushes, parts, size, pushed⟩
        exact ⟨earlier, pushes, parts, .jumpIf pushed size kind bare⟩
      · cases fires
  · rintro ⟨earlier, window, parts, windowed⟩
    cases windowed with
    | jump pushed size kind bare | jumpIf pushed size kind bare =>
        simp only [bare, kind, Option.isSome_none, Bool.false_eq_true, if_false,
          Option.isSome_map]
        exact Rule.isSome_pushedBefore?_reverse_iff.mpr ⟨earlier, window, parts, size, pushed⟩

theorem isSome_foldOperands_iff :
    (Rule.foldOperands front.reverse next).isSome = true ↔
      ∃ earlier window, front = earlier ++ window ∧ foldOperands.Window window next := by
  constructor
  · intro fires
    by_cases accepts : Rule.acceptsConstants next = true
    · rw [Rule.foldOperands_of_accepts accepts, Option.isSome_map,
        Rule.isSome_pushedBefore?_reverse_iff] at fires
      rcases fires with ⟨earlier, pushes, parts, size, pushed⟩
      rcases Rule.acceptsConstants_iff.mp accepts with ⟨shuffle, jump, bare, takes⟩
      exact ⟨earlier, pushes, parts, .operands pushed size takes shuffle jump bare⟩
    · rw [Rule.foldOperands, if_neg accepts] at fires
      cases fires
  · rintro ⟨earlier, window, parts, windowed⟩
    cases windowed with
    | operands pushed size takes shuffle jump bare =>
        have accepts := Rule.acceptsConstants_iff.mpr ⟨shuffle, jump, bare, takes⟩
        rw [Rule.foldOperands_of_accepts accepts, Option.isSome_map]
        exact Rule.isSome_pushedBefore?_reverse_iff.mpr ⟨earlier, window, parts, size, pushed⟩

/-- Folding constants looks at one instruction only, so its windows are empty. -/
theorem isSome_foldConstants_iff :
    (Rule.foldConstants front.reverse next).isSome = true ↔
      ∃ earlier window, front = earlier ++ window ∧ foldConstants.Window window next := by
  rw [Rule.foldConstants_eq, Option.isSome_map, Option.isSome_iff_exists]
  constructor
  · rintro ⟨value, result⟩
    simp only [Instruction.result?, Option.bind_eq_bind, Option.bind_eq_some_iff] at result
    obtain ⟨operator, computes, words, carried, computed⟩ := result
    split at computed
    next size => exact ⟨front, [], by simp, .constants computes carried size computed⟩
    · cases computed
  · rintro ⟨earlier, window, parts, windowed⟩
    cases windowed with
    | @constants _ operator words value computes carried size computed =>
        exact ⟨value, by simp [Instruction.result?, computes, carried, size, computed]⟩

/-- A rule fires at an instruction if a window of its pass ends there. -/
theorem isSome_rule_iff :
    (pass.rule front.reverse next).isSome = true ↔
      ∃ earlier window, front = earlier ++ window ∧ pass.Window window next := by
  cases pass with
  | fuseJumps => exact isSome_fuseJump_iff
  | foldOperands => exact isSome_foldOperands_iff
  | foldConstants => exact isSome_foldConstants_iff

theorem exhausted_rule_iff : pass.rule.Exhausted stream ↔ ¬pass.HasWindow stream := by
  constructor
  · rintro exhausted ⟨front, window, next, back, parts, windowed⟩
    have fires := isSome_rule_iff.mpr ⟨front, window, rfl, windowed⟩
    rw [exhausted _ next back parts] at fires
    cases fires
  · intro windowless front next back parts
    by_contra fires
    rcases isSome_rule_iff.mp (Option.isSome_iff_ne_none.mpr fires) with
      ⟨earlier, window, rfl, windowed⟩
    exact windowless ⟨earlier, window, next, back, parts, windowed⟩

/-- One scan of a pass is complete. A second scan right after it fires nowhere and changes nothing.
Wherever the cursor of the first scan stands, no window is left behind it, so none is left at the
end. A scan that never fires has met a stream without windows. -/
theorem scan_complete (pass : Pass) (stream : List Instruction) :
    pass.rule.scan (pass.rule.scan stream).instructions =
        ⟨(pass.rule.scan stream).instructions, 0⟩ ∧
      (∀ cursor, ¬pass.HasWindow (pass.rule.scan (stream.take cursor)).instructions) ∧
      ¬pass.HasWindow (pass.rule.scan stream).instructions ∧
      ((pass.rule.scan stream).count = 0 ↔ ¬pass.HasWindow stream) := by
  have windowless : ∀ front, ¬pass.HasWindow (pass.rule.scan front).instructions := by
    intro front
    exact exhausted_rule_iff.mp (pass.final_rule.exhausted_scan front)
  refine ⟨?_, fun cursor => windowless _, windowless stream, ?_⟩
  · exact (pass.final_rule.exhausted_scan stream).scan_eq
  · rw [Rule.count_scan_eq_zero_iff, exhausted_rule_iff]

end Pass

end EvmLift
