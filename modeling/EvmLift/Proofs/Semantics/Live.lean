import EvmLift.Symbolic.Stack
import EvmLift.Proofs.Semantics.Observation
import EvmLift.Proofs.Standard

/-!
# Running instructions on words

The counterpart of symbolic execution on words. A block knows the words that it pushed
itself, and below them it finds its arguments in order. Instructions act on this part of
the stack and on what is seen, whatever names symbolic execution would give.
-/

namespace EvmLift

namespace SymbolicStack

theorem length_exchangeEnds {α : Type} (values : List α) :
    (exchangeEnds values).length = values.length := by
  cases values with
  | nil => rfl
  | cons first rest =>
      rcases rest.eq_nil_or_concat with rfl | ⟨others, last, rfl⟩ <;> simp [exchangeEnds]

theorem mem_exchangeEnds {α : Type} {values : List α} {value : α} :
    value ∈ exchangeEnds values ↔ value ∈ values := by
  cases values with
  | nil => rfl
  | cons first rest =>
      rcases rest.eq_nil_or_concat with rfl | ⟨others, last, rfl⟩
      · rfl
      · simp only [exchangeEnds, List.concat_eq_append, List.getLast?_concat,
          List.dropLast_concat, List.mem_cons, List.mem_append, List.not_mem_nil, or_false]
        grind

theorem map_exchangeEnds {α β : Type} (image : α → β) (values : List α) :
    (exchangeEnds values).map image = exchangeEnds (values.map image) := by
  cases values with
  | nil => rfl
  | cons first rest =>
      rcases rest.eq_nil_or_concat with rfl | ⟨others, last, rfl⟩ <;> simp [exchangeEnds]

end SymbolicStack

namespace Opcode

/-- What a shuffle makes of the values that it reaches, top first. -/
def rearrange {α : Type} (op : Opcode) (values : List α) : List α :=
  if op.kind = .dup then values.getLast?.toList ++ values
  else SymbolicStack.exchangeEnds values

theorem map_rearrange {α β : Type} (op : Opcode) (image : α → β) (values : List α) :
    (op.rearrange values).map image = op.rearrange (values.map image) := by
  unfold rearrange
  split
  · cases last : values.getLast? <;> simp [last, List.getLast?_map]
  · exact SymbolicStack.map_exchangeEnds image values

/-- A shuffle makes up no values. -/
theorem mem_of_mem_rearrange {α : Type} {op : Opcode} {values : List α} {value : α}
    (member : value ∈ op.rearrange values) : value ∈ values := by
  unfold rearrange at member
  split at member
  · rw [List.mem_append, Option.mem_toList] at member
    exact member.elim (fun last => List.mem_of_getLast? last) id
  · exact SymbolicStack.mem_exchangeEnds.mp member

end Opcode

/-- The part of a stack that a block has touched, with what was seen so far. -/
structure Live where
  /-- The live words, top first. -/
  items : List Word := []
  /-- The number of arguments that have been taken. -/
  params : Nat := 0
  seen : List Observation := []
  deriving Repr, DecidableEq

namespace Live

/-- The topmost words: live ones, and then arguments in order. -/
def top (args : Nat → Word) (live : Live) (count : Nat) : List Word :=
  live.items.take count ++ (List.range' live.params (count - live.items.length)).map args

/-- Remove the topmost words. -/
def drop (live : Live) (count : Nat) : Live :=
  { live with
    items := live.items.drop count
    params := live.params + (count - live.items.length) }

/-- Put words on top; the first becomes the new top. -/
def pushAll (live : Live) (words : List Word) : Live :=
  { live with items := words ++ live.items }

/-- Copy or exchange words. -/
def shuffle (args : Nat → Word) (live : Live) (op : Opcode) : Live :=
  (live.drop op.pops).pushAll (op.rearrange (live.top args op.pops))

/-- Meet a jump that passes on all live words. -/
def jump (live : Live) (offset : Nat) (operands : List Word) (condition : Option Word) : Live :=
  let destination := (operands.head?.map Destination.offset).getD .fault
  { live with seen := live.seen ++ [.jumped (some offset) destination condition live.items] }

/-- Perform an event and keep its results. -/
def perform (interpretation : Interpretation) (live : Live) (event : Event) : Live :=
  { live.pushAll (event.results (interpretation.answer live.seen event)).reverse with
    seen := live.seen ++ interpretation.sight event }

/-- Act on operands. -/
def act (interpretation : Interpretation) (live : Live) (instruction : Instruction)
    (operands : List Word) : Live :=
  match instruction.op.kind with
  | .jump => live.jump instruction.offset operands none
  | .jumpIf => live.jump instruction.offset operands operands[1]?
  | _ => live.perform interpretation ⟨instruction.offset, instruction.op, operands⟩

/-- The operands of an instruction, and what is left without them. -/
def fetch (args : Nat → Word) (live : Live) (instruction : Instruction) : List Word × Live :=
  match instruction.constants with
  | some words => (words, live)
  | none => (live.top args instruction.op.pops, live.drop instruction.op.pops)

theorem seen_fetch (args : Nat → Word) (live : Live) (instruction : Instruction) :
    (live.fetch args instruction).2.seen = live.seen := by
  unfold fetch
  split <;> rfl

/-- Execute one instruction. -/
def step (interpretation : Interpretation) (args : Nat → Word) (live : Live)
    (instruction : Instruction) : Live :=
  if instruction.op.isJumpDest then live
  else if instruction.op.isShuffle && instruction.constants.isNone then
    live.shuffle args instruction.op
  else
    (live.fetch args instruction).2.act interpretation instruction (live.fetch args instruction).1

section

variable {interpretation : Interpretation} {args : Nat → Word} {live : Live}
variable {instruction : Instruction}

theorem step_of_dest (dest : instruction.op.kind = .jumpDest) :
    live.step interpretation args instruction = live := by
  simp [step, Opcode.isJumpDest_iff.mpr dest]

theorem step_of_shuffle (shuffles : instruction.op.isShuffle = true)
    (bare : instruction.constants = none) :
    live.step interpretation args instruction = live.shuffle args instruction.op := by
  have notDest : instruction.op.isJumpDest = false := by
    rcases Opcode.isShuffle_iff.mp shuffles with kind | kind <;> simp [Opcode.isJumpDest, kind]
  simp [step, notDest, shuffles, bare]

theorem step_eq_act (notDest : instruction.op.kind ≠ .jumpDest)
    (notShuffle : instruction.op.isShuffle = true → instruction.constants ≠ none) :
    live.step interpretation args instruction =
      (live.fetch args instruction).2.act interpretation instruction
        (live.fetch args instruction).1 := by
  have notMoved : ¬(instruction.op.isShuffle && instruction.constants.isNone) = true := by
    simpa using notShuffle
  rw [step, if_neg (by simpa [Opcode.isJumpDest_iff] using notDest), if_neg notMoved]

/-- A jump only looks at the stack. -/
theorem act_of_isJump {operands : List Word} (jumps : instruction.op.isJump = true) :
    (live.act interpretation instruction operands).items = live.items ∧
      (live.act interpretation instruction operands).params = live.params := by
  rcases Opcode.isJump_iff.mp jumps with kind | kind <;> simp [act, kind, jump]

theorem act_of_not_isJump {operands : List Word} (notJump : instruction.op.isJump = false) :
    live.act interpretation instruction operands =
      live.perform interpretation ⟨instruction.offset, instruction.op, operands⟩ := by
  have other : ¬(instruction.op.kind = .jump ∨ instruction.op.kind = .jumpIf) := by
    rw [← Opcode.isJump_iff, notJump]
    exact Bool.false_ne_true
  unfold act
  split
  · exact absurd (.inl ‹_›) other
  · exact absurd (.inr ‹_›) other
  · rfl

/-- A push leaves the constant that it carries, and nobody sees it. -/
theorem step_push {word : Word} (push : instruction.op.kind = .push)
    (carried : instruction.constants = some [word]) :
    live.step interpretation args instruction = live.pushAll [word] := by
  have isPush := Opcode.isPush_iff.mpr push
  rw [step_eq_act (by simp [push]) (by simp [carried]),
    act_of_not_isJump (by simp [Opcode.isJump, push])]
  simp [fetch, carried, perform, pushAll, Event.results, isPush, Reading.sight,
    interpretation.push_silent _ isPush]

/-- Operands act alike on top of the stack and as constants. -/
theorem step_pushAll {words : List Word} (bare : instruction.constants = none)
    (notDest : instruction.op.kind ≠ .jumpDest) (notShuffle : instruction.op.isShuffle = false)
    (size : words.length = instruction.op.pops) :
    (live.pushAll words).step interpretation args instruction =
      live.step interpretation args { instruction with constants := some words } := by
  have taken : (live.pushAll words).fetch args instruction = (words, live) := by
    simp [fetch, bare, top, drop, pushAll, ← size]
  have carrying : live.step interpretation args { instruction with constants := some words } = _ :=
    step_eq_act notDest (by simp)
  rw [carrying, step_eq_act notDest (by simp [notShuffle]), taken]
  rfl

end

/-- Execute instructions in order. -/
def run (interpretation : Interpretation) (args : Nat → Word) (live : Live)
    (instructions : List Instruction) : Live :=
  instructions.foldl (step interpretation args) live

@[simp] theorem run_nil (interpretation : Interpretation) (args : Nat → Word) (live : Live) :
    live.run interpretation args [] = live := rfl

@[simp] theorem run_cons (interpretation : Interpretation) (args : Nat → Word) (live : Live)
    (instruction : Instruction) (rest : List Instruction) :
    live.run interpretation args (instruction :: rest) =
      (live.step interpretation args instruction).run interpretation args rest := rfl

theorem run_append (interpretation : Interpretation) (args : Nat → Word) (live : Live)
    (first second : List Instruction) :
    live.run interpretation args (first ++ second) =
      (live.run interpretation args first).run interpretation args second :=
  List.foldl_append

theorem params_le_drop (live : Live) (count : Nat) : live.params ≤ (live.drop count).params :=
  Nat.le_add_right _ _

theorem params_le_fetch (args : Nat → Word) (live : Live) (instruction : Instruction) :
    live.params ≤ (live.fetch args instruction).2.params := by
  unfold fetch
  split
  · exact Nat.le_refl _
  · exact live.params_le_drop _

/-- Acting adds to what was seen and takes no further arguments. -/
theorem act_grows (interpretation : Interpretation) (live : Live) (instruction : Instruction)
    (operands : List Word) :
    live.seen <+: (live.act interpretation instruction operands).seen ∧
      (live.act interpretation instruction operands).params = live.params := by
  unfold act
  split <;> exact ⟨List.prefix_append _ _, rfl⟩

/-- Nothing that was seen is forgotten, and no argument is given back. -/
theorem step_grows (interpretation : Interpretation) (args : Nat → Word) (live : Live)
    (instruction : Instruction) :
    live.seen <+: (live.step interpretation args instruction).seen ∧
      live.params ≤ (live.step interpretation args instruction).params := by
  unfold step
  split
  · exact ⟨List.prefix_rfl, Nat.le_refl _⟩
  · split
    · exact ⟨List.prefix_rfl, live.params_le_drop _⟩
    · have grows := act_grows interpretation (live.fetch args instruction).2 instruction
        (live.fetch args instruction).1
      rw [seen_fetch] at grows
      exact ⟨grows.1, grows.2 ▸ params_le_fetch args live instruction⟩

theorem run_grows (interpretation : Interpretation) (args : Nat → Word) (live : Live)
    (instructions : List Instruction) :
    live.seen <+: (live.run interpretation args instructions).seen ∧
      live.params ≤ (live.run interpretation args instructions).params := by
  induction instructions generalizing live with
  | nil => exact ⟨List.prefix_rfl, Nat.le_refl _⟩
  | cons instruction rest ih =>
      have first := step_grows interpretation args live instruction
      have others := ih (live.step interpretation args instruction)
      exact ⟨first.1.trans others.1, Nat.le_trans first.2 others.2⟩

end Live

end EvmLift
