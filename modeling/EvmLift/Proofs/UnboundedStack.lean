import EvmLift.Proofs.Lifting.Step
import Mathlib.Data.Set.Card
import Mathlib.Data.Stream.Init
import Mathlib.Logic.Equiv.Basic

/-!
# The symbolic stack as a stack without a bottom

A symbolic stack stands for the stack that has its live values on top and all parameters that were
not yet read below them. On this stack every operation does what it does on a stack without a bottom
that holds the parameters at first, and the number of parameters read so far is the number of first
elements that an operation has ever touched.
-/

namespace EvmLift

/-- An operation on a stack. The copied slot is counted from one, the exchanged one from zero. -/
inductive StackOp (α : Type) where
  | push (value : α)
  | pop
  | popMany (count : Nat)
  | dup (depth : Nat) (positive : 0 < depth)
  | swap (depth : Nat)

namespace StackOp

variable {α : Type}

/-! ## Operations on a stack without a bottom -/

/-- The values that an operation returns, and the stack that it leaves. -/
def act : StackOp α → Stream' α → List α × Stream' α
  | push value, stack => ([], .cons value stack)
  | pop, stack => ([stack.head], stack.tail)
  | popMany count, stack => (stack.take count, stack.drop count)
  | dup depth _, stack => ([], .cons (stack.get (depth - 1)) stack)
  | swap depth, stack => ([], fun index => stack.get (Equiv.swap 0 depth index))

/-- The number of slots that an operation touches, from the top on. -/
def reach : StackOp α → Nat
  | push _ => 0
  | pop => 1
  | popMany count => count
  | dup depth _ => depth
  | swap depth => depth + 1

/-- What is returned of the touched values. -/
def returned : StackOp α → List α → List α
  | pop, values | popMany _, values => values
  | _, _ => []

/-- What takes the place of the touched values. -/
def replaced : StackOp α → List α → List α
  | push value, _ => [value]
  | pop, _ | popMany _, _ => []
  | dup _ _, values => values.getLast?.toList ++ values
  | swap _, values => SymbolicStack.exchangeEnds values

theorem get_take_append_of_lt {stack below : Stream' α} {count index : Nat}
    (inside : index < count) : (stack.take count ++ₛ below).get index = stack.get index := by
  have listed : index < (stack.take count).length := by rwa [Stream'.length_take]
  apply Option.some.inj
  rw [Stream'.get_append_left _ _ _ listed, ← List.getElem?_eq_getElem listed,
    Stream'.getElem?_take inside]

theorem get_take_append_add (stack below : Stream' α) (count index : Nat) :
    (stack.take count ++ₛ below).get (count + index) = below.get index := by
  have behind := Stream'.get_append_right index (stack.take count) below
  rwa [Stream'.length_take] at behind

/-- Exchanging the ends of the topmost slots exchanges two slots and leaves all others. -/
theorem exchangeEnds_take_append (stack : Stream' α) (depth : Nat) :
    SymbolicStack.exchangeEnds (stack.take (depth + 1)) ++ₛ stack.drop (depth + 1) =
      fun index => stack.get (Equiv.swap 0 depth index) := by
  cases depth with
  | zero =>
      rw [Equiv.swap_self]
      exact Stream'.append_stream_head_tail stack
  | succ depth =>
      have ends : SymbolicStack.exchangeEnds (stack.take (depth + 1 + 1)) =
          stack.get (depth + 1) :: (stack.tail.take depth ++ [stack.head]) := by
        rw [Stream'.take_succ, Stream'.take_succ']
        simp [SymbolicStack.exchangeEnds]
      rw [ends, Stream'.cons_append_stream, Stream'.append_append_stream]
      apply Stream'.ext
      intro index
      change _ = stack.get (Equiv.swap 0 (depth + 1) index)
      rw [Equiv.swap_apply_def]
      cases index with
      | zero => rfl
      | succ index =>
          rw [Stream'.get_succ_cons, if_neg (Nat.succ_ne_zero index)]
          rcases Nat.lt_or_ge index depth with above | behind
          · rw [get_take_append_of_lt above, if_neg (by omega)]
            rfl
          · obtain ⟨further, rfl⟩ := Nat.exists_eq_add_of_le behind
            rw [get_take_append_add]
            cases further with
            | zero =>
                rw [if_pos rfl]
                rfl
            | succ further =>
                rw [if_neg (by omega)]
                change (stack.drop (depth + 1 + 1)).get further = _
                rw [Stream'.get_drop]
                congr 1
                omega

theorem getLast?_take {stack : Stream' α} {depth : Nat} (positive : 0 < depth) :
    (stack.take depth).getLast? = some (stack.get (depth - 1)) := by
  cases depth with
  | zero => exact absurd positive (Nat.lt_irrefl 0)
  | succ depth => rw [Stream'.take_succ', List.getLast?_concat, Nat.add_sub_cancel]

/-- An operation takes the slots that it touches and puts others in their place. -/
theorem act_eq (op : StackOp α) (stack : Stream' α) :
    op.act stack = (op.returned (stack.take op.reach),
      op.replaced (stack.take op.reach) ++ₛ stack.drop op.reach) := by
  cases op with
  | push | pop | popMany => rfl
  | dup depth positive =>
      rw [replaced, reach, getLast?_take positive, Stream'.append_append_stream,
        Stream'.append_take_drop]
      rfl
  | swap depth =>
      rw [replaced, reach, exchangeEnds_take_append]
      rfl

/-! ## Operations on a symbolic stack -/

/-- The values that an operation returns, and the symbolic stack that it leaves. -/
def apply : StackOp Value → SymbolicStack → List Value × SymbolicStack
  | push value, stack => ([], stack.push value)
  | pop, stack => ([stack.pop.1], stack.pop.2)
  | popMany count, stack => stack.popMany count
  | dup depth _, stack => ([], stack.dup depth)
  | swap depth, stack => ([], stack.swap depth)

theorem apply_eq (op : StackOp Value) (stack : SymbolicStack) :
    op.apply stack = (op.returned (stack.popMany op.reach).1,
      (stack.popMany op.reach).2.pushAll (op.replaced (stack.popMany op.reach).1)) := by
  cases op with
  | push | pop | popMany | swap => rfl
  | dup depth positive =>
      rw [apply, SymbolicStack.dup_eq]
      rfl

end StackOp

namespace SymbolicStack

variable {α : Type}

/-- A stack of given values on top of what is left of a numbered supply. -/
def onto (items : List α) (taken : Nat) (supply : Nat → α) : Stream' α :=
  items ++ₛ fun index => supply (taken + index)

/-- The live values on top of all parameters that were not yet read. -/
def view (stack : SymbolicStack) : Stream' Value :=
  onto stack.items stack.params Value.param

theorem tail_onto_nil (taken : Nat) (supply : Nat → α) :
    (onto [] taken supply).tail = onto [] (taken + 1) supply := by
  apply Stream'.ext
  intro index
  change supply (taken + (index + 1)) = supply (taken + 1 + index)
  rw [Nat.add_right_comm, Nat.add_assoc]

theorem take_onto (items : List α) (taken count : Nat) (supply : Nat → α) :
    (onto items taken supply).take count =
      items.take count ++ (List.range' taken (count - items.length)).map supply := by
  induction count generalizing items taken with
  | zero => simp
  | succ count ih =>
      rw [Stream'.take_succ]
      cases items with
      | nil =>
          have head : (onto [] taken supply).head = supply taken := rfl
          rw [tail_onto_nil, ih, head]
          simp [List.range'_succ]
      | cons top items =>
          have head : (onto (top :: items) taken supply).head = top := rfl
          have below : (onto (top :: items) taken supply).tail = onto items taken supply := rfl
          rw [head, below, ih]
          simp

theorem drop_onto (items : List α) (taken count : Nat) (supply : Nat → α) :
    (onto items taken supply).drop count =
      onto (items.drop count) (taken + (count - items.length)) supply := by
  induction count generalizing items taken with
  | zero => simp
  | succ count ih =>
      rw [Stream'.drop_succ]
      cases items with
      | nil =>
          rw [tail_onto_nil, ih]
          simp [Nat.add_comm, Nat.add_left_comm]
      | cons top items =>
          have below : (onto (top :: items) taken supply).tail = onto items taken supply := rfl
          rw [below, ih]
          simp

theorem append_onto (values items : List α) (taken : Nat) (supply : Nat → α) :
    values ++ₛ onto items taken supply = onto (values ++ items) taken supply :=
  (Stream'.append_append_stream _ _ _).symm

theorem take_view (stack : SymbolicStack) (count : Nat) :
    stack.view.take count = (stack.popMany count).1 := by
  rw [view, take_onto, values_popMany]

theorem drop_view (stack : SymbolicStack) (count : Nat) :
    stack.view.drop count = (stack.popMany count).2.view := by
  rw [view, drop_onto, view, items_popMany, params_popMany]

theorem view_pushAll (stack : SymbolicStack) (values : List Value) :
    (stack.pushAll values).view = values ++ₛ stack.view :=
  Stream'.append_append_stream _ _ _

end SymbolicStack

namespace StackOp

variable {α β State Other : Type}

/-- One operation does to the view of a symbolic stack what it does to the stack. -/
theorem act_view (op : StackOp Value) (stack : SymbolicStack) :
    op.act stack.view = ((op.apply stack).1, (op.apply stack).2.view) := by
  rw [act_eq, apply_eq, SymbolicStack.view_pushAll, SymbolicStack.take_view,
    SymbolicStack.drop_view]

/-! ## Histories of operations -/

/-- Perform operations one after the other. The values that each of them returns are collected. -/
def perform (act : StackOp α → State → List α × State) (state : State) :
    List (StackOp α) → List (List α) × State
  | [] => ([], state)
  | op :: rest =>
      let (values, next) := act op state
      let (others, final) := perform act next rest
      (values :: others, final)

/-- Where one operation does the same to states and to what they stand for, a history does. -/
theorem perform_of_simulates {first : StackOp α → State → List α × State}
    {second : StackOp α → Other → List α × Other} {image : State → Other}
    (simulates : ∀ op state,
      second op (image state) = ((first op state).1, image (first op state).2))
    (state : State) (ops : List (StackOp α)) :
    perform second (image state) ops =
      ((perform first state ops).1, image (perform first state ops).2) := by
  induction ops generalizing state with
  | nil => rfl
  | cons op rest ih => simp only [perform, simulates, ih]

theorem snd_perform_concat (act : StackOp α → State → List α × State) (state : State)
    (ops : List (StackOp α)) (op : StackOp α) :
    (perform act state (ops ++ [op])).2 = (act op (perform act state ops).2).2 := by
  induction ops generalizing state with
  | nil => rfl
  | cons first rest ih => exact ih (act first state).2

/-- The symbolic stack after operations on an empty one. -/
def symbolic (ops : List (StackOp Value)) : SymbolicStack :=
  (perform apply {} ops).2

theorem symbolic_concat (ops : List (StackOp Value)) (op : StackOp Value) :
    symbolic (ops ++ [op]) = (op.apply (symbolic ops)).2 :=
  snd_perform_concat apply {} ops op

theorem params_apply (op : StackOp Value) (stack : SymbolicStack) :
    (op.apply stack).2.params = stack.params + (op.reach - stack.items.length) := by
  rw [apply_eq]
  exact stack.params_popMany op.reach

/-! ## First elements -/

/-- The same operation on other elements. -/
def map (image : α → β) : StackOp α → StackOp β
  | push value => push (image value)
  | pop => pop
  | popMany count => popMany count
  | dup depth positive => dup depth positive
  | swap depth => swap depth

@[simp] theorem reach_map (op : StackOp α) (image : α → β) : (op.map image).reach = op.reach := by
  cases op <;> rfl

theorem length_replaced_map (op : StackOp α) (image : α → β) {values : List α} {others : List β}
    (same : others.length = values.length) :
    ((op.map image).replaced others).length = (op.replaced values).length := by
  cases op with
  | push | pop | popMany => rfl
  | dup depth positive =>
      rcases values.eq_nil_or_concat with rfl | ⟨values, last, rfl⟩
      · rw [List.eq_nil_of_length_eq_zero same]
        rfl
      · rcases others.eq_nil_or_concat with rfl | ⟨others, other, rfl⟩
        · simp at same
        · simpa [map, replaced] using same
  | swap depth =>
      simpa only [map, replaced, SymbolicStack.length_exchangeEnds] using same

/-- The stack after operations, if its first elements are numbered and pushed ones have no
number. -/
def numbered (ops : List (StackOp α)) : Stream' (Option Nat) :=
  (perform act some (ops.map (map fun _ => none))).2

/-- A first element that an operation touches, wherever it has come to stand. -/
def Reached (ops : List (StackOp α)) (index : Nat) : Prop :=
  ∃ before op after, ops = before ++ op :: after ∧ some index ∈ (numbered before).take op.reach

theorem numbered_concat (ops : List (StackOp α)) (op : StackOp α) :
    numbered (ops ++ [op]) = ((op.map fun _ => none).act (numbered ops)).2 := by
  rw [numbered, List.map_append]
  exact snd_perform_concat act some _ _

theorem reached_concat {ops : List (StackOp α)} {op : StackOp α} {index : Nat} :
    Reached (ops ++ [op]) index ↔
      Reached ops index ∨ some index ∈ (numbered ops).take op.reach := by
  constructor
  · rintro ⟨before, other, after, parts, touched⟩
    rcases after.eq_nil_or_concat with rfl | ⟨after, last, rfl⟩
    · rcases List.append_inj' parts rfl with ⟨rfl, same⟩
      rw [← List.head_eq_of_cons_eq same] at touched
      exact .inr touched
    · rw [List.concat_eq_append, ← List.cons_append, ← List.append_assoc] at parts
      exact .inl ⟨before, other, after, (List.append_inj' parts rfl).1, touched⟩
  · rintro (⟨before, other, after, rfl, touched⟩ | touched)
    · exact ⟨before, other, after ++ [op], by simp, touched⟩
    · exact ⟨ops, op, [], rfl, touched⟩

/-- Numbers that stand for the slots of a symbolic stack: those of live values are below the number
of parameters, and those of the parameters follow. -/
structure Numbers (stack : SymbolicStack) (numbers : List (Option Nat)) : Prop where
  size : numbers.length = stack.items.length
  below : ∀ index, some index ∈ numbers → index < stack.params

/-- What is touched for the first time are the parameters that are read next. -/
theorem Numbers.mem_take_iff {stack : SymbolicStack} {numbers : List (Option Nat)}
    (live : Numbers stack numbers) (count index : Nat) :
    index < stack.params ∨
        some index ∈ (SymbolicStack.onto numbers stack.params some).take count ↔
      index < stack.params + (count - stack.items.length) := by
  have next : some index ∈ (List.range' stack.params (count - stack.items.length)).map some ↔
      stack.params ≤ index ∧ index < stack.params + (count - stack.items.length) := by
    simp [List.mem_range'_1]
  rw [SymbolicStack.take_onto, live.size, List.mem_append, next]
  constructor
  · rintro (known | top | fresh)
    · omega
    · have known := live.below index (List.mem_of_mem_take top)
      omega
    · exact fresh.2
  · omega

theorem some_mem_of_mem_replaced {op : StackOp α} {index : Nat} {values : List (Option Nat)}
    (member : some index ∈ (op.map fun _ => none).replaced values) : some index ∈ values := by
  cases op with
  | push | pop | popMany => simp [map, replaced] at member
  | dup depth positive =>
      rw [map, replaced, List.mem_append, Option.mem_toList] at member
      exact member.elim (fun last => List.mem_of_getLast? last) id
  | swap depth => exact SymbolicStack.mem_exchangeEnds.mp member

/-- An operation moves the numbers of live values along, and makes no new ones. -/
theorem Numbers.apply {stack : SymbolicStack} {numbers : List (Option Nat)}
    (live : Numbers stack numbers) (op : StackOp Value) :
    Numbers (op.apply stack).2
      ((op.map fun _ => none).replaced
        ((SymbolicStack.onto numbers stack.params some).take op.reach) ++
          numbers.drop op.reach) where
  size := by
    have touched : ((SymbolicStack.onto numbers stack.params some).take op.reach).length =
        (stack.popMany op.reach).1.length := by
      rw [Stream'.length_take, SymbolicStack.length_popMany]
    rw [apply_eq, SymbolicStack.pushAll, List.length_append, List.length_append,
      op.length_replaced_map _ touched, SymbolicStack.items_popMany, List.length_drop,
      List.length_drop, live.size]
  below := by
    intro index member
    rw [params_apply, ← live.mem_take_iff op.reach index]
    rcases List.mem_append.mp member with placed | deep
    · exact .inr (some_mem_of_mem_replaced placed)
    · exact .inl (live.below index (List.mem_of_mem_drop deep))

/-- The numbered stack follows the symbolic one. -/
theorem exists_numbers (ops : List (StackOp Value)) :
    ∃ numbers, Numbers (symbolic ops) numbers ∧
      numbered ops = SymbolicStack.onto numbers (symbolic ops).params some := by
  induction ops using List.reverseRecOn with
  | nil =>
      refine ⟨[], ⟨rfl, by simp⟩, ?_⟩
      apply Stream'.ext
      intro index
      change some index = some (0 + index)
      rw [Nat.zero_add]
  | append_singleton ops op ih =>
      rcases ih with ⟨numbers, live, equal⟩
      rw [numbered_concat, symbolic_concat, params_apply, equal, act_eq, reach_map,
        SymbolicStack.drop_onto, SymbolicStack.append_onto, live.size]
      exact ⟨_, live.apply op, rfl⟩

theorem reached_iff {ops : List (StackOp Value)} {index : Nat} :
    Reached ops index ↔ index < (symbolic ops).params := by
  induction ops using List.reverseRecOn with
  | nil =>
      constructor
      · rintro ⟨before, op, after, parts, _⟩
        simp at parts
      · exact fun inside => absurd inside (Nat.not_lt_zero index)
  | append_singleton ops op ih =>
      rcases exists_numbers ops with ⟨numbers, live, equal⟩
      rw [reached_concat, ih, equal, live.mem_take_iff, symbolic_concat, params_apply]

/-- Symbolic stacks refine a stack without a bottom that holds the parameters at first. A history of
operations returns the same values on both, and the view of the one is the other. So does every
operation after it, and it never takes back a parameter. The parameters read so far are just the
first elements that some operation has touched. -/
theorem perform_refines (ops : List (StackOp Value)) :
    perform act Value.param ops = ((perform apply {} ops).1, (symbolic ops).view) ∧
      (∀ op : StackOp Value,
        op.act (symbolic ops).view =
            ((op.apply (symbolic ops)).1, (op.apply (symbolic ops)).2.view) ∧
          (symbolic ops).params ≤ (op.apply (symbolic ops)).2.params) ∧
      (∀ index, Reached ops index ↔ index < (symbolic ops).params) ∧
      {index | Reached ops index}.ncard = (symbolic ops).params := by
  have start : SymbolicStack.view {} = Value.param := by
    apply Stream'.ext
    intro index
    change Value.param (0 + index) = Value.param index
    rw [Nat.zero_add]
  have counted : {index | Reached ops index} = Finset.range (symbolic ops).params := by
    ext index
    simp [reached_iff]
  refine ⟨?_, ?_, fun index => reached_iff, ?_⟩
  · rw [← start]
    exact perform_of_simulates act_view {} ops
  · intro op
    refine ⟨op.act_view _, ?_⟩
    rw [params_apply]
    exact Nat.le_add_right _ _
  · rw [counted, Set.ncard_coe_finset, Finset.card_range]

end StackOp

end EvmLift
