import EvmLift.Proofs.UnboundedStack

/-!
# Peeking below the live values

Peeking returns the values that taking them would return, and leaves the live ones. The parameters
among them are counted as read and do not become live, so they are gone for whatever reads next:
peeking is repeatable just where it stays among the live values. How many of these there are follows
from the calls on a stack alone.
-/

namespace EvmLift

namespace SymbolicStack

theorem values_peekMany (stack : SymbolicStack) (count : Nat) :
    (stack.peekMany count).1 = (stack.popMany count).1 :=
  (stack.values_popMany count).symm

/-- Peeked parameters are taken from below the live values. -/
theorem view_peekMany (stack : SymbolicStack) (count : Nat) :
    (stack.peekMany count).2.view =
      stack.items ++ₛ stack.view.drop (max count stack.items.length) := by
  have read : max count stack.items.length - stack.items.length = count - stack.items.length := by
    omega
  rw [view, view, drop_onto, List.drop_eq_nil_of_le (Nat.le_max_right _ _), read, append_onto,
    List.append_nil]
  rfl

/-- Parameters from different numbers on differ, unless there are none. -/
theorem map_param_range'_eq_iff {first second count : Nat} :
    (List.range' first count).map Value.param = (List.range' second count).map Value.param ↔
      count = 0 ∨ first = second := by
  cases count with
  | zero => simp
  | succ count =>
      constructor
      · intro same
        rw [List.range'_succ, List.range'_succ, List.map_cons, List.map_cons] at same
        exact .inr (Value.param.inj (List.cons.inj same).1)
      · rintro (none | rfl)
        · cases none
        · rfl

/-- Taking values after peeking at as many returns the same ones just where all are live. -/
theorem values_popMany_peekMany_iff {stack : SymbolicStack} {count : Nat} :
    ((stack.peekMany count).2.popMany count).1 = (stack.peekMany count).1 ↔
      count ≤ stack.items.length := by
  rw [values_popMany, peekMany, List.append_cancel_left_eq, map_param_range'_eq_iff]
  dsimp only
  omega

end SymbolicStack

namespace StackOp

variable {α : Type}

/-- The number of slots that an operation leaves in place of those that it touches. -/
def placed : StackOp α → Nat
  | push _ => 1
  | pop | popMany _ => 0
  | dup depth _ | swap depth => depth + 1

theorem length_replaced {op : StackOp α} {values : List α} (touched : values.length = op.reach) :
    (op.replaced values).length = op.placed := by
  cases op with
  | push | pop | popMany => rfl
  | dup depth positive =>
      have copied : values ≠ [] := by
        apply List.ne_nil_of_length_pos
        rw [touched]
        exact positive
      rw [replaced, List.getLast?_eq_some_getLast copied, Option.toList_some, List.length_append,
        touched]
      exact Nat.add_comm 1 depth
  | swap depth => exact (SymbolicStack.length_exchangeEnds values).trans touched

theorem length_items_apply (op : StackOp Value) (stack : SymbolicStack) :
    (op.apply stack).2.items.length = op.placed + (stack.items.length - op.reach) := by
  rw [apply_eq, SymbolicStack.pushAll, List.length_append, SymbolicStack.items_popMany,
    List.length_drop, length_replaced (stack.length_popMany op.reach)]

end StackOp

/-- A call on a stack: one of its operations, a copy from depth zero, which copies nothing, or a
look at the topmost values. -/
inductive StackCall where
  | act (op : StackOp Value)
  | dupZero
  | peek (count : Nat)

namespace StackCall

/-- The stack that a call leaves. -/
def leave : StackCall → SymbolicStack → SymbolicStack
  | act op, stack => (op.apply stack).2
  | dupZero, stack => stack.dup 0
  | peek count, stack => (stack.peekMany count).2

/-- The stack after calls on an empty one. -/
def after (calls : List StackCall) : SymbolicStack :=
  calls.foldl (fun stack call => call.leave stack) {}

/-- The number of live values that a call leaves. -/
def liveAfter : StackCall → Nat → Nat
  | act op, live => op.placed + (live - op.reach)
  | dupZero, live | peek _, live => live

/-- The number of live values after calls on an empty stack. -/
def live (calls : List StackCall) : Nat :=
  calls.foldl (fun live call => call.liveAfter live) 0

theorem length_items_leave (call : StackCall) (stack : SymbolicStack) :
    (call.leave stack).items.length = call.liveAfter stack.items.length := by
  cases call with
  | act op => exact op.length_items_apply stack
  | dupZero | peek count => rfl

theorem length_items_after (calls : List StackCall) : (after calls).items.length = live calls := by
  induction calls using List.reverseRecOn with
  | nil => rfl
  | append_singleton calls call ih =>
      rw [after, live, List.foldl_append, List.foldl_append]
      change (call.leave (after calls)).items.length = call.liveAfter (live calls)
      rw [length_items_leave, ih]

/-- Peeking after any calls returns what taking would return. It leaves the live values on top of
what is below the values that were peeked at, and the next read of as many values returns the same
ones exactly if there are as many live ones. -/
theorem peek_repeats_iff (calls : List StackCall) (count : Nat) :
    let stack := after calls
    let peeked := stack.peekMany count
    peeked.1 = (stack.popMany count).1 ∧
      peeked.2.view = stack.items ++ₛ stack.view.drop (max count (live calls)) ∧
      ((peeked.2.popMany count).1 = peeked.1 ↔ count ≤ live calls) ∧
      ((peeked.2.peekMany count).1 = peeked.1 ↔ count ≤ live calls) := by
  have repeats : (((after calls).peekMany count).2.popMany count).1 =
      ((after calls).peekMany count).1 ↔ count ≤ live calls := by
    rw [← length_items_after]
    exact SymbolicStack.values_popMany_peekMany_iff
  refine ⟨SymbolicStack.values_peekMany _ _, ?_, repeats, ?_⟩
  · rw [← length_items_after]
    exact SymbolicStack.view_peekMany _ _
  · rw [SymbolicStack.values_peekMany]
    exact repeats

/-- Peeking at an empty stack consumes a parameter. -/
theorem not_forall_peek_repeats :
    ¬ ∀ (calls : List StackCall) (count : Nat),
      (((after calls).peekMany count).2.popMany count).1 =
          ((after calls).peekMany count).1 ∧
        (((after calls).peekMany count).2.peekMany count).1 =
          ((after calls).peekMany count).1 := by
  intro repeats
  exact absurd (repeats [] 1).1 (by decide)

end StackCall

end EvmLift
