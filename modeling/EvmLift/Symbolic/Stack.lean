import EvmLift.Symbolic.Value

/-!
# The symbolic stack

A block runs on a stack of which only the part that it touches is known. Slots that
the block pushed are live values. Reading below them yields the next parameter, as
if the stack went on with all parameters in order.
-/

namespace EvmLift

/-- The known part of a stack. -/
structure SymbolicStack where
  /-- The live values, top first. -/
  items : List Value := []
  /-- The number of parameters that have been read. -/
  params : Nat := 0
  deriving Repr, DecidableEq

namespace SymbolicStack

/-- Put a value on top. -/
def push (stack : SymbolicStack) (value : Value) : SymbolicStack :=
  { stack with items := value :: stack.items }

/-- Take the top value, or the next parameter if no live value is left. -/
def pop (stack : SymbolicStack) : Value × SymbolicStack :=
  match stack.items with
  | top :: rest => (top, { stack with items := rest })
  | [] => (.param stack.params, { stack with params := stack.params + 1 })

/-- Take several values, top first. -/
def popMany (stack : SymbolicStack) : Nat → List Value × SymbolicStack
  | 0 => ([], stack)
  | count + 1 =>
      let (top, rest) := stack.pop
      let (values, remaining) := rest.popMany count
      (top :: values, remaining)

/-- Taking values drops the live ones from the top. -/
theorem items_popMany (stack : SymbolicStack) (count : Nat) :
    (stack.popMany count).2.items = stack.items.drop count := by
  induction count generalizing stack with
  | zero => rfl
  | succ count ih =>
      rw [popMany]
      simp only [ih]
      cases live : stack.items <;> simp [pop, live]

/-- Every value beyond the live ones counts one parameter. -/
theorem params_popMany (stack : SymbolicStack) (count : Nat) :
    (stack.popMany count).2.params = stack.params + (count - stack.items.length) := by
  induction count generalizing stack with
  | zero => simp [popMany]
  | succ count ih =>
      rw [popMany]
      simp only [ih]
      cases live : stack.items with
      | nil =>
          simp [pop, live]
          omega
      | cons top rest => simp [pop, live]

/-- The taken values are live ones from the top and then parameters in order. -/
theorem values_popMany (stack : SymbolicStack) (count : Nat) :
    (stack.popMany count).1 =
      stack.items.take count ++
        (List.range' stack.params (count - stack.items.length)).map Value.param := by
  induction count generalizing stack with
  | zero => simp [popMany]
  | succ count ih =>
      rw [popMany]
      simp only [ih]
      cases live : stack.items with
      | nil => simp [pop, live, List.range'_succ]
      | cons top rest => simp [pop, live]

@[simp] theorem length_popMany (stack : SymbolicStack) (count : Nat) :
    (stack.popMany count).1.length = count := by
  simp [values_popMany]
  omega

/-- Put values on top; the first becomes the new top. -/
def pushAll (stack : SymbolicStack) (values : List Value) : SymbolicStack :=
  { stack with items := values ++ stack.items }

/-- Copy the value at a depth, counted from one, to the top. At depth zero there is
nothing to copy. -/
def dup (stack : SymbolicStack) (depth : Nat) : SymbolicStack :=
  let (values, rest) := stack.popMany depth
  match values.getLast? with
  | some copied => rest.pushAll (copied :: values)
  | none => stack

/-- A list with its first and last elements exchanged. -/
def exchangeEnds {α : Type} : List α → List α
  | [] => []
  | first :: rest =>
      match rest.getLast? with
      | some last => last :: (rest.dropLast ++ [first])
      | none => [first]

/-- Exchange the top with the value at a depth, counted from zero. -/
def swap (stack : SymbolicStack) (depth : Nat) : SymbolicStack :=
  let (values, rest) := stack.popMany (depth + 1)
  rest.pushAll (exchangeEnds values)

/-- Read several values, top first, and leave the live ones. Each read below them
counts one more parameter, which does not become a live value. -/
def peekMany (stack : SymbolicStack) (count : Nat) : List Value × SymbolicStack :=
  let missing := count - stack.items.length
  (stack.items.take count ++ (List.range' stack.params missing).map Value.param,
    { stack with params := stack.params + missing })

end SymbolicStack

end EvmLift
