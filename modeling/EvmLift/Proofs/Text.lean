import EvmLift.Text.Hex
import Mathlib.Data.List.Basic

/-!
# Reading text back

A text is cut at the first place where a mark stands, so what stands before and behind a
fresh mark is determined by the whole. The digits of a number are read back as that number,
so different numbers are written differently, and every character that is written is a
digit.
-/

namespace EvmLift

namespace Text

/-- What stands before the first mark, and what stands behind it. -/
theorem append_cons_inj {mark : Char} {front front' back back' : List Char}
    (fresh : mark ∉ front) (fresh' : mark ∉ front') :
    front ++ mark :: back = front' ++ mark :: back' ↔ front = front' ∧ back = back' := by
  constructor
  · intro same
    have cut := congrArg (List.splitOn mark) same
    rw [List.splitOn_append_cons_self_of_not_mem fresh,
      List.splitOn_append_cons_self_of_not_mem fresh'] at cut
    rw [(List.cons.inj cut).1] at same
    exact ⟨(List.cons.inj cut).1, (List.cons.inj (List.append_cancel_left same)).2⟩
  · rintro ⟨rfl, rfl⟩
    rfl

/-- What each item tells about itself, a list tells about its items. -/
theorem map_eq_of_map_eq {Item Tells Told : Type} {tells : Item → Tells} {told : Item → Told}
    {items others : List Item}
    (determines : ∀ item ∈ items, ∀ other ∈ others, tells item = tells other →
      told item = told other)
    (same : items.map tells = others.map tells) : items.map told = others.map told := by
  induction items generalizing others with
  | nil => rw [List.map_eq_nil_iff.mp same.symm]
  | cons item rest ih =>
      rcases List.map_eq_cons_iff.mp same.symm with ⟨other, rest', rfl, first, following⟩
      simp only [List.forall_mem_cons] at determines
      rw [List.map_cons, List.map_cons, determines.1.1 first.symm]
      rw [ih (fun item member => (determines.2 item member).2) following.symm]

theorem map_eq_map_iff {Item Tells Told : Type} {tells : Item → Tells} {told : Item → Told}
    {items others : List Item}
    (agree : ∀ item ∈ items, ∀ other ∈ others, tells item = tells other ↔
      told item = told other) :
    items.map tells = others.map tells ↔ items.map told = others.map told := by
  constructor
  · apply map_eq_of_map_eq
    intro item member other member'
    exact (agree item member other member').mp
  · apply map_eq_of_map_eq
    intro item member other member'
    exact (agree item member other member').mpr

end Text

namespace Hex

theorem digit?_digitChar : ∀ value < 16, digit? value.digitChar = some value := by
  decide

/-- One more digit at the end. -/
theorem nat?_concat (front : List Char) (last : Char) :
    nat? (front ++ [last]) =
      (nat? front).bind fun value => (digit? last).map (value * 16 + ·) := by
  simp [nat?]

/-- The last digit is the rest of the division by sixteen. -/
theorem digits_of_le {value : Nat} (large : 16 ≤ value) :
    digits value = digits (value / 16) ++ [(value % 16).digitChar] :=
  Nat.toDigits_of_base_le (by decide) large

theorem digits_of_lt {value : Nat} (small : value < 16) : digits value = [value.digitChar] :=
  Nat.toDigits_of_lt_base small

/-- The digits of a number are read back. -/
theorem nat?_digits (value : Nat) : nat? (digits value) = some value := by
  induction value using Nat.strongRecOn with
  | ind value ih =>
      rcases Nat.lt_or_ge value 16 with small | large
      · rw [digits_of_lt small]
        simp [nat?, digit?_digitChar value small]
      · have last : digit? (value % 16).digitChar = some (value % 16) :=
          digit?_digitChar _ (Nat.mod_lt value (by decide))
        have whole : value / 16 * 16 + value % 16 = value := by omega
        rw [digits_of_le large, nat?_concat, ih (value / 16) (by omega), last]
        simp [whole]

theorem digits_inj {first second : Nat} : digits first = digits second ↔ first = second := by
  constructor
  · intro same
    apply Option.some.inj
    rw [← nat?_digits first, ← nat?_digits second, same]
  · exact congrArg digits

theorem isSome_digit?_of_mem_digits {value : Nat} {character : Char}
    (member : character ∈ digits value) : (digit? character).isSome = true := by
  induction value using Nat.strongRecOn with
  | ind value ih =>
      rcases Nat.lt_or_ge value 16 with small | large
      · rw [digits_of_lt small, List.mem_singleton] at member
        rw [member, digit?_digitChar value small]
        rfl
      · rw [digits_of_le large, List.mem_append, List.mem_singleton] at member
        rcases member with before | rfl
        · exact ih (value / 16) (by omega) before
        · rw [digit?_digitChar _ (Nat.mod_lt value (by decide))]
          rfl

/-- No other character stands among the digits of a number. -/
theorem not_mem_digits {character : Char} (other : digit? character = none) (value : Nat) :
    character ∉ digits value := by
  intro member
  have digit := isSome_digit?_of_mem_digits member
  rw [other] at digit
  cases digit

@[simp] theorem toList_literal (value : Nat) :
    (literal value).toList = '0' :: 'x' :: digits value := by
  simp [literal]

theorem literal_inj {first second : Nat} : literal first = literal second ↔ first = second := by
  rw [← String.toList_inj]
  simp [digits_inj]

end Hex

end EvmLift
