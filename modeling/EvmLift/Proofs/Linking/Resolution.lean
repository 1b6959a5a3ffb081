import EvmLift.Proofs.Linking.Form
import EvmLift.Proofs.Refinement.Entries

/-!
# Where linked jumps lead

Linking resolves every jump to a known offset, either to a routine or to a fault, and a
resolved jump passes no more than its routine takes. If it passes less, there is a warning:
one for each such jump, whether the code has it or falling through to the next routine
adds it.
-/

namespace EvmLift

namespace Statement

variable {arity? : String → Option Nat} {entryAt? : Nat → Option Entry} {statement : Statement}

/-- A statement that leaves no jump to a known offset, and enters only routines that are known,
with no more values than they take. -/
def Resolved (arity? : String → Option Nat) : Statement → Prop
  | .jump _ (.routine name) _ args => ∃ arity, arity? name = some arity ∧ args.length ≤ arity
  | .jump _ (.computed (.const _)) _ _ => False
  | _ => True

/-- Whether a statement enters a routine with fewer values than it takes. -/
def passesFew (arity? : String → Option Nat) : Statement → Bool
  | .jump _ (.routine name) _ args => (arity? name).any fun arity => args.length < arity
  | _ => false

theorem Unlinked.inline (unlinked : statement.Unlinked) (constant? : Nat → Option Word) :
    (statement.inline constant?).Unlinked where
  offset := by
    rw [(becomes_inline constant? statement).offset]
    exact unlinked.offset
  enters := by
    have enters := unlinked.enters
    cases statement with
    | assign => rfl
    | jump offset callee condition args =>
        cases callee with
        | routine => cases enters
        | fault | computed => rfl

/-- Cutting the passed values to those that are taken hides no lack of them. -/
theorem passesFew_take {name : String} {arity : Nat} (known : arity? name = some arity)
    {offset : Option Nat} {condition : Option Value} {args : List Value} :
    (jump offset (.routine name) condition (args.take arity)).passesFew arity? =
      decide (args.length < arity) := by
  have short : (args.take arity).length < arity ↔ args.length < arity := by
    rw [List.length_take]
    omega
  simp only [passesFew, known, Option.any_some, short]

/-- Linking resolves a statement, and warns if it passes too little. -/
theorem resolved_link
    (entered : ∀ offset entry, entryAt? offset = some entry → arity? entry.name = some entry.arity)
    (unlinked : statement.Unlinked) :
    (statement.link entryAt?).Resolved arity? ∧
      (statement.link entryAt?).passesFew arity? = (statement.linkWarning? entryAt?).isSome := by
  have enters := unlinked.enters
  cases statement with
  | assign => exact ⟨trivial, rfl⟩
  | jump offset callee condition args =>
      cases callee with
      | routine => cases enters
      | fault => exact ⟨trivial, rfl⟩
      | computed value =>
          cases value with
          | var | param => exact ⟨trivial, rfl⟩
          | const word =>
              cases found : entryAt? word.toNat with
              | none =>
                  simp only [link, linkWarning?, found]
                  exact ⟨trivial, rfl⟩
              | some entry =>
                  have known := entered _ entry found
                  simp only [link, linkWarning?, found]
                  constructor
                  · exact ⟨entry.arity, known, List.length_take_le _ _⟩
                  · rw [passesFew_take known]
                    by_cases short : args.length < entry.arity <;> simp [short]

end Statement

namespace Numbering

variable {arity? : String → Option Nat}

/-- Numbering changes neither where a resolved statement leads nor how much it passes. -/
theorem resolved_numberStatement (numbering : Numbering) {statement : Statement}
    (resolved : statement.Resolved arity?) :
    (numbering.numberStatement statement).Resolved arity? := by
  cases statement with
  | assign => trivial
  | jump offset callee condition args =>
      cases callee with
      | fault => trivial
      | routine name =>
          rcases resolved with ⟨arity, known, fits⟩
          exact ⟨arity, known, by rwa [List.length_map]⟩
      | computed value =>
          cases value with
          | const => exact resolved
          | var | param => trivial

theorem passesFew_numberStatement (numbering : Numbering) (statement : Statement) :
    (numbering.numberStatement statement).passesFew arity? = statement.passesFew arity? := by
  cases statement with
  | assign => rfl
  | jump offset callee condition args =>
      cases callee with
      | fault | computed => rfl
      | routine name =>
          simp only [numberStatement, numberCallee, Statement.passesFew, List.length_map]

theorem countP_passesFew_numberBody (numbering : Numbering) (body : List Statement) :
    (numbering.numberBody body).countP (Statement.passesFew arity?) =
      body.countP (Statement.passesFew arity?) := by
  induction body generalizing numbering with
  | nil => rfl
  | cons first rest ih =>
      rw [numberBody, List.countP_cons, List.countP_cons, ih, passesFew_numberStatement]

theorem countP_passesFew_numberRoutines (numbering : Numbering) (routines : List Routine) :
    ((numbering.numberRoutines routines).flatMap Routine.body).countP
        (Statement.passesFew arity?) =
      (routines.flatMap Routine.body).countP (Statement.passesFew arity?) := by
  induction routines generalizing numbering with
  | nil => rfl
  | cons first rest ih =>
      rw [numberRoutines, List.flatMap_cons, List.flatMap_cons, List.countP_append,
        List.countP_append, ih]
      exact congrArg (· + _) (countP_passesFew_numberBody numbering first.body)

end Numbering

namespace Routine

variable {arity? : String → Option Nat} {routine next : Routine}

theorem resolved_jumpTo (known : arity? next.name = some next.arity) :
    (routine.jumpTo next).Resolved arity? :=
  ⟨next.arity, known, List.length_take_le _ _⟩

theorem countP_passesFew_continueTo (known : arity? next.name = some next.arity) :
    (routine.continueTo next).body.countP (Statement.passesFew arity?) =
      routine.body.countP (Statement.passesFew arity?) +
        (routine.fallthroughWarning? next).toList.length := by
  cases falls : routine.fallsThrough with
  | false => simp [continueTo, fallthroughWarning?, falls]
  | true =>
      simp only [continueTo, fallthroughWarning?, falls, if_true, Bool.true_and,
        List.countP_append, List.countP_singleton, jumpTo, Statement.passesFew_take known]
      by_cases short : routine.returns.length < next.arity <;> simp [short]

/-- Chaining adds as many jumps that pass too little as it warns about. -/
theorem countP_passesFew_chain {routines : List Routine}
    (known : ∀ routine ∈ routines, arity? routine.name = some routine.arity) :
    ((chain routines).flatMap Routine.body).countP (Statement.passesFew arity?) =
      (routines.flatMap Routine.body).countP (Statement.passesFew arity?) +
        (chainWarnings routines).length := by
  fun_induction chain routines with
  | case1 routine next rest ih =>
      rw [List.forall_mem_cons] at known
      have nextKnown := known.2 next List.mem_cons_self
      have before : (routine :: next :: rest).flatMap Routine.body =
          routine.body ++ (next :: rest).flatMap Routine.body := List.flatMap_cons
      rw [List.flatMap_cons, before, List.countP_append, List.countP_append, ih known.2,
        countP_passesFew_continueTo nextKnown, chainWarnings, List.length_append]
      omega
  | case2 routines single =>
      rw [chainWarnings.eq_2 routines single]
      rfl

/-- A routine that goes on with another one ends there. -/
theorem exists_last_continueTo (routine next : Routine) :
    ∃ last, (routine.continueTo next).body.getLast? = some last ∧ last.endsBlock = true := by
  cases falls : routine.fallsThrough with
  | true =>
      refine ⟨routine.jumpTo next, ?_, rfl⟩
      simp only [continueTo, falls, if_true, List.getLast?_concat]
  | false =>
      simp only [continueTo, falls, Bool.false_eq_true, if_false]
      unfold fallsThrough at falls
      split at falls
      next last found => exact ⟨last, found, by simpa using falls⟩
      · cases falls

end Routine

namespace Program

variable {program : Program}

/-- The number of parameters of a routine, by its name. -/
def arityOf? (program : Program) (name : String) : Option Nat :=
  (program.named? name).map Routine.arity

theorem arityOf?_of_mem_signatures (distinct : (program.routines.map Routine.name).Nodup)
    {offset : Nat} {entry : Entry}
    (listed : (offset, entry) ∈ program.routines.map Routine.signature) :
    program.arityOf? entry.name = some entry.arity := by
  rcases List.mem_map.mp listed with ⟨routine, member, equal⟩
  cases equal
  have found : program.named? routine.entry.name = some routine :=
    (named?_eq_some_iff distinct).mpr ⟨member, rfl⟩
  rw [arityOf?, found]
  rfl

/-- There are as many warnings about jumps as there are jumps that pass too little once they
are linked. -/
theorem length_jumpWarnings {arity? : String → Option Nat}
    (entered : ∀ offset entry, program.entryAt? offset = some entry →
      arity? entry.name = some entry.arity)
    (unlinked : ∀ routine ∈ program.routines, ∀ statement ∈ routine.body, statement.Unlinked) :
    program.jumpWarnings.length =
      (program.linkJumps.routines.flatMap Routine.body).countP (Statement.passesFew arity?) := by
  have linked : program.linkJumps.routines.flatMap Routine.body =
      (program.routines.flatMap Routine.body).map (Statement.link program.entryAt?) := by
    rw [routines_linkJumps, List.flatMap_map, List.map_flatMap]
    rfl
  have warnings : program.jumpWarnings =
      (program.routines.flatMap Routine.body).filterMap
        (Statement.linkWarning? program.entryAt?) := by
    rw [List.filterMap_flatMap]
    rfl
  rw [linked, warnings, List.length_filterMap_eq_countP, List.countP_map]
  apply List.countP_congr
  intro statement member
  rcases List.mem_flatMap.mp member with ⟨routine, listed, placed⟩
  rw [Function.comp_apply,
    (Statement.resolved_link entered (unlinked routine listed statement placed)).2]

end Program

end EvmLift
