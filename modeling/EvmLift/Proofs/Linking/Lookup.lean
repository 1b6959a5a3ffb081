import EvmLift.Program.Inlining
import EvmLift.Program.Jumps
import EvmLift.Proofs.Scope
import Mathlib.Data.List.Nodup
import Mathlib.Data.List.Pairwise

/-!
# What linking looks up

Linking collects the constants of variables and the entries of routines in tables. Of
several pairs with one key the last counts. Where no variable is assigned twice no key occurs
twice, so the tables hold exactly the pairs that they are built from.
-/

namespace EvmLift

/-- A table with distinct keys finds exactly the pairs that it is built from. -/
theorem getElem?_ofList_eq_some_iff {β : Type} {pairs : List (Nat × β)}
    (distinct : pairs.Pairwise fun first second => first.1 ≠ second.1) {key : Nat} {value : β} :
    (Std.TreeMap.ofList pairs compare)[key]? = some value ↔ (key, value) ∈ pairs := by
  have unequal : pairs.Pairwise fun first second => ¬compare first.1 second.1 = .eq :=
    distinct.imp fun other => by simpa using other
  constructor
  · intro found
    have listed : (pairs.map Prod.fst).contains key = true := by
      by_contra missing
      rw [Bool.not_eq_true] at missing
      rw [Std.TreeMap.getElem?_ofList_of_contains_eq_false missing] at found
      cases found
    rw [List.contains_iff_mem, List.mem_map] at listed
    obtain ⟨⟨_, own⟩, member, rfl⟩ := listed
    rw [Std.TreeMap.getElem?_ofList_of_mem (Nat.compare_eq_eq.mpr rfl) unequal member] at found
    cases found
    exact member
  · exact Std.TreeMap.getElem?_ofList_of_mem (Nat.compare_eq_eq.mpr rfl) unequal

/-- Among elements with distinct keys a search by key finds exactly the one that has it. -/
theorem find?_eq_some_iff_of_nodup {α κ : Type} [DecidableEq κ] {key : α → κ} {elements : List α}
    (distinct : (elements.map key).Nodup) {wanted : κ} {found : α} :
    elements.find? (fun element => key element = wanted) = some found ↔
      found ∈ elements ∧ key found = wanted := by
  constructor
  · intro equal
    exact ⟨List.mem_of_find?_eq_some equal, by simpa using List.find?_some equal⟩
  · rintro ⟨member, rfl⟩
    induction elements with
    | nil => cases member
    | cons first rest ih =>
        rw [List.map_cons, List.nodup_cons] at distinct
        rcases List.mem_cons.mp member with rfl | later
        · rw [List.find?_cons_of_pos (by simp)]
        · have other : key first ≠ key found := by
            intro same
            exact distinct.1 (same ▸ List.mem_map_of_mem later)
          rw [List.find?_cons_of_neg (by simpa using other)]
          exact ih distinct.2 later

namespace Statement

theorem definition?_eq_some {statement : Statement} {id : Nat} {word : Word}
    (found : statement.definition? = some (id, word)) :
    ∃ offset op, statement = .assign offset [.var id] op [.const word] ∧ op.isPush = true := by
  unfold definition? at found
  split at found
  · split at found
    next push =>
      cases found
      exact ⟨_, _, rfl, push⟩
    · cases found
  · cases found

/-- A pushed constant is assigned. -/
theorem mem_assigned_of_definition? {statement : Statement} {id : Nat} {word : Word}
    (found : statement.definition? = some (id, word)) : id ∈ statement.assigned := by
  obtain ⟨_, _, rfl, _⟩ := definition?_eq_some found
  exact mem_assigned.mpr List.mem_cons_self

end Statement

namespace Program

variable {program : Program}

/-- The statements of a well scoped program assign different variables. -/
theorem Scoped.apart (wellScoped : program.Scoped) : program.Apart := by
  have nodup : ((program.routines.flatMap Routine.body).flatMap Statement.assigned).Nodup := by
    rw [List.flatMap_assoc]
    exact wellScoped.nodup
  apply (List.nodup_flatMap.mp nodup).2.imp
  intro first second disjoint id own other
  exact disjoint own other

theorem Scoped.ordered (wellScoped : program.Scoped) : program.Ordered where
  apart := wellScoped.apart
  reads := fun routine listed => (wellScoped.routines routine listed).body
  pushes := fun routine listed statement placed =>
    ((wellScoped.routines routine listed).proper statement placed).pushesConstant

/-- If no variable is assigned twice, the constants are those that pushes assign. -/
theorem Apart.constants_eq_some_iff (apart : program.Apart) {id : Nat} {word : Word} :
    program.constants[id]? = some word ↔
      ∃ statement ∈ program.routines.flatMap Routine.body,
        statement.definition? = some (id, word) := by
  have flat : (program.routines.flatMap fun routine =>
      routine.body.filterMap Statement.definition?) =
        (program.routines.flatMap Routine.body).filterMap Statement.definition? := by
    rw [List.filterMap_flatMap]
  have distinct : ((program.routines.flatMap Routine.body).filterMap
      Statement.definition?).Pairwise fun first second => first.1 ≠ second.1 := by
    rw [List.pairwise_filterMap]
    apply List.Pairwise.imp _ apart
    rintro first second disjoint ⟨id, word⟩ found ⟨id', word'⟩ found' rfl
    exact disjoint id (Statement.mem_assigned_of_definition? found)
      (Statement.mem_assigned_of_definition? found')
  rw [constants, flat, getElem?_ofList_eq_some_iff distinct, List.mem_filterMap]

/-- A routine is found by a name that no other has. -/
theorem named?_eq_some_iff (distinct : (program.routines.map Routine.name).Nodup) {name : String}
    {routine : Routine} :
    program.named? name = some routine ↔ routine ∈ program.routines ∧ routine.name = name :=
  find?_eq_some_iff_of_nodup distinct

/-- A routine is found by an offset at which no other starts. -/
theorem atOffset?_eq_some_iff (distinct : (program.routines.map Routine.offset).Nodup)
    {offset : Nat} {routine : Routine} :
    program.atOffset? offset = some routine ↔
      routine ∈ program.routines ∧ routine.offset = offset :=
  find?_eq_some_iff_of_nodup distinct

/-- If no variable is assigned twice, statements that assign one variable are one statement. -/
theorem Apart.eq_of_mem_assigned (apart : program.Apart) {first second : Statement}
    {id : Nat} (memberFirst : first ∈ program.routines.flatMap Routine.body)
    (memberSecond : second ∈ program.routines.flatMap Routine.body)
    (assignsFirst : id ∈ first.assigned) (assignsSecond : id ∈ second.assigned) :
    first = second := by
  by_contra different
  have symmetric : Std.Symm fun first second : Statement =>
      ∀ id ∈ first.assigned, id ∉ second.assigned :=
    ⟨fun _ _ disjoint id left right => disjoint id right left⟩
  exact List.Pairwise.forall apart memberFirst memberSecond different id assignsFirst
    assignsSecond

theorem contains_mentions {id : Nat} :
    program.mentions.contains id = true ↔
      ∃ routine ∈ program.routines, id ∈ routine.mentions := by
  rw [mentions, Std.TreeSet.contains_ofList, List.contains_iff_mem, List.mem_flatMap]

end Program

end EvmLift
