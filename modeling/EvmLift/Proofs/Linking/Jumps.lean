import EvmLift.Proofs.Linking.Lookup
import EvmLift.Proofs.Semantics.Frame
import Mathlib.Data.List.Forall2

/-!
# Linking keeps meanings up to destinations

Linking changes where jumps go and what they pass, and nothing else. What is seen of a
linked routine is what was seen before, with the jumps to known offsets resolved.
-/

namespace EvmLift

namespace Program

/-- The entry of the routine that starts at an offset. -/
abbrev entryAt? (program : Program) (offset : Nat) : Option Entry :=
  program.entries[offset]?

/-- Whether a value is open: it is no constant, and no push of the program assigns it. -/
def LeavesOpen (program : Program) : Value → Prop
  | .const _ => False
  | .param _ => True
  | .var id => ∀ statement ∈ program.routines.flatMap Routine.body,
      ∀ word, statement.definition? ≠ some (id, word)

/-- The program has a jump at the offset, and the target of the jump is open. -/
def JumpsBlindly (program : Program) (offset : Option Nat) : Prop :=
  ∃ routine ∈ program.routines, ∃ value condition args,
    .jump offset (.computed value) condition args ∈ routine.body ∧ program.LeavesOpen value

/-- A jump that still goes by no constant is a blind jump of the program. -/
def Settles (program : Program) (statement : Statement) : Prop :=
  ∀ offset value condition args, statement = .jump offset (.computed value) condition args →
    (∀ word, value ≠ .const word) → program.JumpsBlindly offset

end Program

/-- An observation before and after the jumps of a program are linked. -/
inductive Observation.Resolves (program : Program) : Observation → Observation → Prop where
  | performed (event : Event) : Resolves program (.performed event) (.performed event)
  /-- A routine starts at the offset, and takes its arguments from the passed values. -/
  | enters (offset : Option Nat) {target : Word} (condition : Option Word) {args : List Word}
      {entry : Entry} (found : program.entryAt? target.toNat = some entry)
      (fits : entry.arity ≤ args.length) :
      Resolves program (.jumped offset (.offset target) condition args)
        (.jumped offset (.routine entry.name) condition (args.take entry.arity))
  | faults (offset : Option Nat) {target : Word} (condition : Option Word) (args : List Word)
      (missing : program.entryAt? target.toNat = none) :
      Resolves program (.jumped offset (.offset target) condition args)
        (.jumped offset .fault condition [])
  | leaves {offset : Option Nat} (target : Word) (condition : Option Word) (args : List Word)
      (blind : program.JumpsBlindly offset) :
      Resolves program (.jumped offset (.offset target) condition args)
        (.jumped offset (.offset target) condition [])
  | stays (offset : Option Nat) {destination : Destination} (condition : Option Word)
      (args : List Word) (known : ∀ target, destination ≠ .offset target) :
      Resolves program (.jumped offset destination condition args)
        (.jumped offset destination condition args)

namespace Observation

variable {program : Program}

theorem Resolves.event? {before after : Observation} (resolves : Resolves program before after) :
    after.event? = before.event? := by
  cases resolves <;> rfl

theorem Resolves.isExit {before after : Observation} (resolves : Resolves program before after) :
    after.isExit = before.isExit := by
  cases resolves <;> rfl

/-- Linking moves no exit. -/
theorem rel_firstExit? {before after : List Observation}
    (resolves : List.Forall₂ (Resolves program) before after) :
    Option.Rel (fun first second => List.Forall₂ (Resolves program) first.1 second.1 ∧
      Resolves program first.2 second.2) (firstExit? before) (firstExit? after) := by
  induction resolves with
  | nil => exact .none
  | @cons observation observation' rest rest' first _ ih =>
      simp only [firstExit?, first.isExit]
      split
      · exact .some ⟨.nil, first⟩
      · generalize firstExit? rest = found at ih
        generalize firstExit? rest' = found' at ih
        cases ih with
        | none => exact .none
        | some splits => exact .some ⟨.cons first splits.1, splits.2⟩

/-- Linking leaves the events alone. -/
theorem filterMap_event?_of_resolves {before after : List Observation}
    (resolves : List.Forall₂ (Resolves program) before after) :
    after.filterMap Observation.event? = before.filterMap Observation.event? := by
  induction resolves with
  | nil => rfl
  | cons first _ ih => simp only [List.filterMap_cons, first.event?, ih]

end Observation

namespace Statement

variable {program : Program} {entryAt? : Nat → Option Entry} {interpretation : Interpretation}
variable {statement : Statement} {run after : Run} {seen : List Observation}

/-- A linked jump shows where it goes now. -/
theorem perform_link_jump {offset : Option Nat} {callee : Callee} {condition : Option Value}
    {args : List Value} {frame : Frame} {destination : Destination} {decided : Option Word}
    {words : List Word} (settles : program.Settles (.jump offset callee condition args))
    (fits : linkWarning? program.entryAt? (.jump offset callee condition args) = none)
    (leads : frame.destination? callee = some destination)
    (known : frame.condition? condition = some decided)
    (found : frame.values? args = some words) :
    ∃ observation,
      (link program.entryAt? (.jump offset callee condition args)).perform interpretation
        ⟨frame, seen⟩ = some ⟨frame, seen ++ [observation]⟩ ∧
      Observation.Resolves program (.jumped offset destination decided words) observation := by
  cases callee with
  | routine name =>
      cases leads
      exact ⟨_, perform_jump_eq_some.mpr ⟨_, _, _, rfl, known, found, rfl⟩,
        .stays _ _ _ (by simp)⟩
  | fault =>
      cases leads
      exact ⟨_, perform_jump_eq_some.mpr ⟨_, _, _, rfl, known, found, rfl⟩,
        .stays _ _ _ (by simp)⟩
  | computed value =>
      obtain ⟨target, computed, rfl⟩ := Option.map_eq_some_iff.mp leads
      cases value with
      | var id =>
          exact ⟨_, perform_jump_eq_some.mpr ⟨_, _, _, leads, known, rfl, rfl⟩,
            .leaves _ _ _ (settles _ _ _ _ rfl (by simp))⟩
      | param index =>
          exact ⟨_, perform_jump_eq_some.mpr ⟨_, _, _, leads, known, rfl, rfl⟩,
            .leaves _ _ _ (settles _ _ _ _ rfl (by simp))⟩
      | const word =>
          cases computed
          cases entry : program.entryAt? target.toNat with
          | none =>
              simp only [link, entry]
              exact ⟨_, perform_jump_eq_some.mpr ⟨_, _, _, rfl, known, rfl, rfl⟩,
                .faults _ _ _ entry⟩
          | some entry' =>
              have enough : entry'.arity ≤ words.length := by
                rw [Frame.length_of_values? found]
                simpa [linkWarning?, entry] using fits
              simp only [link, entry]
              exact ⟨_, perform_jump_eq_some.mpr
                ⟨_, _, _, rfl, known, Frame.values?_take found _, rfl⟩, .enters _ _ entry enough⟩

/-- A linked statement acts as before, and resolves its jump. -/
theorem perform_link (ignores : interpretation.IgnoresJumps)
    (settles : program.Settles statement)
    (fits : statement.linkWarning? program.entryAt? = none)
    (resolves : List.Forall₂ (Observation.Resolves program) run.seen seen)
    (performs : statement.perform interpretation run = some after) :
    ∃ seen', (statement.link program.entryAt?).perform interpretation ⟨run.frame, seen⟩ =
        some ⟨after.frame, seen'⟩ ∧
      List.Forall₂ (Observation.Resolves program) after.seen seen' := by
  cases statement with
  | assign offset targets op operands =>
      obtain ⟨words, found, rfl⟩ := perform_assign_eq_some.mp performs
      have events := Observation.filterMap_event?_of_resolves resolves
      refine ⟨seen ++ interpretation.sight ⟨offset, op, words⟩,
        perform_assign_eq_some.mpr ⟨words, found, ?_⟩, ?_⟩
      · rw [ignores _ _ events]
      · apply List.rel_append resolves
        unfold Reading.sight
        split
        · exact .cons (.performed _) .nil
        · exact .nil
  | jump offset callee condition args =>
      obtain ⟨destination, decided, words, leads, known, found, rfl⟩ :=
        perform_jump_eq_some.mp performs
      obtain ⟨observation, acts, resolved⟩ := perform_link_jump settles fits leads known found
      exact ⟨_, acts, List.rel_append resolves (.cons resolved .nil)⟩

theorem performAll_link {body : List Statement} (ignores : interpretation.IgnoresJumps)
    (settles : ∀ statement ∈ body, program.Settles statement)
    (fits : ∀ statement ∈ body, statement.linkWarning? program.entryAt? = none)
    (resolves : List.Forall₂ (Observation.Resolves program) run.seen seen)
    (performs : performAll interpretation run body = some after) :
    ∃ seen', performAll interpretation ⟨run.frame, seen⟩ (body.map (link program.entryAt?)) =
        some ⟨after.frame, seen'⟩ ∧
      List.Forall₂ (Observation.Resolves program) after.seen seen' := by
  induction body generalizing run seen with
  | nil =>
      cases performs
      exact ⟨seen, rfl, resolves⟩
  | cons statement rest ih =>
      rw [List.forall_mem_cons] at settles fits
      obtain ⟨next, first, others⟩ := performAll_cons_eq_some.mp performs
      obtain ⟨middle, acts, resolved⟩ := perform_link ignores settles.1 fits.1 resolves first
      obtain ⟨final, actsRest, resolvedRest⟩ := ih settles.2 fits.2 resolved others
      exact ⟨final, performAll_cons_eq_some.mpr ⟨_, acts, actsRest⟩, resolvedRest⟩

theorem mem_reads_of_mem_link (statement : Statement) (value : Value)
    (member : value ∈ (statement.link entryAt?).reads) : value ∈ statement.reads := by
  unfold link at member
  split at member
  · split at member
    · simp only [reads, Callee.value?, List.mem_append, Option.mem_toList] at member ⊢
      rcases member with (target | decides) | passed
      · cases target
      · exact .inl (.inr decides)
      · exact .inr (List.mem_of_mem_take passed)
    · simp only [reads, Callee.value?, List.mem_append, Option.mem_toList] at member ⊢
      rcases member with (target | decides) | passed
      · cases target
      · exact .inl (.inr decides)
      · cases passed
  · simp only [reads, List.append_nil] at member ⊢
    exact List.mem_append_left _ member
  · exact member

theorem assigned_link (statement : Statement) :
    (statement.link entryAt?).assigned = statement.assigned := by
  unfold link
  split
  · split <;> rfl
  · rfl
  · rfl

theorem Proper.link (proper : statement.Proper) : (statement.link entryAt?).Proper := by
  unfold Statement.link
  split
  · split <;> trivial
  · trivial
  · exact proper

end Statement

namespace Routine

/-- A routine with its jumps linked. -/
def linked (entryAt? : Nat → Option Entry) (routine : Routine) : Routine :=
  { routine with body := routine.body.map (Statement.link entryAt?) }

variable {entryAt? : Nat → Option Entry} {routine : Routine}

/-- Linking resolves what is seen of a routine, and keeps what it returns. -/
theorem meaning?_linked {program : Program} {interpretation : Interpretation}
    {params : Nat → Option Word} {seen : List Observation} {words : List Word}
    (ignores : interpretation.IgnoresJumps)
    (settles : ∀ statement ∈ routine.body, program.Settles statement)
    (fits : ∀ statement ∈ routine.body, statement.linkWarning? program.entryAt? = none)
    (means : routine.meaning? interpretation params = some (seen, words)) :
    ∃ seen',
      (routine.linked program.entryAt?).meaning? interpretation params = some (seen', words) ∧
      List.Forall₂ (Observation.Resolves program) seen seen' := by
  rw [meaning?, runIn?_eq_some_iff] at means
  obtain ⟨after, performs, found, rfl⟩ := means
  obtain ⟨seen', acts, resolves⟩ :=
    Statement.performAll_link ignores settles fits (.nil : List.Forall₂ _ [] []) performs
  exact ⟨seen', runIn?_eq_some_iff.mpr ⟨_, acts, found, rfl⟩, resolves⟩

theorem Scoped.linked (wellScoped : routine.Scoped) : (routine.linked entryAt?).Scoped where
  proper := by
    intro statement member
    obtain ⟨original, placed, rfl⟩ := List.mem_map.mp member
    exact (wellScoped.proper original placed).link
  body := wellScoped.body.map (fun _ _ => Statement.mem_reads_of_mem_link _ _)
    Statement.assigned_link
  returns := by
    intro id member
    have assigns := wellScoped.returns id member
    simpa [assigned, Routine.linked, List.flatMap_map, Statement.assigned_link] using assigns

end Routine

namespace Program

variable {program : Program}

theorem routines_linkJumps :
    program.linkJumps.routines =
      program.routines.map (Routine.linked program.entryAt?) := rfl

/-- Without warnings every jump passes enough. -/
theorem linkWarning?_eq_none (quiet : program.jumpWarnings = []) {routine : Routine}
    (listed : routine ∈ program.routines) :
    ∀ statement ∈ routine.body,
      statement.linkWarning? program.entryAt? = none := by
  simp only [jumpWarnings, List.flatMap_eq_nil_iff, List.filterMap_eq_nil_iff] at quiet
  exact quiet routine listed

end Program

end EvmLift
