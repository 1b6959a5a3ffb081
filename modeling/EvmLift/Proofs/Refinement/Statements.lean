import EvmLift.Proofs.Machine.Program
import EvmLift.Proofs.Machine.Simulation
import EvmLift.Proofs.Scope

/-!
# Statements under control

The program machine does what its statements show when they are run in order, up to the
first observation after which control does not go on.
-/

namespace EvmLift.ProgramState

/-- What the program machine does where control does not go on. -/
def leave (program : Program) (events : List Event) : Observation → Except Halt ProgramState
  | .performed event => .error ⟨events ++ [event], .terminated⟩
  | .jumped _ .fault _ _ => .error ⟨events, .faulted⟩
  | .jumped offset (.offset target) _ _ => .error ⟨events, .departed offset target⟩
  | .jumped _ (.routine name) _ args =>
      match program.named? name with
      | some routine => .ok (enter routine args events)
      | none => .error ⟨events, .undefined⟩

variable {oracle : Oracle} {program : Program} {past : List Event} {frame : Frame}
variable {seen : List Observation} {after : Run}

/-- A jump that is taken leaves as it is seen. -/
theorem jump_eq_leave {offset : Option Nat} {callee : Callee} {args : List Value}
    {destination : Destination} {condition : Option Word} {words : List Word}
    (rest : List Statement) (events : List Event)
    (leads : frame.destination? callee = some destination)
    (found : frame.values? args = some words) :
    jump program ⟨rest, frame, events⟩ offset callee args =
      leave program events (.jumped offset destination condition words) := by
  cases callee with
  | fault =>
      cases leads
      rfl
  | computed value =>
      obtain ⟨target, computed, rfl⟩ := Option.map_eq_some_iff.mp leads
      simp [jump, leave, computed]
  | routine name =>
      cases leads
      cases named : program.named? name <;> simp [jump, leave, named, found]

/-- At every statement control goes on as the statements do, or leaves with what is seen. -/
theorem execute_of_perform {statement : Statement} (program : Program) (rest : List Statement)
    (proper : statement.Proper)
    (performs : statement.perform (oracle.after past) ⟨frame, seen⟩ = some after) :
    ∃ new, after.seen = seen ++ new ∧
      (((∀ observation ∈ new, observation.isExit = false) ∧
        execute oracle program ⟨rest, frame, past ++ seen.filterMap Observation.event?⟩ statement =
          .ok ⟨rest, after.frame, past ++ after.seen.filterMap Observation.event?⟩) ∨
      ∃ exit, new = [exit] ∧ exit.isExit = true ∧
        execute oracle program ⟨rest, frame, past ++ seen.filterMap Observation.event?⟩ statement =
          leave program (past ++ seen.filterMap Observation.event?) exit) := by
  cases statement with
  | assign offset targets op operands =>
      obtain ⟨words, found, rfl⟩ := Statement.perform_assign_eq_some.mp performs
      refine ⟨_, rfl, ?_⟩
      cases push : op.isPush with
      | true =>
          refine .inl ⟨by simp [Reading.sight, Oracle.after, push], ?_⟩
          simp [execute, found, push, proper.goesOn push, Reading.sight, Oracle.after]
      | false =>
          have sight : (oracle.after past).sight ⟨offset, op, words⟩ =
              [.performed ⟨offset, op, words⟩] := by
            simp [Reading.sight, Oracle.after, push]
          rw [sight]
          cases terminates : op.terminates with
          | true =>
              refine .inr ⟨_, rfl, terminates, ?_⟩
              simp [execute, found, push, terminates, leave]
          | false =>
              refine .inl ⟨by simp [Observation.isExit, terminates], ?_⟩
              simp [execute, found, push, terminates, Oracle.after, Observation.event?]
  | jump offset callee condition args =>
      obtain ⟨destination, decided, words, leads, known, found, rfl⟩ :=
        Statement.perform_jump_eq_some.mp performs
      refine ⟨_, rfl, ?_⟩
      by_cases zero : decided = some 0
      · refine .inl ⟨by simp [Observation.isExit, zero], ?_⟩
        simp [execute, known, zero, Observation.event?]
      · refine .inr ⟨_, rfl, by simpa [Observation.isExit] using zero, ?_⟩
        simp only [execute, known, if_neg zero]
        exact jump_eq_leave rest _ leads found

/-- Running statements adds to what was seen. -/
theorem seen_performAll {interpretation : Interpretation} {run final : Run}
    {body : List Statement}
    (performs : Statement.performAll interpretation run body = some final) :
    run.seen <+: final.seen := by
  induction body generalizing run with
  | nil =>
      cases performs
      exact List.prefix_rfl
  | cons statement rest ih =>
      obtain ⟨next, first, others⟩ := Statement.performAll_cons_eq_some.mp performs
      refine List.IsPrefix.trans ?_ (ih others)
      cases statement with
      | assign =>
          obtain ⟨words, _, rfl⟩ := Statement.perform_assign_eq_some.mp first
          exact List.prefix_append _ _
      | jump =>
          obtain ⟨_, _, _, _, _, _, rfl⟩ := Statement.perform_jump_eq_some.mp first
          exact List.prefix_append _ _

/-- Through statements control goes on as they do, up to the first exit that is seen. -/
theorem run_of_performAll {body : List Statement} (program : Program) (more : List Statement)
    (proper : ∀ statement ∈ body, statement.Proper)
    (performs : Statement.performAll (oracle.after past) ⟨frame, seen⟩ body = some after) :
    ∃ new, after.seen = seen ++ new ∧
      ((Observation.firstExit? new = none ∧
        (programMachine oracle program).Reaches
          ⟨body ++ more, frame, past ++ seen.filterMap Observation.event?⟩
          ⟨more, after.frame, past ++ after.seen.filterMap Observation.event?⟩) ∨
      ∃ before exit final, Observation.firstExit? new = some (before, exit) ∧
        (programMachine oracle program).Reaches
          ⟨body ++ more, frame, past ++ seen.filterMap Observation.event?⟩ final ∧
        step oracle program final =
          leave program (past ++ (seen ++ before).filterMap Observation.event?) exit) := by
  induction body generalizing frame seen with
  | nil =>
      cases performs
      exact ⟨[], by simp, .inl ⟨rfl, .refl _ _⟩⟩
  | cons statement rest ih =>
      rw [List.forall_mem_cons] at proper
      obtain ⟨⟨frame', seen'⟩, first, others⟩ := Statement.performAll_cons_eq_some.mp performs
      obtain ⟨new, rfl, acts⟩ := execute_of_perform program (rest ++ more) proper.1 first
      rcases acts with ⟨quiet, executes⟩ | ⟨exit, rfl, exits, executes⟩
      · obtain ⟨later, grown, ends⟩ := ih proper.2 others
        refine ⟨new ++ later, by rw [grown, List.append_assoc], ?_⟩
        rw [Observation.firstExit?_append quiet]
        have stepped : (programMachine oracle program).Reaches
            ⟨statement :: rest ++ more, frame, past ++ seen.filterMap Observation.event?⟩
            ⟨rest ++ more, frame', past ++ (seen ++ new).filterMap Observation.event?⟩ :=
          .step executes
        rcases ends with ⟨none, reaches⟩ | ⟨before, exit, final, found, reaches, leaves⟩
        · exact .inl ⟨by simp [none], stepped.trans reaches⟩
        · refine .inr ⟨new ++ before, exit, final, by simp [found], stepped.trans reaches, ?_⟩
          rw [leaves, List.append_assoc]
      · obtain ⟨later, joined⟩ := seen_performAll others
        refine ⟨exit :: later, by simp [← joined], .inr ⟨[], exit, _,
          Observation.firstExit?_cons exits _, .refl _ _, ?_⟩⟩
        rw [List.append_nil]
        exact executes

/-- Executing a statement adds to the events. -/
theorem events_of_execute {state next : ProgramState} {statement : Statement}
    (executes : execute oracle program state statement = .ok next) :
    state.events <+: next.events := by
  unfold execute at executes
  split at executes
  · split at executes
    · cases executes
    · dsimp only at executes
      split at executes
      · cases executes
      · cases executes
        dsimp only
        split
        · exact List.prefix_rfl
        · exact List.prefix_append _ _
  · split at executes
    · cases executes
    · split at executes
      · cases executes
        exact List.prefix_rfl
      · unfold jump at executes
        split at executes
        · cases executes
        · split at executes <;> cases executes
        · split at executes <;> cases executes
          exact List.prefix_rfl

theorem remembers_programMachine (oracle : Oracle) (program : Program) :
    (programMachine oracle program).Remembers := by
  intro state next stepped
  replace stepped : step oracle program state = .ok next := stepped
  unfold step at stepped
  split at stepped
  · cases stepped
  · have grown := events_of_execute stepped
    exact grown

end EvmLift.ProgramState
