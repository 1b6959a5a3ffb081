import EvmLift.Proofs.Machine.Basic

/-!
# Machines in step

Two machines run in rounds. In each round both either end alike or take at least one step
to states that are related again. Then they end alike, or both go on forever and perform
the same events.
-/

namespace EvmLift.Machine

variable {State Other : Type} {machine : Machine State}

theorem run_succ {state next : State} (stepped : machine.step state = .ok next) (count : Nat) :
    machine.run (count + 1) state = machine.run count next := by
  simp [run, stepped]

theorem exists_step_of_run {count : Nat} {state final : State}
    (reached : machine.run (count + 1) state = .ok final) :
    ∃ next, machine.step state = .ok next ∧ machine.run count next = .ok final := by
  unfold run at reached
  split at reached
  · exact ⟨_, ‹_›, reached⟩
  · cases reached

theorem run_add {count : Nat} {state middle : State}
    (reached : machine.run count state = .ok middle) (more : Nat) :
    machine.run (count + more) state = machine.run more middle := by
  induction count generalizing state with
  | zero =>
      cases reached
      rw [Nat.zero_add]
  | succ count ih =>
      obtain ⟨next, stepped, rest⟩ := exists_step_of_run reached
      rw [Nat.add_right_comm, run_succ stepped, ih rest]

theorem run_then_step {count : Nat} {state middle final : State}
    (reached : machine.run count state = .ok middle) (stepped : machine.step middle = .ok final) :
    machine.run (count + 1) state = .ok final := by
  rw [run_add reached, run_succ stepped]
  rfl

/-- A machine that is still running was running before. -/
theorem exists_run_of_le {count more : Nat} {state final : State} (fewer : count ≤ more)
    (reached : machine.run more state = .ok final) :
    ∃ middle, machine.run count state = .ok middle ∧
      machine.run (more - count) middle = .ok final := by
  induction count generalizing state more with
  | zero => exact ⟨state, rfl, reached⟩
  | succ count ih =>
      obtain ⟨more, rfl⟩ := Nat.exists_eq_succ_of_ne_zero (Nat.ne_zero_of_lt fewer)
      obtain ⟨next, stepped, rest⟩ := exists_step_of_run reached
      obtain ⟨middle, before, after⟩ := ih (Nat.le_of_succ_le_succ fewer) rest
      refine ⟨middle, by rw [run_succ stepped, before], ?_⟩
      rw [Nat.succ_sub_succ, after]

theorem Reaches.refl (machine : Machine State) (state : State) : machine.Reaches state state :=
  ⟨0, rfl⟩

theorem Reaches.trans {state middle final : State} (first : machine.Reaches state middle)
    (second : machine.Reaches middle final) : machine.Reaches state final := by
  obtain ⟨count, reached⟩ := first
  obtain ⟨more, reached'⟩ := second
  exact ⟨count + more, by rw [run_add reached, reached']⟩

theorem Reaches.step {state next : State} (stepped : machine.step state = .ok next) :
    machine.Reaches state next :=
  ⟨1, by simp [run, stepped]⟩

theorem Reaches.halts {state middle : State} {halt : Halt}
    (reaches : machine.Reaches state middle) (halts : machine.Halts middle halt) :
    machine.Halts state halt := by
  obtain ⟨count, reached⟩ := reaches
  obtain ⟨more, halted⟩ := halts
  exact ⟨count + more, by rw [run_add reached, halted]⟩

theorem halts_of_step {state : State} {halt : Halt} (stepped : machine.step state = .error halt) :
    machine.Halts state halt :=
  ⟨1, by simp [run, stepped]⟩

/-- Events are never forgotten. -/
def Remembers (machine : Machine State) : Prop :=
  ∀ state next, machine.step state = .ok next → machine.events state <+: machine.events next

theorem Remembers.run (remembers : machine.Remembers) {count : Nat} {state final : State}
    (reached : machine.run count state = .ok final) :
    machine.events state <+: machine.events final := by
  induction count generalizing state with
  | zero =>
      cases reached
      exact List.prefix_rfl
  | succ count ih =>
      obtain ⟨next, stepped, rest⟩ := exists_step_of_run reached
      exact (remembers state next stepped).trans (ih rest)

/-- Both machines take at least one step, to related states. -/
def Advance (left : Machine State) (right : Machine Other) (related : State → Other → Prop)
    (state : State) (other : Other) : Prop :=
  ∃ more more' next next', left.run (more + 1) state = .ok next ∧
    right.run (more' + 1) other = .ok next' ∧ related next next'

variable {left : Machine State} {right : Machine Other} {related : State → Other → Prop}

/-- Machines that advance in every round run together for as long as one likes. -/
theorem exists_related_run {state : State} {other : Other}
    (round : ∀ next next', left.Reaches state next → right.Reaches other next' →
      related next next' → Advance left right related next next')
    (start : related state other) (count : Nat) :
    ∃ more more' next next', count ≤ more ∧ count ≤ more' ∧
      left.run more state = .ok next ∧ right.run more' other = .ok next' ∧ related next next' := by
  induction count with
  | zero => exact ⟨0, 0, state, other, Nat.le_refl _, Nat.le_refl _, rfl, rfl, start⟩
  | succ count ih =>
      obtain ⟨more, more', next, next', enough, enough', reached, reached', relates⟩ := ih
      obtain ⟨extra, extra', final, final', ran, ran', relatesFinal⟩ :=
        round next next' ⟨more, reached⟩ ⟨more', reached'⟩ relates
      refine ⟨more + (extra + 1), more' + (extra' + 1), final, final', by omega, by omega, ?_, ?_,
        relatesFinal⟩
      · rw [run_add reached, ran]
      · rw [run_add reached', ran']

/-- Machines that stay related forever perform the same. -/
theorem performs_of_related {state : State} {other : Other} (remembers : left.Remembers)
    (same : ∀ next next', related next next' → left.events next = right.events next')
    (forever : ∀ count, ∃ more more' next next', count ≤ more ∧ count ≤ more' ∧
      left.run more state = .ok next ∧ right.run more' other = .ok next' ∧ related next next')
    {events : List Event} (performs : left.Performs state events) :
    right.Performs other events := by
  obtain ⟨final, ⟨count, reached⟩, listed⟩ := performs
  obtain ⟨more, more', next, next', enough, _, ran, ran', relates⟩ := forever count
  obtain ⟨middle, early, late⟩ := exists_run_of_le enough ran
  cases reached.symm.trans early
  refine ⟨next', ⟨more', ran'⟩, ?_⟩
  rw [← same next next' relates]
  exact listed.trans (remembers.run late)

/-- Machines that advance in every round that does not end them end, or go on forever and
perform the same. -/
theorem ends_or_diverges {ends : State → Other → Prop}
    (remembers : left.Remembers) (remembers' : right.Remembers)
    (same : ∀ state other, related state other → left.events state = right.events other)
    (ended : ∀ state other next next', left.Reaches state next → right.Reaches other next' →
      ends next next' → ends state other)
    (round : ∀ state other, related state other →
      ends state other ∨ Advance left right related state other)
    {state : State} {other : Other} (start : related state other) :
    ends state other ∨ (left.Diverges state ∧ right.Diverges other ∧
      ∀ events, left.Performs state events ↔ right.Performs other events) := by
  by_cases halted : ends state other
  · exact .inl halted
  have forever := exists_related_run
    (fun next next' reaches reaches' relates =>
      (round next next' relates).resolve_left fun late =>
        halted (ended state other next next' reaches reaches' late)) start
  refine .inr ⟨?_, ?_, fun events => ⟨?_, ?_⟩⟩
  · intro count
    obtain ⟨more, _, next, _, enough, _, ran, _⟩ := forever count
    obtain ⟨middle, early, _⟩ := exists_run_of_le enough ran
    exact ⟨middle, early⟩
  · intro count
    obtain ⟨_, more, _, next, _, enough, _, ran, _⟩ := forever count
    obtain ⟨middle, early, _⟩ := exists_run_of_le enough ran
    exact ⟨middle, early⟩
  · exact performs_of_related remembers same forever
  · refine performs_of_related remembers'
      (fun next' next relates => (same next next' relates).symm) fun count => ?_
    obtain ⟨more, more', next, next', enough, enough', ran, ran', relates⟩ := forever count
    exact ⟨more', more, next', next, enough', enough, ran', ran, relates⟩

end EvmLift.Machine
