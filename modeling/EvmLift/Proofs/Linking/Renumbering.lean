import EvmLift.Proofs.Linking.Renaming

/-!
# Numbers are those of the latest assignments

The numbering in the course of a walk is determined by the variables that were assigned so far:
the next number counts them, and the current number of a variable is the place where it was
assigned last. So numbering fails exactly where a variable is read before it is assigned, the
assignments are numbered through, and every read gets the number that the latest assignment of
its variable got. What is numbered already stays as it is.
-/

namespace EvmLift

namespace Access

/-- The variables that a walk assigns, in order. -/
def assigned (walk : List Access) : List Nat :=
  walk.filterMap assigned?

/-- Along the walk every variable is assigned before it is read. -/
def Defined (walk : List Access) : Prop :=
  ∀ front routine id back, walk = front ++ .read routine (.var id) :: back → id ∈ assigned front

/-- The error names the first variable that the walk reads before it is assigned, and the routine
that reads it. -/
def FirstUndefined (walk : List Access) (error : UndefinedVariable) : Prop :=
  ∃ front back, walk = front ++ .read error.routine (.var error.id) :: back ∧
    error.id ∉ assigned front ∧ Defined front

@[simp] theorem assigned_nil : assigned [] = [] := rfl

theorem assigned_append (first second : List Access) :
    assigned (first ++ second) = assigned first ++ assigned second :=
  List.filterMap_append

@[simp] theorem assigned_cons (access : Access) (rest : List Access) :
    assigned (access :: rest) = access.assigned?.toList ++ assigned rest := by
  cases found : access.assigned? <;> simp [assigned, found]

end Access

/-- A number counts variables up to the last place of one of them. -/
def Latest (ids : List Nat) (id number : Nat) : Prop :=
  ∃ earlier later, ids = earlier ++ id :: later ∧ id ∉ later ∧ number = earlier.length + 1

namespace Latest

theorem concat_iff {ids : List Nat} {other id number : Nat} :
    Latest (ids ++ [other]) id number ↔
      if other = id then number = ids.length + 1 else Latest ids id number := by
  constructor
  · rintro ⟨earlier, later, equal, last, rfl⟩
    rcases later.eq_nil_or_concat with rfl | ⟨later, final, rfl⟩
    · rcases List.append_inj' equal rfl with ⟨rfl, own⟩
      cases own
      simp
    · have moved : ids ++ [other] = (earlier ++ id :: later) ++ [final] := by simpa using equal
      rcases List.append_inj' moved rfl with ⟨rfl, own⟩
      cases own
      simp only [List.concat_eq_append, List.mem_append, List.mem_singleton, not_or] at last
      rw [if_neg (Ne.symm last.2)]
      exact ⟨earlier, later, rfl, last.1, rfl⟩
  · split
    next own =>
      rintro rfl
      exact ⟨ids, [], by rw [own], List.not_mem_nil, rfl⟩
    next different =>
      rintro ⟨earlier, later, rfl, last, rfl⟩
      refine ⟨earlier, later ++ [other], by simp, ?_, rfl⟩
      simpa [Ne.symm different] using last

theorem exists_of_mem {ids : List Nat} {id : Nat} (member : id ∈ ids) :
    ∃ number, Latest ids id number := by
  obtain ⟨later, earlier, equal, last⟩ := List.eq_append_cons_of_mem (List.mem_reverse.mpr member)
  refine ⟨_, earlier.reverse, later.reverse, ?_, by simpa using last, rfl⟩
  rw [← List.reverse_reverse ids, equal]
  simp

end Latest

namespace Numbering

variable {numbering : Numbering} {ids : List Nat}

/-- The numbering counts the variables that were assigned so far. -/
structure Counts (numbering : Numbering) (ids : List Nat) : Prop where
  next : numbering.next = ids.length + 1
  current : ∀ id number, numbering.current[id]? = some number ↔ Latest ids id number

theorem counts_empty : Counts {} [] where
  next := rfl
  current := by
    intro id number
    simp [Latest]

theorem Counts.meet (counts : numbering.Counts ids) (access : Access) :
    (numbering.meet access).Counts (ids ++ access.assigned?.toList) := by
  cases access with
  | read => simpa [Numbering.meet, Access.assigned?] using counts
  | assign target =>
      cases target with
      | const | param =>
          simpa [Numbering.meet, Access.assigned?, Value.id?, assign] using counts
      | var other =>
          constructor
          · simp [Numbering.meet, assign, Access.assigned?, Value.id?, counts.next]
          · intro id number
            simp only [Numbering.meet, current_assign, Access.assigned?, Value.id?,
              Option.toList_some, Latest.concat_iff, Value.var.injEq]
            split
            · rw [counts.next, Option.some.injEq, eq_comm]
            · exact counts.current id number

theorem Counts.meetAll (counts : numbering.Counts ids) (walk : List Access) :
    (numbering.meetAll walk).Counts (ids ++ Access.assigned walk) := by
  induction walk generalizing numbering ids with
  | nil => simpa using counts
  | cons access rest ih =>
      rw [meetAll_cons, Access.assigned_cons, ← List.append_assoc]
      exact ih (counts.meet access)

theorem counts_walk (walk : List Access) : (meetAll {} walk).Counts (Access.assigned walk) :=
  counts_empty.meetAll walk

/-- Exactly the variables that were assigned have numbers. -/
theorem Counts.isSome_current_iff (counts : numbering.Counts ids) {id : Nat} :
    numbering.current[id]?.isSome = true ↔ id ∈ ids := by
  rw [Option.isSome_iff_exists]
  constructor
  · rintro ⟨number, found⟩
    rcases (counts.current id number).mp found with ⟨earlier, later, rfl, _, _⟩
    exact List.mem_append_right _ List.mem_cons_self
  · intro member
    rcases Latest.exists_of_mem member with ⟨number, latest⟩
    exact ⟨number, (counts.current id number).mpr latest⟩

theorem Counts.missing?_eq_some_iff (counts : numbering.Counts ids) {access : Access}
    {error : UndefinedVariable} :
    numbering.missing? access = some error ↔
      access = .read error.routine (.var error.id) ∧ error.id ∉ ids := by
  cases access with
  | assign => simp [missing?]
  | read routine value =>
      cases value with
      | const | param => simp [missing?]
      | var id =>
          simp only [missing?, counts.isSome_current_iff, Access.read.injEq, Value.var.injEq]
          constructor
          · intro found
            split at found
            · cases found
            next unknown =>
              cases found
              exact ⟨⟨rfl, rfl⟩, unknown⟩
          · rintro ⟨⟨rfl, rfl⟩, unknown⟩
            rw [if_neg unknown]

/-- Nothing is undefined along a walk if nothing is missing at any of its places. -/
theorem undefined?_eq_none_iff {walk : List Access} :
    numbering.undefined? walk = none ↔
      ∀ front access back, walk = front ++ access :: back →
        (numbering.meetAll front).missing? access = none := by
  constructor
  · rintro defined front access back rfl
    rw [undefined?_append, Option.or_eq_none_iff, undefined?, Option.or_eq_none_iff] at defined
    exact defined.2.1
  · intro defined
    induction walk generalizing numbering with
    | nil => rfl
    | cons first rest ih =>
        have quiet : numbering.missing? first = none := defined [] first rest rfl
        rw [undefined?, quiet]
        apply ih
        intro front access back equal
        exact defined (first :: front) access back (congrArg _ equal)

/-- The error is that of the first place where something is missing. -/
theorem undefined?_eq_some_iff {walk : List Access} {error : UndefinedVariable} :
    numbering.undefined? walk = some error ↔
      ∃ front access back, walk = front ++ access :: back ∧
        (numbering.meetAll front).missing? access = some error ∧
          numbering.undefined? front = none := by
  constructor
  · intro found
    induction walk generalizing numbering with
    | nil => cases found
    | cons first rest ih =>
        rw [undefined?, Option.or_eq_some_iff] at found
        rcases found with own | ⟨quiet, later⟩
        · exact ⟨[], first, rest, rfl, own, rfl⟩
        · rcases ih later with ⟨front, access, back, rfl, missing, none⟩
          refine ⟨first :: front, access, back, rfl, missing, ?_⟩
          rw [undefined?, quiet]
          exact none
  · rintro ⟨front, access, back, rfl, missing, none⟩
    rw [undefined?_append, none, undefined?, missing]
    rfl

theorem undefined?_eq_none_iff_defined {walk : List Access} :
    undefined? {} walk = none ↔ Access.Defined walk := by
  rw [undefined?_eq_none_iff]
  constructor
  · intro defined front routine id back equal
    by_contra unknown
    have missing : (meetAll {} front).missing? (.read routine (.var id)) = some ⟨routine, id⟩ :=
      (counts_walk front).missing?_eq_some_iff.mpr ⟨rfl, unknown⟩
    rw [defined front _ back equal] at missing
    cases missing
  · intro defined front access back equal
    rw [Option.eq_none_iff_forall_ne_some]
    intro error missing
    rcases (counts_walk front).missing?_eq_some_iff.mp missing with ⟨rfl, unknown⟩
    exact unknown (defined front error.routine error.id back equal)

theorem undefined?_eq_some_iff_first {walk : List Access} {error : UndefinedVariable} :
    undefined? {} walk = some error ↔ Access.FirstUndefined walk error := by
  rw [undefined?_eq_some_iff]
  simp only [(counts_walk _).missing?_eq_some_iff, undefined?_eq_none_iff_defined]
  constructor
  · rintro ⟨front, _, back, equal, ⟨rfl, unknown⟩, defined⟩
    exact ⟨front, back, equal, unknown, defined⟩
  · rintro ⟨front, back, equal, unknown, defined⟩
    exact ⟨front, _, back, equal, ⟨rfl, unknown⟩, defined⟩

/-! ## The numbers of a walk -/

/-- An access with its number. -/
def numberAccess (numbering : Numbering) : Access → Access
  | .read routine value => .read routine (numbering.number value)
  | .assign target => .assign (numbering.assign target).1

/-- A walk with its numbers. -/
def numberWalk (numbering : Numbering) : List Access → List Access
  | [] => []
  | first :: rest => numbering.numberAccess first :: (numbering.meet first).numberWalk rest

theorem numberWalk_append (numbering : Numbering) (first second : List Access) :
    numbering.numberWalk (first ++ second) =
      numbering.numberWalk first ++ (numbering.meetAll first).numberWalk second := by
  induction first generalizing numbering with
  | nil => rfl
  | cons access rest ih => simp only [List.cons_append, numberWalk, ih, meetAll_cons]

/-- Every access is numbered where it stands. -/
theorem getElem?_numberWalk (numbering : Numbering) (walk : List Access) (place : Nat) :
    (numbering.numberWalk walk)[place]? =
      walk[place]?.map (numbering.meetAll (walk.take place)).numberAccess := by
  induction walk generalizing numbering place with
  | nil => rfl
  | cons first rest ih =>
      cases place with
      | zero => rfl
      | succ place => exact ih (numbering.meet first) place

@[simp] theorem numberWalk_read (numbering : Numbering) (routine : String) (values : List Value) :
    numbering.numberWalk (values.map (.read routine)) =
      (values.map numbering.number).map (.read routine) := by
  induction values with
  | nil => rfl
  | cons value rest ih => exact congrArg _ ih

@[simp] theorem numberWalk_assign (numbering : Numbering) (targets : List Value) :
    numbering.numberWalk (targets.map .assign) =
      (numbering.assignAll targets).1.map .assign := by
  induction targets generalizing numbering with
  | nil => rfl
  | cons target rest ih => exact congrArg _ (ih _)

theorem accesses_numberStatement (numbering : Numbering) (routine : String)
    (statement : Statement) :
    (numbering.numberStatement statement).accesses routine =
      numbering.numberWalk (statement.accesses routine) := by
  cases statement with
  | assign offset targets op operands =>
      simp [numberStatement, Statement.accesses, numberWalk_append]
  | jump offset callee condition args =>
      have target : (numbering.numberCallee callee).value?.toList =
          callee.value?.toList.map numbering.number := by
        cases callee <;> rfl
      have decides : (condition.map numbering.number).toList =
          condition.toList.map numbering.number := by
        cases condition <;> rfl
      simp only [numberStatement, Statement.accesses, numberWalk_append, meetAll_append,
        meetAll_read, numberWalk_read, target, decides]

theorem accesses_numberBody (numbering : Numbering) (routine : String) (body : List Statement) :
    (numbering.numberBody body).flatMap (Statement.accesses routine) =
      numbering.numberWalk (body.flatMap (Statement.accesses routine)) := by
  induction body generalizing numbering with
  | nil => rfl
  | cons first rest ih =>
      rw [numberBody, List.flatMap_cons, List.flatMap_cons, numberWalk_append, meetAll_accesses,
        accesses_numberStatement, ih]

/-- The walk through numbered routines is the walk with its numbers. -/
theorem accesses_numberRoutines (numbering : Numbering) (routines : List Routine) :
    (numbering.numberRoutines routines).flatMap Routine.accesses =
      numbering.numberWalk (routines.flatMap Routine.accesses) := by
  induction routines generalizing numbering with
  | nil => rfl
  | cons first rest ih =>
      have own : (numbering.numberRoutine first).accesses =
          numbering.numberWalk first.accesses := by
        rw [Routine.accesses, Routine.accesses, numberWalk_append, meetAll_body, numberWalk_read,
          ← accesses_numberBody]
        rfl
      rw [numberRoutines, List.flatMap_cons, List.flatMap_cons, numberWalk_append,
        meetAll_routine, ih, own]

/-- Assignments are numbered through. -/
theorem assigned_numberWalk (numbering : Numbering) (walk : List Access) :
    Access.assigned (numbering.numberWalk walk) =
      List.range' numbering.next (Access.assigned walk).length := by
  induction walk generalizing numbering with
  | nil => rfl
  | cons first rest ih =>
      rw [numberWalk, Access.assigned_cons, Access.assigned_cons, List.length_append, ih]
      cases first with
      | read => simp [numberAccess, meet, Access.assigned?]
      | assign target =>
          cases target with
          | const | param => simp [numberAccess, meet, Access.assigned?, assign, Value.id?]
          | var id =>
              simp [numberAccess, meet, Access.assigned?, assign, Value.id?, Nat.add_comm 1,
                List.range'_succ]

theorem getElem?_numberWalk_append (numbering : Numbering) (front : List Access) (access : Access)
    (back : List Access) :
    (numbering.numberWalk (front ++ access :: back))[front.length]? =
      some ((numbering.meetAll front).numberAccess access) := by
  simp [getElem?_numberWalk]

end Numbering

/-- The latest assignment of a variable, and its place among all assignments of a walk. -/
theorem Access.exists_of_latest {walk : List Access} {id number : Nat}
    (latest : Latest (assigned walk) id number) :
    ∃ sooner later, walk = sooner ++ .assign (.var id) :: later ∧ id ∉ assigned later ∧
      number = (assigned sooner).length + 1 := by
  rcases latest with ⟨earlier, others, equal, last, rfl⟩
  rcases List.filterMap_eq_append_iff.mp equal with ⟨front, rest, rfl, rfl, own⟩
  rcases List.filterMap_eq_cons_iff.mp own with ⟨reads, access, later, rfl, quiet, found, rfl⟩
  have target : access = .assign (.var id) := by
    cases access with
    | read => cases found
    | assign target =>
        cases target with
        | const | param => cases found
        | var other =>
            cases found
            rfl
  refine ⟨front ++ reads, later, by simp [target], last, ?_⟩
  rw [assigned_append, assigned, assigned, List.filterMap_eq_nil_iff.mpr quiet, List.append_nil]

/-! ## Nothing but numbers changes -/

/-- A value without the number of its variable. -/
def Value.unnumbered : Value → Value
  | .var _ => .var 0
  | value => value

namespace Numbering

theorem unnumbered_number (numbering : Numbering) (value : Value) :
    (numbering.number value).unnumbered = value.unnumbered := by
  cases value <;> rfl

theorem unnumbered_assignAll (numbering : Numbering) (targets : List Value) :
    (numbering.assignAll targets).1.map Value.unnumbered = targets.map Value.unnumbered := by
  induction targets generalizing numbering with
  | nil => rfl
  | cons target rest ih =>
      have first : (numbering.assign target).1.unnumbered = target.unnumbered := by
        cases target <;> rfl
      exact congrArg₂ List.cons first (ih _)

theorem unnumbered_numberStatement (numbering : Numbering) (statement : Statement) :
    (numbering.numberStatement statement).rename Value.unnumbered =
      statement.rename Value.unnumbered := by
  have values : Value.unnumbered ∘ numbering.number = Value.unnumbered :=
    funext numbering.unnumbered_number
  cases statement with
  | assign offset targets op operands =>
      simp [numberStatement, Statement.rename, unnumbered_assignAll, values]
  | jump offset callee condition args =>
      cases callee <;>
        simp [numberStatement, Statement.rename, numberCallee, Callee.rename, values,
          unnumbered_number]

theorem unnumbered_numberBody (numbering : Numbering) (body : List Statement) :
    (numbering.numberBody body).map (Statement.rename Value.unnumbered) =
      body.map (Statement.rename Value.unnumbered) := by
  induction body generalizing numbering with
  | nil => rfl
  | cons first rest ih =>
      exact congrArg₂ List.cons (numbering.unnumbered_numberStatement first) (ih _)

theorem unnumbered_numberRoutines (numbering : Numbering) (routines : List Routine) :
    (numbering.numberRoutines routines).map (Routine.rename Value.unnumbered) =
      routines.map (Routine.rename Value.unnumbered) := by
  induction routines generalizing numbering with
  | nil => rfl
  | cons first rest ih =>
      have own : (numbering.numberRoutine first).rename Value.unnumbered =
          first.rename Value.unnumbered := by
        have values : Value.unnumbered ∘ (numbering.afterAll first.body).number =
            Value.unnumbered :=
          funext (unnumbered_number _)
        simp [numberRoutine, Routine.rename, unnumbered_numberBody, values]
      exact congrArg₂ List.cons own (ih _)

/-! ## Numbering again -/

/-- Two numberings in step, the second on what the first has numbered. -/
structure Repeats (numbering again : Numbering) : Prop where
  next : again.next = numbering.next
  positive : 0 < numbering.next
  zero : again.current[0]? = none
  fixed : ∀ id number : Nat, numbering.current[id]? = some number →
    again.current[number]? = some number

variable {numbering again : Numbering}

theorem repeats_empty : Repeats {} {} := by
  refine ⟨rfl, Nat.one_pos, rfl, ?_⟩
  intro id number found
  simp at found

namespace Repeats

/-- A variable without a number is numbered zero, and zero is no number. -/
theorem number_number (repeats : numbering.Repeats again) (value : Value) :
    again.number (numbering.number value) = numbering.number value := by
  cases value with
  | const | param => rfl
  | var id =>
      cases found : numbering.current[id]? with
      | none => simp [number, found, repeats.zero]
      | some number' => simp [number, found, repeats.fixed id number' found]

theorem map_number (repeats : numbering.Repeats again) (values : List Value) :
    (values.map numbering.number).map again.number = values.map numbering.number := by
  rw [List.map_map]
  exact List.map_congr_left fun value _ => repeats.number_number value

theorem fst_assign (repeats : numbering.Repeats again) (target : Value) :
    (again.assign (numbering.assign target).1).1 = (numbering.assign target).1 := by
  cases target with
  | const | param => rfl
  | var id => exact congrArg Value.var repeats.next

theorem snd_assign (repeats : numbering.Repeats again) (target : Value) :
    (numbering.assign target).2.Repeats (again.assign (numbering.assign target).1).2 := by
  cases target with
  | const | param => exact repeats
  | var other =>
      refine ⟨congrArg Nat.succ repeats.next, Nat.succ_pos _, ?_, ?_⟩
      · rw [current_assign, if_neg]
        · exact repeats.zero
        · intro equal
          exact Nat.ne_of_gt repeats.positive (Value.var.inj equal)
      · intro id number found
        rw [current_assign] at found
        rw [current_assign, repeats.next]
        split at found
        · cases found
          exact if_pos rfl
        · split
          next own => rw [Value.var.inj own]
          · exact repeats.fixed id number found

theorem assignAll (repeats : numbering.Repeats again) (targets : List Value) :
    (again.assignAll (numbering.assignAll targets).1).1 = (numbering.assignAll targets).1 ∧
      (numbering.assignAll targets).2.Repeats
        (again.assignAll (numbering.assignAll targets).1).2 := by
  induction targets generalizing numbering again with
  | nil => exact ⟨rfl, repeats⟩
  | cons target rest ih =>
      rcases ih (repeats.snd_assign target) with ⟨others, final⟩
      exact ⟨congrArg₂ List.cons (repeats.fst_assign target) others, final⟩

theorem numberStatement (repeats : numbering.Repeats again) (statement : Statement) :
    again.numberStatement (numbering.numberStatement statement) =
      numbering.numberStatement statement := by
  cases statement with
  | assign offset targets op operands =>
      simp only [Numbering.numberStatement, (repeats.assignAll targets).1, repeats.map_number]
  | jump offset callee condition args =>
      have decides : (condition.map numbering.number).map again.number =
          condition.map numbering.number := by
        cases condition with
        | none => rfl
        | some value => exact congrArg some (repeats.number_number value)
      have target : again.numberCallee (numbering.numberCallee callee) =
          numbering.numberCallee callee := by
        cases callee with
        | routine | fault => rfl
        | computed value => exact congrArg Callee.computed (repeats.number_number value)
      simp only [Numbering.numberStatement, target, decides, repeats.map_number]

theorem after (repeats : numbering.Repeats again) (statement : Statement) :
    (numbering.after statement).Repeats (again.after (numbering.numberStatement statement)) := by
  cases statement with
  | assign offset targets op operands => exact (repeats.assignAll targets).2
  | jump => exact repeats

theorem numberBody (repeats : numbering.Repeats again) (body : List Statement) :
    again.numberBody (numbering.numberBody body) = numbering.numberBody body ∧
      (numbering.afterAll body).Repeats (again.afterAll (numbering.numberBody body)) := by
  induction body generalizing numbering again with
  | nil => exact ⟨rfl, repeats⟩
  | cons first rest ih =>
      rcases ih (repeats.after first) with ⟨others, final⟩
      exact ⟨congrArg₂ List.cons (repeats.numberStatement first) others, final⟩

/-- Numbered routines are numbered as they are. -/
theorem numberRoutines (repeats : numbering.Repeats again) (routines : List Routine) :
    again.numberRoutines (numbering.numberRoutines routines) =
      numbering.numberRoutines routines := by
  induction routines generalizing numbering again with
  | nil => rfl
  | cons first rest ih =>
      rcases repeats.numberBody first.body with ⟨body, final⟩
      have own : again.numberRoutine (numbering.numberRoutine first) =
          numbering.numberRoutine first := by
        simp only [numberRoutine, body, final.map_number]
      exact congrArg₂ List.cons own (ih final)

/-- What has a number on the walk has one on the numbered walk. -/
theorem undefined?_numberWalk (repeats : numbering.Repeats again) {walk : List Access}
    (defined : numbering.undefined? walk = none) :
    again.undefined? (numbering.numberWalk walk) = none := by
  induction walk generalizing numbering again with
  | nil => rfl
  | cons first rest ih =>
      rw [undefined?, Option.or_eq_none_iff] at defined
      rw [numberWalk, undefined?, Option.or_eq_none_iff]
      cases first with
      | assign target => exact ⟨rfl, ih (repeats.snd_assign target) defined.2⟩
      | read routine value =>
          refine ⟨?_, ih repeats defined.2⟩
          cases value with
          | const | param => rfl
          | var id =>
              cases found : numbering.current[id]? with
              | none => simp [missing?, found] at defined
              | some number =>
                  simp [missing?, numberAccess, Numbering.number, found,
                    repeats.fixed id number found]

end Repeats

end Numbering

namespace Program

/-- A program and what numbering makes of it. -/
structure Numbers (program numbered : Program) : Prop where
  /-- Only the numbers of variables differ. -/
  shape : numbered.routines.map (Routine.rename Value.unnumbered) =
    program.routines.map (Routine.rename Value.unnumbered)
  /-- Assignments are numbered from one, in the order of the walk. -/
  assigned : Access.assigned numbered.walk =
    List.range' 1 (Access.assigned program.walk).length
  /-- A variable that is read has the number of its latest assignment. -/
  reads : ∀ front routine id back, program.walk = front ++ .read routine (.var id) :: back →
    ∃ sooner later number, front = sooner ++ .assign (.var id) :: later ∧
      id ∉ Access.assigned later ∧
      numbered.walk[sooner.length]? = some (.assign (.var number)) ∧
      numbered.walk[front.length]? = some (.read routine (.var number))

theorem numbers_of_defined {program : Program} (defined : Access.Defined program.walk) :
    program.Numbers ⟨Numbering.numberRoutines {} program.routines⟩ := by
  have walks : walk ⟨Numbering.numberRoutines {} program.routines⟩ =
      Numbering.numberWalk {} program.walk :=
    Numbering.accesses_numberRoutines {} program.routines
  refine ⟨Numbering.unnumbered_numberRoutines {} program.routines, ?_, ?_⟩
  · rw [walks]
    exact Numbering.assigned_numberWalk {} program.walk
  · intro front routine id back equal
    rcases Latest.exists_of_mem (defined front routine id back equal) with ⟨number, latest⟩
    have current := ((Numbering.counts_walk front).current id number).mpr latest
    rcases Access.exists_of_latest latest with ⟨sooner, later, rfl, last, counted⟩
    refine ⟨sooner, later, number, rfl, last, ?_, ?_⟩
    · have next := (Numbering.counts_walk sooner).next
      rw [walks, equal, List.append_assoc, List.cons_append,
        Numbering.getElem?_numberWalk_append]
      simp [Numbering.numberAccess, Numbering.assign, next, counted]
    · rw [walks, equal, Numbering.getElem?_numberWalk_append]
      simp [Numbering.numberAccess, Numbering.number, current]

/-- Numbering fails exactly if some variable is read before it is assigned on the walk through
the program, and names the first one. Otherwise every variable gets the number of its latest
assignment, and numbering again changes nothing. -/
theorem renumber_along_walk (program : Program) :
    (∀ error, program.renumber = .error error ↔ Access.FirstUndefined program.walk error) ∧
      ((∃ error, program.renumber = .error error) ↔ ¬Access.Defined program.walk) ∧
      ∀ numbered, program.renumber = .ok numbered →
        program.Numbers numbered ∧ numbered.renumber = .ok numbered := by
  have fails : ∀ error, program.renumber = .error error ↔
      Numbering.undefined? {} program.walk = some error := by
    intro error
    rw [renumber_eq_settle]
    cases Numbering.undefined? {} program.walk <;> simp [Numbering.settle]
  refine ⟨?_, ?_, ?_⟩
  · intro error
    rw [fails, Numbering.undefined?_eq_some_iff_first]
  · simp only [fails]
    rw [← Numbering.undefined?_eq_none_iff_defined, ← Option.isSome_iff_exists,
      Option.isSome_iff_ne_none]
  · intro numbered succeeds
    rw [renumber_eq_settle] at succeeds
    cases defined : Numbering.undefined? {} program.walk with
    | some error =>
        rw [defined] at succeeds
        cases succeeds
    | none =>
        rw [defined] at succeeds
        cases succeeds
        refine ⟨numbers_of_defined (Numbering.undefined?_eq_none_iff_defined.mp defined), ?_⟩
        have again : Numbering.undefined? {}
            (walk ⟨Numbering.numberRoutines {} program.routines⟩) = none := by
          rw [walk, Numbering.accesses_numberRoutines]
          exact Numbering.repeats_empty.undefined?_numberWalk defined
        rw [renumber_eq_settle, again, Numbering.repeats_empty.numberRoutines]
        rfl

/-- A variable that is assigned from itself is read under its old number and returned under the
new one. -/
theorem renumber_along_walk_reassigned :
    let program : Program := ⟨[⟨"main", 0, 0,
      [.assign 0 [.var 7] (.push 1) [.const 1], .assign 2 [.var 7] (.ofByte 0x15) [.var 7]],
      [.var 7]⟩]⟩
    let numbered : Program := ⟨[⟨"main", 0, 0,
      [.assign 0 [.var 1] (.push 1) [.const 1], .assign 2 [.var 2] (.ofByte 0x15) [.var 1]],
      [.var 2]⟩]⟩
    program.renumber = .ok numbered ∧ program.Numbers numbered ∧
      numbered.renumber = .ok numbered := by
  intro program numbered
  have succeeds : program.renumber = .ok numbered := by decide +kernel
  exact ⟨succeeds, (renumber_along_walk program).2.2 numbered succeeds⟩

end Program

end EvmLift
