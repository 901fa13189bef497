/-!
# Steps that may fail

A row of steps succeeds when each step does, on what the steps before it gave.
-/
namespace HornLogic

set_option autoImplicit false

variable {Fault Item Result : Type}

theorem map_eq_ok_iff {read : Except Fault Item} {change : Item → Result} {result : Result} :
    read.map change = .ok result ↔ ∃ item, read = .ok item ∧ change item = result := by
  cases read <;> simp [Except.map]

theorem map_eq_error_iff {read : Except Fault Item} {change : Item → Result} {fault : Fault} :
    read.map change = .error fault ↔ read = .error fault := by
  cases read <;> simp [Except.map]

theorem bind_eq_ok_iff {read : Except Fault Item} {next : Item → Except Fault Result}
    {result : Result} :
    read >>= next = .ok result ↔ ∃ item, read = .ok item ∧ next item = .ok result := by
  cases read <;> simp [bind, Except.bind]

theorem mapM_cons_eq_ok_iff {read : Item → Except Fault Result} {first : Item} {rest : List Item}
    {results : List Result} :
    (first :: rest).mapM read = .ok results ↔
      ∃ result others, read first = .ok result ∧ rest.mapM read = .ok others ∧
        results = result :: others := by
  rw [List.mapM_cons]
  constructor
  · intro readAll
    obtain ⟨result, readFirst, readRest⟩ := bind_eq_ok_iff.mp readAll
    obtain ⟨others, readOthers, built⟩ := bind_eq_ok_iff.mp readRest
    cases built
    exact ⟨result, others, readFirst, readOthers, rfl⟩
  · intro ⟨result, others, readFirst, readRest, built⟩
    rw [readFirst, readRest, built]
    rfl

theorem mapM_cons_of_ok {read : Item → Except Fault Result} {first : Item} {result : Result}
    (given : read first = .ok result) (rest : List Item) :
    (first :: rest).mapM read = rest.mapM read >>= fun others => pure (result :: others) := by
  rw [List.mapM_cons, given]
  rfl

theorem mapM_append_of_ok {read : Item → Except Fault Result} {items : List Item} {results : List Result}
    (given : items.mapM read = .ok results) (rest : List Item) :
    (items ++ rest).mapM read = rest.mapM read >>= fun others => pure (results ++ others) := by
  rw [List.mapM_append, given]
  rfl

theorem mapM_append_eq_ok {read : Item → Except Fault Result} {items others : List Item}
    {results later : List Result} (first : items.mapM read = .ok results)
    (second : others.mapM read = .ok later) :
    (items ++ others).mapM read = .ok (results ++ later) := by
  rw [mapM_append_of_ok first, second]
  rfl

/-- All steps succeed, or there is a first one that does not. -/
theorem mapM_cases (read : Item → Except Fault Result) (items : List Item) :
    (∃ results, items.mapM read = .ok results) ∨
      ∃ before item after results fault, items = before ++ item :: after ∧
        before.mapM read = .ok results ∧ read item = .error fault := by
  induction items with
  | nil => exact .inl ⟨[], rfl⟩
  | cons first rest ih =>
      cases readFirst : read first with
      | error fault => exact .inr ⟨[], first, rest, [], fault, rfl, rfl, readFirst⟩
      | ok result =>
          rcases ih with ⟨results, readRest⟩ | ⟨before, item, after, results, fault, parts, front, fails⟩
          · exact .inl ⟨result :: results,
              mapM_cons_eq_ok_iff.mpr ⟨result, results, readFirst, readRest, rfl⟩⟩
          · rw [parts]
            exact .inr ⟨first :: before, item, after, result :: results, fault, rfl,
              mapM_cons_eq_ok_iff.mpr ⟨result, results, readFirst, front, rfl⟩, fails⟩

theorem exists_of_mapM_eq_ok {read : Item → Except Fault Result} {items : List Item}
    {results : List Result} (succeeds : items.mapM read = .ok results) :
    ∀ item ∈ items, ∃ result, read item = .ok result := by
  induction items generalizing results with
  | nil => exact List.forall_mem_nil _
  | cons first rest ih =>
      obtain ⟨result, others, readFirst, readRest, _⟩ := mapM_cons_eq_ok_iff.mp succeeds
      exact List.forall_mem_cons.mpr ⟨⟨result, readFirst⟩, ih readRest⟩

theorem exists_of_mem_results {read : Item → Except Fault Result} {items : List Item}
    {results : List Result} (succeeds : items.mapM read = .ok results) :
    ∀ result ∈ results, ∃ item ∈ items, read item = .ok result := by
  induction items generalizing results with
  | nil =>
      cases succeeds
      exact List.forall_mem_nil _
  | cons first rest ih =>
      obtain ⟨result, others, readFirst, readRest, rfl⟩ := mapM_cons_eq_ok_iff.mp succeeds
      intro other listed
      rcases List.mem_cons.mp listed with rfl | later
      · exact ⟨first, List.mem_cons_self, readFirst⟩
      · obtain ⟨item, member, readItem⟩ := ih readRest other later
        exact ⟨item, List.mem_cons_of_mem first member, readItem⟩

theorem map_of_mapM_eq_ok {read : Item → Except Fault Result} {items : List Item}
    {results : List Result} (succeeds : items.mapM read = .ok results) :
    items.map read = results.map .ok := by
  induction items generalizing results with
  | nil =>
      cases succeeds
      rfl
  | cons first rest ih =>
      obtain ⟨result, others, readFirst, readRest, rfl⟩ := mapM_cons_eq_ok_iff.mp succeeds
      rw [List.map_cons, List.map_cons, readFirst, ih readRest]

/-- What is left of some results in front of a fault. -/
theorem results_before {results : List Result} {rest : List (Except Fault Result)}
    (stops : rest.takeWhile Except.isOk = []) :
    ((results.map Except.ok ++ rest).takeWhile Except.isOk).filterMap Except.toOption = results := by
  induction results with
  | nil =>
      rw [List.map_nil, List.nil_append, stops]
      rfl
  | cons first others ih => exact congrArg (first :: ·) ih

/-- Steps that take back what was done to each item. -/
theorem mapM_map_eq_ok {read : Item → Except Fault Result} {write : Result → Item}
    {results : List Result} (takesBack : ∀ result ∈ results, read (write result) = .ok result) :
    (results.map write).mapM read = .ok results := by
  induction results with
  | nil => rfl
  | cons first rest ih =>
      have readRest := ih fun result member => takesBack result (List.mem_cons_of_mem first member)
      exact mapM_cons_eq_ok_iff.mpr ⟨first, rest, takesBack first List.mem_cons_self, readRest, rfl⟩

theorem mapM_succeeds {read : Item → Except Fault Result} {items : List Item}
    (each : ∀ item ∈ items, ∃ result, read item = .ok result) :
    ∃ results, items.mapM read = .ok results := by
  induction items with
  | nil => exact ⟨[], rfl⟩
  | cons first rest ih =>
      obtain ⟨result, readFirst⟩ := each first List.mem_cons_self
      obtain ⟨results, readRest⟩ := ih fun item member => each item (List.mem_cons_of_mem _ member)
      rw [List.mapM_cons, readFirst, readRest]
      exact ⟨result :: results, rfl⟩

section Told

variable {Kind : Type} {kind : Fault → Kind} {read other : Except Fault Item}

theorem outcomes_of_mapError (same : other.mapError kind = read.mapError kind) :
    (∃ fault otherFault, read = .error fault ∧ other = .error otherFault ∧ kind otherFault = kind fault) ∨
      ∃ item, read = .ok item ∧ other = .ok item := by
  cases read with
  | error fault =>
      cases other with
      | error otherFault => exact .inl ⟨fault, otherFault, rfl, rfl, Except.error.inj same⟩
      | ok otherItem => cases same
  | ok item =>
      cases other with
      | error otherFault => cases same
      | ok otherItem =>
          cases same
          exact .inr ⟨_, rfl, rfl⟩

theorem mapError_bind (same : other.mapError kind = read.mapError kind) (next : Item → Except Fault Result) :
    (other >>= next).mapError kind = (read >>= next).mapError kind := by
  rcases outcomes_of_mapError same with ⟨fault, otherFault, rfl, rfl, told⟩ | ⟨item, rfl, rfl⟩
  · exact congrArg Except.error told
  · rfl

theorem mapError_map (same : other.mapError kind = read.mapError kind) (change : Item → Result) :
    (other.map change).mapError kind = (read.map change).mapError kind := by
  rcases outcomes_of_mapError same with ⟨fault, otherFault, rfl, rfl, told⟩ | ⟨item, rfl, rfl⟩
  · exact congrArg Except.error told
  · rfl

end Told

/-- Both fail, with whatever fault, or both succeed with the same result. -/
def Alike (left right : Except Fault Item) : Prop :=
  left.toOption = right.toOption

namespace Alike

variable {left right : Except Fault Item}

theorem outcomes (alike : Alike left right) :
    (∃ fault otherFault, left = .error fault ∧ right = .error otherFault) ∨
      ∃ item, left = .ok item ∧ right = .ok item := by
  cases left with
  | error fault =>
      cases right with
      | error otherFault => exact .inl ⟨fault, otherFault, rfl, rfl⟩
      | ok other => cases alike
  | ok item =>
      cases right with
      | error otherFault => cases alike
      | ok other =>
          cases alike
          exact .inr ⟨item, rfl, rfl⟩

theorem bind {leftNext rightNext : Item → Except Fault Result} (first : Alike left right)
    (next : ∀ item, Alike (leftNext item) (rightNext item)) :
    Alike (left >>= leftNext) (right >>= rightNext) := by
  rcases first.outcomes with ⟨fault, otherFault, rfl, rfl⟩ | ⟨item, rfl, rfl⟩
  · rfl
  · exact next item

end Alike

end HornLogic
