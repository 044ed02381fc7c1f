import ScopedClauses.Proofs.Result
import ScopedClauses.Scope.Reconcile

/-!
Crossings lead from the scope they start in to the scope they were planned for.
-/

namespace ScopedClauses

def reach (scope : Option String) (boundaries : List Boundary) : Option String :=
  boundaries.foldl (fun _ boundary => boundary.inside) scope

@[simp] theorem reach_nil (scope : Option String) : reach scope [] = scope := rfl

@[simp] theorem reach_cons (scope : Option String) (boundary : Boundary) (rest : List Boundary) :
    reach scope (boundary :: rest) = reach boundary.inside rest := rfl

theorem reach_concat (scope : Option String) (front : List Boundary) (boundary : Boundary) :
    reach scope (front ++ [boundary]) = boundary.inside := by
  rw [reach, List.foldl_append]
  rfl

namespace Crossing

theorem reach_enter_reverse (scope : Option String) (deepest : String) (others : List String) :
    reach scope ((deepest :: others).reverse.map .enter) = some deepest := by
  rw [List.reverse_cons, List.map_append, List.map_cons, List.map_nil, reach_concat]
  rfl

theorem reach_inside {required : List String} {current : Option String} {scope : String}
    (present : scope ∈ required) (other : required.head? ≠ some scope) :
    reach current ((inside required scope).map .enter) = required.head? := by
  cases required with
  | nil => cases present
  | cons deepest others =>
      have differs : deepest ≠ scope := fun same => other (by simp [same])
      rw [inside, List.takeWhile_cons, if_pos (by simpa using differs), reach_enter_reverse]
      rfl

/-- The steps of a planned crossing end in the deepest required scope. -/
theorem plan_reaches (current : Option String) (required : List String) :
    reach current (plan current required).steps = required.head? := by
  unfold plan
  split
  · assumption
  · rename_i apart
    cases current with
    | none =>
        cases required with
        | nil => exact absurd rfl apart
        | cons deepest others => exact reach_enter_reverse none deepest others
    | some scope =>
        have other : required.head? ≠ some scope := fun same => apart same.symm
        simp only
        split
        · rename_i present
          exact reach_inside (by simpa using present) other
        · rename_i absent
          split
          · rename_i common found
            have member := List.mem_of_find?_eq_some found
            simp only [steps, reach_cons, Boundary.inside]
            by_cases deepest : required.head? = some common
            · cases required with
              | nil => cases member
              | cons first others =>
                  cases deepest
                  simp [inside]
            · exact reach_inside member deepest
          · cases required with
            | nil => rfl
            | cons deepest others => exact reach_enter_reverse _ deepest others

theorem mem_inside {required : List String} {scope path : String}
    (listed : path ∈ inside required scope) : path ∈ required :=
  (List.takeWhile_sublist _).subset (List.mem_reverse.mp listed)

theorem mem_enters {scopes : List String} {boundary : Boundary} {path : String}
    (listed : boundary ∈ scopes.map Boundary.enter) (leads : boundary.inside = some path) :
    path ∈ scopes := by
  obtain ⟨scope, member, rfl⟩ := List.mem_map.mp listed
  cases leads
  exact member

theorem mem_steps_plan {current : Option String} {required : List String} {boundary : Boundary}
    (listed : boundary ∈ (plan current required).steps) {path : String}
    (leads : boundary.inside = some path) : path ∈ required := by
  unfold plan at listed
  split at listed
  · cases listed
  · split at listed
    · exact List.mem_reverse.mp (mem_enters listed leads)
    · split at listed
      · exact mem_inside (mem_enters listed leads)
      · split at listed
        · rename_i common found
          rcases List.mem_cons.mp listed with rfl | further
          · cases leads
            exact List.mem_of_find?_eq_some found
          · exact mem_inside (mem_enters further leads)
        · rcases List.mem_cons.mp listed with rfl | further
          · cases leads
          · exact List.mem_reverse.mp (mem_enters further leads)

end Crossing

section Crossable

variable {E P : Type} [Crossable E P] {refusal : Error} {engine grown : E} {position inner : P}
  {boundary : Boundary} {rest : List Boundary}

theorem cross_existing (found : Crossable.existing? engine position boundary = some inner) :
    cross refusal engine position (boundary :: rest) = cross refusal engine inner rest := by
  rw [cross, found]

theorem cross_opened (missing : Crossable.existing? engine position boundary = (none : Option P))
    (opened : Crossable.opened? engine position boundary = .ok (some (inner, grown))) :
    cross refusal engine position (boundary :: rest) = cross refusal grown inner rest := by
  rw [cross, missing, opened]
  rfl

theorem cross_refused (missing : Crossable.existing? engine position boundary = (none : Option P))
    (refused : Crossable.opened? engine position boundary = .ok (none : Option (P × E))) :
    cross refusal engine position (boundary :: rest) = .error refusal := by
  rw [cross, missing, refused]
  rfl

/-- What holds at a position before some boundaries holds behind them, if it does so past a clause
that is there and past one that is opened. -/
theorem cross_induction {Holds : List Boundary → E → P → Prop}
    (existing : ∀ {boundary rest engine position inner}, Holds (boundary :: rest) engine position →
      Crossable.existing? engine position boundary = some inner → Holds rest engine inner)
    (opened : ∀ {boundary rest engine position inner grown},
      Holds (boundary :: rest) engine position →
      Crossable.existing? engine position boundary = (none : Option P) →
      Crossable.opened? engine position boundary = .ok (some (inner, grown)) → Holds rest grown inner)
    {boundaries : List Boundary} (start : Holds boundaries engine position)
    (crossed : cross refusal engine position boundaries = .ok (inner, grown)) :
    Holds [] grown inner := by
  induction boundaries generalizing engine position with
  | nil =>
      cases Result.pure_ok.mp crossed
      exact start
  | cons boundary rest ih =>
      cases found : Crossable.existing? engine position boundary with
      | some next =>
          rw [cross_existing found] at crossed
          exact ih (existing start found) crossed
      | none =>
          cases made : Crossable.opened? engine position boundary with
          | error error =>
              rw [cross, found, made] at crossed
              cases crossed
          | ok next =>
              cases next with
              | none =>
                  rw [cross_refused found made] at crossed
                  cases crossed
              | some next =>
                  rw [cross_opened found made] at crossed
                  exact ih (opened start found made) crossed

theorem reconcile_ok {field : String} {mapping : Mapping} {autocorrect : Bool}
    (made : reconcile engine position field mapping autocorrect = .ok (inner, grown)) :
    ∃ required refusal, mapping.nestedScopes field = .ok required ∧
      cross refusal engine position
        (Crossing.plan (Crossable.scopeAt engine position) required).steps = .ok (inner, grown) := by
  simp only [reconcile, Result.bind_ok] at made
  obtain ⟨required, listed, made⟩ := made
  have refusal := Error.invalidNesting field (Crossable.scopeAt engine position) required.head?
  cases planned : Crossing.plan (Crossable.scopeAt engine position) required with
  | direct =>
      rw [planned] at made
      exact ⟨required, refusal, listed, by rw [planned]; exact made⟩
  | enter scopes =>
      rw [planned] at made
      simp only at made
      split at made
      · exact ⟨required, _, listed, by rw [planned]; exact made⟩
      · cases made
  | exit target scopes =>
      rw [planned] at made
      simp only at made
      split at made
      · exact ⟨required, _, listed, by rw [planned]; exact made⟩
      · cases made

/-- A clause that stands in the scope of its field already stays where it is. -/
theorem reconcile_here {field : String} {mapping : Mapping}
    (nested : mapping.nestedAt field = .ok (Crossable.scopeAt engine position))
    (autocorrect : Bool) :
    reconcile engine position field mapping autocorrect = .ok (position, engine) := by
  obtain ⟨required, listed, same⟩ := Result.map_ok.mp nested
  rw [reconcile, listed, Result.ok_bind]
  simp only [Crossing.plan, if_pos same.symm]
  rfl

/-- Without autocorrection a clause stays where it is, and it stays there with autocorrection. -/
theorem reconcile_echoes {other : E} {related : P × E → P × E → Prop}
    (same : Crossable.scopeAt other position = Crossable.scopeAt engine position)
    (both : related (position, engine) (position, other)) (field : String) (mapping : Mapping)
    (autocorrect : Bool) :
    Result.Echoes related (reconcile engine position field mapping false)
      (reconcile other position field mapping autocorrect) := by
  refine .after fun required _ => ?_
  simp only [same]
  cases Crossing.plan (Crossable.scopeAt engine position) required with
  | direct => exact .pure both
  | enter scopes | exit target scopes => exact .error

/-! ### Runs -/

inductive Act (S P : Type) where
  | own (step : S)
  | wrap (position : P) (boundary : Boundary)
  | reconcile (position : P) (field : String) (mapping : Mapping) (autocorrect : Bool)

def Act.apply {S : Type} (own : E → S → Result E) (engine : E) : Act S P → Result E
  | .own step => own engine step
  | .wrap position boundary => do
      let opened ← Crossable.opened? engine position boundary
      pure ((opened.map Prod.snd).getD engine)
  | .reconcile position field mapping autocorrect =>
      Prod.snd <$> ScopedClauses.reconcile engine position field mapping autocorrect

section Kept

variable {Good : E → Prop} (opens : ∀ {engine grown : E} {position inner : P} {boundary : Boundary},
  Good engine → Crossable.opened? engine position boundary = .ok (some (inner, grown)) → Good grown)

include opens

/-- What every opened boundary keeps is kept by reconciling a clause. -/
theorem kept_reconcile {field : String} {mapping : Mapping} {autocorrect : Bool} (good : Good engine)
    (made : reconcile engine position field mapping autocorrect = .ok (inner, grown)) :
    Good grown := by
  obtain ⟨required, refusal, _, crossed⟩ := reconcile_ok made
  let Holds := fun (_ : List Boundary) (here : E) (_ : P) => Good here
  have ends : Holds [] grown inner :=
    cross_induction (fun stays _ => stays) (fun stays _ opened => opens stays opened) good crossed
  exact ends

/-- What every opened boundary and every step of the engine keep is kept by a run. -/
theorem kept_acts {S : Type} {own : E → S → Result E} {Admitted : S → Prop}
    (steps : ∀ {engine final : E} {step : S}, Admitted step → Good engine →
      own engine step = .ok final → Good final)
    (good : Good engine) (acts : List (Act S P))
    (admitted : ∀ step, Act.own step ∈ acts → Admitted step)
    (ran : acts.foldlM (Act.apply own) engine = .ok grown) : Good grown := by
  induction acts generalizing engine with
  | nil =>
      cases Result.pure_ok.mp ran
      exact good
  | cons act rest ih =>
      rw [List.foldlM_cons] at ran
      obtain ⟨middle, applied, later⟩ := Result.bind_ok.mp ran
      refine ih ?_ (fun step member => admitted step (List.mem_cons_of_mem act member)) later
      cases act with
      | own step => exact steps (admitted step List.mem_cons_self) good applied
      | wrap position boundary =>
          obtain ⟨opened, made, same⟩ := Result.bind_ok.mp applied
          cases Result.pure_ok.mp same
          cases opened with
          | none => exact good
          | some reached => exact opens good made
      | reconcile position field mapping autocorrect =>
          obtain ⟨reached, made, rfl⟩ := Result.map_ok.mp applied
          exact kept_reconcile opens good made

end Kept

end Crossable

end ScopedClauses
