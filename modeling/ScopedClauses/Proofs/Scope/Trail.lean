import ScopedClauses.Proofs.Scope.Crossing

/-!
Crossings that are repeated. Where nothing that was opened is lost and what is found first stays
first, a second crossing follows the trail of the first one, whatever was added behind it.
-/

namespace ScopedClauses

section Crossable

variable {E P : Type} [Crossable E P] {Good : E → Prop} {refusal : Error} {engine grown final : E}
  {start position inner : P} {boundary : Boundary} {done boundaries : List Boundary}

inductive Trail (engine : E) : P → List Boundary → P → Prop
  | here (position : P) : Trail engine position [] position
  | through {position next inner : P} {boundary : Boundary} {rest : List Boundary} :
      Crossable.existing? engine position boundary = some next → Trail engine next rest inner →
      Trail engine position (boundary :: rest) inner

structure Retains (engine final : E) : Prop where
  existing : ∀ {position inner : P} {boundary : Boundary},
    Crossable.existing? engine position boundary = some inner →
      Crossable.existing? final position boundary = some inner
  scope : ∀ {position inner : P} {boundary : Boundary},
    Crossable.existing? engine position boundary = some inner →
      Crossable.scopeAt final position = Crossable.scopeAt engine position

theorem Retains.refl (engine : E) : Retains engine engine := ⟨id, fun _ => rfl⟩

structure Opens (engine : E) (position : P) (boundary : Boundary) (inner : P) (grown : E) :
    Prop where
  found : Crossable.existing? grown position boundary = some inner
  retains : Retains engine grown
  scope : Crossable.scopeAt grown position = Crossable.scopeAt engine position

structure Reopens (Good : E → Prop) : Prop where
  inside : ∀ {engine : E} {position inner : P} {boundary : Boundary}, Good engine →
    Crossable.existing? engine position boundary = some inner →
      Crossable.scopeAt engine inner = boundary.inside
  opened : ∀ {engine grown : E} {position inner : P} {boundary : Boundary}, Good engine →
    Crossable.existing? engine position boundary = (none : Option P) →
    Crossable.opened? engine position boundary = .ok (some (inner, grown)) →
      Good grown ∧ Opens engine position boundary inner grown

namespace Trail

theorem concat (trail : Trail engine start done position)
    (found : Crossable.existing? engine position boundary = some inner) :
    Trail engine start (done ++ [boundary]) inner := by
  induction trail with
  | here position => exact .through found (.here inner)
  | through first _ ih => exact .through first (ih found)

theorem retained (trail : Trail engine start done position) (retains : Retains engine grown) :
    Trail grown start done position := by
  induction trail with
  | here position => exact .here position
  | through found _ ih => exact .through (retains.existing found) ih

theorem cross_eq (trail : Trail engine start done position) :
    cross refusal engine start done = .ok (position, engine) := by
  induction trail with
  | here position => rfl
  | through found _ ih => exact (cross_existing found).trans ih

theorem scope_inside (trail : Trail engine start done position) (reopens : Reopens Good)
    (good : Good engine) :
    Crossable.scopeAt engine position = reach (Crossable.scopeAt engine start) done := by
  induction trail with
  | here position => rfl
  | through found _ ih => rw [ih, reopens.inside good found, reach_cons]

theorem scope_start (trail : Trail engine start done position) (retains : Retains engine grown)
    (same : Crossable.scopeAt grown position = Crossable.scopeAt engine position) :
    Crossable.scopeAt grown start = Crossable.scopeAt engine start := by
  cases trail with
  | here position => exact same
  | through found _ => exact retains.scope found

end Trail

/-- A crossing leaves a trail, from a start in the scope that it had. -/
theorem trail_cross (reopens : Reopens Good) (good : Good engine)
    (crossed : cross refusal engine start boundaries = .ok (inner, grown)) :
    Good grown ∧ Trail grown start boundaries inner ∧
      Crossable.scopeAt grown start = Crossable.scopeAt engine start := by
  let Holds := fun (rest : List Boundary) (here : E) (position : P) =>
    ∃ done, done ++ rest = boundaries ∧ Good here ∧ Trail here start done position ∧
      Crossable.scopeAt here start = Crossable.scopeAt engine start
  have ends : Holds [] grown inner := by
    refine cross_induction ?_ ?_ ⟨[], rfl, good, .here start, rfl⟩ crossed
    · rintro boundary rest here position next ⟨done, split, good, trail, scope⟩ found
      exact ⟨done ++ [boundary], by simpa using split, good, trail.concat found, scope⟩
    · rintro boundary rest here position next wider ⟨done, split, good, trail, scope⟩ missing opened
      obtain ⟨goodWider, opens⟩ := reopens.opened good missing opened
      exact ⟨done ++ [boundary], by simpa using split, goodWider,
        (trail.retained opens.retains).concat opens.found,
        (trail.scope_start opens.retains opens.scope).trans scope⟩
  obtain ⟨done, split, good, trail, scope⟩ := ends
  rw [List.append_nil] at split
  exact ⟨good, split ▸ trail, scope⟩

/-- With autocorrection a clause goes wherever the planned crossing leads. -/
theorem reconcile_crossed {field : String} {mapping : Mapping} {required : List String}
    (listed : mapping.nestedScopes field = .ok required)
    (crossed : ∀ refusal, cross refusal engine start
      (Crossing.plan (Crossable.scopeAt engine start) required).steps = .ok (inner, grown)) :
    reconcile engine start field mapping true = .ok (inner, grown) := by
  have along := crossed (.invalidNesting field (Crossable.scopeAt engine start) required.head?)
  rw [reconcile, listed, Result.ok_bind]
  simp only
  cases planned : Crossing.plan (Crossable.scopeAt engine start) required with
  | direct | enter scopes | exit target scopes =>
      rw [planned] at along
      exact along

/-- A reconciled clause belongs into the scope it came to. Whatever was added there since, a clause
with the same scopes to cross comes to the same position and opens nothing. -/
theorem reconcile_again (reopens : Reopens Good) (good : Good engine) {field : String}
    {mapping : Mapping} (made : reconcile engine start field mapping true = .ok (inner, grown)) :
    Good grown ∧ mapping.nestedAt field = .ok (Crossable.scopeAt grown inner) ∧
      ∀ {final : E} {other : String}, Retains grown final →
        Crossable.scopeAt final inner = Crossable.scopeAt grown inner →
        mapping.nestedScopes other = mapping.nestedScopes field →
          reconcile final start other mapping true = .ok (inner, final) := by
  obtain ⟨required, refusal, listed, crossed⟩ := reconcile_ok made
  obtain ⟨goodGrown, trail, scope⟩ := trail_cross reopens good crossed
  refine ⟨goodGrown, ?_, fun {final other} retains inside same => ?_⟩
  · rw [trail.scope_inside reopens goodGrown, scope, Crossing.plan_reaches, Mapping.nestedAt, listed]
    rfl
  · refine reconcile_crossed (same.trans listed) fun refusal => ?_
    rw [trail.scope_start retains inside, scope]
    exact (trail.retained retains).cross_eq

end Crossable

end ScopedClauses
