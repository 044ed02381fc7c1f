import ScopedClauses.Proofs.Mapping.Scopes
import ScopedClauses.Proofs.Scope.Crossing

/-!
A planned crossing is a shortest one. Boundaries may be crossed where the mapping has them: into a
nested field from the scope directly around it, and out of a scope to one around it or to the
document. What is left to cross is never shortened by more than one boundary.
-/

namespace ScopedClauses

variable {mapping : Mapping}

inductive Passable (mapping : Mapping) : Option String → Boundary → Prop where
  | enter {path : String} {outer : List String}
      (declared : mapping.nestedScopes path = .ok (path :: outer)) :
      Passable mapping outer.head? (.enter path)
  | leave {scope : Option String} : Passable mapping scope (.exit none)
  | exit {scope target : String} {outer : List String}
      (declared : mapping.nestedScopes scope = .ok (scope :: outer)) (around : target ∈ outer) :
      Passable mapping (some scope) (.exit (some target))

inductive Leads (mapping : Mapping) : Option String → List Boundary → Option String → Prop where
  | nil {scope : Option String} : Leads mapping scope [] scope
  | cons {scope final : Option String} {boundary : Boundary} {rest : List Boundary}
      (first : Passable mapping scope boundary) (others : Leads mapping boundary.inside rest final) :
      Leads mapping scope (boundary :: rest) final

theorem Leads.concat {scope middle : Option String} {steps : List Boundary} {boundary : Boundary}
    (leads : Leads mapping scope steps middle) (last : Passable mapping middle boundary) :
    Leads mapping scope (steps ++ [boundary]) boundary.inside := by
  induction leads with
  | nil => exact .cons last .nil
  | cons first _ ih => exact .cons first (ih last)

theorem leads_inwards {front back : List String} (chained : mapping.Chained (front ++ back)) :
    Leads mapping back.head? (front.reverse.map .enter) (front ++ back).head? := by
  induction front with
  | nil => exact .nil
  | cons path front ih =>
      rw [List.reverse_cons, List.map_append]
      exact (ih chained.2).concat (.enter chained.1)

namespace Crossing

open Mapping (chained_suffix)

theorem inside_append {front back : List String} {scope : String} (outside : scope ∉ front) :
    inside (front ++ scope :: back) scope = front.reverse := by
  have others : ∀ path ∈ front, decide (path ≠ scope) = true := fun path listed =>
    decide_eq_true fun same => outside (same ▸ listed)
  rw [inside, List.takeWhile_append_of_pos others, List.takeWhile_cons_of_neg (by simp),
    List.append_nil]

/-! ### What is left to cross -/

def around (mapping : Mapping) : Option String → List String
  | none => []
  | some scope => (mapping.nestedScopes scope).toOption.getD []

def distance (mapping : Mapping) (required : List String) (scope : Option String) : Nat :=
  (required.takeWhile (· ∉ around mapping scope)).length +
    if ∀ path ∈ scope, path ∈ required then 0 else 1

theorem around_head {back : List String} (chained : mapping.Chained back) :
    around mapping back.head? = back := by
  cases back with
  | nil => rfl
  | cons path outer =>
      rw [List.head?_cons, around, chained.1]
      rfl

theorem takeWhile_front {front back scopes : List String} (outside : ∀ path ∈ front, path ∉ scopes)
    (stop : ∀ path ∈ back.head?, path ∈ scopes) :
    (front ++ back).takeWhile (· ∉ scopes) = front := by
  rw [List.takeWhile_append_of_pos (by simpa using outside)]
  cases back with
  | nil => simp
  | cons path back => rw [List.takeWhile_cons_of_neg (by simpa using stop), List.append_nil]

theorem distance_head {front back : List String} (chained : mapping.Chained (front ++ back)) :
    distance mapping (front ++ back) back.head? = front.length := by
  have apart := (List.nodup_append.mp chained.nodup).2.2
  have known : ∀ path ∈ back.head?, path ∈ back := fun path first => List.mem_of_head? first
  have inside : ∀ path ∈ back.head?, path ∈ front ++ back := fun path first =>
    List.mem_append_right front (known path first)
  rw [distance, around_head (chained_suffix chained), if_pos inside,
    takeWhile_front (fun path listed again => apart path listed path again rfl) known,
    Nat.add_zero]

theorem distance_none {required : List String} (chained : mapping.Chained required) :
    distance mapping required none = required.length := by
  rw [← List.append_nil required] at chained
  simpa using distance_head chained

theorem distance_le (mapping : Mapping) (required : List String) (scope : Option String) :
    distance mapping required scope ≤
      (required.takeWhile (· ∉ around mapping scope)).length + 1 := by
  rw [distance]
  split <;> omega

theorem le_distance (mapping : Mapping) (required : List String) (scope : Option String) :
    (required.takeWhile (· ∉ around mapping scope)).length ≤ distance mapping required scope :=
  Nat.le_add_right _ _

theorem length_takeWhile_le {scopes others required : List String}
    (part : ∀ path ∈ required, path ∈ others → path ∈ scopes) :
    (required.takeWhile (· ∉ scopes)).length ≤ (required.takeWhile (· ∉ others)).length := by
  induction required with
  | nil => exact Nat.le_refl _
  | cons path rest ih =>
      obtain ⟨here, later⟩ := List.forall_mem_cons.mp part
      by_cases inside : path ∈ scopes
      · simp [inside]
      · have outside : path ∉ others := fun listed => inside (here listed)
        simpa [inside, outside] using ih later

theorem distance_enter (orderly : mapping.Orderly) {required : List String}
    (chained : mapping.Chained required) {path : String} {outer : List String}
    (declared : mapping.nestedScopes path = .ok (path :: outer)) :
    distance mapping required outer.head? ≤ distance mapping required (some path) + 1 := by
  have inwards := orderly.chained declared
  by_cases needed : path ∈ required
  · -- the scopes around a required one are required as well
    obtain ⟨front, back, rfl⟩ := List.append_of_mem needed
    have own := (chained_suffix chained).1
    rw [declared] at own
    cases own
    have regrouped : mapping.Chained ((front ++ [path]) ++ outer) := by simpa using chained
    have before := distance_head regrouped
    have after := distance_head chained
    rw [List.append_assoc, List.singleton_append, List.length_append] at before
    exact Nat.le_of_eq (before.trans (congrArg (· + 1) after.symm))
  · have shorter : (required.takeWhile (· ∉ outer)).length ≤
        (required.takeWhile (· ∉ path :: outer)).length := by
      refine length_takeWhile_le fun other listed inside => ?_
      exact (List.mem_cons.mp inside).resolve_left fun same => needed (same ▸ listed)
    have after : distance mapping required (some path) =
        (required.takeWhile (· ∉ path :: outer)).length + 1 := by
      rw [distance, show around mapping (some path) = path :: outer from around_head inwards,
        if_neg fun all => needed (all path rfl)]
    have before := distance_le mapping required outer.head?
    rw [around_head inwards.2] at before
    omega

theorem distance_exit (orderly : mapping.Orderly) (required : List String) {path target : String}
    {outer : List String} (declared : mapping.nestedScopes path = .ok (path :: outer))
    (above : target ∈ outer) :
    distance mapping required (some path) ≤ distance mapping required (some target) + 1 := by
  have inwards := orderly.chained declared
  obtain ⟨front, back, rfl⟩ := List.append_of_mem above
  have wider : (required.takeWhile (· ∉ path :: (front ++ target :: back))).length ≤
      (required.takeWhile (· ∉ target :: back)).length :=
    length_takeWhile_le fun other _ inside => by simp [List.mem_cons.mp inside]
  have before := distance_le mapping required (some path)
  have after := le_distance mapping required (some target)
  rw [show around mapping (some path) = _ from around_head inwards] at before
  rw [show around mapping (some target) = _ from around_head (chained_suffix inwards.2)] at after
  omega

theorem distance_passable (orderly : mapping.Orderly) {required : List String}
    (chained : mapping.Chained required) {scope : Option String} {boundary : Boundary}
    (passable : Passable mapping scope boundary) :
    distance mapping required scope ≤ distance mapping required boundary.inside + 1 := by
  cases passable with
  | enter declared => exact distance_enter orderly chained declared
  | leave =>
      have before := distance_le mapping required scope
      have part : (required.takeWhile (· ∉ around mapping scope)).length ≤ required.length :=
        (List.takeWhile_prefix _).length_le
      rw [Boundary.inside, distance_none chained]
      omega
  | exit declared above => exact distance_exit orderly required declared above

theorem distance_leads (orderly : mapping.Orderly) {required : List String}
    (chained : mapping.Chained required) {scope final : Option String} {steps : List Boundary}
    (leads : Leads mapping scope steps final) :
    distance mapping required scope ≤ steps.length + distance mapping required final := by
  induction leads with
  | nil => exact Nat.le_add_left _ _
  | cons first _ ih =>
      have crossed := distance_passable orderly chained first
      rw [List.length_cons]
      omega

/-! ### Planned crossings -/

section Unneeded

variable {field scope : String} {required outer : List String} (orderly : mapping.Orderly)
  (found : mapping.nestedScopes field = .ok required)
  (own : mapping.nestedScopes scope = .ok (scope :: outer)) (unneeded : scope ∉ required)

include orderly found own unneeded

theorem isWithin_required {path : String} (listed : path ∈ required) :
    isWithin scope path = true ↔ path ∈ scope :: outer := by
  have differs : path ≠ scope := fun same => unneeded (same ▸ listed)
  rw [orderly.isWithin_iff_mem own (orderly.isNested_of_nestedScopes found listed),
    List.mem_cons, or_iff_right differs]

theorem required_nearest {common : String}
    (nearest : required.find? (isWithin scope) = some common) :
    ∃ front back, required = front ++ common :: back ∧ common ∈ outer ∧
      ∀ path ∈ front, path ∉ scope :: outer := by
  obtain ⟨inside, front, back, rfl, apart⟩ := List.find?_eq_some_iff_append.mp nearest
  refine ⟨front, back, rfl, ?_, fun path listed around => ?_⟩
  · have above := (isWithin_required orderly found own unneeded (by simp)).mp inside
    exact (List.mem_cons.mp above).resolve_left fun same => unneeded (same ▸ by simp)
  · have within := (isWithin_required orderly found own unneeded (by simp [listed])).mpr around
    simpa [within] using apart path listed

theorem required_apart (apart : required.find? (isWithin scope) = none) :
    ∀ path ∈ required, path ∉ scope :: outer := by
  intro path listed around
  exact List.find?_eq_none.mp apart path listed
    ((isWithin_required orderly found own unneeded listed).mpr around)

end Unneeded

/-- A planned crossing leaves at most one scope, and then enters the required scopes that it does
not lie in. -/
theorem plan_steps (orderly : mapping.Orderly) {field : String} {required : List String}
    (found : mapping.nestedScopes field = .ok required) {current : Option String}
    (nested : ∀ scope ∈ current, mapping.isNested scope = true) :
    ∃ front back, required = front ++ back ∧
      ((current = back.head? ∧ (plan current required).steps = front.reverse.map .enter) ∨
        ((∃ scope ∈ current, scope ∉ required) ∧ Passable mapping current (.exit back.head?) ∧
          front = required.takeWhile (· ∉ around mapping current) ∧
          (plan current required).steps = .exit back.head? :: front.reverse.map .enter)) := by
  have distinct := (orderly.chained found).nodup
  unfold plan
  split
  · rename_i here
    exact ⟨[], required, rfl, Or.inl ⟨here, rfl⟩⟩
  · cases current with
    | none => exact ⟨required, [], by simp, Or.inl ⟨rfl, rfl⟩⟩
    | some scope =>
        obtain ⟨outer, own⟩ := orderly.nestedScopes_nested (nested scope rfl)
        have here : around mapping (some scope) = scope :: outer :=
          around_head (orderly.chained own)
        simp only
        split
        · rename_i present
          obtain ⟨front, back, rfl⟩ := List.append_of_mem (List.contains_iff_mem.mp present)
          have outside : scope ∉ front := fun listed =>
            (List.nodup_append.mp distinct).2.2 scope listed scope List.mem_cons_self rfl
          exact ⟨front, scope :: back, rfl, Or.inl ⟨rfl, by rw [steps, inside_append outside]⟩⟩
        · rename_i absent
          have unneeded : scope ∉ required := fun listed =>
            absent (List.contains_iff_mem.mpr listed)
          split
          · rename_i common nearest
            obtain ⟨front, back, rfl, strictly, outside⟩ :=
              required_nearest orderly found own unneeded nearest
            have inner : common ∉ front := fun listed =>
              outside common listed (List.mem_cons_of_mem scope strictly)
            refine ⟨front, common :: back, rfl,
              Or.inr ⟨⟨scope, rfl, unneeded⟩, .exit own strictly, ?_, ?_⟩⟩
            · rw [here, takeWhile_front outside (by simp [strictly])]
            · rw [steps, inside_append inner]
              rfl
          · rename_i apart
            refine ⟨required, [], by simp, Or.inr ⟨⟨scope, rfl, unneeded⟩, .leave, ?_, rfl⟩⟩
            have all : (required ++ []).takeWhile (· ∉ scope :: outer) = required :=
              takeWhile_front (required_apart orderly found own unneeded apart) (by simp)
            rw [List.append_nil] at all
            rw [here, all]

theorem plan_leads (orderly : mapping.Orderly) {field : String} {required : List String}
    (found : mapping.nestedScopes field = .ok required) {current : Option String}
    (nested : ∀ scope ∈ current, mapping.isNested scope = true) :
    Leads mapping current (plan current required).steps required.head? := by
  have chained := orderly.chained found
  obtain ⟨front, back, rfl, ⟨rfl, steps⟩ | ⟨_, passable, _, steps⟩⟩ :=
    plan_steps orderly found nested
  · rw [steps]
    exact leads_inwards chained
  · rw [steps]
    exact .cons passable (leads_inwards chained)

theorem length_plan (orderly : mapping.Orderly) {field : String} {required : List String}
    (found : mapping.nestedScopes field = .ok required) {current : Option String}
    (nested : ∀ scope ∈ current, mapping.isNested scope = true) :
    (plan current required).steps.length = distance mapping required current := by
  obtain ⟨front, back, rfl, ⟨rfl, steps⟩ | ⟨⟨scope, here, unneeded⟩, _, outside, steps⟩⟩ :=
    plan_steps orderly found nested
  · rw [steps, List.length_map, List.length_reverse, distance_head (orderly.chained found)]
  · rw [steps, List.length_cons, List.length_map, List.length_reverse, distance, ← outside,
      if_neg fun all => unneeded (all scope here)]

/-- A planned crossing can be made, ends in the scope of its field, and is a shortest one. -/
theorem plan_shortest {json : Json} (distinct : json.distinct = true)
    (read : Mapping.ofJson json = .ok mapping) (undotted : mapping.Undotted)
    {current : Option String} (nested : ∀ scope ∈ current, mapping.isNested scope = true)
    {field : String} (known : mapping.contains field = true) :
    ∃ required, mapping.nestedScopes field = .ok required ∧
      Leads mapping current (plan current required).steps required.head? ∧
      ∀ steps, Leads mapping current steps required.head? →
        (plan current required).steps.length ≤ steps.length := by
  have orderly := Mapping.orderly_ofJson distinct read undotted
  obtain ⟨required, found⟩ := Mapping.exists_nestedScopes known
  refine ⟨required, found, plan_leads orderly found nested, fun steps leads => ?_⟩
  have chained := orderly.chained found
  have arrived : distance mapping required required.head? = 0 :=
    distance_head (List.nil_append required ▸ chained)
  have left := distance_leads orderly chained leads
  rw [length_plan orderly found nested]
  omega

def castDeclaration : Json :=
  .object [("properties", .object [
    ("cast", .object [("type", .string "nested"), ("properties", .object [
      ("awards", .object [("type", .string "nested"), ("properties", .object [
        ("year", .object [("type", .string "integer")])])]),
      ("roles", .object [("type", .string "nested"), ("properties", .object [
        ("name", .object [("type", .string "text"), ("fields", .object [
          ("raw", .object [("type", .string "keyword")])])])])])])])])]

theorem plan_shortest_cast : ∃ mapping, Mapping.ofJson castDeclaration = .ok mapping ∧
    mapping.Undotted ∧ mapping.isNested "cast.awards" = true ∧
    mapping.contains "cast.roles.name.raw" = true ∧
    ∃ required, mapping.nestedScopes "cast.roles.name.raw" = .ok required ∧
      plan (some "cast.awards") required = .exit (some "cast") ["cast.roles"] ∧
      ∀ steps, Leads mapping (some "cast.awards") steps (some "cast.roles") →
        2 ≤ steps.length := by
  obtain ⟨mapping, read, checked⟩ := Result.ok_of_any
    (show (Mapping.ofJson castDeclaration).toOption.any (fun mapping =>
      decide mapping.Undotted && mapping.isNested "cast.awards" &&
      mapping.contains "cast.roles.name.raw" &&
      (mapping.nestedScopes "cast.roles.name.raw").toOption.any
        (· = ["cast.roles", "cast"])) = true by decide +kernel)
  simp only [Bool.and_eq_true, decide_eq_true_eq] at checked
  obtain ⟨⟨⟨undotted, nested⟩, known⟩, scopes⟩ := checked
  obtain ⟨required, found, shown⟩ := Result.ok_of_any scopes
  obtain rfl := of_decide_eq_true shown
  have within : ∀ scope ∈ some "cast.awards", mapping.isNested scope = true := by simpa using nested
  obtain ⟨again, listed, _, shortest⟩ :=
    plan_shortest (by decide +kernel) read undotted within known
  obtain rfl := Except.ok.inj (found.symm.trans listed)
  have planned : plan (some "cast.awards") ["cast.roles", "cast"] =
      .exit (some "cast") ["cast.roles"] := by decide +kernel
  rw [planned] at shortest
  exact ⟨mapping, read, undotted, nested, known, _, found, planned, shortest⟩

end Crossing

end ScopedClauses
