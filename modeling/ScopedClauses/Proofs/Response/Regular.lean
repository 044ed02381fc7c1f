import ScopedClauses.Proofs.Response.Walking

/-!
Regular steps. Where all conditions in and inside a scope are reached through one entry of it,
choosing a nested document for each scope comes to the same as choosing one for each entry.
-/

namespace ScopedClauses

namespace Step

def stated (spots : List Spot) : List (List (String × Nat)) :=
  (spots.filter fun spot => (fragment? spot).isSome).map Spot.trail

def sharing (first second : List (String × Nat)) : Bool :=
  first.all fun (path, entry) => second.all fun (other, number) => other ≠ path || number = entry

/-- Whether a step keeps to the declared scopes, with all conditions in and inside a scope reached
through one entry of it. A marker enters a scope that is declared directly inside the one around
it and that conditions are stated in or inside; a marker that goes back to a scope is inside it. -/
def allowed (mapping : Mapping) (trails : List (List (String × Nat))) (spot : Spot) : Bool :=
  match spot.step with
  | .test _ => trails.all (sharing spot.trail)
  | .cross (.enter path) =>
      (mapping.nestedScopes path).toOption = some (path :: spot.trail.map (·.1)) &&
        trails.any fun trail => (trail.map (·.1)).contains path
  | .cross (.exit target) => (back? target spot.trail).isSome

def regular (mapping : Mapping) (steps : List Step) : Bool :=
  (spots 0 [] steps).all (allowed mapping (stated (spots 0 [] steps)))

structure Regular (mapping : Mapping) (spots : List Spot) : Prop where
  declared : ∀ spot ∈ spots, ∀ path, spot.step = .cross (.enter path) →
    mapping.nestedScopes path = .ok (path :: spot.trail.map (·.1))
  asked : ∀ spot ∈ spots, ∀ path, spot.step = .cross (.enter path) →
    ∃ trail ∈ stated spots, path ∈ trail.map (·.1)
  returns : ∀ spot ∈ spots, ∀ target, spot.step = .cross (.exit target) →
    (back? target spot.trail).isSome = true
  shared : ∀ first ∈ stated spots, ∀ second ∈ stated spots, ∀ path entry number,
    (path, entry) ∈ first → (path, number) ∈ second → entry = number

theorem mem_stated {spots : List Spot} {trail : List (String × Nat)} :
    trail ∈ stated spots ↔ ∃ condition, ⟨trail, .test condition⟩ ∈ spots := by
  simp only [stated, List.mem_map, List.mem_filter]
  constructor
  · rintro ⟨⟨_, step⟩, ⟨member, tests⟩, rfl⟩
    cases step with
    | test condition => exact ⟨condition, member⟩
    | cross boundary => cases tests
  · rintro ⟨condition, member⟩
    exact ⟨_, ⟨member, rfl⟩, rfl⟩

theorem regular_spots {mapping : Mapping} {steps : List Step}
    (holds : regular mapping steps = true) : Regular mapping (spots 0 [] steps) := by
  have each := List.all_eq_true.mp holds
  refine ⟨?_, ?_, ?_, ?_⟩
  · rintro ⟨trail, _⟩ member path rfl
    have here := each _ member
    simp only [allowed, Bool.and_eq_true, decide_eq_true_eq] at here
    cases found : mapping.nestedScopes path with
    | error error => simp [found, Except.toOption] at here
    | ok scopes => simpa [found, Except.toOption] using here.1
  · rintro ⟨trail, _⟩ member path rfl
    have here := each _ member
    simp only [allowed, Bool.and_eq_true, List.any_eq_true, List.contains_iff_mem] at here
    exact here.2
  · rintro ⟨trail, _⟩ member target rfl
    exact each _ member
  · intro first statedFirst second statedSecond path entry number onFirst onSecond
    obtain ⟨condition, member⟩ := mem_stated.mp statedFirst
    have here := List.all_eq_true.mp (each _ member) second statedSecond
    have same := List.all_eq_true.mp (List.all_eq_true.mp here _ onFirst) _ onSecond
    simpa [eq_comm] using same

section Regular

variable {mapping : Mapping} {steps : List Step}

def fragments (steps : List Step) : List Fragment := (spots 0 [] steps).filterMap fragment?

def playing (mapping : Mapping) (steps : List Step) : List String :=
  Selection.scopesInPlay (fragments steps) (some mapping)

theorem mem_fragments {fragment : Fragment} :
    fragment ∈ fragments steps ↔ ∃ trail condition, ⟨trail, .test condition⟩ ∈ spots 0 [] steps ∧
      fragment = ⟨trail.head?.map (·.1), condition⟩ := by
  simp only [fragments, List.mem_filterMap]
  constructor
  · rintro ⟨⟨trail, step⟩, member, found⟩
    cases step with
    | test condition => exact ⟨trail, condition, member, (Option.some.inj found).symm⟩
    | cross boundary => cases found
  · rintro ⟨trail, condition, member, rfl⟩
    exact ⟨_, member, rfl⟩

variable (regular : Regular mapping (spots 0 [] steps))

include regular

theorem Regular.chained {trail : List (String × Nat)}
    (listed : trail ∈ stated (spots 0 [] steps)) : mapping.Chained (trail.map (·.1)) := by
  obtain ⟨condition, member⟩ := mem_stated.mp listed
  have start : mapping.Chained (([] : List (String × Nat)).map (·.1)) := trivial
  exact chained_spots start regular.declared _ member

theorem Regular.mem_playing {scope : String} :
    scope ∈ playing mapping steps ↔
      ∃ trail ∈ stated (spots 0 [] steps), scope ∈ trail.map (·.1) := by
  have outwards : ∀ scope, (∃ trail ∈ stated (spots 0 [] steps), scope ∈ trail.map (·.1)) →
      ∃ outer, mapping.Chained (scope :: outer) ∧ ∀ around ∈ outer.head?,
        ∃ trail ∈ stated (spots 0 [] steps), around ∈ trail.map (·.1) := by
    rintro scope ⟨trail, listed, onTrail⟩
    have chained := regular.chained listed
    obtain ⟨front, outer, split⟩ := List.append_of_mem onTrail
    rw [split] at chained
    refine ⟨outer, Mapping.chained_suffix chained, fun around next => ⟨trail, listed, ?_⟩⟩
    rw [split]
    simp [List.mem_of_mem_head? next]
  have ends : ∀ fragment ∈ fragments steps, ∀ scope ∈ fragment.scope,
      ∃ trail ∈ stated (spots 0 [] steps), scope ∈ trail.map (·.1) := by
    intro fragment present scope here
    obtain ⟨trail, condition, member, rfl⟩ := mem_fragments.mp present
    refine ⟨trail, mem_stated.mpr ⟨condition, member⟩, ?_⟩
    rw [Option.mem_def, ← List.head?_map] at here
    exact List.mem_of_mem_head? here
  obtain ⟨keeps, only, closed⟩ := Selection.scopesInPlay_closed outwards ends
  refine ⟨only scope, ?_⟩
  rintro ⟨trail, listed, onTrail⟩
  obtain ⟨condition, member⟩ := mem_stated.mp listed
  have chained := regular.chained listed
  cases trail with
  | nil => cases onTrail
  | cons entry outer =>
      have inPlay := keeps _ (mem_fragments.mpr ⟨_, condition, member, rfl⟩) entry.1 rfl
      exact closed.mem chained inPlay scope onTrail

def Leading (steps : List Step) (trail : List (String × Nat)) : Prop :=
  trail = [] ∨ ∃ whole ∈ stated (spots 0 [] steps), trail <:+ whole

theorem Regular.reached_eq {first second : List (String × Nat)} (leadsFirst : Leading steps first)
    (leadsSecond : Leading steps second)
    (same : first.head?.map (·.1) = second.head?.map (·.1)) (document : Document)
    (entries : Nat → Document) :
    document.reached entries first = document.reached entries second := by
  match first, second, same with
  | [], [], _ => rfl
  | (path, entry) :: outer, (other, number) :: others, same =>
      obtain rfl : path = other := Option.some.inj same
      obtain ⟨whole, statedFirst, front, rfl⟩ := leadsFirst.resolve_left (by simp)
      obtain ⟨further, statedSecond, back, rfl⟩ := leadsSecond.resolve_left (by simp)
      have one := regular.shared _ statedFirst _ statedSecond path entry number (by simp) (by simp)
      rw [one]
      rfl

/-- The documents that a walk chose meet what is asked in each scope. -/
theorem Regular.meets_of_entries {document : Document} {entries : Nat → Document}
    (all : ∀ spot ∈ spots 0 [] steps, document.Standing entries spot.trail ∧
      ∀ condition, spot.step = .test condition →
        (document.reached entries spot.trail).holds condition = true)
    (depth : Nat) {trail : List (String × Nat)} (leads : Leading steps trail) :
    Selection.Meets (fragments steps) (playing mapping steps) mapping depth
      (trail.head?.map (·.1)) (document.reached entries trail) := by
  -- on the depth, for every trail that leads to a condition
  induction depth generalizing trail with
  | zero => trivial
  | succ depth ih =>
      refine ⟨fun fragment present here => ?_, fun path inPlay around _ => ?_⟩
      · obtain ⟨own, condition, member, rfl⟩ := mem_fragments.mp present
        have leadsOwn : Leading steps own :=
          Or.inr ⟨own, mem_stated.mpr ⟨condition, member⟩, List.suffix_refl own⟩
        -- the condition may be stated on another trail, but the entry of the scope is the same
        rw [← regular.reached_eq leadsOwn leads here]
        exact (all _ member).2 condition rfl
      · obtain ⟨whole, listed, onTrail⟩ := regular.mem_playing.mp inPlay
        obtain ⟨⟨scope, entry⟩, inWhole, rfl⟩ := List.mem_map.mp onTrail
        obtain ⟨front, outer, rfl⟩ := List.append_of_mem inWhole
        -- the scope is passed on the way to some condition, so a document was chosen for it there
        have chained := regular.chained listed
        rw [List.map_append] at chained
        rw [Selection.parentScope_chained (Mapping.chained_suffix chained), List.head?_map] at around
        obtain ⟨condition, member⟩ := mem_stated.mp listed
        have standing := Document.standing_suffix (all _ member).1
        have leadsOuter : Leading steps outer :=
          Or.inr ⟨_, listed, front ++ [(scope, entry)], by simp⟩
        refine ⟨entries entry, ?_, ih (Or.inr ⟨_, listed, front, rfl⟩)⟩
        rw [← regular.reached_eq leadsOuter leads around]
        exact standing.1

theorem Regular.length_le {trail : List (String × Nat)} {scopes : List String}
    (listed : trail ∈ stated (spots 0 [] steps)) (inside : scopes <:+ trail.map (·.1)) :
    scopes.length ≤ (playing mapping steps).length := by
  obtain ⟨front, split⟩ := inside
  have chained := regular.chained listed
  rw [← split] at chained
  refine (Mapping.chained_suffix chained).nodup.length_le_of_subset fun scope member => ?_
  refine regular.mem_playing.mpr ⟨trail, listed, ?_⟩
  rw [← split]
  exact List.mem_append_right _ member

theorem Regular.asks {trail : List (String × Nat)} {path : String}
    (member : ⟨trail, .cross (.enter path)⟩ ∈ spots 0 [] steps) :
    path ∈ playing mapping steps ∧ trail.length < (playing mapping steps).length ∧
      Selection.parentScope path (playing mapping steps) (some mapping) =
        trail.head?.map (·.1) ∧
      (Selection.assembleScope (fragments steps) (playing mapping steps) (some mapping)
        ((playing mapping steps).length - trail.length) (some path)).isSome := by
  have declared := regular.declared _ member path rfl
  obtain ⟨whole, listed, onWhole⟩ := regular.asked _ member path rfl
  obtain ⟨condition, tested⟩ := mem_stated.mp listed
  have chained := regular.chained listed
  obtain ⟨front, outer, split⟩ := List.append_of_mem onWhole
  have inPlay : ∀ scope ∈ whole.map (·.1), scope ∈ playing mapping steps :=
    fun scope onTrail => regular.mem_playing.mpr ⟨whole, listed, onTrail⟩
  have long := regular.length_le listed (List.suffix_refl _)
  rw [split] at chained inPlay long
  have chainedHere := Mapping.chained_suffix chained
  have around : outer = trail.map (·.1) := by
    have same := chainedHere.1
    rw [declared] at same
    exact (List.cons.inj (Except.ok.inj same)).2.symm
  have count : outer.length = trail.length := by rw [around, List.length_map]
  rw [List.length_append, List.length_cons] at long
  refine ⟨inPlay path (by simp), by omega, ?_, ?_⟩
  · rw [Selection.parentScope_chained chainedHere, around, List.head?_map]
  · refine Selection.assembleScope_isSome (mem_fragments.mpr ⟨whole, condition, tested, rfl⟩) chained
      rfl ?_ (fun scope onTrail => inPlay scope (List.mem_append_left _ onTrail)) (by omega)
    rw [← split, List.head?_map]

def AllMeet (mapping : Mapping) (steps : List Step) : List (String × Document) → Prop
  | [] => True
  | (path, document) :: outer =>
      Selection.Meets (fragments steps) (playing mapping steps) mapping
        ((playing mapping steps).length - outer.length) (some path) document ∧
        AllMeet mapping steps outer

omit regular in
theorem allMeet_suffix {front back : List (String × Document)}
    (meets : AllMeet mapping steps (front ++ back)) : AllMeet mapping steps back := by
  induction front with
  | nil => exact meets
  | cons entry rest ih => exact ih meets.2

omit regular in
theorem meets_current {document : Document}
    (root : Selection.Meets (fragments steps) (playing mapping steps) mapping
      ((playing mapping steps).length + 1) none document) {documents : List (String × Document)}
    (meets : AllMeet mapping steps documents) :
    Selection.Meets (fragments steps) (playing mapping steps) mapping
      ((playing mapping steps).length + 1 - documents.length) (documents.head?.map (·.1))
      (document.current documents) := by
  cases documents with
  | nil => exact root
  | cons entry outer =>
      have depth : (playing mapping steps).length + 1 - (outer.length + 1) =
          (playing mapping steps).length - outer.length := by omega
      rw [List.length_cons, depth]
      exact meets.1

omit regular in
theorem allMeet_paths {documents : List (String × Document)} {trail : List (String × Nat)}
    (same : documents.map (·.1) = trail.map (·.1)) {target : Option String}
    {left : List (String × Nat)} (back : back? target trail = some left)
    (meets : AllMeet mapping steps documents) :
    ∃ kept, back? target documents = some kept ∧ kept.map (·.1) = left.map (·.1) ∧
      AllMeet mapping steps kept := by
  have bare : ∀ {α : Type} (entries : List (String × α)),
      (entries.map fun entry => (entry.1, ())) = (entries.map (·.1)).map fun path => (path, ()) :=
    fun entries => by rw [List.map_map]; rfl
  have alike : (documents.map fun entry => (entry.1, ())) =
      trail.map fun entry => (entry.1, ()) := by
    rw [bare, bare, same]
  have both := back?_map target documents fun _ => ()
  rw [alike, back?_map target trail fun _ => (), back] at both
  cases found : back? target documents with
  | none => rw [found] at both; cases both
  | some kept =>
      rw [found] at both
      have paths := congrArg (List.map (·.1)) (Option.some.inj both)
      rw [List.map_map, List.map_map] at paths
      obtain ⟨front, rfl⟩ := back?_suffix found
      exact ⟨kept, rfl, paths.symm, allMeet_suffix meets⟩

/-- A walk can take the steps by choosing documents that meet what is asked. -/
theorem Regular.admits_of_meets {document : Document}
    (root : Selection.Meets (fragments steps) (playing mapping steps) mapping
      ((playing mapping steps).length + 1) none document) {rest : List Step} {next : Nat}
    {trail : List (String × Nat)} (part : spots next trail rest ⊆ spots 0 [] steps)
    {documents : List (String × Document)} (same : documents.map (·.1) = trail.map (·.1))
    (meets : AllMeet mapping steps documents) : document.admits documents rest = true := by
  -- the documents chosen so far stand where the entries of the trail do, and each meets its scope
  induction rest generalizing next trail documents with
  | nil => rfl
  | cons step rest ih =>
      have count : documents.length = trail.length := by
        rw [← List.length_map (·.1), same, List.length_map]
      have scope : documents.head?.map (·.1) = trail.head?.map (·.1) := by
        rw [← List.head?_map, same, List.head?_map]
      have here := meets_current root meets
      rw [count, scope] at here
      cases step with
      | test condition =>
          rw [spots, List.cons_subset] at part
          obtain ⟨member, part⟩ := part
          have short := regular.length_le (mem_stated.mpr ⟨condition, member⟩) (List.suffix_refl _)
          rw [List.length_map] at short
          obtain ⟨depth, deep⟩ : ∃ depth,
              (playing mapping steps).length + 1 - trail.length = depth + 1 :=
            ⟨(playing mapping steps).length - trail.length, by omega⟩
          rw [deep] at here
          have holds := here.1 _ (mem_fragments.mpr ⟨trail, condition, member, rfl⟩) rfl
          rw [Document.admits, holds, Bool.true_and]
          exact ih part same meets
      | cross boundary =>
          cases boundary with
          | enter path =>
              rw [spots, List.cons_subset] at part
              obtain ⟨member, part⟩ := part
              -- something is asked in the scope, so there is a document to choose
              obtain ⟨inPlay, short, parent, asked⟩ := regular.asks member
              have deep : (playing mapping steps).length + 1 - trail.length =
                  (playing mapping steps).length - trail.length + 1 := by omega
              rw [deep] at here
              obtain ⟨nested, chosen, meetsNested⟩ := here.2 path inPlay parent asked
              rw [Document.admits, List.any_eq_true]
              refine ⟨nested, chosen, ih part (by simp [same]) ⟨?_, meets⟩⟩
              rw [count]
              exact meetsNested
          | exit target =>
              rw [spots, List.cons_subset] at part
              obtain ⟨member, part⟩ := part
              obtain ⟨left, back⟩ := Option.isSome_iff_exists.mp (regular.returns _ member _ rfl)
              obtain ⟨kept, found, paths, meetsKept⟩ := allMeet_paths same back meets
              rw [back, Option.getD_some] at part
              rw [Document.admits, found]
              exact ih part paths meetsKept

/-- Some walk takes regular steps exactly from the documents that meet what is assembled. -/
theorem Regular.admits_iff {document : Document} :
    document.admits [] steps = true ↔
      Selection.Meets (fragments steps) (playing mapping steps) mapping
        ((playing mapping steps).length + 1) none document := by
  constructor
  · intro admitted
    have early : ∀ entry ∈ ([] : List (String × Nat)), entry.2 < 0 := by simp
    have standing : document.Standing (fun _ => document) [] := trivial
    obtain ⟨chosen, _, all⟩ := Document.exists_entries early standing admitted
    exact regular.meets_of_entries all _ (Or.inl rfl)
  · exact fun root => regular.admits_of_meets root (List.Subset.refl _) rfl trivial

end Regular

end Step

end ScopedClauses
