import ScopedClauses.Proofs.Mapping.Outward
import ScopedClauses.Response.Selection

/-!
Where conditions are placed. The scopes in play are those of the conditions and the scopes around
them, each once. A scope lies in one scope only, on a way outwards that ends, so that assembling ends
too and puts each condition in one place, inside the clauses of its scope and those around it.
-/

namespace ScopedClauses

namespace Selection

variable {fragments : List Fragment} {scopes known : List String} {mapping : Option Mapping}
  {path outer : String} {scope : Option String} {around : List String}

/-! ### Scopes around scopes -/

def WasRead (mapping : Option Mapping) : Prop :=
  ∀ known, mapping = some known →
    ∃ json : Json, json.distinct = true ∧ Mapping.ofJson json = .ok known

def outerOf (mapping : Option Mapping) (path : String) : Option String := do
  let scopes ← ((← mapping).nestedScopes path).toOption
  scopes[1]?

theorem longestOuter_some (found : longestOuter path known = some outer) :
    outer ∈ known ∧ isWithin path outer = true := by
  suffices held : ∀ best ∈ longestOuter path known, best ∈ known ∧ isWithin path best = true from
    held outer found
  unfold longestOuter
  refine List.foldlRecOn (motive := fun longest : Option String =>
    ∀ best ∈ longest, best ∈ known ∧ isWithin path best = true) _ _ ?_ ?_
  · exact fun _ absent => by cases absent
  · intro longest held item listed
    have own := List.mem_filter.mp listed
    cases longest with
    | none => exact fun best same => Option.some.inj same ▸ own
    | some last =>
        intro best same
        dsimp only at same
        split at same
        · exact Option.some.inj same ▸ own
        · exact held best same

theorem outerOf_eq_some : outerOf mapping path = some outer ↔ ∃ declaring outwards,
    mapping = some declaring ∧ declaring.nestedScopes path = .ok outwards ∧
      outwards[1]? = some outer := by
  cases mapping with
  | none => simp [outerOf]
  | some declaring =>
      cases nested : declaring.nestedScopes path <;> simp [outerOf, nested, Except.toOption]

theorem parentScope_of_outerOf (found : outerOf mapping path = some outer) (known : List String) :
    parentScope path known mapping = some outer := by
  obtain ⟨declaring, outwards, rfl, nested, second⟩ := outerOf_eq_some.mp found
  simp only [parentScope, nested, second]

theorem parentScope_some (found : parentScope path known mapping = some outer) :
    outerOf mapping path = some outer ∨ outer ∈ known ∧ isWithin path outer = true := by
  cases mapping with
  | none => exact Or.inr (longestOuter_some found)
  | some declaring =>
      cases nested : declaring.nestedScopes path with
      | error =>
          simp only [parentScope, nested] at found
          exact Or.inr (longestOuter_some found)
      | ok outwards =>
          simp only [parentScope, nested] at found
          exact Or.inl (outerOf_eq_some.mpr ⟨declaring, outwards, rfl, nested, found⟩)

theorem isWithin_parentScope (read : WasRead mapping)
    (found : parentScope path known mapping = some outer) : isWithin path outer = true := by
  rcases parentScope_some found with declared | ⟨_, within⟩
  · obtain ⟨declaring, outwards, rfl, nested, second⟩ := outerOf_eq_some.mp declared
    obtain ⟨json, distinct, made⟩ := read declaring rfl
    exact Mapping.isWithin_of_second distinct made nested second
  · exact within

theorem length_of_isWithin (within : isWithin path outer = true) : outer.length < path.length := by
  obtain ⟨rest, longer⟩ := isWithin_iff.mp within
  have lengths := congrArg List.length longer
  rw [List.length_append, List.length_cons, String.length_toList, String.length_toList] at lengths
  omega

inductive Around (scopes : List String) (mapping : Option Mapping) :
    Option String → List String → Prop where
  | outermost : Around scopes mapping none []
  | within {path : String} {around : List String} :
      Around scopes mapping (parentScope path scopes mapping) around →
      Around scopes mapping (some path) (path :: around)

namespace Around

theorem unique (first : Around scopes mapping scope around) {other : List String}
    (second : Around scopes mapping scope other) : around = other := by
  induction first generalizing other with
  | outermost =>
      cases second
      rfl
  | within _ ih =>
      cases second with
      | within outward => rw [ih outward]

theorem head? (way : Around scopes mapping scope around) : around.head? = scope := by
  cases way <;> rfl

theorem tail {front : List String} (way : Around scopes mapping scope (front ++ around)) :
    Around scopes mapping around.head? around := by
  induction front generalizing scope with
  | nil =>
      rw [List.nil_append] at way
      exact way.head? ▸ way
  | cons path rest ih =>
      cases way with
      | within outward => exact ih outward

theorem mem_parent (way : Around scopes mapping scope around) (listed : path ∈ around)
    (parent : parentScope path scopes mapping = some outer) : outer ∈ around := by
  obtain ⟨front, back, rfl⟩ := List.append_of_mem listed
  cases way.tail with
  | within outward =>
      rw [parent] at outward
      exact List.mem_append_right _ (List.mem_cons_of_mem _ (List.mem_of_head? outward.head?))

theorem descends (read : WasRead mapping) (way : Around scopes mapping scope around) :
    around.Pairwise fun inner outer => outer.length < inner.length := by
  induction way with
  | outermost => exact List.Pairwise.nil
  | @within path around outward ih =>
      refine List.pairwise_cons.mpr ⟨fun outer listed => ?_, ih⟩
      cases around with
      | nil => cases listed
      | cons next rest =>
          have shorter := length_of_isWithin (isWithin_parentScope read outward.head?.symm)
          rcases List.mem_cons.mp listed with rfl | further
          · exact shorter
          · exact Nat.lt_trans ((List.pairwise_cons.mp ih).1 outer further) shorter

theorem nodup (read : WasRead mapping) (way : Around scopes mapping scope around) : around.Nodup :=
  (way.descends read).imp fun shorter same => absurd (same ▸ shorter) (Nat.lt_irrefl _)

end Around

theorem exists_around (read : WasRead mapping) (scopes : List String) (scope : Option String) :
    ∃ around, Around scopes mapping scope around := by
  have bounded : ∀ size, ∀ path : String, path.length < size →
      ∃ around, Around scopes mapping (some path) around := by
    intro size
    induction size with
    | zero => exact fun _ short => absurd short (Nat.not_lt_zero _)
    | succ size ih =>
        intro path short
        cases parent : parentScope path scopes mapping with
        | none => exact ⟨[path], .within (parent ▸ .outermost)⟩
        | some outer =>
            have shorter := length_of_isWithin (isWithin_parentScope read parent)
            obtain ⟨around, way⟩ := ih outer (by omega)
            exact ⟨path :: around, .within (parent ▸ way)⟩
  cases scope with
  | none => exact ⟨[], .outermost⟩
  | some path => exact bounded _ path (Nat.lt_succ_self _)

/-! ### Scopes in play -/

theorem mem_addNew {scopes : List String} {scope other : String} :
    other ∈ addNew scopes scope ↔ other ∈ scopes ∨ other = scope := by
  unfold addNew
  split
  · rename_i listed
    have known : scope ∈ scopes := by simpa using listed
    exact ⟨Or.inl, fun either => either.elim (fun old => old) fun same => same ▸ known⟩
  · simp

theorem nodup_addNew {scopes : List String} {scope : String} (distinct : scopes.Nodup) :
    (addNew scopes scope).Nodup := by
  unfold addNew
  split
  · exact distinct
  · rename_i absent
    have fresh : scope ∉ scopes := by simpa using absent
    exact List.nodup_append.mpr ⟨distinct, by simp, fun old member new same => by
      rintro rfl
      rw [List.mem_singleton.mp same] at member
      exact fresh member⟩

theorem addNew_prefix (scopes : List String) (scope : String) :
    ∃ more, addNew scopes scope = scopes ++ more := by
  unfold addNew
  split
  · exact ⟨[], by simp⟩
  · exact ⟨[scope], rfl⟩

theorem foldl_addNew (new scopes : List String) (distinct : scopes.Nodup) :
    (new.foldl addNew scopes).Nodup ∧
      ∀ scope, scope ∈ new.foldl addNew scopes ↔ scope ∈ scopes ∨ scope ∈ new := by
  induction new generalizing scopes with
  | nil => simp [distinct]
  | cons first rest ih =>
      obtain ⟨nodup, members⟩ := ih (addNew scopes first) (nodup_addNew distinct)
      refine ⟨nodup, fun scope => ?_⟩
      rw [List.foldl_cons, members, mem_addNew, List.mem_cons, or_assoc]

/-- A scan of a list of scopes from a place on, which adds the scope around each scope that it passes
and ends at the end of the list. -/
inductive Scans (mapping : Mapping) : Nat → List String → List String → Prop where
  | done {place : Nat} {scopes : List String} : scopes.length ≤ place → Scans mapping place scopes scopes
  | pass {place : Nat} {scopes final : List String} {path : String} : scopes[place]? = some path →
      Scans mapping (place + 1) ((parentScope path scopes (some mapping)).elim scopes (addNew scopes))
        final → Scans mapping place scopes final

inductive Needed (mapping : Option Mapping) (stated : List String) : String → Prop where
  | stated {path : String} : path ∈ stated → Needed mapping stated path
  | outer {path outer : String} : Needed mapping stated path → outerOf mapping path = some outer →
      Needed mapping stated outer

theorem declared_of_outerOf {mapping : Mapping} (found : outerOf (some mapping) path = some outer) :
    outer ∈ mapping.declared.map (·.2.path) := by
  obtain ⟨declaring, outwards, same, nested, second⟩ := outerOf_eq_some.mp found
  cases same
  obtain ⟨entry, member, here, _⟩ :=
    Mapping.nested_of_nestedScopes nested (List.mem_of_getElem? second)
  exact List.mem_map.mpr ⟨entry, member, here⟩

theorem Needed.mem {mapping : Mapping} {stated : List String}
    (needed : Needed (some mapping) stated path) :
    path ∈ stated ++ mapping.declared.map (·.2.path) := by
  cases needed with
  | stated listed => exact List.mem_append_left _ listed
  | outer _ found => exact List.mem_append_right _ (declared_of_outerOf found)

structure Scanned (mapping : Option Mapping) (stated : List String) (place : Nat)
    (scopes : List String) : Prop where
  distinct : scopes.Nodup
  kept : ∀ path ∈ stated, path ∈ scopes
  needed : ∀ path ∈ scopes, Needed mapping stated path
  passed : ∀ index < place, ∀ path ∈ scopes[index]?, ∀ outer, outerOf mapping path = some outer →
    outer ∈ scopes

theorem Scanned.pass {place : Nat} {stated : List String} (scanned : Scanned mapping stated place scopes)
    (here : scopes[place]? = some path) : Scanned mapping stated (place + 1)
      ((parentScope path scopes mapping).elim scopes (addNew scopes)) := by
  have bound : place < scopes.length := (List.getElem?_eq_some_iff.mp here).1
  have own := scanned.needed path (List.mem_of_getElem? here)
  cases parent : parentScope path scopes mapping with
  | none =>
      refine ⟨scanned.distinct, scanned.kept, scanned.needed, ?_⟩
      intro index lower inner found outer declared
      rcases Nat.lt_succ_iff_lt_or_eq.mp lower with earlier | rfl
      · exact scanned.passed index earlier inner found outer declared
      · cases here.symm.trans found
        cases parent.symm.trans (parentScope_of_outerOf declared scopes)
  | some around =>
      obtain ⟨more, longer⟩ := addNew_prefix scopes around
      refine ⟨nodup_addNew scanned.distinct,
        fun path listed => mem_addNew.mpr (Or.inl (scanned.kept path listed)), ?_, ?_⟩
      · intro other listed
        rcases mem_addNew.mp listed with old | rfl
        · exact scanned.needed other old
        · rcases parentScope_some parent with declared | ⟨old, _⟩
          · exact .outer own declared
          · exact scanned.needed other old
      · intro index lower inner found outer declared
        rw [Option.elim_some, longer, List.getElem?_append_left (by omega)] at found
        rw [Option.elim_some, mem_addNew]
        rcases Nat.lt_succ_iff_lt_or_eq.mp lower with earlier | rfl
        · exact Or.inl (scanned.passed index earlier inner found outer declared)
        · cases here.symm.trans found
          cases parent.symm.trans (parentScope_of_outerOf declared scopes)
          exact Or.inr rfl

theorem withOuter_succ (mapping : Mapping) (steps : Nat) {place : Nat}
    (here : scopes[place]? = some path) : withOuter mapping (steps + 1) place scopes =
      withOuter mapping steps (place + 1)
        ((parentScope path scopes (some mapping)).elim scopes (addNew scopes)) := by
  rw [withOuter]
  simp only [here]
  cases parentScope path scopes (some mapping) <;> rfl

/-- The scan ends, as it adds no scope twice and only declared ones. -/
theorem scans_withOuter {mapping : Mapping} {stated : List String} {steps place : Nat}
    (scanned : Scanned (some mapping) stated place scopes)
    (enough : stated.length + mapping.declared.length ≤ place + steps) :
    Scans mapping place scopes (withOuter mapping steps place scopes) ∧
      ∃ last, (withOuter mapping steps place scopes).length ≤ last ∧
        Scanned (some mapping) stated last (withOuter mapping steps place scopes) := by
  induction steps generalizing place scopes with
  | zero =>
      have few := scanned.distinct.length_le_of_subset fun path listed => (scanned.needed path listed).mem
      rw [List.length_append, List.length_map] at few
      rw [withOuter]
      exact ⟨.done (by omega), place, by omega, scanned⟩
  | succ steps ih =>
      cases here : scopes[place]? with
      | none =>
          have short := List.getElem?_eq_none_iff.mp here
          rw [withOuter, here]
          exact ⟨.done short, place, short, scanned⟩
      | some path =>
          obtain ⟨scans, last⟩ := ih (scanned.pass here) (by omega)
          rw [withOuter_succ mapping steps here]
          exact ⟨.pass here scans, last⟩

def statedScopes (fragments : List Fragment) : List String :=
  (fragments.filterMap Fragment.scope).foldl addNew []

theorem nodup_statedScopes (fragments : List Fragment) : (statedScopes fragments).Nodup :=
  (foldl_addNew _ [] List.nodup_nil).1

theorem mem_statedScopes : path ∈ statedScopes fragments ↔
    ∃ fragment ∈ fragments, fragment.scope = some path := by
  rw [statedScopes, (foldl_addNew _ [] List.nodup_nil).2, List.mem_filterMap,
    or_iff_right List.not_mem_nil]

structure InPlay (fragments : List Fragment) (scopes : List String) (mapping : Option Mapping) :
    Prop where
  distinct : scopes.Nodup
  stated : ∀ fragment ∈ fragments, ∀ path ∈ fragment.scope, path ∈ scopes
  closed : ∀ path ∈ scopes, ∀ outer, parentScope path scopes mapping = some outer → outer ∈ scopes
  needed : ∀ path ∈ scopes, Needed mapping (statedScopes fragments) path

theorem Scanned.inPlay {place : Nat}
    (scanned : Scanned mapping (statedScopes fragments) place scopes)
    (short : scopes.length ≤ place) : InPlay fragments scopes mapping := by
  refine ⟨scanned.distinct, fun fragment present path states => scanned.kept path ?_, ?_,
    scanned.needed⟩
  · exact mem_statedScopes.mpr ⟨fragment, present, states⟩
  · intro path listed outer parent
    rcases parentScope_some parent with declared | ⟨old, _⟩
    · obtain ⟨index, bound, here⟩ := List.mem_iff_getElem.mp listed
      exact scanned.passed index (by omega) path (by simp [← here]) outer declared
    · exact old

theorem inPlay_scopesInPlay (fragments : List Fragment) (mapping : Option Mapping) :
    InPlay fragments (scopesInPlay fragments mapping) mapping ∧
      ∀ known, mapping = some known →
        Scans known 0 (statedScopes fragments) (scopesInPlay fragments mapping) := by
  have distinct := nodup_statedScopes fragments
  cases mapping with
  | none =>
      -- without a mapping no scope is declared around another one
      have scanned : ∀ place, Scanned none (statedScopes fragments) place (statedScopes fragments) :=
        fun place => ⟨distinct, fun _ => id, fun _ => .stated, fun _ _ _ _ _ absent => by cases absent⟩
      exact ⟨(scanned _).inPlay (Nat.le_refl _), fun _ absent => by cases absent⟩
  | some mapping =>
      have start : Scanned (some mapping) (statedScopes fragments) 0 (statedScopes fragments) :=
        ⟨distinct, fun _ => id, fun _ => .stated, fun _ lower => absurd lower (Nat.not_lt_zero _)⟩
      have ⟨scans, last, short, scanned⟩ := scans_withOuter start (Nat.le_of_eq (Nat.zero_add _).symm)
      refine ⟨scanned.inPlay short, ?_⟩
      rintro _ ⟨⟩
      exact scans

namespace InPlay

variable (inPlay : InPlay fragments scopes mapping)

include inPlay

theorem mem_of_around (way : Around scopes mapping scope around)
    (listed : ∀ path ∈ scope, path ∈ scopes) : ∀ path ∈ around, path ∈ scopes := by
  induction way with
  | outermost => exact fun _ absent => by cases absent
  | @within path around _ ih =>
      have own := listed path rfl
      exact List.forall_mem_cons.mpr ⟨own, ih fun outer parent => inPlay.closed path own outer parent⟩

theorem mem_iff (read : WasRead mapping) : path ∈ scopes ↔ ∃ fragment ∈ fragments, ∃ around,
    Around scopes mapping fragment.scope around ∧ path ∈ around := by
  constructor
  · intro listed
    have needed := inPlay.needed path listed
    clear listed
    induction needed with
    | stated early =>
        obtain ⟨fragment, present, states⟩ := mem_statedScopes.mp early
        obtain ⟨around, way⟩ := exists_around read scopes fragment.scope
        exact ⟨fragment, present, around, way, List.mem_of_head? (way.head?.trans states)⟩
    | outer _ declared ih =>
        obtain ⟨fragment, present, around, way, listed⟩ := ih
        exact ⟨fragment, present, around, way,
          way.mem_parent listed (parentScope_of_outerOf declared scopes)⟩
  · rintro ⟨fragment, present, around, way, listed⟩
    exact inPlay.mem_of_around way (inPlay.stated fragment present) path listed

end InPlay

end Selection

end ScopedClauses
