import Mathlib.Data.List.Induction
import ScopedClauses.Proofs.Response.Enclosing

/-!
What is assembled from conditions, part by part. Each condition is in one place, inside one clause for
each scope around it.
-/

namespace ScopedClauses

namespace Selection

/-! ### Documents of conditions -/

inductive Conjoined : List Json → Option Json → Prop where
  | none : Conjoined [] none
  | one (only : Json) : Conjoined [only] (some only)
  | several (first second : Json) (rest : List Json) :
      Conjoined (first :: second :: rest)
        (some (.object [("bool", .object [("filter", .array (first :: second :: rest))])]))

/-- What some documents say, read off them: the conditions, each with the paths of the `nested`
clauses around it from the inside out, and the paths of all these clauses. -/
inductive States : List String → List Json → List (List String × Fragment) → List String → Prop where
  | nothing (around : List String) : States around [] [] []
  | condition {around : List String} (fragment : Fragment) {rest : List Json}
      {placed : List (List String × Fragment)} {opened : List String} :
      States around rest placed opened →
      States around (fragment.condition :: rest) ((around, fragment) :: placed) opened
  | nested {around : List String} (path : String) {inside rest : List Json} {query : Json}
      {within beside : List (List String × Fragment)} {below further : List String} :
      Conjoined inside (some query) → States (path :: around) inside within below →
      States around rest beside further →
      States around
        (.object [("nested", .object [("path", .string path), ("query", query)])] :: rest)
        (within ++ beside) (path :: (below ++ further))

theorem conjoined_conjunction : ∀ conditions : List Json,
    Conjoined conditions (conjunction conditions)
  | [] => .none
  | [only] => .one only
  | first :: second :: rest => .several first second rest

/-! ### Parts -/

inductive Part where
  | stated (fragment : Fragment)
  | within (path : String) (first : Part) (rest : List Part)

def allOf : Json → List Json → Json
  | only, [] => only
  | first, rest => .object [("bool", .object [("filter", .array (first :: rest))])]

namespace Part

mutual

def json : Part → Json
  | .stated fragment => fragment.condition
  | .within path first rest =>
      .object [("nested", .object [("path", .string path),
        ("query", allOf first.json (jsonAll rest))])]

def jsonAll : List Part → List Json
  | [] => []
  | part :: rest => part.json :: jsonAll rest

end

mutual

def places (around : List String) : Part → List (List String × Fragment)
  | .stated fragment => [(around, fragment)]
  | .within path first rest => first.places (path :: around) ++ placesAll (path :: around) rest

def placesAll (around : List String) : List Part → List (List String × Fragment)
  | [] => []
  | part :: rest => part.places around ++ placesAll around rest

end

mutual

def paths : Part → List String
  | .stated _ => []
  | .within path first rest => path :: (first.paths ++ pathsAll rest)

def pathsAll : List Part → List String
  | [] => []
  | part :: rest => part.paths ++ pathsAll rest

end

def enclose (path : String) : List Part → Option Part
  | [] => none
  | first :: rest => some (.within path first rest)

variable {around : List String} {path : String} {parts : List Part}

theorem jsonAll_eq (parts : List Part) : jsonAll parts = parts.map json := by
  induction parts with
  | nil => rfl
  | cons part rest ih => rw [jsonAll, ih, List.map_cons]

theorem placesAll_eq (around : List String) (parts : List Part) :
    placesAll around parts = parts.flatMap (places around) := by
  induction parts with
  | nil => rfl
  | cons part rest ih => rw [placesAll, ih, List.flatMap_cons]

theorem pathsAll_eq (parts : List Part) : pathsAll parts = parts.flatMap paths := by
  induction parts with
  | nil => rfl
  | cons part rest ih => rw [pathsAll, ih, List.flatMap_cons]

theorem conjunction_cons (first : Json) (rest : List Json) :
    conjunction (first :: rest) = some (allOf first rest) := by
  cases rest <;> rfl

theorem enclose_json (path : String) (parts : List Part) :
    (enclose path parts).map json = (conjunction (parts.map json)).map fun query =>
      .object [("nested", .object [("path", .string path), ("query", query)])] := by
  cases parts with
  | nil => rfl
  | cons first rest =>
      rw [List.map_cons, conjunction_cons, enclose, Option.map_some, Option.map_some, json, jsonAll_eq]

theorem conjoined_allOf (first : Json) (rest : List Json) :
    Conjoined (first :: rest) (some (allOf first rest)) := by
  cases rest with
  | nil => exact .one first
  | cons second others => exact .several first second others

mutual

theorem states_part : ∀ (part : Part) {around : List String} {rest : List Json}
    {placed : List (List String × Fragment)} {opened : List String},
    States around rest placed opened →
    States around (part.json :: rest) (part.places around ++ placed) (part.paths ++ opened)
  | .stated fragment, _, _, _, _, later => .condition fragment later
  | .within path first rest, around, _, _, _, later =>
      .nested path (conjoined_allOf first.json (jsonAll rest))
        (states_part first (states_all rest (path :: around))) later
  termination_by structural part => part

theorem states_all : ∀ (parts : List Part) (around : List String),
    States around (jsonAll parts) (placesAll around parts) (pathsAll parts)
  | [], around => .nothing around
  | part :: rest, around => states_part part (states_all rest around)
  termination_by structural parts => parts

end

theorem states_parts (around : List String) (parts : List Part) :
    States around (parts.map json) (parts.flatMap (places around)) (parts.flatMap paths) := by
  rw [← jsonAll_eq, ← placesAll_eq, ← pathsAll_eq]
  exact states_all parts around

theorem enclose_places (around : List String) (path : String) (parts : List Part) :
    (enclose path parts).toList.flatMap (places around) = parts.flatMap (places (path :: around)) := by
  cases parts with
  | nil => rfl
  | cons first rest =>
      rw [enclose, Option.toList_some, List.flatMap_singleton, places, placesAll_eq, List.flatMap_cons]

theorem enclose_paths (path : String) (parts : List Part) :
    (enclose path parts).toList.flatMap paths =
      if parts.isEmpty then [] else path :: parts.flatMap paths := by
  cases parts with
  | nil => rfl
  | cons first rest =>
      rw [enclose, Option.toList_some, List.flatMap_singleton, paths, pathsAll_eq]
      rfl

mutual

theorem places_around (around : List String) : ∀ part : Part, ∀ place ∈ part.places around,
    ∃ front, place.1 = front ++ around ∧ ∀ path ∈ front, path ∈ part.paths
  | .stated fragment, place, listed => by
      cases List.mem_singleton.mp listed
      exact ⟨[], rfl, fun _ absent => by cases absent⟩
  | .within path first rest, place, listed => by
      have inside : ∃ front, place.1 = front ++ path :: around ∧
          ∀ inner ∈ front, inner ∈ first.paths ++ pathsAll rest := by
        rcases List.mem_append.mp listed with early | late
        · obtain ⟨front, same, opened⟩ := places_around (path :: around) first place early
          exact ⟨front, same, fun inner member => List.mem_append_left _ (opened inner member)⟩
        · obtain ⟨front, same, opened⟩ := placesAll_around (path :: around) rest place late
          exact ⟨front, same, fun inner member => List.mem_append_right _ (opened inner member)⟩
      obtain ⟨front, same, opened⟩ := inside
      refine ⟨front ++ [path], by simp [same], fun inner member => ?_⟩
      rcases List.mem_append.mp member with inFront | last
      · exact List.mem_cons_of_mem _ (opened inner inFront)
      · rw [List.mem_singleton.mp last]
        exact List.mem_cons_self
  termination_by structural part => part

theorem placesAll_around (around : List String) : ∀ parts : List Part,
    ∀ place ∈ placesAll around parts,
      ∃ front, place.1 = front ++ around ∧ ∀ path ∈ front, path ∈ pathsAll parts
  | [], _, absent => by cases absent
  | part :: rest, place, listed => by
      rcases List.mem_append.mp listed with early | late
      · obtain ⟨front, same, opened⟩ := places_around around part place early
        exact ⟨front, same, fun inner member => List.mem_append_left _ (opened inner member)⟩
      · obtain ⟨front, same, opened⟩ := placesAll_around around rest place late
        exact ⟨front, same, fun inner member => List.mem_append_right _ (opened inner member)⟩
  termination_by structural parts => parts

end

theorem places_nonempty (around : List String) : ∀ part : Part, ∃ place, place ∈ part.places around
  | .stated fragment => ⟨(around, fragment), List.mem_singleton_self _⟩
  | .within path first _ =>
      (places_nonempty (path :: around) first).imp fun _ => List.mem_append_left _

mutual

theorem exists_place (around : List String) : ∀ part : Part, ∀ path ∈ part.paths,
    ∃ place ∈ part.places around, ∃ front, place.1 = front ++ around ∧ path ∈ front
  | .stated fragment, _, absent => by cases absent
  | .within path first rest, inner, listed => by
      have inside : ∃ place ∈ first.places (path :: around) ++ placesAll (path :: around) rest,
          ∃ front, place.1 = front ++ path :: around ∧ inner ∈ front ++ [path] := by
        rcases List.mem_cons.mp listed with rfl | below
        · obtain ⟨place, member⟩ := places_nonempty (inner :: around) first
          obtain ⟨front, same, _⟩ := places_around (inner :: around) first place member
          exact ⟨place, List.mem_append_left _ member, front, same, by simp⟩
        · rcases List.mem_append.mp below with early | late
          · obtain ⟨place, member, front, same, opened⟩ := exists_place (path :: around) first inner early
            exact ⟨place, List.mem_append_left _ member, front, same, List.mem_append_left _ opened⟩
          · obtain ⟨place, member, front, same, opened⟩ := exists_placeAll (path :: around) rest inner late
            exact ⟨place, List.mem_append_right _ member, front, same, List.mem_append_left _ opened⟩
      obtain ⟨place, member, front, same, opened⟩ := inside
      exact ⟨place, member, front ++ [path], by simp [same], opened⟩
  termination_by structural part => part

theorem exists_placeAll (around : List String) : ∀ parts : List Part, ∀ path ∈ pathsAll parts,
    ∃ place ∈ placesAll around parts, ∃ front, place.1 = front ++ around ∧ path ∈ front
  | [], _, absent => by cases absent
  | part :: rest, path, listed => by
      rcases List.mem_append.mp listed with early | late
      · obtain ⟨place, member, found⟩ := exists_place around part path early
        exact ⟨place, List.mem_append_left _ member, found⟩
      · obtain ⟨place, member, found⟩ := exists_placeAll around rest path late
        exact ⟨place, List.mem_append_right _ member, found⟩
  termination_by structural parts => parts

end

end Part

/-! ### The recursion -/

section Recursion

variable (fragments : List Fragment) (scopes : List String) (mapping : Option Mapping)

def directlyIn (scope : Option String) : List String :=
  scopes.filter fun path => parentScope path scopes mapping = scope

inductive Assembles : Option String → Option Json → Prop where
  | scope {scope : Option String} (inner : String → Option Json) :
      (∀ path ∈ directlyIn scopes mapping scope, Assembles (some path) (inner path)) →
      ∀ {value : Option Json},
        Conjoined ((fragments.filter (·.scope = scope)).map Fragment.condition ++
          (directlyIn scopes mapping scope).filterMap fun path =>
            (inner path).map fun query =>
              .object [("nested", .object [("path", .string path), ("query", query)])]) value →
        Assembles scope value

inductive Divided : Option String → List Part → Prop where
  | scope {scope : Option String} (inner : String → List Part) :
      (∀ path ∈ directlyIn scopes mapping scope, Divided (some path) (inner path)) →
      Divided scope ((fragments.filter (·.scope = scope)).map Part.stated ++
        (directlyIn scopes mapping scope).flatMap fun path =>
          (Part.enclose path (inner path)).toList)

end Recursion

section Divided

variable {fragments : List Fragment} {scopes : List String} {mapping : Option Mapping}
  {scope : Option String} {around : List String} {parts : List Part}

theorem json_parts (own : List Fragment) (inside : List String) (inner : String → List Part) :
    (own.map Part.stated ++ inside.flatMap fun path => (Part.enclose path (inner path)).toList).map
        Part.json =
      own.map Fragment.condition ++ inside.filterMap fun path =>
        (conjunction ((inner path).map Part.json)).map fun query =>
          .object [("nested", .object [("path", .string path), ("query", query)])] := by
  rw [List.map_append, List.map_map, List.map_flatMap, List.filterMap_eq_flatMap_toList]
  refine congrArg₂ (· ++ ·) rfl (List.flatMap_congr fun path _ => ?_)
  rw [← Part.enclose_json, Option.toList_map]

theorem Divided.assembles (divided : Divided fragments scopes mapping scope parts) :
    Assembles fragments scopes mapping scope (conjunction (parts.map Part.json)) := by
  induction divided with
  | scope inner _ ih =>
      rw [json_parts]
      exact .scope _ ih (conjoined_conjunction _)

/-- The recursion ends, as no scope occurs twice on a way outwards. -/
theorem exists_divided (inPlay : InPlay fragments scopes mapping) (read : WasRead mapping)
    {depth : Nat} (way : Around scopes mapping scope around) (listed : ∀ path ∈ scope, path ∈ scopes)
    (deep : scopes.length < depth + around.length) :
    ∃ parts, Divided fragments scopes mapping scope parts ∧
      assembleScope fragments scopes mapping depth scope = conjunction (parts.map Part.json) := by
  induction depth generalizing scope around with
  | zero =>
      have few := (way.nodup read).length_le_of_subset (inPlay.mem_of_around way listed)
      omega
  | succ depth ih =>
      have below : ∀ path, ∃ parts, path ∈ directlyIn scopes mapping scope →
          Divided fragments scopes mapping (some path) parts ∧
            assembleScope fragments scopes mapping depth (some path) =
              conjunction (parts.map Part.json) := by
        intro path
        by_cases inside : path ∈ directlyIn scopes mapping scope
        · obtain ⟨member, parent⟩ := List.mem_filter.mp inside
          have outward : Around scopes mapping (some path) (path :: around) :=
            .within (of_decide_eq_true parent ▸ way)
          obtain ⟨parts, found⟩ := ih outward (by rintro _ ⟨⟩; exact member)
            (by rw [List.length_cons]; omega)
          exact ⟨parts, fun _ => found⟩
        · exact ⟨[], fun absurd => (inside absurd).elim⟩
      choose inner found using below
      refine ⟨_, .scope inner fun path inside => (found path inside).1, ?_⟩
      rw [json_parts, assembleScope]
      refine congrArg conjunction (congrArg₂ (· ++ ·) rfl (List.filterMap_congr fun path inside => ?_))
      rw [(found path inside).2]
      rfl

theorem places_parts (own : List Fragment) (inside : List String) (inner : String → List Part) :
    (own.map Part.stated ++ inside.flatMap fun path => (Part.enclose path (inner path)).toList).flatMap
        (Part.places around) =
      own.map (Prod.mk around) ++ inside.flatMap fun path =>
        (inner path).flatMap (Part.places (path :: around)) := by
  rw [List.flatMap_append, List.flatMap_map, List.flatMap_assoc]
  refine congrArg₂ (· ++ ·) (List.map_eq_flatMap.symm) (List.flatMap_congr fun path _ => ?_)
  exact Part.enclose_places around path (inner path)

theorem paths_parts (own : List Fragment) (inside : List String) (inner : String → List Part) :
    (own.map Part.stated ++ inside.flatMap fun path => (Part.enclose path (inner path)).toList).flatMap
        Part.paths =
      inside.flatMap fun path =>
        if (inner path).isEmpty then [] else path :: (inner path).flatMap Part.paths := by
  have none : own.flatMap (fun fragment => (Part.stated fragment).paths) = [] :=
    List.flatMap_eq_nil_iff.mpr fun _ _ => rfl
  rw [List.flatMap_append, List.flatMap_map, List.flatMap_assoc, none, List.nil_append]
  exact List.flatMap_congr fun path _ => Part.enclose_paths path (inner path)

/-- Each condition is inside the clauses of its scope and of the scopes around it. -/
theorem Divided.way_of_place (divided : Divided fragments scopes mapping scope parts)
    (way : Around scopes mapping scope around) : ∀ place ∈ parts.flatMap (Part.places around),
      Around scopes mapping place.2.scope place.1 ∧ place.2 ∈ fragments := by
  induction divided generalizing around with
  | @scope scope inner _ ih =>
      intro place listed
      rw [places_parts] at listed
      rcases List.mem_append.mp listed with here | below
      · obtain ⟨fragment, states, rfl⟩ := List.mem_map.mp here
        obtain ⟨present, same⟩ := List.mem_filter.mp states
        exact ⟨of_decide_eq_true same ▸ way, present⟩
      · obtain ⟨path, inside, below⟩ := List.mem_flatMap.mp below
        have parent := of_decide_eq_true (List.mem_filter.mp inside).2
        exact ih path inside (.within (parent ▸ way)) place below

theorem nodup_directlyIn (inPlay : InPlay fragments scopes mapping) (scope : Option String) :
    (directlyIn scopes mapping scope).Nodup :=
  inPlay.distinct.filter _

theorem head_unique {path other : String} {outward : List String}
    (first : path :: around <:+ outward) (second : other :: around <:+ outward) : path = other := by
  have suffix := List.suffix_of_suffix_length_le first second (by simp)
  exact (List.cons.inj (suffix.eq_of_length (by simp))).1

theorem Around.exists_next (inPlay : InPlay fragments scopes mapping) {target : Option String}
    {outward : List String} (leads : Around scopes mapping target outward)
    (listed : ∀ path ∈ target, path ∈ scopes) (way : Around scopes mapping scope around)
    (suffix : around <:+ outward) (other : scope ≠ target) :
    ∃ path ∈ directlyIn scopes mapping scope, path :: around <:+ outward := by
  obtain ⟨front, rfl⟩ := suffix
  cases front using List.reverseRecOn with
  | nil => exact absurd (way.head?.symm.trans leads.head?) other
  | append_singleton front path =>
      rw [List.append_assoc, List.singleton_append] at leads ⊢
      have member := inPlay.mem_of_around leads listed path (by simp)
      refine ⟨path, List.mem_filter.mpr ⟨member, ?_⟩, List.suffix_append _ _⟩
      cases leads.tail with
      | within outward => exact decide_eq_true (outward.head?.symm.trans way.head?)

theorem flatMap_single {items : List α} {found : α → List β} {item : α} (distinct : items.Nodup)
    (listed : item ∈ items) (only : ∀ other ∈ items, other ≠ item → found other = []) :
    items.flatMap found = found item := by
  obtain ⟨before, after, rfl⟩ := List.append_of_mem listed
  have absent := List.nodup_middle.mp distinct
  rw [List.nodup_cons, List.mem_append, not_or] at absent
  have none : ∀ {part : List α}, item ∉ part → (∀ other ∈ part, other ∈ before ++ item :: after) →
      part.flatMap found = [] := by
    intro part missing within
    refine List.flatMap_eq_nil_iff.mpr fun other member => only other (within other member) ?_
    rintro rfl
    exact missing member
  rw [List.flatMap_append, List.flatMap_cons, none absent.1.1 (by simp +contextual),
    none absent.1.2 (by simp +contextual), List.nil_append, List.append_nil]

/-- In a scope lie the conditions of the scopes inside, those of one scope in their order. -/
theorem Divided.filter_places (inPlay : InPlay fragments scopes mapping)
    (divided : Divided fragments scopes mapping scope parts)
    (way : Around scopes mapping scope around) {target : Option String} {outward : List String}
    (leads : Around scopes mapping target outward) (listed : ∀ path ∈ target, path ∈ scopes) :
    ((parts.flatMap (Part.places around)).map Prod.snd).filter (·.scope = target) =
      if around <:+ outward then fragments.filter (·.scope = target) else [] := by
  induction divided generalizing around with
  | @scope scope inner _ ih =>
      have below : ∀ path ∈ directlyIn scopes mapping scope,
          (((inner path).flatMap (Part.places (path :: around))).map Prod.snd).filter
              (·.scope = target) =
            if path :: around <:+ outward then fragments.filter (·.scope = target) else [] := by
        intro path inside
        have parent := of_decide_eq_true (List.mem_filter.mp inside).2
        exact ih path inside (.within (parent ▸ way))
      have own : ((fragments.filter (·.scope = scope)).map (Prod.mk around)).map Prod.snd =
          fragments.filter (·.scope = scope) := by
        rw [List.map_map]
        exact List.map_id _
      rw [places_parts, List.map_append, List.filter_append, own, List.filter_filter, List.map_flatMap,
        List.filter_flatMap, List.flatMap_congr below]
      by_cases same : scope = target
      · subst same
        obtain rfl := way.unique leads
        have none : (directlyIn scopes mapping scope).flatMap (fun path =>
            if path :: around <:+ around then fragments.filter (·.scope = scope) else []) = [] := by
          refine List.flatMap_eq_nil_iff.mpr fun path _ => if_neg fun suffix => ?_
          have lengths := suffix.length_le
          rw [List.length_cons] at lengths
          omega
        rw [none, if_pos List.suffix_rfl, List.append_nil]
        simp
      · have none : fragments.filter (fun fragment =>
            decide (fragment.scope = target) && decide (fragment.scope = scope)) = [] := by
          refine List.filter_eq_nil_iff.mpr fun fragment _ both => ?_
          simp only [Bool.and_eq_true, decide_eq_true_eq] at both
          exact same (both.2.symm.trans both.1)
        rw [none, List.nil_append]
        by_cases suffix : around <:+ outward
        · obtain ⟨path, inside, next⟩ := leads.exists_next inPlay listed way suffix same
          refine (flatMap_single (nodup_directlyIn inPlay scope) inside fun other _ differs =>
            if_neg fun again => differs (head_unique again next)).trans ?_
          rw [if_pos next, if_pos suffix]
        · rw [if_neg suffix]
          refine List.flatMap_eq_nil_iff.mpr fun path _ => if_neg fun next => suffix ?_
          exact (List.suffix_cons path around).trans next

theorem Divided.way_of_path (divided : Divided fragments scopes mapping scope parts)
    (way : Around scopes mapping scope around) {path : String}
    (listed : path ∈ parts.flatMap Part.paths) :
    ∃ front, Around scopes mapping (some path) (path :: (front ++ around)) := by
  rw [← Part.pathsAll_eq] at listed
  obtain ⟨place, member, front, same, opened⟩ := Part.exists_placeAll around parts path listed
  rw [Part.placesAll_eq] at member
  have leads := (divided.way_of_place way place member).1
  obtain ⟨before, after, rfl⟩ := List.append_of_mem opened
  rw [same, List.append_assoc] at leads
  exact ⟨after, leads.tail⟩

theorem Divided.nodup_paths (inPlay : InPlay fragments scopes mapping) (read : WasRead mapping)
    (divided : Divided fragments scopes mapping scope parts)
    (way : Around scopes mapping scope around) : (parts.flatMap Part.paths).Nodup := by
  induction divided generalizing around with
  | @scope scope inner below ih =>
      rw [paths_parts]
      have outwards : ∀ path ∈ directlyIn scopes mapping scope,
          Around scopes mapping (some path) (path :: around) := fun path inside =>
        .within (of_decide_eq_true (List.mem_filter.mp inside).2 ▸ way)
      refine List.nodup_flatMap.mpr ⟨fun path inside => ?_, ?_⟩
      · split
        · exact List.nodup_nil
        · refine List.nodup_cons.mpr ⟨fun again => ?_, ih path inside (outwards path inside)⟩
          obtain ⟨front, round⟩ := (below path inside).way_of_path (outwards path inside) again
          exact (List.nodup_cons.mp (round.nodup read)).1 (by simp)
      · -- what is opened inside a scope has the scope around it
        have passes : ∀ path ∈ directlyIn scopes mapping scope, ∀ opened ∈
            (if (inner path).isEmpty then [] else path :: (inner path).flatMap Part.paths),
              ∃ outward, Around scopes mapping (some opened) outward ∧ path :: around <:+ outward := by
          intro path inside opened listed
          split at listed
          · cases listed
          · rcases List.mem_cons.mp listed with rfl | deeper
            · exact ⟨_, outwards opened inside, List.suffix_rfl⟩
            · obtain ⟨front, leads⟩ := (below path inside).way_of_path (outwards path inside) deeper
              exact ⟨_, leads, (List.suffix_append front _).trans (List.suffix_cons _ _)⟩
        refine (nodup_directlyIn inPlay scope).imp_of_mem fun first second differs opened one two => ?_
        obtain ⟨outward, leads, here⟩ := passes _ first opened one
        obtain ⟨other, again, there⟩ := passes _ second opened two
        obtain rfl := leads.unique again
        exact differs (head_unique here there)

theorem Divided.filter_all (inPlay : InPlay fragments scopes mapping) (read : WasRead mapping)
    (divided : Divided fragments scopes mapping none parts) (scope : Option String) :
    ((parts.flatMap (Part.places [])).map Prod.snd).filter (·.scope = scope) =
      fragments.filter (·.scope = scope) := by
  have way : Around scopes mapping none [] := .outermost
  by_cases stated : ∃ fragment ∈ fragments, fragment.scope = scope
  · obtain ⟨fragment, present, rfl⟩ := stated
    obtain ⟨outward, leads⟩ := exists_around read scopes fragment.scope
    rw [divided.filter_places inPlay way leads (inPlay.stated fragment present),
      if_pos (List.nil_suffix)]
  · have none : ∀ fragment ∈ fragments, ¬ decide (fragment.scope = scope) = true :=
      fun fragment present same => stated ⟨fragment, present, of_decide_eq_true same⟩
    rw [List.filter_eq_nil_iff.mpr none, List.filter_eq_nil_iff]
    intro fragment listed
    obtain ⟨place, member, rfl⟩ := List.mem_map.mp listed
    exact none _ (divided.way_of_place way place member).2

theorem perm_of_filter {first second : List Fragment}
    (same : ∀ scope, first.filter (·.scope = scope) = second.filter (·.scope = scope)) :
    first.Perm second := by
  classical
  refine List.perm_iff_count.mpr fun fragment => ?_
  have own : decide (fragment.scope = fragment.scope) = true := decide_eq_true rfl
  rw [← List.count_filter (p := fun other => decide (other.scope = fragment.scope)) own,
    ← List.count_filter (l := second) (p := fun other => decide (other.scope = fragment.scope)) own,
    same]

/-- The clauses are those of the scopes in play, each once. -/
theorem Divided.perm_paths (inPlay : InPlay fragments scopes mapping) (read : WasRead mapping)
    (divided : Divided fragments scopes mapping none parts) :
    (parts.flatMap Part.paths).Perm scopes := by
  have way : Around scopes mapping none [] := .outermost
  have places := divided.way_of_place way
  refine (List.perm_ext_iff_of_nodup (divided.nodup_paths inPlay read way) inPlay.distinct).mpr
    fun path => ⟨fun opened => ?_, fun listed => ?_⟩
  · rw [← Part.pathsAll_eq] at opened
    obtain ⟨place, member, front, same, inside⟩ := Part.exists_placeAll [] parts path opened
    rw [Part.placesAll_eq] at member
    obtain ⟨leads, present⟩ := places place member
    exact (inPlay.mem_iff read).mpr
      ⟨place.2, present, place.1, leads, same ▸ List.mem_append_left _ inside⟩
  · obtain ⟨fragment, present, around, leads, inside⟩ := (inPlay.mem_iff read).mp listed
    obtain ⟨place, member, rfl⟩ :=
      List.mem_map.mp ((perm_of_filter (divided.filter_all inPlay read)).mem_iff.mpr present)
    rw [leads.unique (places place member).1] at inside
    rw [← Part.placesAll_eq] at member
    obtain ⟨front, same, opened⟩ := Part.placesAll_around [] parts place member
    rw [same, List.append_nil] at inside
    exact Part.pathsAll_eq parts ▸ opened path inside

end Divided

/-- Conditions are placed once each, and under their scopes. The scan for the scopes in play ends, and
so does the assembly. What is assembled says each condition in one place, with those of its scope in
their order, inside the clauses of its scope and of the scopes around it. Each scope in play has one
clause, and it is the scope of a condition or around one. -/
theorem assemble_placed (fragments : List Fragment) {mapping : Option Mapping}
    (read : WasRead mapping) :
    (∀ known, mapping = some known →
      Scans known 0 (statedScopes fragments) (scopesInPlay fragments mapping)) ∧
    Assembles fragments (scopesInPlay fragments mapping) mapping none (assemble fragments mapping) ∧
    (∀ path, path ∈ scopesInPlay fragments mapping ↔ ∃ fragment ∈ fragments, ∃ around,
      Around (scopesInPlay fragments mapping) mapping fragment.scope around ∧ path ∈ around) ∧
    ∃ conditions placed opened, Conjoined conditions (assemble fragments mapping) ∧
      States [] conditions placed opened ∧
      (placed.map Prod.snd).Perm fragments ∧
      (∀ scope, (placed.map Prod.snd).filter (·.scope = scope) =
        fragments.filter (·.scope = scope)) ∧
      (∀ place ∈ placed, Around (scopesInPlay fragments mapping) mapping place.2.scope place.1) ∧
      opened.Nodup ∧ opened.Perm (scopesInPlay fragments mapping) := by
  obtain ⟨inPlay, scans⟩ := inPlay_scopesInPlay fragments mapping
  have way : Around (scopesInPlay fragments mapping) mapping none [] := .outermost
  obtain ⟨parts, divided, made⟩ := exists_divided inPlay read way (fun _ absent => by cases absent)
    (show _ < (scopesInPlay fragments mapping).length + 1 + 0 by omega)
  have assembled : assemble fragments mapping = conjunction (parts.map Part.json) := made
  have order := divided.filter_all inPlay read
  refine ⟨scans, assembled ▸ divided.assembles, fun path => inPlay.mem_iff read, parts.map Part.json,
    parts.flatMap (Part.places []), parts.flatMap Part.paths, ?_, Part.states_parts [] parts,
    perm_of_filter order, order, fun place member => (divided.way_of_place way place member).1,
    divided.nodup_paths inPlay read way, divided.perm_paths inPlay read⟩
  rw [assembled]
  exact conjoined_conjunction _

def scattered : List Fragment :=
  [⟨some "cast.info.role",
      .object [("term", .object [("cast.info.role.name", .string "Ripley")])]⟩,
    ⟨none, .object [("term", .object [("year", .ofNat 1979)])]⟩,
    ⟨some "awards.jury", .object [("exists", .object [("field", .string "awards.jury.name")])]⟩,
    ⟨some "cast.info.role",
      .object [("exists", .object [("field", .string "cast.info.role.name")])]⟩,
    ⟨some "awards", .object [("exists", .object [("field", .string "awards.year")])]⟩]

def gathered : Json :=
  .object [("bool", .object [("filter", .array [
    .object [("term", .object [("year", .ofNat 1979)])],
    .object [("nested", .object [("path", .string "awards"), ("query",
      .object [("bool", .object [("filter", .array [
        .object [("exists", .object [("field", .string "awards.year")])],
        .object [("nested", .object [("path", .string "awards.jury"), ("query",
          .object [("exists", .object [("field", .string "awards.jury.name")])])])]])])])])],
    .object [("nested", .object [("path", .string "cast"), ("query",
      .object [("nested", .object [("path", .string "cast.info.role"), ("query",
        .object [("bool", .object [("filter", .array [
          .object [("term", .object [("cast.info.role.name", .string "Ripley")])],
          .object [("exists", .object [("field", .string "cast.info.role.name")])]])])])])])])]])])]

theorem assemble_placed_scattered :
    ∃ mapping, Mapping.ofJson Mapping.castawayDeclaration = .ok mapping ∧
      scopesInPlay scattered (some mapping) = ["cast.info.role", "awards.jury", "awards", "cast"] ∧
      (assemble scattered (some mapping)).map Json.compact = some gathered.compact ∧
      ∃ conditions placed opened, Conjoined conditions (assemble scattered (some mapping)) ∧
        States [] conditions placed opened ∧ (placed.map Prod.snd).Perm scattered ∧
        opened.Perm ["cast.info.role", "awards.jury", "awards", "cast"] := by
  obtain ⟨mapping, read, checked⟩ := Result.ok_of_any
    (show (Mapping.ofJson Mapping.castawayDeclaration).toOption.any (fun mapping =>
      decide (scopesInPlay scattered (some mapping) =
          ["cast.info.role", "awards.jury", "awards", "cast"] ∧
        (assemble scattered (some mapping)).map Json.compact = some gathered.compact)) = true by
      decide +kernel)
  obtain ⟨scopes, written⟩ := of_decide_eq_true checked
  have known : WasRead (some mapping) := by
    rintro _ ⟨⟩
    exact ⟨_, by decide +kernel, read⟩
  obtain ⟨_, _, _, conditions, placed, opened, joined, states, once, _, _, _, each⟩ :=
    assemble_placed scattered known
  exact ⟨mapping, read, scopes, written, conditions, placed, opened, joined, states, once,
    scopes ▸ each⟩

end Selection

end ScopedClauses
