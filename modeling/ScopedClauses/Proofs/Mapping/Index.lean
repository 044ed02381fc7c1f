import ScopedClauses.Proofs.Mapping.Scopes

/-!
What is found under a path. It is the field declared last there, so that a field may hide another
one where names have dots in them. Without them nothing is hidden, and the scopes around a path are
the nested fields that the path goes through.
-/

namespace ScopedClauses

section Repetitions

variable {α : Type} [BEq α]

theorem length_eraseDups_le : ∀ list : List α, list.eraseDups.length ≤ list.length
  | [] => by simp
  | first :: rest => by
      have fewer := List.length_filter_le (fun other => !other == first) rest
      have kept := length_eraseDups_le (rest.filter fun other => !other == first)
      rw [List.eraseDups_cons, List.length_cons, List.length_cons]
      omega
  termination_by list => list.length
  decreasing_by
    rw [List.length_cons]
    omega

theorem length_eraseDups_iff [LawfulBEq α] (list : List α) :
    list.eraseDups.length = list.length ↔ list.Nodup := by
  induction list with
  | nil => simp
  | cons first rest ih =>
      have fewer := List.length_filter_le (fun other => !other == first) rest
      have kept := length_eraseDups_le (rest.filter fun other => !other == first)
      have fresh : first ∉ rest ↔ ∀ other ∈ rest, (!other == first) = true := by
        simp only [Bool.not_eq_true', beq_eq_false_iff_ne]
        exact ⟨fun absent other member same => absent (same ▸ member),
          fun differ member => differ first member rfl⟩
      rw [List.eraseDups_cons, List.length_cons, List.length_cons, List.nodup_cons, fresh,
        Nat.add_right_cancel_iff]
      constructor
      · intro same
        have whole : (rest.filter fun other => !other == first).length = rest.length := by omega
        have all := List.length_filter_eq_length_iff.mp whole
        rw [List.filter_eq_self.mpr all] at same
        exact ⟨all, ih.mp same⟩
      · rintro ⟨all, distinct⟩
        rw [List.filter_eq_self.mpr all]
        exact ih.mpr distinct

end Repetitions

namespace Mapping

open Rose Tree

variable {mapping : Mapping}

/-! ### Fields under their own paths -/

theorem numbered_ofJson {json : Json} (distinct : json.distinct = true)
    (read : ofJson json = .ok mapping) :
    mapping.tree.detached = [] ∧ (numbers mapping.tree.branches).Nodup := by
  obtain ⟨parameters, fields, _, _, rfl⟩ := declared_ofJson distinct read
  exact ⟨rfl, (numbered_ofShape (.node ⟨none, .root parameters⟩ fields)).distinct⟩

theorem nodup_declared (settled : mapping.tree.detached = [])
    (distinct : (numbers mapping.tree.branches).Nodup) : mapping.declared.Nodup := by
  rw [numbers, ← nodes_of_settled settled, List.Nodup, List.pairwise_map] at distinct
  refine List.pairwise_filterMap.mpr (distinct.imp fun differ entry first other second same => ?_)
  obtain ⟨_, _, rfl⟩ := Option.map_eq_some_iff.mp first
  obtain ⟨_, _, rfl⟩ := Option.map_eq_some_iff.mp second
  exact differ (congrArg Prod.fst same)

/-- What is found under a path is what was declared last there. -/
theorem lookup?_eq_some_iff {path : String} {entry : Nat × Field} :
    mapping.lookup? path = some entry ↔ entry.2.path = path ∧
      ∃ before after, mapping.declared = before ++ entry :: after ∧
        ∀ later ∈ after, later.2.path ≠ path := by
  rw [lookup?, List.find?_eq_some_iff_append]
  simp only [decide_eq_true_eq, Bool.not_eq_true', decide_eq_false_iff_not]
  refine and_congr_right fun _ => ⟨?_, ?_⟩
  · rintro ⟨later, earlier, listed, other⟩
    refine ⟨earlier.reverse, later.reverse, ?_, fun entry member =>
      other entry (List.mem_reverse.mp member)⟩
    rw [← List.reverse_reverse mapping.declared, listed]
    simp
  · rintro ⟨before, after, listed, other⟩
    exact ⟨after.reverse, before.reverse, by simp [listed], fun entry member =>
      other entry (List.mem_reverse.mp member)⟩

theorem declaredOnce_iff {path : String} : mapping.DeclaredOnce path ↔
    ∀ entry ∈ mapping.declared, entry.2.path = path →
      mapping.lookup? path = some entry ∧ mapping.field path = .ok entry.2 := by
  constructor
  · rintro once entry member rfl
    have found := lookup?_of_once once member
    exact ⟨found, by rw [field, found]; rfl⟩
  · intro found first member second known same again
    have here := (found first member same).1
    rw [(found second known again).1] at here
    exact (Option.some.inj here).symm

theorem length_paths_iff (settled : mapping.tree.detached = [])
    (distinct : (numbers mapping.tree.branches).Nodup) :
    mapping.paths.length = mapping.declared.length ↔ ∀ path, mapping.DeclaredOnce path := by
  have lengths := length_eraseDups_iff (mapping.declared.map (·.2.path))
  rw [List.length_map] at lengths
  rw [paths, List.length_mergeSort, lengths,
    List.nodup_map_iff_inj_on (nodup_declared settled distinct)]
  constructor
  · rintro injective path first member second known rfl same
    exact injective first member second known same.symm
  · intro once first member second known same
    exact once _ first member second known same rfl

/-- The scopes around a scope follow it among the scopes around a path. -/
theorem nestedScopes_tail (settled : mapping.tree.detached = [])
    (distinct : (numbers mapping.tree.branches).Nodup) {path scope : String}
    {front back : List String} (found : mapping.nestedScopes path = .ok (front ++ scope :: back))
    (once : mapping.DeclaredOnce scope) :
    mapping.nestedScopes scope = .ok (scope :: back) := by
  obtain ⟨id, _, _, scopes⟩ := nestedScopes_ok.mp found
  obtain ⟨inner, outer, way, _, rest⟩ := List.filterMap_eq_append_iff.mp scopes
  obtain ⟨between, entry, outward, rfl, _, opens, rfl⟩ := List.filterMap_eq_cons_iff.mp rest
  rw [← List.append_assoc] at way
  exact nestedScopes_of_lineage settled distinct way opens once

/-- What is found under a path is the field declared last there. So no field is hidden where no two
fields have one path, which is where there are as many paths as fields; this holds where no name
has a dot in it. The scopes around a scope are then those that follow it. -/
theorem fields_found {json : Json} (distinct : json.distinct = true)
    (read : ofJson json = .ok mapping) :
    (∀ path entry, mapping.lookup? path = some entry ↔ entry.2.path = path ∧
      ∃ before after, mapping.declared = before ++ entry :: after ∧
        ∀ later ∈ after, later.2.path ≠ path) ∧
    (∀ path, mapping.DeclaredOnce path ↔ ∀ entry ∈ mapping.declared, entry.2.path = path →
      mapping.lookup? path = some entry ∧ mapping.field path = .ok entry.2) ∧
    (mapping.paths.length = mapping.declared.length ↔ ∀ path, mapping.DeclaredOnce path) ∧
    (∀ path front scope back, mapping.nestedScopes path = .ok (front ++ scope :: back) →
      mapping.DeclaredOnce scope → mapping.nestedScopes scope = .ok (scope :: back)) ∧
    (mapping.Undotted → ∀ path, mapping.DeclaredOnce path) := by
  obtain ⟨settled, numbered⟩ := numbered_ofJson distinct read
  exact ⟨fun _ _ => lookup?_eq_some_iff, fun _ => declaredOnce_iff,
    length_paths_iff settled numbered,
    fun _ _ _ _ found once => nestedScopes_tail settled numbered found once,
    fun undotted => declaredOnce_of_nodup (paths_distinct distinct read undotted)⟩

def castMember : String × Json :=
  ("cast", .object [("type", .string "nested"), ("properties", .object [
    ("role", .object [("type", .string "nested"), ("properties", .object [
      ("name", .object [("type", .string "keyword")])])])])])

theorem fields_found_role : ∃ mapping,
    ofJson (.object [("properties", .object [castMember])]) = .ok mapping ∧
      mapping.paths.length = mapping.declared.length ∧
      (∀ entry ∈ mapping.declared, mapping.field entry.2.path = .ok entry.2) ∧
      mapping.nestedScopes "cast.role.name" = .ok ["cast.role", "cast"] ∧
      mapping.nestedScopes "cast.role" = .ok ["cast.role", "cast"] := by
  obtain ⟨mapping, read, checked⟩ := Result.ok_of_any
    (show (ofJson (.object [("properties", .object [castMember])])).toOption.any (fun mapping =>
      decide mapping.Undotted && (mapping.nestedScopes "cast.role.name").toOption.any
        (· = ["cast.role", "cast"])) = true by decide +kernel)
  simp only [Bool.and_eq_true, decide_eq_true_eq] at checked
  obtain ⟨undotted, scopes⟩ := checked
  obtain ⟨_, listed, shown⟩ := Result.ok_of_any scopes
  obtain rfl := of_decide_eq_true shown
  obtain ⟨_, found, count, tails, distinct⟩ := fields_found (by decide +kernel) read
  have once := distinct undotted
  exact ⟨mapping, read, count.mpr once,
    fun entry member => ((found _).mp (once _) entry member rfl).2, listed,
    tails _ [] _ _ listed (once _)⟩

/-- A name that is the path of another field hides that field, and with it a scope. -/
theorem fields_shadowed : ∃ mapping,
    ofJson (.object [("properties", .object [castMember,
      ("cast.role", .object [("type", .string "keyword")])])]) = .ok mapping ∧
      (∃ entry ∈ mapping.declared, mapping.lookup? entry.2.path ≠ some entry ∧
        mapping.field entry.2.path ≠ .ok entry.2) ∧
      mapping.paths.length ≠ mapping.declared.length ∧
      mapping.nestedScopes "cast.role.name" = .ok ["cast.role", "cast"] ∧
      mapping.nestedScopes "cast.role" = .ok [] := by
  obtain ⟨mapping, read, checked⟩ := Result.ok_of_any
    (show (ofJson (.object [("properties", .object [castMember,
      ("cast.role", .object [("type", .string "keyword")])])])).toOption.any (fun mapping =>
        mapping.declared.any (fun entry => entry.2.path = "cast.role" && entry.2.isNested) &&
        (mapping.field "cast.role").toOption.any (fun field => !field.isNested) &&
        (mapping.nestedScopes "cast.role.name").toOption.any (· = ["cast.role", "cast"]) &&
        (mapping.nestedScopes "cast.role").toOption.any (· = [])) = true by decide +kernel)
  simp only [Bool.and_eq_true, List.any_eq_true, decide_eq_true_eq] at checked
  obtain ⟨⟨⟨⟨entry, member, path, nested⟩, other⟩, inner⟩, outer⟩ := checked
  obtain ⟨field, found, plain⟩ := Result.ok_of_any other
  obtain ⟨_, around, shown⟩ := Result.ok_of_any inner
  obtain rfl := of_decide_eq_true shown
  obtain ⟨_, above, shown⟩ := Result.ok_of_any outer
  obtain rfl := of_decide_eq_true shown
  have hidden : mapping.field entry.2.path ≠ .ok entry.2 := by
    rw [path, found]
    rintro same
    cases same
    rw [nested] at plain
    cases plain
  have numbered := numbered_ofJson (by decide +kernel) read
  refine ⟨mapping, read, ⟨entry, member, fun same => hidden ?_, hidden⟩, fun count => hidden ?_,
    around, above⟩
  · rw [Mapping.field, same]
    rfl
  · exact (declaredOnce_iff.mp ((length_paths_iff numbered.1 numbered.2).mp count _)
      entry member rfl).2

/-! ### Scopes by prefix -/

theorem splitLast?_ok {separator : Char} {text front back : String}
    (cut : Text.splitLast? separator text = some (front, back)) :
    text.toList = front.toList ++ separator :: back.toList ∧ separator ∉ back.toList := by
  have whole := List.takeWhile_append_dropWhile (p := (· != separator)) (l := text.toList.reverse)
  have other := List.all_takeWhile (p := (· != separator)) (l := text.toList.reverse)
  unfold Text.splitLast? at cut
  simp only at cut
  split at cut
  · cases cut
  · rename_i first before found
    simp only [Option.some.injEq, Prod.mk.injEq] at cut
    obtain ⟨rfl, rfl⟩ := cut
    have here : first = separator := by
      have head := List.head?_dropWhile_not (· != separator) text.toList.reverse
      simpa [found] using head
    rw [found, here] at whole
    have turned := congrArg List.reverse whole
    refine ⟨by simpa using turned.symm, fun again => ?_⟩
    have differs := List.all_eq_true.mp other separator (by simpa using again)
    simp at differs

theorem isWithin_iff_covers {path owner name scope : String}
    (cut : path.toList = owner.toList ++ '.' :: name.toList) (undotted : '.' ∉ name.toList) :
    isWithin path scope = true ↔ Covers scope owner := by
  have inside : isWithin path owner = true := isWithin_iff.mpr ⟨name.toList, cut⟩
  constructor
  · intro within
    obtain ⟨rest, same⟩ := isWithin_iff.mp within
    rw [cut, List.append_eq_append_iff] at same
    rcases same with ⟨more, longer, tail⟩ | ⟨more, shorter, tail⟩
    · cases more with
      | nil => exact Or.inl (String.toList_inj.mp (by simpa using longer.symm))
      | cons char more =>
          rw [List.cons_append, List.cons.injEq] at tail
          exact absurd (by simp [tail.2]) undotted
    · refine covers_iff.mpr ⟨more, shorter, fun char first => ?_⟩
      obtain ⟨rest, rfl⟩ := List.head?_eq_some_iff.mp first
      exact (List.cons.inj tail).1.symm
  · rintro (rfl | within)
    · exact inside
    · exact isWithin_of_covers within (Or.inr inside)

theorem covers_resolved {path : String} {id : Nat} {type : FieldType}
    (resolved : mapping.resolve path = .ok (id, type)) :
    ∃ field, (id, field) ∈ mapping.declared ∧ ∀ scope, mapping.isNested scope = true →
      (Covers scope field.path ↔ Covers scope path) := by
  rcases resolve_ok resolved with ⟨field, found⟩ | ⟨absent, owner, name, field, cut, found⟩
  · obtain ⟨member, same⟩ := declared_of_lookup? found
    exact ⟨field, member, fun _ _ => by rw [same]⟩
  · obtain ⟨member, same⟩ := declared_of_lookup? found
    obtain ⟨whole, undotted⟩ := splitLast?_ok cut
    refine ⟨field, member, fun scope nested => ?_⟩
    have differs : path ≠ scope := by
      rintro rfl
      rw [isNested, absent] at nested
      cases nested
    rw [same, ← isWithin_iff_covers whole undotted, Covers, or_iff_right differs]

namespace Orderly

variable (orderly : mapping.Orderly)

include orderly

theorem mem_nestedScopes {path : String} {scopes : List String}
    (found : mapping.nestedScopes path = .ok scopes) (scope : String) :
    scope ∈ scopes ↔ mapping.isNested scope = true ∧ Covers scope path := by
  obtain ⟨id, type, resolved, around⟩ := nestedScopes_ok.mp found
  obtain ⟨field, member, covered⟩ := covers_resolved resolved
  have inner : ∀ {scope}, mapping.isNested scope = true →
      (scope ∈ scopes ↔ Covers scope path) := by
    intro scope nested
    obtain ⟨entry, above, rfl, opens⟩ := declared_of_isNested nested
    rw [← covered _ nested, ← around]
    exact orderly.mem_scopesAt above opens member
  constructor
  · intro listed
    have nested := orderly.isNested_of_nestedScopes found listed
    exact ⟨nested, (inner nested).mp listed⟩
  · rintro ⟨nested, covers⟩
    exact (inner nested).mpr covers

/-- Of scopes declared one in the other, the inner ones have the longer paths. -/
theorem descending {scopes : List String} (chained : mapping.Chained scopes) :
    scopes.Pairwise fun inner outer => outer.length < inner.length := by
  induction scopes with
  | nil => exact List.Pairwise.nil
  | cons scope outer ih =>
      refine List.pairwise_cons.mpr ⟨fun target listed => ?_, ih chained.2⟩
      have nested := orderly.isNested_of_nestedScopes chained.1 (List.mem_cons_of_mem _ listed)
      obtain ⟨rest, longer⟩ := isWithin_iff.mp
        ((orderly.isWithin_iff_mem chained.1 nested).mpr listed)
      have lengths := congrArg List.length longer
      rw [List.length_append, List.length_cons, String.length_toList, String.length_toList]
        at lengths
      omega

end Orderly

/-- Where no name has a dot in it, the scopes around a path are the nested fields whose paths are
the path or end in it before a dot, the longest first. So one scope lies around another one exactly
where its path is a proper prefix of the path of the other one that ends before a dot. -/
theorem nestedScopes_by_prefix {json : Json} (distinct : json.distinct = true)
    (read : ofJson json = .ok mapping) (undotted : mapping.Undotted) :
    (∀ path, mapping.contains path = true → ∃ scopes, mapping.nestedScopes path = .ok scopes ∧
      scopes.Pairwise (fun inner outer => outer.length < inner.length) ∧ scopes.Nodup ∧
      ∀ scope, scope ∈ scopes ↔ mapping.isNested scope = true ∧
        (scope = path ∨ scope.toList ++ ['.'] <+: path.toList)) ∧
    ∀ scope target, mapping.isNested scope = true → mapping.isNested target = true →
      (isWithin scope target = true ↔ ∃ scopes, mapping.nestedScopes scope = .ok scopes ∧
        target ∈ scopes ∧ target ≠ scope) := by
  have orderly := orderly_ofJson distinct read undotted
  refine ⟨fun path known => ?_, fun scope target here there => ?_⟩
  · obtain ⟨scopes, found⟩ := exists_nestedScopes known
    have chained := orderly.chained found
    refine ⟨scopes, found, orderly.descending chained, chained.nodup, fun scope => ?_⟩
    rw [orderly.mem_nestedScopes found, Covers, isWithin, List.isPrefixOf_iff_prefix,
      @eq_comm _ path scope]
  · obtain ⟨outer, own⟩ := orderly.nestedScopes_nested here
    rw [orderly.isWithin_iff_mem own there]
    constructor
    · intro listed
      refine ⟨_, own, List.mem_cons_of_mem _ listed, ?_⟩
      rintro rfl
      exact (List.nodup_cons.mp (orderly.chained own).nodup).1 listed
    · rintro ⟨scopes, found, listed, differs⟩
      cases own.symm.trans found
      exact (List.mem_cons.mp listed).resolve_left differs

def castawayDeclaration : Json :=
  .object [("properties", .object [
    ("cast", .object [("type", .string "nested"), ("properties", .object [
      ("info", .object [("properties", .object [
        ("role", .object [("type", .string "nested"), ("properties", .object [
          ("name", .object [("type", .string "text"), ("fields", .object [
            ("raw", .object [("type", .string "keyword")])])])])])])])])]),
    ("castaway", .object [("type", .string "nested")])])]

theorem nestedScopes_by_prefix_castaway : ∃ mapping,
    ofJson castawayDeclaration = .ok mapping ∧ mapping.Undotted ∧
      mapping.nestedScopes "cast.info.role.name.raw" = .ok ["cast.info.role", "cast"] ∧
      (∀ scope, scope ∈ ["cast.info.role", "cast"] ↔ mapping.isNested scope = true ∧
        (scope = "cast.info.role.name.raw" ∨
          scope.toList ++ ['.'] <+: "cast.info.role.name.raw".toList)) ∧
      (isWithin "castaway" "cast" = true ↔ ∃ scopes, mapping.nestedScopes "castaway" = .ok scopes ∧
        "cast" ∈ scopes ∧ "cast" ≠ "castaway") := by
  obtain ⟨mapping, read, checked⟩ := Result.ok_of_any
    (show (ofJson castawayDeclaration).toOption.any (fun mapping => decide mapping.Undotted &&
      mapping.isNested "castaway" && mapping.isNested "cast" &&
      mapping.contains "cast.info.role.name.raw" &&
      (mapping.nestedScopes "cast.info.role.name.raw").toOption.any
        (· = ["cast.info.role", "cast"])) = true by decide +kernel)
  simp only [Bool.and_eq_true, decide_eq_true_eq] at checked
  obtain ⟨⟨⟨⟨undotted, here⟩, there⟩, known⟩, around⟩ := checked
  obtain ⟨_, found, shown⟩ := Result.ok_of_any around
  obtain rfl := of_decide_eq_true shown
  obtain ⟨scopes, within⟩ := nestedScopes_by_prefix (by decide +kernel) read undotted
  obtain ⟨_, listed, _, _, prefixes⟩ := scopes _ known
  cases found.symm.trans listed
  exact ⟨mapping, read, undotted, found, prefixes, within _ _ here there⟩

end Mapping

end ScopedClauses
