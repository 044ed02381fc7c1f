import Mathlib.Data.List.Perm.Basic
import ScopedClauses.Json.Reader

/-!
Values up to the order of the members of objects, and values whose objects name no key twice.
What is read from a text is of the second kind: a key that comes again overwrites.
-/

namespace ScopedClauses

namespace Members

abbrev keys (members : Members) : List String := members.map Prod.fst

theorem put_new {key : String} {members : Members} (fresh : key ∉ members.keys) (value : Json) :
    put key value members = members ++ [(key, value)] := by
  induction members with
  | nil => rfl
  | cons member rest ih =>
      simp only [keys, List.map_cons, List.mem_cons, not_or] at fresh
      rw [put, if_neg (Ne.symm fresh.1), ih fresh.2]
      rfl

theorem mem_keys_put {key name : String} {value : Json} {members : Members} :
    name ∈ (put key value members).keys ↔ name = key ∨ name ∈ members.keys := by
  induction members with
  | nil => simp [put]
  | cons member rest ih =>
      rw [put]
      split
      · rename_i here
        subst here
        simp
      · simp only [keys, List.map_cons, List.mem_cons] at ih ⊢
        rw [ih]
        exact or_left_comm

theorem nodup_put {key : String} {value : Json} {members : Members} (distinct : members.keys.Nodup) :
    (put key value members).keys.Nodup := by
  induction members with
  | nil => simp [put]
  | cons member rest ih =>
      simp only [keys, List.map_cons, List.nodup_cons] at distinct
      rw [put]
      split
      · rename_i here
        subst here
        simpa using distinct
      · rename_i elsewhere
        simp only [keys, List.map_cons, List.nodup_cons]
        refine ⟨fun later => ?_, ih distinct.2⟩
        rcases mem_keys_put.mp later with same | later
        · exact elsewhere same
        · exact distinct.1 later

theorem lookup_member (key name : String) (value : Json) (rest : Members) :
    List.lookup name ((key, value) :: rest) =
      if name = key then some value else rest.lookup name := by
  rw [List.lookup_cons]
  by_cases same : name = key
  · simp [same]
  · rw [beq_eq_false_iff_ne.mpr same, if_neg same]

theorem mem_of_lookup {key : String} {members : Members} {value : Json}
    (found : members.lookup key = some value) : (key, value) ∈ members := by
  obtain ⟨front, back, split, _⟩ := List.lookup_eq_some_iff.mp found
  rw [split]
  exact List.mem_append_right _ List.mem_cons_self

theorem lookup_of_not_mem_keys {key : String} {members : Members} (absent : key ∉ members.keys) :
    members.lookup key = none := by
  rw [List.lookup_eq_none_iff]
  intro member listed
  have apart : key ≠ member.1 := fun same => absent (same ▸ List.mem_map_of_mem listed)
  simpa using apart

theorem exists_lookup {key : String} {members : Members} (present : key ∈ members.keys) :
    ∃ value, members.lookup key = some value := by
  obtain ⟨member, listed, rfl⟩ := List.mem_map.mp present
  refine Option.ne_none_iff_exists'.mp fun absent => ?_
  exact absurd (List.lookup_eq_none_iff.mp absent member listed) (by simp)

theorem lookup_of_mem {key : String} {value : Json} {members : Members}
    (distinct : members.keys.Nodup) (listed : (key, value) ∈ members) :
    members.lookup key = some value := by
  induction members with
  | nil => cases listed
  | cons member rest ih =>
      obtain ⟨name, content⟩ := member
      simp only [keys, List.map_cons, List.nodup_cons] at distinct
      rw [lookup_member]
      rcases List.mem_cons.mp listed with same | later
      · cases same
        exact if_pos rfl
      · have apart : key ≠ name := fun same => distinct.1 (same ▸ List.mem_map_of_mem later)
        rw [if_neg apart, ih distinct.2 later]

theorem lookup_put {key name : String} {value : Json} {members : Members} :
    (put key value members).lookup name =
      if name = key then some value else members.lookup name := by
  induction members with
  | nil => rw [put, lookup_member]
  | cons member rest ih =>
      obtain ⟨other, old⟩ := member
      rw [put]
      split
      · rename_i here
        rw [lookup_member, lookup_member, here]
        split <;> rfl
      · rename_i elsewhere
        rw [lookup_member, lookup_member, ih]
        by_cases same : name = key
        · have apart : name ≠ other := fun found => elsewhere (found.symm.trans same)
          rw [if_neg apart, if_pos same, if_pos same]
        · rw [if_neg same, if_neg same]

theorem lookup_merge_last (members extra : Members) (name : String) :
    (merge members extra).lookup name = (extra.reverse.lookup name).or (members.lookup name) := by
  induction extra generalizing members with
  | nil => rfl
  | cons member rest ih =>
      obtain ⟨key, value⟩ := member
      have step : merge members ((key, value) :: rest) = merge (put key value members) rest := rfl
      rw [step, ih, lookup_put, List.reverse_cons, List.lookup_append, Option.or_assoc]
      congr 1
      rw [lookup_member]
      split <;> rfl

theorem lookup_reverse {members : Members} (distinct : members.keys.Nodup) (name : String) :
    members.reverse.lookup name = members.lookup name := by
  have reversed : (Members.keys members.reverse).Nodup :=
    ((List.reverse_perm members).map Prod.fst).nodup_iff.mpr distinct
  cases found : members.lookup name with
  | none =>
      rw [List.lookup_eq_none_iff] at found ⊢
      exact fun member listed => found member (List.mem_reverse.mp listed)
  | some value => exact lookup_of_mem reversed (List.mem_reverse.mpr (mem_of_lookup found))

theorem lookup_merge {extra : Members} (distinct : extra.keys.Nodup) (members : Members)
    (name : String) :
    (merge members extra).lookup name = (extra.lookup name).or (members.lookup name) := by
  rw [lookup_merge_last, lookup_reverse distinct]

theorem mem_keys_merge {extra members : Members} {name : String} :
    name ∈ (merge members extra).keys ↔ name ∈ extra.keys ∨ name ∈ members.keys := by
  induction extra generalizing members with
  | nil => simp [merge]
  | cons member rest ih =>
      have step : merge members (member :: rest) = merge (put member.1 member.2 members) rest := rfl
      simp only [step, ih, mem_keys_put, keys, List.map_cons, List.mem_cons]
      exact or_left_comm.trans or_assoc.symm

theorem exists_of_mem_keys {key : String} {members : Members} (present : key ∈ members.keys) :
    ∃ (front : Members) (value : Json) (back : Members),
      members = front ++ (key, value) :: back ∧ key ∉ front.keys := by
  obtain ⟨before, after, split, fresh⟩ := List.eq_append_cons_of_mem present
  obtain ⟨front, here, rfl, rfl, more⟩ := List.map_eq_append_iff.mp split
  obtain ⟨⟨name, value⟩, back, rfl, rfl, _⟩ := List.map_eq_cons_iff.mp more
  exact ⟨front, value, back, rfl, fresh⟩

theorem findIdx?_of_not_mem {key : String} {members : Members} (absent : key ∉ members.keys) :
    members.findIdx? (·.1 = key) = none := by
  rw [List.findIdx?_eq_none_iff]
  intro member inside
  have apart : member.1 ≠ key := fun same => absent (same ▸ List.mem_map_of_mem inside)
  simpa using apart

theorem findIdx?_member {key : String} {front : Members} (fresh : key ∉ front.keys) (value : Json)
    (back : Members) : (front ++ (key, value) :: back).findIdx? (·.1 = key) = some front.length := by
  simp [List.findIdx?_append, findIdx?_of_not_mem fresh, List.findIdx?_cons]

theorem takeOut_of_not_mem {key : String} {members : Members} (absent : key ∉ members.keys) :
    takeOut key members = members := by
  rw [takeOut, findIdx?_of_not_mem absent]

theorem takeOut_last {key : String} {front : Members} (fresh : key ∉ front.keys) (value : Json) :
    takeOut key (front ++ [(key, value)]) = front := by
  simp [takeOut, findIdx?_member fresh]

theorem takeOut_inner {key : String} {front : Members} (fresh : key ∉ front.keys) (value : Json)
    (middle : Members) (last : String × Json) :
    takeOut key (front ++ (key, value) :: (middle ++ [last])) = front ++ last :: middle := by
  have ending : (front ++ (key, value) :: (middle ++ [last])).getLast? = some last := by
    simp [List.getLast?_cons]
  rw [takeOut, findIdx?_member fresh, ending]
  simp [List.dropLast_cons_of_ne_nil]

theorem mem_of_mem_takeOut {key : String} {members : Members} {member : String × Json}
    (left : member ∈ takeOut key members) : member ∈ members := by
  rw [takeOut] at left
  split at left
  · rename_i last _ ending
    rcases List.mem_or_eq_of_mem_set (List.dropLast_subset _ left) with inside | same
    · exact inside
    · exact same ▸ List.mem_of_getLast? ending
  · exact left

theorem keys_takeOut (key : String) (members : Members) :
    (takeOut key members).keys.Perm (members.keys.erase key) := by
  by_cases present : key ∈ members.keys
  · obtain ⟨front, value, back, rfl, fresh⟩ := exists_of_mem_keys present
    have rest : (keys (front ++ (key, value) :: back)).erase key = front.keys ++ back.keys := by
      simp only [keys, List.map_append, List.map_cons] at fresh ⊢
      rw [List.erase_append_right _ fresh, List.erase_cons_head]
    rw [rest]
    rcases back.eq_nil_or_concat with rfl | ⟨middle, last, rfl⟩
    · rw [takeOut_last fresh]
      simp
    · rw [List.concat_eq_append, takeOut_inner fresh]
      simp only [keys, List.map_append, List.map_cons, List.map_nil]
      exact (List.perm_append_singleton _ _).symm.append_left _
  · rw [takeOut_of_not_mem present, List.erase_of_not_mem present]

theorem nodup_takeOut (key : String) {members : Members} (distinct : members.keys.Nodup) :
    (takeOut key members).keys.Nodup :=
  (keys_takeOut key members).nodup_iff.mpr (distinct.erase key)

theorem mem_keys_takeOut {key name : String} {members : Members} (distinct : members.keys.Nodup) :
    name ∈ (takeOut key members).keys ↔ name ≠ key ∧ name ∈ members.keys :=
  (keys_takeOut key members).mem_iff.trans distinct.mem_erase_iff

theorem takeOut_put {key : String} {members : Members} (fresh : key ∉ members.keys)
    (value : Json) : takeOut key (put key value members) = members := by
  rw [put_new fresh, takeOut_last fresh]

theorem takeOut_put_put {key other : String} {members : Members} (fresh : key ∉ members.keys)
    (apart : other ≠ key) (beside : other ∉ members.keys) (value last : Json) :
    takeOut key (put other last (put key value members)) = put other last members := by
  have absent : other ∉ (put key value members).keys := by
    rw [mem_keys_put]
    exact not_or.mpr ⟨apart, beside⟩
  rw [put_new absent, put_new fresh, put_new beside, List.append_assoc]
  exact takeOut_inner fresh value [] (other, last)

end Members

namespace Json

/-! ### Keys without repetition -/

mutual

def distinct : Json → Bool
  | .array items => distinctAll items
  | .object members => decide (Members.keys members).Nodup && distinctMembers members
  | _ => true

def distinctAll : List Json → Bool
  | [] => true
  | item :: rest => distinct item && distinctAll rest

def distinctMembers : List (String × Json) → Bool
  | [] => true
  | (_, content) :: rest => distinct content && distinctMembers rest

end

theorem distinct_object {members : Members} :
    (Json.object members).distinct = true ↔
      members.keys.Nodup ∧ distinctMembers members = true := by
  simp [distinct]

theorem distinctMembers_cons {key : String} {content : Json} {rest : Members} :
    distinctMembers ((key, content) :: rest) = true ↔
      content.distinct = true ∧ distinctMembers rest = true := by
  simp [distinctMembers]

theorem distinct_of_mem {members : Members} {member : String × Json}
    (distinct : distinctMembers members = true) (listed : member ∈ members) :
    member.2.distinct = true := by
  induction members with
  | nil => cases listed
  | cons first rest ih =>
      rw [distinctMembers_cons] at distinct
      rcases List.mem_cons.mp listed with rfl | later
      · exact distinct.1
      · exact ih distinct.2 later

theorem distinct_lookup {key : String} {members : Members} {value : Json}
    (distinct : distinctMembers members = true) (found : members.lookup key = some value) :
    value.distinct = true :=
  distinct_of_mem distinct (Members.mem_of_lookup found)

theorem distinct_get? {key : String} {json value : Json} (distinct : json.distinct = true)
    (found : json.get? key = some value) : value.distinct = true := by
  cases json with
  | object members => exact distinct_lookup (distinct_object.mp distinct).2 found
  | _ => cases found

theorem distinctMembers_put {key : String} {value : Json} {members : Members}
    (kept : value.distinct = true) (distinct : distinctMembers members = true) :
    distinctMembers (Members.put key value members) = true := by
  induction members with
  | nil => simpa [Members.put, distinctMembers] using kept
  | cons member rest ih =>
      obtain ⟨name, old⟩ := member
      rw [distinctMembers_cons] at distinct
      rw [Members.put]
      split
      · exact distinctMembers_cons.mpr ⟨kept, distinct.2⟩
      · exact distinctMembers_cons.mpr ⟨distinct.1, ih distinct.2⟩

theorem distinct_merge {members extra : Members} (kept : distinctMembers extra = true)
    (distinct : (Json.object members).distinct = true) :
    (Json.object (Members.merge members extra)).distinct = true := by
  induction extra generalizing members with
  | nil => exact distinct
  | cons member rest ih =>
      obtain ⟨key, value⟩ := member
      rw [distinctMembers_cons] at kept
      rw [distinct_object] at distinct
      exact ih kept.2 (distinct_object.mpr
        ⟨Members.nodup_put distinct.1, distinctMembers_put kept.1 distinct.2⟩)

end Json

namespace Source

mutual

theorem distinct_value {json : Json} : ∀ depth (source : Source),
    source.value depth = some json → json.distinct = true
  | _, .null, read => by
      cases read
      rfl
  | _, .bool _, read => by
      cases read
      rfl
  | _, .number literal, read => by
      obtain ⟨number, _, rfl⟩ := Option.map_eq_some_iff.mp read
      rfl
  | _, .string glyphs, read => by
      obtain ⟨text, _, rfl⟩ := Option.map_eq_some_iff.mp read
      rfl
  | 0, .array _, read => by cases read
  | depth + 1, .array items, read => by
      obtain ⟨values, found, rfl⟩ := Option.map_eq_some_iff.mp read
      exact distinct_itemValues depth items found
  | 0, .object _, read => by cases read
  | depth + 1, .object members, read => by
      obtain ⟨entries, found, rfl⟩ := Option.map_eq_some_iff.mp read
      exact Json.distinct_merge (distinct_memberValues depth members found) rfl
  termination_by structural _ source => source

theorem distinct_itemValues {values : List Json} : ∀ depth (items : List Source),
    itemValues depth items = some values → Json.distinctAll values = true
  | _, [], read => by
      cases read
      rfl
  | depth, item :: rest, read => by
      simp only [itemValues, Option.bind_eq_bind, Option.bind_eq_some_iff, Option.some.injEq] at read
      obtain ⟨first, here, others, beside, rfl⟩ := read
      simp [Json.distinctAll, distinct_value depth item here, distinct_itemValues depth rest beside]
  termination_by structural _ items => items

theorem distinct_memberValues {entries : Members} : ∀ depth (members : List (List Glyph × Source)),
    memberValues depth members = some entries → Json.distinctMembers entries = true
  | _, [], read => by
      cases read
      rfl
  | depth, (key, content) :: rest, read => by
      simp only [memberValues, Option.bind_eq_bind, Option.bind_eq_some_iff, Option.some.injEq] at read
      obtain ⟨name, _, first, here, others, beside, rfl⟩ := read
      exact Json.distinctMembers_cons.mpr
        ⟨distinct_value depth content here, distinct_memberValues depth rest beside⟩
  termination_by structural _ members => members

end

end Source

namespace Json

/-- A value that was read from a text names no key twice in an object. -/
theorem distinct_parse? {text : String} {json : Json} (read : Json.parse? text = some json) :
    json.distinct = true := by
  simp only [Json.parse?, Option.bind_eq_bind, Option.bind_eq_some_iff] at read
  obtain ⟨source, _, read⟩ := read
  exact source.distinct_value depthMost read

/-! ### Equality up to order -/

mutual

inductive Alike : Json → Json → Prop where
  | refl (json : Json) : Alike json json
  | array {items others : List Json} : AlikeAll items others → Alike (.array items) (.array others)
  | object {members others reordered : Members} : AlikeMembers members others →
      others.Perm reordered → Alike (.object members) (.object reordered)

inductive AlikeAll : List Json → List Json → Prop where
  | nil : AlikeAll [] []
  | cons {item other : Json} {items others : List Json} : Alike item other →
      AlikeAll items others → AlikeAll (item :: items) (other :: others)

inductive AlikeMembers : Members → Members → Prop where
  | nil : AlikeMembers [] []
  | cons {key : String} {content other : Json} {members others : Members} : Alike content other →
      AlikeMembers members others →
      AlikeMembers ((key, content) :: members) ((key, other) :: others)

end

theorem AlikeMembers.prepend (front : Members) {members others : Members}
    (alike : AlikeMembers members others) : AlikeMembers (front ++ members) (front ++ others) := by
  induction front with
  | nil => exact alike
  | cons member rest ih => exact .cons (.refl member.2) ih

/-! ### Agreement -/

mutual

def comparable : Json → Bool
  | .number value => value.agrees value
  | .array items => comparableAll items
  | .object members => comparableMembers members
  | _ => true

def comparableAll : List Json → Bool
  | [] => true
  | item :: rest => comparable item && comparableAll rest

def comparableMembers : List (String × Json) → Bool
  | [] => true
  | (_, content) :: rest => comparable content && comparableMembers rest

end

structure Proper (json : Json) : Prop where
  distinct : json.distinct = true
  comparable : json.comparable = true

mutual

theorem agrees_self : ∀ json : Json, json.distinct = true → json.comparable = true →
    json.agrees json = true
  | .null, _, _ => rfl
  | .bool value, _, _ => by simp [agrees]
  | .number _, _, comparable => comparable
  | .string value, _, _ => by simp [agrees]
  | .array items, distinct, comparable => itemsAgree_self items distinct comparable
  | .object members, distinct, comparable => by
      obtain ⟨keys, values⟩ := distinct_object.mp distinct
      rw [agrees, beq_self_eq_true, Bool.true_and]
      exact membersAgree_self members (fun member listed => Members.lookup_of_mem keys listed) values
        comparable
  termination_by structural json => json

theorem itemsAgree_self : ∀ items : List Json, distinctAll items = true →
    comparableAll items = true → itemsAgree items items = true
  | [], _, _ => rfl
  | item :: rest, distinct, comparable => by
      simp only [distinctAll, comparableAll, Bool.and_eq_true] at distinct comparable
      rw [itemsAgree, agrees_self item distinct.1 comparable.1,
        itemsAgree_self rest distinct.2 comparable.2]
      rfl
  termination_by structural items => items

theorem membersAgree_self {others : Members} : ∀ members : List (String × Json),
    (∀ member ∈ members, others.lookup member.1 = some member.2) →
      distinctMembers members = true → comparableMembers members = true →
        membersAgree members others = true
  | [], _, _, _ => rfl
  | (key, content) :: rest, found, distinct, comparable => by
      rw [List.forall_mem_cons] at found
      simp only [distinctMembers, comparableMembers, Bool.and_eq_true] at distinct comparable
      rw [membersAgree, found.1]
      simp only [agrees_self content distinct.1 comparable.1, Bool.true_and]
      exact membersAgree_self rest found.2 distinct.2 comparable.2
  termination_by structural members => members

end

theorem proper_array {items : List Json} :
    (Json.array items).Proper ↔ ∀ item ∈ items, item.Proper := by
  have parts : ∀ items : List Json, distinctAll items = true ∧ comparableAll items = true ↔
      ∀ item ∈ items, item.Proper := by
    intro items
    induction items with
    | nil => simp [distinctAll, comparableAll]
    | cons item rest ih =>
        rw [List.forall_mem_cons, ← ih, distinctAll, comparableAll, Bool.and_eq_true,
          Bool.and_eq_true, and_and_and_comm]
        exact and_congr_left' ⟨fun both => ⟨both.1, both.2⟩, fun proper => ⟨proper.1, proper.2⟩⟩
  rw [← parts]
  exact ⟨fun proper => ⟨proper.1, proper.2⟩, fun both => ⟨both.1, both.2⟩⟩

theorem Proper.member {members : Members} (proper : (Json.object members).Proper)
    {member : String × Json} (listed : member ∈ members) : member.2.Proper := by
  have values : comparableMembers members = true := proper.comparable
  refine ⟨distinct_of_mem (distinct_object.mp proper.distinct).2 listed, ?_⟩
  clear proper
  induction members with
  | nil => cases listed
  | cons first rest ih =>
      rw [comparableMembers, Bool.and_eq_true] at values
      rcases List.mem_cons.mp listed with rfl | later
      · exact values.1
      · exact ih later values.2

theorem Proper.get? {json value : Json} (proper : json.Proper) {key : String}
    (found : json.get? key = some value) : value.Proper := by
  cases json with
  | object members => exact proper.member (Members.mem_of_lookup found)
  | _ => cases found

end Json

end ScopedClauses
