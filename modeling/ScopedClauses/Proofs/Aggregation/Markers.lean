import Mathlib.Data.List.Nodup
import ScopedClauses.Aggregation.Basic

/-!
The names of markers. A marker is named after what it is below, and numbered from two on where that
name is taken. As the numbered names are all different, counting ends at a free one.
-/

namespace ScopedClauses

namespace Aggregations

variable {aggs : Aggregations} {base name : String}

def IsFree (aggs : Aggregations) (name : String) : Prop :=
  ∀ node ∈ aggs.tree.nodes, node.key ≠ some name

theorem isNone_findByKey? : (aggs.tree.findByKey? name).isNone = true ↔ aggs.IsFree name := by
  simp [Tree.findByKey?, IsFree]

def plainName (aggs : Aggregations) (tag : String) (parent : Nat) : String :=
  let place := (aggs.tree.key? parent).getD "root"
  s!"{tag}_below_{place}"

def numberedName (base : String) (number : Nat) : String := s!"{base}_{number}"

theorem markerName_eq (aggs : Aggregations) (tag : String) (parent : Nat) :
    aggs.markerName tag parent = ((markerNames (aggs.plainName tag parent) aggs.tree.len).find?
      fun name => (aggs.tree.findByKey? name).isNone).getD (aggs.plainName tag parent) := rfl

theorem markerNames_eq (base : String) (count : Nat) : markerNames base count =
    base :: (List.range count).map fun index => numberedName base (index + 2) := rfl

theorem numberedName_injective (base : String) : Function.Injective (numberedName base) := by
  intro first second same
  have digits : Nat.toDigits 10 first = Nat.toDigits 10 second := by
    simpa [numberedName, ← String.toList_inj, toString] using same
  have values := congrArg (fun text => Nat.ofDigitChars 10 text 0) digits
  simpa only [Nat.ofDigitChars_ten_toDigits] using values

theorem numberedName_ne (base : String) (number : Nat) : numberedName base number ≠ base := by
  intro same
  have longer := congrArg String.length same
  have mark : "_".length = 1 := rfl
  simp [numberedName, toString, mark] at longer
  omega

theorem markerNames_nodup (base : String) (count : Nat) : (markerNames base count).Nodup := by
  rw [markerNames_eq, List.nodup_cons]
  refine ⟨?_, ?_⟩
  · intro plain
    obtain ⟨index, _, same⟩ := List.mem_map.mp plain
    exact numberedName_ne base _ same
  · refine List.nodup_range.map fun first second same => ?_
    have shifted := numberedName_injective base same
    omega

/-- Of one more name than there are aggregations, one is free. -/
theorem exists_free_markerName (aggs : Aggregations) (base : String) :
    ∃ name ∈ markerNames base aggs.tree.len, aggs.IsFree name := by
  by_contra none
  have taken : markerNames base aggs.tree.len ⊆ aggs.tree.nodes.filterMap Rose.key := by
    intro name tried
    have known : ¬aggs.IsFree name := fun free => none ⟨name, tried, free⟩
    simp only [IsFree, not_forall, not_not] at known
    obtain ⟨node, member, keyed⟩ := known
    exact List.mem_filterMap.mpr ⟨node, member, keyed⟩
  have fewer := (markerNames_nodup base aggs.tree.len).length_le_of_subset taken
  have bound : (aggs.tree.nodes.filterMap Rose.key).length ≤ aggs.tree.len :=
    List.length_filterMap_le _ _
  rw [markerNames_eq, List.length_cons, List.length_map, List.length_range] at fewer
  omega

inductive CountsTo (aggs : Aggregations) (base : String) : Nat → String → Prop where
  | free {number : Nat} : aggs.IsFree (numberedName base number) →
      CountsTo aggs base number (numberedName base number)
  | taken {number : Nat} {name : String} : ¬aggs.IsFree (numberedName base number) →
      CountsTo aggs base (number + 1) name → CountsTo aggs base number name

theorem countsTo_least {start steps : Nat} (free : aggs.IsFree (numberedName base (start + steps)))
    (taken : ∀ number, start ≤ number → number < start + steps →
      ¬aggs.IsFree (numberedName base number)) :
    CountsTo aggs base start (numberedName base (start + steps)) := by
  induction steps generalizing start with
  | zero => exact .free free
  | succ steps ih =>
      have next : start + (steps + 1) = start + 1 + steps := by omega
      rw [next] at free taken ⊢
      exact .taken (taken start (by omega) (by omega))
        (ih free fun number later => taken number (by omega))

section Marker

variable {tag : String} {parent : Nat}

theorem markerName_plain (free : aggs.IsFree (aggs.plainName tag parent)) :
    aggs.markerName tag parent = aggs.plainName tag parent := by
  rw [markerName_eq, markerNames_eq, List.find?_cons, isNone_findByKey?.mpr free]
  rfl

theorem markerName_numbered (taken : ¬aggs.IsFree (aggs.plainName tag parent)) :
    ∃ number, 2 ≤ number ∧ number ≤ aggs.tree.len + 1 ∧
      aggs.markerName tag parent = numberedName (aggs.plainName tag parent) number ∧
      aggs.IsFree (numberedName (aggs.plainName tag parent) number) ∧
      ∀ smaller, 2 ≤ smaller → smaller < number →
        ¬aggs.IsFree (numberedName (aggs.plainName tag parent) smaller) := by
  rw [markerName_eq]
  generalize aggs.plainName tag parent = base at taken
  obtain ⟨name, tried, free⟩ := exists_free_markerName aggs base
  rw [markerNames_eq] at tried ⊢
  have numbered := (List.mem_cons.mp tried).resolve_left fun same => taken (same ▸ free)
  obtain ⟨other, inside, rfl⟩ := List.mem_map.mp numbered
  have plain : (aggs.tree.findByKey? base).isNone = false :=
    Bool.eq_false_iff.mpr (isNone_findByKey?.not.mpr taken)
  rw [List.find?_cons, plain, List.find?_map]
  cases found : (List.range aggs.tree.len).find?
      ((fun name => (aggs.tree.findByKey? name).isNone) ∘ fun index => numberedName base (index + 2)) with
  | none => exact absurd (isNone_findByKey?.mpr free) (List.find?_eq_none.mp found other inside)
  | some index =>
      obtain ⟨untaken, below, least⟩ := List.find?_range_eq_some.mp found
      have bound := List.mem_range.mp below
      refine ⟨index + 2, by omega, by omega, rfl, isNone_findByKey?.mp untaken, ?_⟩
      intro smaller lower fewer unused
      have known := least (smaller - 2) (by omega)
      rw [Function.comp_apply, show smaller - 2 + 2 = smaller by omega,
        isNone_findByKey?.mpr unused] at known
      cases known

theorem isFree_markerName : aggs.IsFree (aggs.markerName tag parent) := by
  by_cases free : aggs.IsFree (aggs.plainName tag parent)
  · rw [markerName_plain free]
    exact free
  · obtain ⟨number, _, _, same, untaken, _⟩ := markerName_numbered free
    rw [same]
    exact untaken

end Marker

/-- A marker gets a name that no aggregation has: the plain one where it is free, and else the one
with the least number from two on that is free. Counting ends at a number that is at most one more
than there are aggregations. -/
theorem markerName_fresh (aggs : Aggregations) (tag : String) (parent : Nat) :
    aggs.IsFree (aggs.markerName tag parent) ∧
    (aggs.IsFree (aggs.plainName tag parent) →
      aggs.markerName tag parent = aggs.plainName tag parent) ∧
    (¬aggs.IsFree (aggs.plainName tag parent) →
      CountsTo aggs (aggs.plainName tag parent) 2 (aggs.markerName tag parent) ∧
      ∃ number, 2 ≤ number ∧ number ≤ aggs.tree.len + 1 ∧
        aggs.markerName tag parent = numberedName (aggs.plainName tag parent) number ∧
        ∀ smaller, 2 ≤ smaller → smaller < number →
          ¬aggs.IsFree (numberedName (aggs.plainName tag parent) smaller)) := by
  refine ⟨isFree_markerName, markerName_plain, fun taken => ?_⟩
  obtain ⟨number, lower, upper, same, untaken, least⟩ := markerName_numbered taken
  refine ⟨?_, number, lower, upper, same, least⟩
  obtain ⟨steps, rfl⟩ := Nat.exists_eq_add_of_le lower
  rw [same]
  exact countsTo_least untaken least

example : ({ tree := Tree.ofShape (.node ⟨none, .root⟩
    (["nested_below_root", "nested_below_root_2", "nested_below_root_4"].map fun name =>
      .node ⟨some name, .clause (.enter "roles")⟩ [])) } : Aggregations).markerName "nested" 0 =
    "nested_below_root_3" := by decide +kernel

end Aggregations

end ScopedClauses
