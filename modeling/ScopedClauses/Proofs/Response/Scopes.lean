import Mathlib.Data.List.Induction
import ScopedClauses.Proofs.Response.Assembling
import ScopedClauses.Proofs.Response.Enclosing

/-!
The scopes in play when conditions are assembled: those that conditions are stated in, and those
around them.
-/

namespace ScopedClauses

namespace Selection

variable {mapping : Mapping} {fragments : List Fragment}

theorem parentScope_chained {path : String} {outer : List String}
    (chained : mapping.Chained (path :: outer)) (known : List String) :
    parentScope path known (some mapping) = outer.head? := by
  rw [parentScope, chained.1]
  cases outer <;> rfl

def Closed (mapping : Mapping) (scopes : List String) : Prop :=
  ∀ scope ∈ scopes, ∀ around outer, mapping.Chained (scope :: around :: outer) → around ∈ scopes

theorem Closed.mem {scopes : List String} (closed : Closed mapping scopes) {path : String}
    {outer : List String} (chained : mapping.Chained (path :: outer)) (inPlay : path ∈ scopes) :
    ∀ around ∈ path :: outer, around ∈ scopes := by
  induction outer generalizing path with
  | nil => simpa using inPlay
  | cons around rest ih =>
      refine List.forall_mem_cons.mpr ⟨inPlay, ih chained.2 ?_⟩
      exact closed path inPlay around rest chained

theorem scopesInPlay_closed {good : String → Prop}
    (outwards : ∀ scope, good scope → ∃ outer, mapping.Chained (scope :: outer) ∧
      ∀ around ∈ outer.head?, good around)
    (stated : ∀ fragment ∈ fragments, ∀ scope ∈ fragment.scope, good scope) :
    (∀ fragment ∈ fragments, ∀ scope ∈ fragment.scope,
      scope ∈ scopesInPlay fragments (some mapping)) ∧
      (∀ scope ∈ scopesInPlay fragments (some mapping), good scope) ∧
      Closed mapping (scopesInPlay fragments (some mapping)) := by
  obtain ⟨inPlay, _⟩ := inPlay_scopesInPlay fragments (some mapping)
  refine ⟨inPlay.stated, fun scope listed => ?_, fun scope listed around outer chained =>
    inPlay.closed scope listed around (parentScope_chained chained _)⟩
  have needed := inPlay.needed scope listed
  clear listed
  induction needed with
  | stated early =>
      obtain ⟨fragment, present, states⟩ := mem_statedScopes.mp early
      exact stated fragment present _ states
  | @outer inner around _ declared ih =>
      obtain ⟨outer, chained, outerGood⟩ := outwards inner ih
      have parent := parentScope_of_outerOf declared []
      rw [parentScope_chained chained] at parent
      exact outerGood around parent

theorem assembleScope_isSome {scopes : List String} {fragment : Fragment}
    (present : fragment ∈ fragments) {front : List String} {scope : Option String}
    {outer : List String} (chained : mapping.Chained (front ++ outer)) (around : outer.head? = scope)
    (stated : (front ++ outer).head? = fragment.scope) (inPlay : ∀ path ∈ front, path ∈ scopes)
    {depth : Nat} (deep : front.length < depth) :
    (assembleScope fragments scopes (some mapping) depth scope).isSome := by
  -- from the scope inwards, one scope of the front at a time
  induction front using List.reverseRecOn generalizing scope outer depth with
  | nil =>
      obtain ⟨rest, rfl⟩ : ∃ rest, depth = rest + 1 := ⟨depth - 1, by simp at deep; omega⟩
      have listed : fragment.condition ∈ statedIn fragments scope :=
        mem_statedIn.mpr ⟨fragment, present, by rw [← stated, ← around]; rfl, rfl⟩
      rw [assembleScope_succ, Option.isSome_iff_ne_none, ne_eq, conjunction_eq_none]
      exact List.ne_nil_of_mem (List.mem_append_left _ listed)
  | append_singleton front path ih =>
      rw [List.append_assoc] at chained stated
      rw [List.length_append, List.length_singleton] at deep
      obtain ⟨rest, rfl⟩ : ∃ rest, depth = rest + 1 := ⟨depth - 1, by omega⟩
      have made := ih chained rfl stated (fun own listed => inPlay own (by simp [listed]))
        (show front.length < rest by omega)
      obtain ⟨json, found⟩ := Option.isSome_iff_exists.mp made
      have parent := parentScope_chained (Mapping.chained_suffix chained) scopes
      have listed : Shorthand.nested path json ∈
          insideOf fragments scopes mapping rest scope :=
        mem_insideOf.mpr ⟨path, inPlay path (by simp), parent.trans around, json, found, rfl⟩
      rw [assembleScope_succ, Option.isSome_iff_ne_none, ne_eq, conjunction_eq_none]
      exact List.ne_nil_of_mem (List.mem_append_right _ listed)

end Selection

end ScopedClauses
