import ScopedClauses.Proofs.Query.Normal

/-!
Documents that were accepted. Correction has checked every leaf on a field, so that a document
with every leaf in its scope, once accepted, has become the clause that it is read as.
-/

namespace ScopedClauses

namespace QueryNode

open Rose Weaving

section Correction

variable {mapping : Option Mapping} {autocorrect : Bool}

mutual

theorem legible_of_correct {scope : Option String} {done : Shape QueryNode} :
    ∀ shape, Sheer [shape] → Checked mapping shape.label.content →
      shape.label.content.slot? = none →
      correct mapping autocorrect scope shape = .ok done → AllLegible mapping [shape]
  | .node ⟨key, content⟩ slots, sheer, checked, bare, corrected => by
      obtain ⟨formed, legible⟩ := sheer
      rw [formed_cons] at formed
      rw [allLegible_singleton] at legible ⊢
      simp only [correct, Result.bind_ok] at corrected
      obtain ⟨_, corrected, _⟩ := corrected
      refine ⟨⟨legible.1.key, legible.1.readable, checked, legible.1.filled⟩, ?_⟩
      match content, formed, corrected with
      | .leaf clause, formed, _ =>
          have empty : slots = [] := List.map_eq_nil_iff.mp formed.1
          subst empty
          exact allLegible_nil
      | .compound clause, formed, corrected =>
          exact legible_of_correctSlots slots [] ⟨formed.2.1, formed.1⟩ legible.2 corrected
  termination_by structural shape => shape

theorem legible_of_correctSlots {scope : Option String} {clause : CompoundClause}
    {done : List (Shape QueryNode)} :
    ∀ slots before, FormedSlots (.compound clause) slots → AllLegible none slots →
      correctSlots mapping autocorrect scope (.compound clause) slots before = .ok done →
      AllLegible mapping slots
  | [], _, _, _, _ => allLegible_nil
  | .node ⟨key, content⟩ clauses :: rest, before, formed, legible, corrected => by
      rw [allLegible_cons] at legible ⊢
      obtain ⟨formedSlot, ⟨place, content, declares⟩, _, formedRest⟩ := formedSlots_cons.mp formed
      cases content
      rw [formed_cons] at formedSlot
      have asked : declared (.compound clause) place.name = .ok place :=
        declared_ok.mpr ⟨clause, rfl, declares⟩
      simp only [correctSlots, QueryNode.slot?, asked, Result.bind_ok, Result.ok_bind] at corrected
      obtain ⟨between, first, second⟩ := corrected
      exact ⟨⟨legible.1.key, legible.1.readable, trivial, legible.1.filled⟩,
        legible_of_correctClauses clauses _ ⟨formedSlot.2.1, legible.2.1⟩ first,
        legible_of_correctSlots rest between formedRest legible.2.2 second⟩
  termination_by structural slots => slots

theorem legible_of_correctClauses {scope : Option String} {place : Slot}
    {done : List (Shape QueryNode)} :
    ∀ clauses before, Sheer clauses →
      correctClauses mapping autocorrect scope place clauses before = .ok done →
      AllLegible mapping clauses
  | [], _, _, _ => allLegible_nil
  | shape :: rest, before, sheer, corrected => by
      rw [sheer_cons_iff] at sheer
      simp only [correctClauses, Result.bind_ok] at corrected
      obtain ⟨route, routed, _, bare, incoming, first, second⟩ := corrected
      exact (allLegible_cons_iff _ _).mpr
        ⟨legible_of_correct shape sheer.1 (checked_of_route routed) (refuseSlot_ok.mp bare) first,
          legible_of_correctClauses rest _ sheer.2 second⟩
  termination_by structural clauses => clauses

end

end Correction

end QueryNode

namespace Query

open Rose Tree Weaving QueryNode

/-- An accepted document with every leaf in its scope becomes the clause that it is read as. -/
theorem shape?_of_ofJson {mapping : Mapping} {shape : Shape QueryNode} {json : Json} {query : Query}
    (read : QueryNode.ofJson json = .ok shape) (sheer : Sheer [shape])
    (fits : Everywhere (Fits mapping) none [shape])
    (accepted : Query.ofJson json (some mapping) = .ok query) :
    query.tree.shape? = some shape := by
  have bare := slot?_ofJson read
  have follows : FollowsTop _ (weaveTop (some mapping) true shape []) _ :=
    insertClause_top (sound_empty (some mapping)) shape (allKnown_of_formed sheer.1)
  rw [← ofJson_of_read read, accepted] at follows
  obtain ⟨_, _, _, woven⟩ := follows.ok
  simp only [weaveTop, Result.bind_ok] at woven
  obtain ⟨route, routed, _, _, incoming, corrected, _⟩ := woven
  have legible := legible_of_correct shape sheer (checked_of_route routed) bare corrected
  obtain ⟨same, made, found⟩ := ofJson_self read sheer.1 legible fits
  rw [accepted] at made
  cases made
  exact found

end Query

end ScopedClauses
