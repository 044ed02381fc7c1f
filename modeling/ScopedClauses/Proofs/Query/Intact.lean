import ScopedClauses.Proofs.Query.InScope
import ScopedClauses.Proofs.Query.Legible

/-!
Queries whose tree can be written. Inserting what was read from a document keeps a query so,
whatever its mapping corrects.
-/

namespace ScopedClauses

namespace Query

open Rose Tree Weaving QueryNode

structure Intact (mapping : Option Mapping) (query : Query) : Prop extends query.Sound where
  bound : query.mapping = mapping
  top : Holds (.slot queryPlace) (contents (shapes query.tree.branches))
  legible : AllLegible mapping (shapes query.tree.branches)

theorem intact_empty (mapping : Option Mapping) (autocorrect : Bool) (mode : MergeMode) :
    Intact mapping
      { mapping := mapping, autocorrect := autocorrect, mergeMode := mode : Query } :=
  ⟨⟨⟨numbered_empty, rfl⟩, formed_nil⟩, rfl, by simp [branches, Holds], allLegible_nil⟩

section Trees

variable {mapping : Option Mapping}

theorem allLegible_updateAt (forest : List (Branch QueryNode)) (distinct : (numbers forest).Nodup)
    {branch new : Branch QueryNode} (member : branch ∈ preorderAll forest)
    (legible : AllLegible mapping (shapes forest)) (fresh : AllLegible mapping (shapes [new])) :
    AllLegible mapping (shapes (updateAt branch.id (fun _ => new) forest)) := by
  induction forest using forestInduction with
  | nil => simp at member
  | cons entry children rest ihBelow ihBeside =>
      obtain ⟨_, _, below, beside, _⟩ := distinct_cons distinct
      rw [shapes_cons, allLegible_cons] at legible
      simp only [preorderAll_cons, List.mem_cons, List.mem_append] at member
      rcases member with rfl | inside | outside
      · rw [id_node, updateAt_here distinct, shapes_cons_eq, allLegible_cons_iff]
        exact ⟨fresh, legible.2.2⟩
      · rw [updateAt_below distinct _ (id_mem_numbers inside), shapes_cons, allLegible_cons]
        refine ⟨?_, ihBelow below inside legible.2.1, legible.2.2⟩
        refine ⟨legible.1.key, legible.1.readable, legible.1.checked, fun place content single => ?_⟩
        -- a changed child is still a child
        have filled := legible.1.filled place content single
        intro empty
        refine filled ?_
        have none := shapes_eq_nil empty
        cases children with
        | nil => rfl
        | cons child others =>
            obtain ⟨label, kids⟩ := child
            rw [updateAt_cons] at none
            cases none
      · rw [updateAt_beside distinct _ (id_mem_numbers outside), shapes_cons, allLegible_cons]
        exact ⟨legible.1, legible.2.1, ihBeside beside outside legible.2.2⟩

end Trees

section Insertions

variable {mapping : Option Mapping} {query final : Query}

theorem allLegible_of_live (intact : query.Intact mapping) {branch : Branch QueryNode}
    (member : branch ∈ query.tree.live) : AllLegible mapping [branch.shape] := by
  intro shape inside
  refine intact.legible shape (mem_preorderAll_of_branch _ ?_ inside)
  rw [preorderAll_shapes]
  exact List.mem_map_of_mem member

theorem Intact.exchanged (intact : query.Intact mapping) {old new : Branch QueryNode}
    {after : Tree QueryNode} (grew : Regrown query.tree old new after)
    (member : old ∈ query.tree.live) (alike : StandsFor new.content old.content)
    (formed : FormedSlots new.content (shapes new.children))
    (legible : AllLegible mapping (shapes [new])) : (query.withTree after).Intact mapping := by
  obtain ⟨sound, may⟩ := intact.toSound.exchanged grew member alike formed
  refine { sound with bound := intact.bound, top := may _ intact.top, legible := ?_ }
  rw [tree_withTree, grew.branches]
  exact allLegible_updateAt _ intact.numbered.distinct member intact.legible legible

theorem Intact.regrown (intact : query.Intact mapping) {old new : Branch QueryNode}
    {after : Tree QueryNode} (grew : Regrown query.tree old new after)
    (member : old ∈ query.tree.live) (label : new.label = old.label)
    (bare : old.content.slot? = none)
    (formed : FormedSlots new.content (shapes new.children))
    (legible : AllLegible mapping (shapes new.children)) : (query.withTree after).Intact mapping := by
  have same : new.content = old.content := congrArg (·.content) label
  refine intact.exchanged grew member (same ▸ standsFor_self new.content) formed ?_
  have here := allLegible_of_live intact member
  rw [← node_eta old, shape_node, allLegible_singleton] at here
  rw [← node_eta new, shapes_cons, label, shapes_nil, allLegible_singleton]
  exact ⟨here.1.rehold fun slotted => absurd bare slotted, legible⟩

theorem intact_of_follows (intact : query.Intact mapping) {holder : Branch QueryNode}
    (member : holder ∈ query.tree.live) (bare : holder.content.slot? = none)
    {woven : Result (List (Shape QueryNode))} (follows : Follows query holder woven (.ok final))
    (formed : ∀ done, woven = .ok done → FormedSlots holder.content done)
    (legible : ∀ done, woven = .ok done → AllLegible mapping (shapes holder.children) →
      AllLegible mapping done) : final.Intact mapping := by
  obtain ⟨grown, after, rfl, grew, label, wove⟩ := follows.ok
  have content : grown.content = holder.content := congrArg (·.content) label
  have here := allLegible_of_live intact member
  rw [← node_eta holder, shape_node, allLegible_singleton] at here
  exact intact.regrown grew member label bare (content ▸ formed _ wove) (legible _ wove here.2)

theorem intact_insertClause (intact : query.Intact mapping) {position : Position}
    (stands : query.Stands position) {shape : Shape QueryNode} (sheer : Sheer [shape])
    (bare : shape.label.content.slot? = none)
    (inserted : (·.2) <$> query.insertClause position shape = .ok final) : final.Intact mapping := by
  have known := allKnown_of_formed sheer.1
  cases position with
  | top =>
      have follows := insertClause_top intact.toSound shape known
      rw [inserted, intact.bound] at follows
      obtain ⟨after, rfl, sound, wove⟩ := follows.ok
      have legible := allLegible_weaveTop sheer bare intact.legible wove
      simp only [weaveTop, Result.bind_ok, Result.pure_ok] at wove
      obtain ⟨route, _, _, _, incoming, corrected, woven⟩ := wove
      obtain ⟨formed, label⟩ := formed_correct shape known corrected
      have slot : FormedSlot queryPlace (shapes query.tree.branches) := ⟨intact.formed, intact.top⟩
      have top := (formedSlot_weave formed (label ▸ bare) route slot).2
      rw [show weave route queryPlace.multiple incoming (shapes query.tree.branches) = _ from
        woven] at top
      exact { sound with bound := intact.bound, top := top, legible := legible }
  | slot compound name =>
      obtain ⟨holder, member, rfl, clause, place, content, declares⟩ := stands
      obtain ⟨around, site⟩ := exists_site_of_live member
      obtain rfl := CompoundKind.slot?_name declares
      have follows := insertClause_follows intact.toSound site content declares shape known
      rw [inserted, intact.bound] at follows
      refine intact_of_follows intact member (by rw [content]; rfl) follows (fun done woven => ?_)
        fun done woven legible => allLegible_weaveClause sheer legible woven
      have formed := formed_of_live intact.toSound member
      rw [content] at formed ⊢
      exact formed_weaveClause known declares formed woven

theorem intact_insertShape (intact : query.Intact mapping) {position : Position}
    (stands : query.Stands position) {shape : Shape QueryNode} (sheer : Sheer [shape])
    (bare : shape.label.content.slot? = none)
    (inserted : query.insertShape position (some shape) = .ok final) : final.Intact mapping := by
  have notSlot : shape.label.content.isSlot = false := by
    rw [QueryNode.isSlot, bare]
    rfl
  rw [insertShape, notSlot] at inserted
  exact intact_insertClause intact stands sheer bare inserted

end Insertions

end Query

end ScopedClauses
