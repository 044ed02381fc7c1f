import ScopedClauses.Proofs.Aggregation.Names
import ScopedClauses.Proofs.Query.Exact
import ScopedClauses.Response.Basic

/-!
Responses follow their requests: the buckets from a node of a response outwards were made by the
aggregations from one of the request outwards.
-/

namespace ScopedClauses

open Rose Tree

namespace ResponseNode

mutual

def Follows (request : List (Branch AggNode)) : Shape ResponseNode → Prop
  | .node label below => ∃ branch ∈ request, ∃ bucket clause,
      label.content = .bucket bucket ∧ branch.key = some bucket.level ∧
        branch.content = .clause clause ∧ FollowAll branch.children below

def FollowAll (request : List (Branch AggNode)) : List (Shape ResponseNode) → Prop
  | [] => True
  | shape :: rest => Follows request shape ∧ FollowAll request rest

end

theorem followAll_iff {request : List (Branch AggNode)} {shapes : List (Shape ResponseNode)} :
    FollowAll request shapes ↔ ∀ shape ∈ shapes, Follows request shape := by
  induction shapes with
  | nil => simp [FollowAll]
  | cons shape rest ih => rw [FollowAll, ih, List.forall_mem_cons]

theorem follows_mono {request wider : List (Branch AggNode)} (part : request ⊆ wider)
    {shape : Shape ResponseNode} (follows : Follows request shape) : Follows wider shape := by
  obtain ⟨label, children⟩ := shape
  rw [Follows] at follows ⊢
  obtain ⟨branch, listed, rest⟩ := follows
  exact ⟨branch, part listed, rest⟩

mutual

theorem follows_ofAggregation {raw : Json} {shapes : List (Shape ResponseNode)} :
    ∀ branch, ofAggregation raw branch = .ok shapes → FollowAll [branch] shapes
  | .node label inner, made => by
      rw [followAll_iff]
      intro shape listed
      rw [ofAggregation] at made
      split at made
      · rename_i name content named held
        have head : ∀ {bucket : Bucket} {below : List (Shape ResponseNode)}, bucket.level = name →
            FollowAll inner below → Follows [.node label inner] (leaf (.bucket bucket) below) := by
          rintro bucket below rfl follow
          exact ⟨_, List.mem_singleton.mpr rfl, bucket, content, rfl, named, held, follow⟩
        split at made
        · cases Result.pure_ok.mp made
          cases listed
        · obtain ⟨items, _, made⟩ := Result.bind_ok.mp made
          obtain ⟨⟨key, item⟩, _, here⟩ := Result.mapM_ok made shape listed
          simp only [Result.bind_ok, Result.pure_ok] at here
          obtain ⟨below, inside, rfl⟩ := here
          exact head rfl (follows_ofAggregations inner inside)
        · obtain ⟨below, inside, made⟩ := Result.bind_ok.mp made
          cases Result.pure_ok.mp made
          rw [List.mem_singleton.mp listed]
          exact head rfl (follows_ofAggregations inner inside)
        · split at made
          · cases Result.pure_ok.mp made
            cases listed
          · cases Result.pure_ok.mp made
            rw [List.mem_singleton.mp listed]
            exact head rfl trivial
      · cases Result.pure_ok.mp made
        cases listed
  termination_by structural branch => branch

theorem follows_ofAggregations {raw : Json} {shapes : List (Shape ResponseNode)} :
    ∀ request, ofAggregations raw request = .ok shapes → FollowAll request shapes
  | [], made => by
      cases Result.pure_ok.mp made
      trivial
  | branch :: rest, made => by
      simp only [ofAggregations, Result.bind_ok, Result.pure_ok] at made
      obtain ⟨first, here, others, beside, rfl⟩ := made
      have own := follows_ofAggregation branch here
      have further := follows_ofAggregations rest beside
      rw [followAll_iff] at own further ⊢
      intro shape listed
      rcases List.mem_append.mp listed with inFirst | later
      · exact follows_mono (by simp) (own shape inFirst)
      · exact follows_mono (by simp) (further shape later)
  termination_by structural request => request

end

end ResponseNode

namespace Response

open ResponseNode

def Matches (request : Tree AggNode) : List Bucket → List (Entry AggNode) → Prop
  | [], way => way = request.root.toList.map Rose.label
  | bucket :: outer, way => ∃ branch rest clause, branch ∈ request.live ∧
      branch.key = some bucket.level ∧ branch.content = .clause clause ∧
      way = branch.label :: rest ∧ lineage branch.id request.branches = way ∧
      Matches request outer rest

variable {request : Tree AggNode}

theorem matches_pathTo? (distinct : (numbers request.branches).Nodup)
    {forest : List (Branch ResponseNode)} {id : Nat} {path : List (Branch ResponseNode)}
    {parent : Branch AggNode} {outer : List Bucket} (live : parent ∈ request.live)
    (around : Matches request outer (lineage parent.id request.branches))
    (follow : FollowAll parent.children (shapes forest)) (found : pathTo? id forest = some path) :
    ∃ way, Matches request (path.filterMap (fun node => node.content.bucket?) ++ outer) way := by
  induction forest using forestInduction generalizing parent outer path with
  | nil => cases found
  | cons label children rest ihBelow ihBeside =>
      rw [shapes_cons, FollowAll, Follows] at follow
      obtain ⟨⟨branch, listed, bucket, clause, held, named, content, below⟩, beside⟩ := follow
      have here : label.content = .bucket bucket := held
      have member := mem_preorderAll_trans _ live (mem_preorderAll_of_mem listed)
      have way := lineage_child distinct live listed
      have inner : Matches request (bucket :: outer) (lineage branch.id request.branches) :=
        ⟨branch, _, clause, member, named, content, way, rfl, around⟩
      have own : (ResponseNode.bucket? (Rose.content (.node label children))) = some bucket := by
        rw [show Rose.content (.node label children) = .bucket bucket from here]
        rfl
      rw [pathTo?_cons] at found
      split at found
      · cases found
        rw [List.filterMap_cons, own]
        exact ⟨_, inner⟩
      · cases deeper : pathTo? id children with
        | some inside =>
            rw [deeper] at found
            cases found
            obtain ⟨found, matched⟩ := ihBelow member inner below deeper
            refine ⟨found, ?_⟩
            rw [List.filterMap_append, List.append_assoc, List.filterMap_cons, own]
            exact matched
        | none =>
            rw [deeper] at found
            exact ihBeside live around beside found

/-- The buckets from a node of a response that was read outwards. -/
theorem matches_ofJson {aggs : Aggregations} (numbered : aggs.tree.Numbered) {raw : Json}
    {response : Response} (made : Response.ofJson aggs raw = .ok response) (id : Nat) :
    response.aggs = aggs ∧ response.base = none ∧ ∃ way, Matches aggs.tree
      ((response.tree.ancestry id).filterMap fun node => node.content.bucket?) way := by
  simp only [Response.ofJson] at made
  split at made
  · cases made
  · simp only [Result.bind_ok, Result.pure_ok] at made
    obtain ⟨nodes, read, rfl⟩ := made
    have known : (ofShape (.node ⟨none, .root⟩ nodes) : Tree ResponseNode).branches =
        [.node ⟨⟨none, .root⟩, 0⟩ (numberAll 1 nodes)] := by
      simp [branches, ofShape, number]
    have listed : (ofShape (.node ⟨none, .root⟩ nodes) : Tree ResponseNode).ancestry id =
        (pathTo? id [.node ⟨⟨none, .root⟩, 0⟩ (numberAll 1 nodes)]).getD [] := by
      rw [ancestry, known]
      rfl
    refine ⟨rfl, rfl, ?_⟩
    rw [listed, pathTo?_cons]
    split
    · exact ⟨_, rfl⟩
    · cases found : pathTo? id (numberAll 1 nodes) with
      | none => exact ⟨_, rfl⟩
      | some path =>
          cases rooted : aggs.tree.root with
          | none =>
              rw [rooted] at read
              cases Result.pure_ok.mp read
              cases found
          | some root =>
              rw [rooted] at read
              have live : root ∈ aggs.tree.live := by
                rw [Tree.live, branches, rooted]
                exact mem_preorderAll_of_mem (by simp)
              have start : Matches aggs.tree [] (lineage root.id aggs.tree.branches) := by
                obtain ⟨label, below⟩ := root
                rw [Matches, branches, rooted]
                exact lineage_here label below _
              have follow := follows_ofAggregations root.children read
              rw [← shapes_numberAll 1 nodes] at follow
              obtain ⟨way, matched⟩ := matches_pathTo? numbered.distinct live start follow found
              have bare : [Rose.node (⟨⟨none, .root⟩, 0⟩ : Entry ResponseNode)
                  (numberAll 1 nodes)].filterMap (fun node => node.content.bucket?) = [] := rfl
              rw [Option.getD_some, List.filterMap_append, bare]
              exact ⟨way, matched⟩

end Response

end ScopedClauses
