import ScopedClauses.Proofs.Response.Rows

/-!
What lies below a node of a response, beside what lies below the aggregation that made it. Where the
aggregations on the way inwards make one bucket each, all that an aggregation made below a node lies
directly below one node.
-/

namespace ScopedClauses

open Rose Tree

theorem head_of_mem_zip {first : List α} {second : List β} (short : first.length ≤ 1) {pair : α × β}
    (listed : pair ∈ first.zip second) : second.head? = some pair.2 := by
  match first, second with
  | [], _ => simp at listed
  | [_], [] => simp at listed
  | [_], _ :: _ =>
      rw [List.zip_cons_cons, List.zip_nil_left, List.mem_singleton] at listed
      rw [listed]
      rfl
  | _ :: _ :: _, _ =>
      simp only [List.length_cons] at short
      omega

namespace Response

open ResponseNode Aggregations

variable {aggs : Aggregations} {raw object part : Json} {response : Response}
  {node child : Branch ResponseNode} {branch inner : Branch AggNode}

inductive Alone : Branch AggNode → Branch AggNode → Prop where
  | child {outer inner : Branch AggNode} : inner ∈ outer.children → Alone outer inner
  | through {outer middle inner : Branch AggNode} {clause : AggClause} : middle ∈ outer.children →
      middle.content = .clause clause → clause.kind.isMultiBucket = false → Alone middle inner →
      Alone outer inner

theorem Alone.inside (alone : Alone branch inner) : inner ∈ preorderAll branch.children := by
  induction alone with
  | child listed => exact mem_preorderAll_of_mem listed
  | through listed _ _ _ ih => exact mem_preorderAll_trans _ (mem_preorderAll_of_mem listed) ih

theorem Made.mem_nodes (made : Made aggs raw response node branch object) :
    node ∈ response.tree.nodes := by
  induction made with
  | root rooted _ => exact mem_preorderAll_of_mem (by simp [rooted])
  | child _ _ _ _ _ paired ih =>
      have inside := List.mem_of_mem_filter (List.of_mem_zip paired).2
      exact mem_preorderAll_trans _ ih (mem_preorderAll_of_mem inside)

namespace Answered

variable (answered : Answered aggs raw response)

include answered

theorem made_unique (made : Made aggs raw response node branch object) {other : Branch AggNode}
    (again : Made aggs raw response node other part) : branch = other := by
  have here := answered.branch_mem_nodes made
  have there := answered.branch_mem_nodes again
  cases answered.beside made with
  | root content unnamed =>
      cases answered.beside again with
      | root _ alsoUnnamed =>
          have top := (answered.unnamed branch here).mp unnamed
          exact Option.some.inj (top.symm.trans ((answered.unnamed other there).mp alsoUnnamed))
      | bucket holds => cases content.symm.trans holds
  | bucket content named =>
      cases answered.beside again with
      | root holds => cases content.symm.trans holds
      | bucket holds alsoNamed =>
          cases content.symm.trans holds
          exact answered.eq_of_key here there named alsoNamed

theorem live_inner (made : Made aggs raw response node branch object)
    (below : inner ∈ preorderAll branch.children) : inner ∈ aggs.tree.live :=
  mem_preorderAll_trans _ (answered.read made).branchLive below

theorem made_at (made : Made aggs raw response node branch object) {name : String}
    (level : node.content.isAt name = true) (live : inner ∈ aggs.tree.live)
    (named : inner.key = some name) : branch = inner :=
  answered.eq_of_key (answered.branch_mem_nodes made) (nodes_eq_live answered.settled ▸ live)
    (((answered.beside made).isAt_iff_key name).mp level) named

theorem made_child (made : Made aggs raw response node branch object)
    (inside : child ∈ node.children) :
    ∃ inner ∈ branch.children, ∃ part, Made aggs raw response child inner part := by
  obtain ⟨inner, listed, name, _, named, _, among⟩ := (answered.read made).level inside
  have member := mem_preorderAll_trans _ made.mem_nodes (mem_preorderAll_of_mem inside)
  obtain ⟨other, part, again⟩ := answered.every child member
  have level : child.content.isAt name = true := (List.mem_filter.mp among).2
  rw [answered.made_at again level (answered.live_inner made (mem_preorderAll_of_mem listed))
    named] at again
  exact ⟨inner, listed, part, again⟩

theorem made_below (made : Made aggs raw response node branch object) :
    ∀ lower ∈ preorderAll node.children, ∃ inner ∈ preorderAll branch.children, ∃ part,
      Made aggs raw response lower inner part := by
  refine forall_preorderAll (fun top listed => ?_) ?_
  · obtain ⟨inner, inside, part, made⟩ := answered.made_child made listed
    exact ⟨inner, mem_preorderAll_of_mem inside, part, made⟩
  · rintro lower ⟨inner, below, part, made⟩ child listed
    obtain ⟨further, inside, part, made⟩ := answered.made_child made listed
    exact ⟨further, mem_preorderAll_trans _ below (mem_preorderAll_of_mem inside), part, made⟩

theorem made_inside (made : Made aggs raw response node branch object)
    {lower : Branch ResponseNode} (inside : lower ∈ preorderAll [node]) :
    ∃ inner ∈ preorderAll [branch], ∃ part, Made aggs raw response lower inner part := by
  obtain ⟨label, children⟩ := node
  rw [preorderAll_cons, preorderAll_nil, List.append_nil] at inside
  rcases List.mem_cons.mp inside with rfl | below
  · exact ⟨branch, self_mem branch, object, made⟩
  · obtain ⟨inner, within, part, made⟩ := answered.made_below made lower below
    exact ⟨inner, mem_preorderAll_trans _ (self_mem branch) within, part, made⟩

theorem not_root_of_child (made : Made aggs raw response node branch object)
    (inside : child ∈ node.children) : response.tree.root ≠ some child := by
  intro rooted
  have way := ancestry_of_child answered.numberedNodes (answered.read made).nodeLive inside
  obtain ⟨outward, passed, _⟩ :=
    ancestry_of_live answered.numberedNodes (answered.read made).nodeLive
  rw [ancestry_of_root answered.numberedNodes rooted, passed] at way
  cases way

theorem part_of_child (made : Made aggs raw response node branch object)
    (inside : child ∈ node.children) (own : Made aggs raw response child inner part) :
    inner ∈ branch.children ∧ ∃ name clause whole parts key, inner.key = some name ∧
      inner.content = .clause clause ∧ clause.PartsIn name whole parts ∧
      ((key, part), child) ∈ parts.zip (childrenAt name node) := by
  cases own with
  | root rooted _ => exact absurd rooted (answered.not_root_of_child made inside)
  | @child parent _ around _ whole name clause parts pair above listed named content holds paired =>
      have among := List.mem_of_mem_filter (List.of_mem_zip paired).2
      obtain rfl := parent_unique answered.numberedNodes (answered.read made).nodeLive
        (answered.read above).nodeLive inside among
      obtain rfl := answered.made_unique made above
      exact ⟨listed, name, clause, whole, parts, pair.1, named, content, holds, paired⟩

theorem single_child (made : Made aggs raw response node branch object)
    {first second : Branch ResponseNode} (inFirst : first ∈ node.children)
    (inSecond : second ∈ node.children) {clause : AggClause} (content : inner.content = .clause clause)
    (single : clause.kind.isMultiBucket = false) {other : Json}
    (madeFirst : Made aggs raw response first inner part)
    (madeSecond : Made aggs raw response second inner other) : first = second := by
  have heads : ∀ {child : Branch ResponseNode} {part : Json} {name : String},
      inner.key = some name → child ∈ node.children → Made aggs raw response child inner part →
        (childrenAt name node).head? = some child := by
    intro child part name named inside own
    obtain ⟨_, _, _, _, _, _, alsoNamed, alsoContent, holds, paired⟩ :=
      answered.part_of_child made inside own
    cases named.symm.trans alsoNamed
    cases content.symm.trans alsoContent
    exact head_of_mem_zip (holds.length_le single) paired
  obtain ⟨_, name, _, _, _, _, named, _⟩ := answered.part_of_child made inFirst madeFirst
  exact Option.some.inj ((heads named inFirst madeFirst).symm.trans (heads named inSecond madeSecond))

/-- Where single buckets lie in between, what an aggregation made below a node is directly below one
node. -/
theorem alone_below (alone : Alone branch inner) (made : Made aggs raw response node branch object)
    {first second : Branch ResponseNode} (belowFirst : first ∈ preorderAll node.children)
    (belowSecond : second ∈ preorderAll node.children) {other : Json}
    (madeFirst : Made aggs raw response first inner part)
    (madeSecond : Made aggs raw response second inner other) :
    ∃ holder around whole, Made aggs raw response holder around whole ∧
      first ∈ holder.children ∧ second ∈ holder.children := by
  induction alone generalizing node object with
  | @child outer inner listed =>
      -- nothing that the aggregation made is further below: it has one parent in the request
      have direct : ∀ {lower : Branch ResponseNode} {part : Json},
          lower ∈ preorderAll node.children → Made aggs raw response lower inner part →
            lower ∈ node.children := by
        intro lower part below own
        rcases top_or_child _ below with top | ⟨parent, above, among⟩
        · exact top
        · obtain ⟨around, within, whole, madeParent⟩ := answered.made_below made parent above
          have inside := (answered.part_of_child madeParent among own).1
          have live := answered.live_inner made within
          obtain rfl := parent_unique answered.numbered (answered.read made).branchLive live listed
            inside
          exact absurd (id_mem_numbers within)
            (not_mem_children answered.numbered.distinct (answered.read made).branchLive)
      exact ⟨node, outer, object, made, direct belowFirst madeFirst, direct belowSecond madeSecond⟩
  | @through outer middle inner clause listed content single alone ih =>
      -- what the aggregation made lies below the only child that the one in the middle made
      have within : ∀ {lower : Branch ResponseNode} {part : Json},
          lower ∈ preorderAll node.children → Made aggs raw response lower inner part →
            ∃ top ∈ node.children, lower ∈ preorderAll top.children ∧
              ∃ whole, Made aggs raw response top middle whole := by
        intro lower part below own
        obtain ⟨top, inside, holds⟩ := exists_top below
        obtain ⟨around, member, whole, madeTop⟩ := answered.made_child made inside
        obtain ⟨same, held, _, again⟩ := answered.made_inside madeTop holds
        obtain rfl := answered.made_unique own again
        have leads : inner ∈ preorderAll [middle] :=
          mem_preorderAll_trans _ (self_mem middle) alone.inside
        obtain rfl := child_unique answered.numbered (answered.read made).branchLive listed member
          leads held
        refine ⟨top, inside, ?_, whole, madeTop⟩
        obtain ⟨label, children⟩ := top
        rw [preorderAll_cons, preorderAll_nil, List.append_nil] at holds
        rcases List.mem_cons.mp holds with rfl | lower
        · obtain rfl := answered.made_unique own madeTop
          exact absurd (id_mem_numbers alone.inside)
            (not_mem_children answered.numbered.distinct (answered.live_inner made
              (mem_preorderAll_of_mem listed)))
        · exact lower
      obtain ⟨top, inside, lowerFirst, _, madeTop⟩ := within belowFirst madeFirst
      obtain ⟨again, alsoInside, lowerSecond, _, madeAgain⟩ := within belowSecond madeSecond
      obtain rfl := answered.single_child made inside alsoInside content single madeTop madeAgain
      exact ih madeTop lowerFirst lowerSecond madeFirst madeSecond

end Answered

end Response

end ScopedClauses
