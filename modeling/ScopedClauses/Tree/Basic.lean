import ScopedClauses.Error
import ScopedClauses.Tree.Rose

/-!
Keyed trees whose nodes have numbers. Numbers are given out in order of creation and are never
given out again. A branch that was detached stays with its tree until it is attached again.
-/

namespace ScopedClauses

structure Keyed (N : Type) where
  key : Option String
  content : N

structure Entry (N : Type) extends Keyed N where
  id : Nat

abbrev Shape (N : Type) := Rose (Keyed N)

abbrev Branch (N : Type) := Rose (Entry N)

class NodeRules (N : Type) where
  /-- Whether `parent` takes `child` beside `siblings` children that it already has. -/
  checkChild : (parent child : N) → (siblings : Nat) → Result Unit
  label : N → String

structure Tree (N : Type) where
  root : Option (Branch N) := none
  detached : List (Branch N) := []
  /-- The number of the next node. -/
  next : Nat := 0

namespace Rose

variable {N : Type}

mutual

def number (first : Nat) : Shape N → Branch N
  | .node label children => .node ⟨label, first⟩ (numberAll (first + 1) children)

def numberAll (first : Nat) : List (Shape N) → List (Branch N)
  | [] => []
  | shape :: rest => number first shape :: numberAll (first + size shape) rest

end

def id (branch : Branch N) : Nat := branch.label.id

def key (branch : Branch N) : Option String := branch.label.key

def content (branch : Branch N) : N := branch.label.content

def shape (branch : Branch N) : Shape N := branch.map Entry.toKeyed

end Rose

namespace Tree

variable {N : Type}

def ofShape (shape : Shape N) : Tree N :=
  { root := some (shape.number 0), next := shape.size }

def withRoot (content : N) (key : Option String) : Tree N :=
  ofShape (.node ⟨key, content⟩ [])

def branches (tree : Tree N) : List (Branch N) := tree.root.toList ++ tree.detached

def isEmpty (tree : Tree N) : Bool := tree.root.isNone

def nodes (tree : Tree N) : List (Branch N) := Rose.preorderAll tree.root.toList

def len (tree : Tree N) : Nat := tree.nodes.length

def rootId? (tree : Tree N) : Option Nat := tree.root.map Rose.id

def shape? (tree : Tree N) : Option (Shape N) := tree.root.map Rose.shape

def ancestry (tree : Tree N) (id : Nat) : List (Branch N) :=
  (Rose.pathAny? (·.id = id) tree.branches).getD []

def find? (tree : Tree N) (id : Nat) : Option (Branch N) := (tree.ancestry id).head?

def find (tree : Tree N) (id : Nat) : Result (Branch N) :=
  match tree.find? id with
  | some branch => pure branch
  | none => throw (.nodeNotFound (.id id))

def contains (tree : Tree N) (id : Nat) : Bool := (tree.find? id).isSome

def get? (tree : Tree N) (id : Nat) : Option N := (tree.find? id).map Rose.content

def get (tree : Tree N) (id : Nat) : Result N := Rose.content <$> tree.find id

def key? (tree : Tree N) (id : Nat) : Option String := (tree.find? id).bind Rose.key

def parent? (tree : Tree N) (id : Nat) : Option Nat := (tree.ancestry id)[1]?.map Rose.id

def childBranches (tree : Tree N) (id : Nat) : List (Branch N) :=
  match tree.find? id with
  | some branch => branch.children
  | none => []

def children (tree : Tree N) (id : Nat) : List Nat := (tree.childBranches id).map Rose.id

def ancestors (tree : Tree N) (id : Nat) (withSelf : Bool) : List Nat :=
  ((tree.ancestry id).map Rose.id).drop (if withSelf then 0 else 1)

def depth (tree : Tree N) (id : Nat) : Nat := (tree.ancestors id false).length

def preorder (tree : Tree N) (id : Nat) : List Nat :=
  (Rose.preorderAll (tree.find? id).toList).map Rose.id

def descendants (tree : Tree N) (id : Nat) : List Nat := (tree.preorder id).drop 1

def leaves (tree : Tree N) : List Nat :=
  (tree.nodes.filter (·.children.isEmpty)).map Rose.id

def findChild? (tree : Tree N) (parent : Nat) (wanted : N → Option String → Bool) : Option Nat :=
  ((tree.childBranches parent).find? fun child => wanted child.content child.key).map Rose.id

def findByKey? (tree : Tree N) (key : String) : Option Nat :=
  (tree.nodes.find? (·.key = some key)).map Rose.id

def update (tree : Tree N) (id : Nat) (change : Branch N → Branch N) : Tree N :=
  { tree with
    root := tree.root.map (Rose.update (·.id = id) change)
    detached := Rose.updateAll (·.id = id) change tree.detached }

def updateEntry (tree : Tree N) (id : Nat) (change : Entry N → Entry N) : Tree N :=
  tree.update id fun branch => .node (change branch.label) branch.children

def append (tree : Tree N) (parent : Nat) (child : Branch N) : Tree N :=
  tree.update parent fun branch => .node branch.label (branch.children ++ [child])

def setKey (tree : Tree N) (id : Nat) (key : Option String) : Result (Tree N) := do
  let _ ← tree.find id
  pure (tree.updateEntry id fun entry => { entry with key := key })

def assign (tree : Tree N) (id : Nat) (content : N) : Result (Tree N) := do
  let _ ← tree.find id
  pure (tree.updateEntry id fun entry => { entry with content := content })

def replace (tree : Tree N) (id : Nat) (content : N) : Result (N × Tree N) := do
  let old ← tree.get id
  pure (old, ← tree.assign id content)

def insertRoot (tree : Tree N) (content : N) (key : Option String) : Result (Nat × Tree N) :=
  match tree.root with
  | some _ => throw .rootOccupied
  | none =>
      pure (tree.next,
        { tree with root := some (.node ⟨⟨key, content⟩, tree.next⟩ []), next := tree.next + 1 })

def insert [NodeRules N] (tree : Tree N) (content : N) (parent : Nat) (key : Option String) :
    Result (Nat × Tree N) := do
  let branch ← tree.find parent
  NodeRules.checkChild branch.content content branch.children.length
  let grown := tree.append parent (.node ⟨⟨key, content⟩, tree.next⟩ [])
  pure (tree.next, { grown with next := tree.next + 1 })

def subtree (tree : Tree N) (id : Nat) : Result (Tree N) := do
  pure (ofShape (← tree.find id).shape)

mutual

def graftBelow [NodeRules N] (parent : Nat) : Shape N → Tree N → Tree N × Result Nat
  | .node label children, tree =>
      match tree.insert label.content parent label.key with
      | .error error => (tree, .error error)
      | .ok (id, tree) =>
          match graftAll id children tree with
          | (tree, .error error) => (tree, .error error)
          | (tree, .ok ()) => (tree, .ok id)

def graftAll [NodeRules N] (parent : Nat) : List (Shape N) → Tree N → Tree N × Result Unit
  | [], tree => (tree, .ok ())
  | shape :: rest, tree =>
      match graftBelow parent shape tree with
      | (tree, .error error) => (tree, .error error)
      | (tree, .ok _) => graftAll parent rest tree

end

def graft [NodeRules N] (tree : Tree N) (shape : Option (Shape N)) (parent : Option Nat) :
    Tree N × Result (Option Nat) :=
  match shape, parent with
  | none, _ => (tree, .ok none)
  | some shape, some parent =>
      let (tree, result) := graftBelow parent shape tree
      (tree, some <$> result)
  | some (.node label children), none =>
      match tree.insertRoot label.content label.key with
      | .error error => (tree, .error error)
      | .ok (id, tree) =>
          let (tree, result) := graftAll id children tree
          (tree, (fun _ => some id) <$> result)

def detach (tree : Tree N) (id : Nat) : Result (Tree N) := do
  let branch ← tree.find id
  pure { tree with
    root := tree.root.bind (Rose.prune? (·.id = id))
    detached := Rose.pruneAll (·.id = id) tree.detached ++ [branch] }

def discard (tree : Tree N) (id : Nat) : Tree N :=
  { tree with detached := tree.detached.filter (·.id ≠ id) }

def attach [NodeRules N] (tree : Tree N) (id parent : Nat) : Result (Tree N) := do
  let branch ← tree.find id
  if (tree.parent? id).isSome || tree.rootId? = some id then
    throw (.invalidParent (.node parent) (.attachedNode id))
  if (tree.ancestors parent true).contains id then
    throw (.invalidParent (.node parent) (.ownAncestor id))
  let holder ← tree.find parent
  NodeRules.checkChild holder.content branch.content holder.children.length
  pure ((tree.discard id).append parent branch)

def restore (tree : Tree N) (branch : Branch N) (parent : Option Nat) (wasRoot : Bool) : Tree N :=
  match parent with
  | some parent => (tree.discard branch.id).append parent branch
  | none => if wasRoot then { tree.discard branch.id with root := some branch } else tree

/-- Moves a branch to the end of the children of `target`. When `target` does not take it, the
branch goes back to its parent, where it is now the last child. -/
def move [NodeRules N] (tree : Tree N) (id target : Nat) : Tree N × Result Unit :=
  if (tree.ancestors target true).contains id then
    (tree, .error (.invalidParent (.node target) (.ownAncestor id)))
  else
    match tree.find id, tree.detach id with
    | .ok branch, .ok cut =>
        match cut.attach id target with
        | .ok moved => (moved, .ok ())
        | .error error =>
            (cut.restore branch (tree.parent? id) (tree.rootId? = some id), .error error)
    | .error error, _ | _, .error error => (tree, .error error)

def remove (tree : Tree N) (id : Nat) : Result (Tree N × Tree N) := do
  let removed ← tree.subtree id
  let cut ← tree.detach id
  pure (removed, cut.discard id)

end Tree

end ScopedClauses
