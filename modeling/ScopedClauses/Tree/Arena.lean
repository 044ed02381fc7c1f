import ScopedClauses.Tree.Render

/-!
The arena that holds a tree: a cell for each number that was given out, and a hole where a node was
removed. A cell names the parent and the children of its node, and each operation edits these links
one by one. Nothing in the type keeps links from running in circles, so a loop along them may not
end: that is what `none` stands for in the result of an operation that has such a loop.
-/

namespace ScopedClauses

structure Cell (N : Type) extends Keyed N where
  parent : Option Nat
  children : List Nat

structure Arena (N : Type) where
  cells : Array (Option (Cell N)) := #[]
  root : Option Nat := none

namespace Arena

variable {N : Type}

/-! ### Cells -/

def cell? (arena : Arena N) (id : Nat) : Option (Cell N) := arena.cells[id]?.join

def cell (arena : Arena N) (id : Nat) : Result (Cell N) :=
  match arena.cell? id with
  | some cell => pure cell
  | none => throw (.nodeNotFound (.id id))

def isEmpty (arena : Arena N) : Bool := arena.root.isNone

def contains (arena : Arena N) (id : Nat) : Bool := (arena.cell? id).isSome

def get (arena : Arena N) (id : Nat) : Result N := do
  pure (← arena.cell id).content

def key? (arena : Arena N) (id : Nat) : Option String := (arena.cell? id).bind fun cell => cell.key

def parent? (arena : Arena N) (id : Nat) : Option Nat := (arena.cell? id).bind Cell.parent

def children (arena : Arena N) (id : Nat) : List Nat :=
  match arena.cell? id with
  | some cell => cell.children
  | none => []

def modify (arena : Arena N) (id : Nat) (change : Cell N → Cell N) : Arena N :=
  { arena with cells := arena.cells.modify id (Option.map change) }

def edit (arena : Arena N) (id : Nat) (change : Cell N → Cell N) : Result (Arena N) := do
  let _ ← arena.cell id
  pure (arena.modify id change)

def alloc (arena : Arena N) (label : Keyed N) (parent : Option Nat) : Nat × Arena N :=
  (arena.cells.size, { arena with cells := arena.cells.push (some ⟨label, parent, []⟩) })

def pushChild (arena : Arena N) (parent child : Nat) : Result (Arena N) :=
  arena.edit parent fun cell => { cell with children := cell.children ++ [child] }

def setParent (arena : Arena N) (id : Nat) (parent : Option Nat) : Result (Arena N) :=
  arena.edit id fun cell => { cell with parent := parent }

/-! ### Ways along the links -/

def climb (arena : Arena N) : Option Nat → Option (List Nat)
  | none => some []
  | some id => do
      let outward ← arena |>.climb (arena.parent? id)
      some (id :: outward)
partial_fixpoint

def ancestors (arena : Arena N) (id : Nat) (withSelf : Bool) : Option (List Nat) := do
  let outward ← arena.climb (arena.parent? id)
  some (if withSelf && arena.contains id then id :: outward else outward)

def depth (arena : Arena N) (id : Nat) : Option Nat := List.length <$> arena.ancestors id false

def walk (arena : Arena N) : List Nat → Option (List Nat)
  | [] => some []
  | id :: rest =>
      match arena.cell? id with
      | none => arena |>.walk rest
      | some cell => do
          let later ← arena |>.walk (cell.children ++ rest)
          some (id :: later)
partial_fixpoint

def preorder (arena : Arena N) (id : Nat) : Option (List Nat) := arena.walk [id]

def descendants (arena : Arena N) (id : Nat) : Option (List Nat) :=
  List.drop 1 <$> arena.preorder id

def reached (arena : Arena N) : Option (List Nat) :=
  match arena.root with
  | some root => arena.preorder root
  | none => some []

def len (arena : Arena N) : Option Nat := List.length <$> arena.reached

def leaves (arena : Arena N) : Option (List Nat) :=
  List.filter (fun id => (arena.children id).isEmpty) <$> arena.reached

def findChild? (arena : Arena N) (parent : Nat) (wanted : N → Option String → Bool) : Option Nat :=
  (arena.children parent).find? fun id =>
    match arena.cell? id with
    | some cell => wanted cell.content cell.key
    | none => false

def findByKey? (arena : Arena N) (key : String) : Option (Option Nat) :=
  List.find? (fun id => arena.key? id = some key) <$> arena.reached

mutual

def drawCell [NodeRules N] (arena : Arena N) (lead margin : String) (id : Nat) : Option String :=
  match arena.cell? id with
  | none => some ""
  | some cell => do
      let below ← arena |>.drawCells margin cell.children
      some (lead ++ Tree.caption cell.toKeyed ++ "\n" ++ below)
partial_fixpoint

def drawCells [NodeRules N] (arena : Arena N) (margin : String) : List Nat → Option String
  | [] => some ""
  | [last] => arena |>.drawCell (margin ++ "└── ") (margin ++ "    ") last
  | id :: rest => do
      let first ← arena |>.drawCell (margin ++ "├── ") (margin ++ "│   ") id
      let later ← arena |>.drawCells margin rest
      some (first ++ later)
partial_fixpoint

end

def render [NodeRules N] (arena : Arena N) : Option String :=
  match arena.root with
  | none => some ""
  | some root => arena.drawCell "" "" root

/-! ### New nodes -/

def withRoot (content : N) (key : Option String) : Arena N :=
  let (root, arena) := alloc {} ⟨key, content⟩ none
  { arena with root := some root }

def insertRoot (arena : Arena N) (content : N) (key : Option String) : Result (Nat × Arena N) :=
  match arena.root with
  | some _ => throw .rootOccupied
  | none =>
      let (id, grown) := arena.alloc ⟨key, content⟩ none
      pure (id, { grown with root := some id })

def insert [NodeRules N] (arena : Arena N) (content : N) (parent : Nat) (key : Option String) :
    Result (Nat × Arena N) := do
  let holder ← arena.cell parent
  NodeRules.checkChild holder.content content holder.children.length
  let (id, grown) := arena.alloc ⟨key, content⟩ (some parent)
  pure (id, ← grown.pushChild parent id)

/-! ### Copies -/

def copyEach (arena : Arena N) (target : Nat) : List Nat → Arena N → Option (Result (Arena N))
  | [], out => some (.ok out)
  | id :: rest, out =>
      match arena.cell id with
      | .error error => some (.error error)
      | .ok cell =>
          let (copied, grown) := out.alloc cell.toKeyed (some target)
          match grown.pushChild target copied with
          | .error error => some (.error error)
          | .ok grown => do
              match ← arena |>.copyEach copied (arena.children id) grown with
              | .error error => some (.error error)
              | .ok grown => arena |>.copyEach target rest grown
partial_fixpoint

def subtree (arena : Arena N) (id : Nat) : Option (Result (Arena N)) :=
  match arena.cell id with
  | .error error => some (.error error)
  | .ok cell =>
      let (root, out) := alloc {} cell.toKeyed none
      arena.copyEach root (arena.children id) { out with root := some root }

def graftEach [NodeRules N] (other : Arena N) (target : Nat) :
    List Nat → Arena N → Option (Arena N × Result Unit)
  | [], arena => some (arena, .ok ())
  | id :: rest, arena =>
      match other.cell id with
      | .error error => some (arena, .error error)
      | .ok cell =>
          match arena.insert cell.content target cell.key with
          | .error error => some (arena, .error error)
          | .ok (copied, grown) => do
              match ← other |>.graftEach copied (other.children id) grown with
              | (grown, .error error) => some (grown, .error error)
              | (grown, .ok ()) => other |>.graftEach target rest grown
partial_fixpoint

def graft [NodeRules N] (arena other : Arena N) (parent : Option Nat) :
    Option (Arena N × Result (Option Nat)) :=
  match other.root with
  | none => some (arena, .ok none)
  | some top =>
      match other.cell top with
      | .error error => some (arena, .error error)
      | .ok cell =>
          let placed := match parent with
            | some parent => arena.insert cell.content parent cell.key
            | none => arena.insertRoot cell.content cell.key
          match placed with
          | .error error => some (arena, .error error)
          | .ok (copied, grown) => do
              let (grown, result) ← graftEach other copied (other.children top) grown
              some (grown, (fun _ => some copied) <$> result)

/-! ### Links that change -/

def detach (arena : Arena N) (id : Nat) : Result (Arena N) := do
  let cell ← arena.cell id
  match cell.parent with
  | some parent =>
      let cut ← arena.edit parent fun cell =>
        { cell with children := cell.children.filter (· ≠ id) }
      cut.setParent id none
  | none => pure (if arena.root = some id then { arena with root := none } else arena)

def link (arena : Arena N) (id parent : Nat) : Result (Arena N) := do
  let linked ← arena.pushChild parent id
  linked.setParent id (some parent)

def attach [NodeRules N] (arena : Arena N) (id parent : Nat) : Option (Result (Arena N)) :=
  match arena.cell id with
  | .error error => some (.error error)
  | .ok cell =>
      if cell.parent.isSome || arena.root = some id then
        some (throw (.invalidParent (.node parent) (.attachedNode id)))
      else do
        let outward ← arena.ancestors parent true
        if outward.contains id then
          some (throw (.invalidParent (.node parent) (.ownAncestor id)))
        else some do
          let holder ← arena.cell parent
          NodeRules.checkChild holder.content cell.content holder.children.length
          arena.link id parent

def restore (arena : Arena N) (id : Nat) (parent : Option Nat) (wasRoot : Bool) :
    Result (Arena N) :=
  match parent with
  | some parent => arena.link id parent
  | none => pure (if wasRoot then { arena with root := some id } else arena)

def move [NodeRules N] (arena : Arena N) (id target : Nat) : Option (Arena N × Result Unit) := do
  let outward ← arena.ancestors target true
  if outward.contains id then
    some (arena, .error (.invalidParent (.node target) (.ownAncestor id)))
  else
    match arena.detach id with
    | .error error => some (arena, .error error)
    | .ok cut => do
        match ← cut.attach id target with
        | .ok moved => some (moved, .ok ())
        | .error error =>
            match cut.restore id (arena.parent? id) (arena.root = some id) with
            | .ok restored => some (restored, .error error)
            | .error failure => some (cut, .error failure)

def clear (arena : Arena N) (ids : List Nat) : Arena N :=
  { arena with cells := ids.foldl (fun cells id => cells.setIfInBounds id none) arena.cells }

def remove (arena : Arena N) (id : Nat) : Option (Result (Arena N × Arena N)) := do
  match ← arena.subtree id with
  | .error error => some (.error error)
  | .ok removed =>
      match arena.detach id with
      | .error error => some (.error error)
      | .ok cut => do
          let dropped ← cut.preorder id
          some (.ok (removed, cut.clear dropped))

/-! ### Labels that change -/

def setKey (arena : Arena N) (id : Nat) (key : Option String) : Result (Arena N) :=
  arena.edit id fun cell => { cell with key := key }

def assign (arena : Arena N) (id : Nat) (content : N) : Result (Arena N) :=
  arena.edit id fun cell => { cell with content := content }

def replace (arena : Arena N) (id : Nat) (content : N) : Result (N × Arena N) := do
  let old ← arena.get id
  pure (old, ← arena.assign id content)

end Arena

end ScopedClauses
