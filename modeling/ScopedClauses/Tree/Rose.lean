/-!
Finite trees with ordered children. Traversals list a node before its children, and the
children from first to last.
-/

namespace ScopedClauses

inductive Rose (α : Type u) where
  | node (label : α) (children : List (Rose α))

namespace Rose

def label : Rose α → α
  | .node label _ => label

def children : Rose α → List (Rose α)
  | .node _ children => children

mutual

def map (change : α → β) : Rose α → Rose β
  | .node label children => .node (change label) (mapAll change children)

def mapAll (change : α → β) : List (Rose α) → List (Rose β)
  | [] => []
  | rose :: rest => map change rose :: mapAll change rest

end

mutual

def preorder : Rose α → List (Rose α)
  | .node label children => .node label children :: preorderAll children

def preorderAll : List (Rose α) → List (Rose α)
  | [] => []
  | rose :: rest => preorder rose ++ preorderAll rest

end

mutual

def size : Rose α → Nat
  | .node _ children => sizeAll children + 1

def sizeAll : List (Rose α) → Nat
  | [] => 0
  | rose :: rest => size rose + sizeAll rest

end

mutual

def path? (wanted : α → Bool) : Rose α → Option (List (Rose α))
  | .node label children =>
      if wanted label then some [.node label children]
      else match pathAny? wanted children with
        | some path => some (path ++ [.node label children])
        | none => none

def pathAny? (wanted : α → Bool) : List (Rose α) → Option (List (Rose α))
  | [] => none
  | rose :: rest =>
      match path? wanted rose with
      | some path => some path
      | none => pathAny? wanted rest

end

mutual

def update (wanted : α → Bool) (change : Rose α → Rose α) : Rose α → Rose α
  | .node label children =>
      let rebuilt := .node label (updateAll wanted change children)
      if wanted label then change rebuilt else rebuilt

def updateAll (wanted : α → Bool) (change : Rose α → Rose α) : List (Rose α) → List (Rose α)
  | [] => []
  | rose :: rest => update wanted change rose :: updateAll wanted change rest

end

mutual

def prune? (unwanted : α → Bool) : Rose α → Option (Rose α)
  | .node label children =>
      if unwanted label then none else some (.node label (pruneAll unwanted children))

def pruneAll (unwanted : α → Bool) : List (Rose α) → List (Rose α)
  | [] => []
  | rose :: rest =>
      match prune? unwanted rose with
      | some kept => kept :: pruneAll unwanted rest
      | none => pruneAll unwanted rest

end

end Rose

end ScopedClauses
