import ScopedClauses.Tree.Basic

/-!
Trees drawn with box characters, one node a line.
-/

namespace ScopedClauses

namespace Tree

variable {N : Type} [NodeRules N]

def caption (node : Keyed N) : String :=
  let label := NodeRules.label node.content
  match node.key with
  | some key => if key = label then label else s!"<{key}> {label}"
  | none => label

mutual

def drawBranch (lead margin : String) : Branch N → String
  | .node entry children => lead ++ caption entry.toKeyed ++ "\n" ++ drawChildren margin children

def drawChildren (margin : String) : List (Branch N) → String
  | [] => ""
  | [last] => drawBranch (margin ++ "└── ") (margin ++ "    ") last
  | branch :: rest =>
      drawBranch (margin ++ "├── ") (margin ++ "│   ") branch ++ drawChildren margin rest

end

def render (tree : Tree N) : String :=
  match tree.root with
  | none => ""
  | some branch => drawBranch "" "" branch

end Tree

end ScopedClauses
