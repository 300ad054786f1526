import Sentential.Vtree.Basic

/-!
# Drawing a vtree

Every node is drawn under its name, in ascending order: a leaf with its variable, another node
with its number and an edge to each of its two sides.
-/

namespace Sentential.Vtree

/-- The lines of one node. -/
def dotLines : Tree → List String
  | .leaf id var => [s!"  v{id.raw} [label=\"x{var}\", shape=ellipse];"]
  | .fork id l r => [
      s!"  v{id.raw} [label=\"{id.raw}\", shape=circle];",
      s!"  v{id.raw} -> v{l.id.raw} [label=\"L\"];",
      s!"  v{id.raw} -> v{r.id.raw} [label=\"R\"];"]

/-- The drawing of a vtree. -/
def dot (v : Vtree) : String :=
  let lines := ["digraph vtree \x7b", "  node [fontsize=12];"] ++
    v.subtrees.toList.flatMap dotLines ++ ["\x7d"]
  String.join (lines.map (· ++ "\n"))

end Sentential.Vtree
