import StateSearch.Node
import StateSearch.Text.Json
import StateSearch.Text.Quoted

/-!
# Nodes and paths as text

A node is shown by its fields, on one line or on several; its parent is left out, since it would bring
the whole chain with it. A path is shown by its moves and its cost.
-/

namespace StateSearch

namespace Node

/-- The fields that are shown, with their values as text. `move` writes the last move. -/
def shownFields (node : Node Int String) (move : Option String → String) :
    List (String × String) :=
  [("state", toString node.state), ("move", move node.lastMove), ("depth", toString node.depth),
    ("path_cost", toString node.pathCost), ("estimated_cost", toString node.estimate)]

/-- The node on one line. -/
def line (node : Node Int String) : String :=
  let move := fun
    | none => "None"
    | some text => "Some(" ++ Text.quoted text ++ ")"
  let fields := (node.shownFields move).map fun (name, value) => name ++ ": " ++ value
  "SearchNode \x7b " ++ ", ".intercalate fields ++ " \x7d"

/-- The node with a line for each field. -/
def lines (node : Node Int String) : String :=
  let move := fun
    | none => "None"
    | some text => "Some(\n        " ++ Text.quoted text ++ ",\n    )"
  let fields := (node.shownFields move).map fun (name, value) =>
    "    " ++ name ++ ": " ++ value ++ ",\n"
  "SearchNode \x7b\n" ++ String.join fields ++ "\x7d"

end Node

namespace Path

/-- The path as a value of a report. -/
def json (path : Path String) : Text.Json :=
  .object [("moves", .array (path.moves.map .string)), ("cost", .number path.cost.toNat)]

end Path

end StateSearch
