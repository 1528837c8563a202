import StateSearch.Yaml.Token

/-!
# YAML nodes

What a text is made of once it is split into tokens: scalars, sequences, mappings, and aliases for
nodes that stand elsewhere. Nodes refer to each other by labels of a type `L`: by names while they are
read, by numbers afterwards.
-/

namespace StateSearch.Yaml

/-- What may be written in front of a node. -/
structure Properties (L : Type) where
  anchor : Option L := none
  tag : Option TagName := none
  deriving Repr

inductive Node (L : Type) where
  /-- An alias, which refers to an anchored node. -/
  | reference (label : L)
  | scalar (properties : Properties L) (style : Style) (text : String)
  | sequence (properties : Properties L) (items : List (Node L))
  | mapping (properties : Properties L) (entries : List (Node L × Node L))
  deriving Repr

namespace Node

variable {L : Type}

/-- The node that stands where nothing is written. -/
def empty (properties : Properties L) : Node L := .scalar properties .plain ""

/-- The label under which a node can be referred to. -/
def anchor? : Node L → Option L
  | reference _ => none
  | scalar properties .. | sequence properties _ | mapping properties _ => properties.anchor

mutual

/-- The node and all nodes in it, in the order in which they are written. -/
def all : Node L → List (Node L)
  | sequence properties items => sequence properties items :: allItems items
  | mapping properties entries => mapping properties entries :: allEntries entries
  | node => [node]

def allItems : List (Node L) → List (Node L)
  | [] => []
  | item :: rest => all item ++ allItems rest

def allEntries : List (Node L × Node L) → List (Node L)
  | [] => []
  | (key, value) :: rest => all key ++ all value ++ allEntries rest

end

/-- The number of marks it takes to tell the structure of a node: one for an alias or a scalar, and two
around what is in a collection. -/
def marks (node : Node L) : Nat :=
  node.all.foldl (fun count part => match part with
    | reference _ | scalar .. => count + 1
    | sequence .. | mapping .. => count + 2) 0

end Node

end StateSearch.Yaml
