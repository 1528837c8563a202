import Std.Data.HashMap
import StateSearch.Yaml.Lexer
import StateSearch.Yaml.Syntax

/-!
# YAML documents

A document whose anchors and aliases are numbers. Following aliases could take for ever, as a node may
be part of itself, or could make a small text very large; so it is counted how often aliases are
followed (`Document.patience`). What aliases stand for is looked up in a table (`Node.targets`), which
holds what was anchored last under each number (`target?_eq`).
-/

namespace StateSearch.Yaml

/-- Note a node under its number, in the place of what was anchored under that number before. -/
def noteAnchor (targets : Std.HashMap Nat (Node Nat)) (node : Node Nat) :
    Std.HashMap Nat (Node Nat) :=
  match node.anchor? with
  | some label => targets.insert label node
  | none => targets

/-- The node that was anchored last in here under each number. -/
def Node.targets (root : Node Nat) : Std.HashMap Nat (Node Nat) := root.all.foldl noteAnchor ∅

/-- A document, with what its aliases stand for. -/
structure Document where
  root : Node Nat
  targets : Std.HashMap Nat (Node Nat) := root.targets
  targets_eq : targets = root.targets := by rfl

/-- The numbers of the names that are known, each name once. -/
abbrev Names := List (String × Nat)

/-- Give a number to what may be anchored here: how many names are known before it. A name that is
anchored again takes the number that the next new name will take too. -/
def numberAnchor (properties : Properties String) : StateT Names Option (Properties Nat) := do
  match properties.anchor with
  | none => return { tag := properties.tag }
  | some name =>
    let names ← get
    set ((name, names.length) :: names.filter (·.1 != name))
    return { tag := properties.tag, anchor := some names.length }

mutual

/-- Replace names by numbers. An alias needs a name that is known before it. -/
def number : Node String → StateT Names Option (Node Nat)
  | .reference name => do
    match (← get).lookup name with
    | some label => return .reference label
    | none => failure
  | .scalar properties style text => do return .scalar (← numberAnchor properties) style text
  | .sequence properties items => do
    let properties ← numberAnchor properties
    return .sequence properties (← numberItems items)
  | .mapping properties entries => do
    let properties ← numberAnchor properties
    return .mapping properties (← numberEntries entries)

def numberItems : List (Node String) → StateT Names Option (List (Node Nat))
  | [] => return []
  | item :: rest => do
    let item ← number item
    return item :: (← numberItems rest)

def numberEntries :
    List (Node String × Node String) → StateT Names Option (List (Node Nat × Node Nat))
  | [] => return []
  | (key, value) :: rest => do
    let key ← number key
    let value ← number value
    return (key, value) :: (← numberEntries rest)

end

namespace Document

/-- The document of a text that holds at most one. Without a document the text counts as one in which
nothing is written. -/
def ofText? (text : String) : Option Document := do
  let (root, _) ← Grammar.onlyDocument (← tokens? text)
  return { root := (← (number (root.getD (.empty {}))).run []).1 }

/-- The node that was anchored last under a number. -/
def target? (document : Document) (label : Nat) : Option (Node Nat) := document.targets[label]?

theorem getElem?_foldl_noteAnchor (nodes : List (Node Nat)) (targets : Std.HashMap Nat (Node Nat))
    (label : Nat) :
    (nodes.foldl noteAnchor targets)[label]? =
      (nodes.reverse.find? fun node => node.anchor? == some label).or targets[label]? := by
  induction nodes generalizing targets with
  | nil => rfl
  | cons node nodes ih =>
    rw [List.foldl_cons, ih, List.reverse_cons, List.find?_append, Option.or_assoc]
    cases h : node.anchor? with
    | none => simp [noteAnchor, h]
    | some other => by_cases other = label <;> simp_all [noteAnchor, Std.HashMap.getElem?_insert]

/-- An alias stands for the last node of the document that is anchored under its number. -/
theorem target?_eq (document : Document) (label : Nat) :
    document.target? label =
      document.root.all.reverse.find? fun node => node.anchor? == some label := by
  simp [target?, document.targets_eq, Node.targets, getElem?_foldl_noteAnchor]

/-- How often aliases may be followed while the document is read. -/
def patience (document : Document) : Nat := 100 * document.root.marks

end Document

end StateSearch.Yaml
