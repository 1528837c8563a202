import StateSearch.Yaml.Document
import StateSearch.Yaml.Value

/-!
# Reading YAML documents

How records are read from a document whose shape is known. Aliases are followed wherever something is
read, but not in what is ignored. A record is a mapping; keys that are not known are ignored, and those
that are known must not be repeated.
-/

namespace StateSearch.Yaml

/-- Something that is read from a document. The state is how often aliases may still be followed. -/
abbrev Reading := ReaderT Document (StateT Nat Option)

namespace Reading

/-- Read from the root of a document. -/
def run {α : Type} (reading : Node Nat → Reading α) (document : Document) : Option α := do
  let (result, _) ← StateT.run (ReaderT.run (reading document.root) document) document.patience
  return result

/-- Take what is there, or fail. -/
def ofOption {α : Type} : Option α → Reading α
  | some value => return value
  | none => failure

/-- The node itself, or the one that an alias stands for. -/
def follow : Node Nat → Reading (Node Nat)
  | .reference label => do
    match ← get with
    | 0 => failure
    | left + 1 =>
      set left
      ofOption ((← read).target? label)
  | node => return node

/-! ### Scalars -/

/-- A text is any scalar, however it is written. -/
def text (node : Node Nat) : Reading String := do
  match ← follow node with
  | .scalar _ _ text => return text
  | _ => failure

/-- The text of a scalar that may be a number or a truth value: it is plain, or literal with a tag that
says what it is. -/
def bareText (expected : TagName) (node : Node Nat) : Reading String := do
  match ← follow node with
  | .scalar properties style text =>
    if style = .plain || (style = .literal && properties.tag == some expected) then return text
    else failure
  | _ => failure

/-- A number below `limit`. -/
def natural (limit : Nat) (node : Node Nat) : Reading Nat := do
  let text ← bareText intTag node
  ofOption ((natural? text.toList).filter (· < limit))

def float (node : Node Nat) : Reading Float := do
  ofOption (float? (← bareText floatTag node))

def bool (node : Node Nat) : Reading Bool := do
  ofOption (bool? (← bareText boolTag node))

/-- Whether a scalar says that there is nothing. -/
def isAbsent (properties : Properties Nat) (style : Style) (text : String) : Reading Bool := do
  if style ≠ .plain then return false
  else
    match properties.tag with
    | none => return text.isEmpty || isNull text
    | some tag => if tag == nullTag then if isNull text then return true else failure else return false

/-- Something that may be left empty. -/
def optional {α : Type} (reading : Node Nat → Reading α) (node : Node Nat) : Reading (Option α) := do
  let node ← follow node
  match node with
  | .scalar properties style text =>
    if ← isAbsent properties style text then return none else some <$> reading node
  | _ => some <$> reading node

/-- A name, written as a text, or as a tag of its own with nothing behind it. -/
def name (node : Node Nat) : Reading String := do
  match ← follow node with
  | .scalar properties style text =>
    match properties.tag.bind localName? with
    | none => return text
    | some name =>
      if style = .plain && (text.isEmpty || isNull text) then return name else failure
  | _ => failure

/-! ### Collections -/

/-- The items of a sequence. If nothing is written there are none. -/
def items (node : Node Nat) : Reading (List (Node Nat)) := do
  match ← follow node with
  | .sequence _ items => return items
  | .scalar _ .plain "" => return []
  | _ => failure

/-- The entries of a mapping whose keys are texts. If nothing is written there are none. -/
def fields (node : Node Nat) : Reading (List (String × Node Nat)) := do
  match ← follow node with
  | .mapping _ entries => entries.mapM fun (key, value) => return (← text key, value)
  | .scalar _ .plain "" => return []
  | _ => failure

/-- What stands behind a key, which must not be repeated. -/
def field? {α : Type} (fields : List (String × α)) (key : String) : Reading (Option α) := do
  match fields.filter fun field => field.1 == key with
  | [] => return none
  | [field] => return some field.2
  | _ => failure

/-- What is read behind a key, or `absent` if the key is missing. -/
def fieldOr {α β : Type} (fields : List (String × α)) (key : String) (absent : β)
    (reading : α → Reading β) : Reading β := do
  match ← field? fields key with
  | none => return absent
  | some node => reading node

/-- What is read behind a key that must not be missing. -/
def field {α β : Type} (fields : List (String × α)) (key : String) (reading : α → Reading β) :
    Reading β := do
  match ← field? fields key with
  | none => failure
  | some node => reading node

/-! ### Values -/

/-- How deeply collections may be nested in a document. -/
def depthLimit : Nat := 128

/-- Whether a collection may have this tag when nothing is known of its shape. -/
def isPlainTag (properties : Properties Nat) : Bool := (properties.tag.bind localName?).isNone

/-- A node of any shape, with collections that are nested at most `depth` levels deep. -/
def value (depth : Nat) (node : Node Nat) : Reading Value := do
  match ← follow node, depth with
  | .scalar properties style text, _ => ofOption (scalar? properties.tag style text)
  | .sequence properties items, depth + 1 =>
    if isPlainTag properties then return .sequence (← items.mapM (value depth)) else failure
  | .mapping properties entries, depth + 1 =>
    if isPlainTag properties then
      return .mapping (← entries.mapM fun entry => do
        return (← value depth entry.1, ← value depth entry.2))
    else failure
  | _, _ => failure

end Reading

end StateSearch.Yaml
