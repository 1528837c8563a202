import StateSearch.Yaml.Node

/-!
# The grammar of YAML

How nodes are made of tokens. A document is a node, perhaps with directives and marks around it; what
is left out where a node could be is an empty scalar. `document?` reads a text of at most one document.

The functions for nodes call each other, and each call uses up some `fuel`. Two units for every token
are enough, since of two nested calls at least one takes a token away.
-/

namespace StateSearch.Yaml

/-- A part of the grammar: it takes tokens away, or fails. -/
abbrev Grammar := StateT (List Token) Option

/-- What tag handles stand for. -/
abbrev Handles := List (String × TagName)

namespace Grammar

def next : Grammar (Option Token) := do return (← get).head?

def skip : Grammar Unit := modify List.tail

/-- Whether the next token is one of these. -/
def nextIs (tokens : List Token) : Grammar Bool := do
  return (← next).any tokens.contains

/-- Take the next token away if it is this one. -/
def accept (token : Token) : Grammar Bool := do
  let found ← nextIs [token]
  if found then skip
  return found

def expect (token : Token) : Grammar Unit := do
  unless ← accept token do failure

/-- An empty node in front of one of these tokens, and else the node that is written there. -/
def unlessNext (tokens : List Token) (written : Grammar (Node String)) : Grammar (Node String) := do
  if ← nextIs tokens then return .empty {} else written

/-! ### Properties -/

/-- The handles that need no directive. -/
def knownHandles : Handles :=
  [("!", .ofText "!"), ("!!", .ofText "tag:yaml.org,2002:"), ("", [])]

def resolve (handles : Handles) (handle : String) (suffix : TagName) : Grammar TagName := do
  match (handles ++ knownHandles).lookup handle with
  | some expansion => return expansion ++ suffix
  | none => failure

def anchor : Grammar (Option String) := do
  match ← next with
  | some (.anchor name) => skip; return some name
  | _ => return none

def tag (handles : Handles) : Grammar (Option TagName) := do
  match ← next with
  | some (.tag handle suffix) => skip; some <$> resolve handles handle suffix
  | _ => return none

/-- An anchor and a tag, in either order. -/
def properties (handles : Handles) : Grammar (Properties String) := do
  let early ← anchor
  let tag ← tag handles
  let late ← if early.isNone && tag.isSome then anchor else pure none
  return ⟨early.or late, tag⟩

/-! ### Nodes -/

/-- Properties without a node behind them. -/
def bare (properties : Properties String) : Grammar (Node String) := do
  if properties.anchor.isSome || properties.tag.isSome then return .empty properties else failure

/-- The tokens in front of which a key or a value of a block mapping is left out. -/
def blockGap : List Token := [.key, .value, .blockEnd]

mutual

/-- A node. In a flow collection there are no block collections; the value of a block mapping may be a
sequence whose dashes are not indented. -/
def node (handles : Handles) (inFlow mayDash : Bool) : Nat → Grammar (Node String)
  | 0 => failure
  | fuel + 1 => do
    if let some (.reference name) ← next then
      skip
      return .reference name
    let properties ← properties handles
    match ← next with
    | some (.scalar style text) =>
      skip
      return .scalar properties style text
    | some .flowSequenceStart =>
      skip
      return .sequence properties (← flowItems handles true fuel)
    | some .flowMappingStart =>
      skip
      return .mapping properties (← flowEntries handles true fuel)
    | some .blockSequenceStart =>
      if inFlow then bare properties
      else
        skip
        return .sequence properties (← blockItems handles fuel)
    | some .blockMappingStart =>
      if inFlow then bare properties
      else
        skip
        return .mapping properties (← blockEntries handles fuel)
    | some .blockEntry =>
      if mayDash then return .sequence properties (← dashedItems handles fuel)
      else bare properties
    | _ => bare properties

/-- The items of a block sequence and its end. -/
def blockItems (handles : Handles) : Nat → Grammar (List (Node String))
  | 0 => failure
  | fuel + 1 => do
    if ← accept .blockEntry then
      let item ← unlessNext [.blockEntry, .blockEnd] (node handles false false fuel)
      return item :: (← blockItems handles fuel)
    else
      expect .blockEnd
      return []

/-- The items of a sequence whose dashes are not indented. Nothing marks its end. -/
def dashedItems (handles : Handles) : Nat → Grammar (List (Node String))
  | 0 => failure
  | fuel + 1 => do
    if ← accept .blockEntry then
      let item ← unlessNext (.blockEntry :: blockGap) (node handles false false fuel)
      return item :: (← dashedItems handles fuel)
    else return []

/-- The entries of a block mapping and its end. -/
def blockEntries (handles : Handles) : Nat → Grammar (List (Node String × Node String))
  | 0 => failure
  | fuel + 1 => do
    if ← accept .key then
      let key ← unlessNext blockGap (node handles false true fuel)
      let value ←
        if ← accept .value then unlessNext blockGap (node handles false true fuel)
        else pure (.empty {})
      return (key, value) :: (← blockEntries handles fuel)
    else
      expect .blockEnd
      return []

/-- The items of a flow sequence and its end. An item may be a mapping with one entry and without
brackets, whose key cannot be left out. -/
def flowItems (handles : Handles) (first : Bool) : Nat → Grammar (List (Node String))
  | 0 => failure
  | fuel + 1 => do
    if ← accept .flowSequenceEnd then return []
    unless first do expect .flowEntry
    if ← accept .flowSequenceEnd then return []
    let item ←
      if ← accept .key then
        let key ←
          if ← nextIs [.value, .flowEntry, .flowSequenceEnd] then
            skip
            pure (.empty {})
          else node handles true false fuel
        let value ←
          if ← accept .value then
            unlessNext [.flowEntry, .flowSequenceEnd] (node handles true false fuel)
          else pure (.empty {})
        pure (.mapping {} [(key, value)])
      else node handles true false fuel
    return item :: (← flowItems handles false fuel)

/-- The entries of a flow mapping and its end. -/
def flowEntries (handles : Handles) (first : Bool) : Nat → Grammar (List (Node String × Node String))
  | 0 => failure
  | fuel + 1 => do
    if ← accept .flowMappingEnd then return []
    unless first do expect .flowEntry
    if ← accept .flowMappingEnd then return []
    let entry ←
      if ← accept .key then
        let key ←
          unlessNext [.value, .flowEntry, .flowMappingEnd] (node handles true false fuel)
        let value ←
          if ← accept .value then
            unlessNext [.flowEntry, .flowMappingEnd] (node handles true false fuel)
          else pure (.empty {})
        pure (key, value)
      else
        let key ← node handles true false fuel
        pure (key, .empty {})
    return entry :: (← flowEntries handles false fuel)

end

/-! ### Documents -/

/-- The handles that a document's directives declare. Directives must not contradict each other, and
the version must be one of two. -/
def handlesOf (directives : List Token) : Option Handles := do
  let versions := directives.filterMap fun
    | .version major minor => some (major, minor)
    | _ => none
  let handles := directives.filterMap fun
    | .handle name expansion => some (name, expansion)
    | _ => none
  if 1 < versions.length || versions.any fun (major, minor) => major != 1 || (minor != 1 && minor != 2)
  then none
  else if (handles.map Prod.fst).eraseDups.length < handles.length then none
  else return handles

def isDirective : Token → Bool
  | .version .. | .handle .. => true
  | _ => false

def startsDocument (token : Token) : Bool := isDirective token || token == .documentStart

/-- A document. Directives have to be followed by the mark that starts a document. -/
def document : Grammar (Node String) := do
  let fuel := 2 * (← get).length + 2
  if (← next).any startsDocument then
    let directives := (← get).takeWhile isDirective
    modify (List.dropWhile isDirective)
    let handles ← handlesOf directives
    expect .documentStart
    if (← next).all fun token => startsDocument token || token == .documentEnd then
      return .empty {}
    else node handles false false fuel
  else node [] false false fuel

/-- A document, if there is one, and nothing behind it. -/
def onlyDocument : Grammar (Option (Node String)) := do
  if (← get).isEmpty then return none
  let root ← document
  modify (List.dropWhile (· == .documentEnd))
  if (← get).isEmpty then return some root else failure

end Grammar

end StateSearch.Yaml
