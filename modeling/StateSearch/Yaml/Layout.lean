import StateSearch.Yaml.Source
import StateSearch.Yaml.Token

/-!
# Layout of YAML text

What has to be kept in mind while a text is split into tokens. The indentation of a line opens and
closes block collections. A key need not be announced: that something was one is known only when the
colon behind it is met. So a slot is left free in front of everything that might be a key, and what
announces the key is put there later.
-/

namespace StateSearch.Yaml

/-- Where something begins that might be a key. -/
structure KeyStart where
  /-- The slot in front of it. -/
  slot : Nat
  place : Placed
  /-- Whether it has to be a key, since nothing else may stand at its place. -/
  needed : Bool

/-- Whether what begins at `start` is still short enough for a key when `place` is reached: keys are on
one line and have at most 1024 bytes. -/
def KeyStart.reaches (start : KeyStart) (place : Placed) : Bool :=
  place.line ≤ start.place.line && place.index ≤ start.place.index + 1024

/-- How far a text has been split, and what has to be remembered for the rest of it. -/
structure Layout where
  /-- The tokens so far. A slot holds no token or those that announce a key. -/
  slots : Array (List Token) := #[]
  /-- The columns of the block collections that are open, the innermost first. -/
  columns : List Nat := []
  /-- What might be a key in the innermost collection. -/
  key : Option KeyStart := none
  /-- What might be keys in the collections around it. There is one for each flow collection that is
  open. -/
  outer : List (Option KeyStart) := []
  /-- Whether a key may begin at the next token. -/
  keyAllowed : Bool := true

namespace Layout

def tokens (layout : Layout) : List Token := layout.slots.toList.flatten

/-- Whether a flow collection is open. -/
def inFlow (layout : Layout) : Bool := !layout.outer.isEmpty

/-- The first column that is indented in the innermost block collection. -/
def nextColumn (layout : Layout) : Nat := layout.columns.head?.elim 0 (· + 1)

def push (layout : Layout) (token : Token) : Layout :=
  { layout with slots := layout.slots.push [token] }

def allowKey (layout : Layout) (allowed : Bool) : Layout := { layout with keyAllowed := allowed }

/-- Close the block collections whose columns satisfy `test`. Inside of flow collections indentation
has no meaning. -/
def closeWhile (layout : Layout) (test : Nat → Bool) : Layout :=
  if layout.inFlow then layout
  else { layout with
    columns := layout.columns.dropWhile test
    slots := (layout.columns.takeWhile test).foldl (fun slots _ => slots.push [.blockEnd])
      layout.slots }

/-- Close the block collections that a token at `column` is not part of. -/
def closeTo (layout : Layout) (column : Nat) : Layout := layout.closeWhile (column < ·)

def closeAll (layout : Layout) : Layout := layout.closeWhile fun _ => true

/-- Whether a block collection begins at `column`. -/
def beginsAt (layout : Layout) (column : Nat) : Bool :=
  !layout.inFlow && layout.nextColumn ≤ column

/-- Open a block collection at `column`, if one begins there. -/
def openAt (layout : Layout) (column : Nat) (token : Token) : Layout :=
  if layout.beginsAt column then
    { layout with slots := layout.slots.push [token], columns := column :: layout.columns }
  else layout

/-- Give up what might have been a key. This is malformed if it had to be one. -/
def dropKey (layout : Layout) : Option Layout :=
  if layout.key.any (·.needed) then none else some { layout with key := none }

/-- Leave a slot for what might be a key that begins at `place`. -/
def markKey (layout : Layout) (place : Placed) : Option Layout :=
  if layout.keyAllowed then do
    let needed := !layout.inFlow && layout.columns.head? == some place.column
    let slot := layout.slots.size
    let layout ← layout.dropKey
    return { layout with slots := layout.slots.push [], key := some ⟨slot, place, needed⟩ }
  else some layout

/-- Give up what is too long for a key when `place` is reached. What might be a key around the innermost
collection need not be looked at before that collection ends, since what is too long stays so. -/
def expireKey (layout : Layout) (place : Placed) : Option Layout :=
  if layout.key.any (!·.reaches place) then layout.dropKey else some layout

def openFlow (layout : Layout) : Layout :=
  { layout with key := none, outer := layout.key :: layout.outer }

def closeFlow (layout : Layout) : Layout :=
  match layout.outer with
  | [] => layout
  | key :: outer => { layout with key, outer }

/-- Announce the key that begins at `start`, which perhaps is the first of a block mapping. -/
def fillSlot (layout : Layout) (start : KeyStart) : Layout :=
  let begins := layout.beginsAt start.place.column
  { layout with
    slots := layout.slots.set! start.slot (if begins then [.blockMappingStart, .key] else [.key])
    columns := if begins then start.place.column :: layout.columns else layout.columns
    key := none }

end Layout

end StateSearch.Yaml
