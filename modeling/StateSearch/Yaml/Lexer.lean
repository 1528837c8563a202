import StateSearch.Yaml.Layout
import StateSearch.Yaml.Tag

/-!
# Splitting YAML text into tokens

`tokens?` reads a text token by token. What a character means depends on the layout so far: colons,
dashes and question marks only mark structure in front of a blank, and some of them only where a key
may begin.
-/

namespace StateSearch.Yaml

/-- Skip blanks, comments and line breaks. Outside of flow collections a key may begin after a line
break, and where one may begin, tabs are not skipped. The result tells whether a key may begin now. -/
def skipGap (inFlow keyAllowed inComment : Bool) : Source → Bool × Source
  | [] => (keyAllowed, [])
  | first :: rest =>
    if isBreak first.char then skipGap inFlow (keyAllowed || !inFlow) false rest
    else if inComment || first.char == ' ' || (first.char == '\t' && (inFlow || !keyAllowed)) ||
        (first.column == 0 && isByteOrderMark first.char) then
      skipGap inFlow keyAllowed inComment rest
    else if first.char == '#' then skipGap inFlow keyAllowed true rest
    else (keyAllowed, first :: rest)

namespace Layout

/-- A dash in front of an item. -/
def dash (layout : Layout) (place : Placed) : Option Layout := do
  let layout ←
    if layout.inFlow then some layout
    else if layout.keyAllowed then some (layout.openAt place.column .blockSequenceStart)
    else none
  return ((← layout.dropKey).allowKey true).push .blockEntry

/-- A question mark, which announces a key. -/
def questionMark (layout : Layout) (place : Placed) : Option Layout := do
  let layout ←
    if layout.inFlow then some layout
    else if layout.keyAllowed then some (layout.openAt place.column .blockMappingStart)
    else none
  return ((← layout.dropKey).allowKey !layout.inFlow).push .key

/-- A colon in front of a value. What might have been a key is one now. -/
def colon (layout : Layout) (place : Placed) : Option Layout := do
  match layout.key with
  | some start => return ((layout.fillSlot start).allowKey false).push .value
  | none =>
    let layout ←
      if layout.inFlow then some layout
      else if layout.keyAllowed then some (layout.openAt place.column .blockMappingStart)
      else none
    return (layout.allowKey !layout.inFlow).push .value

/-- A line that separates documents, or a directive. All collections end in front of it. -/
def documentLine (layout : Layout) (token : Token) : Option Layout := do
  return ((← layout.closeAll.dropKey).allowKey false).push token

/-- An opening bracket. -/
def openBracket (layout : Layout) (place : Placed) (token : Token) : Option Layout := do
  return ((← layout.markKey place).openFlow.allowKey true).push token

/-- A closing bracket. -/
def closeBracket (layout : Layout) (token : Token) : Option Layout := do
  return ((← layout.dropKey).closeFlow.allowKey false).push token

/-- A comma between items. -/
def comma (layout : Layout) : Option Layout := do
  return ((← layout.dropKey).allowKey true).push .flowEntry

/-- A token that might be a key or the start of one. -/
def word (layout : Layout) (place : Placed) (token : Token) : Option Layout := do
  return ((← layout.markKey place).allowKey false).push token

end Layout

/-- The characters with which a plain scalar does not begin, unless another rule says so. -/
def startsNoWord : List Char :=
  ['-', '?', ':', ',', '[', ']', '\x7b', '\x7d', '#', '&', '*', '!', '|', '>', '\'', '"', '%', '@',
    '\x60', '\t']

/-- Whether a plain scalar begins with `c`, where `rest` follows. -/
def beginsPlain (inFlow : Bool) (c : Char) (rest : Source) : Bool :=
  !startsNoWord.contains c ||
  (c == '-' && !headIs rest isBlank) ||
  (!inFlow && (c == '?' || c == ':') && !atSpaceOrEnd rest)

/-- Read the token that begins at `first`. -/
def token (layout : Layout) (first : Placed) (rest : Source) : Option (Layout × Source) := do
  let c := first.char
  let source := first :: rest
  let inFlow := layout.inFlow
  if c == '%' && first.column == 0 then
    let (token, after) ← directive rest
    return (← layout.documentLine token, after)
  else if atDocumentStart source then return (← layout.documentLine .documentStart, source.drop 3)
  else if atDocumentEnd source then return (← layout.documentLine .documentEnd, source.drop 3)
  else if c == '[' then return (← layout.openBracket first .flowSequenceStart, rest)
  else if c == '\x7b' then return (← layout.openBracket first .flowMappingStart, rest)
  else if c == ']' then return (← layout.closeBracket .flowSequenceEnd, rest)
  else if c == '\x7d' then return (← layout.closeBracket .flowMappingEnd, rest)
  else if c == ',' then return (← layout.comma, rest)
  else if c == '-' && atSpaceOrEnd rest then return (← layout.dash first, rest)
  else if c == '?' && (inFlow || atSpaceOrEnd rest) then return (← layout.questionMark first, rest)
  else if c == ':' && (inFlow || atSpaceOrEnd rest) then return (← layout.colon first, rest)
  else if c == '*' then
    let (name, after) ← anchorName rest
    return (← layout.word first (.reference name), after)
  else if c == '&' then
    let (name, after) ← anchorName rest
    return (← layout.word first (.anchor name), after)
  else if c == '!' then
    let (token, after) ← tag inFlow source
    return (← layout.word first token, after)
  else if (c == '|' || c == '>') && !inFlow then
    let (text, after) ← blockScalar (c == '|') layout.nextColumn rest
    let style := if c == '|' then Style.literal else .folded
    return (((← layout.dropKey).allowKey true).push (.scalar style (String.ofList text)), after)
  else if c == '\'' || c == '"' then
    let (text, after) ← quotedScalar (c == '"') rest
    let style := if c == '"' then Style.doubleQuoted else .singleQuoted
    return (← layout.word first (.scalar style (String.ofList text)), after)
  else if beginsPlain inFlow c rest then
    let (text, broken, after) ← plainScalar inFlow layout.nextColumn source
    let layout ← layout.word first (.scalar .plain (String.ofList text))
    return (layout.allowKey broken, after)
  else none

/-- Read the tokens of a text. Each of them takes at least one character, so as many of them as there
are characters, and one round more for the end, are enough `fuel`. -/
def readTokens (layout : Layout) (source : Source) : Nat → Option (List Token)
  | 0 => none
  | fuel + 1 => do
    let (keyAllowed, next) := skipGap layout.inFlow layout.keyAllowed false source
    let layout := layout.allowKey keyAllowed
    match next with
    | [] => return (← layout.closeAll.dropKey).tokens
    | first :: rest =>
      let layout ← layout.expireKey first
      let (layout, after) ← token (layout.closeTo first.column) first rest
      readTokens layout after fuel

/-- The tokens of a text, if it can be split into tokens. -/
def tokens? (text : String) : Option (List Token) := do
  let source ← place? text
  readTokens {} source (source.length + 1)

end StateSearch.Yaml
