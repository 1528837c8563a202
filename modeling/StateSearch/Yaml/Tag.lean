import StateSearch.Yaml.Scalar

/-!
# Names in YAML text

The parts of a text that name something: anchors and aliases, tags, and the directives in front of a
document. A tag is a handle and a suffix, or a whole name between angle brackets, in which case the
handle is empty. Bytes of a tag that cannot be written as they are follow percent signs.

All functions return what was read and what is left of the source, or nothing if the source is
malformed.
-/

namespace StateSearch.Yaml

/-- Whether a character may stand in the name of an anchor or of a handle. -/
def isNameChar (c : Char) : Bool := c.isAlphanum || c == '_' || c == '-'

/-! ### Anchors and aliases -/

/-- What may follow the name of an anchor. -/
def endsName (source : Source) : Bool :=
  atSpaceOrEnd source ||
    headIs source fun c => ['?', ':', ',', ']', '\x7d', '%', '@', '\x60'].contains c

/-- The name of an anchor or an alias from behind its sign. -/
def anchorName (source : Source) : Option (String × Source) :=
  let (name, rest) := cut source isNameChar
  if name.isEmpty || !endsName rest then none else some (String.ofList name, rest)

/-! ### Tags -/

/-- Whether a character may stand in a tag. Flow indicators may only if the tag is `bracketed`. -/
def isTagChar (bracketed : Bool) (c : Char) : Bool :=
  isNameChar c || [';', '/', '?', ':', '@', '&', '=', '+', '$', '.', '%', '!', '~', '*', '\'', '(',
    ')'].contains c || (bracketed && (c == ',' || c == '[' || c == ']'))

/-- How many bytes of a character are still missing behind `byte`, where `missing` were before it. A
byte that begins a character tells how many belong to it; the others have a mark of their own. -/
def missingAfter (missing : Nat) (byte : UInt8) : Option Nat :=
  if 0 < missing then if byte &&& 0xc0 == 0x80 then some (missing - 1) else none
  else if byte &&& 0x80 == 0 then some 0
  else if byte &&& 0xe0 == 0xc0 then some 1
  else if byte &&& 0xf0 == 0xe0 then some 2
  else if byte &&& 0xf8 == 0xf0 then some 3
  else none

/-- The bytes that are written by the characters of a tag, of which `missing` belong to a character that
was begun before. Two hexadecimal digits behind a percent sign are a byte, and the bytes of one
character are all written in this way or none of them is. -/
def tagBytes (missing : Nat) : List Char → Option TagName
  | [] => if missing = 0 then some [] else none
  | '%' :: high :: low :: rest => do
    let byte := UInt8.ofNat (← hexadecimal? [high, low])
    return byte :: (← tagBytes (← missingAfter missing byte) rest)
  | c :: rest =>
    if c == '%' || 0 < missing then none
    else do return UInt8.ofNat c.toNat :: (← tagBytes 0 rest)

/-- The part of a tag that is written here. It ends in front of a zero byte, behind which nothing
counts. -/
def tagText (bracketed : Bool) (source : Source) : Option (TagName × Source) := do
  let (text, rest) := cut source (isTagChar bracketed)
  return ((← tagBytes 0 text).takeWhile (· != 0), rest)

/-- A part of a tag for which at least one character is written. -/
def writtenTagText (bracketed : Bool) (source : Source) : Option (TagName × Source) :=
  if headIs source (isTagChar bracketed) then tagText bracketed source else none

/-- A handle between exclamation marks, the second of which is missing in the shortest one. -/
def handleText (source : Source) : Option (List Char × Source) :=
  if headIs source (· == '!') then
    let (name, rest) := cut source.tail isNameChar
    if headIs rest (· == '!') then some ('!' :: name ++ ['!'], rest.tail) else some ('!' :: name, rest)
  else none

/-- A tag without its end: a name in angle brackets, a named handle with a suffix, or a suffix of the
handle `!`. A mark of its own is a tag too. -/
def tagParts (source : Source) : Option (String × TagName × Source) := do
  if headIs source.tail (· == '<') then
    let (suffix, rest) ← writtenTagText true (source.drop 2)
    if headIs rest (· == '>') then return ("", suffix, rest.tail) else none
  else
    let (handle, rest) ← handleText source
    if 1 < handle.length && handle.getLast? == some '!' then
      let (suffix, rest) ← writtenTagText false rest
      return (String.ofList handle, suffix, rest)
    else
      let (more, rest) ← tagText false rest
      let suffix := .ofText (String.ofList handle.tail) ++ more
      if suffix.isEmpty then return ("", .ofText "!", rest) else return ("!", suffix, rest)

/-- A tag and its end, which in a flow collection may be a comma. -/
def tag (inFlow : Bool) (source : Source) : Option (Token × Source) := do
  let (handle, suffix, rest) ← tagParts source
  if atSpaceOrEnd rest || (inFlow && headIs rest (· == ',')) then
    return (.tag handle suffix, rest)
  else none

/-! ### Directives -/

/-- A part of a version, which has at most nine digits. -/
def versionPart (source : Source) : Option (Nat × Source) := do
  let (digits, rest) := cut source Char.isDigit
  if digits.isEmpty || 9 < digits.length then none
  else return (digits.foldl (fun value c => 10 * value + (c.toNat - '0'.toNat)) 0, rest)

def versionDirective (source : Source) : Option (Token × Source) := do
  let (major, rest) ← versionPart (dropBlanks source)
  if headIs rest (· == '.') then
    let (minor, rest) ← versionPart rest.tail
    return (.version major minor, rest)
  else none

def handleDirective (source : Source) : Option (Token × Source) := do
  let (handle, rest) ← handleText (dropBlanks source)
  if handle.getLast? != some '!' || !headIs rest isBlank then none
  else
    let (expansion, rest) ← writtenTagText true (dropBlanks rest)
    if atSpaceOrEnd rest then return (.handle (String.ofList handle) expansion, rest) else none

/-- A directive from behind its percent sign, with the rest of its line. -/
def directive (source : Source) : Option (Token × Source) := do
  let (name, rest) := cut source isNameChar
  let (token, rest) ←
    if !atSpaceOrEnd rest then none
    else if name == "YAML".toList then versionDirective rest
    else if name == "TAG".toList then handleDirective rest
    else none
  return (token, ← dropComment rest)

end StateSearch.Yaml
