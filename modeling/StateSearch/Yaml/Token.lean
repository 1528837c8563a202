/-!
# YAML tokens

The smallest parts of a YAML text. Where a text marks its structure by indentation only, the tokens
say explicitly where a block collection starts and ends, and in front of every key there is a token
that announces it.
-/

namespace StateSearch.Yaml

/-- The ways of writing a scalar. -/
inductive Style where
  | plain
  | singleQuoted
  | doubleQuoted
  | literal
  | folded
  deriving DecidableEq, Repr

/-- A tag, or a part of one. It is made of bytes, which need not be text. -/
abbrev TagName := List UInt8

namespace TagName

def ofText (text : String) : TagName := text.toUTF8.data.toList

/-- The text of a tag, if its bytes are text. -/
def text? (name : TagName) : Option String := String.fromUTF8? ⟨name.toArray⟩

end TagName

inductive Token where
  /-- The directive that tells the version of YAML. -/
  | version (major minor : Nat)
  /-- The directive that says what a tag handle stands for. -/
  | handle (name : String) (expansion : TagName)
  | documentStart
  | documentEnd
  | blockSequenceStart
  | blockMappingStart
  | blockEnd
  | flowSequenceStart
  | flowSequenceEnd
  | flowMappingStart
  | flowMappingEnd
  /-- A dash in front of an item of a block sequence. -/
  | blockEntry
  /-- A comma in a flow collection. -/
  | flowEntry
  | key
  | value
  /-- An alias, which refers to an anchor. -/
  | reference (name : String)
  | anchor (name : String)
  | tag (handle : String) (suffix : TagName)
  | scalar (style : Style) (text : String)
  deriving DecidableEq, Repr

end StateSearch.Yaml
