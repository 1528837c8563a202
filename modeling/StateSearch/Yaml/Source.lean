/-!
# YAML text

The characters of a text, each with its place. A line may end in several ways: a carriage return and a
line feed together are one line break, and all breaks but the two Unicode separators are read as line
feeds. Characters that cannot be written are refused (`place?`).
-/

namespace StateSearch.Yaml

/-- A character and its place: how many bytes come before it, its line, and its column, which counts
characters. All are counted from zero. -/
structure Placed where
  char : Char
  index : Nat
  line : Nat
  column : Nat
  deriving Repr

/-- What is left of a text. -/
abbrev Source := List Placed

def isBreak (c : Char) : Bool :=
  c == '\n' || c == '\r' || c == '\u0085' || c == '\u2028' || c == '\u2029'

def isBlank (c : Char) : Bool := c == ' ' || c == '\t'

/-- Whether a character separates words: a blank or a line break. -/
def isSpace (c : Char) : Bool := isBlank c || isBreak c

/-- The mark that some editors put at the start of a text. -/
def isByteOrderMark (c : Char) : Bool := c == '\ufeff'

/-- Whether a character may stand in a text: all but most controls and the two noncharacters at the
end of the basic plane. -/
def isPermitted (c : Char) : Bool :=
  let code := c.toNat
  c == '\t' || c == '\n' || c == '\r' || c == '\u0085' || (0x20 ≤ code && code ≤ 0x7e) ||
    (0xa0 ≤ code && code ≤ 0xfffd) || 0x10000 ≤ code

/-- A line break as it is read. -/
def breakAs (c : Char) : Char := if c == '\u2028' || c == '\u2029' then c else '\n'

/-- Add characters to those in front of them, which are listed backwards. The first of them gets the
place that is given. -/
def placeFrom (before : List Placed) (index line column : Nat) : List Char → Source
  | [] => before.reverse
  | '\r' :: '\n' :: rest =>
    placeFrom (⟨'\n', index, line, column⟩ :: before) (index + 2) (line + 1) 0 rest
  | c :: rest =>
    let next := index + c.utf8Size
    if isBreak c then placeFrom (⟨breakAs c, index, line, column⟩ :: before) next (line + 1) 0 rest
    else placeFrom (⟨c, index, line, column⟩ :: before) next line (column + 1) rest

/-- The characters of a text with their places, if all of them may stand in a text. -/
def place? (text : String) : Option Source :=
  if text.toList.all isPermitted then some (placeFrom [] 0 0 0 text.toList) else none

def chars (source : Source) : List Char := source.map Placed.char

/-- Whether the first character, if there is one, satisfies `test`. -/
def headIs (source : Source) (test : Char → Bool) : Bool :=
  source.head?.any fun first => test first.char

/-- Whether the text is at its end, at a blank, or at a line break. -/
def atSpaceOrEnd (source : Source) : Bool := source.isEmpty || headIs source isSpace

def atBreakOrEnd (source : Source) : Bool := source.isEmpty || headIs source isBreak

/-- Split off the longest part in front whose characters satisfy `test`. -/
def cut (source : Source) (test : Char → Bool) : List Char × Source :=
  (chars (source.takeWhile fun p => test p.char), source.dropWhile fun p => test p.char)

/-- The text without the blanks in front. -/
def dropBlanks (source : Source) : Source := source.dropWhile fun p => isBlank p.char

/-- Whether the text is at a line that consists of `word`, or begins with `word` and a blank. -/
def atLineMark (word : List Char) (source : Source) : Bool :=
  source.head?.any (·.column == 0) && chars (source.take word.length) == word &&
    atSpaceOrEnd (source.drop word.length)

def atDocumentStart : Source → Bool := atLineMark ['-', '-', '-']

def atDocumentEnd : Source → Bool := atLineMark ['.', '.', '.']

/-- Whether the text is at a line that separates documents. -/
def atDocumentMark (source : Source) : Bool := atDocumentStart source || atDocumentEnd source

end StateSearch.Yaml
