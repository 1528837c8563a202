import StateSearch.Decimal.Reading
import StateSearch.Yaml.Token

/-!
# YAML values

What the text of a plain scalar stands for: nothing, a truth value, a number, or else the text itself.
Digits behind a leading zero are no number, and neither are digits with signs or blanks among them. A
`Value` is a node with its scalars understood in this way.
-/

namespace StateSearch.Yaml

inductive Value where
  | null
  | bool (value : Bool)
  | natural (value : Nat)
  /-- A whole number with a minus sign in front. -/
  | negated (value : Nat)
  | float (value : Float)
  | text (value : String)
  | sequence (items : List Value)
  | mapping (entries : List (Value × Value))
  deriving Repr

def isNull (text : String) : Bool := ["null", "Null", "NULL", "~"].contains text

def bool? (text : String) : Option Bool :=
  if ["true", "True", "TRUE"].contains text then some true
  else if ["false", "False", "FALSE"].contains text then some false
  else none

/-- The value of a digit in bases up to 16. -/
def digit? (base : Nat) (c : Char) : Option Nat :=
  let value :=
    if c.isDigit then c.toNat - '0'.toNat
    else if 'a' ≤ c && c ≤ 'f' then c.toNat - 'a'.toNat + 10
    else if 'A' ≤ c && c ≤ 'F' then c.toNat - 'A'.toNat + 10
    else base
  if value < base then some value else none

/-- The number that digits stand for, of which there is at least one. -/
def digits? (base : Nat) (digits : List Char) : Option Nat :=
  if digits.isEmpty then none
  else digits.foldlM (fun value c => do return base * value + (← digit? base c)) 0

/-- Whether there are digits behind a leading zero. -/
def hasLeadingZero : List Char → Bool
  | '0' :: c :: rest => (c :: rest).all Char.isDigit
  | _ => false

/-- A number without a sign, in one of four bases. -/
def magnitude? : List Char → Option Nat
  | '0' :: 'x' :: digits => digits? 16 digits
  | '0' :: 'o' :: digits => digits? 8 digits
  | '0' :: 'b' :: digits => digits? 2 digits
  | digits => if hasLeadingZero digits then none else digits? 10 digits

/-- A number that may have a plus sign. -/
def natural? : List Char → Option Nat
  | '+' :: rest => magnitude? rest
  | text => magnitude? text

/-- A whole number that may have a sign. -/
def whole? : List Char → Option Value
  | '-' :: rest => .negated <$> magnitude? rest
  | text => .natural <$> natural? text

/-- A finite decimal that may have a sign. -/
def finite? (text : List Char) : Option Float :=
  (Decimal.read? text).filter Float.isFinite

/-- A decimal, or one of the words for infinity and for what is no number. -/
def float? (text : String) : Option Float :=
  if [".inf", ".Inf", ".INF", "+.inf", "+.Inf", "+.INF"].contains text then some (1.0 / 0.0)
  else if ["-.inf", "-.Inf", "-.INF"].contains text then some (-1.0 / 0.0)
  else if [".nan", ".NaN", ".NAN"].contains text then some (0.0 / 0.0)
  else finite? text.toList

/-! ### Scalars -/

/-- Tags that say what kind of value a scalar is. -/
def boolTag : TagName := .ofText "tag:yaml.org,2002:bool"
def intTag : TagName := .ofText "tag:yaml.org,2002:int"
def floatTag : TagName := .ofText "tag:yaml.org,2002:float"
def nullTag : TagName := .ofText "tag:yaml.org,2002:null"

/-- Whether a tag is one that only the reader of a document knows. -/
def isLocal (tag : TagName) : Bool := tag.head? == some '!'.toUInt8

/-- The kind of thing that a local tag names, if its bytes are text. A mark of its own is its name. -/
def localName? (tag : TagName) : Option String :=
  if !isLocal tag then none
  else if tag.tail.isEmpty then some "!"
  else TagName.text? tag.tail

/-- Whether a whole number fits into so many bits, one of which tells the sign if there is one. -/
def fits (bits : Nat) : Value → Bool
  | .natural value => value < 1 <<< bits
  | .negated value => value ≤ 1 <<< (bits - 1)
  | _ => true

/-- What a plain scalar is that is no whole number, or one that is very large. -/
def decimalOrText (text : String) : Value :=
  let magnitude := match text.toList with
    | '+' :: rest | '-' :: rest => rest
    | chars => chars
  if hasLeadingZero magnitude then .text text else (float? text).elim (.text text) .float

/-- The value of a plain scalar. Numbers of more than 64 bits are refused, except for those that do not
even fit into 128 bits: these are read as decimals. -/
def plain? (text : String) : Option Value :=
  if text.isEmpty || isNull text then some .null
  else
    match bool? text, whole? text.toList with
    | some value, _ => some (.bool value)
    | none, none => some (decimalOrText text)
    | none, some value =>
      if fits 64 value then some value
      else if fits 128 value then none
      else some (decimalOrText text)

/-- The value of a scalar. It has to be what its tag says, and must not have a tag that names a kind of
thing which only the reader of the document knows. A local tag that names nothing does not count if the
scalar is plain; any other tag makes it a text. -/
def scalar? (tag : Option TagName) (style : Style) (text : String) : Option Value :=
  match tag with
  | none => if style = .plain then plain? text else some (.text text)
  | some tag =>
    if tag == boolTag then .bool <$> bool? text
    else if tag == intTag then (whole? text.toList).filter (fits 64)
    else if tag == floatTag then .float <$> float? text
    else if tag == nullTag then if isNull text then some .null else none
    else if (localName? tag).isSome then none
    else if isLocal tag && style = .plain then plain? text
    else some (.text text)

end StateSearch.Yaml
