/-!
# Reading decimals

A decimal is an optional sign, digits with an optional point among, before or behind them, and an
optional exponent. It is read as the nearest floating-point number; a number that is too large is read
as infinite. The words for infinity and for "not a number" may be written in any case.
-/

namespace StateSearch.Decimal

/-- The number written by decimal digits. -/
def ofDigits (digits : List Char) : Nat :=
  digits.foldl (fun value digit => 10 * value + (digit.toNat - '0'.toNat)) 0

/-- `digits * 10 ^ exponent` as a floating-point number. Exponents far outside the range of all
floating-point numbers are not worked out. -/
def toFloat (digits : Nat) (exponent : Int) : Float :=
  if digits = 0 then 0
  else if exponent + (Nat.log2 digits : Int) / 4 > 400 then 1.0 / 0.0
  else if exponent + (Nat.log2 digits : Int) < -400 then 0
  else Float.ofScientific digits (exponent < 0) exponent.natAbs

/-- An exponent: a letter `e`, an optional sign, and at least one digit. Nothing at all stands for
zero. -/
def readExponent? : List Char → Option Int
  | [] => some 0
  | mark :: rest =>
    if mark == 'e' || mark == 'E' then
      let (negative, digits) := match rest with
        | '-' :: digits => (true, digits)
        | '+' :: digits => (false, digits)
        | digits => (false, digits)
      if digits.isEmpty || !digits.all Char.isDigit then none
      else some (if negative then -(ofDigits digits : Int) else ofDigits digits)
    else none

/-- A decimal without a sign. -/
def readUnsigned? (text : List Char) : Option Float :=
  let whole := text.takeWhile Char.isDigit
  let rest := text.dropWhile Char.isDigit
  let (fraction, rest) := match rest with
    | '.' :: rest => (rest.takeWhile Char.isDigit, rest.dropWhile Char.isDigit)
    | rest => ([], rest)
  if whole.isEmpty && fraction.isEmpty then none
  else do
    let exponent ← readExponent? rest
    return toFloat (ofDigits (whole ++ fraction)) (exponent - fraction.length)

/-- A number written as a word. -/
def readWord? (text : List Char) : Option Float :=
  let word := String.ofList (text.map Char.toLower)
  if word == "inf" || word == "infinity" then some (1.0 / 0.0)
  else if word == "nan" then some (0.0 / 0.0)
  else none

/-- A number without a sign. -/
def readMagnitude? (text : List Char) : Option Float :=
  (readWord? text).or (readUnsigned? text)

/-- A number with an optional sign. -/
def read? : List Char → Option Float
  | '-' :: rest => (readMagnitude? rest).map (- ·)
  | '+' :: rest => readMagnitude? rest
  | text => readMagnitude? text

end StateSearch.Decimal
