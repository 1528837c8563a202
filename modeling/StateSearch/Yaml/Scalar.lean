import StateSearch.Yaml.Source
import StateSearch.Yaml.Token

/-!
# Scalars in YAML text

How the text of a scalar is written. Plain and quoted scalars may go over several lines; a single
line break between two words is then read as a space, and of several breaks the first is dropped
(`folded`). In a block scalar all lines that are indented belong to the text; it is read literally, or
with single breaks between its lines folded into spaces.

All functions return the text and what is left of the source, or nothing if the source is malformed.
-/

namespace StateSearch.Yaml

/-- What the blanks and line breaks between two words of a scalar are read as. -/
def folded (gap : List Char) : List Char :=
  match gap.filter isBreak with
  | [] => gap
  | ['\n'] => [' ']
  | '\n' :: more => more
  | breaks => breaks

/-! ### Plain scalars -/

/-- The characters that have a meaning of their own inside of flow collections. -/
def isFlowIndicator (c : Char) : Bool :=
  c == ',' || c == '[' || c == ']' || c == '\x7b' || c == '\x7d'

/-- Whether a plain scalar ends in front of this text. -/
def endsPlain (inFlow : Bool) : Source → Bool
  | [] => true
  | first :: rest =>
    isSpace first.char || (first.char == ':' && atSpaceOrEnd rest) ||
      (inFlow && isFlowIndicator first.char)

/-- Whether a plain scalar may go on at a text that comes after blanks. Outside of flow collections its
lines have to begin at `column` or behind it. -/
def continuesPlain (inFlow : Bool) (column : Nat) (next : Source) : Bool :=
  (inFlow || next.head?.any (column ≤ ·.column)) && !atDocumentMark next && !headIs next (· == '#')

/-- Go on with a plain scalar behind `text` and the blanks and line breaks of `gap`, both of which are
listed backwards. In a flow collection no colon may stand in front of an indicator, and no line may be
indented by tabs. The result also tells whether there are line breaks behind the scalar. -/
def plainFrom (inFlow : Bool) (column : Nat) (text gap : List Char) :
    Source → Option (List Char × Bool × Source)
  | [] => some (text.reverse, gap.any isBreak, [])
  | first :: rest =>
    let c := first.char
    if isSpace c then
      if c == '\t' && first.column < column && gap.any isBreak then none
      else plainFrom inFlow column text (c :: gap) rest
    else if endsPlain inFlow (first :: rest) ||
        (!gap.isEmpty && !continuesPlain inFlow column (first :: rest)) then
      some (text.reverse, gap.any isBreak, first :: rest)
    else if inFlow && c == ':' && headIs rest (fun d => isFlowIndicator d || d == '?') then none
    else plainFrom inFlow column (c :: (folded gap.reverse).reverse ++ text) [] rest

def plainScalar (inFlow : Bool) (column : Nat) (source : Source) :
    Option (List Char × Bool × Source) :=
  plainFrom inFlow column [] [] source

/-! ### Quoted scalars -/

/-- The number written by hexadecimal digits. -/
def hexadecimal? (digits : List Char) : Option Nat :=
  digits.foldlM (fun value c =>
    if c.isDigit then some (16 * value + (c.toNat - '0'.toNat))
    else if 'a' ≤ c && c ≤ 'f' then some (16 * value + (c.toNat - 'a'.toNat + 10))
    else if 'A' ≤ c && c ≤ 'F' then some (16 * value + (c.toNat - 'A'.toNat + 10))
    else none) 0

/-- The character with this code, unless the code is a surrogate or too large. -/
def charOf? (code : Nat) : Option Char :=
  if code.isValidChar then some (Char.ofNat code) else none

/-- The characters that are written as a backslash and one more character. -/
def escapes : List (Char × Char) :=
  [('0', '\x00'), ('a', '\x07'), ('b', '\x08'), ('t', '\t'), ('\t', '\t'), ('n', '\n'),
    ('v', '\x0b'), ('f', '\x0c'), ('r', '\r'), ('e', '\x1b'), (' ', ' '), ('"', '"'), ('/', '/'),
    ('\\', '\\'), ('N', '\u0085'), ('_', '\u00a0'), ('L', '\u2028'), ('P', '\u2029')]

/-- How many hexadecimal digits follow a letter that announces the code of a character. -/
def codeLength? (c : Char) : Option Nat :=
  if c == 'x' then some 2 else if c == 'u' then some 4 else if c == 'U' then some 8 else none

/-- The character that is written by a backslash, `c`, and perhaps digits that follow. -/
def escaped (c : Char) (source : Source) : Option (Char × Source) :=
  match codeLength? c with
  | none => (escapes.lookup c).map fun char => (char, source)
  | some count => do
    let digits := chars (source.take count)
    if digits.length < count then none
    else
      let char ← charOf? (← hexadecimal? digits)
      return (char, source.drop count)

/-- The quote around a scalar. -/
def quoteOf (double : Bool) : Char := if double then '"' else '\''

theorem length_le_of_escaped {c char : Char} {source rest : Source}
    (h : escaped c source = some (char, rest)) : rest.length ≤ source.length := by
  unfold escaped at h
  split at h
  · simp only [Option.map_eq_some_iff, Prod.mk.injEq] at h
    obtain ⟨_, _, _, rfl⟩ := h
    exact Nat.le_refl _
  · dsimp only at h
    split at h
    · simp at h
    · simp only [bind, Option.bind_eq_some_iff, pure, Option.some.injEq, Prod.mk.injEq] at h
      obtain ⟨_, _, _, _, _, rfl⟩ := h
      simp

/-- What the blanks and line breaks in front of a word of a quoted scalar are read as. Behind an escaped
line break only further breaks count. -/
def quotedGap (broken : Bool) (gap : List Char) : List Char :=
  if broken then gap.filter isBreak else folded gap

/-- Go on with a quoted scalar behind `text` and the blanks and line breaks of `gap`, both of which are
listed backwards; in front of the gap there may be a line break that was escaped (`broken`). In single
quotes a quote is written twice; in double quotes a backslash starts an escape. No line may look like
one that separates documents. -/
def quotedFrom (double : Bool) (text : List Char) (broken : Bool) (gap : List Char)
    (source : Source) : Option (List Char × Source) :=
  match source with
  | [] => none
  | first :: rest =>
    let c := first.char
    let before := (quotedGap broken gap.reverse).reverse ++ text
    if isSpace c then quotedFrom double text broken (c :: gap) rest
    else if atDocumentMark (first :: rest) then none
    else if c == quoteOf double then
      match rest with
      | second :: after =>
        if !double && second.char == '\'' then quotedFrom double ('\'' :: before) false [] after
        else some (before.reverse, rest)
      | [] => some (before.reverse, [])
    else if double && c == '\\' then
      match rest with
      | [] => none
      | second :: next =>
        if isBreak second.char then quotedFrom double before true [] next
        else
          match _h : escaped second.char next with
          | none => none
          | some (char, after) => quotedFrom double (char :: before) false [] after
    else quotedFrom double (c :: before) false [] rest
termination_by source.length
decreasing_by
  · simp
  · simp only [List.length_cons]; omega
  · simp only [List.length_cons]; omega
  · have := length_le_of_escaped _h
    simp only [List.length_cons]
    omega
  · simp

/-- A quoted scalar from behind its opening quote. -/
def quotedScalar (double : Bool) (source : Source) : Option (List Char × Source) :=
  quotedFrom double [] false [] source

/-! ### Block scalars -/

/-- What becomes of the line breaks at the end of a block scalar. -/
inductive Chomping where
  | strip
  | clip
  | keep
  deriving DecidableEq, Repr

def chomping? (c : Char) : Option Chomping :=
  if c == '-' then some .strip else if c == '+' then some .keep else none

/-- An indentation that is given as a digit, which is not zero. -/
def depth? (c : Char) : Option Nat :=
  if c.isDigit && c != '0' then some (c.toNat - '0'.toNat) else none

/-- The rest of a line on which only a comment may stand, without its line break. -/
def dropComment (source : Source) : Option Source :=
  let source := dropBlanks source
  let source := if headIs source (· == '#') then source.dropWhile (!isBreak ·.char) else source
  if atBreakOrEnd source then some source.tail else none

/-- The two things that may be said behind the sign of a block scalar, in either order. -/
def blockHeader (source : Source) : Option (Chomping × Option Nat × Source) := do
  let (signs, rest) := cut source fun c => c == '-' || c == '+' || c.isDigit
  let rest ← dropComment rest
  match signs with
  | [] => return (.clip, none, rest)
  | [c] =>
    match chomping? c with
    | some chomping => return (chomping, none, rest)
    | none => return (.clip, some (← depth? c), rest)
  | [c, d] =>
    match chomping? c with
    | some chomping => return (chomping, some (← depth? d), rest)
    | none => return (← chomping? d, some (← depth? c), rest)
  | _ => none

/-- The line without the spaces in front, of which at most those in front of column `limit` are
dropped. -/
def dropIndent (limit : Option Nat) : Source → Source
  | [] => []
  | first :: rest =>
    if first.char == ' ' && limit.all (first.column < ·) then dropIndent limit rest
    else first :: rest

theorem length_dropIndent_le (limit : Option Nat) (source : Source) :
    (dropIndent limit source).length ≤ source.length := by
  induction source with
  | nil => simp [dropIndent]
  | cons first rest ih =>
    unfold dropIndent
    split
    · exact Nat.le_succ_of_le ih
    · exact Nat.le_refl _

/-- The line breaks in front of the next line of a block scalar that is not empty. The result also has
the largest indentation of the lines that were looked at. Lines must not be indented by tabs. -/
def emptyLines (limit : Option Nat) (source : Source) : Option (List Char × Nat × Source) :=
  match _h : dropIndent limit source with
  | [] => some ([], 0, [])
  | first :: rest =>
    if first.char == '\t' && limit.all (first.column < ·) then none
    else if isBreak first.char then do
      let (breaks, deepest, next) ← emptyLines limit rest
      return (first.char :: breaks, max first.column deepest, next)
    else some ([], first.column, first :: rest)
termination_by source.length
decreasing_by
  have := length_dropIndent_le limit source
  rw [_h] at this
  exact this

theorem length_le_of_emptyLines {limit : Option Nat} {source next : Source} {breaks : List Char}
    {deepest : Nat} (h : emptyLines limit source = some (breaks, deepest, next)) :
    next.length ≤ source.length := by
  fun_induction emptyLines limit source generalizing breaks deepest next with
  | case1 source =>
    simp only [Option.some.injEq, Prod.mk.injEq] at h
    simp [← h.2.2]
  | case2 => simp at h
  | case3 source first rest hd _ _ ih =>
    simp only [bind, Option.bind_eq_some_iff, pure, Option.some.injEq, Prod.mk.injEq,
      Prod.exists] at h
    obtain ⟨_, _, _, hrest, _, _, rfl⟩ := h
    have := length_dropIndent_le limit source
    rw [hd, List.length_cons] at this
    have := ih hrest
    omega
  | case4 source first rest hd =>
    simp only [Option.some.injEq, Prod.mk.injEq] at h
    rw [← h.2.2, ← hd]
    exact length_dropIndent_le limit source

/-- The end of the text of a block scalar: the line break of its last line, and those of the empty
lines behind it. -/
structure BlockTail where
  last : List Char := []
  empty : List Char
  /-- Whether the last line begins with a blank. Breaks around such a line are not folded. -/
  blank : Bool := false

/-- What the line breaks between two lines are read as. -/
def BlockTail.before (tail : BlockTail) (literal blank : Bool) : List Char :=
  if !literal && tail.last == ['\n'] && !tail.blank && !blank then
    if tail.empty.isEmpty then [' '] else tail.empty
  else tail.last ++ tail.empty

theorem length_cut_le (source : Source) (test : Char → Bool) :
    (cut source test).2.length ≤ source.length :=
  (List.dropWhile_sublist _).length_le

/-- The lines of a block scalar, which begin at `column`. -/
def blockLines (literal : Bool) (column : Nat) (tail : BlockTail) (source : Source) :
    Option (List Char × BlockTail × Source) :=
  match source with
  | [] => some ([], tail, [])
  | first :: rest =>
    if first.column == column then
      let line := cut (first :: rest) (!isBreak ·)
      match _h : emptyLines (some column) line.2.tail with
      | none => none
      | some (empty, _, next) => do
        let blank := isBlank first.char
        let (text, last, after) ←
          blockLines literal column ⟨chars (line.2.take 1), empty, blank⟩ next
        return (tail.before literal blank ++ line.1 ++ text, last, after)
    else some ([], tail, first :: rest)
termination_by source.length
decreasing_by
  have hnext := length_le_of_emptyLines _h
  have hline : line.2.length ≤ (first :: rest).length := length_cut_le _ _
  rw [List.length_tail] at hnext
  simp only [List.length_cons] at hline ⊢
  omega

/-- A block scalar from behind its sign. `least` is the first column that is indented. -/
def blockScalar (literal : Bool) (least : Nat) (source : Source) :
    Option (List Char × Source) := do
  let (chomping, depth, source) ← blockHeader source
  let limit := depth.map fun depth => if least = 0 then depth else least - 1 + depth
  let (empty, deepest, source) ← emptyLines limit source
  let column := limit.getD (max deepest (max least 1))
  let (text, tail, rest) ← blockLines literal column { empty } source
  let ending := match chomping with
    | .strip => []
    | .clip => tail.last
    | .keep => tail.last ++ tail.empty
  return (text ++ ending, rest)

end StateSearch.Yaml
