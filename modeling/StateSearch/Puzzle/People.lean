/-!
# Groups of people

A group of at most 32 people, numbered from 0, is a word with one bit for each person. `groups` lists
the groups that can be formed from some people, the largest word first.
-/

namespace StateSearch.Puzzle

/-- A set of people: bit `i` is set when person `i` belongs to it. -/
abbrev People := BitVec 32

namespace People

/-- Whether a person belongs to the group. -/
def has (people : People) (person : Nat) : Bool := people.getLsbD person

/-- The numbers of the people in the group, in ascending order. -/
def members (people : People) : List Nat :=
  (List.range 32).filter people.has

def count (people : People) : Nat := people.members.length

/-- The group of one person. -/
def single (person : Nat) : People := BitVec.twoPow 32 person

/-- The group of the people below `size` who satisfy `test`. -/
def such (size : Nat) (test : Nat → Bool) : People :=
  ((List.range size).filter test).foldl (fun people person => people ||| single person) 0

/-- The groups of at most `capacity` of the listed people, the empty one included. If the people are
listed in descending order, so are the groups. -/
def choose (capacity : Nat) : List Nat → List People
  | [] => [0]
  | person :: rest =>
    match capacity with
    | 0 => [0]
    | capacity + 1 => (choose capacity rest).map (single person ||| ·) ++ choose (capacity + 1) rest

/-- Put the groups that consist of `chosen` and at most `capacity` of the listed people in front of
`others`. -/
def chooseOnto (chosen : People) (others : List People) (capacity : Nat) : List Nat → List People
  | [] => chosen :: others
  | person :: rest =>
    match capacity with
    | 0 => chosen :: others
    | capacity + 1 =>
      chooseOnto (chosen ||| single person) (chooseOnto chosen others (capacity + 1) rest) capacity rest

theorem chooseOnto_eq (chosen : People) (others : List People) (capacity : Nat) (people : List Nat) :
    chooseOnto chosen others capacity people =
      (choose capacity people).map (chosen ||| ·) ++ others := by
  induction people generalizing chosen others capacity with
  | nil => simp [chooseOnto, choose]
  | cons person rest ih =>
    cases capacity with
    | zero => simp [chooseOnto, choose]
    | succ capacity =>
      simp [chooseOnto, choose, ih, Function.comp_def, BitVec.or_assoc]

/-- The non-empty groups of at most `capacity` of these people, in descending order. -/
def groups (capacity : Nat) (people : People) : List People :=
  (chooseOnto 0 [] capacity people.members.reverse).filter (· ≠ 0)

theorem groups_eq (capacity : Nat) (people : People) :
    groups capacity people = (choose capacity people.members.reverse).filter (· ≠ 0) := by
  simp [groups, chooseOnto_eq]

end People

end StateSearch.Puzzle
