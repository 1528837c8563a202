import StateSearch.Problem

/-!
# Reaching a residue

A number is changed by adding and multiplying, and every result is reduced by a modulus. The goal is
to reach a given number.
-/

namespace StateSearch.Puzzle

/-- Something that is done to a number before it is reduced. -/
inductive ResidueStep where
  | add (amount : UInt64)
  | multiply (factor : UInt64)
  deriving Repr

structure Residue where
  start : UInt64
  goal : Option UInt64 := none
  modulus : UInt64
  steps : Array ResidueStep

namespace Residue

variable (puzzle : Residue)

/-- The number after step `index`. Nothing overflows before the result is reduced. -/
def play (number : UInt64) (index : Nat) : Except Fault UInt64 := do
  match puzzle.steps[index]? with
  | none => throw (.noSuchEntry puzzle.steps.size index)
  | some step =>
    let result := match step with
      | .add amount => number.toNat + amount.toNat
      | .multiply factor => number.toNat * factor.toNat
    if puzzle.modulus = 0 then throw .zeroModulus
    else return UInt64.ofNat (result % puzzle.modulus.toNat)

def problem {ω : Type} : Problem ω UInt64 Nat where
  initial := puzzle.start
  isGoal number := .answer (puzzle.goal == some number)
  legalMoves _ := .answer (List.range puzzle.steps.size)
  applyMove number index := .ofExcept (puzzle.play number index)

end Residue

end StateSearch.Puzzle
