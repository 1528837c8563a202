import StateSearch.Random.Keystream

/-!
# Biased coins

A coin decides between two outcomes. Its bias is a threshold: a draw of 64 bits below the threshold
counts as a success. A coin need not be random; whatever can be tossed is one.
-/

namespace StateSearch.Random

/-- Something that can be tossed with a threshold. -/
class Coin (ρ : Type) where
  toss : UInt64 → ρ → Bool × ρ

instance : Coin Generator where
  toss threshold generator :=
    let (draw, generator) := generator.next
    (draw < threshold, generator)

/-- The threshold for a success with a probability of at least 0 and less than 1. -/
def threshold (probability : Float) : UInt64 :=
  (probability * 18446744073709551616.0).toUInt64

end StateSearch.Random
