import StateSearch.Fault

/-!
# Durations

A duration is a number of whole seconds, which fits into 64 bits, and a number of nanoseconds below one
second. It is written in the largest unit of which it has at least one, with all digits of its fraction.
-/

namespace StateSearch

structure Duration where
  seconds : Nat
  nanoseconds : Nat
  deriving DecidableEq, Repr

namespace Duration

/-- So many seconds and nanoseconds. Nanoseconds that make up whole seconds are carried over. -/
def ofParts (seconds nanoseconds : Nat) : Except Fault Duration :=
  let total := seconds + nanoseconds / 1000000000
  if total < UInt64.size then .ok ⟨total, nanoseconds % 1000000000⟩
  else .error (.raised "overflow in Duration::new")

def ofMilliseconds (count : Nat) : Duration :=
  ⟨count / 1000, count % 1000 * 1000000⟩

def toNanoseconds (duration : Duration) : Nat :=
  duration.seconds * 1000000000 + duration.nanoseconds

/-- The digits of `fraction / 10 ^ places`, without the zeros at the end, behind a point. There is
nothing if the fraction is zero. -/
def fractionText (places fraction : Nat) : String :=
  let digits := Nat.toDigits 10 fraction
  let padded := List.replicate (places - digits.length) '0' ++ digits
  let kept := (padded.reverse.dropWhile (· == '0')).reverse
  String.ofList (if kept.isEmpty then [] else '.' :: kept)

def text (duration : Duration) : String :=
  let nanoseconds := duration.nanoseconds
  if duration.seconds > 0 then s!"{duration.seconds}" ++ fractionText 9 nanoseconds ++ "s"
  else if nanoseconds ≥ 1000000 then
    s!"{nanoseconds / 1000000}" ++ fractionText 6 (nanoseconds % 1000000) ++ "ms"
  else if nanoseconds ≥ 1000 then
    s!"{nanoseconds / 1000}" ++ fractionText 3 (nanoseconds % 1000) ++ "µs"
  else s!"{nanoseconds}ns"

end Duration

end StateSearch
