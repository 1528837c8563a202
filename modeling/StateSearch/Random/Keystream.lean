/-!
# A stream of random words

The ChaCha stream with twelve rounds, a 64-bit block counter and the stream number zero. The key is
spread out from a 64-bit seed by a linear congruential generator whose output is permuted. Words are
paired, the earlier one as the lower half, since all draws take 64 bits.
-/

namespace StateSearch.Random

/-- The 32-bit word `word` with its bits turned left by `count` places, `0 < count < 32`. -/
def turnLeft (word : UInt32) (count : UInt32) : UInt32 :=
  (word <<< count) ||| (word >>> (32 - count))

/-- Four words that are worked on in parallel. -/
structure Row where
  a : UInt32
  b : UInt32
  c : UInt32
  d : UInt32
  deriving DecidableEq, Repr

namespace Row

def map (f : UInt32 → UInt32) (r : Row) : Row := ⟨f r.a, f r.b, f r.c, f r.d⟩

def zipWith (f : UInt32 → UInt32 → UInt32) (r s : Row) : Row :=
  ⟨f r.a s.a, f r.b s.b, f r.c s.c, f r.d s.d⟩

/-- The words moved up by one place, the first one to the end. -/
def shift (r : Row) : Row := ⟨r.b, r.c, r.d, r.a⟩

end Row

/-- The sixteen words that a block is mixed from. -/
structure Block where
  first : Row
  second : Row
  third : Row
  fourth : Row
  deriving DecidableEq, Repr

namespace Block

/-- Mix the four columns. -/
def mixColumns (block : Block) : Block :=
  let a := block.first.zipWith (· + ·) block.second
  let d := (block.fourth.zipWith (· ^^^ ·) a).map (turnLeft · 16)
  let c := block.third.zipWith (· + ·) d
  let b := (block.second.zipWith (· ^^^ ·) c).map (turnLeft · 12)
  let a := a.zipWith (· + ·) b
  let d := (d.zipWith (· ^^^ ·) a).map (turnLeft · 8)
  let c := c.zipWith (· + ·) d
  let b := (b.zipWith (· ^^^ ·) c).map (turnLeft · 7)
  ⟨a, b, c, d⟩

/-- Two rounds: mix the columns, then the diagonals. -/
def doubleRound (block : Block) : Block :=
  let ⟨a, b, c, d⟩ := block.mixColumns
  let ⟨a, b, c, d⟩ := mixColumns ⟨a, b.shift, c.shift.shift, d.shift.shift.shift⟩
  ⟨a, b.shift.shift.shift, c.shift.shift, d.shift⟩

def add (x y : Block) : Block :=
  ⟨x.first.zipWith (· + ·) y.first, x.second.zipWith (· + ·) y.second,
    x.third.zipWith (· + ·) y.third, x.fourth.zipWith (· + ·) y.fourth⟩

/-- The block after twelve rounds, added to the block before them. -/
def scramble (block : Block) : Block :=
  ((doubleRound ∘ doubleRound ∘ doubleRound ∘ doubleRound ∘ doubleRound ∘ doubleRound) block).add
    block

end Block

/-- The key of a stream. -/
structure Key where
  low : Row
  high : Row
  deriving DecidableEq, Repr

namespace Key

/-- The next state of the generator that spreads a seed. -/
def nextState (state : UInt64) : UInt64 :=
  state * 6364136223846793005 + 11634580027462260723

/-- The word that a state stands for. -/
def wordOf (state : UInt64) : UInt32 :=
  let mixed := (((state >>> 18) ^^^ state) >>> 27).toUInt32
  let count := (state >>> 59).toUInt32
  (mixed >>> count) ||| (mixed <<< ((32 - count) % 32))

/-- Four words of a key, and the state they leave. -/
def rowOf (state : UInt64) : Row × UInt64 :=
  let a := nextState state
  let b := nextState a
  let c := nextState b
  let d := nextState c
  (⟨wordOf a, wordOf b, wordOf c, wordOf d⟩, d)

def ofSeed (seed : UInt64) : Key :=
  let (low, state) := rowOf seed
  ⟨low, (rowOf state).1⟩

/-- The block of the stream at a position. -/
def block (key : Key) (position : UInt64) : Block :=
  Block.scramble ⟨⟨0x61707865, 0x3320646e, 0x79622d32, 0x6b206574⟩, key.low, key.high,
    ⟨position.toUInt32, (position >>> 32).toUInt32, 0, 0⟩⟩

end Key

/-- Two words as one, the first as the lower half. -/
def join (low high : UInt32) : UInt64 := (high.toUInt64 <<< 32) ||| low.toUInt64

/-- Where somebody is in a stream: the next block to be made, and what is left of the last one. -/
structure Generator where
  key : Key
  position : UInt64 := 0
  left : List UInt64 := []
  deriving Repr

namespace Generator

def ofSeed (seed : UInt64) : Generator := { key := .ofSeed seed }

/-- The next 64 bits. -/
def next (generator : Generator) : UInt64 × Generator :=
  match generator.left with
  | word :: left => (word, { generator with left })
  | [] =>
    let ⟨r, s, t, u⟩ := generator.key.block generator.position
    (join r.a r.b,
      { generator with
        position := generator.position + 1
        left := [join r.c r.d, join s.a s.b, join s.c s.d, join t.a t.b, join t.c t.d,
          join u.a u.b, join u.c u.d] })

end Generator

end StateSearch.Random
