/-!
# A keystream of 32-bit words

The stream cipher ChaCha with twelve rounds, run over a zero message with a
zero nonce: block after block of sixteen words from a 256-bit key and a block
counter. The key is spread from a 64-bit seed by a linear congruential step
whose output is folded and rotated. One seed gives one endless stream, of which
any number of leading words can be taken.
-/

namespace VectorDistance.Keystream

/-- Rotation of a word towards its most significant bit. -/
def rotateLeft (word amount : UInt32) : UInt32 :=
  (word <<< amount) ||| (word >>> (32 - amount))

/-- Rotation of a word towards its least significant bit. -/
def rotateRight (word amount : UInt32) : UInt32 :=
  (word >>> amount) ||| (word <<< ((32 - amount) % 32))

/-- Four words side by side. -/
structure Row where
  /-- The word of the first lane. -/
  first : UInt32
  /-- The word of the second lane. -/
  second : UInt32
  /-- The word of the third lane. -/
  third : UInt32
  /-- The word of the fourth lane. -/
  fourth : UInt32
  deriving DecidableEq, Repr

namespace Row

/-- Combines two rows lane by lane. -/
def zipWith (f : UInt32 → UInt32 → UInt32) (x y : Row) : Row :=
  ⟨f x.first y.first, f x.second y.second, f x.third y.third, f x.fourth y.fourth⟩

/-- Adds two rows lane by lane. -/
def add (x y : Row) : Row :=
  x.zipWith (· + ·) y

/-- Combines two rows by exclusive or and rotates every lane. -/
def xorRotate (x y : Row) (amount : UInt32) : Row :=
  x.zipWith (fun v w => rotateLeft (v ^^^ w) amount) y

/-- Moves every word one lane down, the first one around to the end. -/
def turn (x : Row) : Row :=
  ⟨x.second, x.third, x.fourth, x.first⟩

/-- The words, first to last. -/
def toList (x : Row) : List UInt32 :=
  [x.first, x.second, x.third, x.fourth]

end Row

/-- The sixteen words that a block is computed in, as four rows. -/
structure State where
  /-- The first row, constants at the start. -/
  a : Row
  /-- The second row, the first half of the key at the start. -/
  b : Row
  /-- The third row, the second half of the key at the start. -/
  c : Row
  /-- The fourth row, the block counter and the nonce at the start. -/
  d : Row
  deriving DecidableEq, Repr

namespace State

/-- Mixes the four words of every column. -/
def mixColumns (s : State) : State :=
  let a := s.a.add s.b
  let d := s.d.xorRotate a 16
  let c := s.c.add d
  let b := s.b.xorRotate c 12
  let a := a.add b
  let d := d.xorRotate a 8
  let c := c.add d
  let b := b.xorRotate c 7
  ⟨a, b, c, d⟩

/-- Turns the rows so that diagonals become columns. -/
def toDiagonals (s : State) : State :=
  ⟨s.a, s.b.turn, s.c.turn.turn, s.d.turn.turn.turn⟩

/-- Turns the rows back. -/
def ofDiagonals (s : State) : State :=
  ⟨s.a, s.b.turn.turn.turn, s.c.turn.turn, s.d.turn⟩

/-- A round over the columns and a round over the diagonals. -/
def doubleRound (s : State) : State :=
  s.mixColumns.toDiagonals.mixColumns.ofDiagonals

/-- Applies a number of double rounds. -/
def mix (s : State) : Nat → State
  | 0 => s
  | times + 1 => mix s.doubleRound times

/-- Adds two states word by word. -/
def add (s t : State) : State :=
  ⟨s.a.add t.a, s.b.add t.b, s.c.add t.c, s.d.add t.d⟩

/-- The words, row after row. -/
def toList (s : State) : List UInt32 :=
  s.a.toList ++ s.b.toList ++ s.c.toList ++ s.d.toList

end State

/-- The eight words of a key. -/
structure Key where
  /-- The first four words. -/
  low : Row
  /-- The last four words. -/
  high : Row
  deriving DecidableEq, Repr

/-- The state before mixing: four constant words that spell a phrase, the key,
the block counter and a zero nonce. -/
def initialState (key : Key) (counter : UInt64) : State where
  a := ⟨0x61707865, 0x3320646e, 0x79622d32, 0x6b206574⟩
  b := key.low
  c := key.high
  d := ⟨counter.toUInt32, (counter >>> 32).toUInt32, 0, 0⟩

/-- The sixteen words of one block of the stream. -/
def block (key : Key) (counter : UInt64) : List UInt32 :=
  let s := initialState key counter
  ((s.mix 6).add s).toList

/-- One linear congruential step of the seed. -/
def seedStep (state : UInt64) : UInt64 :=
  state * 6364136223846793005 + 11634580027462260723

/-- The key word that a seed state gives. -/
def keyWord (state : UInt64) : UInt32 :=
  rotateRight (((state >>> 18) ^^^ state) >>> 27).toUInt32 (state >>> 59).toUInt32

/-- The seed state after a number of steps. -/
def seedAfter (seed : UInt64) : Nat → UInt64
  | 0 => seed
  | steps + 1 => seedAfter (seedStep seed) steps

/-- The key of a seed. -/
def keyOfSeed (seed : UInt64) : Key :=
  let word := fun steps => keyWord (seedAfter seed steps)
  ⟨⟨word 1, word 2, word 3, word 4⟩, ⟨word 5, word 6, word 7, word 8⟩⟩

/-- The first `count` words of the stream of a seed. -/
def words (seed : UInt64) (count : Nat) : List UInt32 :=
  let key := keyOfSeed seed
  ((List.range ((count + 15) / 16)).flatMap fun i => block key i.toUInt64).take count

/-- A block has sixteen words. -/
theorem length_block (key : Key) (counter : UInt64) : (block key counter).length = 16 := rfl

/-- A stream of sixteen words to a block is long enough. -/
theorem length_words (seed : UInt64) (count : Nat) : (words seed count).length = count := by
  have hb : ∀ n : Nat, ((List.range n).flatMap fun i =>
      block (keyOfSeed seed) i.toUInt64).length = 16 * n := by
    intro n
    induction n with
    | zero => rfl
    | succ n ih =>
      rw [List.range_succ, List.flatMap_append, List.length_append, ih]
      simp only [List.flatMap_cons, List.flatMap_nil, List.append_nil, length_block]
      omega
  rw [words, List.length_take, hb]
  omega

end VectorDistance.Keystream
