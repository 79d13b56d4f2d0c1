import VectorDistance.BinaryFormat

/-!
# Values of a binary floating-point format

A value is a NaN, an infinity or a signed finite magnitude in quanta of its
format. Zeros of both signs are finite values of magnitude zero. `rank` places
every value that is not a NaN on the integers, infinities just beyond the
finite range, and carries the order; `ofRatio` is the only way in which an
exact quotient becomes a value, and rounds it once.
-/

namespace VectorDistance

-- Powers are the core ones also where the algebraic hierarchy is in scope.
attribute [local instance (high)] instPowNat

/-- A value of the format `F`. -/
inductive Binary (F : Format) where
  /-- Not a number. The sign takes no part in arithmetic. -/
  | nan (negative : Bool)
  /-- An infinity. -/
  | infinite (negative : Bool)
  /-- The number of that sign and of `magnitude` quanta. -/
  | finite (negative : Bool) (magnitude : Nat) (representable : F.Represents magnitude)
  deriving DecidableEq

/-- Values of the 32-bit format. -/
abbrev Single := Binary Format.single

/-- Values of the 64-bit format. -/
abbrev Double := Binary Format.double

namespace Binary

variable {F : Format}

/-- The zero of the given sign. -/
def zero (negative : Bool) : Binary F :=
  .finite negative 0 F.represents_zero

instance : Inhabited (Binary F) := ⟨zero false⟩

/-- Is this not a number? -/
def isNaN : Binary F → Bool
  | .nan _ => true
  | _ => false

/-- Is this a number other than an infinity? -/
def isFinite : Binary F → Bool
  | .finite .. => true
  | _ => false

/-- Sign of the value, of zeros and NaNs too. -/
def isNegative : Binary F → Bool
  | .nan negative => negative
  | .infinite negative => negative
  | .finite negative _ _ => negative

/-- The value of the other sign. -/
def neg : Binary F → Binary F
  | .nan negative => .nan (!negative)
  | .infinite negative => .infinite (!negative)
  | .finite negative magnitude h => .finite (!negative) magnitude h

instance : Neg (Binary F) := ⟨neg⟩

/-- The value without its sign. -/
def abs : Binary F → Binary F
  | .nan _ => .nan false
  | .infinite _ => .infinite false
  | .finite _ magnitude h => .finite false magnitude h

/-- A natural number with a sign. -/
def signed (negative : Bool) (magnitude : Nat) : Int :=
  if negative then -(magnitude : Int) else magnitude

/-- The place of a value in the order: its quanta if finite, the power of two
beyond the finite range for an infinity, none for a NaN. -/
def rank : Binary F → Option Int
  | .nan _ => none
  | .infinite negative => some (signed negative (2 ^ F.capacity))
  | .finite negative magnitude _ => some (signed negative magnitude)

/-- Exact number of quanta of a finite value. -/
def quanta : Binary F → Option Int
  | .finite negative magnitude _ => some (signed negative magnitude)
  | _ => none

/-- Order of two values, none as soon as one is a NaN. Zeros are equal. -/
def compare? (x y : Binary F) : Option Ordering :=
  match x.rank, y.rank with
  | some i, some j => some (compare i j)
  | _, _ => none

/-- Strictly below; never true of a NaN. -/
def lt (x y : Binary F) : Bool :=
  x.compare? y == some .lt

/-- Below or equal; never true of a NaN. -/
def le (x y : Binary F) : Bool :=
  x.lt y || x.compare? y == some .eq

/-- Is this a zero of either sign? -/
def isZero (x : Binary F) : Bool :=
  x.rank == some 0

/-- `num / den` quanta under a sign, rounded once to the nearest value, ties to
the even significand; beyond the finite range the infinity of that sign. -/
def ofRatio (negative : Bool) (num den : Nat) : Binary F :=
  if h : F.roundMagnitude num den < 2 ^ F.capacity then
    .finite negative (F.roundMagnitude num den) ⟨F.fits_roundMagnitude num den, h⟩
  else
    .infinite negative

/-- The value nearest to a natural number. -/
def ofNat (n : Nat) : Binary F :=
  ofRatio false (n * 2 ^ F.quantum) 1

/-- The value of the format `G` nearest to a value of the format `F`. Every NaN
becomes the positive one. -/
def convert (G : Format) : Binary F → Binary G
  | .nan _ => .nan false
  | .infinite negative => .infinite negative
  | .finite negative magnitude _ =>
    ofRatio negative (magnitude * 2 ^ G.quantum) (2 ^ F.quantum)

/-- Moves a value into an interval; a NaN stays. -/
def clamp (x low high : Binary F) : Binary F :=
  if x.lt low then low else if high.lt x then high else x

/-- The larger of two values, the other one if one is a NaN. -/
def max (x y : Binary F) : Binary F :=
  if x.isNaN then y else if x.lt y then y else x

/-- Finite values have the rank of their quanta. -/
theorem rank_eq_quanta {x : Binary F} (h : x.isFinite = true) : x.rank = x.quanta := by
  cases x with
  | nan => simp only [isFinite, Bool.false_eq_true] at h
  | infinite => simp only [isFinite, Bool.false_eq_true] at h
  | finite => rfl

/-- A value has no rank exactly when it is a NaN. -/
theorem rank_eq_none_iff {x : Binary F} : x.rank = none ↔ x.isNaN = true := by
  cases x <;> simp [rank, isNaN]

/-- Changing the sign turns the rank around. -/
theorem rank_neg (x : Binary F) : (-x).rank = x.rank.map (fun i => -i) := by
  change x.neg.rank = _
  cases x with
  | nan => rfl
  | infinite s => cases s <;> simp [neg, rank, signed]
  | finite s => cases s <;> simp [neg, rank, signed]

end Binary

/-- Every value of `F` is a value of `G`: precision, quantum and range are at
least as fine. -/
structure Format.EmbedsIn (F G : Format) : Prop where
  /-- No significant bit is lost. -/
  precision_le : F.precision ≤ G.precision
  /-- No small value is lost. -/
  quantum_le : F.quantum ≤ G.quantum
  /-- No large value is lost. -/
  capacity_le : F.capacity + (G.quantum - F.quantum) ≤ G.capacity

/-- Magnitudes stay representable on the finer grid. -/
theorem Format.EmbedsIn.represents {F G : Format} (h : F.EmbedsIn G) {magnitude : Nat}
    (hm : F.Represents magnitude) :
    G.Represents (magnitude * 2 ^ (G.quantum - F.quantum)) := by
  obtain ⟨⟨significand, shift, hs, rfl⟩, hc⟩ := hm
  constructor
  · refine ⟨significand, shift + (G.quantum - F.quantum), ?_, ?_⟩
    · exact Nat.lt_of_lt_of_le hs (Nat.pow_le_pow_right (by decide) h.precision_le)
    · rw [Nat.mul_assoc, Nat.pow_add]
  · refine Nat.lt_of_lt_of_le ?_ (Nat.pow_le_pow_right (by decide) h.capacity_le)
    rw [Nat.pow_add]
    exact Nat.mul_lt_mul_of_pos_right hc (Nat.two_pow_pos _)

/-- The same value in a format that has it. Every NaN becomes the positive one. -/
def Binary.widen {F G : Format} (h : F.EmbedsIn G) : Binary F → Binary G
  | .nan _ => .nan false
  | .infinite negative => .infinite negative
  | .finite negative magnitude hm =>
    .finite negative (magnitude * 2 ^ (G.quantum - F.quantum)) (h.represents hm)

/-- Widening keeps the value: the quanta grow by the ratio of the grids. -/
theorem Binary.quanta_widen {F G : Format} (h : F.EmbedsIn G) (x : Binary F) :
    (x.widen h).quanta =
      x.quanta.map (fun q => q * ((2 ^ (G.quantum - F.quantum) : Nat) : Int)) := by
  cases x with
  | nan => rfl
  | infinite => rfl
  | finite s =>
    cases s with
    | false => simp only [widen, quanta, signed, Bool.false_eq_true, if_false, Option.map_some,
        Int.natCast_mul]
    | true => simp only [widen, quanta, signed, if_true, Option.map_some, Int.natCast_mul,
        Int.neg_mul]

/-- The 16-bit format lies within the 32-bit one. -/
theorem Format.half_embedsIn_single : Format.half.EmbedsIn Format.single :=
  ⟨by decide, by decide, by decide⟩

/-- The 32-bit format lies within the 64-bit one. -/
theorem Format.single_embedsIn_double : Format.single.EmbedsIn Format.double :=
  ⟨by decide, by decide, by decide⟩

/-- The same value in the 64-bit format. -/
def Binary.toDouble (x : Single) : Double :=
  x.widen Format.single_embedsIn_double

end VectorDistance
