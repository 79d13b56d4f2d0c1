import VectorDistance.BinaryValue

/-!
# Correctly rounded arithmetic

Every operation works on exact quanta and rounds once through `ofRatio`. Sums
of magnitudes stay on the grid of the format; products and quotients rescale
by the quantum, and so does a product with a sum, which is rounded only after
both; a square root is bracketed on a grid of quarters, which decides
every comparison with a midpoint between two values. A NaN operand or an
undefined form gives the positive NaN.
-/

namespace VectorDistance.Binary

-- Powers are the core ones also where the algebraic hierarchy is in scope.
attribute [local instance (high)] instPowNat

variable {F : Format}

/-- Sum. An exact zero is positive unless both operands carry a minus sign. -/
def add : Binary F → Binary F → Binary F
  | .nan _, _ => .nan false
  | _, .nan _ => .nan false
  | .infinite s, .infinite t => if s = t then .infinite s else .nan false
  | .infinite s, .finite .. => .infinite s
  | .finite .., .infinite t => .infinite t
  | .finite s m _, .finite t n _ =>
    let total := signed s m + signed t n
    ofRatio (if total = 0 then s && t else decide (total < 0)) total.natAbs 1

instance : Add (Binary F) := ⟨add⟩

/-- Difference, the sum with the other sign. -/
def sub (x y : Binary F) : Binary F :=
  x + -y

instance : Sub (Binary F) := ⟨sub⟩

/-- Product. A zero times an infinity is undefined. -/
def mul : Binary F → Binary F → Binary F
  | .nan _, _ => .nan false
  | _, .nan _ => .nan false
  | .infinite s, .infinite t => .infinite (s != t)
  | .infinite s, .finite t n _ => if n = 0 then .nan false else .infinite (s != t)
  | .finite s m _, .infinite t => if m = 0 then .nan false else .infinite (s != t)
  | .finite s m _, .finite t n _ => ofRatio (s != t) (m * n) (2 ^ F.quantum)

instance : Mul (Binary F) := ⟨mul⟩

/-- Product of the first two values plus the third, rounded once. A product that is
not finite is exact, and one of finite factors never matters beside an infinity. -/
def mulAdd : Binary F → Binary F → Binary F → Binary F
  | .finite s m _, .finite t n _, .finite u k _ =>
    let total := signed (s != t) (m * n) + signed u (k * 2 ^ F.quantum)
    ofRatio (if total = 0 then (s != t) && u else decide (total < 0)) total.natAbs
      (2 ^ F.quantum)
  | .finite .., .finite .., .infinite u => .infinite u
  | .finite .., .finite .., .nan _ => .nan false
  | x, y, z => x * y + z

/-- Quotient. Zero by zero and infinity by infinity are undefined; any other
number by zero is an infinity. -/
def div : Binary F → Binary F → Binary F
  | .nan _, _ => .nan false
  | _, .nan _ => .nan false
  | .infinite _, .infinite _ => .nan false
  | .infinite s, .finite t _ _ => .infinite (s != t)
  | .finite s _ _, .infinite t => zero (s != t)
  | .finite s m _, .finite t n _ =>
    if n = 0 then
      if m = 0 then .nan false else .infinite (s != t)
    else
      ofRatio (s != t) (m * 2 ^ F.quantum) n

instance : Div (Binary F) := ⟨div⟩

/-- Quarters of a quantum just around the square root of `n` quanta squared:
the even number when the doubled root is whole, else the odd number after it. -/
def rootQuarters (n : Nat) : Nat :=
  let root := (4 * n).sqrt
  if root * root = 4 * n then 2 * root else 2 * root + 1

/-- Square root. A zero keeps its sign and a value below zero has none. -/
def sqrt : Binary F → Binary F
  | .nan _ => .nan false
  | .infinite s => if s then .nan false else .infinite false
  | .finite s m h =>
    if m = 0 then .finite s m h
    else if s then .nan false
    else ofRatio false (rootQuarters (m * 2 ^ F.quantum)) 4

/-- A sum with a NaN is a NaN. -/
theorem isNaN_nan_add (s : Bool) (y : Binary F) : ((.nan s : Binary F) + y).isNaN = true := by
  change (add _ _).isNaN = true
  cases y <;> rfl

/-- The order of the operands of a sum is immaterial. -/
theorem add_comm (x y : Binary F) : x + y = y + x := by
  change add x y = add y x
  cases x with
  | nan s => cases y <;> rfl
  | infinite s =>
    cases y with
    | nan t => rfl
    | infinite t => cases s <;> cases t <;> rfl
    | finite t n => rfl
  | finite s m =>
    cases y with
    | nan t => rfl
    | infinite t => rfl
    | finite t n => simp only [add, Int.add_comm (signed s m), Bool.and_comm s]

/-- The order of the operands of a product is immaterial. -/
theorem mul_comm (x y : Binary F) : x * y = y * x := by
  change mul x y = mul y x
  cases x with
  | nan s => cases y <;> rfl
  | infinite s =>
    cases y with
    | nan t => rfl
    | infinite t => cases s <;> cases t <;> rfl
    | finite t n => cases s <;> cases t <;> rfl
  | finite s m =>
    cases y with
    | nan t => rfl
    | infinite t => cases s <;> cases t <;> rfl
    | finite t n =>
      simp only [mul, Nat.mul_comm m n]
      cases s <;> cases t <;> rfl

end VectorDistance.Binary
