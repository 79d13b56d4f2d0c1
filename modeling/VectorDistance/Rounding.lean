/-!
# Rounded quotients of natural numbers

One division serves every rounding of the library: binary significands, the
half-precision codec and decimal text all choose the whole number nearest to
a quotient and differ only in what happens exactly halfway. A quotient by
zero is taken as the quotient of zero, as division of naturals has it.
-/

namespace VectorDistance

/-- What a rounded quotient does exactly halfway between two whole numbers. -/
inductive Tie where
  /-- The even neighbour is taken. -/
  | toEven
  /-- The larger neighbour is taken. -/
  | away
  deriving DecidableEq, Repr

/-- The whole number nearest to `num / den`, a half going where `tie` says. -/
def roundDiv (tie : Tie) (num den : Nat) : Nat :=
  let quotient := num / den
  let twice := 2 * (num % den)
  if twice < den then quotient
  else if den < twice then quotient + 1
  else
    match tie with
    | .away => quotient + 1
    | .toEven => quotient + quotient % 2

/-- A rounded quotient is the quotient or its successor. -/
theorem roundDiv_eq (tie : Tie) (num den : Nat) :
    roundDiv tie num den = num / den ∨ roundDiv tie num den = num / den + 1 := by
  unfold roundDiv
  dsimp only
  split
  · exact Or.inl rfl
  · split
    · exact Or.inr rfl
    · cases tie with
      | away => exact Or.inr rfl
      | toEven => dsimp only; omega

/-- Rounding never goes below the quotient. -/
theorem le_roundDiv (tie : Tie) (num den : Nat) : num / den ≤ roundDiv tie num den := by
  have h := roundDiv_eq tie num den
  omega

/-- Rounding goes at most one above the quotient. -/
theorem roundDiv_le (tie : Tie) (num den : Nat) : roundDiv tie num den ≤ num / den + 1 := by
  have h := roundDiv_eq tie num den
  omega

/-- A rounded quotient is at most half a unit below the exact one. -/
theorem num_le_roundDiv (tie : Tie) (num : Nat) {den : Nat} (hden : 0 < den) :
    2 * num ≤ 2 * (roundDiv tie num den * den) + den := by
  have hd := Nat.div_add_mod' num den
  have hm := Nat.mod_lt num hden
  unfold roundDiv
  dsimp only
  split
  · omega
  · split
    · rw [Nat.add_mul]
      omega
    · cases tie with
      | away => dsimp only; rw [Nat.add_mul]; omega
      | toEven => dsimp only; rw [Nat.add_mul]; omega

/-- A rounded quotient is at most half a unit above the exact one. -/
theorem roundDiv_mul_le (tie : Tie) (num den : Nat) :
    2 * (roundDiv tie num den * den) ≤ 2 * num + den := by
  have hd := Nat.div_add_mod' num den
  unfold roundDiv
  dsimp only
  split
  · omega
  · split
    · rw [Nat.add_mul]
      omega
    · cases tie with
      | away => dsimp only; rw [Nat.add_mul]; omega
      | toEven =>
        dsimp only
        have h2 : num / den % 2 * den ≤ 1 * den :=
          Nat.mul_le_mul_right den (by omega)
        rw [Nat.add_mul]
        omega

end VectorDistance
