import VectorDistance.Dispatch
import VectorDistance.HalfKernels

/-!
# Kernels over eight lanes

Where a processor decodes eight halves at a time, vectors are read in groups of
eight. Each lane of a register has a running sum of its own, to which a product is
added with one rounding for both. The eight sums are added up in pairs after the last
whole group, and the portable kernel over the elements that are left over comes last.
Additions thus come in another order than in the portable kernel, and answers may
differ where sums are rounded.
-/

namespace VectorDistance

namespace LaneKernels

open HalfKernels (CosineSums)

/-- Number of lanes. -/
abbrev laneCount : Nat := 8

/-- One value in each lane. -/
abbrev Register := Vector Single laneCount

/-- The first elements of a vector, one to a lane. -/
def load (a : HalfVector) : Register :=
  .ofFn fun lane => (a.getD lane .zero).decode

/-- Number of elements in the whole groups of a vector. -/
def wholeLength (a : HalfVector) : Nat :=
  a.length / laneCount * laneCount

/-- Takes one group of two vectors into the running sums, lane by lane. -/
def pushGroup (step : Single → Single → Single → Single) (sums : Register)
    (a b : HalfVector) : Register :=
  .ofFn fun lane => step sums[lane] (load a)[lane] (load b)[lane]

/-- The running sums after so many groups. -/
def pushGroups (step : Single → Single → Single → Single) :
    Nat → Register → HalfVector → HalfVector → Register
  | 0, sums, _, _ => sums
  | groups + 1, sums, a, b =>
    pushGroups step groups (pushGroup step sums a b) (a.drop laneCount) (b.drop laneCount)

/-- The running sums added up: lanes four apart, then neighbours, then the two that
remain. -/
def total (sums : Register) : Single :=
  (sums[0] + sums[4] + (sums[1] + sums[5])) + (sums[2] + sums[6] + (sums[3] + sums[7]))

/-- Sum over the whole groups of two vectors, each lane starting from positive zero. -/
def groupSum (step : Single → Single → Single → Single) (a b : HalfVector) : Single :=
  total (pushGroups step (a.length / laneCount) (.replicate laneCount (.zero false)) a b)

/-- Runs a portable kernel on the elements that the whole groups leave over. -/
def onRest {α : Type} (kernel : HalfVector → HalfVector → α) (a b : HalfVector) : α :=
  kernel (a.drop (wholeLength a)) (b.drop (wholeLength a))

/-- Sum of squared differences. -/
def squaredDistance (a b : HalfVector) : Single :=
  groupSum (fun sum x y => (x - y).mulAdd (x - y) sum) a b + onRest HalfKernels.squaredDistance a b

/-- Sum of products. -/
def innerProduct (a b : HalfVector) : Single :=
  groupSum (fun sum x y => x.mulAdd y sum) a b + onRest HalfKernels.innerProduct a b

/-- Sum of absolute differences. -/
def taxicabDistance (a b : HalfVector) : Single :=
  groupSum (fun sum x y => sum + (x - y).abs) a b + onRest HalfKernels.taxicabDistance a b

/-- The sums behind a cosine. -/
def cosineSums (a b : HalfVector) : CosineSums :=
  let whole : CosineSums :=
    { dot := groupSum (fun sum x y => x.mulAdd y sum) a b
      leftNorm := groupSum (fun sum x _ => x.mulAdd x sum) a b
      rightNorm := groupSum (fun sum _ y => y.mulAdd y sum) a b }
  whole.merge (onRest CosineSums.ofVectors a b)

/-- One group adds to each lane its own pair of elements. -/
theorem getElem_pushGroup (step : Single → Single → Single → Single) (sums : Register)
    (a b : HalfVector) (lane : Fin laneCount) :
    (pushGroup step sums a b)[lane] =
      step sums[lane] (a.getD lane .zero).decode (b.getD lane .zero).decode := by
  simp only [pushGroup, load, Fin.getElem_fin, Vector.getElem_ofFn]

/-- An element after the first group. -/
theorem getD_drop_laneCount (a : HalfVector) (index : Nat) :
    (a.drop laneCount).getD index .zero = a.getD (laneCount + index) .zero := by
  rw [List.getD_eq_getElem?_getD, List.getD_eq_getElem?_getD, List.getElem?_drop]

/-- All groups add to each lane every eighth pair of elements, from its own on. -/
theorem getElem_pushGroups (step : Single → Single → Single → Single) (groups : Nat)
    (sums : Register) (a b : HalfVector) (lane : Fin laneCount) :
    (pushGroups step groups sums a b)[lane] =
      (List.range groups).foldl (fun sum group =>
        step sum (a.getD (laneCount * group + lane) .zero).decode
          (b.getD (laneCount * group + lane) .zero).decode) sums[lane] := by
  induction groups generalizing sums a b with
  | zero => rfl
  | succ groups ih =>
    have hindex (group : Nat) : laneCount + (laneCount * group + lane) =
        laneCount * group.succ + lane := by
      rw [Nat.mul_succ]
      omega
    rw [pushGroups, ih, getElem_pushGroup, List.range_succ_eq_map, List.foldl_cons, List.foldl_map]
    simp only [getD_drop_laneCount, hindex, Nat.mul_zero, Nat.zero_add]

/-- Fewer elements than lanes make no group. -/
theorem groupSum_of_length_lt (step : Single → Single → Single → Single) {a : HalfVector}
    (h : a.length < laneCount) (b : HalfVector) : groupSum step a b = .zero false := by
  rw [groupSum, Nat.div_eq_of_lt h, pushGroups]
  decide +kernel

/-- They are all left to the portable kernel. -/
theorem onRest_of_length_lt {α : Type} (kernel : HalfVector → HalfVector → α) {a : HalfVector}
    (h : a.length < laneCount) (b : HalfVector) : onRest kernel a b = kernel a b := by
  rw [onRest, wholeLength, Nat.div_eq_of_lt h, Nat.zero_mul]
  rfl

/-- On them the kernels differ from the portable ones in the sign of a zero at most. -/
theorem sums_of_length_lt {a : HalfVector} (h : a.length < laneCount) (b : HalfVector) :
    squaredDistance a b = .zero false + HalfKernels.squaredDistance a b ∧
      innerProduct a b = .zero false + HalfKernels.innerProduct a b ∧
      taxicabDistance a b = .zero false + HalfKernels.taxicabDistance a b := by
  simp only [squaredDistance, innerProduct, taxicabDistance, groupSum_of_length_lt _ h,
    onRest_of_length_lt _ h, and_self]

end LaneKernels

namespace HalfStrategy

open HalfKernels (CosineSums)

/-- The kernel of a strategy for sums of squared differences. -/
def squaredDistance : HalfStrategy → HalfVector → HalfVector → Single
  | portable => HalfKernels.squaredDistance
  | eightLane => LaneKernels.squaredDistance

/-- The kernel of a strategy for sums of products. -/
def innerProduct : HalfStrategy → HalfVector → HalfVector → Single
  | portable => HalfKernels.innerProduct
  | eightLane => LaneKernels.innerProduct

/-- The kernel of a strategy for sums of absolute differences. -/
def taxicabDistance : HalfStrategy → HalfVector → HalfVector → Single
  | portable => HalfKernels.taxicabDistance
  | eightLane => LaneKernels.taxicabDistance

/-- The kernel of a strategy for the sums behind a cosine. -/
def cosineSums : HalfStrategy → HalfVector → HalfVector → CosineSums
  | portable => CosineSums.ofVectors
  | eightLane => LaneKernels.cosineSums

/-- The cosine from the sums of a strategy. -/
def cosineSimilarity (strategy : HalfStrategy) (a b : HalfVector) : Except Fault Double :=
  (strategy.cosineSums a b).similarity

end HalfStrategy

end VectorDistance
