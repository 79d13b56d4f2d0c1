import Mathlib
import VectorDistance.Registry
import VectorDistance.Proofs.BitAccumulation

/-!
# Counting blocks and words alike

Eight running counts that are added up at the end have counted what one running
count would have: adding a block to them adds its positions to their sum. The
kernels over blocks are therefore the kernels over words, for every length of the
buffers and every seed, and no answer of a registry shows which strategy its binding
chose.
-/

namespace VectorDistance

/-- A buffer is cut into all its whole words and the bytes after them. -/
theorem Words.length_ofBytes (bytes : List UInt8) :
    (Words.ofBytes bytes).words.length = bytes.length / 8 ∧
      (Words.ofBytes bytes).tail.length = bytes.length % 8 := by
  generalize hn : bytes.length = n
  induction n using Nat.strong_induction_on generalizing bytes with
  | h n ih =>
    by_cases hshort : n < 8
    · rw [Words.ofBytes_of_length_lt (hn.trans_lt hshort), Nat.div_eq_of_lt hshort,
        Nat.mod_eq_of_lt hshort]
      exact ⟨rfl, hn⟩
    · have hword : (bytes.take 8).length = 8 := by rw [List.length_take]; omega
      have hrest : (bytes.drop 8).length = n - 8 := by rw [List.length_drop, hn]
      have hcut := Words.ofBytes_append hword (bytes.drop 8)
      obtain ⟨hwords, htail⟩ := ih (n - 8) (by omega) _ hrest
      rw [List.take_append_drop] at hcut
      rw [hcut]
      dsimp only
      rw [List.length_cons, hwords, htail]
      omega

namespace BlockKernels

open BitKernels

variable {combine : Bool → Bool → Bool} {onWords : UInt64 → UInt64 → UInt64}
  {onBytes : UInt8 → UInt8 → UInt8}

/-- Sums of counts that are added pair by pair, from two starts. -/
theorem foldl_zipWith_add {left right : List UInt64} (h : left.length = right.length)
    (s t : UInt64) :
    (List.zipWith (· + ·) left right).foldl (· + ·) (s + t) =
      left.foldl (· + ·) s + right.foldl (· + ·) t := by
  induction left generalizing right s t with
  | nil =>
    obtain rfl : right = [] := List.length_eq_zero_iff.mp h.symm
    rfl
  | cons x left ih =>
    obtain ⟨y, right, rfl⟩ := List.exists_cons_of_length_eq_add_one h.symm
    rw [List.zipWith_cons_cons, List.foldl_cons, List.foldl_cons, List.foldl_cons,
      ← ih (Nat.succ.inj h), add_add_add_comm]

/-- Counts that are added pair by pair add up to both sums. -/
theorem total_zipWith_add {left right : List UInt64} (h : left.length = right.length) :
    total (List.zipWith (· + ·) left right) = total left + total right :=
  foldl_zipWith_add h 0 0

/-- A block has eight words and nothing after them. -/
theorem ofBytes_block {x : List UInt8} (hx : x.length = blockBytes) :
    (Words.ofBytes x).words.length = 8 ∧ (Words.ofBytes x).tail = [] := by
  obtain ⟨hwords, htail⟩ := Words.length_ofBytes x
  rw [hx] at hwords htail
  exact ⟨hwords, List.length_eq_zero_iff.mp htail⟩

/-- Adding a block adds its positions to the sum of the counts. -/
theorem total_pushBlock (hop : Bitwise combine onWords onBytes) {counts : List UInt64}
    (hcounts : counts.length = 8) {x y : List UInt8} (hx : x.length = blockBytes)
    (hy : y.length = blockBytes) :
    (pushBlock onWords counts x y).length = 8 ∧
      total (pushBlock onWords counts x y) = total counts + (countBits combine x y).toUInt64 := by
  obtain ⟨hxw, hxt⟩ := ofBytes_block hx
  obtain ⟨hyw, hyt⟩ := ofBytes_block hy
  have hlen : (List.zipWith (fun v w => wordCount (onWords v w)) (Words.ofBytes x).words
      (Words.ofBytes y).words).length = 8 := by
    rw [List.length_zipWith, hxw, hyw, Nat.min_self]
  have hblock := accumulate_eq hop (hx.trans hy.symm) 0
  rw [accumulate, hxt, hyt, UInt64.zero_add] at hblock
  constructor
  · rw [pushBlock, List.length_zipWith, hcounts, hlen, Nat.min_self]
  · rw [pushBlock, total_zipWith_add (hcounts.trans hlen.symm), ← hblock]
    rfl

/-- Adding blocks adds the positions of all of them. -/
theorem total_pushBlocks (hop : Bitwise combine onWords onBytes) {counts : List UInt64}
    (hcounts : counts.length = 8) {blocks : ℕ} {a b : List UInt8}
    (ha : blocks * blockBytes ≤ a.length) (hb : blocks * blockBytes ≤ b.length) :
    total (pushBlocks onWords blocks counts a b) = total counts +
      (countBits combine (a.take (blocks * blockBytes)) (b.take (blocks * blockBytes))).toUInt64 := by
  induction blocks generalizing counts a b with
  | zero =>
    rw [Nat.zero_mul, List.take_zero, countBits_nil]
    exact (UInt64.add_zero _).symm
  | succ blocks ih =>
    have hfirst : (blocks + 1) * blockBytes = blockBytes + blocks * blockBytes := by
      rw [Nat.succ_mul, Nat.add_comm]
    rw [hfirst] at ha hb ⊢
    have hx : (a.take blockBytes).length = blockBytes := List.length_take_of_le (by omega)
    have hy : (b.take blockBytes).length = blockBytes := List.length_take_of_le (by omega)
    obtain ⟨hkept, hblock⟩ := total_pushBlock hop hcounts hx hy
    have hrest := ih hkept (a := a.drop blockBytes) (b := b.drop blockBytes)
      (by rw [List.length_drop]; omega) (by rw [List.length_drop]; omega)
    rw [pushBlocks, hrest, hblock, List.take_add, List.take_add,
      countBits_append combine (hx.trans hy.symm), toUInt64_add, UInt64.add_assoc]

/-- The whole blocks of a buffer lie within it. -/
theorem wholeBytes_le (a : List UInt8) : wholeBytes a ≤ a.length :=
  Nat.div_mul_le_self _ _

/-- Blocks first and bytes after them are counted as words are. -/
theorem accumulate_blockCount (hop : Bitwise combine onWords onBytes) {a b : List UInt8}
    (h : a.length = b.length) (seed : UInt64) :
    accumulate onWords onBytes (a.drop (wholeBytes a)) (b.drop (wholeBytes a))
      (seed + blockCount onWords a b) = accumulate onWords onBytes a b seed := by
  have ha := wholeBytes_le a
  have hfront : (a.take (wholeBytes a)).length = (b.take (wholeBytes a)).length := by
    rw [List.length_take_of_le ha, List.length_take_of_le (h ▸ ha)]
  have hback : (a.drop (wholeBytes a)).length = (b.drop (wholeBytes a)).length := by
    rw [List.length_drop, List.length_drop, h]
  have hcount : blockCount onWords a b =
      (countBits combine (a.take (wholeBytes a)) (b.take (wholeBytes a))).toUInt64 := by
    have hzero : total (List.replicate 8 0) = 0 := rfl
    rw [blockCount, total_pushBlocks hop List.length_replicate ha (h ▸ ha), hzero,
      UInt64.zero_add]
    rfl
  rw [hcount, ← accumulate_eq hop hfront, ← accumulate_append hop hfront hback,
    List.take_append_drop, List.take_append_drop]

/-- Differing bits are counted alike. -/
theorem hamming_eq {a b : List UInt8} (h : a.length = b.length) (seed : UInt64) :
    hamming a b seed = BitKernels.hamming a b seed :=
  accumulate_blockCount bitwise_xor h seed

/-- Jaccard distances come from the same counts. -/
theorem jaccard_eq {a b : List UInt8} (h : a.length = b.length) (seedBoth : UInt64) :
    jaccard a b seedBoth = BitKernels.jaccard a b seedBoth := by
  have heither := accumulate_blockCount bitwise_or h 0
  rw [UInt64.zero_add] at heither
  rw [jaccard, BitKernels.jaccard, OverlapCounts.push, OverlapCounts.push,
    accumulate_blockCount bitwise_and h, heither]

end BlockKernels

namespace BitStrategy

/-- Every strategy counts the same differing bits. -/
theorem hamming_eq (strategy : BitStrategy) {a b : List UInt8} (h : a.length = b.length)
    (seed : UInt64) : strategy.hamming a b seed = BitKernels.hamming a b seed := by
  cases strategy with
  | portable => rfl
  | wideBlock => exact BlockKernels.hamming_eq h seed

/-- Every strategy finds the same Jaccard distance. -/
theorem jaccard_eq (strategy : BitStrategy) {a b : List UInt8} (h : a.length = b.length)
    (seedBoth : UInt64) : strategy.jaccard a b seedBoth = BitKernels.jaccard a b seedBoth := by
  cases strategy with
  | portable => rfl
  | wideBlock => exact BlockKernels.jaccard_eq h seedBoth

end BitStrategy

namespace Registry

variable {r : Registry} {bytes : ℕ} {a b : List UInt8}

/-- A kernel that answers alike under every strategy is run on the first bytes. -/
theorem onBytes_of_isBound {α : Type} (hr : r.isBound = true)
    {kernel : BitStrategy → List UInt8 → List UInt8 → α} {plain : List UInt8 → List UInt8 → α}
    (hplain : ∀ strategy x y, x.length = y.length → kernel strategy x y = plain x y)
    (ha : bytes ≤ a.length) (hb : bytes ≤ b.length) :
    r.onBytes kernel bytes a b = .ok (plain (a.take bytes) (b.take bytes)) := by
  obtain ⟨c, hc⟩ := Option.isSome_iff_exists.mp hr
  have hlen : (a.take bytes).length = (b.take bytes).length :=
    (List.length_take_of_le ha).trans (List.length_take_of_le hb).symm
  rw [onBytes_of_bound hc kernel ha hb, hplain _ _ _ hlen]

/-- A bound registry counts the differing bits of the first bytes. -/
theorem hammingDistance_of_isBound (hr : r.isBound = true) (ha : bytes ≤ a.length)
    (hb : bytes ≤ b.length) (seed : UInt64) :
    r.hammingDistance bytes a b seed =
      .ok (BitKernels.hamming (a.take bytes) (b.take bytes) seed) := by
  rw [hammingDistance, onBytes_of_isBound hr (fun strategy _ _ h => strategy.hamming_eq h seed)
    ha hb]

/-- A bound registry finds the Jaccard distance of the first bytes. -/
theorem jaccardDistance_of_isBound (hr : r.isBound = true) (ha : bytes ≤ a.length)
    (hb : bytes ≤ b.length) (seedBoth seedLeft seedRight : UInt64) :
    r.jaccardDistance bytes a b seedBoth seedLeft seedRight =
      .ok (BitKernels.jaccard (a.take bytes) (b.take bytes) seedBoth) := by
  rw [jaccardDistance,
    onBytes_of_isBound hr (fun strategy _ _ h => strategy.jaccard_eq h seedBoth) ha hb]

end Registry

end VectorDistance
