import Mathlib
import VectorDistance.BitKernels

/-!
# Counting bits word by word and byte by byte

The bit kernels see a buffer as words and a tail, but what they count are bit
positions. Position `i` of a buffer is bit `i % 8` of byte `i / 8`; a word of
eight bytes has the same bits in the same order. One word in front of a buffer
therefore moves its positions into the seed and leaves the kernel to the rest,
and the whole run adds the number of positions, however the buffer is cut.
-/

namespace VectorDistance

namespace BitKernels

/-- Bit at a position of a buffer, bytes in order and low bits first. -/
def bitAt (bytes : List UInt8) (i : ℕ) : Bool :=
  (bytes.getD (i / 8) 0).toNat.testBit (i % 8)

/-- Number of positions at which the bits of two buffers combine to true. -/
def countBits (combine : Bool → Bool → Bool) (a b : List UInt8) : ℕ :=
  (List.range (8 * a.length)).countP fun i => combine (bitAt a i) (bitAt b i)

/-- Operations on words and bytes that combine every pair of bits by one rule. -/
structure Bitwise (combine : Bool → Bool → Bool) (onWords : UInt64 → UInt64 → UInt64)
    (onBytes : UInt8 → UInt8 → UInt8) : Prop where
  /-- Bits of combined words. -/
  word : ∀ x y i, (onWords x y).toNat.testBit i = combine (x.toNat.testBit i) (y.toNat.testBit i)
  /-- Bits of combined bytes. -/
  byte : ∀ x y i, (onBytes x y).toNat.testBit i = combine (x.toNat.testBit i) (y.toNat.testBit i)

/-- Exclusive disjunction works bit by bit. -/
theorem bitwise_xor : Bitwise (· ^^ ·) (· ^^^ ·) (· ^^^ ·) where
  word x y i := by rw [UInt64.toNat_xor, Nat.testBit_xor]
  byte x y i := by rw [UInt8.toNat_xor, Nat.testBit_xor]

/-- Conjunction works bit by bit. -/
theorem bitwise_and : Bitwise (· && ·) (· &&& ·) (· &&& ·) where
  word x y i := by rw [UInt64.toNat_and, Nat.testBit_and]
  byte x y i := by rw [UInt8.toNat_and, Nat.testBit_and]

/-- Disjunction works bit by bit. -/
theorem bitwise_or : Bitwise (· || ·) (· ||| ·) (· ||| ·) where
  word x y i := by rw [UInt64.toNat_or, Nat.testBit_or]
  byte x y i := by rw [UInt8.toNat_or, Nat.testBit_or]

/-! ## Positions -/

/-- The first eight positions are those of the first byte. -/
theorem bitAt_cons_lt (byte : UInt8) (bytes : List UInt8) {i : ℕ} (h : i < 8) :
    bitAt (byte :: bytes) i = byte.toNat.testBit i := by
  rw [bitAt, Nat.div_eq_of_lt h, Nat.mod_eq_of_lt h, List.getD_cons_zero]

/-- The later positions are those of the later bytes. -/
theorem bitAt_cons_add (byte : UInt8) (bytes : List UInt8) (i : ℕ) :
    bitAt (byte :: bytes) (i + 8) = bitAt bytes i := by
  rw [bitAt, bitAt, Nat.add_div_right i (by omega), Nat.add_mod_right, List.getD_cons_succ]

/-- Positions inside the first buffer do not see the second. -/
theorem bitAt_append_lt {front : List UInt8} (back : List UInt8) {i : ℕ}
    (h : i < 8 * front.length) : bitAt (front ++ back) i = bitAt front i := by
  rw [bitAt, bitAt, List.getD_append _ _ _ _ (by omega)]

/-- Positions after the first buffer are those of the second. -/
theorem bitAt_append_add (front back : List UInt8) (i : ℕ) :
    bitAt (front ++ back) (8 * front.length + i) = bitAt back i := by
  have hd : (8 * front.length + i) / 8 = front.length + i / 8 := by omega
  have hm : (8 * front.length + i) % 8 = i % 8 := by omega
  rw [bitAt, bitAt, hd, hm, List.getD_append_right _ _ _ _ (Nat.le_add_right _ _),
    Nat.add_sub_cancel_left]

/-- The positions of two stretches add up. -/
theorem countBits_append (combine : Bool → Bool → Bool) {a b : List UInt8}
    (h : a.length = b.length) (a' b' : List UInt8) :
    countBits combine (a ++ a') (b ++ b') = countBits combine a b + countBits combine a' b' := by
  have hlen : 8 * (a ++ a').length = 8 * a.length + 8 * a'.length := by
    rw [List.length_append, Nat.mul_add]
  rw [countBits, hlen, List.range_add, List.countP_append, List.countP_map]
  congr 1
  · refine List.countP_congr fun i hi => ?_
    have hi' := List.mem_range.mp hi
    rw [bitAt_append_lt a' hi', bitAt_append_lt b' (h ▸ hi')]
  · refine List.countP_congr fun i _ => ?_
    simp only [Function.comp_apply]
    rw [bitAt_append_add, h, bitAt_append_add]

/-- Empty buffers have no positions. -/
theorem countBits_nil (combine : Bool → Bool → Bool) (b : List UInt8) :
    countBits combine [] b = 0 := rfl

/-! ## Words -/

/-- The bits of a little-endian number are those of its bytes. -/
theorem testBit_littleEndian (bytes : List UInt8) (i : ℕ) :
    (littleEndian bytes).testBit i = bitAt bytes i := by
  induction bytes generalizing i with
  | nil => simp [littleEndian, bitAt]
  | cons byte bytes ih =>
    have hb : byte.toNat < 2 ^ 8 := byte.toNat_lt
    have hsum : littleEndian (byte :: bytes) = 2 ^ 8 * littleEndian bytes + byte.toNat := by
      exact Nat.add_comm _ _
    rw [hsum, Nat.testBit_two_pow_mul_add _ hb]
    split
    · next h => rw [bitAt_cons_lt byte bytes h]
    · next h =>
      obtain ⟨j, rfl⟩ : ∃ j, i = j + 8 := ⟨i - 8, by omega⟩
      rw [bitAt_cons_add, Nat.add_sub_cancel, ih]

/-- Eight bytes make a number of one word. -/
theorem littleEndian_lt (bytes : List UInt8) : littleEndian bytes < 256 ^ bytes.length := by
  induction bytes with
  | nil => simp [littleEndian]
  | cons byte bytes ih =>
    have hb : byte.toNat < 256 := byte.toNat_lt
    rw [littleEndian, List.length_cons, pow_succ]
    omega

/-- The bits of a word are those of its eight bytes. -/
theorem testBit_word {word : List UInt8} (h : word.length = 8) (i : ℕ) :
    (littleEndian word).toUInt64.toNat.testBit i = bitAt word i := by
  have hlt := littleEndian_lt word
  rw [h] at hlt
  have hn : (littleEndian word).toUInt64.toNat = littleEndian word :=
    UInt64.toNat_ofNat_of_lt' hlt
  rw [hn, testBit_littleEndian]

variable {combine : Bool → Bool → Bool} {onWords : UInt64 → UInt64 → UInt64}
  {onBytes : UInt8 → UInt8 → UInt8}

/-- The count of two combined words is the count of their positions. -/
theorem wordCount_eq (hop : Bitwise combine onWords onBytes) {v w : List UInt8}
    (hv : v.length = 8) (hw : w.length = 8) :
    wordCount (onWords (littleEndian v).toUInt64 (littleEndian w).toUInt64) =
      (countBits combine v w).toUInt64 := by
  rw [wordCount, bitCount, countBits, hv]
  congr 1
  refine List.countP_congr fun i _ => ?_
  rw [hop.word, testBit_word hv, testBit_word hw]

/-- The count of two combined bytes is the count of their positions. -/
theorem byteCount_eq (hop : Bitwise combine onWords onBytes) (x y : UInt8) :
    byteCount (onBytes x y) = (countBits combine [x] [y]).toUInt64 := by
  rw [byteCount, bitCount, countBits]
  congr 1
  refine List.countP_congr fun i hi => ?_
  have hi' := List.mem_range.mp hi
  rw [hop.byte, bitAt_cons_lt x [] hi', bitAt_cons_lt y [] hi']

/-- Counts wrap like the words that hold them. -/
theorem toUInt64_add (m n : ℕ) : (m + n).toUInt64 = m.toUInt64 + n.toUInt64 :=
  UInt64.ofNat_add m n

/-! ## One step and the whole run -/

/-- A word in front of both buffers moves into the seed. -/
theorem accumulate_word (onWords : UInt64 → UInt64 → UInt64) (onBytes : UInt8 → UInt8 → UInt8)
    {v w : List UInt8} (hv : v.length = 8) (hw : w.length = 8) (a b : List UInt8)
    (seed : UInt64) :
    accumulate onWords onBytes (v ++ a) (w ++ b) seed =
      accumulate onWords onBytes a b
        (seed + wordCount (onWords (littleEndian v).toUInt64 (littleEndian w).toUInt64)) := by
  simp only [accumulate, Words.ofBytes_append hv, Words.ofBytes_append hw, List.zipWith_cons_cons,
    List.foldl_cons]

/-- Tails add the positions of their bytes one byte after the other. -/
theorem foldl_byteCount (hop : Bitwise combine onWords onBytes) {a b : List UInt8}
    (h : a.length = b.length) (seed : UInt64) :
    (List.zipWith (fun x y => byteCount (onBytes x y)) a b).foldl (· + ·) seed =
      seed + (countBits combine a b).toUInt64 := by
  induction a generalizing b seed with
  | nil =>
    rw [List.zipWith_nil_left, List.foldl_nil, countBits_nil]
    exact (UInt64.add_zero seed).symm
  | cons x a ih =>
    obtain ⟨y, b, rfl⟩ := List.exists_cons_of_length_eq_add_one h.symm
    have hlen : a.length = b.length := Nat.succ.inj h
    have hsplit : countBits combine (x :: a) (y :: b) =
        countBits combine [x] [y] + countBits combine a b :=
      countBits_append (a := [x]) (b := [y]) combine rfl a b
    rw [List.zipWith_cons_cons, List.foldl_cons, ih hlen, byteCount_eq hop, hsplit,
      toUInt64_add, UInt64.add_assoc]

/-- The kernels add the number of positions to the seed. -/
theorem accumulate_eq (hop : Bitwise combine onWords onBytes) {a b : List UInt8}
    (h : a.length = b.length) (seed : UInt64) :
    accumulate onWords onBytes a b seed = seed + (countBits combine a b).toUInt64 := by
  generalize hn : a.length = n
  induction n using Nat.strong_induction_on generalizing a b seed with
  | h n ih =>
    by_cases hshort : n < 8
    · simp only [accumulate, Words.ofBytes_of_length_lt (hn ▸ hshort),
        Words.ofBytes_of_length_lt (h ▸ hn ▸ hshort : b.length < 8), List.zipWith_nil_left,
        List.foldl_nil]
      exact foldl_byteCount hop h seed
    · have hv : (a.take 8).length = 8 := by rw [List.length_take]; omega
      have hw : (b.take 8).length = 8 := by rw [List.length_take]; omega
      have hrest : (a.drop 8).length = (b.drop 8).length := by
        rw [List.length_drop, List.length_drop, h]
      have hcount : countBits combine a b = countBits combine (a.take 8) (b.take 8) +
          countBits combine (a.drop 8) (b.drop 8) := by
        rw [← countBits_append combine (hv.trans hw.symm), List.take_append_drop,
          List.take_append_drop]
      have hstep := accumulate_word onWords onBytes hv hw (a.drop 8) (b.drop 8) seed
      rw [List.take_append_drop, List.take_append_drop] at hstep
      rw [hstep, ih (a.drop 8).length (by rw [List.length_drop]; omega) hrest _ rfl,
        wordCount_eq hop hv hw, hcount, toUInt64_add, UInt64.add_assoc]

/-- Two stretches are counted one after the other. -/
theorem accumulate_append (hop : Bitwise combine onWords onBytes) {a b a' b' : List UInt8}
    (h : a.length = b.length) (h' : a'.length = b'.length) (seed : UInt64) :
    accumulate onWords onBytes (a ++ a') (b ++ b') seed =
      accumulate onWords onBytes a' b' (accumulate onWords onBytes a b seed) := by
  have hlen : (a ++ a').length = (b ++ b').length := by
    rw [List.length_append, List.length_append, h, h']
  rw [accumulate_eq hop hlen, accumulate_eq hop h, accumulate_eq hop h',
    countBits_append combine h, toUInt64_add, UInt64.add_assoc]

/-- Pieces of equal lengths make buffers of equal lengths. -/
theorem length_flatMap_eq {pieces : List (List UInt8 × List UInt8)}
    (h : ∀ p ∈ pieces, p.1.length = p.2.length) :
    (pieces.flatMap Prod.fst).length = (pieces.flatMap Prod.snd).length := by
  rw [List.length_flatMap, List.length_flatMap, List.map_congr_left h]

/-- Threading a count through the pieces of two buffers counts the buffers. -/
theorem foldl_accumulate (hop : Bitwise combine onWords onBytes)
    {pieces : List (List UInt8 × List UInt8)} (h : ∀ p ∈ pieces, p.1.length = p.2.length)
    (seed : UInt64) :
    pieces.foldl (fun count p => accumulate onWords onBytes p.1 p.2 count) seed =
      accumulate onWords onBytes (pieces.flatMap Prod.fst) (pieces.flatMap Prod.snd) seed := by
  induction pieces generalizing seed with
  | nil => rfl
  | cons p pieces ih =>
    have hrest := fun q hq => h q (List.mem_cons_of_mem p hq)
    rw [List.foldl_cons, ih hrest, List.flatMap_cons, List.flatMap_cons,
      accumulate_append hop (h p List.mem_cons_self) (length_flatMap_eq hrest)]

/-- Running overlap counts move independently. -/
theorem foldl_push (pieces : List (List UInt8 × List UInt8)) (counts : OverlapCounts) :
    pieces.foldl (fun counts p => counts.push p.1 p.2) counts =
      ⟨pieces.foldl (fun both p => accumulate (· &&& ·) (· &&& ·) p.1 p.2 both) counts.both,
        pieces.foldl (fun either p => accumulate (· ||| ·) (· ||| ·) p.1 p.2 either)
          counts.either⟩ := by
  induction pieces generalizing counts with
  | nil => rfl
  | cons p pieces ih => exact ih (counts.push p.1 p.2)

/-- A count as a natural number is the seed and the positions, wrapped. -/
theorem toNat_accumulate (hop : Bitwise combine onWords onBytes) {a b : List UInt8}
    (h : a.length = b.length) (seed : UInt64) :
    (accumulate onWords onBytes a b seed).toNat =
      (seed.toNat + countBits combine a b) % 2 ^ 64 := by
  rw [accumulate_eq hop h, UInt64.toNat_add]
  change (seed.toNat + (UInt64.ofNat (countBits combine a b)).toNat) % 2 ^ 64 = _
  rw [UInt64.toNat_ofNat', Nat.add_mod_mod]

/-- Bit counts do not depend on how the buffers are cut: threading them through
pieces of any lengths gives the counts of the whole, which are the seeds and
the numbers of positions that differ, are set in both and are set in either. -/
theorem counts_of_pieces {a b : List UInt8} {pieces : List (List UInt8 × List UInt8)}
    (hcut : ∀ p ∈ pieces, p.1.length = p.2.length)
    (ha : pieces.flatMap Prod.fst = a) (hb : pieces.flatMap Prod.snd = b)
    (seed : UInt64) (counts : OverlapCounts) :
    (pieces.foldl (fun count p => hamming p.1 p.2 count) seed = hamming a b seed ∧
      (hamming a b seed).toNat = (seed.toNat + countBits (· ^^ ·) a b) % 2 ^ 64) ∧
    (pieces.foldl (fun counts p => counts.push p.1 p.2) counts = counts.push a b ∧
      (counts.push a b).both.toNat =
        (counts.both.toNat + countBits (· && ·) a b) % 2 ^ 64 ∧
      (counts.push a b).either.toNat =
        (counts.either.toNat + countBits (· || ·) a b) % 2 ^ 64) := by
  have hlen : a.length = b.length := ha ▸ hb ▸ length_flatMap_eq hcut
  refine ⟨⟨?_, toNat_accumulate bitwise_xor hlen seed⟩, ?_,
    toNat_accumulate bitwise_and hlen counts.both,
    toNat_accumulate bitwise_or hlen counts.either⟩
  · rw [← ha, ← hb]
    exact foldl_accumulate bitwise_xor hcut seed
  · rw [foldl_push, foldl_accumulate bitwise_and hcut, foldl_accumulate bitwise_or hcut, ha, hb]
    rfl

/-- Ten bytes cut after the third and again in the same place, against the whole. -/
theorem counts_of_pieces_ten :
    [([1, 2, 3], [4, 5, 6]), ([], []), ([7, 8, 9, 10, 11, 12, 13], [0, 0, 0, 0, 0, 0, 255])].foldl
        (fun count p => hamming p.1 p.2 count) 0xffffffffffffffff =
      hamming [1, 2, 3, 7, 8, 9, 10, 11, 12, 13] [4, 5, 6, 0, 0, 0, 0, 0, 0, 255]
        0xffffffffffffffff :=
  (counts_of_pieces (by decide) rfl rfl 0xffffffffffffffff ⟨0, 0⟩).1.1

end BitKernels

end VectorDistance
