import Mathlib.Tactic
import Mathlib.Data.Nat.Log

/-!
# Comparing 64-bit floating-point numbers by their bits

Below the sign bit the bits of two numbers that are not NaN stand in the order of their
magnitudes, infinity included. An integer is converted to the nearest number, to the one
with an even significand if two are equally near; the conversion keeps the order.
-/

namespace Lib.Binary64

/-- The bits without the sign. -/
def magnitude (x : UInt64) : Nat := x.toNat % 2 ^ 63

/-- Larger than infinity. -/
def isNaN (x : UInt64) : Bool := decide (2047 * 2 ^ 52 < magnitude x)

/-- The place of a number in the order; the two zeros have the same. -/
def place (x : UInt64) : Int := if 2 ^ 63 ≤ x.toNat then -(magnitude x : Int) else magnitude x

def eq (x y : UInt64) : Bool := !isNaN x && !isNaN y && decide (place x = place y)

def le (x y : UInt64) : Bool := !isNaN x && !isNaN y && decide (place x ≤ place y)

/-- `n / 2 ^ s`, rounded to the nearest, a tie to the even one. -/
def roundShift (n s : Nat) : Nat :=
  let q := n / 2 ^ s
  let r := n % 2 ^ s
  if 2 ^ s < 2 * r ∨ (2 ^ s = 2 * r ∧ q % 2 = 1) then q + 1 else q

/-- The bits of the number nearest to `n`; a significand that is rounded up to `2 ^ 53` runs over into the
exponent. -/
def bitsOf (n : Nat) : Nat :=
  if n = 0 then 0
  else if n.log2 ≤ 52 then (n.log2 + 1022) * 2 ^ 52 + n * 2 ^ (52 - n.log2)
  else (n.log2 + 1022) * 2 ^ 52 + roundShift n (n.log2 - 52)

/-- `as f64`, for integers of a magnitude that can be represented. -/
def ofInt (i : Int) : UInt64 := UInt64.ofNat (if i < 0 then 2 ^ 63 + bitsOf i.natAbs else bitsOf i.natAbs)

/-! ## The conversion keeps the order -/

/-- Rounding is monotone. -/
theorem roundShift_mono {n m : Nat} (h : n ≤ m) (s : Nat) : roundShift n s ≤ roundShift m s := by
  have hdiv := Nat.div_le_div_right (c := 2 ^ s) h
  have hn := Nat.div_add_mod n (2 ^ s)
  have hm := Nat.div_add_mod m (2 ^ s)
  unfold roundShift
  dsimp only
  rcases Nat.lt_or_eq_of_le hdiv with hlt | heq
  · split <;> split <;> omega
  · rw [heq] at hn ⊢
    have hr : n % 2 ^ s ≤ m % 2 ^ s := by omega
    split <;> split <;> omega

/-- A rounded significand has 53 bits, or is the next power of two. -/
theorem roundShift_bounds {n s : Nat} (hlo : 2 ^ (52 + s) ≤ n) (hhi : n < 2 ^ (53 + s)) :
    2 ^ 52 ≤ roundShift n s ∧ roundShift n s ≤ 2 ^ 53 := by
  have hpos : 0 < 2 ^ s := by positivity
  have h1 : 2 ^ 52 ≤ n / 2 ^ s := by
    rw [Nat.le_div_iff_mul_le hpos, ← pow_add]
    exact hlo
  have h2 : n / 2 ^ s < 2 ^ 53 := by
    rw [Nat.div_lt_iff_lt_mul hpos, ← pow_add]
    exact hhi
  unfold roundShift
  dsimp only
  split <;> omega

/-- The bits of a positive integer lie between those of the powers of two around it. -/
theorem bitsOf_bounds {n : Nat} (h : n ≠ 0) :
    (n.log2 + 1023) * 2 ^ 52 ≤ bitsOf n ∧ bitsOf n ≤ (n.log2 + 1024) * 2 ^ 52 := by
  have hlo := Nat.log2_self_le h
  have hhi := @Nat.lt_log2_self n
  unfold bitsOf
  rw [if_neg h]
  split
  · rename_i hle
    have hscale : 2 ^ n.log2 * 2 ^ (52 - n.log2) = 2 ^ 52 := by
      rw [← pow_add]
      congr 1
      omega
    have h1 : 2 ^ 52 ≤ n * 2 ^ (52 - n.log2) := by
      rw [← hscale]
      exact Nat.mul_le_mul_right _ hlo
    have h2 : n * 2 ^ (52 - n.log2) ≤ 2 ^ 53 := by
      have hmul := Nat.mul_le_mul_right (2 ^ (52 - n.log2)) hhi.le
      rw [pow_succ, mul_right_comm, hscale] at hmul
      omega
    omega
  · rename_i hgt
    rcases @roundShift_bounds n (n.log2 - 52) (by rwa [Nat.add_sub_cancel' (by omega)])
      (by rwa [show 53 + (n.log2 - 52) = n.log2 + 1 by omega]) with ⟨h1, h2⟩
    omega

/-- The bits of naturals are in the order of the naturals. -/
theorem bitsOf_mono {n m : Nat} (h : n ≤ m) : bitsOf n ≤ bitsOf m := by
  by_cases hn : n = 0
  · rw [hn]
    exact Nat.zero_le _
  have hm : m ≠ 0 := by omega
  have hlog : n.log2 ≤ m.log2 := by
    rw [Nat.log2_eq_log_two, Nat.log2_eq_log_two]
    exact Nat.log_mono_right h
  rcases Nat.lt_or_eq_of_le hlog with hlt | heq
  · have h1 := (bitsOf_bounds hn).2
    have h2 := (bitsOf_bounds hm).1
    omega
  · unfold bitsOf
    rw [if_neg hn, if_neg hm, heq]
    split
    · exact Nat.add_le_add_left (Nat.mul_le_mul_right _ h) _
    · exact Nat.add_le_add_left (roundShift_mono h _) _

/-- Up to `2 ^ 53` every integer is a number. -/
theorem bitsOf_strictMono {n m : Nat} (h : n < m) (hm : m ≤ 2 ^ 53) : bitsOf n < bitsOf m := by
  have hm0 : m ≠ 0 := by omega
  have hlow := (bitsOf_bounds hm0).1
  by_cases hn : n = 0
  · have hzero : bitsOf n = 0 := by rw [bitsOf, if_pos hn]
    omega
  have hexact : ∀ k, k ≠ 0 → k < 2 ^ 53 → k.log2 ≤ 52 ∧ bitsOf k = (k.log2 + 1022) * 2 ^ 52 + k * 2 ^ (52 - k.log2) := by
    intro k hk hlt
    have hle : k.log2 ≤ 52 := Nat.lt_succ_iff.mp ((Nat.log2_lt hk).mpr hlt)
    refine ⟨hle, ?_⟩
    rw [bitsOf, if_neg hk, if_pos hle]
  rcases hexact n hn (by omega) with ⟨hle, hbits⟩
  have hstrict : n * 2 ^ (52 - n.log2) < 2 ^ 53 := by
    have hscale : 2 ^ (n.log2 + 1) * 2 ^ (52 - n.log2) = 2 ^ 53 := by
      rw [← pow_add]
      congr 1
      omega
    rw [← hscale]
    exact Nat.mul_lt_mul_of_pos_right Nat.lt_log2_self (by positivity)
  have hlog : n.log2 ≤ m.log2 := by
    rw [Nat.log2_eq_log_two, Nat.log2_eq_log_two]
    exact Nat.log_mono_right h.le
  rcases Nat.lt_or_eq_of_le hlog with hlt | heq
  · omega
  · rcases Nat.lt_or_eq_of_le hm with hsmall | hpow
    · rw [hbits, (hexact m hm0 hsmall).2, ← heq]
      exact Nat.add_lt_add_left (Nat.mul_lt_mul_of_pos_right h (by positivity)) _
    · rw [hpow, Nat.log2_two_pow] at heq
      omega

/-- The integers of 64 bits are far from infinity. -/
theorem bitsOf_lt {n : Nat} (h : n ≤ 2 ^ 63) : bitsOf n < 2047 * 2 ^ 52 := by
  have hle := bitsOf_mono h
  have hpow : bitsOf (2 ^ 63) = (63 + 1022) * 2 ^ 52 + roundShift (2 ^ 63) 11 := by
    unfold bitsOf
    rw [Nat.log2_two_pow]
    norm_num
  have hround : roundShift (2 ^ 63) 11 = 2 ^ 52 := by
    unfold roundShift
    norm_num
  rw [hpow, hround] at hle
  omega

section OfInt

variable {i j : Int}

/-- The bits of an integer: the sign, then the bits of its magnitude. -/
theorem toNat_ofInt (h : i.natAbs ≤ 2 ^ 63) :
    (ofInt i).toNat = if i < 0 then 2 ^ 63 + bitsOf i.natAbs else bitsOf i.natAbs := by
  have hlt := bitsOf_lt h
  unfold ofInt
  rw [UInt64.toNat_ofNat']
  split <;> omega

/-- The bits without the sign are those of the magnitude. -/
theorem magnitude_ofInt (h : i.natAbs ≤ 2 ^ 63) : magnitude (ofInt i) = bitsOf i.natAbs := by
  have hlt := bitsOf_lt h
  unfold magnitude
  rw [toNat_ofInt h]
  split <;> omega

/-- An integer is never read as NaN. -/
theorem isNaN_ofInt (h : i.natAbs ≤ 2 ^ 63) : isNaN (ofInt i) = false := by
  have hlt := bitsOf_lt h
  unfold isNaN
  rw [magnitude_ofInt h, decide_eq_false_iff_not]
  omega

/-- The place of an integer in the order of the doubles. -/
theorem place_ofInt (h : i.natAbs ≤ 2 ^ 63) :
    place (ofInt i) = if i < 0 then -(bitsOf i.natAbs : Int) else bitsOf i.natAbs := by
  have hlt := bitsOf_lt h
  unfold place
  rw [magnitude_ofInt h, toNat_ofInt h]
  split <;> split <;> omega

/-- Integers are placed in their order, roundings included. -/
theorem place_ofInt_mono (hi : i.natAbs ≤ 2 ^ 63) (hj : j.natAbs ≤ 2 ^ 63) (h : i ≤ j) :
    place (ofInt i) ≤ place (ofInt j) := by
  rw [place_ofInt hi, place_ofInt hj]
  split
  · split
    · have hmono := @bitsOf_mono j.natAbs i.natAbs (by omega)
      omega
    · omega
  · split
    · omega
    · have hmono := @bitsOf_mono i.natAbs j.natAbs (by omega)
      omega

/-- Integers of at most 53 bits keep apart. -/
theorem place_ofInt_lt (hi : i.natAbs ≤ 2 ^ 53) (hj : j.natAbs ≤ 2 ^ 53) (h : i < j) :
    place (ofInt i) < place (ofInt j) := by
  rw [place_ofInt (by omega), place_ofInt (by omega)]
  split
  · split
    · have hmono := @bitsOf_strictMono j.natAbs i.natAbs (by omega) hi
      omega
    · have hpos := @bitsOf_strictMono 0 i.natAbs (by omega) hi
      omega
  · split
    · omega
    · have hmono := @bitsOf_strictMono i.natAbs j.natAbs (by omega) hj
      omega

/-- Integers up to `2 ^ 53` compare as numbers do. -/
theorem le_ofInt_iff (hi : i.natAbs ≤ 2 ^ 53) (hj : j.natAbs ≤ 2 ^ 53) : le (ofInt i) (ofInt j) = true ↔ i ≤ j := by
  unfold le
  rw [isNaN_ofInt (by omega), isNaN_ofInt (by omega), Bool.not_false, Bool.true_and, Bool.true_and, decide_eq_true_iff]
  constructor
  · intro h
    by_contra hlt
    have hback := place_ofInt_lt hj hi (by omega)
    omega
  · exact place_ofInt_mono (by omega) (by omega)

/-- The order of integers as doubles. -/
theorem le_ofInt (hi : i.natAbs ≤ 2 ^ 63) (hj : j.natAbs ≤ 2 ^ 63) (h : i ≤ j) : le (ofInt i) (ofInt j) = true := by
  unfold le
  rw [isNaN_ofInt hi, isNaN_ofInt hj, decide_eq_true (place_ofInt_mono hi hj h)]
  rfl

end OfInt

end Lib.Binary64
