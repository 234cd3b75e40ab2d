import Mathlib.Algebra.Order.Ring.Int

/-!
# Conversions between integral types

A value of a C++ integral type is its bits, and a conversion takes the value of
the target type that is congruent modulo two to the power of its width.

Results:
1. `toInt_ofInt_iff`: which integers a type holds.
2. `toInt_cast_iff`: a conversion keeps exactly the values in range.
3. `cast_cast_of_le`, `cast_cast_iff`: when converting forth and back is the
   identity.
-/

namespace IntegerCast

/-! ## Definitions -/

structure IntegralType where
  bits : ℕ
  signed : Bool
  bits_pos : 0 < bits := by decide
deriving DecidableEq

variable {I J : IntegralType}

abbrev IntegralType.Val (I : IntegralType) : Type := BitVec I.bits

def IntegralType.toInt (I : IntegralType) (x : I.Val) : Int :=
  if I.signed then BitVec.toInt x else BitVec.toNat x

def IntegralType.ofInt (I : IntegralType) (v : Int) : I.Val := BitVec.ofInt I.bits v

/-- `static_cast<J>` of a value of `I`. -/
def IntegralType.cast (I J : IntegralType) (x : I.Val) : J.Val := J.ofInt (I.toInt x)

/-- The type has the integer. -/
def IntegralType.InRange (I : IntegralType) (v : Int) : Prop :=
  if I.signed then -2 ^ (I.bits - 1) ≤ v ∧ v < 2 ^ (I.bits - 1) else 0 ≤ v ∧ v < 2 ^ I.bits

instance (I : IntegralType) (v : Int) : Decidable (I.InRange v) := by
  unfold IntegralType.InRange
  split <;> infer_instance

/-! ## 1. The values of a type -/

namespace CastLemmas

theorem toInt_signed (h : I.signed = true) (x : I.Val) : I.toInt x = BitVec.toInt x := if_pos h

theorem toInt_unsigned (h : I.signed = false) (x : I.Val) : I.toInt x = BitVec.toNat x :=
  if_neg (Bool.eq_false_iff.mp h)

theorem inRange_signed (h : I.signed = true) (v : Int) :
    I.InRange v ↔ -2 ^ (I.bits - 1) ≤ v ∧ v < 2 ^ (I.bits - 1) := by
  unfold IntegralType.InRange
  rw [if_pos h]

theorem inRange_unsigned (h : I.signed = false) (v : Int) :
    I.InRange v ↔ 0 ≤ v ∧ v < 2 ^ I.bits := by
  unfold IntegralType.InRange
  rw [if_neg (Bool.eq_false_iff.mp h)]

/-- The residue that the bits of an unsigned type are. -/
theorem toNat_ofInt (v : Int) : ((BitVec.ofInt I.bits v).toNat : Int) = v % 2 ^ I.bits := by
  have hpow : ((2 ^ I.bits : ℕ) : Int) = 2 ^ I.bits := by push_cast; rfl
  have hpos : (2 ^ I.bits : Int) ≠ 0 := pow_ne_zero _ (by decide)
  rw [BitVec.toNat_ofInt, hpow, Int.toNat_of_nonneg (Int.emod_nonneg v hpos)]

end CastLemmas

open CastLemmas

theorem inRange_toInt (x : I.Val) : I.InRange (I.toInt x) := by
  cases hs : I.signed with
  | true =>
    rw [inRange_signed hs, toInt_signed hs]
    exact ⟨BitVec.le_toInt x, BitVec.toInt_lt⟩
  | false =>
    have hlt : BitVec.toNat x < 2 ^ I.bits := BitVec.isLt x
    rw [inRange_unsigned hs, toInt_unsigned hs]
    exact ⟨Int.natCast_nonneg _, by exact_mod_cast hlt⟩

theorem ofInt_toInt (x : I.Val) : I.ofInt (I.toInt x) = x := by
  unfold IntegralType.ofInt
  cases hs : I.signed with
  | true => rw [toInt_signed hs, BitVec.ofInt_toInt]
  | false => rw [toInt_unsigned hs, BitVec.ofInt_natCast, BitVec.ofNat_toNat, BitVec.setWidth_eq]

theorem toInt_inj {x y : I.Val} (h : I.toInt x = I.toInt y) : x = y := by
  rw [← ofInt_toInt x, h, ofInt_toInt]

/-- The value of the type that is congruent to `v` is `v` exactly when `v` is in
its range. -/
theorem toInt_ofInt_iff {v : Int} : I.toInt (I.ofInt v) = v ↔ I.InRange v := by
  refine ⟨fun h => h ▸ inRange_toInt _, fun h => ?_⟩
  cases hs : I.signed with
  | true =>
    rw [inRange_signed hs] at h
    rw [toInt_signed hs]
    exact BitVec.toInt_ofInt_eq_self I.bits_pos h.1 h.2
  | false =>
    rw [inRange_unsigned hs] at h
    rw [toInt_unsigned hs, IntegralType.ofInt, toNat_ofInt, Int.emod_eq_of_lt h.1 h.2]

/-- `ofInt` only depends on the residue. -/
theorem ofInt_congr {v w : Int} (h : v % 2 ^ I.bits = w % 2 ^ I.bits) : I.ofInt v = I.ofInt w := by
  refine BitVec.eq_of_toNat_eq (Int.natCast_inj.mp ?_)
  rw [IntegralType.ofInt, IntegralType.ofInt, toNat_ofInt, toNat_ofInt, h]

theorem toInt_ofInt_emod (v : Int) : I.toInt (I.ofInt v) % 2 ^ I.bits = v % 2 ^ I.bits := by
  have hpow : ((2 ^ I.bits : ℕ) : Int) = 2 ^ I.bits := by push_cast; rfl
  cases hs : I.signed with
  | true => rw [toInt_signed hs, IntegralType.ofInt, BitVec.toInt_ofInt, ← hpow, Int.bmod_emod]
  | false => rw [toInt_unsigned hs, IntegralType.ofInt, toNat_ofInt, Int.emod_emod]

/-! ## 2. One conversion -/

theorem toInt_cast_iff {x : I.Val} : J.toInt (I.cast J x) = I.toInt x ↔ J.InRange (I.toInt x) :=
  toInt_ofInt_iff

/-! ## 3. Forth and back -/

/-- No bit is lost in a type at least as wide. -/
theorem cast_cast_of_le (h : I.bits ≤ J.bits) (x : I.Val) : J.cast I (I.cast J x) = x := by
  have hdvd : (2 ^ I.bits : Int) ∣ 2 ^ J.bits := pow_dvd_pow 2 h
  have hmod : J.toInt (I.cast J x) % 2 ^ I.bits = I.toInt x % 2 ^ I.bits := by
    rw [← Int.emod_emod_of_dvd _ hdvd, IntegralType.cast, toInt_ofInt_emod,
      Int.emod_emod_of_dvd _ hdvd]
  rw [IntegralType.cast, ofInt_congr hmod, ofInt_toInt]

/-- A wider signed type has every value of the narrower one. -/
theorem inRange_of_lt (hs : I.signed = true) (h : J.bits < I.bits) (y : J.Val) :
    I.InRange (J.toInt y) := by
  have hy := inRange_toInt y
  have hpow : (2 ^ J.bits : Int) ≤ 2 ^ (I.bits - 1) := by
    exact_mod_cast Nat.pow_le_pow_right (by decide) (by omega : J.bits ≤ I.bits - 1)
  have hhalf : (2 ^ (J.bits - 1) : Int) ≤ 2 ^ J.bits := by
    exact_mod_cast Nat.pow_le_pow_right (by decide) (by omega : J.bits - 1 ≤ J.bits)
  rw [inRange_signed hs]
  cases hJ : J.signed with
  | true =>
    rw [inRange_signed hJ] at hy
    omega
  | false =>
    rw [inRange_unsigned hJ] at hy
    omega

/-- Through a narrower type just the values in its range come back, for a signed
`I`. -/
theorem cast_cast_iff (hs : I.signed = true) (h : J.bits < I.bits) {x : I.Val} :
    J.cast I (I.cast J x) = x ↔ J.InRange (I.toInt x) := by
  have hback : I.toInt (J.cast I (I.cast J x)) = J.toInt (I.cast J x) :=
    toInt_cast_iff.mpr (inRange_of_lt hs h _)
  constructor
  · intro heq
    rw [heq] at hback
    exact toInt_cast_iff.mp hback.symm
  · intro hr
    exact toInt_inj (hback.trans (toInt_cast_iff.mpr hr))

end IntegerCast
