import Mathlib.Algebra.Group.Nat.Defs

/-!
# A tag and a number in one word

`pack s tag n` is `n ||| (tag <<< s)`. The number is or-ed in, not added and not
masked: below `2 ^ s` it stays apart from the tag, and from there on its upper
part merges with it.

Results:
1. `pack_mod`, `pack_div`: the two fields of a packed word.
2. `pack_eq_iff`: two packed words are equal exactly when their fields are;
   `pack_inj` when the numbers fit.
-/

namespace PackedId

def pack (s tag n : ℕ) : ℕ := n ||| tag <<< s

/-! ## 1. The fields -/

theorem pack_mod (s tag n : ℕ) : pack s tag n % 2 ^ s = n % 2 ^ s := by
  rw [pack, Nat.or_mod_two_pow, Nat.shiftLeft_eq, Nat.mul_mod_left, Nat.or_zero]

theorem pack_div (s tag n : ℕ) : pack s tag n / 2 ^ s = n / 2 ^ s ||| tag := by
  rw [pack, Nat.or_div_two_pow, Nat.shiftLeft_eq, Nat.mul_div_cancel _ (Nat.two_pow_pos s)]

theorem pack_div_of_lt {s n : ℕ} (tag : ℕ) (h : n < 2 ^ s) : pack s tag n / 2 ^ s = tag := by
  rw [pack_div, Nat.div_eq_of_lt h, Nat.zero_or]

theorem pack_mod_of_lt {s n : ℕ} (tag : ℕ) (h : n < 2 ^ s) : pack s tag n % 2 ^ s = n := by
  rw [pack_mod, Nat.mod_eq_of_lt h]

/-! ## 2. When two words are equal -/

theorem pack_eq_iff {s tag n tag' n' : ℕ} :
    pack s tag n = pack s tag' n' ↔
      n % 2 ^ s = n' % 2 ^ s ∧ (n / 2 ^ s ||| tag) = (n' / 2 ^ s ||| tag') := by
  rw [← pack_mod s tag n, ← pack_mod s tag' n', ← pack_div, ← pack_div]
  constructor
  · intro h
    rw [h]
    exact ⟨rfl, rfl⟩
  · rintro ⟨hmod, hdiv⟩
    rw [← Nat.div_add_mod (pack s tag n) (2 ^ s), hmod, hdiv, Nat.div_add_mod]

theorem pack_inj {s tag n tag' n' : ℕ} (h : n < 2 ^ s) (h' : n' < 2 ^ s) :
    pack s tag n = pack s tag' n' ↔ tag = tag' ∧ n = n' := by
  rw [pack_eq_iff, Nat.mod_eq_of_lt h, Nat.mod_eq_of_lt h', Nat.div_eq_of_lt h,
    Nat.div_eq_of_lt h', Nat.zero_or, Nat.zero_or, and_comm]

end PackedId
