import ColumnAudit.Number.Binary64
import Mathlib.Algebra.Order.Field.Rat
import Mathlib.Tactic.FieldSimp
import Mathlib.Tactic.NormNum
import Mathlib.Tactic.Linarith

/-! # Exact facts about double-precision numbers

* `value` is the rational number that a finite number stands for, and `lt_iff_value_lt` says that
  comparing numbers is comparing their values.
* Rounding a quotient depends on its value alone (`ofRatio_mul_left`).
* `ofNat_div_self`: a count divided by itself is one. Counts may be large enough to be rounded when
  they become doubles; only from 2¹⁰²³ on could one turn into infinity.
-/

namespace ColumnAudit.Number
set_option autoImplicit false

/-! ## Rounded division -/

theorem roundDiv_mul_left {k : Nat} (hk : 0 < k) (num den : Nat) :
    roundDiv (k * num) (k * den) = roundDiv num den := by
  have hlt : ∀ a b : Nat, k * a < k * b ↔ a < b := fun a b => Nat.mul_lt_mul_left hk
  have htwo : ∀ a : Nat, 2 * (k * a) = k * (2 * a) := fun a => Nat.mul_left_comm 2 k a
  simp only [roundDiv, Nat.mul_div_mul_left _ _ hk, Nat.mul_mod_mul_left, htwo, hlt]

namespace Binary64

theorem one_pos : 0 < one := by decide +kernel

/-! ## Rounding -/

theorem spacing_pos (n : Nat) : 0 < spacing n := Nat.two_pow_pos _

theorem spacing_le {n : Nat} (hn : 0 < n) : spacing n ≤ n :=
  calc
    spacing n ≤ 2 ^ n.log2 := Nat.pow_le_pow_right Nat.two_pos (Nat.sub_le ..)
    _ ≤ n := Nat.log2_self_le (by omega)

theorem nearest_le {n : Nat} (hn : 0 < n) : nearest n 1 ≤ 2 * n := by
  have hround := roundDiv_mul_le n (spacing n)
  have hspacing := spacing_le hn
  simp only [nearest, Nat.div_one, Nat.one_mul]
  omega

theorem nearest_pos {n : Nat} (hn : 0 < n) : 0 < nearest n 1 := by
  have hround := le_roundDiv_mul n (spacing_pos n)
  have hspacing := spacing_le hn
  simp only [nearest, Nat.div_one, Nat.one_mul]
  omega

theorem nearest_mul_left {k : Nat} (hk : 0 < k) (num den : Nat) :
    nearest (k * num) (k * den) = nearest num den := by
  simp only [nearest, Nat.mul_div_mul_left _ _ hk, Nat.mul_assoc, roundDiv_mul_left hk]

/-- Rounding a quotient depends on its value alone. -/
theorem ofRatio_mul_left {k : Nat} (hk : 0 < k) (negative : Bool) (num den : Nat) :
    ofRatio negative (k * num) (k * den) = ofRatio negative num den := by
  simp only [ofRatio, Nat.mul_assoc, nearest_mul_left hk]

/-! ## Counts -/

theorem ofNat_eq_finite {n : Nat} (hn : 0 < n) (hbound : n < 2 ^ 1023) :
    ofNat n = finite false (nearest (n * one) 1) := by
  have hsteps := nearest_le (Nat.mul_pos hn one_pos)
  have hpow : Nat.pow 2 1024 * one = 2 * (2 ^ 1023 * one) := by decide +kernel
  have hlimit : n * one < 2 ^ 1023 * one := Nat.mul_lt_mul_of_pos_right hbound one_pos
  rw [ofNat, ofRatio, if_pos]
  rw [hpow]
  exact Nat.lt_of_le_of_lt hsteps (Nat.mul_lt_mul_of_pos_left hlimit (by omega))

/-- A count divided by itself is one. -/
theorem ofNat_div_self {n : Nat} (hn : 0 < n) (hbound : n < 2 ^ 1023) :
    (ofNat n).div (ofNat n) = ofNat 1 := by
  have hpos := nearest_pos (Nat.mul_pos hn one_pos)
  rw [ofNat_eq_finite hn hbound, div, if_neg hpos.ne']
  have hratio := ofRatio_mul_left hpos false 1 1
  rw [Nat.mul_one] at hratio
  exact hratio

/-! ## Values -/

/-- The rational number that a finite number stands for. -/
def value : Binary64 → ℚ
  | finite negative steps => signed negative steps / one
  | _ => 0

theorem ofNat_hundred : ofNat 100 = finite false (100 * one) := by decide +kernel

theorem value_ofNat_hundred : (ofNat 100).value = 100 := by
  have hone : (one : ℚ) ≠ 0 := Nat.cast_ne_zero.2 one_pos.ne'
  have hsigned : signed false (100 * one) = ((100 * one : Nat) : Int) := rfl
  rw [ofNat_hundred, value, hsigned, Int.cast_natCast, Nat.cast_mul, mul_div_assoc, div_self hone,
    mul_one]
  norm_num

/-- Comparing finite numbers is comparing their values. -/
theorem lt_iff_value_lt {x y : Binary64} (hx : x.isFinite) (hy : y.isFinite) :
    x.lt y ↔ x.value < y.value := by
  have hone : (0 : ℚ) < one := Nat.cast_pos.2 one_pos
  cases x with
  | nan => cases hx
  | infinite s => cases hx
  | finite s m =>
    cases y with
    | nan => cases hy
    | infinite t => cases hy
    | finite t n =>
      rw [lt, decide_eq_true_iff, value, value, div_lt_div_iff_of_pos_right hone, Int.cast_lt]

end Binary64
end ColumnAudit.Number
