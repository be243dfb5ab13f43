import ColumnAudit.Number.Decimal
import ColumnAudit.Proofs.Number.Significand

/-! # Decimals that read back

The fewest digits of a number are those of a decimal that lies between the bounds of the number.

* What lies between the bounds is rounded to the number (`Significand.nearest_of_between`).
* Seventeen digits are always enough (`nearestDecimal_seventeen`): a unit of the last of them is less
  than a spacing, and at a power of two less than half a spacing.
* So the fewest digits of a number that the format holds stand for a value that is rounded to it
  (`rounded_shortest`), and every decimal of that value is read as the number (`ofDecimal_eq`).
-/

namespace ColumnAudit.Number
set_option autoImplicit false

theorem abs_roundDiv_sub_le (num : Nat) {den : Nat} (hden : 0 < den) :
    2 * |(roundDiv num den : ℚ) - num / den| ≤ 1 := by
  have hden' : (0 : ℚ) < den := Nat.cast_pos.2 hden
  have hhigh : (2 * (roundDiv num den * den) : ℚ) ≤ 2 * num + den := by
    exact_mod_cast roundDiv_mul_le num den
  have hlow : (2 * num : ℚ) ≤ 2 * (roundDiv num den * den) + den := by
    exact_mod_cast le_roundDiv_mul num hden
  have herror : (roundDiv num den : ℚ) - num / den = (roundDiv num den * den - num) / den := by
    rw [sub_div, mul_div_cancel_right₀ _ hden'.ne']
  rw [herror, abs_div, abs_of_pos hden', ← mul_div_assoc, div_le_one hden', ← le_div_iff₀' two_pos,
    abs_le]
  constructor <;> linarith

namespace Binary64

/-! ## The bounds of a magnitude -/

/-- Whether a quotient lies between the bounds of a magnitude. -/
def Between (steps num den : Nat) : Prop :=
  let (lo, hi, closed) := readBackBounds steps
  if closed then lo * den ≤ num * (4 * one) ∧ num * (4 * one) ≤ hi * den
  else lo * den < num * (4 * one) ∧ num * (4 * one) < hi * den

/-- How many quarters of a spacing below a magnitude are rounded to it. -/
def quartersBelow (m e : Nat) : Nat := if m = 2 ^ 52 ∧ e ≠ 0 then 1 else 2

namespace Significand
variable {steps m e num den : Nat}

theorem readBackBounds_eq (h : Significand steps m e) :
    readBackBounds steps = (4 * (m * 2 ^ e) - quartersBelow m e * 2 ^ e,
      4 * (m * 2 ^ e) + 2 * 2 ^ e, m % 2 == 0) := by
  have hpos := Nat.two_pow_pos e
  have hm : steps = Nat.pow 2 52 * 2 ^ e ↔ m = 2 ^ 52 := by
    rw [h.eq]
    exact Nat.mul_left_inj hpos.ne'
  have he : 1 < 2 ^ e ↔ e ≠ 0 := Nat.one_lt_two_pow_iff
  simp only [readBackBounds, quartersBelow, h.spacing_eq, hm, he]
  rw [h.eq, Nat.mul_div_cancel _ hpos]
  split <;> simp only [Nat.one_mul]

/-- The quotients between the bounds of a magnitude: in quarters of a spacing, those that are off by two
at most, and by one at most below a power of two. -/
theorem between_iff (h : Significand steps m e) (hm : 0 < m) :
    Between steps num den ↔
      (4 * (m * (den * 2 ^ e)) < 4 * (num * one) + quartersBelow m e * (den * 2 ^ e) ∨
        4 * (m * (den * 2 ^ e)) = 4 * (num * one) + quartersBelow m e * (den * 2 ^ e) ∧
          m % 2 = 0) ∧
      (4 * (num * one) < 4 * (m * (den * 2 ^ e)) + 2 * (den * 2 ^ e) ∨
        4 * (num * one) = 4 * (m * (den * 2 ^ e)) + 2 * (den * 2 ^ e) ∧ m % 2 = 0) := by
  have hkle : quartersBelow m e ≤ 2 := by
    rw [quartersBelow]
    split <;> decide
  have hbounds := h.readBackBounds_eq
  generalize quartersBelow m e = k at hkle hbounds ⊢
  have hnum : num * (4 * one) = 4 * (num * one) := Nat.mul_left_comm ..
  have hscaled : m * 2 ^ e * den = m * (den * 2 ^ e) := by rw [Nat.mul_assoc, Nat.mul_comm den]
  have hlo : (4 * (m * 2 ^ e) - k * 2 ^ e) * den = 4 * (m * (den * 2 ^ e)) - k * (den * 2 ^ e) := by
    rw [Nat.sub_mul, Nat.mul_assoc 4, hscaled, Nat.mul_assoc k, Nat.mul_comm den]
  have hhi : (4 * (m * 2 ^ e) + 2 * 2 ^ e) * den = 4 * (m * (den * 2 ^ e)) + 2 * (den * 2 ^ e) := by
    rw [Nat.add_mul, Nat.mul_assoc 4, hscaled, Nat.mul_assoc 2, Nat.mul_comm den]
  have hfit : k * (den * 2 ^ e) ≤ 4 * (m * (den * 2 ^ e)) := by
    have hone := Nat.mul_le_mul_right (den * 2 ^ e) hm
    have htwo := Nat.mul_le_mul_right (den * 2 ^ e) hkle
    omega
  simp only [Between, hbounds, hlo, hhi, hnum, beq_iff_eq]
  split <;> omega

/-- What lies between the bounds of a magnitude is rounded to it. -/
theorem nearest_of_between (h : Significand steps m e) (hm : 0 < m) (hden : 0 < den)
    (hbetween : Between steps num den) : nearest (num * one) den = steps := by
  rw [h.between_iff hm] at hbetween
  obtain ⟨hlow, hhigh⟩ := hbetween
  rw [h.eq]
  have hscale : 0 < den * 2 ^ e := Nat.mul_pos hden (Nat.two_pow_pos e)
  have hlimit : (m + 1) * (den * 2 ^ e) ≤ 2 ^ 53 * (den * 2 ^ e) := Nat.mul_le_mul_right _ h.lt
  rw [Nat.add_one_mul m] at hlimit
  rcases Nat.lt_or_ge (num * one) (m * (den * 2 ^ e)) with hbelow | habove
  · by_cases hedge : m = 2 ^ 52 ∧ e ≠ 0
    · obtain ⟨rfl, hne⟩ := hedge
      obtain ⟨e, rfl⟩ := Nat.exists_eq_add_one_of_ne_zero hne
      have hle := hlow.elim Nat.le_of_lt fun htie => htie.1.le
      rw [quartersBelow, if_pos ⟨rfl, hne⟩, Nat.one_mul] at hle
      exact nearest_eq_two_pow hden hle hbelow
    · rw [quartersBelow, if_neg hedge] at hlow
      refine nearest_eq_of_close hden ?_ (by omega) (by omega) (by omega)
      have hfull : e = 0 ∨ 2 ^ 52 < m := by
        have hfull := h.full
        omega
      refine hfull.imp id fun hfull => ?_
      have hmul : (2 ^ 52 + 1) * (den * 2 ^ e) ≤ m * (den * 2 ^ e) := Nat.mul_le_mul_right _ hfull
      omega
  · refine nearest_eq_of_close hden (h.full.imp id fun hfull => ?_) (by omega) (by omega) (by omega)
    exact (Nat.mul_le_mul_right _ hfull).trans habove

end Significand
end Binary64

/-! ## Values of decimals -/

namespace Decimal

/-- The rational number that a decimal stands for. -/
def value (d : Decimal) : ℚ := d.digits * 10 ^ d.exponent

/-- The value of a decimal as a quotient of natural numbers. -/
def ratio (d : Decimal) : Nat × Nat :=
  if 0 ≤ d.exponent then (d.digits * Nat.pow 10 d.exponent.toNat, 1)
  else (d.digits, Nat.pow 10 (-d.exponent).toNat)

theorem ratio_pos (d : Decimal) : 0 < d.ratio.2 := by
  rw [ratio]
  split
  · exact Nat.one_pos
  · exact Nat.pow_pos (by decide)

theorem value_eq_ratio (d : Decimal) : d.value = d.ratio.1 / d.ratio.2 := by
  rw [value, ratio]
  split
  case isTrue h =>
    obtain ⟨k, hk⟩ := Int.eq_ofNat_of_zero_le h
    rw [hk, zpow_natCast, Int.toNat_natCast]
    simp
  case isFalse h =>
    obtain ⟨k, hk⟩ := Int.eq_ofNat_of_zero_le (show 0 ≤ -d.exponent by omega)
    rw [hk, Int.toNat_natCast, ← neg_neg d.exponent, hk, zpow_neg, zpow_natCast, div_eq_mul_inv]
    simp

end Decimal

namespace Binary64
variable {steps m e : Nat}

theorem readsBack_iff (steps : Nat) (d : Decimal) :
    readsBack steps d.digits d.exponent ↔ Between steps d.ratio.1 d.ratio.2 := by
  simp only [readsBack, Between, Decimal.ratio]
  cases (readBackBounds steps).2.2 <;> simp

/-- A decimal that reads back as a magnitude is rounded to it. -/
theorem rounded_of_readsBack (h : Significand steps m e) (hm : 0 < m) {d : Decimal}
    (hback : readsBack steps d.digits d.exponent) : rounded d.value = steps / one := by
  rw [readsBack_iff] at hback
  rw [d.value_eq_ratio, rounded_div _ d.ratio_pos, h.nearest_of_between hm d.ratio_pos hback]

/-! ## Seventeen digits -/

theorem inUnits_pos {den : Nat} (hden : 0 < den) (num : Nat) (exponent : Int) :
    0 < (inUnits num den exponent).2 := by
  rw [inUnits]
  split
  · exact Nat.mul_pos hden (Nat.pow_pos (by decide))
  · exact hden

theorem inUnits_eq (num den : Nat) (exponent : Int) :
    ((inUnits num den exponent).1 / (inUnits num den exponent).2 : ℚ) =
      num / den / 10 ^ exponent := by
  rw [inUnits]
  split
  case isTrue h =>
    obtain ⟨k, rfl⟩ := Int.eq_ofNat_of_zero_le h
    simp [div_div]
  case isFalse h =>
    obtain ⟨k, hk⟩ := Int.eq_ofNat_of_zero_le (show 0 ≤ -exponent by omega)
    rw [hk, Int.toNat_natCast, ← neg_neg exponent, hk, zpow_neg, zpow_natCast, div_inv_eq_mul,
      div_mul_eq_mul_div]
    simp

theorem lt_pow_length (n : Nat) : n < 10 ^ (digitsOf n).length :=
  (Nat.length_toDigits_le_iff (by decide) Nat.length_toDigits_pos).1 (Nat.le_refl _)

theorem pow_length_le {n : Nat} (hn : 0 < n) : 10 ^ ((digitsOf n).length - 1) ≤ n := by
  rcases Nat.eq_zero_or_pos ((digitsOf n).length - 1) with hone | hmore
  · rw [hone]
    exact hn
  · have hlength := Nat.length_toDigits_le_iff (n := n) (b := 10) (by decide) hmore
    rw [← Nat.not_lt, ← hlength]
    have hdef : digitsOf n = Nat.toDigits 10 n := rfl
    rw [← hdef]
    omega

theorem pow_leadingExponent_le {num den : Nat} (hnum : 0 < num) (hden : 0 < den) :
    (10 : ℚ) ^ leadingExponent num den ≤ num / den := by
  have hden' : (0 : ℚ) < den := Nat.cast_pos.2 hden
  have hnum' : (0 : ℚ) < num := Nat.cast_pos.2 hnum
  rw [leadingExponent]
  split
  case isTrue h =>
    have hlead := pow_length_le (Nat.div_pos h hden)
    have hpos : 0 < (digitsOf (num / den)).length := Nat.length_toDigits_pos
    have hexponent : ((digitsOf (num / den)).length : Int) - 1 =
        (((digitsOf (num / den)).length - 1 : Nat) : Int) := by omega
    rw [hexponent, zpow_natCast, le_div_iff₀ hden']
    exact_mod_cast (Nat.mul_le_mul_right den hlead).trans (Nat.div_mul_le_self num den)
  case isFalse h =>
    have hlead := lt_pow_length ((den + num - 1) / num - 1)
    have hexponent : Int.neg (digitsOf ((den + num - 1) / num - 1)).length =
        -((digitsOf ((den + num - 1) / num - 1)).length : Int) := rfl
    rw [hexponent, zpow_neg, zpow_natCast]
    generalize (digitsOf ((den + num - 1) / num - 1)).length = k at hlead ⊢
    have hceil : (den + num - 1) / num ≤ 10 ^ k := by omega
    have hmul : den ≤ 10 ^ k * num := by
      have hlt := Nat.lt_mul_div_succ (den + num - 1) hnum
      have hscaled := Nat.mul_le_mul_left num hceil
      rw [Nat.mul_add_one] at hlt
      rw [Nat.mul_comm]
      omega
    rw [inv_le_comm₀ (by positivity) (by positivity), inv_div, div_le_iff₀ hnum']
    exact_mod_cast hmul

section Seventeen
variable (h : Significand steps m e) (hm : 0 < m)
include h hm

/-- `Significand.between_iff` for the value of a decimal, without the ties. -/
theorem readsBack_of_close {d : Decimal}
    (hbelow : 4 * (steps - d.value * one) < quartersBelow m e * 2 ^ e)
    (habove : 4 * (d.value * one - steps) < 2 * 2 ^ e) : readsBack steps d.digits d.exponent := by
  have hden : (0 : ℚ) < d.ratio.2 := Nat.cast_pos.2 d.ratio_pos
  have hbelow' := mul_lt_mul_of_pos_right hbelow hden
  have habove' := mul_lt_mul_of_pos_right habove hden
  have hexact : (d.ratio.1 * one : ℚ) = d.value * one * d.ratio.2 := by
    rw [d.value_eq_ratio, mul_right_comm, div_mul_cancel₀ _ hden.ne']
  have hheld : (m * (d.ratio.2 * 2 ^ e) : ℚ) = steps * d.ratio.2 := by
    rw [h.eq]
    push_cast
    ring
  rw [readsBack_iff, h.between_iff hm]
  refine ⟨.inl ?_, .inl ?_⟩
  · rw [← Nat.cast_lt (α := ℚ)]
    push_cast
    rw [hexact, hheld]
    linarith
  · rw [← Nat.cast_lt (α := ℚ)]
    push_cast
    rw [hexact, hheld]
    linarith

/-- A decimal reads back as a magnitude if it is off by half a unit of the seventeenth digit at most. -/
theorem readsBack_of_error {d : Decimal} {unit : ℚ} (hunit : unit * one * 10 ^ 16 ≤ steps)
    (herror : 2 * |d.value - steps / one| ≤ unit) : readsBack steps d.digits d.exponent := by
  have hone := one_rat_pos
  have hpow : (0 : ℚ) < 2 ^ e := by positivity
  rw [h.eq] at hunit
  push_cast at hunit
  have hspacing : unit * one < 2 ^ e := by
    have hlimit : (m * 2 ^ e : ℚ) ≤ 2 ^ 53 * 2 ^ e :=
      mul_le_mul_of_nonneg_right (by exact_mod_cast h.lt.le) hpow.le
    linarith
  have hquarters : 2 * (unit * one) < quartersBelow m e * 2 ^ e := by
    rw [quartersBelow]
    split
    case isTrue hedge =>
      rw [hedge.1] at hunit
      push_cast at hunit ⊢
      linarith
    case isFalse =>
      push_cast
      linarith
  have hscaled : 2 * |d.value * one - steps| ≤ unit * one := by
    have herror' := mul_le_mul_of_nonneg_right herror hone.le
    rwa [mul_assoc, ← abs_of_pos hone, ← abs_mul, abs_of_pos hone, sub_mul,
      div_mul_cancel₀ _ hone.ne'] at herror'
  obtain ⟨hlow, hhigh⟩ := abs_le.1 ((le_div_iff₀' two_pos).2 hscaled)
  exact readsBack_of_close h hm (by linarith) (by linarith)

theorem readsBack_nearest {exponent : Int} (hunit : (10 : ℚ) ^ exponent * one * 10 ^ 16 ≤ steps) :
    readsBack steps (roundDiv (inUnits steps one exponent).1 (inUnits steps one exponent).2)
      exponent := by
  have hpos : (0 : ℚ) < 10 ^ exponent := zpow_pos (by norm_num) exponent
  have herror := abs_roundDiv_sub_le (inUnits steps one exponent).1 (inUnits_pos one_pos steps exponent)
  rw [inUnits_eq] at herror
  generalize roundDiv (inUnits steps one exponent).1 (inUnits steps one exponent).2 = near at herror ⊢
  have hscaled : (near * 10 ^ exponent - steps / one : ℚ) =
      (near - steps / one / 10 ^ exponent) * 10 ^ exponent := by
    rw [sub_mul, div_mul_cancel₀ _ hpos.ne']
  refine readsBack_of_error h hm (d := ⟨near, exponent⟩) hunit ?_
  rw [Decimal.value, hscaled, abs_mul, abs_of_pos hpos, ← mul_assoc]
  exact mul_le_of_le_one_left hpos.le herror

theorem nearestDecimal_seventeen : (nearestDecimal steps 17).isSome := by
  have hsteps : 0 < steps := h.eq ▸ Nat.mul_pos hm (Nat.two_pow_pos e)
  have hlead := (le_div_iff₀ one_rat_pos).1 (pow_leadingExponent_le hsteps one_pos)
  have hexponent : leadingExponent steps one = leadingExponent steps one + 1 - (17 : Nat) + 16 := by
    omega
  unfold nearestDecimal
  generalize leadingExponent steps one + 1 - (17 : Nat) = exponent at hexponent ⊢
  rw [hexponent, zpow_add₀ (by norm_num), zpow_ofNat, mul_right_comm] at hlead
  have hback := readsBack_nearest h hm hlead
  dsimp only
  rw [if_pos hback]
  rfl

end Seventeen

theorem readsBack_of_nearestDecimal {count : Nat} {d : Decimal}
    (h : nearestDecimal steps count = some d) : readsBack steps d.digits d.exponent := by
  unfold nearestDecimal at h
  generalize leadingExponent steps one + 1 - (count : Int) = exponent at h
  dsimp only at h
  generalize roundDiv _ _ = near at h
  generalize (if near = _ then _ else _) = far at h
  split at h
  · cases h
    assumption
  · split at h
    · cases h
      assumption
    · cases h

theorem readsBack_shortestOf (h : Significand steps m e) (hm : 0 < m) :
    readsBack steps (shortestOf steps).digits (shortestOf steps).exponent := by
  have hsome : (((List.range 17).map (· + 1)).findSome? (nearestDecimal steps)).isSome :=
    List.findSome?_isSome_iff.2 ⟨17, by decide, nearestDecimal_seventeen h hm⟩
  obtain ⟨d, hd⟩ := Option.isSome_iff_exists.1 hsome
  obtain ⟨count, -, hcount⟩ := List.exists_of_findSome?_eq_some hd
  rw [shortestOf, hd]
  exact readsBack_of_nearestDecimal hcount

/-! ## Reading the fewest digits -/

theorem value_stripZeros (fuel : Nat) (d : Decimal) : (stripZeros fuel d).value = d.value := by
  induction fuel generalizing d with
  | zero => rfl
  | succ fuel ih =>
    rw [stripZeros]
    split
    case isTrue h =>
      have hdigits : d.digits = d.digits / 10 * 10 :=
        (Nat.div_mul_cancel (Nat.dvd_of_mod_eq_zero h.1)).symm
      rw [ih, Decimal.value, Decimal.value, zpow_add_one₀ (by norm_num)]
      nth_rewrite 2 [hdigits]
      push_cast
      ring
    case isFalse => rfl

/-- The fewest digits of a magnitude that the format holds are rounded to it. -/
theorem rounded_shortest (h : Significand steps m e) : rounded (shortest steps).value = steps / one := by
  rw [shortest]
  split
  case isTrue hzero =>
    rw [hzero, Decimal.value, Nat.cast_zero, zero_mul, zero_div, rounded_zero]
  case isFalse hne =>
    have hm : 0 < m := by
      rcases Nat.eq_zero_or_pos m with rfl | hm
      · exact absurd (h.eq.trans (Nat.zero_mul _)) hne
      · exact hm
    rw [value_stripZeros]
    exact rounded_of_readsBack h hm (readsBack_shortestOf h hm)

theorem value_lt (d : Decimal) : d.value < 10 ^ ((digitsOf d.digits).length + d.exponent) := by
  rw [Decimal.value, zpow_add₀ (by norm_num), zpow_natCast]
  refine mul_lt_mul_of_pos_right ?_ (zpow_pos (by norm_num) _)
  exact_mod_cast lt_pow_length d.digits

theorem le_value {d : Decimal} (h : d.digits ≠ 0) :
    10 ^ ((digitsOf d.digits).length + d.exponent - 1) ≤ d.value := by
  have hlength : 0 < (digitsOf d.digits).length := Nat.length_toDigits_pos
  have hexponent : (digitsOf d.digits).length + d.exponent - 1 =
      ((digitsOf d.digits).length - 1 : Nat) + d.exponent := by omega
  rw [Decimal.value, hexponent, zpow_add₀ (by norm_num), zpow_natCast]
  refine mul_le_mul_of_nonneg_right ?_ (zpow_pos (by norm_num) _).le
  exact_mod_cast pow_length_le (Nat.pos_of_ne_zero h)

/-- A decimal is read as the number that its value is rounded to. Values far outside the format, which
are not computed, are rounded to zero or beyond the largest number. -/
theorem ofDecimal_eq {d : Decimal} (hrounded : rounded d.value = steps / one)
    (hlimit : steps < Nat.pow 2 1024 * one) (negative : Bool) :
    ofDecimal negative d = finite negative steps := by
  have hsteps : ∀ {n : Nat}, rounded d.value ≤ n / one → steps ≤ n := by
    intro n hle
    rw [hrounded, div_le_div_iff_of_pos_right one_rat_pos] at hle
    exact_mod_cast hle
  rw [ofDecimal]
  split
  case isTrue hsmall =>
    obtain rfl : steps = 0 := by
      refine Nat.le_zero.1 (hsteps ?_)
      rw [Nat.cast_zero, zero_div]
      rcases hsmall with hzero | hsmall
      · rw [Decimal.value, hzero, Nat.cast_zero, zero_mul, rounded_zero]
      · have hvalue : d.value ≤ (1 : ℕ) / (10 ^ 400 : ℕ) := by
          refine (value_lt d).le.trans ((zpow_le_zpow_right₀ (by norm_num) hsmall.le).trans_eq ?_)
          rw [Nat.cast_one, Nat.cast_pow, Nat.cast_ofNat, one_div, zpow_neg, zpow_ofNat]
        have hden : 0 < 10 ^ 400 := pow_pos (by decide) 400
        have hzero : nearest (1 * one) (10 ^ 400) = 0 := by decide +kernel
        have hmono := rounded_mono hvalue
        rwa [rounded_div 1 hden, hzero, Nat.cast_zero, zero_div] at hmono
    rfl
  case isFalse hsmall =>
    rw [not_or] at hsmall
    split
    case isTrue hlarge =>
      have hvalue : (10 ^ 310 : ℕ) / (1 : ℕ) ≤ d.value := by
        refine le_trans ?_ (le_value hsmall.1)
        rw [Nat.cast_one, div_one, Nat.cast_pow, ← zpow_natCast]
        exact zpow_le_zpow_right₀ (by norm_num) (by omega)
      have hmono := rounded_mono hvalue
      rw [rounded_div _ Nat.one_pos, hrounded, div_le_div_iff_of_pos_right one_rat_pos,
        Nat.cast_le] at hmono
      have hbeyond : Nat.pow 2 1024 * one ≤ nearest (10 ^ 310 * one) 1 := by decide +kernel
      exact absurd hlimit (Nat.not_lt.2 (hbeyond.trans hmono))
    case isFalse =>
      have hnearest : nearest (d.ratio.1 * one) d.ratio.2 = steps := by
        rw [d.value_eq_ratio, rounded_div _ d.ratio_pos,
          div_left_inj' one_rat_pos.ne'] at hrounded
        exact_mod_cast hrounded
      have hratio : ofRatio negative d.ratio.1 d.ratio.2 = finite negative steps := by
        simp only [ofRatio, hnearest, if_pos hlimit]
      rw [← hratio, Decimal.ratio]
      split <;> rfl

end Binary64
end ColumnAudit.Number
