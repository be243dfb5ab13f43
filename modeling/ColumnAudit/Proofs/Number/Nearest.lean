import ColumnAudit.Proofs.Number.Binary64
import Mathlib.Algebra.Order.Field.Basic
import Mathlib.Data.Rat.Lemmas
import Mathlib.Tactic.Positivity
import Mathlib.Tactic.Ring

/-! # Rounding and order

Rounding keeps the order (`rounded_mono`), keeps what the format holds (`rounded_dyadic`) and, where
numbers are normal, is off by at most the 2⁵³rd part (`within_rounded`). This is first shown for the
quotients of natural numbers that the operations round, then for rational numbers, so that the value
of a chain of operations (`HasValue`) is a chain of roundings of exact values. `nearestWhole` does the
same for the rounding to whole numbers.
-/

namespace ColumnAudit.Number
set_option autoImplicit false

/-! ## Rounded division -/

/-- A rounded quotient stays at or below a number exactly if the quotient stays below the half above
it, or is that half and the number is even. -/
theorem roundDiv_le_iff (num : Nat) {den : Nat} (hden : 0 < den) (c : Nat) :
    roundDiv num den ≤ c ↔
      2 * num < 2 * (den * c) + den ∨ 2 * num = 2 * (den * c) + den ∧ c % 2 = 0 := by
  have hnum := Nat.div_add_mod num den
  have hr := Nat.mod_lt num hden
  have hcases := roundDiv_cases num den
  rcases Nat.lt_trichotomy c (num / den) with hc | hc | hc
  · have hmul : den * (c + 1) ≤ den * (num / den) := Nat.mul_le_mul_left den hc
    rw [Nat.mul_succ] at hmul
    omega
  · rw [hc, roundDiv]
    split
    · omega
    · split
      · omega
      · split <;> omega
  · have hmul : den * (num / den + 1) ≤ den * c := Nat.mul_le_mul_left den hc
    rw [Nat.mul_succ] at hmul
    omega

theorem roundDiv_mono {num₁ den₁ num₂ den₂ : Nat} (h₁ : 0 < den₁) (h₂ : 0 < den₂)
    (h : num₁ * den₂ ≤ num₂ * den₁) : roundDiv num₁ den₁ ≤ roundDiv num₂ den₂ := by
  have hself := (roundDiv_le_iff num₂ h₂ _).1 (Nat.le_refl (roundDiv num₂ den₂))
  rw [roundDiv_le_iff num₁ h₁]
  generalize roundDiv num₂ den₂ = c at hself ⊢
  have hscaled : den₂ * (2 * num₁) ≤ den₁ * (2 * num₂) := by nlinarith
  have hhalf : den₁ * (2 * (den₂ * c) + den₂) = den₂ * (2 * (den₁ * c) + den₁) := by ring
  rcases hself with hlt | ⟨heq, heven⟩
  · have hbelow := Nat.mul_lt_mul_of_pos_left hlt h₁
    rw [hhalf] at hbelow
    exact .inl (Nat.lt_of_mul_lt_mul_left (hscaled.trans_lt hbelow))
  · rw [heq, hhalf] at hscaled
    rcases Nat.lt_or_eq_of_le (Nat.le_of_mul_le_mul_left hscaled h₂) with hlt | heq
    · exact .inl hlt
    · exact .inr ⟨heq, heven⟩

theorem roundDiv_mul_right (c : Nat) {den : Nat} (hden : 0 < den) : roundDiv (c * den) den = c := by
  rw [roundDiv, Nat.mul_div_cancel _ hden, Nat.mul_mod_left]
  exact if_pos hden

namespace Binary64

theorem log2_le_log2 {a b : Nat} (h : a ≤ b) : a.log2 ≤ b.log2 := by
  rcases Nat.eq_zero_or_pos a with rfl | ha
  · rw [Nat.log2_zero]
    exact Nat.zero_le _
  · have hb : b ≠ 0 := by omega
    rw [Nat.le_log2 hb]
    exact (Nat.log2_self_le ha.ne').trans h

section Multiples
variable {num den c : Nat} (hden : 0 < den)
include hden

/-- A quotient is not rounded over a multiple of the spacing. -/
theorem nearest_le_of_le (h : num ≤ c * spacing (num / den) * den) :
    nearest num den ≤ c * spacing (num / den) := by
  have hscale : 0 < den * spacing (num / den) := Nat.mul_pos hden (spacing_pos _)
  have hle : num ≤ c * (den * spacing (num / den)) := h.trans_eq (by ring)
  have hmono := roundDiv_mono hscale hscale (Nat.mul_le_mul_right _ hle)
  rw [roundDiv_mul_right c hscale] at hmono
  exact Nat.mul_le_mul_right _ hmono

theorem le_nearest_of_le (h : c * spacing (num / den) * den ≤ num) :
    c * spacing (num / den) ≤ nearest num den := by
  have hscale : 0 < den * spacing (num / den) := Nat.mul_pos hden (spacing_pos _)
  have hle : c * (den * spacing (num / den)) ≤ num := Eq.trans_le (by ring) h
  have hmono := roundDiv_mono hscale hscale (Nat.mul_le_mul_right _ hle)
  rw [roundDiv_mul_right c hscale] at hmono
  exact Nat.mul_le_mul_right _ hmono

end Multiples

theorem exists_mul_spacing {n e : Nat} (h : n.log2 - 52 ≤ e) : ∃ c, 2 ^ e = c * spacing n := by
  refine ⟨2 ^ (e - (n.log2 - 52)), ?_⟩
  have hspacing : spacing n = 2 ^ (n.log2 - 52) := rfl
  rw [hspacing, ← Nat.pow_add, Nat.sub_add_cancel h]

theorem spacing_mono {a b : Nat} (h : a ≤ b) : spacing a ≤ spacing b :=
  Nat.pow_le_pow_right Nat.two_pos (Nat.sub_le_sub_right (log2_le_log2 h) 52)

/-- Rounding keeps the order. Where the spacing grows, a power of two lies between the quotients,
and neither is rounded over it. -/
theorem nearest_mono {num₁ den₁ num₂ den₂ : Nat} (h₁ : 0 < den₁) (h₂ : 0 < den₂)
    (h : num₁ * den₂ ≤ num₂ * den₁) : nearest num₁ den₁ ≤ nearest num₂ den₂ := by
  have hquotients : num₁ / den₁ ≤ num₂ / den₂ := by
    rw [Nat.le_div_iff_mul_le h₂]
    refine Nat.le_of_mul_le_mul_right ?_ h₁
    calc num₁ / den₁ * den₂ * den₁ = num₁ / den₁ * den₁ * den₂ := Nat.mul_right_comm ..
      _ ≤ num₁ * den₂ := Nat.mul_le_mul_right den₂ (Nat.div_mul_le_self num₁ den₁)
      _ ≤ num₂ * den₁ := h
  rcases (spacing_mono hquotients).eq_or_lt with hsame | hgrows
  · have hscaled : num₁ * (den₂ * spacing (num₁ / den₁)) ≤ num₂ * (den₁ * spacing (num₁ / den₁)) := by
      rw [← Nat.mul_assoc, ← Nat.mul_assoc]
      exact Nat.mul_le_mul_right _ h
    have hmono := roundDiv_mono (Nat.mul_pos h₁ (spacing_pos _)) (Nat.mul_pos h₂ (spacing_pos _))
      hscaled
    simp only [nearest, ← hsame]
    exact Nat.mul_le_mul_right _ hmono
  · have hexponents : (num₁ / den₁).log2 - 52 < (num₂ / den₂).log2 - 52 :=
      (Nat.pow_lt_pow_iff_right Nat.one_lt_two).1 hgrows
    have hne : num₂ / den₂ ≠ 0 := by
      intro hzero
      rw [hzero, Nat.log2_zero] at hexponents
      omega
    generalize hexponent : (num₂ / den₂).log2 = e at hexponents
    have hbelow : num₁ < 2 ^ e * den₁ := by
      rw [← Nat.div_lt_iff_lt_mul h₁]
      exact Nat.lt_log2_self.trans_le (Nat.pow_le_pow_right Nat.two_pos (by omega))
    have habove : 2 ^ e * den₂ ≤ num₂ := by
      rw [← Nat.le_div_iff_mul_le h₂, ← hexponent]
      exact Nat.log2_self_le hne
    -- The power of two is a multiple of the spacing on both sides.
    obtain ⟨c, hc⟩ := exists_mul_spacing (n := num₁ / den₁) (e := e) (by omega)
    obtain ⟨d, hd⟩ := exists_mul_spacing (n := num₂ / den₂) (e := e) (by omega)
    rw [hc] at hbelow
    rw [hd] at habove
    calc nearest num₁ den₁ ≤ c * spacing (num₁ / den₁) := nearest_le_of_le h₁ hbelow.le
      _ = d * spacing (num₂ / den₂) := hc.symm.trans hd
      _ ≤ nearest num₂ den₂ := le_nearest_of_le h₂ habove

theorem nearest_congr {num₁ den₁ num₂ den₂ : Nat} (h₁ : 0 < den₁) (h₂ : 0 < den₂)
    (h : num₁ * den₂ = num₂ * den₁) : nearest num₁ den₁ = nearest num₂ den₂ :=
  Nat.le_antisymm (nearest_mono h₁ h₂ h.le) (nearest_mono h₂ h₁ h.ge)

theorem nearest_of_multiple {num den c : Nat} (hden : 0 < den)
    (h : num = c * spacing (num / den) * den) : nearest num den = c * spacing (num / den) :=
  Nat.le_antisymm (nearest_le_of_le hden h.le) (le_nearest_of_le hden h.ge)

/-- From 2⁵² steps on, where numbers are normal, rounding is off by at most the 2⁵³rd part. -/
theorem nearest_error {num den : Nat} (hden : 0 < den) (hnormal : 2 ^ 52 ≤ num / den) :
    2 ^ 53 * (nearest num den * den) ≤ 2 ^ 53 * num + num ∧
      2 ^ 53 * num ≤ 2 ^ 53 * (nearest num den * den) + num := by
  have hspacing : 2 ^ 52 * spacing (num / den) ≤ num / den := by
    have hlog : 52 ≤ (num / den).log2 := (Nat.le_log2 (by omega)).2 hnormal
    have heq : spacing (num / den) = 2 ^ ((num / den).log2 - 52) := rfl
    rw [heq, ← Nat.pow_add, Nat.add_sub_cancel' hlog]
    exact Nat.log2_self_le (by omega)
  have hscale : 0 < den * spacing (num / den) := Nat.mul_pos hden (spacing_pos _)
  have hhigh := roundDiv_mul_le num (den * spacing (num / den))
  have hlow := le_roundDiv_mul num hscale
  have hgap : 2 ^ 52 * (den * spacing (num / den)) ≤ num :=
    calc 2 ^ 52 * (den * spacing (num / den)) = 2 ^ 52 * spacing (num / den) * den := by ring
      _ ≤ num / den * den := Nat.mul_le_mul_right den hspacing
      _ ≤ num := Nat.div_mul_le_self num den
  have hsteps : nearest num den * den =
      roundDiv num (den * spacing (num / den)) * (den * spacing (num / den)) := by
    simp only [nearest]
    ring
  rw [hsteps]
  omega

/-! ## Rounding of rational numbers -/

/-- The number of the format nearest to a rational number that is not negative, with no upper
limit. -/
def rounded (q : ℚ) : ℚ := (nearest (q.num.toNat * one) q.den : ℚ) / one

theorem one_rat_pos : (0 : ℚ) < one := Nat.cast_pos.2 one_pos

theorem num_mul_eq {num den : Nat} (hden : 0 < den) :
    (num / den : ℚ).num.toNat * den = num * (num / den : ℚ).den := by
  generalize hq : (num / den : ℚ) = q
  have hden' : (den : ℚ) ≠ 0 := Nat.cast_ne_zero.2 hden.ne'
  have hcross := (div_eq_div_iff hden' (Nat.cast_ne_zero.2 q.den_ne_zero)).1
    (hq.trans q.num_div_den.symm)
  have hnonneg : 0 ≤ q.num := by
    rw [Rat.num_nonneg, ← hq]
    positivity
  have hnum : (q.num : ℚ) = (q.num.toNat : ℚ) := by
    rw [← Int.cast_natCast, Int.toNat_of_nonneg hnonneg]
  rw [hnum] at hcross
  exact_mod_cast hcross.symm

theorem rounded_div (num : Nat) {den : Nat} (hden : 0 < den) :
    rounded (num / den) = (nearest (num * one) den : ℚ) / one := by
  have hcross : (num / den : ℚ).num.toNat * one * den = num * one * (num / den : ℚ).den := by
    rw [Nat.mul_right_comm, num_mul_eq hden, Nat.mul_right_comm]
  rw [rounded, nearest_congr (num / den : ℚ).den_pos hden hcross]

theorem rounded_mono {p q : ℚ} (h : p ≤ q) : rounded p ≤ rounded q := by
  have hcross : p.num.toNat * q.den ≤ q.num.toNat * p.den := by
    have hle := Rat.le_iff p q |>.1 h
    rcases le_or_gt p.num 0 with hp | hp
    · rw [Int.toNat_of_nonpos hp, Nat.zero_mul]
      exact Nat.zero_le _
    · have hq : 0 ≤ q.num := Rat.num_nonneg.2 ((Rat.num_pos.1 hp).le.trans h)
      rw [← Int.toNat_of_nonneg hp.le, ← Int.toNat_of_nonneg hq] at hle
      exact_mod_cast hle
  have hsteps : p.num.toNat * one * q.den ≤ q.num.toNat * one * p.den := by
    rw [Nat.mul_right_comm, Nat.mul_right_comm q.num.toNat]
    exact Nat.mul_le_mul_right one hcross
  have hmono := nearest_mono p.den_pos q.den_pos hsteps
  exact div_le_div_of_nonneg_right (Nat.cast_le.2 hmono) one_rat_pos.le

theorem rounded_nonneg (q : ℚ) : 0 ≤ rounded q := by
  unfold rounded
  positivity

theorem one_eq : one = 2 ^ 1074 := by decide +kernel

theorem one_eq_mul {e : Nat} (he : e ≤ 1074) : one = 2 ^ (1074 - e) * 2 ^ e := by
  rw [one_eq, ← Nat.pow_add, Nat.sub_add_cancel he]

/-- A number of at most 53 binary digits, none of them below the smallest step, is kept. -/
theorem rounded_dyadic {n e : Nat} (hn : n < 2 ^ 53) (he : e ≤ 1074) :
    rounded (n / 2 ^ e) = n / 2 ^ e := by
  have hpow : 0 < 2 ^ e := Nat.two_pow_pos e
  have hone := one_eq_mul he
  have hquotient : n * one / 2 ^ e = n * 2 ^ (1074 - e) := by
    rw [hone, ← Nat.mul_assoc, Nat.mul_div_cancel _ hpow]
  have hlog : (n * 2 ^ (1074 - e)).log2 - 52 ≤ 1074 - e := by
    rcases Nat.eq_zero_or_pos n with rfl | hpos
    · rw [Nat.zero_mul, Nat.log2_zero]
      omega
    · have hbelow : n * 2 ^ (1074 - e) < 2 ^ (53 + (1074 - e)) := by
        rw [Nat.pow_add]
        exact Nat.mul_lt_mul_of_pos_right hn (Nat.two_pow_pos _)
      have hlog := (Nat.log2_lt (Nat.mul_pos hpos (Nat.two_pow_pos _)).ne').2 hbelow
      omega
  obtain ⟨c, hc⟩ := exists_mul_spacing hlog
  have hexact : nearest (n * one) (2 ^ e) = n * 2 ^ (1074 - e) := by
    rw [nearest_of_multiple (c := n * c) hpow, hquotient, Nat.mul_assoc, ← hc]
    rw [hquotient, Nat.mul_assoc n, ← hc, hone, Nat.mul_assoc]
  have hdiv := rounded_div n hpow
  rw [hexact, Nat.cast_pow, Nat.cast_ofNat] at hdiv
  rw [hdiv, hone, Nat.cast_mul, Nat.cast_mul, Nat.cast_pow, Nat.cast_pow, Nat.cast_ofNat,
    mul_comm (n : ℚ), mul_div_mul_left _ _ (by positivity)]

theorem rounded_natCast {n : Nat} (hn : n < 2 ^ 53) : rounded n = n := by
  have h := rounded_dyadic hn (Nat.zero_le 1074)
  rwa [pow_zero, div_one] at h

theorem rounded_two_pow (k : ℕ) : rounded (2 ^ k) = 2 ^ k := by
  have hsteps : 2 ^ k * one = 2 ^ (k + 1074) := by rw [one_eq, ← Nat.pow_add]
  obtain ⟨c, hc⟩ := exists_mul_spacing (n := 2 ^ (k + 1074) / 1) (e := k + 1074) (by
    rw [Nat.div_one, Nat.log2_two_pow]
    exact Nat.sub_le ..)
  have hexact : nearest (2 ^ k * one) 1 = 2 ^ k * one := by
    rw [hsteps, nearest_of_multiple (c := c) Nat.one_pos (by rw [← hc, Nat.mul_one]), ← hc]
  have hdiv := rounded_div (2 ^ k) Nat.one_pos
  rw [hexact, Nat.cast_mul, mul_div_cancel_right₀ _ one_rat_pos.ne', Nat.cast_one, div_one] at hdiv
  exact_mod_cast hdiv

theorem rounded_le_two_pow {q : ℚ} {k : ℕ} (h : q ≤ 2 ^ k) : rounded q ≤ 2 ^ k :=
  (rounded_mono h).trans_eq (rounded_two_pow k)

theorem rounded_zero : rounded 0 = 0 := by
  have h := rounded_natCast (n := 0) (by norm_num)
  rwa [Nat.cast_zero] at h

/-- Zero, or not below the numbers that the format holds with all their digits. -/
def Normal (q : ℚ) : Prop := q = 0 ∨ 1 / 2 ^ 1022 ≤ q

theorem normal_of_le {q : ℚ} {e : ℕ} (he : e ≤ 1022) (h : 1 / 2 ^ e ≤ q) : Normal q :=
  .inr ((one_div_pow_le_one_div_pow_of_le one_le_two he).trans h)

theorem normal_natCast (n : ℕ) : Normal n := by
  rcases Nat.eq_zero_or_pos n with rfl | hpos
  · exact .inl Nat.cast_zero
  · refine normal_of_le (Nat.zero_le 1022) ?_
    rw [pow_zero, div_one]
    exact Nat.one_le_cast.2 hpos

namespace Normal
variable {q : ℚ}

theorem nonneg (h : Normal q) : 0 ≤ q := by
  rcases h with rfl | h
  · exact le_refl 0
  · exact le_trans (by positivity) h

theorem rounded (h : Normal q) : Normal (rounded q) := by
  rcases h with rfl | h
  · exact .inl rounded_zero
  · have hexact := rounded_dyadic (n := 1) (e := 1022) (by norm_num) (by norm_num)
    rw [Nat.cast_one] at hexact
    exact .inr (hexact.symm.trans_le (rounded_mono h))

theorem mul_right (h : Normal q) {c : ℚ} (hc : 1 ≤ c) : Normal (q * c) := by
  rcases h with rfl | h
  · exact .inl (zero_mul c)
  · exact .inr (h.trans (le_mul_of_one_le_right (Normal.nonneg (.inr h)) hc))

end Normal

/-- Two numbers that are apart by at most `n` roundings. -/
structure Within (n : ℕ) (p q : ℚ) : Prop where
  low : q * (1 - 1 / 2 ^ 53) ^ n ≤ p
  high : p * (1 - 1 / 2 ^ 53) ^ n ≤ q

theorem within_zero (n : ℕ) : Within n 0 0 := ⟨(zero_mul _).le, (zero_mul _).le⟩

theorem within_rounded {q : ℚ} (hnormal : Normal q) : Within 1 (rounded q) q := by
  rcases hnormal with rfl | hq
  · rw [rounded_zero]
    exact within_zero 1
  have hpos : 0 < q := lt_of_lt_of_le (by positivity) hq
  have hden : (0 : ℚ) < q.den := Nat.cast_pos.2 q.den_pos
  have hnum : (q.num.toNat : ℚ) = q * q.den := by
    rw [← Int.cast_natCast, Int.toNat_of_nonneg (Rat.num_nonneg.2 hpos.le), Rat.mul_den_eq_num]
  -- In steps the number is 2⁵² at least, which is where the error is relative.
  have hnormal : 2 ^ 52 ≤ q.num.toNat * one / q.den := by
    have hsteps : q.den ≤ q.num.toNat * 2 ^ 1022 := by
      rw [div_le_iff₀ (by positivity)] at hq
      have hscaled := mul_le_mul_of_nonneg_right hq hden.le
      rw [one_mul, mul_right_comm, ← hnum] at hscaled
      exact_mod_cast hscaled
    rw [Nat.le_div_iff_mul_le q.den_pos, one_eq_mul (e := 1022) (by omega), Nat.mul_left_comm]
    exact Nat.mul_le_mul_left _ hsteps
  obtain ⟨hhigh, hlow⟩ := nearest_error q.den_pos hnormal
  have hscale : (0 : ℚ) < one * q.den := mul_pos one_rat_pos hden
  have hexact : ((q.num.toNat * one : ℕ) : ℚ) = q * (one * q.den) := by
    rw [Nat.cast_mul, hnum]
    ring
  have hrounded : ((nearest (q.num.toNat * one) q.den * q.den : ℕ) : ℚ) =
      rounded q * (one * q.den) := by
    rw [rounded, Nat.cast_mul, ← mul_assoc, div_mul_cancel₀ _ one_rat_pos.ne']
  generalize nearest (q.num.toNat * one) q.den * q.den = result at *
  generalize q.num.toNat * one = exact at *
  rw [← Nat.cast_le (α := ℚ)] at hhigh hlow
  push_cast at hhigh hlow
  rw [hexact, hrounded] at hhigh hlow
  constructor
  · refine le_of_mul_le_mul_right ?_ hscale
    linarith
  · refine le_of_mul_le_mul_right ?_ hscale
    linarith

namespace Within
variable {m n : ℕ} {o p q p' q' : ℚ}

theorem trans (h : Within m o p) (h' : Within n p q) : Within (n + m) o q := by
  have hpart : (0 : ℚ) ≤ (1 - 1 / 2 ^ 53) := by norm_num
  constructor
  · rw [pow_add, ← mul_assoc]
    exact (mul_le_mul_of_nonneg_right h'.low (pow_nonneg hpart m)).trans h.low
  · rw [add_comm, pow_add, ← mul_assoc]
    exact (mul_le_mul_of_nonneg_right h.high (pow_nonneg hpart n)).trans h'.high

theorem mul_right (h : Within n p q) {c : ℚ} (hc : 0 ≤ c) : Within n (p * c) (q * c) := by
  constructor
  · rw [mul_right_comm]
    exact mul_le_mul_of_nonneg_right h.low hc
  · rw [mul_right_comm]
    exact mul_le_mul_of_nonneg_right h.high hc

theorem div (h : Within m p q) (h' : Within n p' q') (hp : 0 ≤ p) (hq : 0 ≤ q) (hp' : 0 < p')
    (hq' : 0 < q') : Within (m + n) (p / p') (q / q') := by
  have hpart : (0 : ℚ) ≤ (1 - 1 / 2 ^ 53) := by norm_num
  constructor
  · rw [pow_add, div_mul_eq_mul_div, div_le_div_iff₀ hq' hp', ← mul_assoc, mul_assoc _ _ p',
      mul_comm _ p']
    exact mul_le_mul h.low h'.high (mul_nonneg hp'.le (pow_nonneg hpart n)) hp
  · rw [pow_add, div_mul_eq_mul_div, div_le_div_iff₀ hp' hq', ← mul_assoc, mul_assoc _ _ q',
      mul_comm _ q']
    exact mul_le_mul h.high h'.low (mul_nonneg hq'.le (pow_nonneg hpart n)) hq

theorem symm (h : Within n p q) : Within n q p := ⟨h.high, h.low⟩

theorem abs_sub_le (h : Within n p q) (hn : n ≤ 5) (hp : 0 ≤ p) (hq : 0 ≤ q) :
    |p - q| ≤ q / 2 ^ 50 := by
  obtain ⟨hlow, hhigh⟩ := h
  have hfive : ((1 - 1 / 2 ^ 53) ^ 5 : ℚ) ≤ (1 - 1 / 2 ^ 53) ^ n :=
    pow_le_pow_of_le_one (by norm_num) (by norm_num) hn
  have hpart : 1 - 1 / 2 ^ 50 ≤ ((1 - 1 / 2 ^ 53) ^ n : ℚ) := le_trans (by norm_num) hfive
  have hinverse : 1 ≤ (1 + 1 / 2 ^ 50) * ((1 - 1 / 2 ^ 53) ^ n : ℚ) :=
    le_trans (by norm_num) (mul_le_mul_of_nonneg_left hfive (by norm_num))
  clear hfive
  generalize ((1 - 1 / 2 ^ 53) ^ n : ℚ) = part at *
  have hbelow : q * (1 - 1 / 2 ^ 50) ≤ p := (mul_le_mul_of_nonneg_left hpart hq).trans hlow
  have habove : p ≤ (1 + 1 / 2 ^ 50) * q :=
    calc p = p * 1 := (mul_one p).symm
      _ ≤ p * ((1 + 1 / 2 ^ 50) * part) := mul_le_mul_of_nonneg_left hinverse hp
      _ = (1 + 1 / 2 ^ 50) * (p * part) := by ring
      _ ≤ (1 + 1 / 2 ^ 50) * q := mul_le_mul_of_nonneg_left hhigh (by norm_num)
  rw [abs_sub_le_iff]
  constructor <;> linarith

end Within

/-! ## Numbers and their values -/

/-- A finite number that is not negative and stands for `q`. -/
def HasValue (x : Binary64) (q : ℚ) : Prop :=
  ∃ steps : Nat, x = finite false steps ∧ steps / one = q

theorem hasValue_ofRatio {num den : Nat} (hden : 0 < den) (hlimit : (num / den : ℚ) ≤ 2 ^ 200) :
    HasValue (ofRatio false num den) (rounded (num / den)) := by
  have hsteps : num * one ≤ 2 ^ 200 * one * den := by
    rw [div_le_iff₀ (Nat.cast_pos.2 hden)] at hlimit
    rw [Nat.mul_right_comm]
    exact Nat.mul_le_mul_right one (by exact_mod_cast hlimit)
  have hbound : 2 * (2 ^ 200 * one) < Nat.pow 2 1024 * one := by decide +kernel
  have hmono : nearest (num * one) den ≤ nearest (2 ^ 200 * one) 1 :=
    nearest_mono hden Nat.one_pos (by rw [Nat.mul_one]; exact hsteps)
  have hnearest := hmono.trans (nearest_le (Nat.mul_pos (Nat.two_pow_pos 200) one_pos))
  refine ⟨nearest (num * one) den, ?_, (rounded_div num hden).symm⟩
  unfold ofRatio
  exact if_pos (hnearest.trans_lt hbound)

theorem hasValue_ofNat {n : Nat} (hlimit : (n : ℚ) ≤ 2 ^ 200) : HasValue (ofNat n) (rounded n) := by
  have hratio : (n / (1 : ℕ) : ℚ) ≤ 2 ^ 200 := by rwa [Nat.cast_one, div_one]
  have h := hasValue_ofRatio Nat.one_pos hratio
  rwa [Nat.cast_one, div_one] at h

namespace HasValue
variable {x y : Binary64} {p q : ℚ}

theorem isFinite (h : HasValue x q) : x.isFinite := by
  obtain ⟨steps, rfl, -⟩ := h
  rfl

theorem value_eq (h : HasValue x q) : x.value = q := by
  obtain ⟨steps, rfl, hvalue⟩ := h
  exact hvalue

theorem nonneg (h : HasValue x q) : 0 ≤ q := by
  obtain ⟨steps, -, rfl⟩ := h
  positivity

theorem eq_iff (hx : HasValue x p) (hy : HasValue y q) : x = y ↔ p = q := by
  obtain ⟨m, rfl, rfl⟩ := hx
  obtain ⟨n, rfl, rfl⟩ := hy
  rw [div_left_inj' one_rat_pos.ne', Nat.cast_inj, finite.injEq]
  exact and_iff_right rfl

theorem mul (hx : HasValue x p) (hy : HasValue y q) (hlimit : p * q ≤ 2 ^ 200) :
    HasValue (x.mul y) (rounded (p * q)) := by
  obtain ⟨m, rfl, rfl⟩ := hx
  obtain ⟨n, rfl, rfl⟩ := hy
  have hratio : (m / one * (n / one) : ℚ) = (m * n : ℕ) / (one * one : ℕ) := by
    rw [div_mul_div_comm, Nat.cast_mul, Nat.cast_mul]
  rw [hratio] at hlimit ⊢
  rw [Binary64.mul, bne_self_eq_false]
  exact hasValue_ofRatio (Nat.mul_pos one_pos one_pos) hlimit

theorem div (hx : HasValue x p) (hy : HasValue y q) (hq : 0 < q) (hlimit : p / q ≤ 2 ^ 200) :
    HasValue (x.div y) (rounded (p / q)) := by
  obtain ⟨m, rfl, rfl⟩ := hx
  obtain ⟨n, rfl, rfl⟩ := hy
  have hn : 0 < n := by
    rw [div_pos_iff_of_pos_right one_rat_pos] at hq
    exact Nat.cast_pos.1 hq
  rw [div_div_div_cancel_right₀ one_rat_pos.ne'] at hlimit ⊢
  have hdiv : (finite false m).div (finite false n) = ofRatio false m n := if_neg hn.ne'
  rw [hdiv]
  exact hasValue_ofRatio hn hlimit

end HasValue
end Binary64

/-! ## Whole numbers -/

/-- The whole number nearest to a rational number that is not negative, a tie going to the even
one. -/
def nearestWhole (q : ℚ) : Nat := roundDiv q.num.toNat q.den

theorem nearestWhole_div (num : Nat) {den : Nat} (hden : 0 < den) :
    nearestWhole (num / den) = roundDiv num den := by
  have hcross := @Binary64.num_mul_eq num den hden
  have hden' := (num / den : ℚ).den_pos
  exact Nat.le_antisymm (roundDiv_mono hden' hden hcross.le) (roundDiv_mono hden hden' hcross.ge)

theorem nearestWhole_le_iff {q : ℚ} (hq : 0 ≤ q) (c : Nat) :
    nearestWhole q ≤ c ↔ q < c + 1 / 2 ∨ q = c + 1 / 2 ∧ c % 2 = 0 := by
  have hden : (0 : ℚ) < q.den := Nat.cast_pos.2 q.den_pos
  have hnum : ((2 * q.num.toNat : ℕ) : ℚ) = 2 * q.den * q := by
    rw [Nat.cast_mul, ← Int.cast_natCast q.num.toNat, Int.toNat_of_nonneg (Rat.num_nonneg.2 hq),
      ← Rat.mul_den_eq_num q, Nat.cast_ofNat]
    ring
  have hhalf : ((2 * (q.den * c) + q.den : ℕ) : ℚ) = 2 * q.den * (c + 1 / 2) := by
    push_cast
    ring
  have hscale : (0 : ℚ) < 2 * q.den := by positivity
  rw [nearestWhole, roundDiv_le_iff _ q.den_pos, ← Nat.cast_lt (α := ℚ), ← Nat.cast_inj (R := ℚ),
    hnum, hhalf, mul_lt_mul_iff_of_pos_left hscale, mul_right_inj' hscale.ne']

theorem nearestWhole_le_of_le {q : ℚ} (hq : 0 ≤ q) {c : Nat} (h : q ≤ c) : nearestWhole q ≤ c := by
  rw [nearestWhole_le_iff hq]
  exact .inl (h.trans_lt (lt_add_of_pos_right _ (by norm_num)))

theorem abs_nearestWhole_sub_le {q : ℚ} (hq : 0 ≤ q) : |nearestWhole q - q| ≤ 1 / 2 := by
  rw [abs_sub_le_iff]
  constructor
  · cases hn : nearestWhole q with
    | zero =>
      rw [Nat.cast_zero]
      linarith
    | succ n =>
      have hbelow : ¬ nearestWhole q ≤ n := by omega
      rw [nearestWhole_le_iff hq, not_or, not_lt] at hbelow
      rw [Nat.cast_succ]
      linarith [hbelow.1]
  · rcases (nearestWhole_le_iff hq _).1 (Nat.le_refl (nearestWhole q)) with habove | ⟨htie, -⟩
    · linarith
    · linarith

theorem nearestWhole_mono {p q : ℚ} (hp : 0 ≤ p) (h : p ≤ q) : nearestWhole p ≤ nearestWhole q := by
  have hself := (nearestWhole_le_iff (hp.trans h) _).1 (Nat.le_refl (nearestWhole q))
  rw [nearestWhole_le_iff hp]
  rcases hself with hlt | ⟨heq, heven⟩
  · exact .inl (h.trans_lt hlt)
  · rw [heq] at h
    exact h.lt_or_eq.imp id fun hpeq => ⟨hpeq, heven⟩

theorem Binary64.HasValue.roundTiesEven {x : Binary64} {q : ℚ} (h : x.HasValue q) :
    x.roundTiesEven.HasValue (nearestWhole q) := by
  obtain ⟨steps, rfl, rfl⟩ := h
  rw [nearestWhole_div steps one_pos]
  refine ⟨roundDiv steps one * one, rfl, ?_⟩
  rw [Nat.cast_mul, mul_div_assoc, div_self one_rat_pos.ne', mul_one]

end ColumnAudit.Number
