import ColumnAudit.Proofs.Number.Nearest

/-! # Numbers by their significands

A magnitude that the format holds is a count of spacings, the significand, with at most 53 binary digits.

* What is rounded has a significand (`exists_significand`), and what is close enough to a count of
  spacings is rounded to it (`nearest_eq_of_close`).
* The finite results of operations are held by the format (`held_ofRatio`, `held_div`).
-/

namespace ColumnAudit.Number
set_option autoImplicit false

theorem le_roundDiv_iff (num : Nat) {den : Nat} (hden : 0 < den) (c : Nat) :
    c ≤ roundDiv num den ↔
      2 * (den * c) < 2 * num + den ∨ 2 * (den * c) = 2 * num + den ∧ c % 2 = 0 := by
  cases c with
  | zero => simp only [Nat.mul_zero, Nat.zero_le, true_iff]; omega
  | succ c =>
    have hbelow := roundDiv_le_iff num hden c
    rw [Nat.mul_succ]
    omega

namespace Binary64

/-- A magnitude of `n` steps as a count `m` of spacings of `2 ^ e` steps, of which the format holds
those with at most 53 binary digits. Smaller spacings are used up first. -/
structure Significand (n m e : Nat) : Prop where
  eq : n = m * 2 ^ e
  lt : m < 2 ^ 53
  full : e = 0 ∨ 2 ^ 52 ≤ m

theorem spacing_eq {q e : Nat} (hlow : e = 0 ∨ 2 ^ 52 * 2 ^ e ≤ q) (hhigh : q < 2 ^ 53 * 2 ^ e) :
    spacing q = 2 ^ e := by
  have hexponent : q.log2 - 52 = e := by
    rw [← Nat.pow_add] at hhigh
    rcases Nat.eq_zero_or_pos q with rfl | hq
    · rcases hlow with rfl | hlow
      · rw [Nat.log2_zero]
      · exact absurd (Nat.mul_pos (Nat.two_pow_pos 52) (Nat.two_pow_pos e)) (by omega)
    · have hlt := (Nat.log2_lt (by omega)).2 hhigh
      rcases hlow with rfl | hlow
      · omega
      · rw [← Nat.pow_add] at hlow
        have hle := (Nat.le_log2 (by omega)).2 hlow
        omega
  have hspacing : spacing q = 2 ^ (q.log2 - 52) := rfl
  rw [hspacing, hexponent]

theorem Significand.spacing_eq {n m e : Nat} (h : Significand n m e) : spacing n = 2 ^ e := by
  refine Binary64.spacing_eq (h.full.imp id fun hm => ?_) ?_
  · rw [h.eq]
    exact Nat.mul_le_mul_right _ hm
  · rw [h.eq]
    exact Nat.mul_lt_mul_of_pos_right h.lt (Nat.two_pow_pos e)

/-- Every magnitude lies among those of one spacing. -/
theorem exists_exponent (q : Nat) : ∃ e, (e = 0 ∨ 2 ^ 52 * 2 ^ e ≤ q) ∧ q < 2 ^ 53 * 2 ^ e := by
  refine ⟨q.log2 - 52, ?_, ?_⟩
  · rcases Nat.lt_or_ge 52 q.log2 with hlog | hlog
    · refine .inr ?_
      rw [← Nat.pow_add, Nat.add_sub_cancel' hlog.le]
      exact Nat.log2_self_le (by rintro rfl; rw [Nat.log2_zero] at hlog; omega)
    · exact .inl (by omega)
  · rw [← Nat.pow_add]
    exact Nat.lt_log2_self.trans_le (Nat.pow_le_pow_right Nat.two_pos (by omega))

/-! ## Rounding to a significand -/

section Nearest
variable {num den : Nat} (hden : 0 < den)
include hden

theorem le_quotient_iff (m e : Nat) : m * 2 ^ e ≤ num / den ↔ m * (den * 2 ^ e) ≤ num := by
  rw [Nat.le_div_iff_mul_le hden, Nat.mul_assoc, Nat.mul_comm (2 ^ e)]

theorem quotient_lt_iff (m e : Nat) : num / den < m * 2 ^ e ↔ num < m * (den * 2 ^ e) := by
  rw [← Nat.not_le, le_quotient_iff hden, Nat.not_le]

/-- What is rounded is held by the format. -/
theorem exists_significand : ∃ m e, Significand (nearest num den) m e := by
  obtain ⟨e, hlow, hhigh⟩ := exists_exponent (num / den)
  have hscale : 0 < den * 2 ^ e := Nat.mul_pos hden (Nat.two_pow_pos e)
  have hnearest : nearest num den = roundDiv num (den * 2 ^ e) * 2 ^ e := by
    simp only [nearest, spacing_eq hlow hhigh]
  have hle : roundDiv num (den * 2 ^ e) ≤ 2 ^ 53 := by
    rw [quotient_lt_iff hden] at hhigh
    rw [roundDiv_le_iff num hscale]
    omega
  have hfull : e = 0 ∨ 2 ^ 52 ≤ roundDiv num (den * 2 ^ e) := by
    refine hlow.imp id fun hlow => ?_
    rw [le_quotient_iff hden] at hlow
    rw [le_roundDiv_iff num hscale]
    omega
  rcases hle.eq_or_lt with heq | hlt
  · -- Rounded up to a power of two, which belongs to the next spacing.
    refine ⟨2 ^ 52, e + 1, ?_, by decide, .inr (Nat.le_refl _)⟩
    rw [hnearest, heq, ← Nat.pow_add, ← Nat.pow_add]
    congr 1
    omega
  · exact ⟨_, e, hnearest, hlt, hfull⟩

variable {m e : Nat}

/-- A quotient in the range of a spacing is rounded to `m` spacings if it is off by less than half a
spacing, or by half a spacing and `m` is even. -/
theorem nearest_eq_of_close (hrange : e = 0 ∨ 2 ^ 52 * (den * 2 ^ e) ≤ num)
    (hlimit : num < 2 ^ 53 * (den * 2 ^ e))
    (hlow : 2 * (m * (den * 2 ^ e)) < 2 * num + den * 2 ^ e ∨
      2 * (m * (den * 2 ^ e)) = 2 * num + den * 2 ^ e ∧ m % 2 = 0)
    (hhigh : 2 * num < 2 * (m * (den * 2 ^ e)) + den * 2 ^ e ∨
      2 * num = 2 * (m * (den * 2 ^ e)) + den * 2 ^ e ∧ m % 2 = 0) :
    nearest num den = m * 2 ^ e := by
  have hscale : 0 < den * 2 ^ e := Nat.mul_pos hden (Nat.two_pow_pos e)
  rw [← le_quotient_iff hden] at hrange
  rw [← quotient_lt_iff hden] at hlimit
  simp only [nearest, spacing_eq hrange hlimit]
  congr 1
  refine Nat.le_antisymm ?_ ?_
  · rwa [roundDiv_le_iff num hscale, Nat.mul_comm _ m]
  · rwa [le_roundDiv_iff num hscale, Nat.mul_comm _ m]

/-- Below a power of two the spacing is half as wide. A quotient there is rounded to the power if it
is off by at most a quarter of the spacing above it. -/
theorem nearest_eq_two_pow (hlow : 4 * (2 ^ 52 * (den * 2 ^ (e + 1))) ≤ 4 * num + den * 2 ^ (e + 1))
    (hhigh : num < 2 ^ 52 * (den * 2 ^ (e + 1))) : nearest num den = 2 ^ 52 * 2 ^ (e + 1) := by
  have hdouble : 2 ^ 52 * 2 ^ (e + 1) = 2 ^ 53 * 2 ^ e := by
    rw [← Nat.pow_add, ← Nat.pow_add, Nat.add_left_comm, Nat.add_comm e]
  have hhalf : den * 2 ^ (e + 1) = 2 * (den * 2 ^ e) := by
    rw [Nat.pow_succ]
    ring
  rw [hhalf] at hlow hhigh
  rw [hdouble]
  have hclose : 2 * (2 ^ 53 * (den * 2 ^ e)) ≤ 2 * num + den * 2 ^ e := by omega
  exact nearest_eq_of_close hden (.inr (by omega)) (by omega)
    (hclose.lt_or_eq.imp id fun htie => ⟨htie, by norm_num⟩) (.inl (by omega))

end Nearest

/-! ## Results of operations -/

/-- The finite numbers of the format: those with at most 53 binary digits, below the limit. -/
def Held (x : Binary64) : Prop :=
  ∃ negative steps m e, x = finite negative steps ∧ Significand steps m e ∧
    steps < Nat.pow 2 1024 * one

theorem held_ofRatio {negative : Bool} {num den : Nat} (hden : 0 < den)
    (hfinite : (ofRatio negative num den).isFinite) : (ofRatio negative num den).Held := by
  have hratio : ofRatio negative num den = if nearest (num * one) den < Nat.pow 2 1024 * one
    then finite negative (nearest (num * one) den) else infinite negative := rfl
  obtain ⟨m, e, hsteps⟩ := exists_significand hden
  by_cases hlimit : nearest (num * one) den < Nat.pow 2 1024 * one
  · exact ⟨negative, _, m, e, hratio.trans (if_pos hlimit), hsteps, hlimit⟩
  · rw [hratio.trans (if_neg hlimit)] at hfinite
    cases hfinite

theorem held_zero (negative : Bool) : Held (finite negative 0) :=
  ⟨negative, 0, 0, 0, rfl, ⟨rfl, by decide, .inl rfl⟩, by decide +kernel⟩

theorem held_div {x y : Binary64} (hfinite : (x.div y).isFinite) : (x.div y).Held := by
  match x, y with
  | nan, _ | infinite _, nan | finite _ _, nan | infinite _, infinite _ | infinite _, finite _ _ =>
    cases hfinite
  | finite s m, infinite t => exact held_zero (s != t)
  | finite s m, finite t n =>
    have hdiv : (finite s m).div (finite t n) =
      if n = 0 then if m = 0 then nan else infinite (s != t) else ofRatio (s != t) m n := rfl
    by_cases hzero : n = 0
    · rw [hdiv, if_pos hzero] at hfinite
      split at hfinite <;> cases hfinite
    · rw [hdiv.trans (if_neg hzero)] at hfinite ⊢
      exact held_ofRatio (Nat.pos_of_ne_zero hzero) hfinite

end Binary64
end ColumnAudit.Number
