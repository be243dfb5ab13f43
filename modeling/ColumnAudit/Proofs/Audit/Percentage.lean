import ColumnAudit.Proofs.Audit.Agreement
import ColumnAudit.Proofs.Number.Nearest

/-! # Percentages as numbers

`computedHundredths` is the number that a percentage is rounded from, in hundredths of a percent: every
step of the computation is one rounding of an exact value, and `hasValue_percentage` says that the
percentage is what comes out. Each step keeps the order, so more matches never give a lower percentage
(`percentage_mono`), and all percentages lie between nothing and one hundred. A threshold that is met is
therefore still met after more matches (`threshold_met_mono`).
-/

namespace ColumnAudit.Audit
open Number Binary64
set_option autoImplicit false

namespace Tally

/-- The hundredths of a percent as the computation has them before it rounds them to a whole
number. -/
def computedHundredths (t : Tally) : ℚ :=
  rounded (rounded (rounded (rounded t.matched / rounded t.total) * 100) * 100)

/-! ## Steps -/

theorem hasValue_hundred : HasValue (.ofNat 100) 100 := by
  refine ⟨100 * one, ofNat_hundred, ?_⟩
  rw [Nat.cast_mul, mul_div_assoc, div_self one_rat_pos.ne', mul_one, Nat.cast_ofNat]

theorem one_le_rounded {n : Nat} (hn : 0 < n) : 1 ≤ rounded n := by
  have hone : rounded (1 : ℕ) = (1 : ℕ) := rounded_natCast (by norm_num)
  rw [← Nat.cast_one, ← hone]
  exact rounded_mono (Nat.cast_le.2 hn)

section Counts
variable {t : Tally} (hpos : 0 < t.total) (hmatched : t.matched < 2 ^ 64)
include hpos hmatched

theorem quotient_le_two_pow : rounded t.matched / rounded t.total ≤ 2 ^ 64 := by
  have hcount : rounded t.matched ≤ 2 ^ 64 := rounded_le_two_pow (by exact_mod_cast hmatched.le)
  have htotal := one_le_rounded hpos
  rw [div_le_iff₀ (zero_lt_one.trans_le htotal)]
  exact hcount.trans (le_mul_of_one_le_right (by norm_num) htotal)

theorem share_le_two_pow : rounded (rounded t.matched / rounded t.total) ≤ 2 ^ 64 :=
  rounded_le_two_pow (quotient_le_two_pow hpos hmatched)

theorem percent_le_two_pow :
    rounded (rounded (rounded t.matched / rounded t.total) * 100) ≤ 2 ^ 71 := by
  have hshare := share_le_two_pow hpos hmatched
  exact rounded_le_two_pow (by linarith)

theorem computedHundredths_le_two_pow : t.computedHundredths ≤ 2 ^ 78 := by
  have hpercent := percent_le_two_pow hpos hmatched
  exact rounded_le_two_pow (by linarith)

/-- The percentage is the rounded hundredths divided by one hundred, whatever the counts are. -/
theorem hasValue_percentage_of_lt (htotal : t.total < 2 ^ 64) :
    t.percentage.HasValue (rounded (nearestWhole t.computedHundredths / 100)) := by
  -- No step leaves the range of the format, so each is the rounding of its exact value.
  have hlimit : ∀ n : Nat, n < 2 ^ 64 → (n : ℚ) ≤ 2 ^ 200 := by
    intro n hn
    exact_mod_cast hn.le.trans (Nat.pow_le_pow_right Nat.two_pos (by norm_num))
  have hshare := (hasValue_ofNat (hlimit t.matched hmatched)).div
    (hasValue_ofNat (hlimit t.total htotal)) (zero_lt_one.trans_le (one_le_rounded hpos))
    ((quotient_le_two_pow hpos hmatched).trans (by norm_num))
  have hpercent := hshare.mul hasValue_hundred (by linarith [share_le_two_pow hpos hmatched])
  have hhundredths := hpercent.mul hasValue_hundred (by linarith [percent_le_two_pow hpos hmatched])
  have hwhole : (nearestWhole t.computedHundredths : ℚ) ≤ 2 ^ 78 := by
    have hnonneg : 0 ≤ t.computedHundredths := rounded_nonneg _
    have hle := nearestWhole_le_of_le hnonneg (c := 2 ^ 78) (by
      exact_mod_cast computedHundredths_le_two_pow hpos hmatched)
    exact_mod_cast hle
  rw [percentage, if_neg hpos.ne']
  exact hhundredths.roundTiesEven.div hasValue_hundred (by norm_num) (by
    change (nearestWhole t.computedHundredths : ℚ) / 100 ≤ 2 ^ 200
    linarith)

end Counts

/-- The percentage is the rounded hundredths divided by one hundred. -/
theorem hasValue_percentage {t : Tally} (hpos : 0 < t.total) (hle : t.matched ≤ t.total)
    (hbound : t.total < 2 ^ 64) :
    t.percentage.HasValue (rounded (nearestWhole t.computedHundredths / 100)) :=
  hasValue_percentage_of_lt hpos (hle.trans_lt hbound) hbound

/-! ## Order -/

theorem computedHundredths_mono {total m m' : Nat} (h : m ≤ m') :
    computedHundredths ⟨total, m⟩ ≤ computedHundredths ⟨total, m'⟩ := by
  have hmatched : rounded m ≤ rounded m' := rounded_mono (Nat.cast_le.2 h)
  have hshare := rounded_mono (div_le_div_of_nonneg_right hmatched (rounded_nonneg total))
  have hpercent := rounded_mono (mul_le_mul_of_nonneg_right hshare (by norm_num : (0 : ℚ) ≤ 100))
  exact rounded_mono (mul_le_mul_of_nonneg_right hpercent (by norm_num))

/-- More matches never give a lower percentage. -/
theorem percentage_mono {total m m' : Nat} (hbound : total < 2 ^ 64) (h : m ≤ m')
    (hle : m' ≤ total) : (percentage ⟨total, m⟩).value ≤ (percentage ⟨total, m'⟩).value := by
  rcases Nat.eq_zero_or_pos total with rfl | hpos
  · obtain rfl : m' = m := by omega
    exact le_refl _
  · have hless := hasValue_percentage (t := ⟨total, m⟩) hpos (h.trans hle) hbound
    have hmore := hasValue_percentage (t := ⟨total, m'⟩) hpos hle hbound
    rw [hless.value_eq, hmore.value_eq]
    have hnonneg : 0 ≤ computedHundredths ⟨total, m⟩ := rounded_nonneg _
    have hwhole := nearestWhole_mono hnonneg (computedHundredths_mono h)
    exact rounded_mono (div_le_div_of_nonneg_right (Nat.cast_le.2 hwhole) (by norm_num))

theorem percentage_full {total : Nat} (hbound : total < 2 ^ 64) :
    percentage ⟨total, total⟩ = .ofNat 100 := by
  have hfull : Full ⟨total, total⟩ := rfl
  have hlimit : 2 ^ 64 ≤ 2 ^ 1023 := by decide +kernel
  exact hfull.percentage (Nat.lt_of_lt_of_le hbound hlimit)

section Bounds
variable {total m : Nat} (hbound : total < 2 ^ 64) (hle : m ≤ total)
include hbound hle

theorem isFinite_percentage : (percentage ⟨total, m⟩).isFinite := by
  rcases Nat.eq_zero_or_pos total with rfl | hpos
  · rw [percentage, if_pos rfl]
    exact hasValue_hundred.isFinite
  · exact (hasValue_percentage hpos hle hbound).isFinite

theorem percentage_value_nonneg : 0 ≤ (percentage ⟨total, m⟩).value := by
  rcases Nat.eq_zero_or_pos total with rfl | hpos
  · rw [percentage, if_pos rfl, value_ofNat_hundred]
    norm_num
  · have hvalue := hasValue_percentage (t := ⟨total, m⟩) hpos hle hbound
    rw [hvalue.value_eq]
    exact hvalue.nonneg

theorem percentage_value_le_hundred : (percentage ⟨total, m⟩).value ≤ 100 := by
  rw [← value_ofNat_hundred, ← percentage_full hbound]
  exact percentage_mono hbound hle (Nat.le_refl total)

end Bounds
end Tally

/-! ## The threshold -/

theorem shortfall?_eq_none_iff {percentage threshold : Binary64} (hpercentage : percentage.isFinite)
    (hthreshold : threshold.isFinite) :
    shortfall? percentage (some threshold) = none ↔ threshold.value ≤ percentage.value := by
  rw [shortfall?, ite_eq_right_iff, ← not_lt, ← lt_iff_value_lt hpercentage hthreshold]
  simp

/-- A threshold that is met is still met after more matches. All percentages lie between nothing and
one hundred, which is what full agreement and an empty scope have: thresholds up to that are met then,
and higher ones never. -/
theorem threshold_met_mono {total : Nat} (hbound : total < 2 ^ 64) :
    (∀ m ≤ total, (Tally.percentage ⟨total, m⟩).isFinite ∧
      0 ≤ (Tally.percentage ⟨total, m⟩).value ∧ (Tally.percentage ⟨total, m⟩).value ≤ 100) ∧
    Tally.percentage ⟨total, total⟩ = .ofNat 100 ∧
    ∀ threshold : Binary64, threshold.isFinite →
      (∀ m n, m ≤ n → n ≤ total →
        shortfall? (Tally.percentage ⟨total, m⟩) (some threshold) = none →
        shortfall? (Tally.percentage ⟨total, n⟩) (some threshold) = none) ∧
      (threshold.value ≤ 100 →
        shortfall? (Tally.percentage ⟨total, total⟩) (some threshold) = none) ∧
      (100 < threshold.value →
        ∀ m ≤ total, shortfall? (Tally.percentage ⟨total, m⟩) (some threshold) ≠ none) := by
  refine ⟨fun m hm => ⟨Tally.isFinite_percentage hbound hm,
    Tally.percentage_value_nonneg hbound hm, Tally.percentage_value_le_hundred hbound hm⟩,
    Tally.percentage_full hbound, fun threshold hthreshold => ⟨?mono, ?full, ?never⟩⟩
  case mono =>
    intro m n hmn hn hmet
    rw [shortfall?_eq_none_iff (Tally.isFinite_percentage hbound (hmn.trans hn)) hthreshold] at hmet
    rw [shortfall?_eq_none_iff (Tally.isFinite_percentage hbound hn) hthreshold]
    exact hmet.trans (Tally.percentage_mono hbound hmn hn)
  case full =>
    intro hlow
    rwa [shortfall?_eq_none_iff (Tally.isFinite_percentage hbound (Nat.le_refl total)) hthreshold,
      Tally.percentage_full hbound, value_ofNat_hundred]
  case never =>
    intro hhigh m hm
    rw [Ne, shortfall?_eq_none_iff (Tally.isFinite_percentage hbound hm) hthreshold, not_le]
    exact (Tally.percentage_value_le_hundred hbound hm).trans_lt hhigh

/-- Seven matches of eight meet the threshold that six of eight just reach; a threshold of one hundred
and one is out of reach. -/
theorem threshold_met_seven_of_eight :
    shortfall? (Tally.percentage ⟨8, 6⟩) (some (.ofNat 75)) = none ∧
    shortfall? (Tally.percentage ⟨8, 7⟩) (some (.ofNat 75)) = none ∧
    shortfall? (Tally.percentage ⟨8, 8⟩) (some (.ofNat 75)) = none ∧
    shortfall? (Tally.percentage ⟨8, 7⟩) (some (.ofNat 101)) ≠ none := by
  have hsix : shortfall? (Tally.percentage ⟨8, 6⟩) (some (.ofNat 75)) = none := by decide +kernel
  have hlow : (Binary64.ofNat 75).value ≤ 100 := by
    rw [(hasValue_ofNat (n := 75) (by norm_num)).value_eq, rounded_natCast (by norm_num)]
    norm_num
  have hhigh : 100 < (Binary64.ofNat 101).value := by
    rw [(hasValue_ofNat (n := 101) (by norm_num)).value_eq, rounded_natCast (by norm_num)]
    norm_num
  have hbound : 8 < 2 ^ 64 := by decide
  obtain ⟨-, -, hgate⟩ := threshold_met_mono hbound
  have hreached := hgate (.ofNat 75) (by decide +kernel)
  have hmissed := hgate (.ofNat 101) (by decide +kernel)
  exact ⟨hsix, hreached.1 6 7 (by decide) (by decide) hsix, hreached.2.1 hlow,
    hmissed.2.2 hhigh 7 (by decide)⟩

end ColumnAudit.Audit
