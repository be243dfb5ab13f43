import ColumnAudit.Proofs.Audit.Percentage

/-! # Percentages and exact shares

The exact share of a tally in hundredths of a percent is `Tally.hundredths`. What the computation has in
its place is off by a 2⁵⁰th part of it at most (`abs_computedHundredths_sub_le`), and it is this that is
rounded to a whole number (`percentage_rounds_share`). So the percentage is the exact share, rounded,
unless the computation crosses a half that is no further from the share than that.

With up to 2³⁵ matches no half is that near, unless the share is itself a half. Then all depends on
whether the computation leaves it on the side of the even number (`KeepsTie`), which depends on the half
only.
-/

namespace ColumnAudit.Audit
open Number Binary64
set_option autoImplicit false

namespace Tally

/-- The exact share of the matched names in hundredths of a percent. -/
def hundredths (t : Tally) : ℚ := 10000 * t.matched / t.total

/-- The share is a half that counts below 2⁵³ stand for, or apart from all halves by more than the
error of the computation. -/
def ClearOfHalves (t : Tally) : Prop :=
  ∀ k : ℕ, (t.hundredths = k + 1 / 2 ∧ t.total < 2 ^ 53) ∨
    t.hundredths / 2 ^ 50 < |t.hundredths - (k + 1 / 2)|

/-- A number that is rounded to `k` or less: it is below the half above `k`, or it is that half and `k` is
even. -/
def RoundsWithin (x : ℚ) (k : ℕ) : Prop := x < k + 1 / 2 ∨ (x = k + 1 / 2 ∧ k % 2 = 0)

/-- Whether the computation leaves the half above `k` on the side of the even number. -/
def KeepsTie (k : ℕ) : Prop :=
  if k % 2 = 0 then computedHundredths ⟨20000, 2 * k + 1⟩ ≤ k + 1 / 2
  else k + 1 / 2 ≤ computedHundredths ⟨20000, 2 * k + 1⟩

instance (k : ℕ) : Decidable (KeepsTie k) := by
  unfold KeepsTie
  infer_instance

/-! ## The error -/

theorem hundredths_nonneg (t : Tally) : 0 ≤ t.hundredths := by
  unfold hundredths
  positivity

section Error
variable {t : Tally} (hpos : 0 < t.total)
include hpos

theorem hundredths_le (hle : t.matched ≤ t.total) : t.hundredths ≤ 10000 := by
  have hcast : (t.matched : ℚ) ≤ t.total := Nat.cast_le.2 hle
  rw [hundredths, div_le_iff₀ (Nat.cast_pos.2 hpos)]
  linarith

theorem normal_quotient (hbound : t.total < 2 ^ 64) :
    Normal (rounded t.matched / rounded t.total) := by
  rcases Nat.eq_zero_or_pos t.matched with hzero | hmatched
  · left
    rw [hzero, Nat.cast_zero, rounded_zero, zero_div]
  · have htotal : rounded t.total ≤ 2 ^ 65 := by
      have hhigh := (within_rounded (normal_natCast t.total)).high
      have hlimit : (t.total : ℚ) ≤ 2 ^ 64 := by exact_mod_cast hbound.le
      rw [pow_one] at hhigh
      linarith
    exact normal_of_le (e := 65) (by norm_num) (div_le_div₀ (rounded_nonneg _)
      (one_le_rounded hmatched) (zero_lt_one.trans_le (one_le_rounded hpos)) htotal)

/-- Two conversions, the division, two products: five roundings lie between the exact share and what is
rounded to a whole number. -/
theorem within_computedHundredths (hbound : t.total < 2 ^ 64) :
    Within 5 t.computedHundredths t.hundredths := by
  have htotal : 0 < rounded t.total := zero_lt_one.trans_le (one_le_rounded hpos)
  have hquotient := (within_rounded (normal_natCast t.matched)).div
    (within_rounded (normal_natCast t.total)) (rounded_nonneg _) (Nat.cast_nonneg _) htotal
    (Nat.cast_pos.2 hpos)
  have hnormal := normal_quotient hpos hbound
  have hshare := (within_rounded hnormal).trans hquotient
  have hnormal' := hnormal.rounded.mul_right (by norm_num : (1 : ℚ) ≤ 100)
  have hpercent := (within_rounded hnormal').trans (hshare.mul_right (by norm_num : (0 : ℚ) ≤ 100))
  have hnormal'' := hnormal'.rounded.mul_right (by norm_num : (1 : ℚ) ≤ 100)
  have hexact : t.matched / t.total * 100 * 100 = t.hundredths := by
    rw [hundredths]
    ring
  rw [← hexact]
  exact (within_rounded hnormal'').trans (hpercent.mul_right (by norm_num : (0 : ℚ) ≤ 100))

theorem abs_computedHundredths_sub_le (hbound : t.total < 2 ^ 64) :
    |t.computedHundredths - t.hundredths| ≤ t.hundredths / 2 ^ 50 :=
  (within_computedHundredths hpos hbound).abs_sub_le (Nat.le_refl 5) (rounded_nonneg _)
    (hundredths_nonneg t)

end Error

/-! ## Halves -/

/-- Below 2⁵³ the counts are converted exactly, so that the computation sees only the share. -/
theorem computedHundredths_eq {s t : Tally} (hs : s.total < 2 ^ 53) (ht : t.total < 2 ^ 53)
    (hsle : s.matched ≤ s.total) (htle : t.matched ≤ t.total)
    (h : (s.matched / s.total : ℚ) = t.matched / t.total) :
    s.computedHundredths = t.computedHundredths := by
  rw [computedHundredths, computedHundredths, rounded_natCast hs, rounded_natCast ht,
    rounded_natCast (hsle.trans_lt hs), rounded_natCast (htle.trans_lt ht), h]

theorem computedHundredths_of_tie {t : Tally} (hpos : 0 < t.total) (hle : t.matched ≤ t.total)
    (hexact : t.total < 2 ^ 53) {k : ℕ} (htie : t.hundredths = k + 1 / 2) :
    t.computedHundredths = computedHundredths ⟨20000, 2 * k + 1⟩ := by
  have htotal : (0 : ℚ) < t.total := Nat.cast_pos.2 hpos
  rw [hundredths, div_eq_iff htotal.ne'] at htie
  have hcross : 20000 * t.matched = (2 * k + 1) * t.total := by
    rw [← Nat.cast_inj (R := ℚ)]
    push_cast
    linarith
  have hk : 2 * k + 1 ≤ 20000 := by
    refine Nat.le_of_mul_le_mul_right ?_ hpos
    rw [← hcross]
    exact Nat.mul_le_mul_left 20000 hle
  refine computedHundredths_eq hexact (by norm_num) hle hk ?_
  rw [div_eq_div_iff htotal.ne' (by norm_num)]
  rw [← Nat.cast_inj (R := ℚ)] at hcross
  push_cast at hcross ⊢
  linarith

/-- A number that is as near to another as that one is apart from a half is on its side of the
half. -/
theorem side_of_apart {c y half error : ℚ} (herror : |c - y| ≤ error)
    (happart : error < |y - half|) : (c < half ↔ y < half) ∧ c ≠ half ∧ y ≠ half := by
  rw [abs_sub_le_iff] at herror
  rcases lt_abs.1 happart with habove | hbelow
  · exact ⟨⟨fun h => by linarith, fun h => by linarith⟩, by linarith, by linarith⟩
  · exact ⟨⟨fun h => by linarith, fun h => by linarith⟩, by linarith, by linarith⟩

/-- Where the exact share is no half, the computation rounds it as it should; a half needs to be
kept. -/
theorem nearestWhole_le_iff_of_clear {t : Tally} (hpos : 0 < t.total) (hle : t.matched ≤ t.total)
    (hbound : t.total < 2 ^ 64) (hclear : t.ClearOfHalves) (k : ℕ) :
    (nearestWhole t.computedHundredths ≤ k ↔ nearestWhole t.hundredths ≤ k) ↔
      (t.hundredths = k + 1 / 2 → KeepsTie k) := by
  have hnonneg : 0 ≤ t.computedHundredths := rounded_nonneg _
  have herror := abs_computedHundredths_sub_le hpos hbound
  rw [nearestWhole_le_iff hnonneg, nearestWhole_le_iff (hundredths_nonneg t)]
  rcases hclear k with ⟨htie, hexact⟩ | happart
  -- At a half the exact share goes to the even number, and the parity says which side that is.
  · rw [KeepsTie, ← computedHundredths_of_tie hpos hle hexact htie, htie]
    by_cases heven : k % 2 = 0
    · simp [heven, le_iff_lt_or_eq]
    · simp [heven]
  · obtain ⟨hside, hcomputed, hshare⟩ := side_of_apart herror happart
    simp only [hside, hcomputed, hshare, false_and, or_false, false_implies]

/-- With up to 2³⁵ matches a share that is no half is far enough from it: the distance is at least the
half of one part of the total. -/
theorem clearOfHalves_of_matched_le {t : Tally} (hpos : 0 < t.total) (hfew : t.matched ≤ 2 ^ 35) :
    t.ClearOfHalves := by
  intro k
  have htotal : (0 : ℚ) < t.total := Nat.cast_pos.2 hpos
  have hdistance : t.hundredths - (k + 1 / 2) =
      (20000 * t.matched - (2 * k + 1) * t.total : ℤ) / (2 * t.total) := by
    rw [hundredths]
    push_cast
    field_simp
    ring
  by_cases htie : (20000 * t.matched - (2 * k + 1) * t.total : ℤ) = 0
  · left
    rw [htie, Int.cast_zero, zero_div, sub_eq_zero] at hdistance
    have hshare : t.total ≤ (2 * k + 1) * t.total := Nat.le_mul_of_pos_left _ (Nat.succ_pos _)
    zify at hshare hfew ⊢
    exact ⟨hdistance, by linarith⟩
  · right
    have hgap : (1 : ℚ) ≤ |((20000 * t.matched - (2 * k + 1) * t.total : ℤ) : ℚ)| := by
      exact_mod_cast Int.one_le_abs htie
    have hsmall : (20000 * t.matched : ℚ) < 2 ^ 50 := by
      have hcast : (t.matched : ℚ) ≤ 2 ^ 35 := by exact_mod_cast hfew
      linarith
    rw [hdistance, abs_div, abs_of_pos (mul_pos two_pos htotal), hundredths, div_div,
      div_lt_div_iff₀ (by positivity) (by positivity)]
    calc (10000 * t.matched * (2 * t.total) : ℚ) = 20000 * t.matched * t.total := by ring
      _ < 2 ^ 50 * t.total := mul_lt_mul_of_pos_right hsmall htotal
      _ = 1 * (t.total * 2 ^ 50) := by ring
      _ ≤ _ := mul_le_mul_of_nonneg_right hgap (by positivity)

/-- Counts out of a power of two give the exact share. -/
theorem computedHundredths_two_pow {n e : ℕ} (he : e ≤ 39) (hn : n ≤ 2 ^ e) :
    computedHundredths ⟨2 ^ e, n⟩ = hundredths ⟨2 ^ e, n⟩ := by
  have hpow : 2 ^ e ≤ 2 ^ 39 := Nat.pow_le_pow_right Nat.two_pos he
  -- The share and its products have up to 53 digits, all of them over the same power of two.
  have hkeep : ∀ c : ℕ, c ≤ 10000 → rounded (n / 2 ^ e * c) = n / 2 ^ e * c := by
    intro c hc
    have hproduct : n * c ≤ 2 ^ 39 * 10000 := Nat.mul_le_mul (hn.trans hpow) hc
    have hexact := rounded_dyadic (n := n * c) (e := e) (by omega) (by omega)
    rwa [Nat.cast_mul, ← div_mul_eq_mul_div] at hexact
  have hshare : rounded (n / 2 ^ e) = n / 2 ^ e := by simpa using hkeep 1 (by norm_num)
  have hpercent : rounded (n / 2 ^ e * 100) = n / 2 ^ e * 100 := hkeep 100 (by norm_num)
  have hhundredths : rounded (n / 2 ^ e * 10000) = n / 2 ^ e * 10000 := hkeep 10000 (by norm_num)
  have hmatched : rounded n = n := rounded_natCast (by omega)
  have htotal : rounded (2 ^ e : ℕ) = (2 ^ e : ℕ) := rounded_natCast (by omega)
  have hsquare : (100 * 100 : ℚ) = 10000 := by norm_num
  rw [computedHundredths, hundredths]
  dsimp only
  rw [hmatched, htotal, Nat.cast_pow, Nat.cast_ofNat, hshare, hpercent, mul_assoc, hsquare,
    hhundredths, mul_comm, mul_div_assoc]

theorem keepsTie_of_dvd {k : ℕ} (hk : k < 10000) (h : 625 ∣ 2 * k + 1) : KeepsTie k := by
  obtain ⟨j, hj⟩ := h
  have hexact : computedHundredths ⟨20000, 2 * k + 1⟩ = k + 1 / 2 := by
    have hcast : (2 * k + 1 : ℚ) = 625 * j := by exact_mod_cast hj
    have hle : 2 * k + 1 ≤ 20000 := by omega
    have hle' : j ≤ 2 ^ 5 := by omega
    rw [computedHundredths_eq (t := ⟨2 ^ 5, j⟩) (by norm_num) (by norm_num) hle hle'
      (by push_cast; linarith), computedHundredths_two_pow (by norm_num) hle', hundredths]
    push_cast
    linarith
  rw [KeepsTie, hexact, ite_self]

/-! ## Two decimal places -/

theorem normal_hundredth (n : ℕ) : Normal (n / 100) := by
  rcases Nat.eq_zero_or_pos n with rfl | hpos
  · left
    rw [Nat.cast_zero, zero_div]
  · have hone : (1 : ℚ) ≤ n := Nat.one_le_cast.2 hpos
    exact normal_of_le (e := 7) (by norm_num) (by linarith)

/-- Different numbers of hundredths up to one hundred are different numbers of the format. -/
theorem rounded_hundredth_inj {m n : ℕ} (hn : n ≤ 10000) :
    rounded (m / 100) = rounded (n / 100) ↔ m = n := by
  refine ⟨fun h => ?_, fun h => by rw [h]⟩
  have hwithin := (within_rounded (normal_hundredth m)).symm
  rw [h] at hwithin
  have herror := (hwithin.trans (within_rounded (normal_hundredth n))).abs_sub_le (by norm_num)
    (normal_hundredth m).nonneg (normal_hundredth n).nonneg
  have hlimit : (n : ℚ) ≤ 10000 := by exact_mod_cast hn
  rw [abs_sub_le_iff] at herror
  have hbelow : (m : ℚ) < n + 1 := by linarith
  have habove : (n : ℚ) < m + 1 := by linarith
  exact Nat.le_antisymm (Nat.le_of_lt_succ (by exact_mod_cast hbelow))
    (Nat.le_of_lt_succ (by exact_mod_cast habove))

theorem lt_of_hundredths_eq {t : Tally} (hpos : 0 < t.total) (hle : t.matched ≤ t.total) {k : ℕ}
    (htie : t.hundredths = k + 1 / 2) : k < 10000 := by
  have hshare := hundredths_le hpos hle
  rw [htie] at hshare
  have hk : (k : ℚ) < (10000 : ℕ) := by
    rw [Nat.cast_ofNat]
    linarith
  exact Nat.cast_lt.1 hk

theorem nearestWhole_eq_iff_of_near {t : Tally} (hpos : 0 < t.total) (hbound : t.total < 2 ^ 64) :
    nearestWhole t.computedHundredths = nearestWhole t.hundredths ↔
      ∀ k : ℕ, |t.hundredths - (k + 1 / 2)| ≤ t.hundredths / 2 ^ 50 →
        (RoundsWithin t.computedHundredths k ↔ RoundsWithin t.hundredths k) := by
  have hcomputed (k : ℕ) := nearestWhole_le_iff (q := t.computedHundredths) (rounded_nonneg _) k
  have hexact (k : ℕ) := nearestWhole_le_iff (hundredths_nonneg t) k
  constructor
  · intro heq k _
    rw [RoundsWithin, RoundsWithin, ← hcomputed, ← hexact, heq]
  · intro hkept
    refine eq_of_forall_ge_iff fun k => ?_
    by_cases hnear : |t.hundredths - (k + 1 / 2)| ≤ t.hundredths / 2 ^ 50
    · rw [hcomputed, hexact]
      exact hkept k hnear
    · -- The computation is too exact to cross a half that is further away.
      obtain ⟨hside, hne, hne'⟩ :=
        side_of_apart (abs_computedHundredths_sub_le hpos hbound) (not_le.1 hnear)
      rw [hcomputed, hexact]
      simp only [hside, hne, hne', false_and]

section Rounded
variable {t : Tally} (hpos : 0 < t.total) (hle : t.matched ≤ t.total) (hbound : t.total < 2 ^ 64)
include hpos hle hbound

theorem nearestWhole_computedHundredths_le : nearestWhole t.computedHundredths ≤ 10000 := by
  have hshare := hundredths_le hpos hle
  have herror := (abs_sub_le_iff.1 (abs_computedHundredths_sub_le hpos hbound)).1
  have hnonneg : 0 ≤ t.computedHundredths := rounded_nonneg _
  rw [nearestWhole_le_iff hnonneg]
  push_cast
  left
  linarith

/-- The percentage is the whole number of hundredths that the computed share is rounded to. -/
theorem percentage_eq_ofRatio :
    t.percentage = ofRatio false (nearestWhole t.computedHundredths) 100 := by
  have hlimit : (nearestWhole t.computedHundredths : ℚ) ≤ 10000 := by
    exact_mod_cast nearestWhole_computedHundredths_le hpos hle hbound
  have hratio : (nearestWhole t.computedHundredths / (100 : ℕ) : ℚ) ≤ 2 ^ 200 := by
    rw [Nat.cast_ofNat]
    linarith
  have hnearest := hasValue_ofRatio (by norm_num) hratio
  rw [(hasValue_percentage hpos hle hbound).eq_iff hnearest, Nat.cast_ofNat]

/-- Only the whole numbers decide whether the percentage is the exact share, rounded. -/
theorem percentage_eq_ofRatio_iff :
    t.percentage = ofRatio false (roundDiv (10000 * t.matched) t.total) 100 ↔
      nearestWhole t.computedHundredths = nearestWhole t.hundredths := by
  have hwhole : nearestWhole t.hundredths = roundDiv (10000 * t.matched) t.total := by
    rw [hundredths, ← Nat.cast_ofNat, ← Nat.cast_mul]
    exact nearestWhole_div _ hpos
  have hlimit : nearestWhole t.hundredths ≤ 10000 :=
    nearestWhole_le_of_le (hundredths_nonneg t) (by exact_mod_cast hundredths_le hpos hle)
  have hratio : (nearestWhole t.hundredths / (100 : ℕ) : ℚ) ≤ 2 ^ 200 := by
    have hcast : (nearestWhole t.hundredths : ℚ) ≤ 10000 := by exact_mod_cast hlimit
    rw [Nat.cast_ofNat]
    linarith
  have hnearest := hasValue_ofRatio (by norm_num) hratio
  rw [← hwhole, (hasValue_percentage hpos hle hbound).eq_iff hnearest, Nat.cast_ofNat,
    rounded_hundredth_inj hlimit]

theorem nearestWhole_eq_iff_of_clear (hclear : t.ClearOfHalves) :
    nearestWhole t.computedHundredths = nearestWhole t.hundredths ↔
      ∀ k : ℕ, t.hundredths = k + 1 / 2 → 625 ∣ 2 * k + 1 ∨ KeepsTie k := by
  constructor
  · intro heq k htie
    refine .inr ((nearestWhole_le_iff_of_clear hpos hle hbound hclear k).1 ?_ htie)
    rw [heq]
  · intro hkept
    refine eq_of_forall_ge_iff fun k => ?_
    rw [nearestWhole_le_iff_of_clear hpos hle hbound hclear k]
    intro htie
    exact (hkept k htie).elim (keepsTie_of_dvd (lt_of_hundredths_eq hpos hle htie)) id

/-- The percentage is the computed share, rounded to two decimal places with ties to the even digit. It is
off by half a unit and a 2⁵⁰th part of the exact share at most. It is the exact share rounded in the same
way exactly if each half so near to the exact share has the computed share on the same side. With up to
2³⁵ matches, or if the share is clear of the halves in another way, this means: exactly if the exact
share is no half, or a half that is a thirty-second or that the computation keeps. -/
theorem percentage_rounds_share :
    t.percentage = ofRatio false (nearestWhole t.computedHundredths) 100 ∧
    |nearestWhole t.computedHundredths - t.hundredths| ≤ 1 / 2 + t.hundredths / 2 ^ 50 ∧
    (t.percentage = ofRatio false (roundDiv (10000 * t.matched) t.total) 100 ↔
      ∀ k : ℕ, |t.hundredths - (k + 1 / 2)| ≤ t.hundredths / 2 ^ 50 →
        (RoundsWithin t.computedHundredths k ↔ RoundsWithin t.hundredths k)) ∧
    (t.matched ≤ 2 ^ 35 ∨ t.ClearOfHalves →
      (t.percentage = ofRatio false (roundDiv (10000 * t.matched) t.total) 100 ↔
        ∀ k : ℕ, t.hundredths = k + 1 / 2 → 625 ∣ 2 * k + 1 ∨ KeepsTie k)) := by
  refine ⟨percentage_eq_ofRatio hpos hle hbound, ?_, ?_, fun hclear => ?_⟩
  · have hround : |nearestWhole t.computedHundredths - t.computedHundredths| ≤ 1 / 2 :=
      abs_nearestWhole_sub_le (rounded_nonneg _)
    exact (abs_sub_le _ t.computedHundredths _).trans
      (add_le_add hround (abs_computedHundredths_sub_le hpos hbound))
  · rw [percentage_eq_ofRatio_iff hpos hle hbound]
    exact nearestWhole_eq_iff_of_near hpos hbound
  · rw [percentage_eq_ofRatio_iff hpos hle hbound]
    exact nearestWhole_eq_iff_of_clear hpos hle hbound
      (hclear.elim (clearOfHalves_of_matched_le hpos) id)

end Rounded

/-- One match of thirty-two is a share of 3.125 percent, which is a tie that goes to the even digit. -/
theorem percentage_one_of_thirty_two : percentage ⟨32, 1⟩ = ofRatio false 312 100 := by
  have hpos : 0 < Tally.total ⟨32, 1⟩ := by decide
  have hfew : Tally.matched ⟨32, 1⟩ ≤ 2 ^ 35 := by decide
  obtain ⟨-, -, -, hiff⟩ := percentage_rounds_share hpos (by decide) (by decide)
  refine (hiff (.inl hfew)).2 ?_
  intro k htie
  have hk : (k : ℚ) = (312 : ℕ) := by
    norm_num [hundredths] at htie ⊢
    linarith
  rw [Nat.cast_inj.1 hk]
  exact .inl (by decide)

/-- Twenty-three matches of one hundred and sixty are a share of 14.375 percent, but the computation
has less than that. In the second tally the share is less than 86.135 percent, but the computation does
not see the difference. -/
theorem percentage_misses_even_digit :
    (percentage ⟨160, 23⟩ = ofRatio false 1437 100 ∧ roundDiv (10000 * 23) 160 = 1438 ∧
      percentage ⟨160, 23⟩ ≠ ofRatio false (roundDiv (10000 * 23) 160) 100 ∧ ¬KeepsTie 1437) ∧
    percentage ⟨244284416163, 210414381862⟩ = ofRatio false 8614 100 ∧
      roundDiv (10000 * 210414381862) 244284416163 = 8613 ∧
      percentage ⟨244284416163, 210414381862⟩ ≠
        ofRatio false (roundDiv (10000 * 210414381862) 244284416163) 100 := by
  decide +kernel

end Tally
end ColumnAudit.Audit
