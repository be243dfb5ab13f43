import ColumnAudit.Proofs.Number.ReadBack

/-! # Numerals

A numeral is a number as it is written: digits, a point with digits behind it or none, and an exponent or
none. `exists_numeral` says that the text of a magnitude is such a numeral, one with a point or an
exponent, and that it stands for the fewest digits of the magnitude.
-/

namespace ColumnAudit.Number
set_option autoImplicit false

/-! ## Digits -/

/-- A nonempty list of decimal digits. -/
def Digits (ds : List Char) : Prop := ds ≠ [] ∧ ∀ c ∈ ds, c.isDigit

/-- Digits that do not start with a zero, or a single zero. -/
def Leading (ds : List Char) : Prop := Digits ds ∧ ∀ t, ds = '0' :: t → t = []

theorem digits_digitsOf (n : Nat) : Digits (digitsOf n) :=
  ⟨Nat.toDigits_ne_nil, fun _ hc => Nat.isDigit_of_mem_toDigits (by decide) (by decide) hc⟩

theorem digitsOf_ne_zero_cons {n : Nat} (hn : n ≠ 0) (t : List Char) : digitsOf n ≠ '0' :: t := by
  induction n using Nat.strongRecOn generalizing t with
  | ind n ih =>
    have hdef : digitsOf n = Nat.toDigits 10 n := rfl
    rw [hdef]
    rcases Nat.lt_or_ge n 10 with hsmall | hlarge
    · have hdigit : ∀ k < 10, k ≠ 0 → k.digitChar ≠ '0' := by decide
      rw [Nat.toDigits_of_lt_base hsmall]
      exact fun heq => hdigit n hsmall hn (List.cons.inj heq).1
    · rw [Nat.toDigits_of_base_le (by decide) hlarge]
      intro heq
      have hrest := ih (n / 10) (Nat.div_lt_self (by omega) (by decide)) (by omega)
      cases hfront : digitsOf (n / 10) with
      | nil => exact (digits_digitsOf (n / 10)).1 hfront
      | cons c u =>
        have hfront' : Nat.toDigits 10 (n / 10) = c :: u := hfront
        rw [hfront', List.cons_append, List.cons.injEq] at heq
        rw [heq.1] at hfront
        exact hrest u hfront

theorem leading_digitsOf (n : Nat) : Leading (digitsOf n) := by
  refine ⟨digits_digitsOf n, fun t ht => ?_⟩
  rcases Nat.eq_zero_or_pos n with rfl | hpos
  · cases ht
    rfl
  · exact absurd ht (digitsOf_ne_zero_cons hpos.ne' t)

theorem digitsValue_eq (ds : List Char) : Binary64.digitsValue ds = Nat.ofDigitChars 10 ds 0 :=
  Nat.ofDigitChars_eq_foldl.symm

theorem digitsValue_digitsOf (n : Nat) : Binary64.digitsValue (digitsOf n) = n := by
  rw [digitsValue_eq]
  exact Nat.ofDigitChars_ten_toDigits

theorem digitsValue_append_zeros (ds : List Char) (count : Nat) :
    Binary64.digitsValue (ds ++ zeros count) = Binary64.digitsValue ds * 10 ^ count := by
  rw [digitsValue_eq, digitsValue_eq, Nat.ofDigitChars_append, zeros, Nat.ofDigitChars_replicate_zero,
    Nat.mul_comm]

theorem digitsValue_zeros_append (count : Nat) (ds : List Char) :
    Binary64.digitsValue (zeros count ++ ds) = Binary64.digitsValue ds := by
  rw [digitsValue_eq, digitsValue_eq, Nat.ofDigitChars_append, zeros, Nat.ofDigitChars_replicate_zero,
    Nat.mul_zero]

/-! ## Numerals -/

/-- A numeral as it is written: digits, possibly a point with digits behind it, and possibly an
exponent with its sign. -/
structure Numeral where
  whole : List Char
  places : List Char
  exponent : Option (Bool × List Char)

namespace Numeral

/-- The characters of the digits behind a point. -/
def placesText (ds : List Char) : List Char := if ds = [] then [] else '.' :: ds

/-- The characters of an exponent. -/
def powerText : Option (Bool × List Char) → List Char
  | none => []
  | some (negative, ds) => 'e' :: (if negative then '-' else '+') :: ds

/-- The value of an exponent. -/
def power : Option (Bool × List Char) → Int
  | none => 0
  | some (negative, ds) => Binary64.signed negative (Binary64.digitsValue ds)

/-- The characters of a numeral. -/
def text (n : Numeral) : List Char :=
  n.whole ++ placesText n.places ++ powerText n.exponent

/-- The decimal that a numeral stands for. -/
def decimal (n : Numeral) : Decimal where
  digits := Binary64.digitsValue (n.whole ++ n.places)
  exponent := power n.exponent - n.places.length

/-- Whether a numeral has neither a point nor an exponent. -/
def IsWhole (n : Numeral) : Prop := n.places = [] ∧ n.exponent = none

instance (n : Numeral) : Decidable n.IsWhole :=
  inferInstanceAs (Decidable (n.places = [] ∧ n.exponent = none))

/-- A numeral as JSON documents have it. -/
structure Proper (n : Numeral) : Prop where
  whole : Leading n.whole
  places : ∀ c ∈ n.places, c.isDigit
  exponent : ∀ negative ds, n.exponent = some (negative, ds) → Digits ds

end Numeral

namespace Binary64

theorem leading_take {ds : List Char} (hleading : Leading ds) {n : Nat} (hn : 0 < n) :
    Leading (ds.take n) := by
  refine ⟨⟨?_, fun c hc => hleading.1.2 c (List.mem_of_mem_take hc)⟩, fun t ht => ?_⟩
  · rw [Ne, List.take_eq_nil_iff, not_or]
    exact ⟨hn.ne', hleading.1.1⟩
  · cases ds with
    | nil => exact absurd rfl hleading.1.1
    | cons c ds =>
      obtain ⟨k, rfl⟩ := Nat.exists_eq_add_one_of_ne_zero hn.ne'
      rw [List.take_succ_cons, List.cons.injEq] at ht
      rw [← ht.2, hleading.2 ds (by rw [ht.1]), List.take_nil]

theorem isDigit_of_mem_zeros {c : Char} {count : Nat} (hc : c ∈ zeros count) : c.isDigit := by
  rw [List.eq_of_mem_replicate hc]
  rfl

/-- Digits with a point in front of the last of them are the text of a numeral. -/
theorem exists_pointed {ds : List Char} (hleading : Leading ds) (places : Nat) :
    ∃ whole behind, pointed ds places = whole ++ Numeral.placesText behind ∧
      behind.length = places ∧ digitsValue (whole ++ behind) = digitsValue ds ∧ Leading whole ∧
      ∀ c ∈ behind, c.isDigit := by
  rcases Nat.eq_zero_or_pos places with rfl | hplaces
  · exact ⟨ds, [], by simp [pointed, Numeral.placesText], rfl, by rw [List.append_nil], hleading, by simp⟩
  rw [pointed, if_neg hplaces.ne']
  rcases Nat.lt_or_ge places ds.length with hlt | hge
  · have hpad : places + 1 - ds.length = 0 := by omega
    have hlength : (ds.drop (ds.length - places)).length = places := by
      rw [List.length_drop]
      omega
    refine ⟨ds.take (ds.length - places), ds.drop (ds.length - places), ?_, hlength, ?_,
      leading_take hleading (by omega), fun c hc => hleading.1.2 c (List.mem_of_mem_drop hc)⟩
    · rw [Numeral.placesText, if_neg (List.ne_nil_of_length_pos (by omega)), hpad, List.append_assoc]
      rfl
    · rw [List.take_append_drop]
  · -- All the digits are behind the point, and zeros in front of them.
    have hpad : places + 1 - ds.length = places - ds.length + 1 := by omega
    have hlength : (zeros (places - ds.length) ++ ds).length = places := by
      rw [List.length_append, zeros, List.length_replicate]
      omega
    refine ⟨['0'], zeros (places - ds.length) ++ ds, ?_, hlength,
      digitsValue_zeros_append (places - ds.length + 1) ds, leading_digitsOf 0, fun c hc =>
        (List.mem_append.1 hc).elim isDigit_of_mem_zeros (hleading.1.2 c)⟩
    rw [Numeral.placesText, if_neg (List.ne_nil_of_length_pos (by omega)), hpad]
    have hpadded : zeros (places - ds.length + 1) ++ ds =
        '0' :: (zeros (places - ds.length) ++ ds) := rfl
    simp only [hpadded, List.length_cons, hlength, Nat.add_sub_cancel_left]
    rfl

theorem leading_append_zeros {n : Nat} (hn : n ≠ 0) (count : Nat) :
    Leading (digitsOf n ++ zeros count) := by
  have hdigits := digits_digitsOf n
  refine ⟨⟨List.append_ne_nil_of_left_ne_nil hdigits.1 _, fun c hc =>
    (List.mem_append.1 hc).elim (hdigits.2 c) isDigit_of_mem_zeros⟩, fun t ht => ?_⟩
  cases hds : digitsOf n with
  | nil => exact absurd hds hdigits.1
  | cons c ds =>
    rw [hds, List.cons_append, List.cons.injEq] at ht
    rw [ht.1] at hds
    exact absurd hds (digitsOf_ne_zero_cons hn ds)

/-- In tenths, the zero behind the point is one more digit. -/
theorem value_tenths {d : Decimal} {whole : List Char} {k : Nat} (hexponent : d.exponent = k)
    (hwhole : digitsValue whole = d.digits * 10 ^ k) :
    (Numeral.decimal ⟨whole, ['0'], none⟩).value = d.value := by
  have hten : (10 : ℚ) ≠ 0 := by norm_num
  have htenths := digitsValue_append_zeros whole 1
  have hdecimal : Numeral.decimal ⟨whole, ['0'], none⟩ = ⟨d.digits * 10 ^ k * 10, -1⟩ := by
    rw [← hwhole]
    exact congrArg (Decimal.mk · _) htenths
  rw [hdecimal, Decimal.value, Decimal.value, hexponent]
  push_cast
  rw [zpow_neg_one, mul_assoc, mul_inv_cancel₀ hten, mul_one, zpow_natCast]

theorem leading_positional (d : Decimal) (k : Nat) :
    Leading (digitsOf d.digits ++ (if d.digits = 0 then [] else zeros k)) ∧
      digitsValue (digitsOf d.digits ++ (if d.digits = 0 then [] else zeros k)) =
        d.digits * 10 ^ k := by
  split
  case isTrue hzero =>
    rw [List.append_nil, digitsValue_digitsOf, hzero, Nat.zero_mul]
    exact ⟨leading_digitsOf 0, rfl⟩
  case isFalse hne =>
    rw [digitsValue_append_zeros, digitsValue_digitsOf]
    exact ⟨leading_append_zeros hne k, rfl⟩

/-- A decimal without an exponent is written as a numeral, and a zero is written behind the point if
the decimal is whole. -/
theorem exists_positional (d : Decimal) : ∃ n : Numeral,
    n.text = d.positional ++ (if 0 ≤ d.exponent then ".0".toList else []) ∧
      n.Proper ∧ ¬ n.IsWhole ∧ n.decimal.value = d.value := by
  rw [Decimal.positional]
  split
  case isTrue hexponent =>
    obtain ⟨k, hk⟩ := Int.eq_ofNat_of_zero_le hexponent
    rw [hk, Int.toNat_natCast]
    obtain ⟨hleading, hdigits⟩ := leading_positional d k
    exact ⟨⟨_, ['0'], none⟩, List.append_nil _, ⟨hleading, by simp, by simp⟩,
      by simp [Numeral.IsWhole], value_tenths hk hdigits⟩
  case isFalse hexponent =>
    obtain ⟨whole, behind, htext, hlength, hdigits, hwhole, hbehind⟩ :=
      exists_pointed (leading_digitsOf d.digits) (-d.exponent).toNat
    have hne : behind ≠ [] := List.ne_nil_of_length_pos (by omega)
    have hdecimal : Numeral.decimal ⟨whole, behind, none⟩ = d := by
      rw [digitsValue_digitsOf] at hdigits
      have hexponent : 0 - (behind.length : Int) = d.exponent := by omega
      simp only [Numeral.decimal, Numeral.power, hdigits, hexponent]
    refine ⟨⟨whole, behind, none⟩, ?_, ⟨hwhole, hbehind, by simp⟩, fun h => hne h.1, ?_⟩
    · rw [Numeral.text, htext, Numeral.powerText]
    · rw [hdecimal]

/-- A decimal with its first digit alone before the point and an exponent is written as a numeral. -/
theorem exists_exponential (d : Decimal) : ∃ n : Numeral,
    n.text = pointed (digitsOf d.digits) ((digitsOf d.digits).length - 1) ++ ['e'] ++
      (if (digitsOf d.digits).length + d.exponent - 1 < 0 then ['-'] else ['+']) ++
      digitsOf ((digitsOf d.digits).length + d.exponent - 1).natAbs ∧
      n.Proper ∧ ¬ n.IsWhole ∧ n.decimal = d := by
  have hpos : 0 < (digitsOf d.digits).length := Nat.length_toDigits_pos
  generalize hpower : ((digitsOf d.digits).length + d.exponent - 1 : Int) = power
  obtain ⟨whole, behind, htext, hlength, hdigits, hwhole, hbehind⟩ :=
    exists_pointed (leading_digitsOf d.digits) ((digitsOf d.digits).length - 1)
  refine ⟨⟨whole, behind, some (power < 0, digitsOf power.natAbs)⟩, ?_, ⟨hwhole, hbehind, ?_⟩,
    by simp [Numeral.IsWhole], ?_⟩
  · rw [htext, Numeral.text]
    by_cases hnegative : power < 0 <;> simp [Numeral.powerText, hnegative]
  · rintro negative ds heq
    cases heq
    exact digits_digitsOf power.natAbs
  · rw [digitsValue_digitsOf] at hdigits
    have hsigned : signed (power < 0) (digitsValue (digitsOf power.natAbs)) = power := by
      rw [digitsValue_digitsOf, signed]
      by_cases hnegative : power < 0
      · rw [decide_eq_true hnegative, if_pos rfl]
        omega
      · rw [decide_eq_false hnegative, if_neg Bool.false_ne_true]
        omega
    have hexponent : power - behind.length = d.exponent := by omega
    simp only [Numeral.decimal, Numeral.power, hdigits, hsigned, hexponent]

/-- The text of a magnitude is a numeral with a point or an exponent, which stands for its fewest
digits. -/
theorem exists_numeral (steps : Nat) : ∃ n : Numeral, n.text = scientificOf steps ∧ n.Proper ∧
    ¬ n.IsWhole ∧ n.decimal.value = (shortest steps).value := by
  simp only [scientificOf]
  split
  · exact exists_positional (shortest steps)
  · obtain ⟨n, htext, hproper, hwhole, hdecimal⟩ := exists_exponential (shortest steps)
    exact ⟨n, htext, hproper, hwhole, by rw [hdecimal]⟩

end Binary64
end ColumnAudit.Number
