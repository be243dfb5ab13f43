import ColumnAudit.Proofs.Text.Blank
import ColumnAudit.Proofs.Text.Pattern
import ColumnAudit.Source.SnakeCase

/-! # Snake-case names in a text

A snake-case name is a word of a certain shape (`isSnakeCase_iff`), which is also what the pattern for it
takes up (`reads_snakePattern`). Joined segments are such a name if the first one has no digit
(`isSnakeCase_joined`). The names that a text holds between word boundaries are therefore those of its
words that have the shape (`snakeNames_eq_filter_words`); no part of a longer word is one. A key of a
payload is such a word, too, and a colon is the first thing behind it that is not blank
(`snakeKeys_eq_filterMap_words`).
-/

namespace ColumnAudit.Source
open Text
set_option autoImplicit false

/-! ## Names of several segments -/

theorem not_isSegmentChar_underscore : isSegmentChar '_' = false := by decide

theorem all_segments_iff {ss : List (List Char)} :
    (ss.all fun s => !s.isEmpty && s.all isSegmentChar) = true ↔
      ∀ s ∈ ss, s ≠ [] ∧ ∀ c ∈ s, isSegmentChar c := by
  simp only [List.all_eq_true, Bool.and_eq_true, Bool.not_eq_true', List.isEmpty_eq_false_iff]

/-- Joined segments are a snake-case name if the first one has no digit. -/
theorem isSnakeCase_joined {first : List Char} {others : List (List Char)} (hothers : others ≠ [])
    (h : ∀ s ∈ first :: others, s ≠ [] ∧ ∀ c ∈ s, isSegmentChar c) :
    isSnakeCase (['_'].intercalate (first :: others)) = first.all Char.isLower := by
  have hpieces : pieces '_' (['_'].intercalate (first :: others)) = first :: others := by
    apply pieces_intercalate (List.cons_ne_nil first others)
    intro s hs hmem
    have hunderscore := (h s hs).2 '_' hmem
    rw [not_isSegmentChar_underscore] at hunderscore
    cases hunderscore
  have hrest : (others.all fun s => !s.isEmpty && s.all isSegmentChar) = true :=
    all_segments_iff.2 fun s hs => h s (List.mem_cons_of_mem first hs)
  have hfirst : first.isEmpty = false := List.isEmpty_eq_false_iff.2 (h first (by simp)).1
  unfold isSnakeCase
  rw [hpieces]
  cases others with
  | nil => exact absurd rfl hothers
  | cons second others =>
    show (!first.isEmpty && first.all Char.isLower && _) = first.all Char.isLower
    rw [hrest, hfirst, Bool.and_true, Bool.not_false, Bool.true_and]

/-- Lower-case letters, then one or more segments of lower-case letters and digits, each behind an
underscore. -/
def IsSnakeWord (word : List Char) : Prop :=
  ∃ first others, first ≠ [] ∧ (∀ c ∈ first, c.isLower) ∧ others ≠ [] ∧
    (∀ s ∈ others, s ≠ [] ∧ ∀ c ∈ s, isSegmentChar c) ∧ word = ['_'].intercalate (first :: others)

theorem isSnakeCase_iff {word : List Char} : isSnakeCase word ↔ IsSnakeWord word := by
  constructor
  · intro h
    have hjoined := join_pieces '_' word
    unfold isSnakeCase at h
    split at h
    · cases h
    · cases h
    · rename_i first others hothers hpieces
      rw [hpieces] at hjoined
      obtain ⟨hfirst, hsegments⟩ := (Bool.and_eq_true _ _).mp h
      obtain ⟨hne, hlower⟩ := (Bool.and_eq_true _ _).mp hfirst
      rw [Bool.not_eq_true', List.isEmpty_eq_false_iff] at hne
      exact ⟨first, others, hne, List.all_eq_true.1 hlower, hothers, all_segments_iff.1 hsegments,
        hjoined.symm⟩
  · rintro ⟨first, others, hne, hlower, hothers, hsegments, rfl⟩
    rw [isSnakeCase_joined hothers, List.all_eq_true]
    · exact hlower
    · intro s hs
      rcases List.mem_cons.1 hs with rfl | hs
      · refine ⟨hne, fun c hc => ?_⟩
        unfold isSegmentChar
        rw [hlower c hc, Bool.true_or]
      · exact hsegments s hs

instance : DecidablePred IsSnakeWord := fun _ => decidable_of_iff _ isSnakeCase_iff

/-! ## The pattern -/

theorem IsSnakeWord.isWord_of_mem {word : List Char} (h : IsSnakeWord word) :
    word ≠ [] ∧ ∀ c ∈ word, isWord c = true := by
  have hpart : ∀ c, isSegmentChar c = true → isWord c = true := by
    intro c hc
    refine isWord_of_isNamePart ?_
    have hletter : c.isAlpha = (c.isUpper || c.isLower) := rfl
    simp only [isSegmentChar, Bool.or_eq_true] at hc
    simp only [isNamePart, Char.isAlphanum, hletter, Bool.or_eq_true]
    exact .inl (hc.imp .inr id)
  obtain ⟨first, others, hne, hlower, -, hsegments, rfl⟩ := h
  constructor
  · obtain ⟨c, first, rfl⟩ := List.exists_cons_of_ne_nil hne
    cases others <;> simp
  · refine forall_mem_intercalate (List.forall_mem_singleton.2 rfl) ?_
    intro s hs c hc
    rcases List.mem_cons.1 hs with rfl | hs
    · exact hpart c (by rw [isSegmentChar, hlower c hc, Bool.true_or])
    · exact hpart c ((hsegments s hs).2 c hc)

theorem intercalate_underscore (first : List Char) (others : List (List Char)) :
    ['_'].intercalate (first :: others) = first ++ (others.map fun s => '_' :: s).flatten := by
  induction others generalizing first with
  | nil => simp
  | cons second others ih =>
    rw [List.intercalate_cons_cons, ih second, List.map_cons, List.flatten_cons, List.append_assoc]
    rfl

/-- A segment with the underscore before it. -/
theorem reads_segment : (Pattern.seq (.one fun c => c == '_') (.many (.one isSegmentChar))).Reads
    fun w => ∃ s, (s ≠ [] ∧ ∀ c ∈ s, isSegmentChar c = true) ∧ w = '_' :: s := by
  refine ((Pattern.Reads.one _).seq (.manyOne isSegmentChar)).congr fun w => ?_
  constructor
  · rintro ⟨_, s, ⟨c, hc, rfl⟩, hs, rfl⟩
    rw [beq_iff_eq.1 hc]
    exact ⟨s, hs, rfl⟩
  · rintro ⟨s, hs, rfl⟩
    exact ⟨['_'], s, ⟨'_', rfl, rfl⟩, hs, rfl⟩

theorem reads_snakePattern : snakePattern.Reads IsSnakeWord := by
  refine ((Pattern.Reads.manyOne Char.isLower).seq reads_segment.many).congr fun w => ?_
  constructor
  · rintro ⟨first, _, ⟨hne, hlower⟩, ⟨ws, hws, hsegments, rfl⟩, rfl⟩
    have hmap : (ws.map List.tail).map (fun s => '_' :: s) = ws := by
      rw [List.map_map]
      refine (List.map_congr_left fun v hv => ?_).trans (List.map_id ws)
      obtain ⟨s, -, rfl⟩ := hsegments v hv
      rfl
    refine ⟨first, ws.map List.tail, hne, hlower, fun hnil => hws (List.map_eq_nil_iff.1 hnil), ?_, ?_⟩
    · intro s hs
      obtain ⟨v, hv, rfl⟩ := List.mem_map.1 hs
      obtain ⟨segment, hsegment, rfl⟩ := hsegments v hv
      exact hsegment
    · rw [intercalate_underscore, hmap]
  · rintro ⟨first, others, hne, hlower, hothers, hsegments, rfl⟩
    refine ⟨first, _, ⟨hne, hlower⟩, ⟨others.map fun s => '_' :: s, ?_, ?_, rfl⟩, ?_⟩
    · exact fun hnil => hothers (List.map_eq_nil_iff.1 hnil)
    · intro v hv
      obtain ⟨s, hs, rfl⟩ := List.mem_map.1 hv
      exact ⟨s, hsegments s hs, rfl⟩
    · exact intercalate_underscore first others

/-! ## Names of a text -/

theorem snakeNames_eq_filter_words (t : List Char) :
    snakeNames t = (((words t).map Prod.fst).filter (IsSnakeWord ·)).map String.ofList := by
  rw [snakeNames, Pattern.found_wholeWord reads_snakePattern fun _ => IsSnakeWord.isWord_of_mem]

theorem snakeNames_eq_filterMap_words (t : List Char) :
    snakeNames t = (words t).filterMap fun (word, _) =>
      if isSnakeCase word then some (String.ofList word) else none := by
  rw [snakeNames_eq_filter_words]
  induction words t with
  | nil => rfl
  | cons first others ih =>
    obtain ⟨word, rest⟩ := first
    rw [List.map_cons, List.filterMap_cons, ← ih]
    dsimp only
    by_cases hsnake : isSnakeCase word
    · have hword : decide (IsSnakeWord word) = true := decide_eq_true (isSnakeCase_iff.1 hsnake)
      rw [List.filter_cons, hword, if_pos rfl, if_pos hsnake]
      rfl
    · have hword : decide (IsSnakeWord word) = false :=
        decide_eq_false fun hword => hsnake (isSnakeCase_iff.2 hword)
      rw [List.filter_cons, hword, if_neg Bool.false_ne_true, if_neg hsnake]

/-- The names of a text are its longest stretches of word characters that have the shape of a name, in
the order in which they stand there. -/
theorem snakeNames_eq_runs (t : List Char) : snakeNames t =
    ((t.splitOnP fun c => !isWord c).filter (IsSnakeWord ·)).map String.ofList := by
  rw [snakeNames_eq_filter_words, map_fst_words, List.filter_filter]
  refine congrArg (List.map String.ofList) (List.filter_congr fun run _ => ?_)
  by_cases hsnake : IsSnakeWord run
  · have hne : run ≠ [] := hsnake.isWord_of_mem.1
    simp [hsnake, hne]
  · simp [hsnake]

/-! ## Keys of a text -/

/-- A name with a colon behind it, and blanks at most in between. -/
def IsKeyWord (word rest : List Char) : Prop := IsSnakeWord word ∧ (trimStart rest).head? = some ':'

instance (word rest : List Char) : Decidable (IsKeyWord word rest) :=
  inferInstanceAs (Decidable (_ ∧ _))

/-- How far a key goes behind its name: to its colon. -/
def keyExtra (rest : List Char) : Nat := (rest.takeWhile isBlank).length + 1

theorem isKeyWord_iff {word rest : List Char} : IsKeyWord word rest ↔ IsSnakeWord word ∧
    ∃ gap behind, (∀ c ∈ gap, isBlank c) ∧ rest = gap ++ ':' :: behind :=
  and_congr_right fun _ => head?_trimStart_eq_some_iff (by decide)

theorem keyExtra_append {gap : List Char} (hgap : ∀ c ∈ gap, isBlank c) (behind : List Char) :
    keyExtra (gap ++ ':' :: behind) = (gap ++ [':']).length := by
  have htake := (takeWhile_dropWhile_append (p := isBlank) (b := ':' :: behind) hgap (by rintro _ ⟨⟩; decide)).1
  rw [keyExtra, htake, List.length_append]
  rfl

theorem not_isWord_of_mem_gap {gap : List Char} (hgap : ∀ c ∈ gap, isBlank c) :
    ∀ c ∈ gap ++ [':'], isWord c = false := by
  intro c hc
  rcases List.mem_append.1 hc with hc | hc
  · exact not_isWord_of_isBlank (hgap c hc)
  · rw [List.mem_singleton.1 hc]
    decide

/-- The blanks and the colon behind a key. -/
theorem reads_colon : (Pattern.seq (.star (.one isBlank)) (.literal [':'])).Reads
    fun w => ∃ gap, (∀ c ∈ gap, isBlank c = true) ∧ w = gap ++ [':'] := by
  refine ((Pattern.Reads.starOne isBlank).seq (.literal [':'])).congr fun w => ?_
  constructor
  · rintro ⟨gap, _, hgap, rfl, rfl⟩
    exact ⟨gap, hgap, rfl⟩
  · rintro ⟨gap, hgap, rfl⟩
    exact ⟨gap, [':'], hgap, rfl, rfl⟩

theorem first?_snakeKeyPattern (previous : Option Char) (t : List Char) :
    snakeKeyPattern.first? previous t =
      if previous.any isWord = false ∧ IsKeyWord (t.takeWhile isWord) (t.dropWhile isWord) then
        some (t.takeWhile isWord, (t.takeWhile isWord).length + keyExtra (t.dropWhile isWord))
      else none := by
  have hmatch : ∀ found, snakeKeyPattern.first? previous t = some found →
      previous.any isWord = false ∧ IsKeyWord (t.takeWhile isWord) (t.dropWhile isWord) ∧
        found = (t.takeWhile isWord, (t.takeWhile isWord).length + keyExtra (t.dropWhile isWord)) := by
    rintro ⟨word, size⟩ h
    obtain ⟨_, _, behind, hboundary, hword, ⟨gap, hgap, rfl⟩, ht, rfl⟩ :=
      Grouped.exists_of_first? reads_snakePattern reads_colon h
    obtain ⟨hstart, rfl⟩ := Pattern.takes_boundary_iff.1 hboundary
    rw [List.append_assoc] at ht
    dsimp only [List.singleton_append] at ht
    subst ht
    obtain ⟨hne, hall⟩ := hword.isWord_of_mem
    have hends : EndsWord (gap ++ ':' :: behind) := by
      cases gap with
      | nil =>
        rintro _ ⟨⟩
        decide
      | cons d gap =>
        rintro _ ⟨⟩
        exact not_isWord_of_isBlank (hgap d List.mem_cons_self)
    obtain ⟨htake, hdrop⟩ := takeWhile_dropWhile_append hall hends
    rw [htake, hdrop, keyExtra_append hgap]
    refine ⟨(Pattern.isBoundary_iff_of_run hne hall).1 hstart,
      isKeyWord_iff.2 ⟨hword, gap, behind, hgap, rfl⟩, ?_⟩
    rw [Nat.zero_add]
  split
  · rename_i hrun
    obtain ⟨hprevious, hkey⟩ := hrun
    obtain ⟨hword, gap, behind, hgap, hrest⟩ := isKeyWord_iff.1 hkey
    obtain ⟨hne, hall⟩ := hword.isWord_of_mem
    have ht : t = t.takeWhile isWord ++ (gap ++ ':' :: behind) := by
      rw [← hrest, List.takeWhile_append_dropWhile]
    have hstart : Place.isBoundary ⟨previous, t, 0⟩ = true := by
      rw [ht]
      exact (Pattern.isBoundary_iff_of_run hne hall).2 hprevious
    have hsome : (snakeKeyPattern.first? previous t).isSome :=
      Grouped.isSome_first? reads_snakePattern reads_colon (.boundary hstart) hword
        (r := behind) ⟨gap, hgap, rfl⟩ (by simpa using ht)
    obtain ⟨found, hfound⟩ := Option.isSome_iff_exists.1 hsome
    rw [hfound, (hmatch found hfound).2.2]
  · rename_i hnot
    rw [Option.eq_none_iff_forall_ne_some]
    intro found hfound
    obtain ⟨hprevious, hkey, -⟩ := hmatch found hfound
    exact hnot ⟨hprevious, hkey⟩

theorem captured_snakeKeyPattern (t : List Char) : snakeKeyPattern.captured t =
    ((words t).filter fun (word, rest) => IsKeyWord word rest).map Prod.fst := by
  refine Pattern.searchFrom_words IsKeyWord keyExtra first?_snakeKeyPattern (fun word rest h => ?_) none t
  obtain ⟨hword, gap, behind, hgap, rfl⟩ := isKeyWord_iff.1 h
  exact ⟨hword.isWord_of_mem.1, gap ++ [':'], behind, by simp, (keyExtra_append hgap behind).symm,
    not_isWord_of_mem_gap hgap⟩

/-- The keys of a text are its words of the shape that a colon follows. -/
theorem snakeKeys_eq_filterMap_words (t : List Char) :
    snakeKeys t = (words t).filterMap fun (word, rest) =>
      if isSnakeCase word && (trimStart rest).head? == some ':' then some (String.ofList word)
      else none := by
  rw [snakeKeys, captured_snakeKeyPattern]
  induction words t with
  | nil => rfl
  | cons first others ih =>
    obtain ⟨word, rest⟩ := first
    have hiff : (isSnakeCase word && (trimStart rest).head? == some ':') = true ↔ IsKeyWord word rest := by
      rw [Bool.and_eq_true, beq_iff_eq, isSnakeCase_iff, IsKeyWord]
    rw [List.filterMap_cons, ← ih]
    dsimp only
    by_cases hkey : IsKeyWord word rest
    · rw [List.filter_cons_of_pos (by simpa using hkey), if_pos (hiff.2 hkey)]
      rfl
    · rw [List.filter_cons_of_neg (by simpa using hkey), if_neg (mt hiff.1 hkey)]

end ColumnAudit.Source
