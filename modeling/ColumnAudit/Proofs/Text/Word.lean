import ColumnAudit.Proofs.Text.Blank
import ColumnAudit.Text.Word
import Mathlib.Data.List.TakeDrop

/-! # Words of texts with known parts

A character that belongs to no word can be passed over (`words_cons_of_not_word`), and a longest
stretch of word characters is the first word (`words_append`). A stretch between two characters that
belong to no word has its own words wherever it stands (`mem_words_between`). The words of a text are
its runs (`mem_words_iff`), and the runs of such a stretch are runs of the whole text
(`isRun_between_iff`). They are also the pieces between the characters of no word (`map_fst_words`). The
characters of identifiers are word characters.
-/

namespace ColumnAudit.Text
set_option autoImplicit false

theorem isWord_of_isNamePart {c : Char} (h : isNamePart c) : isWord c := by
  have hbound := (toNat_lt_of_isNamePart h).2
  rw [isWord, if_pos hbound]
  exact h

theorem not_isWord_of_isBlank {c : Char} (h : isBlank c) : isWord c = false := by
  have hall : ∀ n ∈ List.range' 0x09 5 ++ [0x20, 0x85, 0xA0, 0x1680] ++ List.range' 0x2000 11 ++
      [0x2028, 0x2029, 0x202F, 0x205F, 0x3000], isWord (Char.ofNat n) = false := by
    decide +kernel
  have hmem : c.toNat ∈ List.range' 0x09 5 ++ [0x20, 0x85, 0xA0, 0x1680] ++ List.range' 0x2000 11 ++
      [0x2028, 0x2029, 0x202F, 0x205F, 0x3000] := by
    simp only [isBlank, Bool.or_eq_true, Bool.and_eq_true, decide_eq_true_eq, beq_iff_eq] at h
    simp only [List.mem_append, List.mem_range'_1, List.mem_cons, List.not_mem_nil]
    omega
  rw [← Char.ofNat_toNat c]
  exact hall c.toNat hmem

theorem length_words_le (t : List Char) : (words t).length ≤ t.length := by
  have hfrom : ∀ inside, (wordsFrom inside t).length ≤ t.length := by
    induction t with
    | nil => intro inside; simp [wordsFrom]
    | cons c t ih =>
      intro inside
      have htrue := ih true
      have hfalse := ih false
      rw [wordsFrom, List.length_cons]
      split
      · split
        · omega
        · rw [List.length_cons]
          omega
      · omega
  exact hfrom false

theorem words_cons_of_not_word {c : Char} (hc : isWord c = false) (t : List Char) :
    words (c :: t) = words t := by
  rw [words, wordsFrom, hc]
  rfl

theorem words_append_of_not_word {a : List Char} (ha : ∀ c ∈ a, isWord c = false)
    (t : List Char) : words (a ++ t) = words t := by
  induction a with
  | nil => rfl
  | cons c a ih =>
    rw [List.cons_append, words_cons_of_not_word (ha c (by simp)),
      ih fun d hd => ha d (List.mem_cons_of_mem c hd)]

/-- A text does not go on with a word character. -/
def EndsWord (t : List Char) : Prop := ∀ c ∈ t.head?, isWord c = false

theorem wordsFrom_true_append {w : List Char} (hw : ∀ c ∈ w, isWord c) {t : List Char}
    (ht : EndsWord t) : wordsFrom true (w ++ t) = words t := by
  induction w with
  | nil =>
    cases t with
    | nil => rfl
    | cons c t =>
      have hc : isWord c = false := ht c rfl
      rw [List.nil_append, words_cons_of_not_word hc, wordsFrom, hc]
      rfl
  | cons c w ih =>
    rw [List.cons_append, wordsFrom, hw c (by simp)]
    exact ih fun d hd => hw d (List.mem_cons_of_mem c hd)

/-- A longest stretch of word characters at the front is the first word. -/
theorem words_append {w : List Char} (hne : w ≠ []) (hw : ∀ c ∈ w, isWord c) {t : List Char}
    (ht : EndsWord t) : words (w ++ t) = (w, t) :: words t := by
  obtain ⟨htake, hdrop⟩ := takeWhile_dropWhile_append hw ht
  have hspan : (w ++ t).span isWord = (w, t) := by
    rw [List.span_eq_takeWhile_dropWhile, htake, hdrop]
  cases w with
  | nil => exact absurd rfl hne
  | cons c w =>
    rw [List.cons_append] at hspan ⊢
    rw [words, wordsFrom, hw c (by simp), hspan,
      wordsFrom_true_append (fun d hd => hw d (List.mem_cons_of_mem c hd)) ht]
    rfl

/-! ## Stretches between breaks -/

/-- The words behind a break are those of the text behind it. -/
theorem exists_words_append_cons {c : Char} (hc : isWord c = false) (u s : List Char) :
    ∃ front, words (u ++ c :: s) = front ++ words s := by
  have hfrom : ∀ inside, ∃ front, wordsFrom inside (u ++ c :: s) = front ++ words s := by
    induction u with
    | nil => exact fun inside => ⟨[], by rw [List.nil_append, wordsFrom, hc]; rfl⟩
    | cons d u ih =>
      intro inside
      rw [List.cons_append, wordsFrom]
      split
      · obtain ⟨front, hfront⟩ := ih true
        split
        · exact ⟨front, hfront⟩
        · exact ⟨_ :: front, by rw [hfront, List.cons_append]⟩
      · exact ih false
  exact hfrom false

/-- The words before a break do not depend on what comes behind it. -/
theorem map_fst_words_append_cons {d : Char} (hd : isWord d = false) (l v : List Char) :
    (words (l ++ d :: v)).map Prod.fst = (words l).map Prod.fst ++ (words v).map Prod.fst := by
  have hbreak : ∀ inside, wordsFrom inside (d :: v) = words v := by
    intro inside
    rw [wordsFrom, hd]
    rfl
  have hfrom : ∀ inside, (wordsFrom inside (l ++ d :: v)).map Prod.fst =
      (wordsFrom inside l).map Prod.fst ++ (words v).map Prod.fst := by
    induction l with
    | nil =>
      intro inside
      rw [List.nil_append, hbreak]
      rfl
    | cons c l ih =>
      intro inside
      have hspan : ((c :: (l ++ d :: v)).span isWord).1 = ((c :: l).span isWord).1 := by
        rw [List.span_eq_takeWhile_dropWhile, List.span_eq_takeWhile_dropWhile]
        exact (takeWhile_dropWhile_append_cons hd (c :: l) v).1
      rw [List.cons_append, wordsFrom, wordsFrom]
      split
      · split
        · exact ih true
        · rw [List.map_cons, List.map_cons, hspan, ih true, List.cons_append]
      · exact ih false
  exact hfrom false

theorem mem_words_between {c d : Char} (hc : isWord c = false) (hd : isWord d = false)
    {l w : List Char} (hw : w ∈ (words l).map Prod.fst) (u v : List Char) :
    w ∈ (words (u ++ c :: (l ++ d :: v))).map Prod.fst := by
  obtain ⟨front, hfront⟩ := exists_words_append_cons hc u (l ++ d :: v)
  rw [hfront, List.map_append, map_fst_words_append_cons hd]
  exact List.mem_append_right _ (List.mem_append_left _ hw)

/-! ## Places of words -/

/-- A longest stretch of word characters, with what stands on both sides of it. -/
structure IsRun (front word rest : List Char) : Prop where
  nonempty : word ≠ []
  word : ∀ c ∈ word, isWord c
  starts : ∀ c ∈ front.getLast?, isWord c = false
  ends : EndsWord rest

theorem isRun_span {c : Char} (hc : isWord c = true) (t : List Char) :
    IsRun [] ((c :: t).takeWhile isWord) ((c :: t).dropWhile isWord) := by
  refine ⟨?_, fun d hd => List.mem_takeWhile_imp hd, by rintro d ⟨⟩, ?_⟩
  · rw [List.takeWhile_cons, if_pos hc]
    exact List.cons_ne_nil c _
  · intro d hd
    have hdrop := List.head?_dropWhile_not isWord (c :: t)
    rw [Option.mem_def.1 hd] at hdrop
    simpa using hdrop

/-- A run behind a character that does not belong to it. -/
theorem IsRun.cons {c : Char} {front word rest : List Char} (h : IsRun front word rest)
    (hc : front = [] → isWord c = false) : IsRun (c :: front) word rest := by
  refine ⟨h.nonempty, h.word, ?_, h.ends⟩
  intro d hd
  cases front with
  | nil =>
    obtain rfl := Option.some.inj hd
    exact hc rfl
  | cons e front =>
    rw [List.getLast?_cons_cons] at hd
    exact h.starts d hd

/-- In the middle of a word the words that are listed start behind it. -/
theorem exists_isRun_of_mem_wordsFrom {inside : Bool} {t word rest : List Char}
    (h : (word, rest) ∈ wordsFrom inside t) :
    ∃ front, IsRun front word rest ∧ t = front ++ (word ++ rest) ∧ (inside = true → front ≠ []) := by
  induction t generalizing inside with
  | nil => cases h
  | cons c t ih =>
    have hlater : ∀ inside', (inside' = false → isWord c = false) →
        (word, rest) ∈ wordsFrom inside' t →
        ∃ front, IsRun front word rest ∧ c :: t = front ++ (word ++ rest) ∧
          (inside = true → front ≠ []) := by
      intro inside' hbreak h
      obtain ⟨front, hrun, rfl, hfront⟩ := ih h
      refine ⟨c :: front, hrun.cons fun hnil => hbreak ?_, rfl, fun _ => List.cons_ne_nil c front⟩
      exact Bool.eq_false_iff.2 fun hinside => hfront hinside hnil
    rw [wordsFrom] at h
    split at h
    · rename_i hc
      split at h
      · exact hlater true nofun h
      · rename_i hinside
        rcases List.mem_cons.1 h with hfirst | h
        · rw [List.span_eq_takeWhile_dropWhile] at hfirst
          obtain ⟨rfl, rfl⟩ := Prod.mk.inj hfirst
          refine ⟨[], isRun_span hc t, ?_, fun htrue => absurd htrue hinside⟩
          rw [List.nil_append, List.takeWhile_append_dropWhile]
        · exact hlater true nofun h
    · rename_i hc
      exact hlater false (fun _ => Bool.eq_false_iff.2 hc) h

/-- The words of a text are its longest stretches of word characters. -/
theorem mem_words_iff {word rest t : List Char} :
    (word, rest) ∈ words t ↔ ∃ front, IsRun front word rest ∧ t = front ++ (word ++ rest) := by
  constructor
  · intro h
    obtain ⟨front, hrun, ht, -⟩ := exists_isRun_of_mem_wordsFrom h
    exact ⟨front, hrun, ht⟩
  · rintro ⟨front, hrun, rfl⟩
    have hfirst : (word, rest) ∈ words (word ++ rest) := by
      rw [words_append hrun.nonempty hrun.word hrun.ends]
      exact List.mem_cons_self
    rcases List.eq_nil_or_concat front with rfl | ⟨u, c, rfl⟩
    · exact hfirst
    · have hbreak : isWord c = false := hrun.starts c (by simp)
      obtain ⟨before, hbefore⟩ := exists_words_append_cons hbreak u (word ++ rest)
      have hassoc : u ++ [c] ++ (word ++ rest) = u ++ c :: (word ++ rest) := by simp
      rw [List.concat_eq_append, hassoc, hbefore]
      exact List.mem_append_right before hfirst

/-- Between two characters that belong to no word the words are those of the whole text. -/
theorem isRun_between_iff {c d : Char} (hc : isWord c = false) (hd : isWord d = false)
    {front word rest : List Char} (u v : List Char) :
    IsRun (u ++ c :: front) word (rest ++ d :: v) ↔ IsRun front word rest := by
  have hstarts : (∀ e ∈ (u ++ c :: front).getLast?, isWord e = false) ↔
      ∀ e ∈ front.getLast?, isWord e = false := by
    rcases List.eq_nil_or_concat front with rfl | ⟨front, e, rfl⟩
    · simp [hc]
    · have hassoc : u ++ c :: (front ++ [e]) = (u ++ c :: front) ++ [e] := by simp
      rw [List.concat_eq_append, hassoc, List.getLast?_concat, List.getLast?_concat]
  have hends : EndsWord (rest ++ d :: v) ↔ EndsWord rest := by
    unfold EndsWord
    cases rest with
    | nil => simp [hd]
    | cons e rest => simp
  constructor
  · exact fun h => ⟨h.nonempty, h.word, hstarts.1 h.starts, hends.1 h.ends⟩
  · exact fun h => ⟨h.nonempty, h.word, hstarts.2 h.starts, hends.2 h.ends⟩

/-! ## Words as pieces -/

/-- The words of a text are what is left between the characters that belong to no word. -/
theorem map_fst_words (t : List Char) :
    (words t).map Prod.fst = (t.splitOnP fun c => !isWord c).filter (· ≠ []) := by
  induction hn : t.length using Nat.strong_induction_on generalizing t with
  | _ n ih =>
    have hsplit : t = t.takeWhile isWord ++ t.dropWhile isWord := List.takeWhile_append_dropWhile.symm
    have hrun : ∀ c ∈ t.takeWhile isWord, isWord c := fun c hc => List.mem_takeWhile_imp hc
    have hrest := List.head?_dropWhile_not isWord t
    generalize t.takeWhile isWord = run at *
    generalize t.dropWhile isWord = rest at *
    subst hsplit
    have hpiece : ∀ c ∈ run, (!isWord c) = false := fun c hc => by rw [hrun c hc, Bool.not_true]
    have hfront : ∀ u, EndsWord u → words (run ++ u) = if run = [] then words u else (run, u) :: words u := by
      intro u hu
      split
      · rename_i hempty
        rw [hempty, List.nil_append]
      · rename_i hne
        exact words_append hne hrun hu
    cases rest with
    | nil =>
      rw [List.append_nil, List.splitOnP_eq_singleton hpiece]
      have hwords := hfront [] nofun
      rw [List.append_nil] at hwords
      rw [hwords]
      split
      · rename_i hempty
        rw [hempty]
        rfl
      · rename_i hne
        rw [List.filter_cons_of_pos (by simpa using hne)]
        rfl
    | cons d rest =>
      have hd : isWord d = false := by simpa using hrest
      have hlater := ih rest.length (by rw [List.length_append, List.length_cons] at hn; omega) rest rfl
      rw [List.splitOnP_append_cons_of_forall_mem hpiece d (by rw [hd]; rfl),
        hfront _ (by rintro c ⟨⟩; exact hd), words_cons_of_not_word hd]
      split
      · rename_i hempty
        rw [List.filter_cons_of_neg (by simpa using hempty), hlater]
      · rename_i hne
        rw [List.filter_cons_of_pos (by simpa using hne), List.map_cons, hlater]

end ColumnAudit.Text
