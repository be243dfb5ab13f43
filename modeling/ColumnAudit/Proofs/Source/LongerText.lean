import ColumnAudit.Proofs.Source.QueryPatterns

/-! # Sources that go on

When a text goes on, it uses at least the names that it used before (`fields_subset_append`). A match of a
pattern stays a match, but a call or a key that the old text leaves open may be closed by the new text
and then takes up the rest of the old one. For each pattern there is a lemma on what it swallows:

* a predicate call holds one dot only and a key one colon only, and a payload goes up to the first
  closing mark, so nothing is found behind such an opening (`occurrences_predicateName_of_open`,
  `occurrences_payload_of_open`, `typeKeysFrom_of_no_colon`);
* a select list may swallow select lists in other quotes, whose words are then its own
  (`snakeNames_of_open`).
-/

namespace ColumnAudit.Source
open Text
set_option autoImplicit false

/-! ## Predicates -/

theorem predicateName_append {t : List Char} {name : String} {size : Nat}
    (h : predicateName t = some (name, size)) :
    size ≤ t.length ∧ ∀ b, predicateName (t ++ b) = some (name, size) := by
  obtain ⟨operation, hop, rest, hne, hname, ht, hsize⟩ := predicateName_shape h
  have hlength := congrArg List.length ht
  simp only [List.length_append, List.length_cons] at hlength
  refine ⟨by omega, fun b => ?_⟩
  have hcall := predicateName_call hop hne hname (rest ++ b)
  rw [String.ofList_toList] at hcall
  have htext : t ++ b = '.' :: (operation.toList ++ '(' :: '\x27' :: (name.toList ++ '\x27' ::
      (rest ++ b))) := by
    rw [ht]
    simp
  rw [htext, hcall]
  congr 2
  omega

theorem occurrences_predicateName_of_open {t b : List Char} {name : String} {size : Nat}
    (hopen : predicateName t = none) (h : predicateName (t ++ b) = some (name, size)) :
    occurrences predicateName t = [] := by
  obtain ⟨operation, hop, rest, hne, hname, ht, -⟩ := predicateName_shape h
  have hnodot : '.' ∉ operation.toList ++ '(' :: '\x27' :: name.toList := fun hmem =>
    absurd (char_of_mem_predicateCall hop hname '.' hmem) (by decide)
  have hassoc : t ++ b = ('.' :: (operation.toList ++ '(' :: '\x27' :: name.toList)) ++
      '\x27' :: rest := by
    rw [ht]
    simp
  rcases prefix_or_reaches hassoc with hprefix | ⟨rest', ht', -⟩
  · cases t with
    | nil => rfl
    | cons c t =>
      obtain ⟨rfl, hback⟩ := List.cons_prefix_cons.1 hprefix
      have hrest : '.' ∉ t := fun hmem => hnodot (hback.subset hmem)
      have hskip := startsWithDot_predicateName.skip_of_none (b := []) hrest
      rw [List.append_nil] at hskip
      exact hskip hopen
  · have hcall := predicateName_call hop hne hname rest'
    have htext : t = '.' :: (operation.toList ++ '(' :: '\x27' :: (name.toList ++ '\x27' :: rest')) := by
      rw [ht']
      simp
    rw [htext, hcall] at hopen
    cases hopen

/-! ## Write payloads -/

theorem payload_append {t inside : List Char} {size : Nat} (h : payload t = some (inside, size)) :
    size ≤ t.length ∧ ∀ b, payload (t ++ b) = some (inside, size) := by
  obtain ⟨operation, hop, rest, hinside, ht, hsize⟩ := payload_shape h
  have hlength := congrArg List.length ht
  simp only [List.length_append, List.length_cons] at hlength
  refine ⟨by omega, fun b => ?_⟩
  have htext : t ++ b = '.' :: (operation.toList ++ '(' :: '\x7b' :: (inside ++ '\x7d' :: ')' ::
      (rest ++ b))) := by
    rw [ht]
    simp
  rw [htext, payload_call hop hinside (rest ++ b)]
  congr 2
  omega

theorem occurrences_payload_of_open {t b inside : List Char} {size : Nat}
    (hopen : payload t = none) (h : payload (t ++ b) = some (inside, size)) :
    occurrences payload t = [] := by
  obtain ⟨operation, hop, rest, hinside, ht, -⟩ := payload_shape h
  have hassoc : t ++ b = (('.' :: (operation.toList ++ ['('])) ++ '\x7b' :: (inside ++ ['\x7d'])) ++
      ')' :: rest := by
    rw [ht]
    simp
  rcases prefix_or_reaches hassoc with hprefix | ⟨rest', ht', -⟩
  · -- Nothing closes a payload before the one closing mark that the new text completes.
    have hopened : ¬ ['\x7d', ')'] <:+: t := by
      intro hmark
      have hops : ∀ o ∈ writeOperations, '\x7d' ∉ '.' :: (o.toList ++ ['(']) := by decide
      rcases pair_infix_append_cons (by decide) (by decide) (hmark.trans hprefix.isInfix) with hm | hm
      · exact hops operation hop (hm.subset (by simp))
      · exact hinside (infix_of_infix_concat (m := ['\x7d']) (by decide) hm)
    refine List.eq_nil_iff_forall_not_mem.2 fun found hfound => ?_
    obtain ⟨s, size', hs, hmatch⟩ := exists_suffix_of_mem_occurrences hfound
    obtain ⟨operation', -, rest', -, hshape, -⟩ := payload_shape hmatch
    refine hopened (List.IsInfix.trans ⟨'.' :: (operation'.toList ++ '(' :: '\x7b' :: found), rest', ?_⟩
      hs.isInfix)
    rw [hshape]
    simp
  · have htext : t = '.' :: (operation.toList ++ '(' :: '\x7b' :: (inside ++ '\x7d' :: ')' :: rest')) := by
      rw [ht']
      simp
    rw [htext, payload_call hop hinside rest'] at hopen
    cases hopen

/-! ## Projections -/

theorem selectList_append {t list : List Char} {size : Nat} (h : selectList t = some (list, size)) :
    size ≤ t.length ∧ ∀ b, selectList (t ++ b) = some (list, size) := by
  obtain ⟨quote, rest, hquote, hlist, ht, hsize⟩ := selectList_shape h
  have hlength := congrArg List.length ht
  have hmark : ".select(".toList.length = 8 := rfl
  simp only [List.length_append, List.length_cons] at hlength
  refine ⟨by omega, fun b => ?_⟩
  have htext : t ++ b = ".select(".toList ++ quote :: (list ++ quote :: ')' :: (rest ++ b)) := by
    rw [ht]
    simp
  rw [htext, selectList_call hquote hlist (rest ++ b)]
  congr 2
  omega

theorem not_isWord_of_isQuote {quote : Char} (h : isQuote quote) : isWord quote = false := by
  rcases isQuote_iff.1 h with rfl | rfl | rfl
  · decide
  · decide
  · decide

/-- The names of a quoted list are names of every text that holds it with its quotes. -/
theorem snakeNames_subset_of_infix {quote : Char} (hquote : isQuote quote) {list t : List Char}
    (h : quote :: (list ++ [quote]) <:+: t) : snakeNames list ⊆ snakeNames t := by
  obtain ⟨u, v, rfl⟩ := h
  intro x hx
  obtain ⟨w, hw, hsnake, hspelled⟩ := mem_snakeNames_iff.1 hx
  refine mem_snakeNames_iff.2 ⟨w, ?_, hsnake, hspelled⟩
  have hbreak := not_isWord_of_isQuote hquote
  have hbetween := mem_words_between hbreak hbreak hw u v
  simpa using hbetween

/-- What is found behind a select list that is left open is part of that list once it is closed. -/
theorem snakeNames_of_open {t b list : List Char} {size : Nat} (hopen : selectList t = none)
    (h : selectList (t ++ b) = some (list, size)) :
    (occurrences selectList t).flatMap snakeNames ⊆ snakeNames list := by
  obtain ⟨quote, rest, hquote, hlist, ht, -⟩ := selectList_shape h
  have hassoc : t ++ b = (".select(".toList ++ quote :: (list ++ [quote])) ++ ')' :: rest := by
    rw [ht]
    simp
  rcases prefix_or_reaches hassoc with hprefix | ⟨rest', ht', -⟩
  · cases t with
    | nil => simp [occurrences, occurrencesFrom]
    | cons c t =>
      rw [occurrences_of_none hopen]
      obtain ⟨-, hback⟩ := List.cons_prefix_cons.1 hprefix
      intro x hx
      obtain ⟨inner, hinner, hx⟩ := List.mem_flatMap.1 hx
      obtain ⟨s, size', hs, hmatch⟩ := exists_suffix_of_mem_occurrences hinner
      obtain ⟨quote', rest', hquote', -, hshape, -⟩ := selectList_shape hmatch
      have hcall : '.' :: ("select(".toList ++ quote' :: (inner ++ [quote'])) ++ [')'] <:+:
          "select(".toList ++ quote :: (list ++ [quote]) :=
        List.IsInfix.trans ⟨[], rest', by rw [hshape]; simp⟩
          (hs.isInfix.trans hback.isInfix)
      have hne : ')' ≠ quote := by
        rintro rfl
        exact absurd hquote (by decide)
      have hdot : '.' ∉ "select(".toList ++ [quote] := by
        have : '.' ≠ quote := by
          rintro rfl
          exact absurd hquote (by decide)
        simp [this]
      -- The inner call starts behind the quote of the outer one and ends before its last quote.
      have hinside : '.' :: ("select(".toList ++ quote' :: (inner ++ [quote'])) ++ [')'] <:+: list := by
        have hassoc' : "select(".toList ++ quote :: (list ++ [quote]) =
            ("select(".toList ++ [quote]) ++ (list ++ [quote]) := by simp
        rw [hassoc'] at hcall
        exact infix_of_infix_concat hne (infix_of_infix_append hdot hcall)
      refine snakeNames_subset_of_infix hquote' (List.IsInfix.trans ?_ hinside) hx
      exact ⟨'.' :: "select(".toList, [')'], by simp⟩
  · have htext : t = ".select(".toList ++ quote :: (list ++ quote :: ')' :: rest') := by
      rw [ht']
      simp
    rw [htext, selectList_call hquote hlist rest'] at hopen
    cases hopen

/-! ## All rules -/

theorem names_subset_append (rule : QueryRule) (a b : List Char) :
    rule.names a ⊆ rule.names (a ++ b) := by
  cases rule with
  | projection =>
    rw [QueryRule.names, QueryRule.names, projectionNames_eq_flatMap, projectionNames_eq_flatMap]
    exact subset_occurrences_append (fun _ _ _ h => selectList_append h)
      (fun _ _ _ _ hopen h => snakeNames_of_open hopen h) a b
  | predicate =>
    have hsubset := subset_occurrences_append (f := fun name : String => [name])
      (fun _ _ _ h => predicateName_append h)
      (fun t _ _ _ hopen h => by
        rw [occurrences_predicateName_of_open hopen h]
        exact List.nil_subset _) a b
    rw [List.flatMap_singleton', List.flatMap_singleton'] at hsubset
    rw [QueryRule.names, QueryRule.names, predicateNames_eq_occurrences, predicateNames_eq_occurrences]
    exact hsubset
  | writePayload =>
    rw [QueryRule.names, QueryRule.names, payloadKeys_eq_flatMap, payloadKeys_eq_flatMap]
    exact subset_occurrences_append (fun _ _ _ h => payload_append h)
      (fun t _ _ _ hopen h => by
        rw [occurrences_payload_of_open hopen h]
        exact List.nil_subset _) a b

/-! ## Type keys -/

theorem typeKey_append {t rest : List Char} {key : String} (h : typeKey t = some (key, rest))
    (b : List Char) :
    ∃ rest', typeKey (t ++ b) = some (key, rest') ∧ (rest = [] ∨ rest' = rest ++ b) := by
  obtain ⟨indent, name, gap, t2, hindent, hname, hgap, rfl, hkey, rfl⟩ := typeKey_eq_some_iff.1 h
  refine ⟨skipBlanks (t2 ++ b), typeKey_eq_some_iff.2 ⟨indent, name, gap, t2 ++ b, hindent, hname,
    hgap, by simp, hkey, rfl⟩, ?_⟩
  by_cases hblank : ∀ c ∈ t2, isBlank c
  · exact .inl (trimStart_eq_nil_iff.2 hblank)
  · refine .inr (trimStart_append_of_not_blank ?_ b)
    simpa using hblank

theorem typeKey_of_no_colon {t : List Char} (h : ':' ∉ t) : typeKey t = none := by
  rw [Option.eq_none_iff_forall_ne_some]
  rintro ⟨key, rest⟩ hkey
  obtain ⟨indent, name, gap, t2, -, -, -, rfl, -, -⟩ := typeKey_eq_some_iff.1 hkey
  exact h (by simp)

/-- A key that only the new text completes has its colon there. -/
theorem no_colon_of_open {t b rest : List Char} {key : String} (hopen : typeKey t = none)
    (h : typeKey (t ++ b) = some (key, rest)) : ':' ∉ t := by
  obtain ⟨indent, name, gap, t2, hindent, hname, hgap, ht, -, -⟩ := typeKey_eq_some_iff.1 h
  have hassoc : t ++ b = (indent ++ (name ++ gap)) ++ ':' :: t2 := by rw [ht]; simp
  rcases prefix_or_reaches hassoc with hprefix | ⟨t2', ht', -⟩
  · intro hmem
    have hcolon := hprefix.subset hmem
    rw [List.mem_append, List.mem_append] at hcolon
    rcases hcolon with hc | hc | hc
    · exact absurd (hindent ':' hc) (by decide)
    · exact absurd (hname.isNamePart ':' hc) (by decide)
    · exact absurd (hgap ':' hc) (by decide)
  · have hkey : typeKey t = some (String.ofList name, skipBlanks t2') :=
      typeKey_eq_some_iff.2 ⟨indent, name, gap, t2', hindent, hname, hgap, by rw [ht']; simp, rfl, rfl⟩
    rw [hkey] at hopen
    cases hopen

theorem typeKeysFrom_of_no_colon {t : List Char} (h : ':' ∉ t) (skip : Nat) (lineStart : Bool) :
    typeKeysFrom skip lineStart t = [] := by
  induction t generalizing skip lineStart with
  | nil => rfl
  | cons c t ih =>
    have hrest : ':' ∉ t := fun hmem => h (List.mem_cons_of_mem c hmem)
    cases skip with
    | succ skip => exact ih hrest skip _
    | zero =>
      rw [typeKeysFrom.eq_def]
      simp only [typeKey_of_no_colon h, ite_self]
      exact ih hrest 0 _

theorem typeKeysFrom_of_length_le {t : List Char} {skip : Nat} (h : t.length ≤ skip)
    (lineStart : Bool) : typeKeysFrom skip lineStart t = [] := by
  induction t generalizing skip lineStart with
  | nil => rfl
  | cons c t ih =>
    cases skip with
    | zero => exact absurd h (by simp)
    | succ skip => exact ih (by rw [List.length_cons] at h; omega) _

theorem typeKeysFrom_subset_append (t b : List Char) (skip : Nat) (lineStart : Bool) :
    typeKeysFrom skip lineStart t ⊆ typeKeysFrom skip lineStart (t ++ b) := by
  induction t generalizing skip lineStart with
  | nil => exact List.nil_subset _
  | cons c t ih =>
    rw [List.cons_append]
    cases skip with
    | succ skip => exact ih skip _
    | zero =>
      rw [typeKeysFrom.eq_def, typeKeysFrom.eq_def 0 lineStart (c :: (t ++ b))]
      dsimp only
      cases lineStart with
      | false => exact ih 0 _
      | true =>
        simp only [if_true]
        cases hkey : typeKey (c :: t) with
        | some found =>
          obtain ⟨key, rest⟩ := found
          obtain ⟨rest', hlonger, hrest⟩ := typeKey_append hkey b
          rw [List.cons_append] at hlonger
          simp only [hlonger]
          refine List.cons_subset_cons key ?_
          rcases hrest with rfl | rfl
          · rw [typeKeysFrom_of_length_le (by simp)]
            exact List.nil_subset _
          · have hskip : (t ++ b).length - (rest ++ b).length = t.length - rest.length := by
              rw [List.length_append, List.length_append]
              omega
            rw [hskip]
            exact ih _ _
        | none =>
          cases hlonger : typeKey (c :: (t ++ b)) with
          | none => exact ih 0 _
          | some found =>
            have hcolon : ':' ∉ c :: t := no_colon_of_open hkey hlonger
            rw [typeKeysFrom_of_no_colon fun hmem => hcolon (List.mem_cons_of_mem c hmem)]
            exact List.nil_subset _

/-! ## Both kinds -/

/-- A longer text uses at least the names of the shorter one. -/
theorem fields_subset_append (kind : ScanKind) (a b : String) :
    kind.fields a ⊆ kind.fields (a ++ b) := by
  intro x h
  cases kind with
  | actions =>
    obtain ⟨rule, hrule⟩ := mem_queryFields.1 h
    refine mem_queryFields.2 ⟨rule, ?_⟩
    rw [String.toList_append]
    exact names_subset_append rule _ _ hrule
  | types =>
    rw [ScanKind.fields, typeKeys_eq_ofList, NameSet.mem_ofList] at h ⊢
    rw [String.toList_append]
    exact typeKeysFrom_subset_append _ _ 0 true h

end ColumnAudit.Source
