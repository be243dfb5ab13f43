import ColumnAudit.Proofs.Text.PatternOrder
import ColumnAudit.Source.QueryFields

/-! # The patterns of query calls

What the three patterns match at the front of a text, wherever it stands (`selectList_eq_some_iff`,
`predicateName_eq_some_iff`, `payload_eq_some_iff`). The operations are tried one after the other; since an
opening parenthesis comes behind each of them, no more than one of them can be the method of a call
(`eq_of_call_eq`), so it does not matter which one is tried first. The name of a predicate call is all that
stands between the quotes for the same reason. The order counts for the end of a select list and of a
payload: it is the first of its closing marks.

A search with one of the patterns is therefore a search with a function on texts
(`projectionNames_eq_flatMap`, `predicateNames_eq_occurrences`, `payloadKeys_eq_flatMap`).
-/

namespace ColumnAudit.Source
open Text
set_option autoImplicit false

/-! ## Methods of calls -/

/-- The method of a call is read off in one way. -/
theorem eq_of_call_eq {method operation : String} (hmethod : '(' ∉ method.toList)
    (hoperation : '(' ∉ operation.toList) {s t : List Char}
    (h : method.toList ++ '(' :: s = operation.toList ++ '(' :: t) : method = operation := by
  have hfront : ∀ (o : List Char) (u : List Char), '(' ∉ o →
      (o ++ '(' :: u).takeWhile (· != '(') = o := by
    intro o u ho
    rw [List.takeWhile_append_of_pos, List.takeWhile_cons_of_neg, List.append_nil]
    · simp
    · intro c hc
      exact bne_iff_ne.2 fun heq => ho (heq ▸ hc)
  have hread := hfront method.toList s hmethod
  rw [h, hfront operation.toList t hoperation] at hread
  exact String.toList_inj.1 hread.symm

theorem paren_not_mem_predicateOperations : ∀ o ∈ predicateOperations, '(' ∉ o.toList := by decide

theorem paren_not_mem_writeOperations : ∀ o ∈ writeOperations, '(' ∉ o.toList := by decide

theorem reads_callOpening (operations : List String) (opening : String) :
    (callOpening operations opening).Reads fun w =>
      ∃ operation ∈ operations, w = '.' :: (operation.toList ++ opening.toList) := by
  refine ((Pattern.Reads.literal ['.']).seq
    ((Pattern.Reads.among operations).seq (.literal opening.toList))).congr fun w => ?_
  constructor
  · rintro ⟨_, _, rfl, ⟨_, _, ⟨operation, hoperation, rfl⟩, rfl, rfl⟩, rfl⟩
    exact ⟨operation, hoperation, rfl⟩
  · rintro ⟨operation, hoperation, rfl⟩
    exact ⟨['.'], _, rfl, ⟨_, _, ⟨operation, hoperation, rfl⟩, rfl, rfl⟩, rfl⟩

/-! ## Select lists -/

/-- The quotes around a select list. -/
def isQuote (c : Char) : Bool := c == '\x60' || c == '\x27' || c == '\"'

theorem isQuote_iff {c : Char} : isQuote c ↔ c = '\x60' ∨ c = '\x27' ∨ c = '\"' := by
  simp only [isQuote, Bool.or_eq_true, beq_iff_eq, or_assoc]

/-- The quoted argument of a select call at the front of a text, and how far the call goes. -/
def selectList (t : List Char) : Option (List Char × Nat) := selectPattern.first? none t

/-- The list between quotes of one kind at a place, and how far a call with it goes. -/
def listIn (quote : Char) (s : Place) : Option (List Char × Nat) :=
  (Grouped.trail (quotedBy quote) (.literal [')'])).attempt s fun m => some m.found

/-- What stands between a quote and the next such quote with a closing parenthesis behind it. -/
theorem listIn_eq_some_iff {quote : Char} (hquote : isQuote quote) {s : Place} {list : List Char}
    {size : Nat} :
    listIn quote s = some (list, size) ↔
      ∃ rest, ¬ [quote, ')'] <:+: list ∧ s.behind = quote :: (list ++ quote :: ')' :: rest) ∧
        size = s.taken + list.length + 3 := by
  have hne : quote ≠ ')' := by
    rintro rfl
    revert hquote
    decide
  have hattempt : listIn quote s = (Pattern.literal [quote]).attempt s fun o =>
      (Grouped.trail (.group (.few .any)) (.literal [quote, ')'])).attempt o fun m => some m.found := rfl
  rw [hattempt, Pattern.attempt_literal, Option.bind_eq_some_iff]
  simp only [isPrefixOf?_eq_some_iff, Grouped.attempt_upTo_eq_some_iff hne, Place.behind_after,
    Place.taken_after, List.length_singleton, List.singleton_append]
  constructor
  · rintro ⟨_, hs, rest, hmark, rfl, rfl⟩
    exact ⟨rest, hmark, hs, by omega⟩
  · rintro ⟨rest, hmark, hs, rfl⟩
    exact ⟨_, hs, rest, hmark, rfl, by omega⟩

/-- Only one of the three kinds of quotes can stand at a place, so it does not matter which is tried
first. -/
theorem or_listIn_eq_some_iff {s : Place} {found : List Char × Nat} :
    ((listIn '\x60' s).or ((listIn '\x27' s).or (listIn '\"' s))) = some found ↔
      ∃ quote, isQuote quote ∧ listIn quote s = some found := by
  constructor
  · intro h
    rcases Option.or_eq_some_iff.1 h with h | ⟨-, h⟩
    · exact ⟨_, by decide, h⟩
    · rcases Option.or_eq_some_iff.1 h with h | ⟨-, h⟩
      · exact ⟨_, by decide, h⟩
      · exact ⟨_, by decide, h⟩
  · rintro ⟨quote, hquote, hfound⟩
    obtain ⟨_, -, hbehind, -⟩ := (listIn_eq_some_iff hquote).1 hfound
    have hother : ∀ other, isQuote other → other ≠ quote → listIn other s = none := by
      intro other hisQuote hother
      rw [Option.eq_none_iff_forall_ne_some]
      rintro ⟨list, size⟩ h
      obtain ⟨_, -, hbehind', -⟩ := (listIn_eq_some_iff hisQuote).1 h
      rw [hbehind] at hbehind'
      exact hother (List.cons.inj hbehind').1.symm
    rcases isQuote_iff.1 hquote with rfl | rfl | rfl
    · rw [hfound, Option.some_or]
    · rw [hother '\x60' (by decide) (by decide), hfound, Option.none_or, Option.some_or]
    · rw [hother '\x60' (by decide) (by decide), hother '\x27' (by decide) (by decide), Option.none_or,
        Option.none_or, hfound]

theorem first?_selectPattern_eq_some_iff {previous : Option Char} {t list : List Char} {size : Nat} :
    selectPattern.first? previous t = some (list, size) ↔
      ∃ quote rest, isQuote quote ∧ ¬ [quote, ')'] <:+: list ∧
        t = ".select(".toList ++ quote :: (list ++ quote :: ')' :: rest) ∧ size = list.length + 11 := by
  have hlength : ".select(".toList.length = 8 := rfl
  have hattempt : selectPattern.first? previous t =
      (Pattern.literal ".select(".toList).attempt ⟨previous, t, 0⟩ fun s =>
        (listIn '\x60' s).or ((listIn '\x27' s).or (listIn '\"' s)) := rfl
  rw [hattempt, Pattern.attempt_literal, Option.bind_eq_some_iff]
  simp only [isPrefixOf?_eq_some_iff, or_listIn_eq_some_iff]
  constructor
  · rintro ⟨argument, rfl, quote, hquote, hlist⟩
    obtain ⟨rest, hmark, hargument, hsize⟩ := (listIn_eq_some_iff hquote).1 hlist
    rw [Place.behind_after] at hargument
    rw [Place.taken_after, hlength, Nat.zero_add] at hsize
    exact ⟨quote, rest, hquote, hmark, by rw [hargument], by omega⟩
  · rintro ⟨quote, rest, hquote, hmark, rfl, rfl⟩
    refine ⟨_, rfl, quote, hquote, (listIn_eq_some_iff hquote).2 ⟨rest, hmark, rfl, ?_⟩⟩
    rw [Place.taken_after, hlength, Nat.zero_add]
    omega

theorem selectList_eq_some_iff {t list : List Char} {size : Nat} :
    selectList t = some (list, size) ↔ ∃ quote rest, isQuote quote ∧ ¬ [quote, ')'] <:+: list ∧
      t = ".select(".toList ++ quote :: (list ++ quote :: ')' :: rest) ∧ size = list.length + 11 :=
  first?_selectPattern_eq_some_iff

theorem projectionNames_eq_flatMap (t : List Char) :
    projectionNames t = (occurrences selectList t).flatMap snakeNames := by
  have hsearch : selectPattern.captured t = occurrences selectList t := by
    refine searchFrom_eq_occurrencesFrom (fun previous s => ?_) 0 none t
    refine Option.ext fun found => ?_
    rw [selectList, first?_selectPattern_eq_some_iff, first?_selectPattern_eq_some_iff]
  rw [projectionNames, hsearch]

/-! ## Names of predicate calls -/

/-- The quoted first argument of a predicate call at the front of a text, and how far the call goes. -/
def predicateName (t : List Char) : Option (String × Nat) :=
  (predicatePattern.first? none t).map fun (name, size) => (String.ofList name, size)

theorem first?_predicatePattern_eq_some_iff {previous : Option Char} {t name : List Char} {size : Nat} :
    predicatePattern.first? previous t = some (name, size) ↔
      ∃ operation ∈ predicateOperations, ∃ rest, (name ≠ [] ∧ ∀ c ∈ name, isColumnChar c) ∧
        t = '.' :: (operation.toList ++ '(' :: '\x27' :: (name ++ '\x27' :: rest)) ∧
        size = operation.toList.length + name.length + 4 := by
  have hmatch : ∀ {name size}, predicatePattern.first? previous t = some (name, size) →
      ∃ operation ∈ predicateOperations, ∃ rest, (name ≠ [] ∧ ∀ c ∈ name, isColumnChar c) ∧
        t = '.' :: (operation.toList ++ '(' :: '\x27' :: (name ++ '\x27' :: rest)) ∧
        size = operation.toList.length + name.length + 4 := by
    intro name size h
    obtain ⟨_, _, rest, hopening, hname, rfl, hbehind, rfl⟩ := Grouped.exists_of_first?
      (Pattern.Reads.manyOne isColumnChar) (Pattern.Reads.literal ['\x27']) h
    obtain ⟨_, _, ⟨operation, hoperation, rfl⟩, ht, rfl⟩ :=
      (reads_callOpening predicateOperations "('").exists_after hopening
    rw [Place.behind_after] at hbehind
    subst hbehind
    refine ⟨operation, hoperation, rest, hname, by simpa using ht, ?_⟩
    have hmark : "('".toList.length = 2 := rfl
    simp only [Place.taken_after, List.length_cons, List.length_append, List.length_nil]
    omega
  constructor
  · exact hmatch
  · rintro ⟨operation, hoperation, rest, hname, rfl, rfl⟩
    have hsome : (predicatePattern.first? previous
        ('.' :: (operation.toList ++ '(' :: '\x27' :: (name ++ '\x27' :: rest)))).isSome := by
      have hopening := (reads_callOpening predicateOperations "('").takes (r := name ++ '\x27' :: rest)
        (s := ⟨previous, _, 0⟩) ⟨operation, hoperation, rfl⟩ (by simp; rfl)
      exact Grouped.isSome_first? (Pattern.Reads.manyOne isColumnChar) (Pattern.Reads.literal ['\x27'])
        hopening hname (r := rest) rfl rfl
    obtain ⟨⟨name', size'⟩, hfound⟩ := Option.isSome_iff_exists.1 hsome
    -- The parenthesis ends the operation and the quote ends the name, so there is one match only.
    obtain ⟨operation', hoperation', rest', hname', heq, rfl⟩ := hmatch hfound
    have hcall := (List.cons.inj heq).2
    obtain rfl := eq_of_call_eq (paren_not_mem_predicateOperations _ hoperation)
      (paren_not_mem_predicateOperations _ hoperation') hcall
    have hargument : name ++ '\x27' :: rest = name' ++ '\x27' :: rest' := by
      simpa using List.append_cancel_left hcall
    have hread : ∀ (n r : List Char), (∀ c ∈ n, isColumnChar c) →
        (n ++ '\x27' :: r).takeWhile isColumnChar = n := fun n r hn =>
      (takeWhile_dropWhile_append hn (by rintro _ ⟨⟩; decide)).1
    have hsame := hread name rest hname.2
    rw [hargument, hread name' rest' hname'.2] at hsame
    rw [hfound, hsame]

theorem predicateName_eq_some_iff {t : List Char} {name : String} {size : Nat} :
    predicateName t = some (name, size) ↔
      ∃ operation ∈ predicateOperations, ∃ rest,
        (name.toList ≠ [] ∧ ∀ c ∈ name.toList, isColumnChar c) ∧
        t = '.' :: (operation.toList ++ '(' :: '\x27' :: (name.toList ++ '\x27' :: rest)) ∧
        size = operation.toList.length + name.toList.length + 4 := by
  rw [predicateName, Option.map_eq_some_iff]
  constructor
  · rintro ⟨⟨found, size'⟩, hfound, h⟩
    obtain ⟨rfl, rfl⟩ := Prod.mk.inj h
    rw [String.toList_ofList]
    exact first?_predicatePattern_eq_some_iff.1 hfound
  · intro h
    exact ⟨(name.toList, size), first?_predicatePattern_eq_some_iff.2 h, by simp⟩

theorem predicateNames_eq_occurrences (t : List Char) :
    predicateNames t = occurrences predicateName t := by
  have hsearch : predicatePattern.captured t = occurrences (predicatePattern.first? none) t := by
    refine searchFrom_eq_occurrencesFrom (fun previous s => ?_) 0 none t
    refine Option.ext fun found => ?_
    rw [first?_predicatePattern_eq_some_iff, first?_predicatePattern_eq_some_iff]
  rw [predicateNames, hsearch]
  exact map_occurrences _ _ t

/-! ## Payloads -/

/-- The inside of the object given to a write call at the front of a text, and how far the call goes. -/
def payload (t : List Char) : Option (List Char × Nat) := payloadPattern.first? none t

theorem first?_payloadPattern_eq_some_iff {previous : Option Char} {t inside : List Char} {size : Nat} :
    payloadPattern.first? previous t = some (inside, size) ↔
      ∃ operation ∈ writeOperations, ∃ rest, ¬ ['\x7d', ')'] <:+: inside ∧
        t = '.' :: (operation.toList ++ '(' :: '\x7b' :: (inside ++ '\x7d' :: ')' :: rest)) ∧
        size = operation.toList.length + inside.length + 5 := by
  have hclose : '\x7d' ≠ ')' := by decide
  have hmatch : ∀ {inside size}, payloadPattern.first? previous t = some (inside, size) →
      ∃ operation ∈ writeOperations, ∃ rest, ¬ ['\x7d', ')'] <:+: inside ∧
        t = '.' :: (operation.toList ++ '(' :: '\x7b' :: (inside ++ '\x7d' :: ')' :: rest)) ∧
        size = operation.toList.length + inside.length + 5 := by
    intro inside size h
    obtain ⟨_, hopening, h⟩ := Pattern.exists_takes_of_attempt h
    obtain ⟨_, _, ⟨operation, hoperation, rfl⟩, ht, rfl⟩ :=
      (reads_callOpening writeOperations "(\x7b").exists_after hopening
    obtain ⟨rest, hmark, rfl, rfl⟩ := (Grouped.attempt_upTo_eq_some_iff hclose).1 h
    refine ⟨operation, hoperation, rest, hmark, ?_, ?_⟩
    · simpa using ht
    · simp only [Place.taken_after, List.length_cons, List.length_append]
      have hmark : "(\x7b".toList.length = 2 := rfl
      omega
  constructor
  · exact hmatch
  · rintro ⟨operation, hoperation, rest, hmark, rfl, rfl⟩
    have hsome : (payloadPattern.first? previous
        ('.' :: (operation.toList ++ '(' :: '\x7b' :: (inside ++ '\x7d' :: ')' :: rest)))).isSome := by
      refine Pattern.isSome_attempt_of_takes ((reads_callOpening writeOperations "(\x7b").takes
        ⟨operation, hoperation, rfl⟩ (r := inside ++ '\x7d' :: ')' :: rest) (by simp)) ?_
      exact Option.isSome_of_eq_some
        ((Grouped.attempt_upTo_eq_some_iff hclose).2 ⟨rest, hmark, rfl, rfl⟩)
    obtain ⟨⟨inside', size'⟩, hfound⟩ := Option.isSome_iff_exists.1 hsome
    obtain ⟨operation', hoperation', rest', hmark', heq, rfl⟩ := hmatch hfound
    have hcall := (List.cons.inj heq).2
    obtain rfl := eq_of_call_eq (paren_not_mem_writeOperations _ hoperation)
      (paren_not_mem_writeOperations _ hoperation') hcall
    have hbody : inside ++ '\x7d' :: ')' :: rest = inside' ++ '\x7d' :: ')' :: rest' := by
      simpa using List.append_cancel_left hcall
    obtain ⟨rfl, -⟩ := eq_of_first_pair hclose hmark hmark' hbody
    exact hfound

theorem payload_eq_some_iff {t inside : List Char} {size : Nat} :
    payload t = some (inside, size) ↔ ∃ operation ∈ writeOperations, ∃ rest, ¬ ['\x7d', ')'] <:+: inside ∧
      t = '.' :: (operation.toList ++ '(' :: '\x7b' :: (inside ++ '\x7d' :: ')' :: rest)) ∧
      size = operation.toList.length + inside.length + 5 :=
  first?_payloadPattern_eq_some_iff

theorem payloadKeys_eq_flatMap (t : List Char) :
    payloadKeys t = (occurrences payload t).flatMap snakeKeys := by
  have hsearch : payloadPattern.captured t = occurrences payload t := by
    refine searchFrom_eq_occurrencesFrom (fun previous s => ?_) 0 none t
    refine Option.ext fun found => ?_
    rw [payload, first?_payloadPattern_eq_some_iff, first?_payloadPattern_eq_some_iff]
  rw [payloadKeys, hsearch]

end ColumnAudit.Source
