import ColumnAudit.Proofs.Source.QueryPatterns

/-! # Keys of all payloads

The search for payloads goes on behind the one it has found, so an opening inside a payload is passed over.
Nothing is lost by that: the inner payload ends at the same closing mark, so the outer one ends with it
(`payload_inside_payload`), and all keys of the inner one are keys of the outer one.

So the rule finds the keys between every opening in a text and the closing mark behind it. The braces are
no word characters, so it does not matter whether the boundaries of a key are looked for in the payload or
in the text around it (`hasPayloadKey_iff`, `mem_writePayload_iff`).
-/

namespace ColumnAudit.Source
open Text
set_option autoImplicit false

/-! ## Keys -/

/-- A text with a key in it: a whole word with a colon behind it, and blanks at most in between. -/
def HasKey (t : List Char) (key : String) : Prop :=
  ∃ front word gap rest, IsRun front word (gap ++ ':' :: rest) ∧ IsSnakeWord word ∧
    (∀ c ∈ gap, isBlank c) ∧ t = front ++ (word ++ (gap ++ ':' :: rest)) ∧ key = String.ofList word

theorem mem_snakeKeys_iff_hasKey {t : List Char} {x : String} : x ∈ snakeKeys t ↔ HasKey t x := by
  rw [mem_snakeKeys_iff]
  constructor
  · rintro ⟨word, behindWord, hword, hsnake, hcolon, rfl⟩
    obtain ⟨front, hrun, ht⟩ := mem_words_iff.1 hword
    obtain ⟨gap, rest, hgap, rfl⟩ := (head?_trimStart_eq_some_iff (by decide)).1 hcolon
    exact ⟨front, word, gap, rest, hrun, isSnakeCase_iff.1 hsnake, hgap, ht, rfl⟩
  · rintro ⟨front, word, gap, rest, hrun, hsnake, hgap, ht, rfl⟩
    exact ⟨word, gap ++ ':' :: rest, mem_words_iff.2 ⟨front, hrun, ht⟩, isSnakeCase_iff.2 hsnake,
      (head?_trimStart_eq_some_iff (by decide)).2 ⟨gap, rest, hgap, rfl⟩, rfl⟩

/-- Between the braces of a payload the keys are those that are whole words in the text around it. -/
theorem hasKey_in_place_iff {inside : List Char} {key : String} (u v : List Char) :
    HasKey inside key ↔ ∃ front word gap rest,
      IsRun (u ++ '\x7b' :: front) word (gap ++ ':' :: rest ++ '\x7d' :: v) ∧ IsSnakeWord word ∧
        (∀ c ∈ gap, isBlank c) ∧ inside = front ++ (word ++ (gap ++ ':' :: rest)) ∧
        key = String.ofList word := by
  have hopen : isWord '\x7b' = false := by decide
  have hclose : isWord '\x7d' = false := by decide
  simp only [isRun_between_iff hopen hclose u v]
  rfl

/-! ## Payloads -/

/-- A text with a write call somewhere in it whose object goes up to the first closing mark. -/
def HasPayload (t inside : List Char) : Prop :=
  ∃ operation ∈ writeOperations, ∃ front rest, ¬ ['\x7d', ')'] <:+: inside ∧
    t = front ++ '.' :: (operation.toList ++ '(' :: '\x7b' :: (inside ++ '\x7d' :: ')' :: rest))

theorem hasPayload_iff {t inside : List Char} :
    HasPayload t inside ↔ ∃ s size, '.' :: s <:+ t ∧ payload ('.' :: s) = some (inside, size) := by
  constructor
  · rintro ⟨operation, hoperation, front, rest, hinside, rfl⟩
    exact ⟨_, _, List.suffix_append front _, payload_call hoperation hinside rest⟩
  · rintro ⟨s, size, ⟨front, rfl⟩, hs⟩
    obtain ⟨operation, hoperation, rest, hinside, hcall, -⟩ := payload_shape hs
    exact ⟨operation, hoperation, front, rest, hinside, by rw [hcall]⟩

/-- A text with a write call in it and a key in the object given to the call, a whole word of the text. -/
def HasPayloadKey (t : List Char) (key : String) : Prop :=
  ∃ operation ∈ writeOperations, ∃ before front word gap rest behind,
    t = before ++ '.' :: (operation.toList ++ '(' :: '\x7b' ::
      (front ++ (word ++ (gap ++ ':' :: rest)) ++ '\x7d' :: ')' :: behind)) ∧
    ¬ ['\x7d', ')'] <:+: front ++ (word ++ (gap ++ ':' :: rest)) ∧
    IsRun (before ++ '.' :: (operation.toList ++ ['(']) ++ '\x7b' :: front) word
      (gap ++ ':' :: rest ++ '\x7d' :: ')' :: behind) ∧
    IsSnakeWord word ∧ (∀ c ∈ gap, isBlank c) ∧ key = String.ofList word

theorem hasPayloadKey_iff {t : List Char} {key : String} :
    HasPayloadKey t key ↔ ∃ inside, HasPayload t inside ∧ HasKey inside key := by
  constructor
  · rintro ⟨operation, hoperation, before, front, word, gap, rest, behind, ht, hopen, hrun, hsnake,
      hgap, hkey⟩
    exact ⟨_, ⟨operation, hoperation, before, behind, hopen, ht⟩, (hasKey_in_place_iff _ _).2
      ⟨front, word, gap, rest, hrun, hsnake, hgap, rfl, hkey⟩⟩
  · rintro ⟨inside, ⟨operation, hoperation, before, behind, hopen, ht⟩, hinside⟩
    obtain ⟨front, word, gap, rest, hrun, hsnake, hgap, rfl, hkey⟩ :=
      (hasKey_in_place_iff (before ++ '.' :: (operation.toList ++ ['('])) (')' :: behind)).1 hinside
    exact ⟨operation, hoperation, before, front, word, gap, rest, behind, ht, hopen, hrun, hsnake,
      hgap, hkey⟩

/-- A payload that starts inside another one is the end of that one, behind its opening. -/
theorem payload_inside_payload {c : Char} {t s outer inner : List Char} {size size' : Nat}
    (houter : payload (c :: t) = some (outer, size)) (hinner : payload s = some (inner, size'))
    (hs : s <:+ t) (hstart : t.length - s.length < size - 1) :
    ∃ front, outer = front ++ '\x7b' :: inner := by
  have hops : ∀ o ∈ writeOperations, '.' ∉ o.toList ++ ['(', '\x7b'] ∧
      '\x7d' ∉ o.toList ++ ['(', '\x7b'] := by decide
  obtain ⟨operation, hop, rest, hopen, ht, hsize⟩ := payload_shape houter
  obtain ⟨operation', hop', rest', hopen', rfl, -⟩ := payload_shape hinner
  obtain ⟨front, rfl⟩ := hs
  have hwhole : (operation.toList ++ ['(', '\x7b'] ++ (outer ++ ['\x7d', ')'])) ++ rest = front ++ '.' ::
      (operation'.toList ++ '(' :: '\x7b' :: (inner ++ '\x7d' :: ')' :: rest')) := by
    rw [(List.cons.inj ht).2]
    simp
  -- The inner call starts before the closing mark of the outer one, which closes it too.
  obtain ⟨behindDot, hcall, hends⟩ : ∃ behindDot,
      operation.toList ++ ['(', '\x7b'] ++ (outer ++ ['\x7d', ')']) = front ++ '.' :: behindDot ∧
        operation'.toList ++ '(' :: '\x7b' :: (inner ++ '\x7d' :: ')' :: rest') = behindDot ++ rest := by
    rcases prefix_or_reaches hwhole with hbefore | hreaches
    · have hlength := hbefore.length_le
      have hsum := congrArg List.length ht
      simp only [List.length_append, List.length_cons, List.length_nil] at hlength hsum hstart hsize
      omega
    · exact hreaches
  obtain ⟨front', rfl, hinside⟩ := exists_of_not_mem_front (hops operation hop).1 hcall
  obtain ⟨tail, rfl, rfl⟩ := exists_of_not_mem_back (by decide) hinside
  have htail : ¬ ['\x7d', ')'] <:+: tail := by
    intro h
    exact hopen (h.trans ⟨front' ++ ['.'], [], by simp⟩)
  have hcalled : ¬ ['\x7d', ')'] <:+: operation'.toList ++ ['(', '\x7b'] ++ inner := by
    intro h
    exact hopen' (infix_of_infix_append (hops operation' hop').2 h)
  have heq : (operation'.toList ++ ['(', '\x7b'] ++ inner) ++ '\x7d' :: ')' :: rest' =
      tail ++ '\x7d' :: ')' :: rest := by
    simpa using hends
  obtain ⟨rfl, -⟩ := eq_of_first_pair (by decide) hcalled htail heq
  exact ⟨front' ++ '.' :: (operation'.toList ++ ['(']), by simp⟩

theorem snakeKeys_subset_of_opening (front inner : List Char) :
    snakeKeys inner ⊆ snakeKeys (front ++ '\x7b' :: inner) := by
  obtain ⟨before, hbefore⟩ := exists_words_append_cons (c := '\x7b') (by decide) front inner
  rw [snakeKeys_eq_filterMap_words, snakeKeys_eq_filterMap_words, hbefore, List.filterMap_append]
  exact List.subset_append_right _ _

/-- The write-payload rule finds the keys of every payload in a text, inside others or not, and those are
the keys that are whole words of the text. -/
theorem mem_writePayload_iff (text : String) (fields : NameSet) (x : String) :
    (x ∈ QueryRule.writePayload.addFields text fields ↔
      x ∈ fields ∨ ∃ inside, HasPayload text.toList inside ∧ HasKey inside x) ∧
    (x ∈ QueryRule.writePayload.addFields text fields ↔ x ∈ fields ∨ HasPayloadKey text.toList x) := by
  have hnames : x ∈ payloadKeys text.toList ↔
      ∃ inside, HasPayload text.toList inside ∧ HasKey inside x := by
    rw [payloadKeys_eq_flatMap]
    constructor
    · intro h
      obtain ⟨inside, hinside, hx⟩ := List.mem_flatMap.1 h
      obtain ⟨s, size, hs, hpayload⟩ := exists_suffix_of_mem_occurrences hinside
      obtain ⟨operation, hoperation, rest, hends, rfl, -⟩ := payload_shape hpayload
      exact ⟨inside, hasPayload_iff.2 ⟨_, size, hs, hpayload⟩, mem_snakeKeys_iff_hasKey.1 hx⟩
    · rintro ⟨inside, hinside, hx⟩
      obtain ⟨s, size, hs, hpayload⟩ := hasPayload_iff.1 hinside
      apply subset_occurrences_of_suffix _ hs hpayload (mem_snakeKeys_iff_hasKey.2 hx)
      intro c t outer size s inner size' houter hinner hs hstart
      obtain ⟨front, rfl⟩ := payload_inside_payload houter hinner hs hstart
      exact snakeKeys_subset_of_opening front inner
  have hfields : x ∈ QueryRule.writePayload.addFields text fields ↔
      x ∈ fields ∨ ∃ inside, HasPayload text.toList inside ∧ HasKey inside x := by
    rw [QueryRule.addFields, NameSet.mem_insertMany, ← hnames]
    rfl
  exact ⟨hfields, by rw [hfields, hasPayloadKey_iff]⟩

/-- A payload inside one that is closed by the same mark, and the end of a longer word before a colon. -/
theorem mem_writePayload_nested :
    let text := ".insert(\x7b a_b: c.update(\x7b d_1 : éf_g: h \x7d)"
    "d_1" ∈ QueryRule.writePayload.addFields text .empty ∧ HasPayloadKey text.toList "d_1" ∧
      (QueryRule.writePayload.addFields text .empty).toList = ["a_b", "d_1"] := by
  intro text
  have hpayload : HasPayload text.toList " d_1 : éf_g: h ".toList :=
    ⟨"update", by decide, ".insert(\x7b a_b: c".toList, [], by decide +kernel, by decide +kernel⟩
  have hkey : HasKey " d_1 : éf_g: h ".toList "d_1" := mem_snakeKeys_iff_hasKey.1 (by decide +kernel)
  obtain ⟨hcaptured, hplaced⟩ := mem_writePayload_iff text .empty "d_1"
  have hfound := hcaptured.2 (.inr ⟨_, hpayload, hkey⟩)
  exact ⟨hfound, (hplaced.1 hfound).resolve_left (NameSet.not_mem_empty _), by decide +kernel⟩

end ColumnAudit.Source
