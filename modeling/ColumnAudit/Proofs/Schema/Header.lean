import ColumnAudit.Proofs.Text.Blank
import ColumnAudit.Proofs.Text.Scan
import ColumnAudit.Schema.TableBlock

/-! # Headers of table blocks

`IsHeader name head` says that `head` is the front of a table block up to its opening parenthesis. A
header is read off exactly where one stands (`blockHeader_eq_some_iff`): what comes behind the
parenthesis plays no part, and the words of the guard are never taken for a name that comes right
before the parenthesis.
-/

namespace ColumnAudit.Schema
open Text
set_option autoImplicit false

/-! ## Blanks between words -/

/-- Blanks, and at least one of them. -/
structure IsBlanks (b : List Char) : Prop where
  not_nil : b ≠ []
  blank : ∀ c ∈ b, isBlank c

theorem skipBlanks_append {b v : List Char} (hb : ∀ c ∈ b, isBlank c)
    (hv : ∀ c ∈ v.head?, isBlank c = false) : skipBlanks (b ++ v) = v :=
  (takeWhile_dropWhile_append hb hv).2

theorem head?_skipBlanks (t : List Char) : ∀ c ∈ (skipBlanks t).head?, isBlank c = false := by
  intro c hc
  have hdrop := List.head?_dropWhile_not isBlank t
  have hc' : (t.dropWhile isBlank).head? = some c := hc
  rw [hc'] at hdrop
  simpa using hdrop

theorem skipSomeBlanks_eq_some_iff {t v : List Char} :
    skipSomeBlanks t = some v ↔
      ∃ b, IsBlanks b ∧ (∀ c ∈ v.head?, isBlank c = false) ∧ t = b ++ v := by
  constructor
  · intro h
    cases t with
    | nil => cases h
    | cons c t =>
      rw [skipSomeBlanks] at h
      split at h
      · rename_i hc
        obtain rfl := Option.some.inj h
        obtain ⟨b, hb, ht⟩ := exists_blanks_append_trimStart t
        refine ⟨c :: b, ⟨List.cons_ne_nil c b, ?_⟩, head?_skipBlanks t, ?_⟩
        · exact List.forall_mem_cons.2 ⟨hc, hb⟩
        · exact congrArg (List.cons c) ht
      · cases h
  · rintro ⟨b, ⟨hnil, hb⟩, hv, rfl⟩
    cases b with
    | nil => exact absurd rfl hnil
    | cons c b =>
      obtain ⟨hc, hb⟩ := List.forall_mem_cons.1 hb
      rw [List.cons_append, skipSomeBlanks, if_pos hc, skipBlanks_append hb hv]

/-! ## The guard -/

/-- `IF NOT EXISTS` with blanks behind each of its words. -/
inductive IsGuard : List Char → Prop
  | words {b1 b2 b3 : List Char} (h1 : IsBlanks b1) (h2 : IsBlanks b2) (h3 : IsBlanks b3) :
    IsGuard ("IF".toList ++ (b1 ++ ("NOT".toList ++ (b2 ++ ("EXISTS".toList ++ b3)))))

theorem behindGuard_eq_some_iff {t v : List Char} :
    behindGuard t = some v ↔
      ∃ guard, IsGuard guard ∧ (∀ c ∈ v.head?, isBlank c = false) ∧ t = guard ++ v := by
  unfold behindGuard
  simp only [Option.bind_eq_bind, Option.bind_eq_some_iff, behind_eq_some_iff,
    skipSomeBlanks_eq_some_iff]
  constructor
  · rintro ⟨_, rfl, _, ⟨b1, h1, -, rfl⟩, _, rfl, _, ⟨b2, h2, -, rfl⟩, _, rfl, b3, h3, hv, rfl⟩
    refine ⟨_, .words h1 h2 h3, hv, ?_⟩
    simp only [List.append_assoc]
  · rintro ⟨_, ⟨h1, h2, h3⟩, hv, rfl⟩
    have hnot : ∀ s, ∀ c ∈ ("NOT".toList ++ s).head?, isBlank c = false := by
      rintro s c ⟨⟩
      decide
    have hexists : ∀ s, ∀ c ∈ ("EXISTS".toList ++ s).head?, isBlank c = false := by
      rintro s c ⟨⟩
      decide
    simp only [List.append_assoc]
    exact ⟨_, rfl, _, ⟨_, h1, hnot _, rfl⟩, _, rfl, _, ⟨_, h2, hexists _, rfl⟩, _, rfl, _, h3, hv,
      rfl⟩

theorem not_isNamePart_head? {b x : List Char} (hb : ∀ c ∈ b, isBlank c)
    (hx : b = [] → ∀ c ∈ x.head?, isNamePart c = false) :
    ∀ c ∈ (b ++ x).head?, isNamePart c = false := by
  cases b with
  | nil => exact hx rfl
  | cons c b =>
    rintro d ⟨⟩
    exact not_isNamePart_of_isBlank (hb c (List.mem_cons_self ..))

theorem not_isNamePart_paren (x : List Char) : ∀ c ∈ ('(' :: x).head?, isNamePart c = false := by
  rintro c ⟨⟩
  decide

/-- A name right before a parenthesis is no guard, even if it is `IF`: no `NOT` follows. -/
theorem behindGuard_name {name b x : List Char} (hname : IsName name) (hb : ∀ c ∈ b, isBlank c) :
    behindGuard (name ++ (b ++ '(' :: x)) = none := by
  rw [Option.eq_none_iff_forall_ne_some]
  intro v hv
  obtain ⟨_, hguard, -, htext⟩ := behindGuard_eq_some_iff.1 hv
  cases hguard with
  | @words b1 b2 b3 h1 h2 h3 =>
    have hif : IsName "IF".toList := ⟨'I', ['F'], rfl, by decide, List.all_eq_true.1 rfl⟩
    simp only [List.append_assoc] at htext
    have hread := leadingName_eq_some_iff.2
      ⟨hname, not_isNamePart_head? hb fun _ => not_isNamePart_paren x, rfl⟩
    rw [htext, leadingName_eq_some_iff.2
      ⟨hif, not_isNamePart_head? h1.blank fun hnil => absurd hnil h1.not_nil, rfl⟩] at hread
    have hrest := (Prod.mk.inj (Option.some.inj hread)).2
    have hskip := congrArg skipBlanks hrest
    rw [skipBlanks_append h1.blank (by rintro c ⟨⟩; decide),
      skipBlanks_append hb (by rintro c ⟨⟩; decide)] at hskip
    exact absurd (List.cons.inj hskip).1 (by decide)

/-! ## Headers -/

/-- The front of a table block up to its opening parenthesis. -/
inductive IsHeader (name : List Char) : List Char → Prop
  | plain {b1 b2 b3 : List Char} (h1 : IsBlanks b1) (h2 : IsBlanks b2) (hname : IsName name)
    (h3 : ∀ c ∈ b3, isBlank c) :
    IsHeader name ("CREATE".toList ++ (b1 ++ ("TABLE".toList ++ (b2 ++ (name ++ (b3 ++ ['(']))))))
  | guarded {b1 b2 guard b3 : List Char} (h1 : IsBlanks b1) (h2 : IsBlanks b2)
    (hguard : IsGuard guard) (hname : IsName name) (h3 : ∀ c ∈ b3, isBlank c) :
    IsHeader name
      ("CREATE".toList ++ (b1 ++ ("TABLE".toList ++ (b2 ++ (guard ++ (name ++ (b3 ++ ['('])))))))

theorem not_isBlank_head?_name {name x : List Char} (hname : IsName name) :
    ∀ c ∈ (name ++ x).head?, isBlank c = false := by
  obtain ⟨c, cs, rfl, hc, -⟩ := hname
  rintro d ⟨⟩
  exact not_isBlank_of_isNamePart (isNamePart_of_isNameStart hc)

theorem not_isBlank_head?_guard {guard x : List Char} (hguard : IsGuard guard) :
    ∀ c ∈ (guard ++ x).head?, isBlank c = false := by
  cases hguard
  rintro c ⟨⟩
  decide

/-- A header is read off the front of a text exactly if the text starts with it. -/
theorem blockHeader_eq_some_iff {t name inside : List Char} :
    blockHeader t = some (name, inside) ↔ ∃ head, IsHeader name head ∧ t = head ++ inside := by
  have htable : ∀ s, ∀ c ∈ ("TABLE".toList ++ s).head?, isBlank c = false := by
    rintro s c ⟨⟩
    decide
  have hread : ∀ b3, (∀ c ∈ b3, isBlank c) → IsName name →
      leadingName (name ++ (b3 ++ '(' :: inside)) = some (name, b3 ++ '(' :: inside) ∧
        skipBlanks (b3 ++ '(' :: inside) = '(' :: inside := by
    intro b3 h3 hname
    refine ⟨leadingName_eq_some_iff.2
      ⟨hname, not_isNamePart_head? h3 fun _ => not_isNamePart_paren inside, rfl⟩, ?_⟩
    exact skipBlanks_append h3 (by rintro c ⟨⟩; decide)
  unfold blockHeader
  simp only [Option.bind_eq_bind, Option.bind_eq_some_iff, behind_eq_some_iff,
    skipSomeBlanks_eq_some_iff]
  constructor
  · rintro ⟨_, rfl, _, ⟨b1, h1, -, rfl⟩, _, rfl, t, ⟨b2, h2, -, rfl⟩, ⟨name', r⟩, hname, inside',
      hopen, heq⟩
    obtain ⟨rfl, rfl⟩ := Prod.mk.inj (Option.some.inj heq)
    obtain ⟨hname, -, ht⟩ := leadingName_eq_some_iff.1 hname
    obtain ⟨b3, h3, hr⟩ := exists_blanks_append_trimStart r
    have hr' : r = b3 ++ '(' :: inside' := hr.trans (congrArg (b3 ++ ·) hopen)
    cases hguard : behindGuard t with
    | none =>
      rw [hguard, Option.getD_none] at ht
      refine ⟨_, .plain h1 h2 hname h3, ?_⟩
      simp [ht, hr']
    | some v =>
      rw [hguard, Option.getD_some] at ht
      obtain ⟨guard, hguard, -, htext⟩ := behindGuard_eq_some_iff.1 hguard
      refine ⟨_, .guarded h1 h2 hguard hname h3, ?_⟩
      simp [htext, ht, hr']
  · rintro ⟨_, hhead, rfl⟩
    cases hhead with
    | @plain b1 b2 b3 h1 h2 hname h3 =>
      simp only [List.append_assoc, List.singleton_append]
      obtain ⟨hname', hskip⟩ := hread b3 h3 hname
      refine ⟨_, rfl, _, ⟨b1, h1, htable _, rfl⟩, _, rfl, _,
        ⟨b2, h2, not_isBlank_head?_name hname, rfl⟩, (name, b3 ++ '(' :: inside), ?_,
        inside, hskip, rfl⟩
      rw [behindGuard_name hname h3]
      exact hname'
    | @guarded b1 b2 guard b3 h1 h2 hguard hname h3 =>
      simp only [List.append_assoc, List.singleton_append]
      obtain ⟨hname', hskip⟩ := hread b3 h3 hname
      refine ⟨_, rfl, _, ⟨b1, h1, htable _, rfl⟩, _, rfl, _,
        ⟨b2, h2, not_isBlank_head?_guard hguard, rfl⟩, (name, b3 ++ '(' :: inside), ?_,
        inside, hskip, rfl⟩
      rw [behindGuard_eq_some_iff.2 ⟨guard, hguard, not_isBlank_head?_name hname, rfl⟩]
      exact hname'

theorem IsGuard.char {guard : List Char} (h : IsGuard guard) :
    ∀ c ∈ guard, isBlank c ∨ isNamePart c := by
  have hif : ∀ c ∈ "IF".toList, isNamePart c := List.all_eq_true.1 rfl
  have hnot : ∀ c ∈ "NOT".toList, isNamePart c := List.all_eq_true.1 rfl
  have hexists : ∀ c ∈ "EXISTS".toList, isNamePart c := List.all_eq_true.1 rfl
  cases h with
  | words h1 h2 h3 =>
    simp only [List.forall_mem_append]
    exact ⟨fun c hc => .inr (hif c hc), fun c hc => .inl (h1.blank c hc),
      fun c hc => .inr (hnot c hc), fun c hc => .inl (h2.blank c hc),
      fun c hc => .inr (hexists c hc), fun c hc => .inl (h3.blank c hc)⟩

/-- A header is made of blanks, characters of names, and its parenthesis. -/
theorem IsHeader.char {name head : List Char} (h : IsHeader name head) :
    ∀ c ∈ head, isBlank c ∨ isNamePart c ∨ c = '(' := by
  have hcreate : ∀ c ∈ "CREATE".toList, isNamePart c := List.all_eq_true.1 rfl
  have htable : ∀ c ∈ "TABLE".toList, isNamePart c := List.all_eq_true.1 rfl
  cases h with
  | plain h1 h2 hname h3 =>
    simp only [List.forall_mem_append, List.forall_mem_singleton]
    exact ⟨fun c hc => .inr (.inl (hcreate c hc)), fun c hc => .inl (h1.blank c hc),
      fun c hc => .inr (.inl (htable c hc)), fun c hc => .inl (h2.blank c hc),
      fun c hc => .inr (.inl (hname.isNamePart c hc)), fun c hc => .inl (h3 c hc), .inr (.inr trivial)⟩
  | guarded h1 h2 hguard hname h3 =>
    simp only [List.forall_mem_append, List.forall_mem_singleton]
    exact ⟨fun c hc => .inr (.inl (hcreate c hc)), fun c hc => .inl (h1.blank c hc),
      fun c hc => .inr (.inl (htable c hc)), fun c hc => .inl (h2.blank c hc),
      fun c hc => (hguard.char c hc).imp_right .inl,
      fun c hc => .inr (.inl (hname.isNamePart c hc)), fun c hc => .inl (h3 c hc), .inr (.inr trivial)⟩

theorem IsHeader.not_mem {name head : List Char} {c : Char} (h : IsHeader name head)
    (hc : ¬ (isBlank c ∨ isNamePart c ∨ c = '(')) : c ∉ head := fun hmem => hc (h.char c hmem)

/-! ## Blocks -/

/-- The text of a table block, from its first word to its terminator. -/
def IsBlock (block : TableBlock) (text : List Char) : Prop :=
  ∃ name head, IsHeader name head ∧ block.name = String.ofList name ∧
    ¬ [')', ';'] <:+: block.body ∧ text = head ++ (block.body ++ [')', ';'])

/-- A block is found exactly if the text starts with one, and it goes up to its terminator. -/
theorem tableBlock_eq_some_iff {t : List Char} {block : TableBlock} {size : Nat} :
    tableBlock t = some (block, size) ↔
      ∃ text rest, IsBlock block text ∧ t = text ++ rest ∧ size = text.length := by
  have hclose : ");".toList = [')', ';'] := rfl
  unfold tableBlock
  rw [hclose]
  simp only [Option.bind_eq_bind, Option.bind_eq_some_iff]
  constructor
  · rintro ⟨⟨name, inside⟩, hheader, ⟨body, rest⟩, hbreak, heq⟩
    obtain ⟨rfl, rfl⟩ := Prod.mk.inj (Option.some.inj heq)
    obtain ⟨head, hhead, rfl⟩ := blockHeader_eq_some_iff.1 hheader
    have hinside : inside = body ++ ([')', ';'] ++ rest) := eq_of_breakOn hbreak
    refine ⟨head ++ (body ++ [')', ';']), rest,
      ⟨name, head, hhead, rfl, not_infix_of_breakOn hbreak, rfl⟩, ?_, ?_⟩
    · simp only [hinside, List.append_assoc]
    · simp only [hinside, List.length_append]
      omega
  · rintro ⟨_, rest, ⟨name, head, hhead, hname, hbody, rfl⟩, rfl, rfl⟩
    obtain ⟨blockName, body⟩ := block
    obtain rfl : blockName = String.ofList name := hname
    refine ⟨(name, body ++ ')' :: ';' :: rest), blockHeader_eq_some_iff.2 ⟨head, hhead, ?_⟩,
      (body, rest), breakOn_pair (by decide) hbody rest, ?_⟩
    · simp
    · simp only [Option.some.injEq, Prod.mk.injEq, true_and, List.length_append]
      omega

theorem IsBlock.ne_nil {block : TableBlock} {text : List Char} (h : IsBlock block text) :
    text ≠ [] := by
  obtain ⟨name, head, -, -, -, rfl⟩ := h
  simp

/-- A block at the front is found, and the search goes on behind it. -/
theorem tableBlocks_append {block : TableBlock} {text : List Char} (h : IsBlock block text)
    (rest : List Char) : tableBlocks (text ++ rest) = block :: tableBlocks rest :=
  occurrences_append_of_some h.ne_nil (tableBlock_eq_some_iff.2 ⟨text, rest, h, rfl, rfl⟩)

end ColumnAudit.Schema
