import ColumnAudit.Proofs.Names
import ColumnAudit.Proofs.Source.SnakeNames
import ColumnAudit.Proofs.Text.PatternOrder
import ColumnAudit.Source.TypeKeys

/-! # The pattern of a type key

At the start of a line the pattern of a type key matches a name with a colon behind it and blanks around
both (`typeKey_eq_some_iff`). A blank is no part of a name and no colon, so only the blanks behind the colon
may be more or fewer, and the match takes all of them (`first?_typeKeyPattern`).

`typeKeysFrom` is the search for keys with just what it has to know at a place of a text
(`typeKeys_eq_ofList`).
-/

namespace ColumnAudit.Source
open Text
set_option autoImplicit false

/-! ## Keys at the front of a text -/

/-- The key at the front of a text and the text behind its colon and the blanks after it. -/
def typeKey (t : List Char) : Option (String × List Char) := do
  let (name, t1) ← leadingName (skipBlanks t)
  let t2 ← behind ":" (skipBlanks t1)
  some (String.ofList name, skipBlanks t2)

/-- A key is a name with a colon behind it, with blanks around the name. -/
theorem typeKey_eq_some_iff {t rest : List Char} {key : String} :
    typeKey t = some (key, rest) ↔
      ∃ indent name gap behindColon, (∀ c ∈ indent, isBlank c) ∧ IsName name ∧
        (∀ c ∈ gap, isBlank c) ∧ t = indent ++ (name ++ (gap ++ ':' :: behindColon)) ∧
        key = String.ofList name ∧ rest = skipBlanks behindColon := by
  have hcolon : ":".toList = [':'] := rfl
  constructor
  · intro h
    unfold typeKey at h
    obtain ⟨⟨name, t1⟩, hname, h⟩ := Option.bind_eq_some_iff.1 h
    obtain ⟨t2, ht2, h⟩ := Option.bind_eq_some_iff.1 h
    simp only [Option.some.injEq, Prod.mk.injEq] at h
    obtain ⟨rfl, rfl⟩ := h
    obtain ⟨hname, -, ht⟩ := leadingName_eq_some_iff.1 hname
    obtain ⟨indent, hindent, htext⟩ := exists_blanks_append_trimStart t
    obtain ⟨gap, hgap, ht1⟩ := exists_blanks_append_trimStart t1
    rw [behind_eq_some_iff, hcolon, List.singleton_append] at ht2
    refine ⟨indent, name, gap, t2, hindent, hname, hgap, ?_, rfl, rfl⟩
    rw [skipBlanks] at ht ht2
    rw [htext, ht, ← ht2, ← ht1]
  · rintro ⟨indent, name, gap, t2, hindent, hname, hgap, rfl, rfl, rfl⟩
    obtain ⟨c, cs, hcons, hstart, -⟩ := id hname
    have hfront : skipBlanks (indent ++ (name ++ (gap ++ ':' :: t2))) =
        name ++ (gap ++ ':' :: t2) := by
      rw [skipBlanks, trimStart_append_of_blank hindent, hcons, List.cons_append,
        trimStart_cons_of_not_blank
          (not_isBlank_of_isNamePart (isNamePart_of_isNameStart hstart))]
    have hends : ∀ d ∈ (gap ++ ':' :: t2).head?, isNamePart d = false := by
      intro d hd
      cases gap with
      | nil =>
        obtain rfl := Option.some.inj hd
        decide
      | cons e gap =>
        obtain rfl := Option.some.inj hd
        exact not_isNamePart_of_isBlank (hgap e (by simp))
    have hgapped : skipBlanks (gap ++ ':' :: t2) = ":".toList ++ t2 := by
      rw [skipBlanks, trimStart_append_of_blank hgap, trimStart_cons_of_not_blank (by decide)]
      rfl
    rw [typeKey, hfront, leadingName_eq_some_iff.2 ⟨hname, hends, rfl⟩]
    simp only [Option.bind_eq_bind, Option.bind_some, hgapped, behind_append]

/-- What the pattern finds is the key, and the match goes up to the text behind the blanks. -/
theorem typeKey_of_first? {previous : Option Char} {t name : List Char} {size : Nat}
    (h : typeKeyPattern.first? previous t = some (name, size)) :
    previous.all (· == '\n') = true ∧ ∃ rest, typeKey t = some (String.ofList name, rest) ∧
      size = t.length - rest.length := by
  -- Behind the colon nothing else has to come, so all blanks are taken.
  have hattempt : typeKeyPattern.first? previous t =
      (Pattern.seq .lineStart (.star (.one isBlank))).attempt ⟨previous, t, 0⟩ fun s =>
        (Pattern.headed isNameStart isNamePart).attempt s fun closed =>
          (Pattern.seq (.star (.one isBlank)) (.literal [':'])).attempt closed fun c =>
            (Pattern.star (.one isBlank)).attempt c fun e => some (Match.found ⟨s, closed, e⟩) := rfl
  rw [hattempt] at h
  simp only [Pattern.attempt_starOne] at h
  obtain ⟨_, hindent, h⟩ := Pattern.exists_takes_of_attempt h
  obtain ⟨_, hname, h⟩ := Pattern.exists_takes_of_attempt h
  obtain ⟨_, hcolon, h⟩ := Pattern.exists_takes_of_attempt h
  obtain ⟨_, hstart, hindent⟩ := Pattern.takes_seq_iff.1 hindent
  obtain ⟨hline, rfl⟩ := Pattern.takes_lineStart_iff.1 hstart
  obtain ⟨indent, _, hblanks, ht, rfl⟩ := (Pattern.Reads.starOne isBlank).exists_after hindent
  obtain ⟨word, _, hword, rfl, rfl⟩ := (Pattern.Reads.headed isNameStart isNamePart).exists_after hname
  obtain ⟨_, value, ⟨gap, hgap, rfl⟩, rfl, rfl⟩ := reads_colon.exists_after hcolon
  dsimp only at ht
  rw [List.append_assoc, List.singleton_append] at ht
  have hfound := (Match.found_after (s := Place.after ⟨previous, t, 0⟩ indent _) rfl _).symm.trans
    (Option.some.inj h)
  obtain ⟨rfl, rfl⟩ := Prod.mk.inj hfound
  refine ⟨hline, skipBlanks value, typeKey_eq_some_iff.2
    ⟨indent, word, gap, value, hblanks, hword, hgap, ht, rfl, rfl⟩, ?_⟩
  have hvalue : value.length = (value.takeWhile isBlank).length + (skipBlanks value).length := by
    rw [← List.length_append, skipBlanks, trimStart, List.takeWhile_append_dropWhile]
  simp only [Place.taken_after, Place.behind_after, ht, List.length_append, List.length_cons,
    List.length_nil]
  omega

theorem first?_typeKeyPattern (previous : Option Char) (t : List Char) :
    (typeKeyPattern.first? previous t).map (fun (name, size) => (String.ofList name, size)) =
      (if previous.all (· == '\n') then typeKey t else none).map
        fun (key, rest) => (key, t.length - rest.length) := by
  cases hfirst : typeKeyPattern.first? previous t with
  | some found =>
    obtain ⟨name, size⟩ := found
    obtain ⟨hline, rest, hkey, rfl⟩ := typeKey_of_first? hfirst
    rw [if_pos hline, hkey]
    rfl
  | none =>
    split
    · rename_i hline
      cases hkey : typeKey t with
      | none => rfl
      | some found =>
        obtain ⟨key, rest⟩ := found
        obtain ⟨indent, name, gap, value, hindent, hname, hgap, ht, -, -⟩ := typeKey_eq_some_iff.1 hkey
        have hlead : (Pattern.seq .lineStart (.star (.one isBlank))).Takes ⟨previous, t, 0⟩
            (Place.after ⟨previous, t, 0⟩ indent (name ++ (gap ++ ':' :: value))) :=
          .seq (.lineStart hline) ((Pattern.Reads.starOne isBlank).takes hindent ht)
        have hsome : (typeKeyPattern.first? previous t).isSome :=
          Grouped.isSome_first? (Pattern.Reads.headed isNameStart isNamePart)
            ((Pattern.Reads.starOne isBlank).seq
              ((Pattern.Reads.literal [':']).seq (Pattern.Reads.starOne isBlank)))
            hlead hname (v := gap ++ [':']) (r := value)
            ⟨gap, [':'], hgap, ⟨[':'], [], rfl, nofun, rfl⟩, rfl⟩ (by simp)
        rw [hfirst] at hsome
        cases hsome
    · rfl

/-! ## The search -/

/-- The keys of a text whose first `skip` characters belong to the key before; `lineStart` says
that the character before the text was a line end, or that there was none. -/
def typeKeysFrom (skip : Nat) (lineStart : Bool) : List Char → List String
  | [] => []
  | c :: cs =>
    match skip with
    | skip + 1 => typeKeysFrom skip (c == '\n') cs
    | 0 =>
      match if lineStart then typeKey (c :: cs) else none with
      | some (key, rest) => key :: typeKeysFrom (cs.length - rest.length) (c == '\n') cs
      | none => typeKeysFrom 0 (c == '\n') cs

theorem map_searchFrom_typeKeyPattern (skip : Nat) (previous : Option Char) (t : List Char) :
    (searchFrom typeKeyPattern.first? skip previous t).map String.ofList =
      typeKeysFrom skip (previous.all (· == '\n')) t := by
  induction t generalizing skip previous with
  | nil => cases skip <;> rfl
  | cons c t ih =>
    cases skip with
    | succ skip => exact ih skip (some c)
    | zero =>
      have hfirst := first?_typeKeyPattern previous (c :: t)
      rw [searchFrom, typeKeysFrom.eq_def]
      dsimp only
      generalize (if previous.all (· == '\n') then typeKey (c :: t) else none) = key at *
      cases hmatch : typeKeyPattern.first? previous (c :: t) with
      | none =>
        rw [hmatch] at hfirst
        cases key with
        | none => exact ih 0 (some c)
        | some found => cases hfirst
      | some found =>
        rw [hmatch] at hfirst
        cases key with
        | none => cases hfirst
        | some key =>
          obtain ⟨hname, hsize⟩ := Prod.mk.inj (Option.some.inj hfirst)
          have hskip : found.2 - 1 = t.length - key.2.length := by
            rw [List.length_cons] at hsize
            omega
          show String.ofList found.1 :: (searchFrom typeKeyPattern.first? (found.2 - 1) (some c) t).map _ =
            key.1 :: typeKeysFrom (t.length - key.2.length) (c == '\n') t
          rw [ih, hskip, hname]
          rfl

theorem typeKeys_eq_ofList (text : String) :
    typeKeys text = NameSet.ofList (typeKeysFrom 0 true text.toList) :=
  congrArg NameSet.ofList (map_searchFrom_typeKeyPattern 0 none text.toList)

end ColumnAudit.Source
