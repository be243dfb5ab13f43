import ColumnAudit.Proofs.Schema.Comment
import ColumnAudit.Proofs.Schema.Declaration

/-! # Comments in table bodies

When the comments of a body leave its columns alone. On a single line they always do: what stands
behind two dashes is dropped. Over several lines each line still declares its column, unless a comment
touches a name that is all the code of its line (`columnName_of_isCodeOf`).
-/

namespace ColumnAudit.Schema
open Text
set_option autoImplicit false

/-! ## The column of a line -/

/-- Whether a line has nothing but a name, with no blank behind it. -/
def isBareName (code : List Char) : Bool :=
  match leading isFoldedStart isFoldedPart (trimStart code) with
  | some (_, rest) => rest.isEmpty
  | none => false

theorem toUpper_of_isBlank {c : Char} (h : isBlank c) : c.toUpper = c := by
  refine dif_neg ?_
  rintro ⟨hlo, hhi⟩
  have hlower : c.isLower = true :=
    (Bool.and_eq_true _ _).mpr ⟨decide_eq_true hlo, decide_eq_true hhi⟩
  have hclass : (c.isUpper || c.isLower || c.isDigit || c == '_') = true := by simp [hlower]
  have hpart : isNamePart c := hclass
  rw [not_isBlank_of_isNamePart hpart] at h
  cases h

/-- A constraint is opened by a front that holds neither a dash nor a comma and does not end in a
blank. -/
theorem isConstraint_eq_true_iff {t : List Char} : isConstraint t = true ↔
    ∃ v, v <+: t ∧ (∀ c ∈ v, c ≠ '-' ∧ c ≠ ',') ∧ (∀ c ∈ v.getLast?, isBlank c = false) ∧
      ∃ opening ∈ constraintOpenings, opening.toList = v.map Char.toUpper := by
  have hopenings : ∀ opening ∈ constraintOpenings, ('-' ∉ opening.toList ∧ ',' ∉ opening.toList) ∧
      opening.toList.getLast?.all (isBlank · == false) = true := by decide
  simp only [isConstraint, List.any_eq_true, List.isPrefixOf_iff_prefix, List.prefix_map_iff]
  constructor
  · rintro ⟨opening, hmem, v, hv, heq⟩
    obtain ⟨⟨hdash, hcomma⟩, hlast⟩ := hopenings opening hmem
    refine ⟨v, hv, fun c hin => ⟨?_, ?_⟩, fun c hc => ?_, opening, hmem, heq⟩
    · rintro rfl
      apply hdash
      rw [heq]
      exact List.mem_map.2 ⟨'-', hin, rfl⟩
    · rintro rfl
      apply hcomma
      rw [heq]
      exact List.mem_map.2 ⟨',', hin, rfl⟩
    · by_contra hblank
      rw [Bool.not_eq_false] at hblank
      have hmap : (v.map Char.toUpper).getLast? = some c := by
        rw [List.getLast?_map, hc, Option.map_some, toUpper_of_isBlank hblank]
      rw [← heq] at hmap
      have hfalse := Option.all_eq_true _ _ |>.1 hlast c hmap
      rw [hblank] at hfalse
      cases hfalse
  · rintro ⟨v, hv, -, -, opening, hmem, heq⟩
    exact ⟨opening, hmem, v, hv, heq⟩

/-- The code in front of a comment, without the blanks before it: it starts with no blank and does not
end in a dash. -/
structure IsFront (u : List Char) : Prop where
  not_nil : u ≠ []
  head : ∀ c ∈ u.head?, isBlank c = false
  last : u.getLast? ≠ some '-'

/-- A dash or a comma behind a front does not change whether it opens a constraint. -/
theorem isConstraint_front {c : Char} (hc : c = '-' ∨ c = ',') (u w : List Char) :
    isConstraint (u ++ c :: w) = isConstraint (trimEnd u) := by
  rw [Bool.eq_iff_iff, isConstraint_eq_true_iff, isConstraint_eq_true_iff]
  constructor
  · rintro ⟨v, ⟨x, hv⟩, hletters, hlast, h⟩
    rcases prefix_or_reaches hv with hv | ⟨b, rfl, -⟩
    · exact ⟨v, prefix_trimEnd hv hlast, hletters, hlast, h⟩
    · obtain ⟨hdash, hcomma⟩ := hletters c (by simp)
      exact absurd hc (not_or.2 ⟨hdash, hcomma⟩)
  · rintro ⟨v, hv, hletters, hlast, h⟩
    have hkept := trimEnd_prefix_self u
    exact ⟨v, (hv.trans hkept).trans (List.prefix_append u _), hletters, hlast, h⟩

theorem isComment_front {u : List Char} (hu : IsFront u) (w : List Char) :
    isComment (u ++ '-' :: w) = isComment (trimEnd u) := by
  rw [Bool.eq_iff_iff, isComment, isComment, List.isPrefixOf_iff_prefix, List.isPrefixOf_iff_prefix]
  constructor
  · rintro ⟨x, hx⟩
    rcases prefix_or_reaches hx with h | ⟨b, hb, -⟩
    · exact prefix_trimEnd h (by rintro c ⟨⟩; decide)
    · -- Then the code is the first of the two dashes.
      obtain ⟨c, u', rfl⟩ := List.exists_cons_of_ne_nil hu.not_nil
      have hb' : ['-'] = u' ++ '-' :: b := (List.cons.inj hb).2
      cases u' with
      | nil =>
        obtain rfl : '-' = c := (List.cons.inj hb).1
        exact absurd rfl hu.last
      | cons d u' => simp at hb'
  · intro h
    have hkept := trimEnd_prefix_self u
    exact (h.trans hkept).trans (List.prefix_append u _)

theorem columnName_eq {line t : List Char} (ht : trim line = t) (hcomment : isComment t = false)
    (hconstraint : isConstraint t = false) :
    columnName line = (leading isFoldedStart isFoldedPart t).bind fun (name, rest) =>
      if rest.head?.all isBlank then some (String.ofList name) else none := by
  simp only [columnName, ht, hcomment, hconstraint, Bool.or_self, Bool.false_eq_true, if_false]
  cases leading isFoldedStart isFoldedPart t <;> rfl

theorem not_isBlank_of_isFoldedPart {c : Char} (h : isFoldedPart c) : isBlank c = false := by
  by_contra hblank
  rw [Bool.not_eq_false] at hblank
  rw [isFoldedPart_of_isBlank hblank] at h
  cases h

/-- Unless a front is a bare name, what follows the name in it is what follows it in a longer text. -/
theorem leading_front {u : List Char} (hnil : u ≠ []) (hhead : ∀ c ∈ u.head?, isBlank c = false)
    (hbare : isBareName u = false) (w : List Char) :
    ((leading isFoldedStart isFoldedPart (u ++ w)).bind fun (name, rest) =>
        if rest.head?.all isBlank then some (String.ofList name) else none) =
      (leading isFoldedStart isFoldedPart (trimEnd u)).bind fun (name, rest) =>
        if rest.head?.all isBlank then some (String.ofList name) else none := by
  obtain ⟨c, u', rfl⟩ := List.exists_cons_of_ne_nil hnil
  have hc : isBlank c = false := hhead c rfl
  rw [trimEnd_cons_of_not_blank hc, List.cons_append, leading, leading]
  by_cases hstart : isFoldedStart c
  · rw [isBareName, trimStart_cons_of_not_blank hc, leading, if_pos hstart] at hbare
    obtain ⟨d, q, hq⟩ : ∃ d q, u'.dropWhile isFoldedPart = d :: q :=
      List.exists_cons_of_ne_nil fun hnil => by
        rw [hnil] at hbare
        cases hbare
    have hu' : u' = u'.takeWhile isFoldedPart ++ d :: q := by
      rw [← hq, List.takeWhile_append_dropWhile]
    have hname : ∀ e ∈ u'.takeWhile isFoldedPart, isFoldedPart e := fun e he =>
      List.mem_takeWhile_imp he
    have hd : isFoldedPart d = false := by
      have hdrop := List.head?_dropWhile_not isFoldedPart u'
      rw [hq] at hdrop
      simpa using hdrop
    generalize u'.takeWhile isFoldedPart = name at hu' hname
    subst hu'
    rw [trimEnd_append_of_not_blank fun e he => not_isBlank_of_isFoldedPart (hname e he),
      List.append_assoc]
    have hhead := head?_trimEnd_cons d q
    have hfull := takeWhile_dropWhile_append hname (b := d :: q ++ w) (by
      rintro e ⟨⟩
      exact hd)
    have htrimmed := takeWhile_dropWhile_append hname (b := trimEnd (d :: q)) (by
      intro e he
      rcases hhead with hhead | ⟨-, hnil⟩
      · rw [hhead] at he
        exact Option.some.inj he ▸ hd
      · rw [hnil] at he
        cases he)
    rw [if_pos hstart, if_pos hstart, hfull.1, hfull.2, htrimmed.1, htrimmed.2]
    rcases hhead with hhead | ⟨hblank, hnil⟩
    · simp [hhead]
    · simp [hnil, hblank]
  · rw [if_neg hstart, if_neg hstart]

theorem columnName_of_isComment {line : List Char} (h : isComment (trim line) = true) :
    columnName line = none := by
  simp only [columnName, h, Bool.true_or, if_true]

theorem isBareName_trimStart {d : List Char} (hsolid : ∃ c ∈ d, isBlank c = false) :
    isBareName (trimStart d) = isBareName d := by
  obtain ⟨c, u, hcons⟩ := List.exists_cons_of_ne_nil (trimStart_ne_nil hsolid)
  have hc : isBlank c = false := head?_skipBlanks d c (by rw [skipBlanks, hcons]; rfl)
  rw [isBareName, isBareName, hcons, trimStart_cons_of_not_blank hc]

theorem isFront_trimStart {code : List Char} (hsolid : ∃ c ∈ code, isBlank c = false)
    (hlast : code.getLast? ≠ some '-') : IsFront (trimStart code) := by
  have hnil := trimStart_ne_nil hsolid
  refine ⟨hnil, head?_skipBlanks code, ?_⟩
  obtain ⟨blanks, -, hcode⟩ := exists_blanks_append_trimStart code
  rw [hcode, List.getLast?_append_of_ne_nil _ hnil] at hlast
  exact hlast

/-- What stands behind a definition from a dash or a comma on does not change its column, unless it
touches a bare name or makes a comment out of the definition. -/
theorem columnName_append {d w : List Char} {c : Char} (hc : c = '-' ∨ c = ',')
    (hsolid : ∃ c ∈ d, isBlank c = false) (hbare : isBareName d = false)
    (hcomment : isComment (trimStart d ++ c :: trimEnd w) = isComment (trim d)) :
    columnName (d ++ c :: w) = columnName d := by
  have hblank : isBlank c = false := by
    rcases hc with rfl | rfl
    · decide
    · decide
  have htrim : trim (d ++ c :: w) = trimStart d ++ c :: trimEnd w := by
    rw [trim, trimStart_append_of_not_blank hsolid, trimEnd_append, trimEnd_cons_of_not_blank hblank,
      if_neg (List.cons_ne_nil _ _)]
  have hconstraint : isConstraint (trimStart d ++ c :: trimEnd w) = isConstraint (trim d) :=
    isConstraint_front hc (trimStart d) (trimEnd w)
  rw [← htrim] at hcomment hconstraint
  by_cases hopens : isComment (trim d)
  · rw [columnName_of_isComment hopens, columnName_of_isComment (hcomment.trans hopens)]
  by_cases hconstrains : isConstraint (trim d)
  · rw [columnName_of_isConstraint hconstrains,
      columnName_of_isConstraint (hconstraint.trans hconstrains)]
  rw [Bool.not_eq_true] at hopens hconstrains
  rw [columnName_eq rfl hopens hconstrains,
    columnName_eq rfl (hcomment.trans hopens) (hconstraint.trans hconstrains), htrim]
  exact leading_front (trimStart_ne_nil hsolid) (head?_skipBlanks d)
    ((isBareName_trimStart hsolid).trans hbare) _

/-- A line declares the column of its code, unless the comment touches a bare name. -/
theorem columnName_of_isCodeOf {code line : List Char} (h : IsCodeOf code line)
    (hbare : code = line ∨ isBareName code = false) : columnName code = columnName line := by
  rcases h with rfl | ⟨rest, rfl, hlast⟩
  · rfl
  by_cases hblank : ∀ c ∈ code, isBlank c
  · rw [columnName_of_declares (.blank hblank), columnName_of_declares (.comment hblank)]
  simp only [not_forall, Bool.not_eq_true, exists_prop] at hblank
  have hbare' : isBareName code = false := hbare.resolve_left (by simp)
  have hend : trimEnd ('-' :: rest) = '-' :: trimEnd rest := trimEnd_cons_of_not_blank (by decide) rest
  symm
  apply columnName_append (.inl rfl) hblank hbare'
  rw [hend]
  exact isComment_front (isFront_trimStart hblank hlast) ('-' :: trimEnd rest)

/-! ## Blanks around definitions -/

theorem columnName_of_blank {t : List Char} (h : ∀ c ∈ t, isBlank c) : columnName t = none :=
  columnName_of_declares (.blank h)

theorem columnName_append_of_blank {b : List Char} (hb : ∀ c ∈ b, isBlank c) (t : List Char) :
    columnName (t ++ b) = columnName t := by
  simp only [columnName, trim_append_of_blank_end hb]

theorem columnName_of_blank_append {a : List Char} (ha : ∀ c ∈ a, isBlank c) (t : List Char) :
    columnName (a ++ t) = columnName t := by
  simp only [columnName, trim_append_of_blank ha]

/-- The columns of the lines of a text. -/
def lineColumns (t : List Char) : List String := (lines t).filterMap columnName

theorem lineColumns_of_blank_append {a : List Char} (ha : ∀ c ∈ a, isBlank c) (t : List Char) :
    lineColumns (a ++ t) = lineColumns t := by
  induction a with
  | nil => rfl
  | cons c a ih =>
    obtain ⟨hc, ha⟩ := List.forall_mem_cons.1 ha
    rw [← ih ha, lineColumns, lineColumns, lines, lines, List.cons_append]
    by_cases hnewline : c = '\n'
    · rw [pieces, if_pos hnewline, List.filterMap_cons, columnName_of_blank (by simp)]
    · obtain ⟨p, ps, hp, hcons⟩ := pieces_cons_of_ne hnewline (a ++ t)
      have hblank : ∀ d ∈ [c], isBlank d := by simpa using hc
      have hname : columnName (c :: p) = columnName p := columnName_of_blank_append hblank p
      rw [hcons, hp, List.filterMap_cons, List.filterMap_cons, hname]

theorem lineColumns_of_blank {t : List Char} (h : ∀ c ∈ t, isBlank c) : lineColumns t = [] := by
  have hfront := lineColumns_of_blank_append h []
  rw [List.append_nil] at hfront
  rw [hfront, lineColumns, lines, pieces, List.filterMap_cons, columnName_of_blank (by simp)]
  rfl

/-- Lines of which only one is not blank declare what the whole text declares. -/
theorem lineColumns_of_one_line {t : List Char} (h : '\n' ∉ trim t) :
    lineColumns t = [t].filterMap columnName := by
  obtain ⟨a, b, ha, hb, ht⟩ := exists_blanks_append_trim t
  have hname : columnName t = columnName (trim t) := by
    conv_lhs => rw [ht]
    rw [columnName_of_blank_append ha, columnName_append_of_blank hb]
  have hback : lineColumns (trim t ++ b) = [trim t].filterMap columnName := by
    by_cases hnewline : '\n' ∈ b
    · obtain ⟨front, back, rfl, hfront⟩ := List.eq_append_cons_of_mem hnewline
      have hline : '\n' ∉ trim t ++ front := by simp [h, hfront]
      have hback : lineColumns back = [] :=
        lineColumns_of_blank fun c hc => hb c (by simp [hc])
      rw [lineColumns, lines, ← List.append_assoc, pieces_append_cons hline, List.filterMap_cons,
        columnName_append_of_blank fun c hc => hb c (by simp [hc])]
      rw [lineColumns, lines] at hback
      rw [hback, List.filterMap_cons]
      rfl
    · have hline : '\n' ∉ trim t ++ b := by simp [h, hnewline]
      rw [lineColumns, lines, pieces_of_not_mem hline, List.filterMap_cons, List.filterMap_cons,
        columnName_append_of_blank hb]
  conv_lhs => rw [ht]
  rw [lineColumns_of_blank_append ha, hback, List.filterMap_cons, List.filterMap_cons, hname]

/-! ## Definitions on one line -/

/-- A character goes to the first piece of what is behind it, or it is a comma between pieces. -/
theorem splitFrom_cons (literal : Bool) (depth : Nat) (c : Char) :
    (∃ literal' depth', ∀ t,
      splitFrom literal depth (c :: t) = consFirst c (splitFrom literal' depth' t)) ∨
    ∀ t, splitFrom literal depth (c :: t) = [] :: splitFrom literal depth t := by
  simp only [splitFrom]
  split
  · exact .inl ⟨_, _, fun _ => rfl⟩
  · split
    · exact .inl ⟨_, _, fun _ => rfl⟩
    · split
      · exact .inl ⟨_, _, fun _ => rfl⟩
      · split
        · exact .inl ⟨_, _, fun _ => rfl⟩
        · split
          · exact .inr fun _ => rfl
          · exact .inl ⟨_, _, fun _ => rfl⟩

theorem foldr_consFirst (d p : List Char) (ps : List (List Char)) :
    d.foldr consFirst (p :: ps) = (d ++ p) :: ps := by
  induction d with
  | nil => rfl
  | cons c d ih =>
    rw [List.foldr_cons, ih]
    rfl

theorem splitFrom_of_blank_append {b : List Char} (hb : ∀ c ∈ b, isBlank c) (literal : Bool)
    (depth : Nat) (t : List Char) :
    splitFrom literal depth (b ++ t) = b.foldr consFirst (splitFrom literal depth t) := by
  induction b with
  | nil => rfl
  | cons c b ih =>
    obtain ⟨hc, hb⟩ := List.forall_mem_cons.1 hb
    have hnot : c ≠ '\x27' ∧ c ≠ '(' ∧ c ≠ ')' ∧ c ≠ ',' := by
      refine ⟨?_, ?_, ?_, ?_⟩ <;> (rintro rfl; exact absurd hc (by decide))
    obtain ⟨hquote, hopen, hclose, hcomma⟩ := hnot
    rw [List.cons_append, List.foldr_cons, ← ih hb, splitFrom]
    simp only [hquote, hopen, hclose, hcomma, if_false, false_and, ite_self]

theorem splitFrom_of_blank {b : List Char} (hb : ∀ c ∈ b, isBlank c) (literal : Bool) (depth : Nat) :
    splitFrom literal depth b = [b] := by
  have hfront := splitFrom_of_blank_append hb literal depth []
  rw [List.append_nil] at hfront
  rw [hfront, splitFrom, foldr_consFirst, List.append_nil]

theorem splitFrom_append_of_blank {b : List Char} (hb : ∀ c ∈ b, isBlank c) (t : List Char)
    (literal : Bool) (depth : Nat) : ∃ front last,
      splitFrom literal depth t = front ++ [last] ∧
      splitFrom literal depth (t ++ b) = front ++ [last ++ b] := by
  induction t generalizing literal depth with
  | nil => exact ⟨[], [], rfl, splitFrom_of_blank hb literal depth⟩
  | cons c t ih =>
    rcases splitFrom_cons literal depth c with ⟨literal', depth', hstep⟩ | hstep
    · obtain ⟨front, last, h, h'⟩ := ih literal' depth'
      rw [List.cons_append, hstep, hstep, h, h']
      cases front with
      | nil => exact ⟨[], c :: last, rfl, rfl⟩
      | cons p ps => exact ⟨(c :: p) :: ps, last, rfl, rfl⟩
    · obtain ⟨front, last, h, h'⟩ := ih literal depth
      rw [List.cons_append, hstep, hstep, h, h']
      exact ⟨[] :: front, last, rfl, rfl⟩

theorem splitFrom_ne_nil (literal : Bool) (depth : Nat) (t : List Char) :
    splitFrom literal depth t ≠ [] := by
  intro hnil
  obtain ⟨front, last, h, -⟩ := splitFrom_append_of_blank (b := []) nofun t literal depth
  rw [hnil] at h
  exact List.append_ne_nil_of_right_ne_nil front (List.cons_ne_nil last []) h.symm

theorem splitFrom_of_length_one {t : List Char} {literal : Bool} {depth : Nat}
    (h : (splitFrom literal depth t).length = 1) : splitFrom literal depth t = [t] := by
  induction t generalizing literal depth with
  | nil => rfl
  | cons c t ih =>
    rcases splitFrom_cons literal depth c with ⟨literal', depth', hstep⟩ | hstep
    · rw [hstep] at h ⊢
      cases hpieces : splitFrom literal' depth' t with
      | nil => exact absurd hpieces (splitFrom_ne_nil literal' depth' t)
      | cons p ps =>
        have hlength : (splitFrom literal' depth' t).length = 1 := by
          rw [hpieces] at h ⊢
          exact h
        rw [ih hlength] at hpieces
        rw [← hpieces]
        rfl
    · rw [hstep, List.length_cons, Nat.add_eq_right, List.length_eq_zero_iff] at h
      exact absurd h (splitFrom_ne_nil literal depth t)

theorem splitColumns_append_of_blank {b : List Char} (hb : ∀ c ∈ b, isBlank c) (t : List Char) :
    (splitTopLevel (t ++ b)).filterMap columnName = (splitTopLevel t).filterMap columnName := by
  obtain ⟨front, last, h, h'⟩ := splitFrom_append_of_blank hb t false 0
  rw [splitTopLevel, splitTopLevel, h, h', List.filterMap_append, List.filterMap_append,
    List.filterMap_cons, List.filterMap_cons, columnName_append_of_blank hb]

theorem splitColumns_of_blank_append {b : List Char} (hb : ∀ c ∈ b, isBlank c) (t : List Char) :
    (splitTopLevel (b ++ t)).filterMap columnName = (splitTopLevel t).filterMap columnName := by
  obtain ⟨p, ps, hpieces⟩ := List.exists_cons_of_ne_nil (splitFrom_ne_nil false 0 t)
  unfold splitTopLevel
  rw [splitFrom_of_blank_append hb, hpieces, foldr_consFirst, List.filterMap_cons,
    List.filterMap_cons, columnName_of_blank_append hb]

/-! ## The columns of a body -/

/-- Comments leave the columns of a body alone. The body does not end in one; and if it goes over
several lines, then no comment touches a bare name, and the code goes over several lines as well or
is a single definition. -/
structure ToleratesComments (body : List Char) : Prop where
  closed : Mode.code.after body ≠ .comment
  spaced : '\n' ∈ trim body → ∀ p ∈ (lines (uncommented .code body)).zip (lines body),
    p.1 = p.2 ∨ isBareName p.1 = false
  layout : '\n' ∈ trim body → '\n' ∈ trim (uncommented .code body) ∨
    (splitTopLevel (uncommented .code body)).length = 1

instance (body : List Char) : Decidable (ToleratesComments body) :=
  decidable_of_iff (Mode.code.after body ≠ .comment ∧
      ('\n' ∈ trim body → ∀ p ∈ (lines (uncommented .code body)).zip (lines body),
        p.1 = p.2 ∨ isBareName p.1 = false) ∧
      ('\n' ∈ trim body → '\n' ∈ trim (uncommented .code body) ∨
        (splitTopLevel (uncommented .code body)).length = 1))
    ⟨fun ⟨h1, h2, h3⟩ => ⟨h1, h2, h3⟩, fun ⟨h1, h2, h3⟩ => ⟨h1, h2, h3⟩⟩

theorem definitions_of_several {body : List Char} (h : '\n' ∈ trim body) :
    definitions body = lines body := if_pos (List.contains_iff_mem.2 h)

theorem definitions_of_single {body : List Char} (h : '\n' ∉ trim body) :
    definitions body = splitTopLevel (stripComment body) :=
  if_neg fun hmem => h (List.contains_iff_mem.1 hmem)

/-- On a single line what is left without the comments is what stands in front of the first. -/
theorem bodyColumns_single {body : List Char} (h : '\n' ∉ trim body) :
    bodyColumns (uncommented .code body) = bodyColumns body := by
  -- The blanks around the line may hold line feeds, so it is cut out before its comment is dropped.
  have hbodydefs := definitions_of_single h
  obtain ⟨a, z, ha, hz, hbody⟩ := exists_blanks_append_trim body
  generalize trim body = core at h hbody
  have hcore : uncommented .code core = stripComment core := uncommented_of_line h (by decide)
  have hparted : Parted core z := .of_head? fun c hc hdash =>
    absurd (hz c (List.mem_of_mem_head? hc)) (by rw [hdash]; decide)
  have hleft : uncommented .code body =
      a ++ (stripComment core ++ uncommented (Mode.code.after core) z) := by
    rw [hbody, uncommented_code_append (.of_blank ha), uncommented_append hparted, hcore]
  have hz' : ∀ c ∈ uncommented (Mode.code.after core) z, isBlank c := fun c hc =>
    hz c ((uncommented_sublist _ z).mem hc)
  have hsingle : '\n' ∉ trim (uncommented .code body) := by
    rw [hleft, trim_append_of_blank ha, trim_append_of_blank_end hz', ← hcore]
    intro hmem
    exact h ((uncommented_sublist _ core).mem (mem_of_mem_trim hmem))
  have hstripped : stripComment (uncommented .code body) = uncommented .code body :=
    stripCommentFrom_uncommented .code body
  have hdropped : (splitTopLevel (stripComment body)).filterMap columnName =
      (splitTopLevel (a ++ stripComment core)).filterMap columnName := by
    have hfront : stripComment body = a ++ stripComment (core ++ z) := by
      rw [hbody]
      exact stripCommentFrom_plain_append (.of_blank ha) false _
    rw [hfront]
    rcases stripCommentFrom_append_plain (a := core) (.of_blank hz) false with hcut | hkept
    · exact congrArg (fun t => (splitTopLevel (a ++ t)).filterMap columnName) hcut
    · have hkept' : stripComment (core ++ z) = stripComment core ++ z := hkept
      rw [hkept', ← List.append_assoc, splitColumns_append_of_blank hz]
  rw [bodyColumns, bodyColumns, definitions_of_single hsingle, hstripped, hbodydefs, hdropped, hleft,
    ← List.append_assoc, splitColumns_append_of_blank hz']

theorem lineColumns_uncommented {body : List Char}
    (h : ∀ p ∈ (lines (uncommented .code body)).zip (lines body),
      p.1 = p.2 ∨ isBareName p.1 = false) :
    lineColumns (uncommented .code body) = lineColumns body := by
  have hmode : Mode.code ≠ .comment := by decide
  obtain ⟨hlength, hcode⟩ := List.forall₂_iff_zip.1 (forall₂_lines_uncommented hmode body)
  have hnames : List.Forall₂ (fun code line => columnName code = columnName line)
      (lines (uncommented .code body)) (lines body) :=
    List.forall₂_iff_zip.2 ⟨hlength, fun hp => columnName_of_isCodeOf (hcode hp) (h _ hp)⟩
  have hmap : (lines (uncommented .code body)).map columnName = (lines body).map columnName := by
    rw [← List.forall₂_eq_eq_eq, List.forall₂_map_left_iff, List.forall₂_map_right_iff]
    exact hnames
  have hnames' : ∀ l : List (List Char), l.filterMap columnName = (l.map columnName).filterMap id :=
    fun l => by rw [List.filterMap_map]; rfl
  rw [lineColumns, lineColumns, hnames', hnames', hmap]

theorem bodyColumns_uncommented {body : List Char} (h : ToleratesComments body) :
    bodyColumns (uncommented .code body) = bodyColumns body := by
  by_cases hseveral : '\n' ∈ trim body
  · have hlines := lineColumns_uncommented (h.spaced hseveral)
    rw [bodyColumns, bodyColumns, definitions_of_several hseveral]
    by_cases hkept : '\n' ∈ trim (uncommented .code body)
    · rw [definitions_of_several hkept]
      exact hlines
    · have hone := splitFrom_of_length_one ((h.layout hseveral).resolve_left hkept)
      have hstripped : stripComment (uncommented .code body) = uncommented .code body :=
        stripCommentFrom_uncommented .code body
      rw [definitions_of_single hkept, hstripped, splitTopLevel, hone,
        ← lineColumns_of_one_line hkept]
      exact hlines
  · exact bodyColumns_single hseveral

end ColumnAudit.Schema
