import ColumnAudit.Proofs.Schema.CommentedBody
import ColumnAudit.Proofs.Text.ByteOffset
import ColumnAudit.Proofs.Text.Pattern
import ColumnAudit.Schema.OffsetReading

/-! # No cut of a schema fails

Read by byte offsets, a schema gives its catalog, whatever characters are in it: no cut is out of the text,
out of order or inside a character, and no counter leaves its range (`ByOffset.parse_eq`).

The scans of a line are settled by induction on what is left of it. The offset is always the size of what
has been passed; the dash in front of a comment and the comma in front of a piece are one byte each, so
one number less or more is a place again (`stripCommentFrom_eq`, `Splitting.run_eq`). The name that the
pattern finds in a padded definition ends before the padding, so where it ends is a place of the
definition as well (`nameGroup_padded`).
-/

namespace ColumnAudit.Schema.ByOffset
open Text
set_option autoImplicit false

/-! ## Steps that succeed -/

theorem ok_bind {α β : Type} (a : α) (f : α → Except OffsetFault β) : (Except.ok a >>= f) = f a :=
  rfl

theorem mapM_eq_ok {α β : Type} {f : α → Except OffsetFault β} {g : α → β}
    (h : ∀ a, f a = .ok (g a)) (as : List α) : as.mapM f = .ok (as.map g) := by
  obtain rfl : f = fun a => pure (g a) := funext h
  exact List.mapM_pure

/-! ## Texts character by character -/

theorem append_ofList_cons (before : String) (c : Char) (cs : List Char) :
    before ++ String.ofList (c :: cs) = before ++ String.singleton c ++ String.ofList cs := by
  rw [String.ofList_cons, String.append_assoc]

theorem size_append_singleton (before : String) (c : Char) :
    (before ++ String.singleton c).utf8ByteSize = before.utf8ByteSize + c.utf8Size := by
  rw [String.utf8ByteSize_append, String.utf8ByteSize_singleton]

/-! ## Comments -/

theorem stripCommentFrom_of_ne {c : Char} (hc : c ≠ '-') (line : String) (literal : Bool) (offset : Nat)
    (rest : List (Nat × Char)) : stripCommentFrom line literal true ((offset, c) :: rest) =
      stripCommentFrom line literal false ((offset, c) :: rest) := by
  have hdash : (c == '-') = false := beq_eq_false_iff_ne.2 hc
  simp only [stripCommentFrom, hdash, Bool.false_and]

/-- Behind a dash outside literals, a second one is where the comment starts. -/
theorem stripCommentFrom_dash (before : String) (cs : List Char) :
    stripCommentFrom (before ++ String.ofList ('-' :: '-' :: cs)) false true
      (charOffsetsFrom (before.utf8ByteSize + 1) ('-' :: cs)) = .ok before := by
  rw [charOffsetsFrom, stripCommentFrom, if_neg (by decide), if_pos (by decide), oneLess, ok_bind]
  exact slice_front before _

theorem stripCommentFrom_eq (before : String) (literal : Bool) (rest : List Char) :
    stripCommentFrom (before ++ String.ofList rest) literal false
        (charOffsetsFrom before.utf8ByteSize rest) =
      .ok (before ++ String.ofList (Schema.stripCommentFrom literal rest)) := by
  induction rest generalizing before literal with
  | nil => rfl
  | cons c cs ih =>
    have hnext (literal' : Bool) := ih (before ++ String.singleton c) literal'
    simp only [← append_ofList_cons, size_append_singleton] at hnext
    rw [charOffsetsFrom, stripCommentFrom, Schema.stripCommentFrom]
    split
    · exact hnext (!literal)
    rw [Bool.and_false, if_neg Bool.false_ne_true]
    by_cases hdash : c = '-' ∧ literal = false
    · -- Whether a comment starts here is settled by the next character.
      obtain ⟨rfl, rfl⟩ := hdash
      cases cs with
      | nil => rfl
      | cons d ds =>
        by_cases hd : d = '-'
        · subst hd
          rw [List.head?_cons, if_pos (by decide), String.ofList_nil, String.append_empty]
          exact stripCommentFrom_dash before ds
        · have hhead : (some d == some '-') = false := by simpa using hd
          rw [List.head?_cons, hhead, Bool.and_false, if_neg Bool.false_ne_true]
          exact (stripCommentFrom_of_ne hd ..).trans (hnext false)
    · have hplace : (c == '-' && !literal) = false := by simpa using hdash
      rw [Bool.and_comm (!literal), hplace, Bool.false_and, if_neg Bool.false_ne_true]
      exact hnext literal

theorem stripComment_eq (line : String) :
    stripComment line = .ok (String.ofList (Schema.stripComment line.toList)) := by
  have h := stripCommentFrom_eq "" false line.toList
  rw [String.empty_append, String.empty_append, String.ofList_toList] at h
  exact h

/-! ## Pieces -/

/-- What the counters say, when `before` has been cut into pieces and `piece` has been passed since. -/
structure Splitting.Holds (s : Splitting) (before piece : String) : Prop where
  start : s.start = before.utf8ByteSize
  depth : s.depth ≤ (before ++ piece).utf8ByteSize

section Splitting
variable {s : Splitting} {before piece : String}

theorem Splitting.Holds.keeps (h : s.Holds before piece) (c : Char) (literal : Bool) {depth : Nat}
    (hdepth : depth ≤ s.depth + 1) :
    Splitting.Holds { s with depth, literal } before (piece ++ String.singleton c) where
  start := h.start
  depth := by
    have hc := c.utf8Size_pos
    have hbound := h.depth
    rw [← String.append_assoc, size_append_singleton]
    show depth ≤ _
    omega

/-- One character further: it goes on the piece, or it is a comma that ends it. -/
theorem Splitting.step_cases (h : s.Holds before piece) (c : Char) (cs : List Char) :
    ∃ s', s.step (before ++ piece ++ String.ofList (c :: cs)) ((before ++ piece).utf8ByteSize, c) =
        .ok s' ∧
      ((s'.Holds before (piece ++ String.singleton c) ∧ s'.pieces = s.pieces ∧
          splitFrom s.literal s.depth (c :: cs) = consFirst c (splitFrom s'.literal s'.depth cs)) ∨
        (s'.Holds (before ++ piece ++ String.singleton c) "" ∧ s'.pieces = s.pieces ++ [piece] ∧
          splitFrom s.literal s.depth (c :: cs) = [] :: splitFrom s'.literal s'.depth cs)) := by
  have hbound := h.depth
  have hcounts {n : Nat} (hn : n ≤ (before ++ piece).utf8ByteSize) :
      oneMore (before ++ piece ++ String.ofList (c :: cs)) n = .ok (n + 1) := by
    have hc := c.utf8Size_pos
    refine if_pos ?_
    rw [append_ofList_cons, String.utf8ByteSize_append, size_append_singleton]
    omega
  simp only [Splitting.step, splitFrom]
  split
  · exact ⟨_, rfl, .inl ⟨h.keeps c _ (by omega), rfl, rfl⟩⟩
  split
  · exact ⟨_, rfl, .inl ⟨h.keeps c _ (by omega), rfl, rfl⟩⟩
  split
  · rw [hcounts hbound]
    exact ⟨_, rfl, .inl ⟨h.keeps c _ (by omega), rfl, rfl⟩⟩
  split
  · exact ⟨_, rfl, .inl ⟨h.keeps c _ (by omega), rfl, rfl⟩⟩
  split
  · rename_i hcomma
    obtain ⟨rfl, hdepth⟩ := hcomma
    have hpiece : slice (before ++ piece ++ String.ofList (',' :: cs)) s.start
        (before ++ piece).utf8ByteSize = .ok piece :=
      slice_eq_ok_iff.2 ⟨before, _, String.append_assoc, h.start, String.utf8ByteSize_append⟩
    rw [hpiece, hcounts (Nat.le_refl _)]
    -- A comma is one byte, so the next piece starts right behind it.
    refine ⟨_, rfl, .inr ⟨⟨?_, ?_⟩, rfl, rfl⟩⟩
    · exact (size_append_singleton _ ',').symm
    · exact hdepth.trans_le (Nat.zero_le _)
  · exact ⟨_, rfl, .inl ⟨h.keeps c _ (by omega), rfl, rfl⟩⟩

/-- What is found from a place on: the pieces so far, and those of the rest, the first of which goes on
from the text passed since the last cut. -/
theorem Splitting.run_eq (h : s.Holds before piece) (rest : List Char) :
    ((charOffsetsFrom (before ++ piece).utf8ByteSize rest).foldlM
        (Splitting.step (before ++ piece ++ String.ofList rest)) s >>=
      Splitting.finish (before ++ piece ++ String.ofList rest)) =
      .ok (s.pieces ++
        (piece.toList.foldr consFirst (splitFrom s.literal s.depth rest)).map String.ofList) := by
  induction rest generalizing s before piece with
  | nil =>
    have hlast : slice (before ++ piece ++ String.ofList []) s.start
        (before ++ piece ++ String.ofList []).utf8ByteSize = .ok piece := by
      refine slice_eq_ok_iff.2 ⟨before, _, String.append_assoc, h.start, ?_⟩
      rw [String.ofList_nil, String.append_empty, String.utf8ByteSize_append]
    rw [charOffsetsFrom, List.foldlM_nil, pure_bind, Splitting.finish, hlast, splitFrom,
      foldr_consFirst, List.append_nil, List.map_singleton, String.ofList_toList]
    rfl
  | cons c cs ih =>
    obtain ⟨s', hstep, hcases⟩ := s.step_cases h c cs
    rw [charOffsetsFrom, List.foldlM_cons, hstep, ok_bind]
    rcases hcases with ⟨hholds, hpieces, hsplit⟩ | ⟨hholds, hpieces, hsplit⟩
    · have hrun := ih hholds
      rw [← String.append_assoc, size_append_singleton, ← append_ofList_cons] at hrun
      rw [hrun, hsplit, hpieces, String.toList_append, String.toList_singleton, List.foldr_append]
      rfl
    · have hrun := ih hholds
      rw [String.append_empty, size_append_singleton, ← append_ofList_cons] at hrun
      rw [hrun, hsplit, hpieces, foldr_consFirst, List.append_nil, List.map_cons,
        String.ofList_toList, List.append_assoc]
      rfl

end Splitting

theorem splitTopLevel_eq (line : String) :
    splitTopLevel line = .ok ((Schema.splitTopLevel line.toList).map String.ofList) := by
  have hholds : Splitting.Holds {} "" "" := ⟨rfl, Nat.zero_le _⟩
  have h := Splitting.run_eq hholds line.toList
  rw [String.append_empty, String.empty_append, String.ofList_toList] at h
  exact h

/-! ## Columns -/

/-- The name in a match, and what is around it. -/
structure IsMatch (t blanks name rest : List Char) : Prop where
  eq : t = blanks ++ (name ++ rest)
  blanks : ∀ c ∈ blanks, isBlank c
  name : ∃ c cs, name = c :: cs ∧ isFoldedStart c ∧ ∀ d ∈ cs, isFoldedPart d
  rest : rest.head?.any isBlank

theorem exists_isMatch_of_nameGroup {t : String} {start stop : Nat}
    (h : nameGroup t = some (start, stop)) :
    ∃ blanks name rest, IsMatch t.toList blanks name rest ∧
      start = (String.ofList blanks).utf8ByteSize ∧ stop = (String.ofList (blanks ++ name)).utf8ByteSize := by
  obtain ⟨opened, hopened, h⟩ := Pattern.exists_takes_of_attempt h
  obtain ⟨closed, hclosed, h⟩ := Pattern.exists_takes_of_attempt h
  obtain ⟨e, he, h⟩ := Pattern.exists_takes_of_attempt h
  obtain ⟨blanks, _, hblanks, ht, rfl⟩ := (Pattern.Reads.starOne isBlank).exists_after hopened
  obtain ⟨name, _, hname, rfl, rfl⟩ :=
    (Pattern.Reads.headed isFoldedStart isFoldedPart).exists_after hclosed
  obtain ⟨gap, rest, ⟨hgap, hall⟩, rfl, -⟩ := (Pattern.Reads.manyOne isBlank).exists_after he
  obtain ⟨rfl, rfl⟩ := Prod.mk.inj (Option.some.inj h)
  dsimp only at ht
  refine ⟨blanks, name, gap ++ rest, ⟨ht, hblanks, hname, ?_⟩, ?_, ?_⟩
  · obtain ⟨d, gap, rfl⟩ := List.exists_cons_of_ne_nil hgap
    exact hall d List.mem_cons_self
  · rw [offsetOf, Place.taken_after, Nat.zero_add, ht, List.take_left]
  · rw [offsetOf, Place.taken_after, Place.taken_after, Nat.zero_add, ← List.length_append, ht,
      ← List.append_assoc, List.take_left]

theorem IsMatch.isSome_nameGroup {t : String} {blanks name rest : List Char}
    (h : IsMatch t.toList blanks name rest) : (nameGroup t).isSome := by
  obtain ⟨d, rest, rfl⟩ : ∃ d rest', rest = d :: rest' := by
    have hrest := h.rest
    cases rest with
    | nil => cases hrest
    | cons d rest => exact ⟨d, rest, rfl⟩
  have hd : ∀ c ∈ [d], isBlank c = true := List.forall_mem_singleton.2 h.rest
  refine Pattern.isSome_attempt_of_takes ((Pattern.Reads.starOne isBlank).takes h.blanks h.eq) ?_
  refine Pattern.isSome_attempt_of_takes
    ((Pattern.Reads.headed isFoldedStart isFoldedPart).takes h.name rfl) ?_
  exact Pattern.isSome_attempt_of_takes
    ((Pattern.Reads.manyOne isBlank).takes (r := rest) ⟨List.cons_ne_nil d [], hd⟩ rfl) rfl

section Match
variable {t blanks name rest : List Char}

theorem IsMatch.leading_eq (h : IsMatch t blanks name rest) :
    leading isFoldedStart isFoldedPart (name ++ rest) = some (name, rest) := by
  obtain ⟨c, cs, hname, hc, hcs⟩ := h.name
  refine leading_eq_some_iff.2 ⟨c, cs, hname, hc, hcs, ?_, rfl⟩
  intro d hd
  have hblank := h.rest
  rw [Option.mem_def.1 hd] at hblank
  exact isFoldedPart_of_isBlank hblank

theorem IsMatch.blanks_eq_nil (h : IsMatch t blanks name rest)
    (hfront : ∀ c ∈ t.head?, isBlank c = false) : blanks = [] := by
  cases blanks with
  | nil => rfl
  | cons b blanks =>
    have hb := hfront b (by rw [h.eq]; rfl)
    rw [h.blanks b List.mem_cons_self] at hb
    cases hb

end Match

/-- In a text that starts with no blank there is one name at most to be found, and it is at the front. -/
theorem nameGroup_eq {t : String} (hfront : ∀ c ∈ t.toList.head?, isBlank c = false) :
    nameGroup t = (leading isFoldedStart isFoldedPart t.toList).bind fun (name, rest) =>
      if rest.head?.any isBlank then some (0, (String.ofList name).utf8ByteSize) else none := by
  cases hgroup : nameGroup t with
  | none =>
    cases hleading : leading isFoldedStart isFoldedPart t.toList with
    | none => rfl
    | some found =>
      obtain ⟨name, rest⟩ := found
      refine (if_neg fun hrest => ?_).symm
      obtain ⟨c, cs, hname, hc, hcs, -, ht⟩ := leading_eq_some_iff.1 hleading
      have hmatch : IsMatch t.toList [] name rest := ⟨ht, nofun, ⟨c, cs, hname, hc, hcs⟩, hrest⟩
      have hsome := hmatch.isSome_nameGroup
      rw [hgroup] at hsome
      cases hsome
  | some found =>
    obtain ⟨start, stop⟩ := found
    obtain ⟨blanks, name, rest, hmatch, rfl, rfl⟩ := exists_isMatch_of_nameGroup hgroup
    obtain rfl := hmatch.blanks_eq_nil hfront
    have ht : t.toList = name ++ rest := hmatch.eq
    rw [ht, hmatch.leading_eq]
    show _ = if rest.head?.any isBlank then _ else _
    rw [if_pos hmatch.rest]
    rfl

theorem not_isBlank_head?_trim (t : List Char) : ∀ c ∈ (trim t).head?, isBlank c = false := by
  intro c hc
  obtain ⟨cs, htrim⟩ := List.head?_eq_some_iff.1 hc
  obtain ⟨dropped, hstart⟩ := trimEnd_prefix_self (trimStart t)
  rw [← trim, htrim, List.cons_append] at hstart
  exact head?_skipBlanks t c (by rw [skipBlanks, ← hstart]; rfl)

theorem nameGroup_padded {definition : String} (h : trim definition.toList ≠ []) :
    nameGroup (padded definition) =
      (leading isFoldedStart isFoldedPart (trim definition.toList)).bind fun (name, rest) =>
        if rest.head?.all isBlank then some (0, (String.ofList name).utf8ByteSize) else none := by
  have htext : (padded definition).toList = trim definition.toList ++ [' '] := by
    rw [padded, String.toList_append, trimmed, String.toList_ofList]
    rfl
  rw [nameGroup_eq, htext, leading_append_cons (by decide) h, Option.bind_map]
  · apply congrArg (Option.bind _)
    funext ⟨name, rest⟩
    cases rest <;> rfl
  · intro c hc
    rw [htext, List.head?_append_of_ne_nil _ h] at hc
    exact not_isBlank_head?_trim _ c hc

/-- A definition has no column, or its column is cut out of it and is the name of the padded one. -/
theorem columnName_cases (definition : String) :
    (columnName definition = .ok none ∧ Schema.columnName definition.toList = none) ∨
      ∃ name stop, columnName definition = .ok (some name) ∧
        Schema.columnName definition.toList = some name ∧
        nameGroup (padded definition) = some (0, stop) ∧ slice (padded definition) 0 stop = .ok name := by
  have htext : (trimmed definition).toList = trim definition.toList := String.toList_ofList
  by_cases hnil : trim definition.toList = []
  · refine .inl ⟨?_, ?_⟩
    · rw [columnName, trimmed, hnil]
      rfl
    · rw [Schema.columnName, hnil]
      rfl
  have hempty : (trimmed definition).isEmpty = false := by
    rw [Bool.eq_false_iff, Ne, String.isEmpty_iff, ← String.toList_inj, htext]
    exact hnil
  rw [columnName, htext, hempty, Bool.false_or]
  cases hcomment : isComment (trim definition.toList) with
  | true => exact .inl ⟨rfl, columnName_of_isComment hcomment⟩
  | false =>
  cases hconstraint : isConstraint (trim definition.toList) with
  | true => exact .inl ⟨rfl, columnName_of_isConstraint hconstraint⟩
  | false =>
  rw [Schema.columnName_eq rfl hcomment hconstraint, nameGroup_padded hnil]
  cases hleading : leading isFoldedStart isFoldedPart (trim definition.toList) with
  | none => exact .inl ⟨rfl, rfl⟩
  | some found =>
    obtain ⟨name, rest⟩ := found
    by_cases hrest : rest.head?.all isBlank
    · have ht : trimmed definition = String.ofList name ++ String.ofList rest := by
        rw [trimmed, ← leading_append hleading, String.ofList_append]
      simp only [Option.bind_some, if_pos hrest, padded, ht, String.append_assoc, slice_front]
      exact .inr ⟨_, _, rfl, rfl, rfl, slice_front _ _⟩
    · simp only [Option.bind_some, if_neg hrest]
      exact .inl ⟨rfl, trivial⟩

theorem columnName_eq (definition : String) :
    columnName definition = .ok (Schema.columnName definition.toList) := by
  rcases columnName_cases definition with ⟨hcut, hnone⟩ | ⟨name, stop, hcut, hname, -⟩
  · rw [hcut, hnone]
  · rw [hcut, hname]

/-! ## Schemas -/

theorem definitions_eq (body : String) :
    definitions body = .ok ((Schema.definitions body.toList).map String.ofList) := by
  unfold definitions Schema.definitions
  split
  · rfl
  · rw [stripComment_eq, ok_bind, splitTopLevel_eq, String.toList_ofList]

theorem bodyColumns_eq (body : String) :
    bodyColumns body = .ok (Schema.bodyColumns body.toList) := by
  rw [bodyColumns, definitions_eq, ok_bind, mapM_eq_ok columnName_eq, ok_bind]
  apply congrArg Except.ok
  rw [List.map_map, List.filterMap_map, Schema.bodyColumns]
  simp

theorem parse_eq (sql : String) : parse sql = .ok (Catalog.parse sql) := by
  have htable (b : TableBlock) : (do
      let columns ← bodyColumns (String.ofList b.body)
      pure (b.name, NameSet.ofList columns) : Except OffsetFault (String × NameSet)) =
        .ok (b.name, NameSet.ofList (Schema.bodyColumns b.body)) := by
    rw [bodyColumns_eq, ok_bind, String.toList_ofList]
    rfl
  rw [parse, mapM_eq_ok htable, ok_bind]
  rfl

/-- No schema, line or definition makes a cut or a counter fail, whatever characters are in it, and what
is read by offsets is what is read by characters. The column of a definition is the text of the name that
the pattern finds in the padded one. -/
theorem every_cut_succeeds (sql line definition : String) :
    parse sql = .ok (Catalog.parse sql) ∧
    stripComment line = .ok (String.ofList (Schema.stripComment line.toList)) ∧
    splitTopLevel line = .ok ((Schema.splitTopLevel line.toList).map String.ofList) ∧
    ∃ column, columnName definition = .ok column ∧ column = Schema.columnName definition.toList ∧
      ∀ name ∈ column, ∃ start stop, nameGroup (padded definition) = some (start, stop) ∧
        slice (padded definition) start stop = .ok name := by
  refine ⟨parse_eq sql, stripComment_eq line, splitTopLevel_eq line, ?_⟩
  rcases columnName_cases definition with ⟨hcut, hnone⟩ | ⟨name, stop, hcut, hname, hgroup, htext⟩
  · exact ⟨none, hcut, hnone.symm, nofun⟩
  · refine ⟨some name, hcut, hname.symm, ?_⟩
    rintro _ ⟨⟩
    exact ⟨0, stop, hgroup, htext⟩

example : (columnName " \u017fum\u212a int").toOption = some (some "\u017fum\u212a") := by
  decide +kernel

example : stripComment "é '--' -- \u017f" = .ok "é '--' " := by cbv

end ColumnAudit.Schema.ByOffset
