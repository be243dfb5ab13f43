import ColumnAudit.Proofs.Schema.CommentedBody

/-! # Comments in schemas

Comments can change the catalog of a schema: a declaration in a comment is found like any other
(`comment_declares_table`). They leave the catalog alone if they stand aside (`CommentsAside`), that is
if no block starts in a comment or a literal, none is broken up by a comment, and the bodies of the
blocks tolerate theirs (`parse_withoutComments`).
-/

namespace ColumnAudit.Schema
open Text
set_option autoImplicit false

/-! ## Comments that stand aside -/

/-- Where the search for blocks finds one, it starts in the code and its body tolerates comments;
where it finds none, none starts there without the comments either. -/
def toleratesAt (m : Mode) (t : List Char) : Bool :=
  match tableBlock t with
  | some (block, _) => m == .code && decide (ToleratesComments block.body)
  | none => (tableBlock (uncommented m t)).isNone

/-- The comments stand aside wherever the search for blocks comes to, in a text whose first `skip`
characters belong to the block before. -/
def toleratesFrom : Nat → Mode → List Char → Bool
  | _, _, [] => true
  | skip + 1, m, c :: cs => toleratesFrom skip (m.next cs c) cs
  | 0, m, c :: cs =>
    toleratesAt m (c :: cs) &&
      toleratesFrom ((tableBlock (c :: cs)).elim 0 fun (_, size) => size - 1) (m.next cs c) cs

/-- The comments of a schema stand aside. -/
def CommentsAside (sql : String) : Prop := toleratesFrom 0 .code sql.toList = true

/-- A schema without its comments. -/
def withoutComments (sql : String) : String := String.ofList (uncommented .code sql.toList)

/-- A declaration in a comment is found. -/
theorem comment_declares_table :
    let sql := "-- CREATE TABLE ghost (id uuid);"
    withoutComments sql = "" ∧ (Catalog.parse sql).columns? "ghost" = some (.ofList ["id"]) ∧
      Catalog.parse (withoutComments sql) ≠ Catalog.parse sql := by decide +kernel

theorem toleratesFrom_append {a b : List Char} (h : Parted a b) (m : Mode) :
    toleratesFrom a.length m (a ++ b) = toleratesFrom 0 (m.after a) b := by
  induction a generalizing m with
  | nil => rfl
  | cons c a ih =>
    rw [List.cons_append, List.length_cons, toleratesFrom, next_append h, ih h.tail, Mode.after]

/-! ## Blocks without comments -/

theorem IsHeader.isPlain {name head : List Char} (h : IsHeader name head) : IsPlain head := by
  intro c hc
  constructor
  · rintro rfl
    exact h.not_mem (by decide) hc
  · rintro rfl
    exact h.not_mem (by decide) hc

theorem IsBlock.parted {block : TableBlock} {text : List Char} (h : IsBlock block text)
    (rest : List Char) : Parted text rest := by
  obtain ⟨name, head, -, -, -, rfl⟩ := h
  rintro ⟨hlast, -⟩
  simp at hlast

/-- A block whose body tolerates comments is a block without them, and the code goes on behind it. -/
theorem IsBlock.exists_uncommented {block : TableBlock} {text : List Char} (h : IsBlock block text)
    (hbody : ToleratesComments block.body) (rest : List Char) :
    ∃ text', IsBlock ⟨block.name, uncommented .code block.body⟩ text' ∧
      uncommented .code (text ++ rest) = text' ++ uncommented (Mode.code.after text) rest := by
  have hparted := h.parted rest
  obtain ⟨name, head, hhead, hname, hclose, rfl⟩ := h
  refine ⟨head ++ (uncommented .code block.body ++ [')', ';']),
    ⟨name, head, hhead, hname, fun hin => hclose (pair_infix_of_uncommented (by decide) hin), rfl⟩,
    ?_⟩
  have hparted' : Parted block.body [')', ';'] := .of_head? (by rintro c ⟨⟩; decide)
  have hterminator : uncommented (Mode.code.after block.body) [')', ';'] = [')', ';'] := by
    have hclosed := hbody.closed
    cases hmode : Mode.code.after block.body with
    | code => rfl
    | literal => rfl
    | comment => exact absurd hmode hclosed
  rw [uncommented_append hparted, uncommented_code_append hhead.isPlain,
    uncommented_append hparted', hterminator]

theorem toleratesFrom_block {m : Mode} {block : TableBlock} {text : List Char}
    (htext : IsBlock block text) {rest : List Char} (h : toleratesFrom 0 m (text ++ rest) = true) :
    m = .code ∧ ToleratesComments block.body ∧ toleratesFrom 0 (m.after text) rest = true := by
  have hfound := tableBlock_eq_some_iff.2 ⟨text, rest, htext, rfl, rfl⟩
  have hparted := htext.parted rest
  cases text with
  | nil => exact absurd rfl htext.ne_nil
  | cons c text =>
    rw [List.cons_append] at h hfound
    rw [toleratesFrom, Bool.and_eq_true, toleratesAt, hfound, next_append hparted] at h
    obtain ⟨hat, hrest⟩ := h
    simp only [Bool.and_eq_true, beq_iff_eq, decide_eq_true_eq] at hat
    refine ⟨hat.1, hat.2, ?_⟩
    rw [Mode.after, ← toleratesFrom_append hparted.tail]
    exact hrest

/-- What a block adds to the catalog. -/
def blockEntry (block : TableBlock) : String × NameSet :=
  (block.name, NameSet.ofList (bodyColumns block.body))

/-- Without the comments the search finds the same blocks, up to comments in their bodies. -/
theorem blockEntries_uncommented {m : Mode} {t : List Char} (h : toleratesFrom 0 m t = true) :
    (tableBlocks (uncommented m t)).map blockEntry = (tableBlocks t).map blockEntry := by
  induction hn : t.length using Nat.strong_induction_on generalizing m t with
  | _ n ih =>
    subst hn
    cases t with
    | nil => rfl
    | cons c cs =>
      cases hblock : tableBlock (c :: cs) with
      | none =>
        rw [toleratesFrom, Bool.and_eq_true, toleratesAt, hblock] at h
        obtain ⟨hat, hrest⟩ := h
        have hskip : tableBlocks (c :: cs) = tableBlocks cs := occurrences_of_none hblock
        rw [hskip, ← ih cs.length (Nat.lt_succ_self _) hrest rfl]
        -- A character of a comment is gone, any other one is passed over in both texts.
        by_cases hnext : m.next cs c = .comment
        · rw [uncommented_cons_of_comment hnext]
        · rw [uncommented_cons_of_ne hnext] at hat ⊢
          have hnone : tableBlock (c :: uncommented (m.next cs c) cs) = none :=
            Option.isNone_iff_eq_none.1 hat
          exact congrArg (List.map blockEntry) (occurrences_of_none hnone)
      | some found =>
        obtain ⟨block, size⟩ := found
        obtain ⟨text, rest, htext, heq, -⟩ := tableBlock_eq_some_iff.1 hblock
        rw [heq] at h ⊢
        obtain ⟨rfl, hbody, htail⟩ := toleratesFrom_block htext h
        have hlength : rest.length < (c :: cs).length := by
          have hpos := List.length_pos_iff.2 htext.ne_nil
          rw [heq, List.length_append]
          omega
        obtain ⟨text', htext', hleft⟩ := htext.exists_uncommented hbody rest
        rw [hleft, tableBlocks_append htext, tableBlocks_append htext', List.map_cons,
          List.map_cons, ih _ hlength htail rfl, blockEntry, blockEntry,
          bodyColumns_uncommented hbody]

/-- Comments that stand aside leave the catalog alone. -/
theorem parse_withoutComments {sql : String} (h : CommentsAside sql) :
    Catalog.parse (withoutComments sql) = Catalog.parse sql := by
  have hentries := blockEntries_uncommented h
  simp only [Catalog.parse, withoutComments, String.toList_ofList, Catalog.ofBlocks]
  exact congrArg (fun entries => Catalog.mk (NameMap.ofList entries)) hentries

/-- Comments between declarations, on lines of their own and behind definitions. -/
theorem parse_withoutComments_two_tables :
    let sql := "-- a\nCREATE TABLE t (\n -- it's\n a b, -- c, d\n e f\n);CREATE TABLE u (g,h --i,j\n);"
    CommentsAside sql ∧ withoutComments sql ≠ sql ∧
      Catalog.parse (withoutComments sql) = Catalog.parse sql := by
  intro sql
  have haside : CommentsAside sql := by
    unfold CommentsAside
    decide +kernel
  exact ⟨haside, by decide +kernel, parse_withoutComments haside⟩

end ColumnAudit.Schema
