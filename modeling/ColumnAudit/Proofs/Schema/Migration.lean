import ColumnAudit.Proofs.Schema.Declaration

/-! # Schemas that go on

A migration is put behind a schema that is finished (`IsFinished`): it ends with a line, and behind its
last block no declaration starts. The blocks of both are then found one after the other
(`tableBlocks_append_of_finished`), because

* a block stays a block, whatever comes behind it (`stable_tableBlock`);
* a declaration that the schema leaves open has no block behind it (`tableBlocks_of_open`), so the
  migration can complete none that stands before the last block.

So the catalog of both is that of the schema overridden by that of the migration (`parse_migration`).
-/

namespace ColumnAudit.Schema
open Text
set_option autoImplicit false

/-! ## Blocks -/

theorem stable_tableBlock : Stable tableBlock := by
  intro t block size h
  obtain ⟨text, rest, htext, rfl, rfl⟩ := tableBlock_eq_some_iff.1 h
  refine ⟨by simp, fun b => ?_⟩
  exact tableBlock_eq_some_iff.2 ⟨text, rest ++ b, htext, List.append_assoc .., rfl⟩

theorem size_tableBlock_pos {t : List Char} {block : TableBlock} {size : Nat}
    (h : tableBlock t = some (block, size)) : 0 < size := by
  obtain ⟨text, rest, htext, -, rfl⟩ := tableBlock_eq_some_iff.1 h
  exact List.length_pos_iff.2 htext.ne_nil

theorem terminator_infix_of_mem {t : List Char} {block : TableBlock} (h : block ∈ tableBlocks t) :
    [')', ';'] <:+: t := by
  obtain ⟨s, size, hs, hblock⟩ := exists_suffix_of_mem_occurrences h
  obtain ⟨text, rest, ⟨name, head, -, -, -, rfl⟩, rfl, -⟩ := tableBlock_eq_some_iff.1 hblock
  exact List.IsInfix.trans ⟨head ++ block.body, rest, by simp⟩ hs.isInfix

/-- No block is found behind the header of a block that is left open. -/
theorem tableBlocks_of_open {t b : List Char} (hopen : tableBlock t = none)
    (h : tableBlock (t ++ b) ≠ none) : tableBlocks t = [] := by
  obtain ⟨⟨block, size⟩, hfound⟩ := Option.ne_none_iff_exists'.1 h
  obtain ⟨text, rest, ⟨name, head, hhead, hname, hbody, rfl⟩, htext, -⟩ :=
    tableBlock_eq_some_iff.1 hfound
  have hassoc : t ++ b = (head ++ (block.body ++ [')'])) ++ ';' :: rest := by
    rw [htext]
    simp
  rcases prefix_or_reaches hassoc with hprefix | ⟨rest', ht, -⟩
  · refine List.eq_nil_iff_forall_not_mem.2 fun found hmem => hbody ?_
    -- The terminator of a block in `t` would lie in the body before the open block is closed.
    have hparen : ')' ∉ head := hhead.not_mem (by decide)
    have hin := (terminator_infix_of_mem hmem).trans hprefix.isInfix
    exact infix_of_infix_concat (m := [')']) (by decide) (infix_of_infix_append hparen hin)
  · have hclosed : tableBlock t = some (block, _) :=
      tableBlock_eq_some_iff.2 ⟨head ++ (block.body ++ [')', ';']), rest',
        ⟨name, head, hhead, hname, hbody, rfl⟩, by rw [ht]; simp, rfl⟩
    rw [hclosed] at hopen
    cases hopen

/-! ## Migrations -/

/-- A schema text that is empty or ends with a line, and behind whose last block no declaration starts. -/
structure IsFinished (sql : String) : Prop where
  line : sql = "" ∨ ∃ front, sql = front ++ "\n"
  quiet : ¬ "CREATE".toList <:+: remainder tableBlock sql.toList

theorem IsFinished.newline_mem {sql : String} (h : IsFinished sql) {s : List Char} (hs : s ≠ [])
    (hsuffix : s <:+ sql.toList) : '\n' ∈ s := by
  rcases h.line with rfl | ⟨front, rfl⟩
  · exact absurd (List.suffix_nil.1 hsuffix) hs
  · have htext : (front ++ "\n").toList = front.toList ++ ['\n'] := String.toList_append
    rw [htext, List.suffix_concat_iff] at hsuffix
    obtain hnil | ⟨s', rfl, -⟩ := hsuffix
    · exact absurd hnil hs
    · simp

theorem tableBlocks_append_of_finished {a : String} (h : IsFinished a) (b : List Char) :
    tableBlocks (a.toList ++ b) = tableBlocks a.toList ++ tableBlocks b := by
  refine occurrences_append_of_remainder stable_tableBlock (fun _ _ _ => size_tableBlock_pos)
    (fun _ => tableBlocks_of_open) fun s hs hsuffix => tableBlock_eq_none fun hcreate => ?_
  -- The first word of a declaration cannot go over the line end between the two texts.
  rcases List.prefix_or_prefix_of_prefix hcreate (List.prefix_append s b) with hfront | hacross
  · exact h.quiet (hfront.isInfix.trans hsuffix.isInfix)
  · have hline := h.newline_mem hs (hsuffix.trans remainder_suffix)
    exact absurd (hacross.subset hline) (by decide)

/-! ## Catalogs of migrations -/

namespace Catalog

/-- The tables of both catalogs, those of the second one with their columns there. -/
def overriddenBy (old new : Catalog) : Catalog where
  tables := new.tables.entries.foldl (fun m e => m.insert e.1 e.2) old.tables

theorem ext {c d : Catalog} (h : ∀ table, c.columns? table = d.columns? table) : c = d := by
  obtain ⟨c⟩ := c
  obtain ⟨d⟩ := d
  exact congrArg mk (NameMap.ext h)

theorem columns?_overriddenBy (old new : Catalog) (table : String) :
    (old.overriddenBy new).columns? table = (new.columns? table).or (old.columns? table) := by
  unfold overriddenBy columns?
  rw [NameMap.find?_foldl_insert, ← NameMap.find?_ofList, NameMap.ofList_entries]

theorem columns?_ofBlocks_append (old new : List TableBlock) (table : String) :
    (ofBlocks (old ++ new)).columns? table =
      ((ofBlocks new).columns? table).or ((ofBlocks old).columns? table) := by
  unfold ofBlocks columns?
  rw [NameMap.find?_ofList (new.map _), NameMap.ofList, List.map_append, List.foldl_append,
    NameMap.find?_foldl_insert, NameMap.ofList]

end Catalog

/-- The catalog of a schema with a migration behind it has the tables of both, and a table of the
migration has its columns there. -/
theorem parse_migration {a : String} (h : IsFinished a) (b : String) :
    Catalog.parse (a ++ b) = (Catalog.parse a).overriddenBy (Catalog.parse b) ∧
      ∀ table, (Catalog.parse (a ++ b)).columns? table =
        ((Catalog.parse b).columns? table).or ((Catalog.parse a).columns? table) := by
  have hcolumns : ∀ table, (Catalog.parse (a ++ b)).columns? table =
      ((Catalog.parse b).columns? table).or ((Catalog.parse a).columns? table) := by
    intro table
    unfold Catalog.parse
    rw [String.toList_append, tableBlocks_append_of_finished h,
      Catalog.columns?_ofBlocks_append]
  refine ⟨Catalog.ext fun table => ?_, hcolumns⟩
  rw [hcolumns, Catalog.columns?_overriddenBy]

/-- A table that is declared again, and one whose declaration is left open. -/
theorem parse_migration_of_two_tables :
    let a := "CREATE TABLE t (\n  a int\n);\nCREATE TABLE u (b int); -- u\n"
    let b := "create table IF NOT EXISTS t (c int);\nCREATE TABLE t (d int);\nCREATE TABLE v (e int"
    IsFinished a ∧
      Catalog.parse (a ++ b) = (Catalog.parse a).overriddenBy (Catalog.parse b) ∧
      (Catalog.parse (a ++ b)).columns? "t" = some (.ofList ["d"]) ∧
      (Catalog.parse (a ++ b)).columns? "u" = some (.ofList ["b"]) ∧
      (Catalog.parse (a ++ b)).columns? "v" = none := by
  intro a b
  have hline : a = "CREATE TABLE t (\n  a int\n);\nCREATE TABLE u (b int); -- u" ++ "\n" := rfl
  have hquiet : ¬ "CREATE".toList <:+: remainder tableBlock a.toList := by decide +kernel
  have hfinished : IsFinished a := ⟨.inr ⟨_, hline⟩, hquiet⟩
  obtain ⟨hboth, hcolumns⟩ := parse_migration hfinished b
  refine ⟨hfinished, hboth, ?_, ?_, ?_⟩
  · rw [hcolumns]
    decide +kernel
  · rw [hcolumns]
    decide +kernel
  · rw [hcolumns]
    decide +kernel

end ColumnAudit.Schema
