import ColumnAudit.Proofs.Audit.Agreement
import ColumnAudit.Proofs.Audit.Growth
import Mathlib.Data.Finset.Card
import Mathlib.Data.Finset.Union

/-! # Entries as sets

An entry says of the names that count for its source (`countedNames`) which of them are columns of the
tables that the source is expected to use (`expectedColumns`): the names that are columns are counted, as
compared and as matched, and the others are listed (`Entry.Describes`, `describes_compareFile`). The keys
that are known not to be columns play no part in it (`entry_sorts_names`).
-/

namespace ColumnAudit
open Schema Source
set_option autoImplicit false

/-! ## Sets of names as finite sets -/

namespace NameSet

/-- The names of a set, without their order. -/
def toFinset (s : NameSet) : Finset String := s.toList.toFinset

@[simp] theorem mem_toFinset {s : NameSet} {x : String} : x ∈ s.toFinset ↔ x ∈ s :=
  List.mem_toFinset

@[simp] theorem card_toFinset (s : NameSet) : s.toFinset.card = s.size :=
  List.toFinset_card_of_nodup s.nodup

theorem mem_foldl_union {sets : List NameSet} {s : NameSet} {x : String} :
    x ∈ sets.foldl union s ↔ x ∈ s ∨ ∃ t ∈ sets, x ∈ t := by
  induction sets generalizing s with
  | nil => simp
  | cons t sets ih => rw [List.foldl_cons, ih, mem_union, or_assoc, List.exists_mem_cons_iff]

end NameSet

/-! ## Columns of tables -/

theorem Schema.Catalog.mem_columnsOf {catalog : Catalog} {tables : List String} {x : String} :
    x ∈ catalog.columnsOf tables ↔
      ∃ table ∈ tables, ∃ columns, catalog.columns? table = some columns ∧ x ∈ columns := by
  unfold Catalog.columnsOf
  simp only [NameSet.mem_foldl_union, NameSet.not_mem_empty, false_or, List.mem_filterMap]
  constructor
  · rintro ⟨columns, ⟨table, htable, hcolumns⟩, hx⟩
    exact ⟨table, htable, columns, hcolumns, hx⟩
  · rintro ⟨table, htable, columns, hcolumns, hx⟩
    exact ⟨columns, ⟨table, htable, hcolumns⟩, hx⟩

namespace Audit

/-! ## What an entry describes -/

/-- An entry that says of some names which of them are among some columns. -/
structure Entry.Describes (e : Entry) (names columns : Finset String) : Prop where
  total : e.tally.total = (names ∩ columns).card
  matched : e.tally.matched = (names ∩ columns).card
  unmatched : e.unmatched = .empty
  excluded : e.excluded.toFinset = names \ columns

theorem excluded_classify (names columns known : NameSet) :
    (classify names columns known).excluded = names.diff columns := by
  refine NameSet.ext fun x => ?_
  have hlisted : x ∈ (names.diff columns).filter (fun y => known.toList.contains y) ∨
      x ∈ (names.diff columns).filter (fun y => !known.toList.contains y) ↔ x ∈ names.diff columns := by
    rw [NameSet.mem_filter, NameSet.mem_filter, ← and_or_left, Bool.not_eq_true']
    exact and_iff_left (Bool.eq_false_or_eq_true _)
  exact NameSet.mem_union.trans hlisted

/-- The list of names known not to be columns moves no name. -/
theorem classify_known_irrelevant (names columns known keys : NameSet) :
    classify names columns known = classify names columns keys := by
  have hexcluded : (classify names columns known).excluded = (classify names columns keys).excluded :=
    (excluded_classify names columns known).trans (excluded_classify names columns keys).symm
  exact congrArg (Classification.mk _ _) hexcluded

theorem describes_classify (names columns known : NameSet) :
    (Entry.ofClassification (classify names columns known)).Describes names.toFinset
      columns.toFinset := by
  have hmatched : (classify names columns known).matched.toFinset =
      names.toFinset ∩ columns.toFinset := by
    ext x
    rw [NameSet.mem_toFinset, mem_matched_classify, Finset.mem_inter, NameSet.mem_toFinset,
      NameSet.mem_toFinset]
  have hcard : (classify names columns known).tally.matched =
      (names.toFinset ∩ columns.toFinset).card := by
    rw [← hmatched, NameSet.card_toFinset]
    rfl
  refine ⟨(full_classify names columns known).symm.trans hcard, hcard,
    unmatched_classify names columns known, ?_⟩
  ext x
  simp only [Entry.ofClassification, excluded_classify, NameSet.mem_toFinset, NameSet.mem_diff,
    Finset.mem_sdiff]

/-- Every name is either compared or left out. -/
theorem Entry.Describes.total_add_excluded {e : Entry} {names columns : Finset String}
    (h : e.Describes names columns) : e.tally.total + e.excluded.size = names.card := by
  rw [h.total, ← NameSet.card_toFinset, h.excluded]
  exact Finset.card_inter_add_card_sdiff names columns

/-! ## Entries of sources -/

section Comparison
variable (catalog : Catalog) (config : Config)

/-- The columns of the tables that a source is expected to use, as far as they are declared. -/
def expectedColumns (file : String) : Finset String :=
  (config.expectedTables file).toFinset.biUnion fun table =>
    (catalog.columns? table).elim ∅ NameSet.toFinset

/-- The names that count for a source: in a data-access module its tables do not. -/
def countedNames (kind : ScanKind) (source : SourceFile) : Finset String :=
  match kind with
  | .actions => (kind.fields source.text).toFinset \ (config.expectedTables source.name).toFinset
  | .types => (kind.fields source.text).toFinset

theorem toFinset_columnsOf (file : String) :
    (catalog.columnsOf (config.expectedTables file).toList).toFinset =
      expectedColumns catalog config file := by
  ext x
  simp only [expectedColumns, NameSet.mem_toFinset, Catalog.mem_columnsOf, Finset.mem_biUnion,
    NameSet.mem_toList]
  refine exists_congr fun table => and_congr_right fun _ => ?_
  cases catalog.columns? table with
  | none => simp
  | some columns => simp

theorem toFinset_namesToCompare (kind : ScanKind) (source : SourceFile) :
    (namesToCompare config kind source).toFinset = countedNames config kind source := by
  ext x
  cases kind with
  | actions =>
    simp only [namesToCompare, countedNames, ScanKind.leavesOutTables, if_true, withoutTables,
      NameSet.mem_toFinset, NameSet.mem_diff, Finset.mem_sdiff]
  | types => rfl

theorem describes_compareFile (kind : ScanKind) (source : SourceFile) :
    (compareFile catalog config kind source).Describes (countedNames config kind source)
      (expectedColumns catalog config source.name) := by
  rw [← toFinset_namesToCompare, ← toFinset_columnsOf]
  exact describes_classify _ _ _

/-- What the entry of a source says about the names that count and the columns of its tables. -/
theorem entry_sorts_names (kind : ScanKind) (source : SourceFile) :
    let entry := compareFile catalog config kind source
    let names := countedNames config kind source
    entry.Describes names (expectedColumns catalog config source.name) ∧
      entry.tally.total + entry.excluded.size = names.card ∧
      (kind = .actions → ∀ table ∈ config.expectedTables source.name,
        ¬ table ∈ entry.unmatched ∧ ¬ table ∈ entry.excluded) ∧
      (config.fileTables.find? source.name = none →
        entry.tally.total = 0 ∧ entry.excluded.toFinset = names) ∧
      ∀ keys, compareFile catalog { config with knownKeys := keys } kind source = entry := by
  intro entry names
  have hentry := describes_compareFile catalog config kind source
  refine ⟨hentry, hentry.total_add_excluded, ?_, ?_, fun keys => ?_⟩
  · rintro rfl table htable
    constructor
    · rw [hentry.unmatched]
      exact NameSet.not_mem_empty table
    · rw [← NameSet.mem_toFinset, hentry.excluded]
      simp only [countedNames, Finset.mem_sdiff, NameSet.mem_toFinset, htable, not_true_eq_false,
        and_false, false_and, not_false_eq_true]
  · intro hunmapped
    have hcolumns : expectedColumns catalog config source.name = ∅ := by
      unfold expectedColumns Config.expectedTables
      rw [hunmapped]
      rfl
    rw [hentry.total, hentry.excluded, hcolumns, Finset.inter_empty, Finset.sdiff_empty]
    exact ⟨rfl, rfl⟩
  · exact congrArg Entry.ofClassification (classify_known_irrelevant _ _ _ _)

end Comparison
end Audit
end ColumnAudit
