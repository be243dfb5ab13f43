import ColumnAudit.Audit.Comparison
import ColumnAudit.Proofs.Source.LongerText

/-! # Entries of growing sources

The matched names of an entry are the names of its source that are columns of its tables
(`mem_matched_classify`), so they grow with the names that the source uses. Since a source that goes on
uses at least the names it used before, it matches at least as much (`longer_source_keeps_fields`).
-/

namespace ColumnAudit.Audit
open Schema Source
set_option autoImplicit false

theorem mem_matched_classify {names columns known : NameSet} {x : String} :
    x ∈ (classify names columns known).matched ↔ x ∈ names ∧ x ∈ columns := by
  have hcolumn : columns.toList.contains x = true ↔ x ∈ columns := List.contains_iff_mem
  simp only [classify, NameSet.mem_filter, hcolumn, and_assoc, and_self]

/-- With more names at least as many match. -/
theorem matched_classify_mono {names more columns known : NameSet} (h : names ⊆ more) :
    (classify names columns known).tally.matched ≤ (classify more columns known).tally.matched := by
  refine NameSet.size_le_of_subset fun x hx => ?_
  rw [mem_matched_classify] at hx ⊢
  exact ⟨h x hx.1, hx.2⟩

section Comparison
variable (catalog : Catalog) (config : Config) (kind : ScanKind)

theorem namesToCompare_mono {source longer : SourceFile} (hname : source.name = longer.name)
    (h : kind.fields source.text ⊆ kind.fields longer.text) :
    namesToCompare config kind source ⊆ namesToCompare config kind longer := by
  unfold namesToCompare
  dsimp only
  split
  · intro x hx
    rw [withoutTables, NameSet.mem_diff] at hx ⊢
    exact ⟨h x hx.1, hname ▸ hx.2⟩
  · exact h

theorem matched_compareFile_mono {source longer : SourceFile} (hname : source.name = longer.name)
    (h : kind.fields source.text ⊆ kind.fields longer.text) :
    (compareFile catalog config kind source).tally.matched ≤
      (compareFile catalog config kind longer).tally.matched := by
  unfold compareFile
  rw [← hname]
  exact matched_classify_mono (namesToCompare_mono config kind hname h)

end Comparison

/-- When the text of a source goes on, no name that it uses disappears, and its entry matches at least
as many. -/
theorem longer_source_keeps_fields (kind : ScanKind) (a b : String) :
    kind.fields a ⊆ kind.fields (a ++ b) ∧
      ∀ (catalog : Catalog) (config : Config) (name : String),
        (compareFile catalog config kind ⟨name, a⟩).tally.matched ≤
          (compareFile catalog config kind ⟨name, a ++ b⟩).tally.matched :=
  ⟨fields_subset_append kind a b, fun catalog config _ =>
    matched_compareFile_mono catalog config kind rfl (fields_subset_append kind a b)⟩

/-- A select list that is left open swallows the one behind it once it is closed, but none of its
names. -/
example : (queryFields ".select('a_b .select(\"c_d\")").toList = ["c_d"] ∧
    (queryFields ".select('a_b .select(\"c_d\") e_f')").toList = ["a_b", "c_d", "e_f"] := by
  decide +kernel

end ColumnAudit.Audit
