import ColumnAudit.Audit.Classification
import ColumnAudit.Json
import ColumnAudit.NameMap
import ColumnAudit.Table

/-! # Reports

A report has an entry for each source of each kind and the tallies of the kinds and of the whole. It
is written as a JSON document or as a table.
-/

namespace ColumnAudit.Audit
open Source
set_option autoImplicit false

/-- What is reported about one source. -/
structure Entry where
  tally : Tally
  unmatched : NameSet
  excluded : NameSet
deriving DecidableEq

/-- The entry of a classification. -/
def Entry.ofClassification (c : Classification) : Entry := ⟨c.tally, c.unmatched, c.excluded⟩

/-- The entries of all sources, by kind and name, and the totals. -/
structure Report where
  actions : NameMap Entry
  types : NameMap Entry
  totals : Totals
deriving DecidableEq

/-- The tallies of the scopes of a report: of all sources together and of those of each kind. -/
structure Scopes where
  overall : Tally
  actions : Tally
  types : Tally
deriving DecidableEq

/-- The scopes that totals have. -/
def Totals.scopes (t : Totals) : Scopes := ⟨t.overall, t.actions, t.types⟩

/-- What is written down of a report: its entries, by kind and name, and the tallies of its scopes. -/
structure Document where
  actions : NameMap Entry
  types : NameMap Entry
  scopes : Scopes
deriving DecidableEq

/-- A tally as the members of a JSON object. -/
def Tally.members (t : Tally) : List (String × Json) :=
  [("total", .count t.total), ("matched", .count t.matched), ("percentage", .number t.percentage)]

/-- A set of names as a JSON array. -/
def namesJson (s : NameSet) : Json := .array (s.toList.map .text)

/-- An entry as a JSON document. -/
def Entry.json (e : Entry) : Json :=
  .object [("db_only", .object (e.tally.members ++
    [("unmatched", namesJson e.unmatched), ("excluded_non_db", namesJson e.excluded)]))]

/-- The entries of one kind as a JSON object. -/
def groupJson (m : NameMap Entry) : Json := .object (m.entries.map fun (name, e) => (name, e.json))

/-- The tallies of the scopes as a JSON object. -/
def Scopes.json (s : Scopes) : Json :=
  .object [
    ("db_only", .object s.overall.members),
    ("actions", .object s.actions.members),
    ("types", .object s.types.members)]

/-- A report as a JSON document. -/
def Document.json (d : Document) : Json :=
  .object [("actions", groupJson d.actions), ("types", groupJson d.types), ("overall", d.scopes.json)]

namespace Report

/-- The entries of one kind. -/
def entries (r : Report) : ScanKind → NameMap Entry
  | .actions => r.actions
  | .types => r.types

/-- The percentage over all sources, which a threshold is held against. -/
def overallPercentage (r : Report) : Number.Binary64 := r.totals.overall.percentage

/-- What is written down of a report. -/
def document (r : Report) : Document := ⟨r.actions, r.types, r.totals.scopes⟩

/-- A report as a JSON document. -/
def json (r : Report) : Json := r.document.json

/-- The row of one source. -/
def entryRow (kind : ScanKind) (name : String) (e : Entry) : List String :=
  [kind.name, name, toString e.tally.total, toString e.tally.matched,
    percentText e.tally.percentage, e.unmatched.listed, e.excluded.listed]

/-- The row of a scope with several sources. -/
def scopeRow (scope : String) (t : Tally) : List String :=
  [scope, "*", toString t.total, toString t.matched, percentText t.percentage, "", ""]

/-- The rows of a report: its sources by kind and name, then its scopes. -/
def rows (r : Report) : List (List String) :=
  (ScanKind.all.flatMap fun kind =>
    (r.entries kind).entries.map fun (name, e) => entryRow kind name e) ++
  [scopeRow "actions" r.totals.actions, scopeRow "types" r.totals.types,
    scopeRow "overall" r.totals.overall]

/-- A report as a table, its numbers to the right. -/
def table (r : Report) : Table :=
  r.rows.foldl Table.addRow
    (((Table.ofHeaders ["scope", "file", "total", "matched", "percentage", "unmatched",
      "excluded_non_db"]).align 2 .right).align 3 .right |>.align 4 .right)

end Report
end ColumnAudit.Audit
