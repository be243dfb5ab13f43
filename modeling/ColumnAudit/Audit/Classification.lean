import ColumnAudit.Audit.Tally
import ColumnAudit.NameSet

/-! # Comparing names with columns

The names that a source uses fall into those that can be compared with the columns of its tables and
those that are left out. Only a name that is a column can be compared, so what is reported is how
many known columns a source uses, not whether every name it uses exists.
-/

namespace ColumnAudit.Audit
set_option autoImplicit false

/-- Names sorted by what a comparison makes of them. -/
structure Classification where
  matched : NameSet
  unmatched : NameSet
  excluded : NameSet
deriving DecidableEq

/-- Sorts names by the columns of the expected tables. A name is comparable if it is one of them. Any
other is excluded, on the list of names known not to be columns or not: the list records what is meant
and does not move a name. -/
def classify (names columns known : NameSet) : Classification :=
  let comparable := names.filter fun x => columns.toList.contains x
  let others := names.diff columns
  let listed := others.filter fun x => known.toList.contains x
  let unconfirmed := others.filter fun x => !known.toList.contains x
  { matched := comparable.filter fun x => columns.toList.contains x
    unmatched := comparable.filter fun x => !columns.toList.contains x
    excluded := listed.union unconfirmed }

/-- How many names were compared and how many of them matched. -/
def Classification.tally (c : Classification) : Tally :=
  ⟨c.matched.size + c.unmatched.size, c.matched.size⟩

/-- Names that are not themselves names of tables. -/
def withoutTables (names tables : NameSet) : NameSet := names.diff tables

end ColumnAudit.Audit
