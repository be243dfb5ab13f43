import ColumnAudit.Proofs.Audit.EntrySets
import ColumnAudit.Proofs.Audit.Totals

/-! # Growing schemas

When tables and columns are added to a schema, the names that count for a source stay the same and more of
them are columns. So names move from those left out to those that match (`Entry.Describes.growsTo`), for
every source, and no total goes down (`compare_growsTo`).
-/

namespace ColumnAudit
open Schema Source
set_option autoImplicit false

/-! ## Growing schemas -/

/-- Every table is declared in the new catalog too, with at least the same columns. -/
def Schema.Catalog.ExtendedBy (old new : Catalog) : Prop :=
  ∀ table columns, old.columns? table = some columns →
    ∃ more, new.columns? table = some more ∧ columns ⊆ more

namespace Audit

theorem expectedColumns_mono {old new : Catalog} (h : old.ExtendedBy new) (config : Config)
    (file : String) : expectedColumns old config file ⊆ expectedColumns new config file := by
  refine Finset.biUnion_mono fun table _ x hx => ?_
  cases hold : old.columns? table with
  | none =>
    rw [hold] at hx
    cases hx
  | some columns =>
    obtain ⟨more, hnew, hmore⟩ := h table columns hold
    rw [hold] at hx
    rw [hnew]
    exact NameSet.mem_toFinset.2 (hmore x (NameSet.mem_toFinset.1 hx))

/-! ## Growing entries -/

/-- At most as many names compared, and at most as many matched. -/
structure Tally.AtMost (s t : Tally) : Prop where
  total : s.total ≤ t.total
  matched : s.matched ≤ t.matched

theorem Tally.AtMost.add {s t s' t' : Tally} (h : s.AtMost t) (h' : s'.AtMost t') :
    (s + s').AtMost (t + t') :=
  ⟨Nat.add_le_add h.total h'.total, Nat.add_le_add h.matched h'.matched⟩

theorem Tally.atMost_sum_map {α : Type} {f g : α → Tally} (h : ∀ a, (f a).AtMost (g a)) (l : List α) :
    (l.map f).sum.AtMost (l.map g).sum := by
  induction l with
  | nil => exact ⟨Nat.le_refl 0, Nat.le_refl 0⟩
  | cons a l ih =>
    rw [List.map_cons, List.map_cons, List.sum_cons, List.sum_cons]
    exact (h a).add ih

/-- Names that were left out are compared and match, and no name comes or goes. -/
structure Entry.GrowsTo (d e : Entry) : Prop where
  tally : d.tally.AtMost e.tally
  excluded : e.excluded ⊆ d.excluded
  names : d.tally.total + d.excluded.size = e.tally.total + e.excluded.size

theorem Entry.Describes.growsTo {d e : Entry} {names columns more : Finset String}
    (hd : d.Describes names columns) (he : e.Describes names more) (h : columns ⊆ more) :
    d.GrowsTo e := by
  have hcard : (names ∩ columns).card ≤ (names ∩ more).card :=
    Finset.card_le_card (Finset.inter_subset_inter_left h)
  refine ⟨⟨?_, ?_⟩, fun x hx => ?_, hd.total_add_excluded.trans he.total_add_excluded.symm⟩
  · rw [hd.total, he.total]
    exact hcard
  · rw [hd.matched, he.matched]
    exact hcard
  · rw [← NameSet.mem_toFinset, he.excluded] at hx
    rw [← NameSet.mem_toFinset, hd.excluded]
    exact Finset.sdiff_subset_sdiff subset_rfl h hx

/-- The same names are listed, every entry grows, and no total goes down. -/
structure Report.GrowsTo (r s : Report) : Prop where
  entry : ∀ kind name, Option.Rel Entry.GrowsTo ((r.entries kind).find? name)
    ((s.entries kind).find? name)
  group : ∀ kind, (r.totals.group kind).AtMost (s.totals.group kind)
  overall : r.totals.overall.AtMost s.totals.overall

/-- When a schema grows, names only move from the excluded to the matched ones. -/
theorem compare_growsTo {old new : Catalog} (h : old.ExtendedBy new) (config : Config)
    (sources : Sources) : (compare old config sources).GrowsTo (compare new config sources) := by
  have hentry : ∀ kind source,
      (compareFile old config kind source).GrowsTo (compareFile new config kind source) :=
    fun kind source => (describes_compareFile old config kind source).growsTo
      (describes_compareFile new config kind source) (expectedColumns_mono h config source.name)
  have hgroup : ∀ kind, ((compare old config sources).totals.group kind).AtMost
      ((compare new config sources).totals.group kind) := by
    intro kind
    rw [group_compare, group_compare, namedEntries, namedEntries, List.map_map, List.map_map]
    exact Tally.atMost_sum_map (fun source => (hentry kind source).tally) _
  refine ⟨fun kind name => ?_, hgroup, ?_⟩
  · rw [find?_entries_compare, find?_entries_compare]
    cases (sources.ofKind kind).reverse.find? fun s => s.name == name with
    | none => exact .none
    | some source => exact .some (hentry kind source)
  · rw [Report.overall_eq, Report.overall_eq]
    exact (hgroup .actions).add (hgroup .types)

/-- A table more and a column more, for a module that uses both tables and a type declaration. -/
theorem compare_growsTo_two_tables :
    let old := Catalog.parse "CREATE TABLE users (user_id uuid);"
    let new := Catalog.parse
      "CREATE TABLE users (user_id uuid, full_name text);CREATE TABLE roles (role_id uuid);"
    let config := { Config.standard with
      fileTables := .ofList [("a.ts", .ofList ["roles", "users"])] }
    let sources : Sources := ⟨[⟨"a.ts", ".select('user_id, full_name, role_id, nick_name')"⟩],
      [⟨"a.ts", "full_name: string\nroles: string[]"⟩]⟩
    old.ExtendedBy new ∧
      (compare old config sources).totals.overall = ⟨1, 1⟩ ∧
      (compare new config sources).totals.overall = ⟨4, 4⟩ ∧
      (compare old config sources).GrowsTo (compare new config sources) := by
  intro old new config sources
  have hold : old.tables.entries = [("users", .ofList ["user_id"])] := by decide +kernel
  have hnew : new.columns? "users" = some (.ofList ["full_name", "user_id"]) := by decide +kernel
  have hgrown : old.ExtendedBy new := by
    intro table columns hcolumns
    have hmem := NameMap.find?_eq_some_iff.1 hcolumns
    rw [hold, List.mem_singleton] at hmem
    obtain ⟨rfl, rfl⟩ := Prod.mk.inj hmem
    refine ⟨_, hnew, fun x hx => ?_⟩
    rw [NameSet.mem_ofList] at hx ⊢
    exact List.mem_cons_of_mem _ hx
  exact ⟨hgrown, by decide +kernel, by decide +kernel, compare_growsTo hgrown config sources⟩

end Audit
end ColumnAudit
