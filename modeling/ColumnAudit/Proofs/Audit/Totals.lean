import ColumnAudit.Audit.Comparison
import ColumnAudit.Proofs.Names
import Mathlib.Algebra.BigOperators.Group.List.Basic

/-! # What a report counts and what it lists

A comparison counts every source as it comes and lists it under its name. `group_compare` and
`entries_compare` say what has been counted and what is listed at the end, in terms of the sources as
they were given: sorting them by name changes neither, because it keeps sources of one name in their
order (`filter_byName`).

So the totals of a report are those of its entries unless one source took the place of another in the
list. `balanced_compare_iff` says exactly when that shows.
-/

namespace ColumnAudit.Audit
open Schema Source
set_option autoImplicit false

/-! ## Tallies as a monoid -/

theorem Tally.ext {s t : Tally} (htotal : s.total = t.total) (hmatched : s.matched = t.matched) :
    s = t := by
  cases s
  cases t
  simp_all

instance : Zero Tally := ⟨.zero⟩
instance : Add Tally := ⟨.add⟩

instance : AddCommMonoid Tally where
  add_assoc _ _ _ := Tally.ext (Nat.add_assoc ..) (Nat.add_assoc ..)
  zero_add _ := Tally.ext (Nat.zero_add _) (Nat.zero_add _)
  add_zero _ := Tally.ext (Nat.add_zero _) (Nat.add_zero _)
  add_comm _ _ := Tally.ext (Nat.add_comm ..) (Nat.add_comm ..)
  nsmul := nsmulRec

namespace Tally

@[simp] theorem total_add (s t : Tally) : (s + t).total = s.total + t.total := rfl
@[simp] theorem matched_add (s t : Tally) : (s + t).matched = s.matched + t.matched := rfl
@[simp] theorem total_zero : (0 : Tally).total = 0 := rfl
@[simp] theorem matched_zero : (0 : Tally).matched = 0 := rfl

theorem add_eq_right_iff {s t : Tally} : s + t = t ↔ s = 0 := by
  constructor
  · intro h
    have htotal := congrArg Tally.total h
    have hmatched := congrArg Tally.matched h
    rw [total_add] at htotal
    rw [matched_add] at hmatched
    exact Tally.ext (by rw [total_zero]; omega) (by rw [matched_zero]; omega)
  · rintro rfl
    exact zero_add t

theorem add_eq_zero_iff {s t : Tally} : s + t = 0 ↔ s = 0 ∧ t = 0 := by
  constructor
  · intro h
    have htotal := congrArg Tally.total h
    have hmatched := congrArg Tally.matched h
    rw [total_add, total_zero] at htotal
    rw [matched_add, matched_zero] at hmatched
    exact ⟨Tally.ext (by rw [total_zero]; omega) (by rw [matched_zero]; omega),
      Tally.ext (by rw [total_zero]; omega) (by rw [matched_zero]; omega)⟩
  · rintro ⟨rfl, rfl⟩
    rfl

theorem sum_eq_zero_iff {ts : List Tally} : ts.sum = 0 ↔ ∀ t ∈ ts, t = 0 := by
  induction ts with
  | nil => simp
  | cons t ts ih => rw [List.sum_cons, add_eq_zero_iff, ih, List.forall_mem_cons]

end Tally

/-! ## One source more -/

namespace Report

theorem group_add (r : Report) (kind k : ScanKind) (name : String) (entry : Entry) :
    (r.add kind name entry).totals.group k =
      if k = kind then r.totals.group k + entry.tally else r.totals.group k := by
  cases kind <;> cases k <;> rfl

theorem entries_add (r : Report) (kind k : ScanKind) (name : String) (entry : Entry) :
    (r.add kind name entry).entries k =
      if k = kind then (r.entries k).insert name entry else r.entries k := by
  cases kind <;> cases k <;> rfl

theorem overall_eq (r : Report) :
    r.totals.overall = r.totals.group .actions + r.totals.group .types := rfl

end Report

/-! ## The order of names -/

theorem byName_perm (sources : List SourceFile) : (byName sources).Perm sources :=
  List.mergeSort_perm sources _

/-- Sorting by name keeps the sources of one name in their order. -/
theorem filter_byName (sources : List SourceFile) (x : String) :
    ((byName sources).filter fun s => s.name == x) = sources.filter fun s => s.name == x := by
  have hname : ∀ a ∈ sources.filter (fun s => s.name == x), a.name = x := by
    intro a ha
    simpa using (List.mem_filter.1 ha).2
  -- The sources of one name are in order as they are, so sorting leaves them as a sublist.
  have hsorted : (sources.filter fun s => s.name == x).Pairwise
      fun a b => decide (a.name ≤ b.name) = true := by
    refine List.pairwise_of_forall_mem_list fun a ha b hb => ?_
    rw [hname a ha, hname b hb]
    exact decide_eq_true (String.le_refl x)
  have hsub : (sources.filter fun s => s.name == x).Sublist (byName sources) := by
    refine List.sublist_mergeSort ?_ ?_ hsorted List.filter_sublist
    · intro a b c hab hbc
      exact decide_eq_true (String.le_trans (of_decide_eq_true hab) (of_decide_eq_true hbc))
    · intro a b
      rcases String.le_total a.name b.name with h | h
      · simp [h]
      · simp [h]
  have hsub' := hsub.filter fun s => s.name == x
  rw [List.filter_filter] at hsub'
  simp only [Bool.and_self] at hsub'
  exact (hsub'.eq_of_length ((byName_perm sources).filter _).length_eq.symm).symm

theorem find?_reverse_byName (sources : List SourceFile) (x : String) :
    ((byName sources).reverse.find? fun s => s.name == x) =
      sources.reverse.find? fun s => s.name == x := by
  rw [← List.head?_filter, ← List.head?_filter, List.filter_reverse, List.filter_reverse,
    filter_byName]

/-! ## All sources of one kind -/

section Comparison
variable (catalog : Catalog) (config : Config) (sources : Sources) (kind : ScanKind)

/-- The names of the sources of a kind with their entries, as the sources were given. -/
def namedEntries : List (String × Entry) :=
  (sources.ofKind kind).map fun s => (s.name, compareFile catalog config kind s)

theorem group_foldl_add (files : List SourceFile) (r : Report) (k : ScanKind) :
    (files.foldl (fun r s => r.add kind s.name (compareFile catalog config kind s))
        r).totals.group k =
      if k = kind then
        r.totals.group k + (files.map fun s => (compareFile catalog config kind s).tally).sum
      else r.totals.group k := by
  induction files generalizing r with
  | nil => simp
  | cons s files ih =>
    rw [List.foldl_cons, ih, Report.group_add]
    split
    · rw [List.map_cons, List.sum_cons, add_assoc]
    · rfl

theorem entries_foldl_add (files : List SourceFile) (r : Report) (k : ScanKind) :
    (files.foldl (fun r s => r.add kind s.name (compareFile catalog config kind s)) r).entries k =
      if k = kind then
        files.foldl (fun m s => m.insert s.name (compareFile catalog config kind s)) (r.entries k)
      else r.entries k := by
  induction files generalizing r with
  | nil => simp
  | cons s files ih =>
    rw [List.foldl_cons, ih, Report.entries_add]
    split <;> rfl

theorem group_compareKind (r : Report) (k : ScanKind) :
    (compareKind catalog config sources r kind).totals.group k =
      if k = kind then
        r.totals.group k + ((namedEntries catalog config sources kind).map (·.2.tally)).sum
      else r.totals.group k := by
  have hperm : ((byName (sources.ofKind kind)).map fun s =>
      (compareFile catalog config kind s).tally).Perm
      ((sources.ofKind kind).map fun s => (compareFile catalog config kind s).tally) :=
    (byName_perm _).map _
  rw [compareKind, group_foldl_add, hperm.sum_eq, namedEntries, List.map_map]
  rfl

/-- What has been counted: every source of the kind. -/
theorem group_compare :
    (compare catalog config sources).totals.group kind =
      ((namedEntries catalog config sources kind).map (·.2.tally)).sum := by
  have hzero : ∀ k, Report.empty.totals.group k = 0 := by
    intro k
    cases k <;> rfl
  rw [compare, ScanKind.all, List.foldl_cons, List.foldl_cons, List.foldl_nil, group_compareKind,
    group_compareKind, hzero]
  cases kind <;> simp

/-- What is listed: each name with the entry of the last source that has it. -/
theorem entries_compare :
    (compare catalog config sources).entries kind =
      NameMap.ofList (namedEntries catalog config sources kind) := by
  have hempty : ∀ k, Report.empty.entries k = NameMap.empty := by
    intro k
    cases k <;> rfl
  have hsorted : (compare catalog config sources).entries kind =
      NameMap.ofList ((byName (sources.ofKind kind)).map fun s =>
        (s.name, compareFile catalog config kind s)) := by
    rw [compare, ScanKind.all, List.foldl_cons, List.foldl_cons, List.foldl_nil, compareKind,
      entries_foldl_add, compareKind, entries_foldl_add, hempty, NameMap.ofList, List.foldl_map]
    cases kind <;> rfl
  rw [hsorted]
  refine NameMap.ext fun x => ?_
  rw [namedEntries, NameMap.find?_ofList, NameMap.find?_ofList, ← List.map_reverse,
    ← List.map_reverse, List.find?_map, List.find?_map]
  have hfind := find?_reverse_byName (sources.ofKind kind) x
  simp only [Function.comp_def, hfind]

theorem find?_entries_compare (name : String) :
    ((compare catalog config sources).entries kind).find? name =
      ((sources.ofKind kind).reverse.find? fun s => s.name == name).map
        (compareFile catalog config kind) := by
  rw [entries_compare, namedEntries, NameMap.find?_ofList, ← List.map_reverse, List.find?_map,
    Option.map_map]
  rfl

theorem exists_source_of_mem_entries {e : String × Entry}
    (h : e ∈ ((compare catalog config sources).entries kind).entries) :
    ∃ s ∈ sources.ofKind kind, e = (s.name, compareFile catalog config kind s) := by
  rw [entries_compare] at h
  obtain ⟨s, hs, heq⟩ := List.mem_map.1 (NameMap.mem_of_mem_entries_ofList h)
  exact ⟨s, hs, heq.symm⟩

/-! ## Balance -/

/-- The tallies of the entries that a report lists for a kind. -/
def Report.listed (r : Report) (kind : ScanKind) : List Tally :=
  (r.entries kind).entries.map (·.2.tally)

/-- A report is balanced if its totals are the sums over the entries that it lists, total by total and
match by match, and no source is listed twice. -/
structure Report.Balanced (r : Report) : Prop where
  group : ∀ kind, r.totals.group kind = (r.listed kind).sum
  overall : r.totals.overall = (r.listed .actions ++ r.listed .types).sum
  once : ∀ kind, (r.entries kind).keys.Nodup

theorem Report.balanced_iff {r : Report} :
    r.Balanced ↔ ∀ kind, r.totals.group kind = (r.listed kind).sum := by
  constructor
  · exact Report.Balanced.group
  · intro h
    refine ⟨h, ?_, fun kind => (r.entries kind).keys_nodup⟩
    rw [r.overall_eq, h, h, List.sum_append]

/-- The tallies counted are those of the replaced entries and those of the listed ones. -/
theorem group_compare_eq_replaced_add_listed :
    (compare catalog config sources).totals.group kind =
      ((replaced (namedEntries catalog config sources kind)).map (·.2.tally)).sum +
        ((compare catalog config sources).listed kind).sum := by
  have hall := ((replaced_append_lasting_perm (namedEntries catalog config sources kind)).map
    fun e => e.2.tally).sum_eq
  have hlisted := ((NameMap.entries_ofList_perm (namedEntries catalog config sources kind)).map
    fun e => e.2.tally).sum_eq
  rw [List.map_append, List.sum_append] at hall
  rw [group_compare, Report.listed, entries_compare, hlisted, hall]

end Comparison

/-- A report is balanced exactly if no source with something to compare is given before another one of
its kind and name. -/
theorem balanced_compare_iff (catalog : Catalog) (config : Config) (sources : Sources) :
    (compare catalog config sources).Balanced ↔
      ∀ kind, (sources.ofKind kind).Pairwise fun source later =>
        source.name = later.name → (compareFile catalog config kind source).tally = .zero := by
  rw [Report.balanced_iff]
  refine forall_congr' fun kind => ?_
  rw [group_compare_eq_replaced_add_listed, Tally.add_eq_right_iff, Tally.sum_eq_zero_iff,
    List.forall_mem_map, forall_mem_replaced_iff, namedEntries, List.pairwise_map]
  rfl

/-- Two sources of one name with a column each: two columns are counted and one is listed. -/
theorem not_balanced_same_name :
    ¬ (compare (Catalog.parse "CREATE TABLE users (user_id uuid);")
      { Config.standard with fileTables := .ofList [("a.ts", .ofList ["users"])] }
      ⟨[⟨"a.ts", ".eq('user_id', id)"⟩, ⟨"a.ts", ".eq('user_id', id)"⟩], []⟩).Balanced := by
  intro h
  have hgroup := h.group .actions
  rw [group_compare_eq_replaced_add_listed, Tally.add_eq_right_iff] at hgroup
  revert hgroup
  decide +kernel

end ColumnAudit.Audit
