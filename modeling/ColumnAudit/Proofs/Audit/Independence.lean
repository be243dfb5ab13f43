import ColumnAudit.Proofs.Audit.Totals

/-! # Sources do not depend on each other

Among sources with different names, the order in which they are given does not show in the report
(`compare_eq_of_perm`), and one source more adds its entry and its tally and changes nothing else
(`compare_oneMore`): `Report.add` is all that it does, wherever it stands in the list.

Both come from what a comparison lists and counts, as `entries_compare` and `group_compare` say it in
terms of the sources as they were given.
-/

namespace ColumnAudit.Audit
open Schema Source
set_option autoImplicit false

/-! ## Collections of sources -/

/-- No two sources of one kind have the same name. -/
def DistinctNames (sources : Sources) : Prop :=
  ∀ kind, ((sources.ofKind kind).map SourceFile.name).Nodup

/-- The same sources of each kind, in any order. -/
def Reordered (sources other : Sources) : Prop :=
  ∀ kind, (sources.ofKind kind).Perm (other.ofKind kind)

/-- `larger` has one file more among its sources of a kind, with a name that is new there. -/
structure OneMore (sources : Sources) (kind : ScanKind) (file : SourceFile) (larger : Sources) :
    Prop where
  place : ∃ before after, sources.ofKind kind = before ++ after ∧
    larger.ofKind kind = before ++ file :: after
  fresh : file.name ∉ (sources.ofKind kind).map SourceFile.name
  others : ∀ k, k ≠ kind → larger.ofKind k = sources.ofKind k

/-! ## Reports that differ in one entry -/

/-- A report lists one entry more under a name that was not listed, and counts it. All else is as it
was. -/
structure Report.Gains (r : Report) (kind : ScanKind) (name : String) (entry : Entry) (s : Report) :
    Prop where
  listed : ∃ front back, (r.entries kind).entries = front ++ back ∧
    (s.entries kind).entries = front ++ (name, entry) :: back
  counted : s.totals.group kind = r.totals.group kind + entry.tally
  overall : s.totals.overall = r.totals.overall + entry.tally
  others : ∀ k, k ≠ kind → s.entries k = r.entries k ∧ s.totals.group k = r.totals.group k

theorem Report.eq_of_kinds {r s : Report} (hentries : ∀ kind, r.entries kind = s.entries kind)
    (hgroup : ∀ kind, r.totals.group kind = s.totals.group kind) : r = s := by
  obtain ⟨ra, rt, ⟨rga, rgt⟩⟩ := r
  obtain ⟨sa, st, ⟨sga, sgt⟩⟩ := s
  have ha : ra = sa := hentries .actions
  have ht : rt = st := hentries .types
  have hga : rga = sga := hgroup .actions
  have hgt : rgt = sgt := hgroup .types
  rw [ha, ht, hga, hgt]

/-- What is recorded for one kind is recorded overall. -/
theorem Report.overall_add (r : Report) (kind : ScanKind) (name : String) (entry : Entry) :
    (r.add kind name entry).totals.overall = r.totals.overall + entry.tally := by
  rw [Report.overall_eq, Report.overall_eq, Report.group_add, Report.group_add]
  cases kind with
  | actions =>
    rw [if_pos rfl, if_neg (by decide)]
    exact add_right_comm _ _ _
  | types =>
    rw [if_neg (by decide), if_pos rfl]
    exact (add_assoc _ _ _).symm

theorem Report.gains_add {r : Report} {kind : ScanKind} {name : String}
    (h : name ∉ (r.entries kind).keys) (entry : Entry) :
    r.Gains kind name entry (r.add kind name entry) where
  listed := by
    rw [Report.entries_add, if_pos rfl]
    exact NameMap.entries_insert_of_not_mem h entry
  counted := by rw [Report.group_add, if_pos rfl]
  overall := r.overall_add kind name entry
  others k hk := by
    rw [Report.entries_add, Report.group_add, if_neg hk, if_neg hk]
    exact ⟨rfl, rfl⟩

/-! ## Order and addition -/

section Comparison
variable (catalog : Catalog) (config : Config) {sources : Sources}

theorem names_namedEntries (sources : Sources) (kind : ScanKind) :
    (namedEntries catalog config sources kind).map Prod.fst =
      (sources.ofKind kind).map SourceFile.name := by
  rw [namedEntries, List.map_map]
  rfl

theorem compare_eq_of_perm {other : Sources} (hnames : DistinctNames sources)
    (h : Reordered sources other) :
    compare catalog config other = compare catalog config sources := by
  have hperm : ∀ kind, (namedEntries catalog config sources kind).Perm
      (namedEntries catalog config other kind) := fun kind => (h kind).map _
  refine (Report.eq_of_kinds (fun kind => ?_) (fun kind => ?_)).symm
  · rw [entries_compare, entries_compare]
    refine NameMap.ofList_eq_of_perm ?_ (hperm kind)
    rw [names_namedEntries]
    exact hnames kind
  · rw [group_compare, group_compare]
    exact ((hperm kind).map _).sum_eq

/-- An entry is listed only under the name of a source. -/
theorem mem_names_of_mem_keys {kind : ScanKind} {x : String}
    (h : x ∈ ((compare catalog config sources).entries kind).keys) :
    x ∈ (sources.ofKind kind).map SourceFile.name := by
  obtain ⟨e, he, rfl⟩ := List.mem_map.1 h
  obtain ⟨s, hs, rfl⟩ := exists_source_of_mem_entries catalog config sources kind he
  exact List.mem_map_of_mem hs

/-- One source more does to the report what adding its entry does. -/
theorem compare_oneMore {larger : Sources} {kind : ScanKind} {file : SourceFile}
    (hnames : DistinctNames sources) (h : OneMore sources kind file larger) :
    compare catalog config larger =
      (compare catalog config sources).add kind file.name
        (compareFile catalog config kind file) := by
  obtain ⟨before, after, hsources, hlarger⟩ := h.place
  have hold := names_namedEntries catalog config sources kind
  have hnew := hnames kind
  have hfresh := h.fresh
  rw [← hold] at hnew hfresh
  refine Report.eq_of_kinds (fun k => ?_) (fun k => ?_)
  · rw [Report.entries_add, entries_compare, entries_compare]
    by_cases hk : k = kind
    · subst hk
      simp only [namedEntries, hsources, List.map_append] at hnew hfresh
      rw [if_pos rfl]
      simp only [namedEntries, hsources, hlarger, List.map_append, List.map_cons]
      refine NameMap.ofList_append_cons ?_ ?_
      · rw [List.map_append]
        exact hnew
      · rw [List.map_append]
        exact hfresh
    · rw [if_neg hk, namedEntries, h.others k hk, namedEntries]
  · rw [Report.group_add, group_compare, group_compare]
    by_cases hk : k = kind
    · subst hk
      rw [if_pos rfl]
      simp only [namedEntries, hsources, hlarger, List.map_append, List.map_cons, List.sum_append,
        List.sum_cons]
      rw [add_comm (compareFile catalog config k file).tally, add_assoc]
    · rw [if_neg hk, namedEntries, h.others k hk, namedEntries]

/-- The report on sources with different names does not depend on their order, and one source more
only adds what there is to say about that source. -/
theorem sources_independent (hnames : DistinctNames sources) :
    (∀ other, Reordered sources other →
      compare catalog config other = compare catalog config sources) ∧
    ∀ kind file larger, OneMore sources kind file larger →
      (compare catalog config sources).Gains kind file.name (compareFile catalog config kind file)
        (compare catalog config larger) := by
  refine ⟨fun other h => compare_eq_of_perm catalog config hnames h, fun kind file larger h => ?_⟩
  rw [compare_oneMore catalog config hnames h]
  exact Report.gains_add (fun hmem => h.fresh (mem_names_of_mem_keys catalog config hmem)) _

end Comparison

/-- Two data-access modules in both orders, and a third one put between them. -/
theorem sources_independent_two_modules :
    let catalog := Catalog.parse "CREATE TABLE users (user_id uuid, full_name text);"
    let config := { Config.standard with
      fileTables := .ofList [("a.ts", .ofList ["users"]), ("b.ts", .ofList ["users"]),
        ("c.ts", .ofList ["users"])] }
    let a : SourceFile := ⟨"a.ts", ".eq('user_id', id)"⟩
    let b : SourceFile := ⟨"b.ts", ".select('user_id, full_name')"⟩
    let c : SourceFile := ⟨"c.ts", ".insert({ full_name: name })"⟩
    let types : List SourceFile := [⟨"a.ts", "user_id: string"⟩]
    DistinctNames ⟨[c, a], types⟩ ∧
      compare catalog config ⟨[a, c], types⟩ = compare catalog config ⟨[c, a], types⟩ ∧
      (compare catalog config ⟨[c, a], types⟩).Gains .actions "b.ts" ⟨⟨2, 2⟩, .empty, .empty⟩
        (compare catalog config ⟨[c, b, a], types⟩) := by
  intro catalog config a b c types
  have hnames : DistinctNames ⟨[c, a], types⟩ := by
    intro kind
    cases kind with
    | actions => decide
    | types => decide
  have hreordered : Reordered ⟨[c, a], types⟩ ⟨[a, c], types⟩ := by
    intro kind
    cases kind with
    | actions => exact List.Perm.swap a c []
    | types => exact .refl _
  have hmore : OneMore ⟨[c, a], types⟩ .actions b ⟨[c, b, a], types⟩ :=
    ⟨⟨[c], [a], rfl, rfl⟩, by decide, fun k hk => by
      cases k with
      | actions => exact absurd rfl hk
      | types => rfl⟩
  have hentry : compareFile catalog config .actions b = ⟨⟨2, 2⟩, .empty, .empty⟩ := by
    decide +kernel
  obtain ⟨horder, hgains⟩ := sources_independent catalog config hnames
  rw [← hentry]
  exact ⟨hnames, horder _ hreordered, hgains _ b _ hmore⟩

end ColumnAudit.Audit
