import ColumnAudit.Audit.Threshold
import ColumnAudit.Proofs.Audit.Totals
import ColumnAudit.Proofs.Number.Binary64
import ColumnAudit.Proofs.Source.QueryPatterns

/-! # Every comparison agrees

Only a name that is a column is compared, so every name that is compared matches. This goes from the
classification of names through the entries (`full_compareFile`) to all scopes of a report
(`agrees_compare`). As far as the counts can become doubles, the percentage of a scope is then one
hundred, and it falls short exactly of the thresholds above that (`shortfall?_hundred_iff`).
-/

namespace ColumnAudit.Audit
open Number Schema Source
set_option autoImplicit false

/-! ## Full tallies -/

/-- Whether all names compared matched. -/
def Tally.Full (t : Tally) : Prop := t.matched = t.total

namespace Tally

theorem full_zero : Full 0 := rfl

theorem Full.add {s t : Tally} (hs : s.Full) (ht : t.Full) : (s + t).Full := by
  unfold Full at *
  rw [matched_add, total_add, hs, ht]

theorem full_sum {ts : List Tally} (h : ∀ t ∈ ts, t.Full) : ts.sum.Full := by
  induction ts with
  | nil => exact full_zero
  | cons t ts ih =>
    rw [List.forall_mem_cons] at h
    rw [List.sum_cons]
    exact h.1.add (ih h.2)

theorem toHundredths_hundred :
    toHundredths ((Binary64.ofNat 1).mul (.ofNat 100)) = .ofNat 100 := by
  decide +kernel

theorem Full.percentage {t : Tally} (h : t.Full) (hbound : t.total < 2 ^ 1023) :
    t.percentage = .ofNat 100 := by
  unfold Tally.percentage
  split
  · rfl
  · rename_i hne
    rw [h, Binary64.ofNat_div_self (Nat.pos_of_ne_zero hne) hbound, toHundredths_hundred]

end Tally

/-! ## One source -/

theorem unmatched_classify (names columns known : NameSet) :
    (classify names columns known).unmatched = .empty := by
  rw [NameSet.eq_empty_iff]
  intro x hx
  simp only [classify, NameSet.mem_filter] at hx
  have hin := hx.1.2
  have hout := hx.2
  rw [hin] at hout
  cases hout

theorem full_classify (names columns known : NameSet) :
    (classify names columns known).tally.Full := by
  rw [Classification.tally, unmatched_classify]
  rfl

theorem total_classify_le (names columns known : NameSet) :
    (classify names columns known).tally.total ≤ names.size := by
  rw [← full_classify]
  exact (NameSet.size_filter_le _ _).trans (NameSet.size_filter_le _ _)

section Comparison
variable (catalog : Catalog) (config : Config) (kind : ScanKind) (source : SourceFile)

theorem unmatched_compareFile : (compareFile catalog config kind source).unmatched = .empty :=
  unmatched_classify _ _ (config.knownKeysFor kind)

theorem full_compareFile : (compareFile catalog config kind source).tally.Full :=
  full_classify _ _ (config.knownKeysFor kind)

theorem size_namesToCompare_le :
    (namesToCompare config kind source).size ≤ 3 * source.text.toList.length := by
  have hfields := size_fields_le kind source.text
  unfold namesToCompare
  dsimp only
  split
  · exact (NameSet.size_filter_le _ _).trans hfields
  · exact hfields

theorem total_compareFile_le :
    (compareFile catalog config kind source).tally.total ≤ 3 * source.text.toList.length :=
  (total_classify_le _ _ (config.knownKeysFor kind)).trans (size_namesToCompare_le config kind source)

end Comparison

/-! ## A report -/

/-- A report in which no entry has an unmatched name and every tally is full. -/
structure Report.Agrees (r : Report) : Prop where
  entry : ∀ kind, ∀ e ∈ (r.entries kind).entries, e.2.unmatched = .empty ∧ e.2.tally.Full
  group : ∀ kind, (r.totals.group kind).Full
  overall : r.totals.overall.Full

section Comparison
variable (catalog : Catalog) (config : Config) (sources : Sources)

theorem full_group_compare (kind : ScanKind) :
    ((compare catalog config sources).totals.group kind).Full := by
  rw [group_compare]
  apply Tally.full_sum
  intro t ht
  simp only [namedEntries, List.map_map, List.mem_map, Function.comp_apply] at ht
  obtain ⟨source, -, rfl⟩ := ht
  exact full_compareFile catalog config kind source

theorem agrees_compare : (compare catalog config sources).Agrees where
  entry kind e he := by
    obtain ⟨source, -, rfl⟩ := exists_source_of_mem_entries catalog config sources kind he
    exact ⟨unmatched_compareFile .., full_compareFile ..⟩
  group := full_group_compare catalog config sources
  overall := by
    rw [Report.overall_eq]
    exact (full_group_compare catalog config sources .actions).add
      (full_group_compare catalog config sources .types)

theorem total_group_compare_le (kind : ScanKind) :
    ((compare catalog config sources).totals.group kind).total ≤
      3 * characters (sources.ofKind kind) := by
  rw [group_compare, namedEntries, List.map_map]
  induction sources.ofKind kind with
  | nil => exact Nat.zero_le _
  | cons source rest ih =>
    have hfirst := total_compareFile_le catalog config kind source
    rw [List.map_cons, List.sum_cons, Tally.total_add, characters, Nat.mul_add]
    exact Nat.add_le_add hfirst ih

end Comparison

/-! ## The percentage -/

/-- The tallies of the three scopes of a report. -/
def Report.scopes (r : Report) : List Tally := [r.totals.actions, r.totals.types, r.totals.overall]

theorem percentage_compare (catalog : Catalog) (config : Config) {sources : Sources}
    (hbound : characters sources.actions + characters sources.types < 2 ^ 1000) :
    ∀ t ∈ (compare catalog config sources).scopes, t.percentage = .ofNat 100 := by
  have hfull := agrees_compare catalog config sources
  have hactions := total_group_compare_le catalog config sources .actions
  have htypes := total_group_compare_le catalog config sources .types
  have hlimit : 3 * 2 ^ 1000 ≤ 2 ^ 1023 := by decide +kernel
  have hoverall : (compare catalog config sources).totals.overall.total < 2 ^ 1023 := by
    rw [Report.overall_eq, Tally.total_add]
    simp only [Sources.ofKind] at hactions htypes
    omega
  have hsum := congrArg Tally.total (compare catalog config sources).overall_eq
  rw [Tally.total_add] at hsum
  simp only [Report.scopes, List.forall_mem_cons, List.not_mem_nil, false_implies, implies_true,
    and_true]
  refine ⟨(hfull.group .actions).percentage ?_, (hfull.group .types).percentage ?_,
    hfull.overall.percentage hoverall⟩
  · omega
  · omega

/-- A threshold that is read is finite. -/
theorem isFinite_of_readThreshold {text : String} {threshold : Binary64}
    (h : readThreshold text = .ok threshold) : threshold.isFinite := by
  unfold readThreshold at h
  split at h
  · cases h
  · rename_i x _
    split at h
    · cases h
    · rename_i haccepted
      obtain rfl := Except.ok.inj h
      simp only [Bool.or_eq_true, Bool.not_eq_true', not_or, Bool.not_eq_false] at haccepted
      exact haccepted.1

theorem shortfall?_hundred_iff {threshold : Binary64} (h : threshold.isFinite) :
    (shortfall? (.ofNat 100) (some threshold)).isSome ↔ 100 < threshold.value := by
  have hfinite : (Binary64.ofNat 100).isFinite := by rw [Binary64.ofNat_hundred]; rfl
  rw [shortfall?, ← Binary64.value_ofNat_hundred, ← Binary64.lt_iff_value_lt hfinite h]
  split
  · rename_i hlt
    simp [hlt]
  · rename_i hnot
    simp [hnot]

end ColumnAudit.Audit
