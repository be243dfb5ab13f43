import ColumnAudit.NameMap
import Mathlib.Data.List.Nodup
import Mathlib.Data.List.Perm.Subperm

/-! # Sets and maps made from lists

* How many names a set can hold: `size_le_of_subset`, `size_filter_le`, `size_insertMany_le`.
* `NameMap.find?_ofList`: in the map of a list of entries, the last entry of a name is in force.
* A list of entries falls apart into those that a later one replaces (`replaced`) and those that last
  (`lasting`). The map holds exactly the second (`NameMap.entries_ofList_perm`), and nothing of the
  list is lost (`replaced_append_lasting_perm`).
* If no name comes twice, nothing is replaced, so the order of the list does not show in the map
  (`NameMap.ofList_eq_of_perm`) and one entry more is put at its place among the others
  (`NameMap.entries_insert_of_not_mem`).
-/

namespace ColumnAudit
set_option autoImplicit false

/-! ## Sizes of sets -/

namespace NameSet

theorem eq_empty_iff {s : NameSet} : s = .empty ↔ ∀ x, ¬ x ∈ s := by
  constructor
  · rintro rfl x
    exact not_mem_empty x
  · intro h
    exact ext fun x => ⟨fun hx => absurd hx (h x), fun hx => absurd hx (not_mem_empty x)⟩

instance : HasSubset NameSet := ⟨fun s t => ∀ x, x ∈ s → x ∈ t⟩

theorem ofList_toList (s : NameSet) : ofList s.toList = s :=
  ext fun _ => mem_ofList.trans mem_toList

theorem nodup (s : NameSet) : s.toList.Nodup := by
  refine s.ascending.imp ?_
  intro x y hlt heq
  rw [heq] at hlt
  exact String.lt_irrefl y hlt

theorem size_le_of_subset {s t : NameSet} (h : s ⊆ t) : s.size ≤ t.size :=
  (List.subperm_of_subset s.nodup h).length_le

theorem size_filter_le (p : String → Bool) (s : NameSet) : (s.filter p).size ≤ s.size :=
  List.length_filter_le p s.toList

theorem length_insertList_le (x : String) (l : List String) :
    (insertList x l).length ≤ l.length + 1 := by
  induction l with
  | nil => simp [insertList]
  | cons y ys ih =>
    rw [insertList]
    split
    · simp
    · split
      · simp
      · simpa using ih

theorem size_insertMany_le (s : NameSet) (l : List String) :
    (s.insertMany l).size ≤ s.size + l.length := by
  induction l generalizing s with
  | nil => exact Nat.le_refl _
  | cons x l ih =>
    have hone : (s.insert x).size ≤ s.size + 1 := length_insertList_le x s.toList
    have hmany : ((s.insert x).insertMany l).size ≤ (s.insert x).size + l.length := ih (s.insert x)
    have hcons : s.insertMany (x :: l) = (s.insert x).insertMany l := rfl
    rw [hcons, List.length_cons]
    omega

end NameSet

/-! ## Entries that last -/

section Entries
variable {α : Type}

/-- The entries of a list that a later entry of the same name replaces. -/
def replaced : List (String × α) → List (String × α)
  | [] => []
  | e :: es => if e.1 ∈ es.map Prod.fst then e :: replaced es else replaced es

/-- The last entry of each name in a list. -/
def lasting : List (String × α) → List (String × α)
  | [] => []
  | e :: es => if e.1 ∈ es.map Prod.fst then lasting es else e :: lasting es

theorem replaced_append_lasting_perm (l : List (String × α)) :
    (replaced l ++ lasting l).Perm l := by
  induction l with
  | nil => exact .refl _
  | cons e es ih =>
    rw [replaced, lasting]
    split
    · exact ih.cons e
    · exact List.perm_middle.trans (ih.cons e)

/-- Something holds of all replaced entries if it holds of every entry with its name further on. -/
theorem forall_mem_replaced_iff {l : List (String × α)} {P : String × α → Prop} :
    (∀ e ∈ replaced l, P e) ↔ l.Pairwise fun e later => e.1 = later.1 → P e := by
  induction l with
  | nil => simp [replaced]
  | cons e es ih =>
    rw [replaced, List.pairwise_cons, ← ih]
    split
    · rename_i hmem
      obtain ⟨later, hlater, hname⟩ := List.mem_map.1 hmem
      constructor
      · intro h
        exact ⟨fun _ _ _ => h e (by simp), fun d hd => h d (List.mem_cons_of_mem e hd)⟩
      · rintro ⟨hhead, htail⟩ d hd
        rcases List.mem_cons.1 hd with rfl | hd
        · exact hhead later hlater hname.symm
        · exact htail d hd
    · rename_i hmem
      constructor
      · intro h
        exact ⟨fun later hlater hname => absurd (List.mem_map.2 ⟨later, hlater, hname.symm⟩) hmem, h⟩
      · exact And.right

theorem find?_reverse_isSome_iff {l : List (String × α)} {x : String} :
    (l.reverse.find? fun e => e.1 == x).isSome ↔ x ∈ l.map Prod.fst := by
  simp only [List.find?_isSome, List.mem_reverse, beq_iff_eq, List.mem_map]

theorem mem_lasting_iff {l : List (String × α)} {e : String × α} :
    e ∈ lasting l ↔ (l.reverse.find? fun d => d.1 == e.1) = some e := by
  induction l with
  | nil => simp [lasting]
  | cons d ds ih =>
    rw [lasting, List.reverse_cons, List.find?_append, Option.or_eq_some_iff]
    by_cases hmem : d.1 ∈ ds.map Prod.fst
    · rw [if_pos hmem, ih]
      constructor
      · exact .inl
      · rintro (h | ⟨hnone, h⟩)
        · exact h
        · obtain ⟨hname, rfl⟩ : d.1 = e.1 ∧ d = e := by simpa using h
          have hsome := find?_reverse_isSome_iff.2 hmem
          rw [hnone] at hsome
          cases hsome
    · rw [if_neg hmem, List.mem_cons, ih]
      constructor
      · rintro (rfl | h)
        · refine .inr ⟨?_, by simp⟩
          rw [← Option.not_isSome_iff_eq_none, find?_reverse_isSome_iff]
          exact hmem
        · exact .inl h
      · rintro (h | ⟨-, h⟩)
        · exact .inr h
        · obtain ⟨-, rfl⟩ : d.1 = e.1 ∧ d = e := by simpa using h
          exact .inl rfl

/-- Among different names nothing is replaced. -/
theorem lasting_eq_self {l : List (String × α)} (h : (l.map Prod.fst).Nodup) : lasting l = l := by
  induction l with
  | nil => rfl
  | cons e es ih =>
    rw [List.map_cons, List.nodup_cons] at h
    rw [lasting, if_neg h.1, ih h.2]

theorem lasting_nodup (l : List (String × α)) : (lasting l).Nodup := by
  induction l with
  | nil => exact List.nodup_nil
  | cons e es ih =>
    rw [lasting]
    split
    · exact ih
    · rename_i hmem
      refine List.nodup_cons.2 ⟨fun h => hmem ?_, ih⟩
      exact List.mem_map_of_mem ((replaced_append_lasting_perm es).subset (by simp [h]))

end Entries

/-! ## The map of a list -/

namespace NameMap
variable {α : Type}

theorem find?_foldl_insert (l : List (String × α)) (m : NameMap α) (x : String) :
    (l.foldl (fun m e => m.insert e.1 e.2) m).find? x =
      ((l.reverse.find? fun e => e.1 == x).map Prod.snd).or (m.find? x) := by
  induction l generalizing m with
  | nil => rfl
  | cons e es ih =>
    rw [List.foldl_cons, ih, find?_insert, List.reverse_cons, List.find?_append]
    cases es.reverse.find? fun e => e.1 == x with
    | some last => rfl
    | none =>
      by_cases h : x = e.1
      · simp [h]
      · have h' : ¬ e.1 = x := fun heq => h heq.symm
        simp [h, h']

/-- The last entry of a name is in force. -/
theorem find?_ofList (l : List (String × α)) (x : String) :
    (ofList l).find? x = (l.reverse.find? fun e => e.1 == x).map Prod.snd := by
  rw [ofList, find?_foldl_insert, find?_empty, Option.or_none]

theorem keys_nodup (m : NameMap α) : m.keys.Nodup := by
  refine List.pairwise_map.2 (m.ascending.imp ?_)
  intro d e hlt heq
  rw [heq] at hlt
  exact String.lt_irrefl _ hlt

theorem entries_nodup (m : NameMap α) : m.entries.Nodup := List.Nodup.of_map _ m.keys_nodup

/-- The map of a list holds the entries that last. -/
theorem entries_ofList_perm (l : List (String × α)) : (ofList l).entries.Perm (lasting l) := by
  refine (List.perm_ext_iff_of_nodup (entries_nodup _) (lasting_nodup l)).2 fun e => ?_
  obtain ⟨x, a⟩ := e
  rw [← find?_eq_some_iff, find?_ofList, mem_lasting_iff, Option.map_eq_some_iff]
  constructor
  · rintro ⟨⟨y, b⟩, hfind, rfl⟩
    have hname : y = x := by simpa using List.find?_some hfind
    rw [hname] at hfind
    exact hfind
  · intro hfind
    exact ⟨(x, a), hfind, rfl⟩

theorem ofList_entries (m : NameMap α) : ofList m.entries = m := by
  have hperm := entries_ofList_perm m.entries
  rw [lasting_eq_self m.keys_nodup] at hperm
  refine ext fun x => Option.ext fun a => ?_
  rw [find?_eq_some_iff, find?_eq_some_iff]
  exact hperm.mem_iff

theorem ofList_eq_of_perm {l l' : List (String × α)} (hnames : (l.map Prod.fst).Nodup)
    (hperm : l.Perm l') : ofList l = ofList l' := by
  have hnames' : (l'.map Prod.fst).Nodup := (hperm.map Prod.fst).nodup_iff.1 hnames
  have hl := entries_ofList_perm l
  have hl' := entries_ofList_perm l'
  rw [lasting_eq_self hnames] at hl
  rw [lasting_eq_self hnames'] at hl'
  refine ext fun x => Option.ext fun a => ?_
  rw [find?_eq_some_iff, find?_eq_some_iff]
  exact (hl.trans (hperm.trans hl'.symm)).mem_iff

/-- One entry more among different names, wherever it stands in the list. -/
theorem ofList_append_cons {l l' : List (String × α)} {e : String × α}
    (hnames : ((l ++ l').map Prod.fst).Nodup) (hfresh : e.1 ∉ (l ++ l').map Prod.fst) :
    ofList (l ++ e :: l') = (ofList (l ++ l')).insert e.1 e.2 := by
  have hperm : (l ++ e :: l').Perm (l ++ l' ++ [e]) :=
    List.perm_middle.trans (List.perm_append_singleton e (l ++ l')).symm
  have hall : ((l ++ e :: l').map Prod.fst).Nodup := by
    rw [(List.perm_middle.map Prod.fst).nodup_iff, List.map_cons, List.nodup_cons]
    exact ⟨hfresh, hnames⟩
  rw [ofList_eq_of_perm hall hperm, ofList, List.foldl_append]
  rfl

/-- A new entry stands among the old ones, which stay as they are. -/
theorem entries_insert_of_not_mem {m : NameMap α} {x : String} (h : x ∉ m.keys) (a : α) :
    ∃ front back, m.entries = front ++ back ∧
      (m.insert x a).entries = front ++ (x, a) :: back := by
  have hlist : ∀ l : List (String × α), x ∉ l.map (·.1) →
      ∃ front back, l = front ++ back ∧ insertList x a l = front ++ (x, a) :: back := by
    intro l
    induction l with
    | nil => exact fun _ => ⟨[], [], rfl, rfl⟩
    | cons e es ih =>
      intro hx
      rw [List.map_cons, List.mem_cons, not_or] at hx
      rw [insertList]
      split
      · exact ⟨[], e :: es, rfl, rfl⟩
      · obtain ⟨front, back, hes, hinsert⟩ := ih hx.2
        refine ⟨e :: front, back, by rw [hes, List.cons_append], ?_⟩
        rw [if_neg hx.1, hinsert, List.cons_append]
  exact hlist m.entries h

theorem mem_of_mem_entries_ofList {l : List (String × α)} {e : String × α}
    (h : e ∈ (ofList l).entries) : e ∈ l :=
  (replaced_append_lasting_perm l).subset
    (List.mem_append_right _ ((entries_ofList_perm l).subset h))

end NameMap
end ColumnAudit
