import ColumnAudit.NameSet

/-! # Maps from names

A map from names is held as its entries in ascending order of the names, each name once. As for
`NameSet`, the order is part of the type, so two maps with the same entries are equal.

Main statements: `find?_insert` says what an insertion does to look-ups, `find?_eq_some_iff` relates
look-ups and entries, and `NameMap.ext` is equality by look-ups.
-/

namespace ColumnAudit
set_option autoImplicit false

/-- A finite map from names, in ascending order of the names. -/
structure NameMap (α : Type) where
  entries : List (String × α)
  ascending : entries.Pairwise (·.1 < ·.1) := by simp
deriving DecidableEq

namespace NameMap
variable {α : Type}

/-- The map without entries. -/
def empty : NameMap α where entries := []

/-! ## Look-up -/

/-- The value of a name. -/
def find? (m : NameMap α) (x : String) : Option α := m.entries.lookup x

/-- Whether a name has a value. -/
def contains (m : NameMap α) (x : String) : Bool := (m.find? x).isSome

/-- The names that have a value, in ascending order. -/
def keys (m : NameMap α) : List String := m.entries.map (·.1)

/-- How many names have a value. -/
def size (m : NameMap α) : Nat := m.entries.length

/-- Whether no name has a value. -/
def isEmpty (m : NameMap α) : Bool := m.entries.isEmpty

/-! ## Insertion -/

/-- Puts an entry into an ascending list, in place of the one with the same name. -/
def insertList (x : String) (a : α) : List (String × α) → List (String × α)
  | [] => [(x, a)]
  | e :: es =>
    if x < e.1 then (x, a) :: e :: es
    else if x = e.1 then (x, a) :: es
    else e :: insertList x a es

theorem mem_insertList {x : String} {a : α} {l : List (String × α)} {e : String × α}
    (h : e ∈ insertList x a l) : e = (x, a) ∨ e ∈ l := by
  induction l with
  | nil => simpa [insertList] using h
  | cons y ys ih =>
    simp only [insertList] at h
    split at h
    · simpa using h
    · split at h
      · rcases List.mem_cons.1 h with h | h
        · exact .inl h
        · exact .inr (List.mem_cons_of_mem _ h)
      · rcases List.mem_cons.1 h with h | h
        · exact .inr (by simp [h])
        · rcases ih h with h | h
          · exact .inl h
          · exact .inr (List.mem_cons_of_mem _ h)

theorem insertList_ascending (x : String) (a : α) {l : List (String × α)}
    (h : l.Pairwise (·.1 < ·.1)) : (insertList x a l).Pairwise (·.1 < ·.1) := by
  induction l with
  | nil => simp [insertList]
  | cons e es ih =>
    have h' := List.pairwise_cons.1 h
    simp only [insertList]
    split
    · rename_i hlt
      refine List.pairwise_cons.2 ⟨fun z hz => ?_, h⟩
      rcases List.mem_cons.1 hz with rfl | hz
      · exact hlt
      · exact String.lt_trans hlt (h'.1 z hz)
    · split
      · rename_i heq
        refine List.pairwise_cons.2 ⟨fun z hz => ?_, h'.2⟩
        rw [show ((x, a) : String × α).1 = e.1 from heq]
        exact h'.1 z hz
      · rename_i hlt hne
        refine List.pairwise_cons.2 ⟨fun z hz => ?_, ih h'.2⟩
        rcases mem_insertList hz with rfl | hz
        · exact NameSet.lt_of_not_lt_of_ne hlt hne
        · exact h'.1 z hz

/-- The map in which `x` has the value `a`, whatever it had before. -/
def insert (m : NameMap α) (x : String) (a : α) : NameMap α where
  entries := insertList x a m.entries
  ascending := insertList_ascending x a m.ascending

/-- The map of a list of entries, the last one for a name in force. -/
def ofList (l : List (String × α)) : NameMap α := l.foldl (fun m e => m.insert e.1 e.2) empty

theorem lookup_cons {x z : String} {a : α} {l : List (String × α)} :
    ((x, a) :: l).lookup z = if z = x then some a else l.lookup z := by
  rw [List.lookup_cons]
  by_cases h : z = x
  · simp [h]
  · simp [beq_eq_false_iff_ne.2 h, h]

theorem lookup_insertList {x z : String} {a : α} {l : List (String × α)} :
    (insertList x a l).lookup z = if z = x then some a else l.lookup z := by
  induction l with
  | nil => simp [insertList, lookup_cons]
  | cons e es ih =>
    obtain ⟨y, b⟩ := e
    simp only [insertList]
    split
    · rw [lookup_cons]
    · split
      · rename_i heq
        subst heq
        rw [lookup_cons, lookup_cons]
        split <;> rfl
      · rename_i hlt hne
        rw [lookup_cons, lookup_cons, ih]
        by_cases h : z = y
        · rw [if_pos h, if_pos h, if_neg fun hz => hne (hz.symm.trans h)]
        · rw [if_neg h, if_neg h]

@[simp] theorem find?_insert {m : NameMap α} {x z : String} {a : α} :
    (m.insert x a).find? z = if z = x then some a else m.find? z := lookup_insertList

@[simp] theorem find?_empty (z : String) : (empty : NameMap α).find? z = none := rfl

/-! ## Entries and look-ups -/

theorem lookup_eq_some_iff {l : List (String × α)} (h : l.Pairwise (·.1 < ·.1)) {x : String}
    {a : α} : l.lookup x = some a ↔ (x, a) ∈ l := by
  induction l with
  | nil => simp
  | cons e es ih =>
    obtain ⟨y, b⟩ := e
    have h' := List.pairwise_cons.1 h
    by_cases hx : x = y
    · subst hx
      have hnot : ¬ (x, a) ∈ es := fun hm => String.lt_irrefl x (h'.1 _ hm)
      rw [lookup_cons, if_pos rfl]
      simp only [Option.some.injEq, List.mem_cons, Prod.mk.injEq, true_and, hnot, or_false]
      exact eq_comm
    · rw [lookup_cons, if_neg hx, ih h'.2]
      simp [hx]

theorem find?_eq_some_iff {m : NameMap α} {x : String} {a : α} :
    m.find? x = some a ↔ (x, a) ∈ m.entries := lookup_eq_some_iff m.ascending

/-- Two ascending entry lists with the same members are the same list. -/
theorem ascending_ext {l m : List (String × α)} (hl : l.Pairwise (·.1 < ·.1))
    (hm : m.Pairwise (·.1 < ·.1)) (h : ∀ e, e ∈ l ↔ e ∈ m) : l = m := by
  induction l generalizing m with
  | nil =>
    cases m with
    | nil => rfl
    | cons y ys => exact absurd ((h y).2 (by simp)) (by simp)
  | cons x xs ih =>
    cases m with
    | nil => exact absurd ((h x).1 (by simp)) (by simp)
    | cons y ys =>
      rw [List.pairwise_cons] at hl hm
      have hxy : x = y := by
        rcases List.mem_cons.1 ((h x).1 (by simp)) with h1 | h1
        · exact h1
        · rcases List.mem_cons.1 ((h y).2 (by simp)) with h2 | h2
          · exact h2.symm
          · exact absurd (String.lt_trans (hm.1 x h1) (hl.1 y h2)) (String.lt_irrefl _)
      subst hxy
      congr 1
      refine ih hl.2 hm.2 fun z => ⟨fun hz => ?_, fun hz => ?_⟩
      · rcases List.mem_cons.1 ((h z).1 (List.mem_cons_of_mem _ hz)) with h1 | h1
        · exact absurd (hl.1 z hz) (h1 ▸ String.lt_irrefl _)
        · exact h1
      · rcases List.mem_cons.1 ((h z).2 (List.mem_cons_of_mem _ hz)) with h1 | h1
        · exact absurd (hm.1 z hz) (h1 ▸ String.lt_irrefl _)
        · exact h1

/-- Maps with the same look-ups are equal. -/
theorem ext {m n : NameMap α} (h : ∀ x, m.find? x = n.find? x) : m = n := by
  have hm : ∀ e, e ∈ m.entries ↔ e ∈ n.entries := fun (x, a) => by
    rw [← find?_eq_some_iff, ← find?_eq_some_iff, h x]
  have := ascending_ext m.ascending n.ascending hm
  cases m; cases n; simp_all

/-- The same names with their values changed by `f`. -/
def map {β : Type} (f : α → β) (m : NameMap α) : NameMap β where
  entries := m.entries.map fun e => (e.1, f e.2)
  ascending := List.pairwise_map.2 m.ascending

end NameMap
end ColumnAudit
