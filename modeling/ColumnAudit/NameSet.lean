/-! # Sets of names

A set of names is held in ascending order of code points, each name once. The order is part of the
type, so two sets with the same members are equal (`NameSet.ext`), and what a report lists is the
set itself.

Main statements: `mem_insert`, `mem_ofList`, `mem_union`, `mem_filter`, `mem_diff`.
-/

namespace ColumnAudit
set_option autoImplicit false

/-- A finite set of names, in ascending order. -/
structure NameSet where
  toList : List String
  ascending : toList.Pairwise (· < ·) := by simp
deriving DecidableEq

namespace NameSet

instance : Membership String NameSet := ⟨fun s x => x ∈ s.toList⟩

instance (x : String) (s : NameSet) : Decidable (x ∈ s) :=
  inferInstanceAs (Decidable (x ∈ s.toList))

theorem mem_toList {x : String} {s : NameSet} : x ∈ s.toList ↔ x ∈ s := Iff.rfl

/-! ## Order of names -/

theorem lt_of_not_lt_of_ne {x y : String} (h : ¬ x < y) (hne : x ≠ y) : y < x := by
  rcases Std.lt_trichotomy x y with h1 | h1 | h1
  · exact absurd h1 h
  · exact absurd h1 hne
  · exact h1

/-- Two ascending lists with the same members are the same list. -/
theorem ascending_ext {l m : List String} (hl : l.Pairwise (· < ·)) (hm : m.Pairwise (· < ·))
    (h : ∀ x, x ∈ l ↔ x ∈ m) : l = m := by
  induction l generalizing m with
  | nil =>
    cases m with
    | nil => rfl
    | cons y ys => exact absurd ((h y).2 (by simp)) (by simp)
  | cons x xs ih =>
    cases m with
    | nil => exact absurd ((h x).1 (by simp)) (by simp)
    | cons y ys =>
      rw [List.pairwise_cons] at hl hm
      have hxy : x = y := by
        rcases List.mem_cons.1 ((h x).1 (by simp)) with h1 | h1
        · exact h1
        · rcases List.mem_cons.1 ((h y).2 (by simp)) with h2 | h2
          · exact h2.symm
          · exact absurd (String.lt_trans (hm.1 x h1) (hl.1 y h2)) (String.lt_irrefl y)
      subst hxy
      congr 1
      refine ih hl.2 hm.2 fun z => ⟨fun hz => ?_, fun hz => ?_⟩
      · rcases List.mem_cons.1 ((h z).1 (List.mem_cons_of_mem _ hz)) with h1 | h1
        · exact absurd (hl.1 z hz) (h1 ▸ String.lt_irrefl z)
        · exact h1
      · rcases List.mem_cons.1 ((h z).2 (List.mem_cons_of_mem _ hz)) with h1 | h1
        · exact absurd (hm.1 z hz) (h1 ▸ String.lt_irrefl z)
        · exact h1

/-- Sets with the same members are equal. -/
theorem ext {s t : NameSet} (h : ∀ x, x ∈ s ↔ x ∈ t) : s = t := by
  have := ascending_ext s.ascending t.ascending h
  cases s; cases t; simp_all

/-! ## Building sets -/

/-- The set without members. -/
def empty : NameSet where toList := []

theorem not_mem_empty (x : String) : ¬ x ∈ empty := fun h => by cases h

/-- Puts a name into an ascending list, unless it is there. -/
def insertList (x : String) : List String → List String
  | [] => [x]
  | y :: ys => if x < y then x :: y :: ys else if x = y then y :: ys else y :: insertList x ys

theorem mem_insertList {x z : String} {l : List String} :
    z ∈ insertList x l ↔ z = x ∨ z ∈ l := by
  induction l with
  | nil => simp [insertList]
  | cons y ys ih =>
    simp only [insertList]
    split
    · simp
    · split
      · rename_i h
        subst h
        simp
      · simp only [List.mem_cons, ih]
        constructor <;> (rintro (h | h | h) <;> simp [h])

theorem insertList_ascending (x : String) {l : List String} (h : l.Pairwise (· < ·)) :
    (insertList x l).Pairwise (· < ·) := by
  induction l with
  | nil => simp [insertList]
  | cons y ys ih =>
    rw [List.pairwise_cons] at h
    simp only [insertList]
    split
    · rename_i hxy
      rw [List.pairwise_cons, List.pairwise_cons]
      refine ⟨fun z hz => ?_, h⟩
      rcases List.mem_cons.1 hz with rfl | hz
      · exact hxy
      · exact String.lt_trans hxy (h.1 z hz)
    · split
      · exact List.pairwise_cons.2 h
      · rename_i hlt hne
        refine List.pairwise_cons.2 ⟨fun z hz => ?_, ih h.2⟩
        rcases mem_insertList.1 hz with rfl | hz
        · exact lt_of_not_lt_of_ne hlt hne
        · exact h.1 z hz

/-- The set with one more name. -/
def insert (s : NameSet) (x : String) : NameSet where
  toList := insertList x s.toList
  ascending := insertList_ascending x s.ascending

@[simp] theorem mem_insert {s : NameSet} {x z : String} : z ∈ s.insert x ↔ z = x ∨ z ∈ s :=
  mem_insertList

/-- The set of the names in a list. -/
def ofList (l : List String) : NameSet := l.foldl insert empty

theorem mem_foldl_insert {l : List String} {s : NameSet} {x : String} :
    x ∈ l.foldl insert s ↔ x ∈ s ∨ x ∈ l := by
  induction l generalizing s with
  | nil => simp
  | cons y ys ih =>
    rw [List.foldl_cons, ih, mem_insert, List.mem_cons]
    constructor
    · rintro ((h | h) | h) <;> simp [h]
    · rintro (h | h | h) <;> simp [h]

@[simp] theorem mem_ofList {l : List String} {x : String} : x ∈ ofList l ↔ x ∈ l := by
  rw [ofList, mem_foldl_insert]
  simp [not_mem_empty]

/-- Adds every name of a list. -/
def insertMany (s : NameSet) (l : List String) : NameSet := l.foldl insert s

@[simp] theorem mem_insertMany {s : NameSet} {l : List String} {x : String} :
    x ∈ s.insertMany l ↔ x ∈ s ∨ x ∈ l := mem_foldl_insert

/-- The names of either set. -/
def union (s t : NameSet) : NameSet := s.insertMany t.toList

@[simp] theorem mem_union {s t : NameSet} {x : String} : x ∈ s.union t ↔ x ∈ s ∨ x ∈ t :=
  mem_insertMany

/-! ## Parts of sets -/

/-- The members that pass a test. -/
def filter (p : String → Bool) (s : NameSet) : NameSet where
  toList := s.toList.filter p
  ascending := s.ascending.filter p

@[simp] theorem mem_filter {p : String → Bool} {s : NameSet} {x : String} :
    x ∈ s.filter p ↔ x ∈ s ∧ p x = true := List.mem_filter

/-- The names of the first set that the second does not hold. -/
def diff (s t : NameSet) : NameSet := s.filter fun x => !t.toList.contains x

@[simp] theorem mem_diff {s t : NameSet} {x : String} : x ∈ s.diff t ↔ x ∈ s ∧ ¬ x ∈ t := by
  rw [diff, mem_filter]
  simp [← mem_toList]

/-- How many names a set holds. -/
def size (s : NameSet) : Nat := s.toList.length

/-- Whether the set holds no name. -/
def isEmpty (s : NameSet) : Bool := s.toList.isEmpty

/-- The names, separated by a comma and a space. -/
def listed (s : NameSet) : String := ", ".intercalate s.toList

end NameSet
end ColumnAudit
