import ColumnAudit.Text.Identifier
import Mathlib.Data.List.TakeWhile

/-! # Trimming and cutting texts with known parts

* `trimEnd_append` and its companions say how trimming acts on a text of two parts; `mem_trim_of_between`
  follows: what stands between two characters that are not blank is kept.
* `pieces_append_cons` takes off the piece before a separator, `pieces_intercalate` reads joined pieces
  back, and `lines_induction` goes from line to line.
* Characters of identifiers are not blank. `leading_eq_some_iff` says when a name stands at the front.
-/

namespace ColumnAudit.Text
set_option autoImplicit false

/-! ## Classes of characters -/

theorem toNat_lt_of_isNamePart {c : Char} (h : isNamePart c) : 48 ≤ c.toNat ∧ c.toNat < 128 := by
  have hclass : (c.isUpper || c.isLower || c.isDigit || c == '_') = true := h
  simp only [Bool.or_eq_true, beq_iff_eq] at hclass
  rcases hclass with ((hupper | hlower) | hdigit) | rfl
  · have hbounds : 65 ≤ c.toNat ∧ c.toNat ≤ 90 := of_decide_eq_true hupper
    omega
  · obtain ⟨hlo, hhi⟩ := (Bool.and_eq_true _ _).mp hlower
    have hlo' : 97 ≤ c.toNat := of_decide_eq_true hlo
    have hhi' : c.toNat ≤ 122 := of_decide_eq_true hhi
    omega
  · obtain ⟨hlo, hhi⟩ := (Bool.and_eq_true _ _).mp hdigit
    have hlo' : 48 ≤ c.toNat := of_decide_eq_true hlo
    have hhi' : c.toNat ≤ 57 := of_decide_eq_true hhi
    omega
  · decide

theorem isNamePart_of_isNameStart {c : Char} (h : isNameStart c) : isNamePart c := by
  simp only [isNameStart, isNamePart, Char.isAlphanum, Bool.or_eq_true] at h ⊢
  rcases h with h | h
  · exact .inl (.inl h)
  · exact .inr h

theorem not_isBlank_of_isNamePart {c : Char} (h : isNamePart c) : isBlank c = false := by
  have hbounds := toNat_lt_of_isNamePart h
  simp only [isBlank, Bool.or_eq_false_iff, Bool.and_eq_false_iff, decide_eq_false_iff_not,
    beq_eq_false_iff_ne]
  omega

theorem not_isNamePart_of_isBlank {c : Char} (h : isBlank c) : isNamePart c = false := by
  by_contra hpart
  rw [Bool.not_eq_false] at hpart
  rw [not_isBlank_of_isNamePart hpart] at h
  cases h

/-! ## Longest stretches -/

/-- A longest stretch at the front is found, and with it what comes behind. -/
theorem takeWhile_dropWhile_append {p : Char → Bool} {a : List Char} (ha : ∀ c ∈ a, p c)
    {b : List Char} (hb : ∀ c ∈ b.head?, p c = false) :
    (a ++ b).takeWhile p = a ∧ (a ++ b).dropWhile p = b := by
  rw [List.takeWhile_append_of_pos ha, List.dropWhile_append_of_pos ha]
  cases b with
  | nil => exact ⟨List.append_nil a, rfl⟩
  | cons c b =>
    have hc : p c = false := hb c rfl
    rw [List.takeWhile_cons, List.dropWhile_cons, hc]
    exact ⟨List.append_nil a, rfl⟩

/-- A longest stretch ends at a character that does not belong to it, whatever comes behind. -/
theorem takeWhile_dropWhile_append_cons {p : Char → Bool} {d : Char} (hd : p d = false)
    (a b : List Char) :
    (a ++ d :: b).takeWhile p = a.takeWhile p ∧
      (a ++ d :: b).dropWhile p = a.dropWhile p ++ d :: b := by
  induction a with
  | nil => simp [hd]
  | cons c a ih =>
    rw [List.cons_append, List.takeWhile_cons, List.takeWhile_cons, List.dropWhile_cons,
      List.dropWhile_cons]
    cases p c with
    | true => exact ⟨congrArg (List.cons c) ih.1, ih.2⟩
    | false => exact ⟨rfl, rfl⟩

theorem takeWhile_append_of_not_all {p : Char → Bool} {a : List Char} (ha : ∃ c ∈ a, p c = false)
    (b : List Char) : (a ++ b).takeWhile p = a.takeWhile p := by
  obtain ⟨c, hc, hp⟩ := ha
  obtain ⟨u, v, rfl⟩ := List.append_of_mem hc
  rw [List.append_assoc, List.cons_append, (takeWhile_dropWhile_append_cons hp u _).1,
    (takeWhile_dropWhile_append_cons hp u v).1]

theorem leading_append_cons {start part : Char → Bool} {d : Char} (hd : part d = false)
    {u : List Char} (hu : u ≠ []) (t : List Char) :
    leading start part (u ++ d :: t) =
      (leading start part u).map fun (name, rest) => (name, rest ++ d :: t) := by
  cases u with
  | nil => exact absurd rfl hu
  | cons c u =>
    obtain ⟨htake, hdrop⟩ := takeWhile_dropWhile_append_cons hd u t
    rw [List.cons_append, leading, leading, htake, hdrop]
    cases start c <;> rfl

/-- A longest stretch behind a first character. -/
theorem leading_eq_some_iff {start part : Char → Bool} {t name rest : List Char} :
    leading start part t = some (name, rest) ↔
      ∃ c cs, name = c :: cs ∧ start c ∧ (∀ d ∈ cs, part d) ∧ (∀ d ∈ rest.head?, part d = false) ∧
        t = name ++ rest := by
  constructor
  · intro h
    have happend := leading_append h
    cases t with
    | nil => cases h
    | cons c t =>
      rw [leading] at h
      split at h
      · rename_i hstart
        simp only [Option.some.injEq, Prod.mk.injEq] at h
        obtain ⟨rfl, rfl⟩ := h
        refine ⟨c, _, rfl, hstart, fun d hd => List.mem_takeWhile_imp hd, fun d hd => ?_,
          happend.symm⟩
        have hdrop := List.head?_dropWhile_not part t
        rw [Option.mem_def.1 hd] at hdrop
        simpa using hdrop
      · cases h
  · rintro ⟨c, cs, rfl, hstart, hparts, hrest, rfl⟩
    obtain ⟨htake, hdrop⟩ := takeWhile_dropWhile_append hparts hrest
    rw [List.cons_append, leading, if_pos hstart, htake, hdrop]

/-- A text that is a name as a whole. -/
def IsName (name : List Char) : Prop :=
  ∃ c cs, name = c :: cs ∧ isNameStart c ∧ ∀ d ∈ cs, isNamePart d

theorem IsName.isNamePart {name : List Char} (h : IsName name) : ∀ c ∈ name, isNamePart c := by
  obtain ⟨c, cs, rfl, hstart, hparts⟩ := h
  intro d hd
  rcases List.mem_cons.1 hd with rfl | hd
  · exact isNamePart_of_isNameStart hstart
  · exact hparts d hd

theorem leadingName_eq_some_iff {t name rest : List Char} :
    leadingName t = some (name, rest) ↔
      IsName name ∧ (∀ d ∈ rest.head?, isNamePart d = false) ∧ t = name ++ rest := by
  rw [leadingName, leading_eq_some_iff]
  constructor
  · rintro ⟨c, cs, hname, hstart, hparts, hrest, ht⟩
    exact ⟨⟨c, cs, hname, hstart, hparts⟩, hrest, ht⟩
  · rintro ⟨⟨c, cs, hname, hstart, hparts⟩, hrest, ht⟩
    exact ⟨c, cs, hname, hstart, hparts, hrest, ht⟩

/-! ## Trimming -/

theorem trimStart_append_of_blank {a : List Char} (ha : ∀ c ∈ a, isBlank c) (b : List Char) :
    trimStart (a ++ b) = trimStart b := List.dropWhile_append_of_pos ha

theorem trimStart_cons_of_not_blank {c : Char} (hc : isBlank c = false) (t : List Char) :
    trimStart (c :: t) = c :: t := by
  rw [trimStart, List.dropWhile_cons, hc]
  rfl

theorem trimStart_eq_nil_iff {t : List Char} : trimStart t = [] ↔ ∀ c ∈ t, isBlank c :=
  List.dropWhile_eq_nil_iff

theorem trimStart_ne_nil {t : List Char} (ht : ∃ c ∈ t, isBlank c = false) : trimStart t ≠ [] := by
  intro hnil
  obtain ⟨c, hc, hblank⟩ := ht
  rw [trimStart_eq_nil_iff.1 hnil c hc] at hblank
  cases hblank

/-- The blanks at the front and the text behind them. -/
theorem exists_blanks_append_trimStart (t : List Char) :
    ∃ blanks, (∀ c ∈ blanks, isBlank c) ∧ t = blanks ++ trimStart t :=
  ⟨t.takeWhile isBlank, fun _ hc => List.mem_takeWhile_imp hc,
    List.takeWhile_append_dropWhile.symm⟩

/-- A character that is not blank comes first behind the blanks. -/
theorem head?_trimStart_eq_some_iff {c : Char} (hc : isBlank c = false) {t : List Char} :
    (trimStart t).head? = some c ↔ ∃ blanks rest, (∀ d ∈ blanks, isBlank d) ∧ t = blanks ++ c :: rest := by
  constructor
  · intro h
    obtain ⟨blanks, hblanks, ht⟩ := exists_blanks_append_trimStart t
    obtain ⟨rest, hrest⟩ := List.head?_eq_some_iff.1 h
    exact ⟨blanks, rest, hblanks, by rw [← hrest]; exact ht⟩
  · rintro ⟨blanks, rest, hblanks, rfl⟩
    rw [trimStart_append_of_blank hblanks, trimStart_cons_of_not_blank hc]
    rfl

theorem trimStart_append_of_not_blank {a : List Char} (ha : ∃ c ∈ a, isBlank c = false)
    (b : List Char) : trimStart (a ++ b) = trimStart a ++ b := by
  obtain ⟨c, hc, hblank⟩ := ha
  have hne : ¬ (a.dropWhile isBlank).isEmpty := by
    rw [List.isEmpty_iff, List.dropWhile_eq_nil_iff]
    intro h
    rw [h c hc] at hblank
    cases hblank
  rw [trimStart, List.dropWhile_append, if_neg hne]
  rfl

theorem trimEnd_eq_nil_iff {t : List Char} : trimEnd t = [] ↔ ∀ c ∈ t, isBlank c := by
  rw [trimEnd, List.reverse_eq_nil_iff, List.dropWhile_eq_nil_iff]
  simp only [List.mem_reverse]

theorem trimEnd_append (a b : List Char) :
    trimEnd (a ++ b) = if trimEnd b = [] then trimEnd a else a ++ trimEnd b := by
  rw [trimEnd, List.reverse_append, List.dropWhile_append]
  by_cases h : trimEnd b = []
  · have hnil : b.reverse.dropWhile isBlank = [] := List.reverse_eq_nil_iff.1 h
    rw [if_pos h, hnil, List.isEmpty_nil, if_pos rfl, trimEnd]
  · have hnil : ¬ (b.reverse.dropWhile isBlank).isEmpty := by
      rw [List.isEmpty_iff, ← List.reverse_eq_nil_iff]
      exact h
    rw [if_neg h, if_neg hnil, List.reverse_append, List.reverse_reverse, trimEnd]

theorem trimEnd_cons_of_not_blank {c : Char} (hc : isBlank c = false) (t : List Char) :
    trimEnd (c :: t) = c :: trimEnd t := by
  have hone : trimEnd [c] = [c] := by simp [trimEnd, hc]
  rw [← List.singleton_append, trimEnd_append, hone]
  by_cases h : trimEnd t = []
  · rw [if_pos h, h]
  · rw [if_neg h, List.singleton_append]

theorem trimEnd_append_of_not_blank {a : List Char} (ha : ∀ c ∈ a, isBlank c = false)
    (b : List Char) : trimEnd (a ++ b) = a ++ trimEnd b := by
  induction a with
  | nil => rfl
  | cons c a ih =>
    rw [List.cons_append, trimEnd_cons_of_not_blank (ha c (by simp)),
      ih fun d hd => ha d (List.mem_cons_of_mem c hd), List.cons_append]

theorem trim_append_of_blank {a : List Char} (ha : ∀ c ∈ a, isBlank c) (b : List Char) :
    trim (a ++ b) = trim b := by
  rw [trim, trimStart_append_of_blank ha, trim]

theorem trim_cons_of_not_blank {c : Char} (hc : isBlank c = false) (t : List Char) :
    trim (c :: t) = c :: trimEnd t := by
  rw [trim, trimStart_cons_of_not_blank hc, trimEnd_cons_of_not_blank hc]

theorem trimEnd_prefix_self (t : List Char) : trimEnd t <+: t := by
  have h : t.reverse.dropWhile isBlank <:+ t.reverse := List.dropWhile_suffix isBlank
  rw [← List.reverse_prefix, List.reverse_reverse] at h
  exact h

theorem isBlank_getLast?_trimEnd (t : List Char) :
    ∀ c ∈ (trimEnd t).getLast?, isBlank c = false := by
  intro c hc
  rw [trimEnd, List.getLast?_reverse] at hc
  have hfirst := List.head?_dropWhile_not isBlank t.reverse
  rw [Option.mem_def.1 hc] at hfirst
  simpa using hfirst

/-- Trimming at the end leaves the first character, unless only blanks are left to trim. -/
theorem head?_trimEnd_cons (d : Char) (q : List Char) :
    (trimEnd (d :: q)).head? = some d ∨ (isBlank d = true ∧ trimEnd (d :: q) = []) := by
  cases htrim : trimEnd (d :: q) with
  | nil =>
    have hblank := trimEnd_eq_nil_iff.1 htrim
    exact .inr ⟨hblank d (List.mem_cons_self ..), rfl⟩
  | cons e s =>
    have hprefix := trimEnd_prefix_self (d :: q)
    rw [htrim] at hprefix
    rw [(List.cons_prefix_cons.1 hprefix).1]
    exact .inl rfl

theorem trim_eq_nil_of_blank {t : List Char} (h : ∀ c ∈ t, isBlank c) : trim t = [] := by
  rw [trim, trimStart_eq_nil_iff.2 h]
  rfl

theorem trim_append_of_blank_end {b : List Char} (hb : ∀ c ∈ b, isBlank c) (a : List Char) :
    trim (a ++ b) = trim a := by
  by_cases ha : ∀ c ∈ a, isBlank c
  · rw [trim_append_of_blank ha, trim_eq_nil_of_blank ha, trim_eq_nil_of_blank hb]
  · simp only [not_forall, Bool.not_eq_true, exists_prop] at ha
    rw [trim, trimStart_append_of_not_blank ha, trimEnd_append, if_pos (trimEnd_eq_nil_iff.2 hb), trim]

/-- A text is its trimmed text with blanks around it. -/
theorem exists_blanks_append_trim (t : List Char) :
    ∃ a b, (∀ c ∈ a, isBlank c) ∧ (∀ c ∈ b, isBlank c) ∧ t = a ++ (trim t ++ b) := by
  obtain ⟨a, ha, ht⟩ := exists_blanks_append_trimStart t
  obtain ⟨b, hb, hend⟩ := exists_blanks_append_trimStart (trimStart t).reverse
  refine ⟨a, b.reverse, ha, fun c hc => hb c (List.mem_reverse.1 hc), ?_⟩
  have hback := congrArg List.reverse hend
  rw [List.reverse_reverse, List.reverse_append] at hback
  rw [trim, trimEnd, ← trimStart, ← hback]
  exact ht

theorem mem_of_mem_trim {c : Char} {t : List Char} (h : c ∈ trim t) : c ∈ t := by
  obtain ⟨a, b, -, -, ht⟩ := exists_blanks_append_trim t
  rw [ht]
  exact List.mem_append_right a (List.mem_append_left b h)

/-- A front that does not end in a blank is not touched by trimming at the end. -/
theorem prefix_trimEnd {v t : List Char} (hv : v <+: t) (hlast : ∀ c ∈ v.getLast?, isBlank c = false) :
    v <+: trimEnd t := by
  obtain ⟨x, rfl⟩ := hv
  have hkept : trimEnd v = v := by
    rw [trimEnd]
    cases hreverse : v.reverse with
    | nil => rw [List.reverse_eq_nil_iff.1 hreverse]; rfl
    | cons c cs =>
      have hc : isBlank c = false := hlast c (by rw [← List.head?_reverse, hreverse]; rfl)
      rw [List.dropWhile_cons, hc, ← hreverse]
      exact List.reverse_reverse v
  rw [trimEnd_append]
  split
  · exact ⟨[], by rw [hkept, List.append_nil]⟩
  · exact List.prefix_append v _

/-- What stands between two characters that are not blank is kept. -/
theorem mem_trim_of_between {a b : List Char} (ha : ∃ c ∈ a, isBlank c = false)
    (hb : ∃ c ∈ b, isBlank c = false) (c : Char) : c ∈ trim (a ++ c :: b) := by
  obtain ⟨d, hd, hblank⟩ := hb
  have hend : ¬ trimEnd (c :: b) = [] := by
    intro h
    rw [trimEnd_eq_nil_iff.1 h d (List.mem_cons_of_mem c hd)] at hblank
    cases hblank
  have hcons : c ∈ trimEnd (c :: b) := by
    have hprefix := trimEnd_prefix_self (c :: b)
    cases ht : trimEnd (c :: b) with
    | nil => exact absurd ht hend
    | cons e t =>
      rw [ht] at hprefix
      rw [(List.cons_prefix_cons.1 hprefix).1]
      exact List.mem_cons_self
  rw [trim, trimStart_append_of_not_blank ha, trimEnd_append, if_neg hend]
  exact List.mem_append_right _ hcons

/-! ## Pieces -/

theorem pieces_of_not_mem {sep : Char} {t : List Char} (h : sep ∉ t) : pieces sep t = [t] := by
  induction t with
  | nil => rfl
  | cons c t ih =>
    have hc : c ≠ sep := fun hc => h (by simp [hc])
    have ht : sep ∉ t := fun ht => h (List.mem_cons_of_mem c ht)
    rw [pieces, if_neg hc, ih ht]

theorem pieces_append_cons {sep : Char} {a : List Char} (h : sep ∉ a) (b : List Char) :
    pieces sep (a ++ sep :: b) = a :: pieces sep b := by
  induction a with
  | nil => simp [pieces]
  | cons c a ih =>
    have hc : c ≠ sep := fun hc => h (by simp [hc])
    have ha : sep ∉ a := fun ha => h (List.mem_cons_of_mem c ha)
    rw [List.cons_append, pieces, if_neg hc, ih ha]

/-- A separator between two texts parts their pieces. -/
theorem pieces_append (sep : Char) (a b : List Char) :
    pieces sep (a ++ sep :: b) = pieces sep a ++ pieces sep b := by
  induction a with
  | nil => simp [pieces]
  | cons c a ih =>
    rw [List.cons_append]
    by_cases hc : c = sep
    · subst hc
      simp [pieces, ih]
    · obtain ⟨p, ps, hpieces, hcons⟩ := pieces_cons_of_ne hc a
      rw [hcons, pieces, if_neg hc, ih, hpieces]
      rfl

/-- What holds of a single line, and of a text behind one more line, holds of every text. -/
@[elab_as_elim]
theorem lines_induction {P : List Char → Prop} (last : ∀ line, '\n' ∉ line → P line)
    (next : ∀ line t, '\n' ∉ line → P t → P (line ++ '\n' :: t)) (t : List Char) : P t := by
  induction hn : t.length using Nat.strong_induction_on generalizing t with
  | _ n ih =>
    by_cases hbreak : '\n' ∈ t
    · obtain ⟨line, rest, rfl, hline⟩ := List.eq_append_cons_of_mem hbreak
      rw [List.length_append, List.length_cons] at hn
      exact next line rest hline (ih rest.length (by omega) rest rfl)
    · exact last t hbreak

theorem forall_mem_intercalate {p : Char → Prop} {sep : List Char} {ps : List (List Char)}
    (hsep : ∀ c ∈ sep, p c) (h : ∀ w ∈ ps, ∀ c ∈ w, p c) : ∀ c ∈ sep.intercalate ps, p c := by
  induction ps with
  | nil => simp
  | cons w ps ih =>
    have hrest := ih fun v hv => h v (List.mem_cons_of_mem w hv)
    cases ps with
    | nil => simpa using h
    | cons v ps =>
      intro c hc
      rw [List.intercalate_cons_cons, List.append_assoc, List.mem_append, List.mem_append] at hc
      rcases hc with hc | hc | hc
      · exact h w (by simp) c hc
      · exact hsep c hc
      · exact hrest c hc

/-- Joined pieces are read back. -/
theorem pieces_intercalate {sep : Char} {ps : List (List Char)} (hps : ps ≠ [])
    (h : ∀ p ∈ ps, sep ∉ p) : pieces sep ([sep].intercalate ps) = ps := by
  induction ps with
  | nil => exact absurd rfl hps
  | cons p ps ih =>
    have hp : sep ∉ p := h p (by simp)
    cases ps with
    | nil => rw [List.intercalate_singleton, pieces_of_not_mem hp]
    | cons q ps =>
      rw [List.intercalate_cons_cons, List.append_assoc, List.singleton_append,
        pieces_append_cons hp, ih (by simp) fun r hr => h r (List.mem_cons_of_mem p hr)]

end ColumnAudit.Text
