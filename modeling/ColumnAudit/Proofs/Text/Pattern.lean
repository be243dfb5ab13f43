import ColumnAudit.Proofs.Text.Word
import ColumnAudit.Text.Pattern

/-! # What patterns find

`Takes` says which stretches a pattern can take up, without an order of trying. An attempt that succeeds
has come to the end of one of them (`exists_takes_of_attempt`), and it does succeed if what has to come
behind does so at any of them (`isSome_attempt_of_takes`). A pattern without boundaries takes up the words
of a language wherever they stand (`Reads`).

If all words of such a language are made of word characters, a match between two boundaries has no
choice where to end: it takes up a whole word of the text. So a search for whole words finds the words of
the text that belong to the language, each of them once and in order (`found_wholeWord`). The same holds
if something else has to come behind the word, as long as it is no word character (`searchFrom_words`).
-/

namespace ColumnAudit.Text
set_option autoImplicit false

/-! ## Places -/

/-- The place behind a stretch of text. -/
def Place.after (s : Place) (word rest : List Char) : Place :=
  ⟨word.getLast?.or s.previous, rest, s.taken + word.length⟩

@[simp] theorem Place.behind_after (s : Place) (word rest : List Char) :
    (s.after word rest).behind = rest := rfl

@[simp] theorem Place.taken_after (s : Place) (word rest : List Char) :
    (s.after word rest).taken = s.taken + word.length := rfl

theorem Place.after_nil (s : Place) : s.after [] s.behind = s := rfl

theorem Place.after_after (s : Place) (v w rest middle : List Char) :
    (s.after v middle).after w rest = s.after (v ++ w) rest := by
  unfold after
  rw [List.getLast?_append, Option.or_assoc, List.length_append, Nat.add_assoc]

namespace Pattern

/-! ## Ends of matches -/

/-- A pattern can take up what stands between two places. -/
inductive Takes : Pattern → Place → Place → Prop where
  | one {p : Char → Bool} {previous : Option Char} {c : Char} {cs : List Char} {taken : Nat}
      (h : p c = true) : Takes (.one p) ⟨previous, c :: cs, taken⟩ ⟨some c, cs, taken + 1⟩
  | nothing {s : Place} : Takes .nothing s s
  | boundary {s : Place} (h : s.isBoundary = true) : Takes .boundary s s
  | lineStart {s : Place} (h : s.isLineStart = true) : Takes .lineStart s s
  | seq {p q : Pattern} {s m e : Place} (hp : Takes p s m) (hq : Takes q m e) : Takes (.seq p q) s e
  | left {p q : Pattern} {s e : Place} (h : Takes p s e) : Takes (.either p q) s e
  | right {p q : Pattern} {s e : Place} (h : Takes q s e) : Takes (.either p q) s e
  | last {p : Pattern} {s e : Place} (h : Takes p s e) : Takes (.many p) s e
  | more {p : Pattern} {s m e : Place} (h : Takes p s m) (hmore : Takes (.many p) m e) :
      Takes (.many p) s e
  | stop {p : Pattern} {s : Place} : Takes (.few p) s s
  | again {p : Pattern} {s m e : Place} (h : Takes p s m) (hmore : Takes (.few p) m e) :
      Takes (.few p) s e

theorem takes_boundary_iff {s e : Place} : Takes .boundary s e ↔ s.isBoundary = true ∧ e = s := by
  constructor
  · intro h
    cases h with
    | boundary hs => exact ⟨hs, rfl⟩
  · rintro ⟨hs, rfl⟩
    exact .boundary hs

theorem takes_lineStart_iff {s e : Place} : Takes .lineStart s e ↔ s.isLineStart = true ∧ e = s := by
  constructor
  · intro h
    cases h with
    | lineStart hs => exact ⟨hs, rfl⟩
  · rintro ⟨hs, rfl⟩
    exact .lineStart hs

theorem takes_seq_iff {p q : Pattern} {s e : Place} :
    Takes (.seq p q) s e ↔ ∃ m, Takes p s m ∧ Takes q m e := by
  constructor
  · intro h
    cases h with
    | seq hp hq => exact ⟨_, hp, hq⟩
  · rintro ⟨m, hp, hq⟩
    exact .seq hp hq

theorem Takes.exists_after {p : Pattern} {s e : Place} (h : Takes p s e) :
    ∃ w, s.behind = w ++ e.behind ∧ e = s.after w e.behind := by
  induction h with
  | one h => exact ⟨[_], rfl, rfl⟩
  | nothing | boundary | lineStart | stop => exact ⟨[], rfl, rfl⟩
  | left h ih | right h ih | last h ih => exact ih
  | seq hp hq ihp ihq | more hp hq ihp ihq | again hp hq ihp ihq =>
    obtain ⟨v, hv, hm⟩ := ihp
    obtain ⟨w, hw, he⟩ := ihq
    refine ⟨v ++ w, by rw [hv, hw, List.append_assoc], ?_⟩
    rw [he, hm, Place.after_after]
    rfl

/-- What is taken up is nothing, or it shortens the text. -/
theorem Takes.eq_or_shorter {p : Pattern} {s e : Place} (h : Takes p s e) :
    e = s ∨ e.behind.length < s.behind.length := by
  obtain ⟨w, hbehind, he⟩ := h.exists_after
  cases w with
  | nil =>
    rw [List.nil_append] at hbehind
    rw [← hbehind] at he
    exact .inl he
  | cons c w =>
    rw [hbehind, List.cons_append, List.length_cons, List.length_append]
    exact .inr (by omega)

section Attempts
variable {α : Type}

section Rounds
variable {p : Pattern} {step : Place → (Place → Option α) → Option α} {bound : List Char} {s e : Place}
  {next : Place → Option α}

section Ends
variable (hstep : ∀ s next a, step s next = some a → ∃ e, Takes p s e ∧ next e = some a)
include hstep

theorem exists_takes_of_rounds {a : α} (h : rounds step bound s next = some a) :
    ∃ e, Takes (.many p) s e ∧ next e = some a := by
  induction bound generalizing s with
  | nil =>
    obtain ⟨e, he, ha⟩ := hstep s next a h
    exact ⟨e, .last he, ha⟩
  | cons _ bound ih =>
    obtain ⟨m, hm, ha⟩ := hstep s _ a h
    rcases Option.or_eq_some_iff.1 ha with hmore | ⟨-, hstop⟩
    · obtain ⟨e, he, ha⟩ := ih hmore
      exact ⟨e, .more hm he, ha⟩
    · exact ⟨m, .last hm, hstop⟩

theorem exists_takes_of_fewRounds {a : α} (h : fewRounds step bound s next = some a) :
    ∃ e, Takes (.few p) s e ∧ next e = some a := by
  induction bound generalizing s with
  | nil => exact ⟨s, .stop, h⟩
  | cons _ bound ih =>
    rcases Option.or_eq_some_iff.1 h with hstop | ⟨-, hmore⟩
    · exact ⟨s, .stop, hstop⟩
    · obtain ⟨m, hm, ha⟩ := hstep s _ a hmore
      obtain ⟨e, he, ha⟩ := ih ha
      exact ⟨e, .again hm he, ha⟩

end Ends

section Success
variable (hstep : ∀ s e next, Takes p s e → (next e).isSome → (step s next).isSome)
include hstep

/-- Rounds that take up nothing can be left out, so there are no more of them than characters. -/
theorem isSome_rounds_of_takes (h : Takes (.many p) s e) (hbound : s.behind.length ≤ bound.length)
    (hnext : (next e).isSome) : (rounds step bound s next).isSome := by
  generalize hmany : Pattern.many p = q at h
  induction h generalizing bound with
  | one | nothing | boundary | lineStart | seq | left | right | stop | again => cases hmany
  | last h =>
    cases hmany
    cases bound with
    | nil => exact hstep _ _ next h hnext
    | cons c bound =>
      refine hstep _ _ _ h ?_
      rw [Option.isSome_or, hnext, Bool.or_true]
  | more h _ _ ih =>
    cases hmany
    rcases h.eq_or_shorter with rfl | hshorter
    · exact ih hbound hnext rfl
    · cases bound with
      | nil =>
        rw [List.length_nil] at hbound
        omega
      | cons c bound =>
        rw [List.length_cons] at hbound
        refine hstep _ _ _ h ?_
        rw [Option.isSome_or, ih (by omega) hnext rfl, Bool.true_or]

theorem isSome_fewRounds_of_takes (h : Takes (.few p) s e) (hbound : s.behind.length ≤ bound.length)
    (hnext : (next e).isSome) : (fewRounds step bound s next).isSome := by
  generalize hfew : Pattern.few p = q at h
  induction h generalizing bound with
  | one | nothing | boundary | lineStart | seq | left | right | last | more => cases hfew
  | stop =>
    cases bound with
    | nil => exact hnext
    | cons c bound =>
      show (Option.or _ _).isSome
      rw [Option.isSome_or, hnext, Bool.true_or]
  | again h _ _ ih =>
    cases hfew
    rcases h.eq_or_shorter with rfl | hshorter
    · exact ih hbound hnext rfl
    · cases bound with
      | nil =>
        rw [List.length_nil] at hbound
        omega
      | cons c bound =>
        rw [List.length_cons] at hbound
        show (Option.or _ _).isSome
        rw [Option.isSome_or, hstep _ _ _ h (ih (by omega) hnext rfl), Bool.or_true]

end Success
end Rounds

/-- What an attempt comes to is made of a place that the pattern can take the text up to. -/
theorem exists_takes_of_attempt {p : Pattern} {s : Place} {next : Place → Option α} {a : α}
    (h : p.attempt s next = some a) : ∃ e, Takes p s e ∧ next e = some a := by
  induction p generalizing s next a with
  | one p =>
    obtain ⟨previous, behind, taken⟩ := s
    cases behind with
    | nil => cases h
    | cons c cs =>
      obtain ⟨hc, ha⟩ := Option.ite_none_right_eq_some.1 h
      exact ⟨_, .one hc, ha⟩
  | nothing => exact ⟨s, .nothing, h⟩
  | boundary =>
    obtain ⟨hs, ha⟩ := Option.ite_none_right_eq_some.1 h
    exact ⟨s, .boundary hs, ha⟩
  | lineStart =>
    obtain ⟨hs, ha⟩ := Option.ite_none_right_eq_some.1 h
    exact ⟨s, .lineStart hs, ha⟩
  | seq p q ihp ihq =>
    obtain ⟨m, hm, h⟩ := ihp h
    obtain ⟨e, he, ha⟩ := ihq h
    exact ⟨e, .seq hm he, ha⟩
  | either p q ihp ihq =>
    rcases Option.or_eq_some_iff.1 h with h | ⟨-, h⟩
    · obtain ⟨e, he, ha⟩ := ihp h
      exact ⟨e, .left he, ha⟩
    · obtain ⟨e, he, ha⟩ := ihq h
      exact ⟨e, .right he, ha⟩
  | many p ih => exact exists_takes_of_rounds (fun _ _ _ => ih) h
  | few p ih => exact exists_takes_of_fewRounds (fun _ _ _ => ih) h

/-- An attempt tries every place that the pattern can take the text up to. -/
theorem isSome_attempt_of_takes {p : Pattern} {s e : Place} {next : Place → Option α} (h : Takes p s e)
    (hnext : (next e).isSome) : (p.attempt s next).isSome := by
  induction p generalizing s e next with
  | one p =>
    cases h with
    | one hc =>
      rw [attempt, if_pos hc]
      exact hnext
  | nothing =>
    cases h
    exact hnext
  | boundary =>
    cases h with
    | boundary hs =>
      rw [attempt, if_pos hs]
      exact hnext
  | lineStart =>
    cases h with
    | lineStart hs =>
      rw [attempt, if_pos hs]
      exact hnext
  | seq p q ihp ihq =>
    cases h with
    | seq hp hq => exact ihp hp (ihq hq hnext)
  | either p q ihp ihq =>
    rw [attempt, Option.isSome_or]
    cases h with
    | left h => rw [ihp h hnext, Bool.true_or]
    | right h => rw [ihq h hnext, Bool.or_true]
  | many p ih => exact isSome_rounds_of_takes (fun _ _ _ => ih) h (le_refl _) hnext
  | few p ih => exact isSome_fewRounds_of_takes (fun _ _ _ => ih) h (le_refl _) hnext

end Attempts

/-! ## Languages -/

/-- A pattern takes up just the words of a language, whatever stands around them. -/
def Reads (p : Pattern) (L : List Char → Prop) : Prop :=
  ∀ s e : Place, Takes p s e ↔ ∃ w, L w ∧ s.behind = w ++ e.behind ∧ e = s.after w e.behind

namespace Reads
variable {p q : Pattern} {L M : List Char → Prop}

theorem congr (h : Reads p L) (hL : ∀ w, L w ↔ M w) : Reads p M := by
  intro s e
  simp only [h s e, hL]

theorem exists_after (hp : Reads p L) {s e : Place} (h : Takes p s e) :
    ∃ w rest, L w ∧ s.behind = w ++ rest ∧ e = s.after w rest := by
  obtain ⟨w, hw, hs, he⟩ := (hp s e).1 h
  exact ⟨w, e.behind, hw, hs, he⟩

theorem takes (hp : Reads p L) {s : Place} {w r : List Char} (hw : L w) (hs : s.behind = w ++ r) :
    Takes p s (s.after w r) :=
  (hp _ _).2 ⟨w, hw, hs, rfl⟩

theorem nothing : Reads .nothing (· = []) := by
  intro s e
  constructor
  · intro h
    cases h
    exact ⟨[], rfl, rfl, rfl⟩
  · rintro ⟨_, rfl, hbehind, he⟩
    rw [List.nil_append] at hbehind
    rw [he, ← hbehind]
    exact .nothing

theorem one (p : Char → Bool) : Reads (.one p) fun w => ∃ c, p c = true ∧ w = [c] := by
  intro s e
  constructor
  · intro h
    cases h with
    | one h => exact ⟨[_], ⟨_, h, rfl⟩, rfl, rfl⟩
  · rintro ⟨_, ⟨c, hc, rfl⟩, hbehind, he⟩
    obtain ⟨previous, behind, taken⟩ := s
    obtain rfl : behind = c :: e.behind := hbehind
    rw [he]
    exact .one hc

theorem seq (hp : Reads p L) (hq : Reads q M) :
    Reads (.seq p q) fun w => ∃ u v, L u ∧ M v ∧ w = u ++ v := by
  intro s e
  constructor
  · intro h
    obtain ⟨m, hfirst, hsecond⟩ := takes_seq_iff.1 h
    obtain ⟨u, hu, hs, hm⟩ := (hp _ _).1 hfirst
    obtain ⟨v, hv, hm', he⟩ := (hq _ _).1 hsecond
    refine ⟨u ++ v, ⟨u, v, hu, hv, rfl⟩, by rw [hs, hm', List.append_assoc], ?_⟩
    rw [← Place.after_after, ← hm, ← he]
  · rintro ⟨_, ⟨u, v, hu, hv, rfl⟩, hs, he⟩
    rw [List.append_assoc] at hs
    refine .seq (m := s.after u (v ++ e.behind)) ((hp _ _).2 ⟨u, hu, hs, rfl⟩) ((hq _ _).2 ⟨v, hv, rfl, ?_⟩)
    rw [Place.after_after, ← he]

theorem either (hp : Reads p L) (hq : Reads q M) : Reads (.either p q) fun w => L w ∨ M w := by
  intro s e
  simp only [or_and_right, exists_or, ← hp s e, ← hq s e]
  constructor
  · intro h
    cases h with
    | left h => exact .inl h
    | right h => exact .inr h
  · rintro (h | h)
    · exact .left h
    · exact .right h

theorem many (hp : Reads p L) :
    Reads (.many p) fun w => ∃ ws, ws ≠ [] ∧ (∀ v ∈ ws, L v) ∧ w = ws.flatten := by
  intro s e
  constructor
  · intro h
    generalize hmany : Pattern.many p = r at h
    induction h with
    | one | nothing | boundary | lineStart | seq | left | right | stop | again => cases hmany
    | last h =>
      cases hmany
      obtain ⟨w, hw, hs, he⟩ := (hp _ _).1 h
      exact ⟨w, ⟨[w], List.cons_ne_nil w [], by simpa using hw, by simp⟩, hs, he⟩
    | more h _ _ ih =>
      cases hmany
      obtain ⟨w, hw, hs, hm⟩ := (hp _ _).1 h
      obtain ⟨_, ⟨ws, -, hws, rfl⟩, hm', he⟩ := ih rfl
      refine ⟨(w :: ws).flatten, ⟨w :: ws, List.cons_ne_nil w ws, ?_, rfl⟩, ?_, ?_⟩
      · exact List.forall_mem_cons.2 ⟨hw, hws⟩
      · rw [hs, hm', List.flatten_cons, List.append_assoc]
      · rw [List.flatten_cons, ← Place.after_after, ← hm, ← he]
  · rintro ⟨_, ⟨ws, hne, hws, rfl⟩, hs, he⟩
    induction ws generalizing s with
    | nil => exact absurd rfl hne
    | cons w ws ih =>
      obtain ⟨hw, hws⟩ := List.forall_mem_cons.1 hws
      rw [List.flatten_cons, List.append_assoc] at hs
      rw [List.flatten_cons, ← Place.after_after s w _ _ (ws.flatten ++ e.behind)] at he
      have hfirst : Takes p s (s.after w (ws.flatten ++ e.behind)) := (hp _ _).2 ⟨w, hw, hs, rfl⟩
      by_cases hlast : ws = []
      · subst hlast
        rw [he]
        exact .last hfirst
      · exact .more hfirst (ih _ hlast hws rfl he)

/-- A stretch of characters of a class. -/
theorem manyOne (p : Char → Bool) :
    Reads (.many (.one p)) fun w => w ≠ [] ∧ ∀ c ∈ w, p c = true := by
  refine (one p).many.congr fun w => ?_
  constructor
  · rintro ⟨ws, hne, hws, rfl⟩
    constructor
    · obtain ⟨v, ws, rfl⟩ := List.exists_cons_of_ne_nil hne
      obtain ⟨c, -, rfl⟩ := hws v List.mem_cons_self
      exact List.cons_ne_nil c _
    · intro c hc
      obtain ⟨v, hv, hc⟩ := List.mem_flatten.1 hc
      obtain ⟨d, hd, rfl⟩ := hws v hv
      rwa [List.mem_singleton.1 hc]
  · rintro ⟨hne, hw⟩
    refine ⟨w.map fun c => [c], fun hnil => hne (List.map_eq_nil_iff.1 hnil), ?_, ?_⟩
    · intro v hv
      obtain ⟨c, hc, rfl⟩ := List.mem_map.1 hv
      exact ⟨c, hw c hc, rfl⟩
    · rw [← List.flatMap_def, List.flatMap_singleton']

theorem starOne (p : Char → Bool) : Reads (.star (.one p)) fun w => ∀ c ∈ w, p c = true := by
  refine ((manyOne p).either nothing).congr fun w => ?_
  constructor
  · rintro (⟨-, hw⟩ | rfl)
    · exact hw
    · nofun
  · intro hw
    by_cases hne : w = []
    · exact .inr hne
    · exact .inl ⟨hne, hw⟩

theorem headed (start part : Char → Bool) : Reads (.headed start part) fun w =>
    ∃ c cs, w = c :: cs ∧ start c = true ∧ ∀ d ∈ cs, part d = true := by
  refine ((one start).seq (starOne part)).congr fun w => ?_
  constructor
  · rintro ⟨_, cs, ⟨c, hc, rfl⟩, hcs, rfl⟩
    exact ⟨c, cs, rfl, hc, hcs⟩
  · rintro ⟨c, cs, rfl, hc, hcs⟩
    exact ⟨[c], cs, ⟨c, hc, rfl⟩, hcs, rfl⟩

theorem literal (text : List Char) : Reads (.literal text) (· = text) := by
  induction text with
  | nil => exact nothing
  | cons c text ih =>
    refine ((one (· == c)).seq ih).congr fun w => ?_
    constructor
    · rintro ⟨_, _, ⟨d, hd, rfl⟩, rfl, rfl⟩
      rw [beq_iff_eq.1 hd]
      rfl
    · rintro rfl
      exact ⟨[c], text, ⟨c, beq_self_eq_true c, rfl⟩, rfl, rfl⟩

theorem among (texts : List String) : Reads (.among texts) fun w => ∃ text ∈ texts, w = text.toList := by
  induction texts with
  | nil =>
    refine (one fun _ => false).congr fun w => ?_
    simp
  | cons text texts ih =>
    refine ((literal text.toList).either ih).congr fun w => ?_
    simp

end Reads

/-! ## Whole words -/

/-- A place in front of a word, at the start of a run of word characters. -/
theorem isBoundary_iff_of_run {previous : Option Char} {w r : List Char} {taken : Nat} (hne : w ≠ [])
    (hw : ∀ c ∈ w, isWord c = true) :
    Place.isBoundary ⟨previous, w ++ r, taken⟩ = true ↔ previous.any isWord = false := by
  obtain ⟨c, w, rfl⟩ := List.exists_cons_of_ne_nil hne
  have hfirst : ((c :: w ++ r).head?.any isWord) = true := hw c List.mem_cons_self
  rw [Place.isBoundary, hfirst]
  simp

/-- A place behind a word, at the end of a run of word characters. -/
theorem isBoundary_after_iff {s : Place} {w r : List Char} (hne : w ≠ [])
    (hw : ∀ c ∈ w, isWord c = true) : (s.after w r).isBoundary = true ↔ EndsWord r := by
  obtain ⟨front, c, rfl⟩ := List.eq_nil_or_concat w |>.resolve_left hne
  have hlast : (s.after (front.concat c) r).previous.any isWord = true := by
    rw [Place.after, List.concat_eq_append, List.getLast?_concat]
    exact hw c (by simp)
  rw [Place.isBoundary, hlast]
  cases r with
  | nil => exact ⟨fun _ => nofun, fun _ => rfl⟩
  | cons d r =>
    show (true != isWord d) = true ↔ _
    rw [EndsWord, List.head?_cons]
    simp

section WholeWords
variable {p : Pattern} {L : List Char → Prop} (hp : Reads p L)
  (hword : ∀ w, L w → w ≠ [] ∧ ∀ c ∈ w, isWord c = true)
include hp hword

/-- A match between two boundaries takes up a whole word. -/
theorem takes_wholeWord_iff {previous : Option Char} {t : List Char} {e : Place} :
    Takes p.wholeWord ⟨previous, t, 0⟩ e ↔
      previous.any isWord = false ∧ L (t.takeWhile isWord) ∧
        e = Place.after ⟨previous, t, 0⟩ (t.takeWhile isWord) (t.dropWhile isWord) := by
  constructor
  · intro h
    simp only [wholeWord, takes_seq_iff, takes_boundary_iff] at h
    obtain ⟨_, ⟨hstart, rfl⟩, _, h, hend, rfl⟩ := h
    obtain ⟨w, rest, hw, rfl, rfl⟩ := hp.exists_after h
    obtain ⟨hne, hall⟩ := hword w hw
    obtain ⟨htake, hdrop⟩ := takeWhile_dropWhile_append hall ((isBoundary_after_iff hne hall).1 hend)
    rw [htake, hdrop]
    exact ⟨(isBoundary_iff_of_run hne hall).1 hstart, hw, rfl⟩
  · rintro ⟨hprevious, hrun, rfl⟩
    obtain ⟨hne, hall⟩ := hword _ hrun
    have ht : t.takeWhile isWord ++ t.dropWhile isWord = t := List.takeWhile_append_dropWhile
    have hends : EndsWord (t.dropWhile isWord) := by
      have hdrop := List.head?_dropWhile_not isWord t
      intro c hc
      rw [Option.mem_def.1 hc] at hdrop
      simpa using hdrop
    refine .seq (.boundary ?_) (.seq (hp.takes hrun ht.symm) (.boundary ?_))
    · rw [← ht]
      exact (isBoundary_iff_of_run hne hall).2 hprevious
    · exact (isBoundary_after_iff hne hall).2 hends

variable [DecidablePred L]

theorem first?_wholeWord (previous : Option Char) (t : List Char) :
    p.wholeWord.first? previous t =
      if previous.any isWord = false ∧ L (t.takeWhile isWord) then
        some (t.takeWhile isWord, (t.takeWhile isWord).length)
      else none := by
  rw [first?]
  split
  · rename_i hrun
    have hsome : (p.wholeWord.first? previous t).isSome :=
      isSome_attempt_of_takes ((takes_wholeWord_iff hp hword).2 ⟨hrun.1, hrun.2, rfl⟩) rfl
    rw [first?] at hsome
    obtain ⟨found, hfound⟩ := Option.isSome_iff_exists.1 hsome
    obtain ⟨e, he, hmade⟩ := exists_takes_of_attempt hfound
    obtain ⟨-, -, rfl⟩ := (takes_wholeWord_iff hp hword).1 he
    have ht : t.take (t.takeWhile isWord).length = t.takeWhile isWord :=
      (List.prefix_iff_eq_take.1 (List.takeWhile_prefix isWord)).symm
    rw [hfound, ← hmade, Place.after, Nat.zero_add, ht]
  · rename_i hnot
    rw [Option.eq_none_iff_forall_ne_some]
    intro found hfound
    obtain ⟨e, he, -⟩ := exists_takes_of_attempt hfound
    obtain ⟨hprevious, hrun, -⟩ := (takes_wholeWord_iff hp hword).1 he
    exact hnot ⟨hprevious, hrun⟩

end WholeWords

/-! ## Searches for words -/

theorem searchFrom_append {α : Type} {first? : Option Char → List Char → Option (α × Nat)}
    (previous : Option Char) (u t : List Char) :
    searchFrom first? u.length previous (u ++ t) = searchFrom first? 0 (u.getLast?.or previous) t := by
  induction u generalizing previous with
  | nil => rfl
  | cons c u ih =>
    rw [List.length_cons, List.cons_append, searchFrom, ih, List.getLast?_cons, Option.some_or]
    cases u.getLast? <;> rfl

/-- The words behind a word that something else may stand behind. -/
theorem wordsFrom_behind {c : Char} {w gap t : List Char} (hw : ∀ d ∈ c :: w, isWord d = true)
    (hgap : ∀ d ∈ gap, isWord d = false) (ht : EndsWord (gap ++ t)) :
    wordsFrom (((w ++ gap).getLast?.or (some c)).any isWord) t = words (gap ++ t) := by
  rcases List.eq_nil_or_concat gap with rfl | ⟨front, d, rfl⟩
  · have hlast : ((w ++ []).getLast?.or (some c)).any isWord = true := by
      rw [List.append_nil]
      rcases List.eq_nil_or_concat w with rfl | ⟨front, d, rfl⟩
      · exact hw c List.mem_cons_self
      · rw [List.concat_eq_append, List.getLast?_concat]
        exact hw d (by simp)
    rw [hlast]
    exact wordsFrom_true_append (w := []) nofun ht
  · have hd : isWord d = false := hgap d (by simp)
    rw [List.concat_eq_append, ← List.append_assoc, List.getLast?_concat, ← List.concat_eq_append,
      words_append_of_not_word hgap]
    show wordsFrom (isWord d) t = words t
    rw [hd]
    rfl

section Words
variable {first? : Option Char → List Char → Option (List Char × Nat)}
  (Good : List Char → List Char → Prop) [∀ word rest, Decidable (Good word rest)]
  (extra : List Char → Nat)
  (hfirst : ∀ previous t, first? previous t =
    if previous.any isWord = false ∧ Good (t.takeWhile isWord) (t.dropWhile isWord) then
      some (t.takeWhile isWord, (t.takeWhile isWord).length + extra (t.dropWhile isWord))
    else none)
  (hgood : ∀ word rest, Good word rest → word ≠ [] ∧ ∃ gap behind, rest = gap ++ behind ∧
    gap.length = extra rest ∧ ∀ c ∈ gap, isWord c = false)
include hfirst hgood

/-- A search for words with something behind them. It is in the middle of a word exactly if a word
character stands in front. -/
theorem searchFrom_words (previous : Option Char) (t : List Char) :
    searchFrom first? 0 previous t =
      ((wordsFrom (previous.any isWord) t).filter fun (word, rest) => Good word rest).map Prod.fst := by
  induction hn : t.length using Nat.strong_induction_on generalizing previous t with
  | _ n ih =>
    cases t with
    | nil => rfl
    | cons c t =>
      rw [List.length_cons] at hn
      rw [searchFrom, hfirst]
      by_cases hmatch : previous.any isWord = false ∧
          Good ((c :: t).takeWhile isWord) ((c :: t).dropWhile isWord)
      · obtain ⟨hprevious, hrun⟩ := hmatch
        rw [if_pos ⟨hprevious, hrun⟩, hprevious]
        obtain ⟨hne, gap, behind, hrest, hextra, hgap⟩ := hgood _ _ hrun
        obtain ⟨hc, hends⟩ : isWord c = true ∧ EndsWord ((c :: t).dropWhile isWord) := by
          have hc : isWord c = true := by
            by_contra hc
            rw [List.takeWhile_cons_of_neg hc] at hne
            exact hne rfl
          exact ⟨hc, (isRun_span hc t).ends⟩
        have hall : ∀ d ∈ c :: t.takeWhile isWord, isWord d = true :=
          List.forall_mem_cons.2 ⟨hc, fun d hd => List.mem_takeWhile_imp hd⟩
        rw [List.takeWhile_cons_of_pos hc] at hne hrun ⊢
        rw [List.dropWhile_cons_of_pos hc] at hrest hends hextra hrun ⊢
        have ht : t = t.takeWhile isWord ++ t.dropWhile isWord := List.takeWhile_append_dropWhile.symm
        rw [hrest] at hends hextra hrun ht ⊢
        generalize t.takeWhile isWord = word at *
        subst ht
        have hbehind := ih behind.length (by simp only [List.length_append] at hn; omega)
          ((word ++ gap).getLast?.or (some c)) behind rfl
        rw [wordsFrom_behind hall hgap hends] at hbehind
        have hwords : wordsFrom false (c :: (word ++ (gap ++ behind))) =
            (c :: word, gap ++ behind) :: words (gap ++ behind) := words_append hne hall hends
        have hskip : (c :: word).length + extra (gap ++ behind) - 1 = (word ++ gap).length := by
          rw [List.length_cons, List.length_append, ← hextra]
          omega
        show (c :: word) :: searchFrom first? _ (some c) (word ++ (gap ++ behind)) = _
        rw [hskip, ← List.append_assoc, searchFrom_append, hbehind, List.append_assoc, hwords,
          List.filter_cons_of_pos (by simpa using hrun), List.map_cons]
      · rw [if_neg hmatch]
        show searchFrom first? 0 (some c) t = _
        rw [ih t.length (by omega) (some c) t rfl, wordsFrom]
        have hany : (some c).any isWord = isWord c := rfl
        rw [hany]
        cases hc : isWord c with
        | false => rfl
        | true =>
          cases hinside : previous.any isWord with
          | true => rfl
          | false =>
            rw [if_pos rfl, if_neg Bool.false_ne_true, List.span_eq_takeWhile_dropWhile,
              List.filter_cons_of_neg fun hrun => hmatch ⟨hinside, by simpa using hrun⟩]

end Words

/-- A search for whole words of a language finds the words of the text that belong to it. -/
theorem found_wholeWord {p : Pattern} {L : List Char → Prop} [DecidablePred L] (hp : Reads p L)
    (hword : ∀ w, L w → w ≠ [] ∧ ∀ c ∈ w, isWord c = true) (t : List Char) :
    p.wholeWord.found t = ((words t).map Prod.fst).filter (L ·) := by
  have hsearch := searchFrom_words (fun word _ => L word) (fun _ => 0) (first?_wholeWord hp hword)
    (fun word rest h => ⟨(hword word h).1, [], rest, rfl, rfl, nofun⟩) none t
  rw [List.filter_map]
  exact hsearch

end Pattern

/-! ## Groups -/

/-- The text of a group that takes up a stretch. -/
theorem Match.found_after {s : Place} {w r : List Char} (h : s.behind = w ++ r) (stop : Place) :
    Match.found ⟨s, s.after w r, stop⟩ = (w, stop.taken) := by
  rw [Match.found, h, Place.taken_after, Nat.add_sub_cancel_left, List.take_left]

namespace Grouped
variable {p q b : Pattern} {M N : List Char → Prop} (hq : q.Reads M) (hb : b.Reads N)
  {previous : Option Char} {t word : List Char}
include hq hb

/-- What is found as a group that stands between two other patterns. -/
theorem exists_of_first? {size : Nat}
    (h : (lead p (trail (group q) b)).first? previous t = some (word, size)) :
    ∃ s behindGroup rest, p.Takes ⟨previous, t, 0⟩ s ∧ M word ∧ N behindGroup ∧
      s.behind = word ++ (behindGroup ++ rest) ∧ size = s.taken + word.length + behindGroup.length := by
  obtain ⟨s, hs, h⟩ := Pattern.exists_takes_of_attempt h
  obtain ⟨closed, hclosed, h⟩ := Pattern.exists_takes_of_attempt h
  obtain ⟨e, he, h⟩ := Pattern.exists_takes_of_attempt h
  obtain ⟨w, _, hw, hbehind, rfl⟩ := hq.exists_after hclosed
  obtain ⟨behindGroup, rest, hbehindGroup, rfl, rfl⟩ := hb.exists_after he
  have hfound := (Match.found_after hbehind _).symm.trans (Option.some.inj h)
  obtain ⟨rfl, rfl⟩ := Prod.mk.inj hfound
  exact ⟨s, behindGroup, rest, hs, hw, hbehindGroup, hbehind, rfl⟩

theorem isSome_first? {s : Place} (hs : p.Takes ⟨previous, t, 0⟩ s) (hword : M word)
    {v r : List Char} (hbehindGroup : N v) (hbehind : s.behind = word ++ (v ++ r)) :
    ((lead p (trail (group q) b)).first? previous t).isSome := by
  refine Pattern.isSome_attempt_of_takes hs ?_
  refine Pattern.isSome_attempt_of_takes (hq.takes hword hbehind) ?_
  exact Pattern.isSome_attempt_of_takes (hb.takes hbehindGroup rfl) rfl

end Grouped
end ColumnAudit.Text
