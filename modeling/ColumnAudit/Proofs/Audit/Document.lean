import ColumnAudit.Audit.Report
import ColumnAudit.Proofs.Audit.Percentage
import ColumnAudit.Proofs.Json.RoundTrip
import ColumnAudit.Proofs.Names

/-! # Reports read back

A report is read from its JSON text in two steps, the text as any JSON text and the report from the value
that it holds. Only the counts and the names of a report are taken from the value; a percentage is held
against the one that the counts give, which the text has as the shortest numeral of its number.
-/

namespace ColumnAudit.Audit
open Json Number
set_option autoImplicit false

/-! ## Reading a report -/

/-- The tally that an object gives, if its percentage is the one that its counts determine. -/
def Tally.ofValue? (v : Value) : Option Tally := do
  let total ← (← v.member? "total").count?
  let matched ← (← v.member? "matched").count?
  let percentage ← (← v.member? "percentage").real?
  if percentage = Tally.percentage ⟨total, matched⟩ then some ⟨total, matched⟩ else none

/-- The entry that an object gives. -/
def Entry.ofValue? (v : Value) : Option Entry := do
  let scope ← v.member? "db_only"
  let tally ← Tally.ofValue? scope
  let unmatched ← (← scope.member? "unmatched").names?
  let excluded ← (← scope.member? "excluded_non_db").names?
  some ⟨tally, unmatched, excluded⟩

/-- The scopes that an object gives. -/
def Scopes.ofValue? (v : Value) : Option Scopes := do
  let overall ← Tally.ofValue? (← v.member? "db_only")
  let actions ← Tally.ofValue? (← v.member? "actions")
  let types ← Tally.ofValue? (← v.member? "types")
  some ⟨overall, actions, types⟩

/-- The report that an object gives. -/
def Document.ofValue? (v : Value) : Option Document := do
  let actions ← (← v.member? "actions").entries? Entry.ofValue?
  let types ← (← v.member? "types").entries? Entry.ofValue?
  let scopes ← Scopes.ofValue? (← v.member? "overall")
  some ⟨actions, types, scopes⟩

/-! ## What is written is read -/

theorem member?_cons (name key : String) (v : Value) (members : List (String × Value)) :
    Value.member? name (.object ((key, v) :: members)) =
      if name = key then some v else Value.member? name (.object members) := NameMap.lookup_cons

theorem count?_count (n : Nat) : (Json.count n).value.count? = some n := rfl

theorem Tally.ofValue?_members (t : Tally) (behind : List (String × Json)) :
    Tally.ofValue? (.object (memberValues (t.members ++ behind))) = some t := by
  have htotal : Value.member? "total" (.object (memberValues (t.members ++ behind))) =
      some (Json.count t.total).value := by
    simp [Tally.members, memberValues, member?_cons]
  have hmatched : Value.member? "matched" (.object (memberValues (t.members ++ behind))) =
      some (Json.count t.matched).value := by
    simp [Tally.members, memberValues, member?_cons]
  have hpercentage : Value.member? "percentage" (.object (memberValues (t.members ++ behind))) =
      some (.real t.percentage) := by
    simp [Tally.members, memberValues, member?_cons, value]
  simp [Tally.ofValue?, htotal, hmatched, hpercentage, count?_count, Value.real?]

theorem itemValues_map {α : Type} (f : α → Json) (l : List α) :
    itemValues (l.map f) = l.map fun a => (f a).value := by
  induction l with
  | nil => rfl
  | cons a l ih => rw [List.map_cons, itemValues, ih, List.map_cons]

theorem memberValues_map {α : Type} (f : α → Json) (l : List (String × α)) :
    memberValues (l.map fun e => (e.1, f e.2)) = l.map fun e => (e.1, (f e.2).value) := by
  induction l with
  | nil => rfl
  | cons e l ih => rw [List.map_cons, memberValues, ih, List.map_cons]

/-- A list is read back if each of its members is. -/
theorem mapM_map_of_read {α β : Type} (read : β → Option α) (write : α → β)
    (h : ∀ a, read (write a) = some a) (l : List α) : (l.map write).mapM read = some l := by
  have hread : read ∘ write = fun a => pure (id a) := funext h
  rw [List.mapM_map, hread, List.mapM_pure, List.map_id]
  rfl

theorem names?_namesJson (s : NameSet) : (namesJson s).value.names? = some s := by
  have htexts := mapM_map_of_read Value.text? (fun x => (Json.text x).value) (fun _ => rfl) s.toList
  rw [namesJson, value, itemValues_map, Value.names?, htexts, Option.map_some, NameSet.ofList_toList]

theorem Entry.ofValue?_json (e : Entry) : Entry.ofValue? e.json.value = some e := by
  have htally := Tally.ofValue?_members e.tally
    [("unmatched", namesJson e.unmatched), ("excluded_non_db", namesJson e.excluded)]
  have hunmatched := names?_namesJson e.unmatched
  have hexcluded := names?_namesJson e.excluded
  generalize hscope : Value.object (memberValues (e.tally.members ++
    [("unmatched", namesJson e.unmatched), ("excluded_non_db", namesJson e.excluded)])) = scope at htally
  have hdbOnly : e.json.value.member? "db_only" = some scope := by
    simp [Entry.json, value, memberValues, member?_cons, hscope]
  have hfields : scope.member? "unmatched" = some (namesJson e.unmatched).value ∧
      scope.member? "excluded_non_db" = some (namesJson e.excluded).value := by
    rw [← hscope]
    simp [Tally.members, memberValues, member?_cons]
  simp [Entry.ofValue?, hdbOnly, htally, hfields.1, hfields.2, hunmatched, hexcluded]

theorem entries?_groupJson (m : NameMap Entry) :
    (groupJson m).value.entries? Entry.ofValue? = some m := by
  have hentries := mapM_map_of_read (fun e : String × Value => (Entry.ofValue? e.2).map (e.1, ·))
    (fun e : String × Entry => (e.1, e.2.json.value))
    (fun e => by rw [Entry.ofValue?_json, Option.map_some]) m.entries
  have hgroup : groupJson m = .object (m.entries.map fun e => (e.1, e.2.json)) := rfl
  rw [hgroup, value, memberValues_map, Value.entries?, hentries, Option.map_some, NameMap.ofList_entries]

theorem Scopes.ofValue?_json (s : Scopes) : Scopes.ofValue? s.json.value = some s := by
  have hall := Tally.ofValue?_members s.overall []
  have hactions := Tally.ofValue?_members s.actions []
  have htypes := Tally.ofValue?_members s.types []
  rw [List.append_nil] at hall hactions htypes
  simp [Scopes.json, Scopes.ofValue?, value, memberValues, member?_cons, hall, hactions, htypes]

theorem Document.ofValue?_json (d : Document) : Document.ofValue? d.json.value = some d := by
  have hactions := entries?_groupJson d.actions
  have htypes := entries?_groupJson d.types
  have hscopes := Scopes.ofValue?_json d.scopes
  simp [Document.json, Document.ofValue?, value, memberValues, member?_cons, hactions, htypes, hscopes]

/-! ## Written percentages -/

/-- Whether both counts of a tally are numbers of a machine word. -/
structure Tally.Fits (t : Tally) : Prop where
  total : t.total < 2 ^ 64
  matched : t.matched < 2 ^ 64

/-- Whether all counts of a report are numbers of a machine word. -/
structure Document.Fits (d : Document) : Prop where
  actions : ∀ e ∈ d.actions.entries, e.2.tally.Fits
  types : ∀ e ∈ d.types.entries, e.2.tally.Fits
  scopes : d.scopes.overall.Fits ∧ d.scopes.actions.Fits ∧ d.scopes.types.Fits

theorem Tally.Fits.held_percentage {t : Tally} (h : t.Fits) : t.percentage.Held := by
  rw [percentage]
  rcases Nat.eq_zero_or_pos t.total with hzero | hpos
  · rw [if_pos hzero]
    exact Binary64.held_ofRatio Nat.one_pos hasValue_hundred.isFinite
  · have hfinite := (hasValue_percentage_of_lt hpos h.matched h.total).isFinite
    rw [percentage, if_neg hpos.ne'] at hfinite
    rw [if_neg hpos.ne']
    exact Binary64.held_div hfinite

theorem Tally.Fits.held_members {t : Tally} (h : t.Fits) {behind : List (String × Json)}
    (hbehind : MembersHeld behind) : MembersHeld (t.members ++ behind) :=
  ⟨trivial, trivial, h.held_percentage, hbehind⟩

theorem Tally.Fits.held_object {t : Tally} (h : t.Fits) : (Json.object t.members).Held := by
  have hmembers : MembersHeld (t.members ++ []) := h.held_members trivial
  rwa [List.append_nil] at hmembers

theorem held_namesJson (s : NameSet) : (namesJson s).Held := by
  have hitems : ∀ l : List String, ItemsHeld (l.map .text) := by
    intro l
    induction l with
    | nil => trivial
    | cons x l ih => exact ⟨trivial, ih⟩
  exact hitems s.toList

theorem held_entry {e : Entry} (h : e.tally.Fits) : e.json.Held :=
  ⟨h.held_members ⟨held_namesJson e.unmatched, held_namesJson e.excluded, trivial⟩, trivial⟩

theorem held_groupJson {m : NameMap Entry} (h : ∀ e ∈ m.entries, e.2.tally.Fits) :
    (groupJson m).Held := by
  have hmembers : ∀ l : List (String × Entry), (∀ e ∈ l, e.2.tally.Fits) →
      MembersHeld (l.map fun e => (e.1, e.2.json)) := by
    intro l hl
    induction l with
    | nil => trivial
    | cons e l ih =>
      rw [List.forall_mem_cons] at hl
      exact ⟨held_entry hl.1, ih hl.2⟩
  exact hmembers m.entries h

theorem Document.Fits.held {d : Document} (h : d.Fits) : d.json.Held := by
  obtain ⟨hoverall, hactions, htypes⟩ := h.scopes
  exact ⟨held_groupJson h.actions, held_groupJson h.types,
    ⟨hoverall.held_object, hactions.held_object, htypes.held_object, trivial⟩, trivial⟩

/-- The JSON text of a report loses nothing. Read as any JSON text is, it gives the values that were
written. They give back the report: the entries of both kinds with their counts and names, and the
scopes, each with the percentage that its counts determine. So no other report has the same text. -/
theorem report_read_back {d : Document} (hd : d.Fits) :
    Value.read? d.json.render = some d.json.value ∧
      Document.ofValue? d.json.value = some d ∧
      ∀ e : Document, e.Fits → e.json.render = d.json.render → e = d := by
  have hread : ∀ {e : Document}, e.Fits → Value.read? e.json.render = some e.json.value := fun he =>
    read?_render he.held
  refine ⟨hread hd, d.ofValue?_json, fun e he htext => ?_⟩
  have hvalue : some e.json.value = some d.json.value := by rw [← hread he, ← hread hd, htext]
  have hreport : some e = some d := by
    rw [← e.ofValue?_json, ← d.ofValue?_json, Option.some.inj hvalue]
  exact Option.some.inj hreport

/-- A report about a source whose name has a quote, a backslash, a line end, a control character and a
letter outside the basic ones, and the same report with one match less. -/
theorem report_read_back_escapes :
    let name := "a\"b\\c\n\x01é.ts"
    let report (matched : Nat) : Document :=
      ⟨.ofList [(name, ⟨⟨3, matched⟩, .ofList ["id", "naïve"], .ofList ["ghost"]⟩)], .empty,
        ⟨⟨3, matched⟩, ⟨3, matched⟩, ⟨0, 0⟩⟩⟩
    Value.read? (report 2).json.render = some (report 2).json.value ∧
      Document.ofValue? (report 2).json.value = some (report 2) ∧
      (report 1).json.render ≠ (report 2).json.render := by
  intro name report
  have hthree : ∀ matched < 2 ^ 64, Tally.Fits ⟨3, matched⟩ := fun _ hmatched =>
    ⟨show 3 < 2 ^ 64 by decide, hmatched⟩
  have hnone : Tally.Fits ⟨0, 0⟩ := ⟨by decide, by decide⟩
  have hfits : ∀ matched < 2 ^ 64, (report matched).Fits := fun matched hmatched =>
    have htally := hthree matched hmatched
    ⟨List.forall_mem_singleton.2 htally, List.forall_mem_nil _, htally, htally, hnone⟩
  obtain ⟨hread, hreport, hother⟩ := report_read_back (hfits 2 (by decide))
  refine ⟨hread, hreport, fun htext => ?_⟩
  have hsame := congrArg (fun d => d.scopes.overall.matched) (hother _ (hfits 1 (by decide)) htext)
  exact absurd hsame (by decide)

end ColumnAudit.Audit
