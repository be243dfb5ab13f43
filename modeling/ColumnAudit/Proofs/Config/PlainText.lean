import ColumnAudit.Config.Field
import ColumnAudit.Proofs.Yaml.OutlineTokens

/-! # Configurations without quotes

Each field of a configuration has its own lines in the document, which do not depend on the other fields
(`document_append`). If no text of a configuration needs quotes and none of its collections is empty, then
its document is made of lines that hold these texts as they are (`yaml_of_isPlain`). The standard
configuration is of this kind, so its document can be read off (`yaml_standard`).
-/

namespace ColumnAudit
open Yaml
set_option autoImplicit false

namespace Yaml.Outline

/-! ## Texts without quotes -/

/-- The characters of lines, each with its line end. -/
def ofLines (lines : List String) : List Char := lines.flatMap fun line => line.toList ++ ['\n']

theorem ofLines_cons (line : String) (lines : List String) :
    ofLines (line :: lines) = line.toList ++ '\n' :: ofLines lines := by
  rw [ofLines, List.flatMap_cons, List.append_assoc]
  rfl

theorem ofLines_append (front back : List String) :
    ofLines (front ++ back) = ofLines front ++ ofLines back := List.flatMap_append

theorem written_plain {s : String} (h : formOf s = .plain) (margin : Nat) : written margin s = s.toList := by
  rw [written, h]
  rfl

theorem behind_plain {s : String} (h : formOf s = .plain) (place : Placement) (column : Nat) :
    behind place column (text s) = ' ' :: (s.toList ++ ['\n']) := by
  have hlast : s.toList.getLast?.any isBreak = false := by
    have hformed := formed s
    rw [h] at hformed
    cases hformed with
    | plain hplain =>
      cases hgetLast : s.toList.getLast? with
      | none => rfl
      | some c => exact hplain.one_line c (List.mem_of_getLast? hgetLast)
  rw [behind_text, written_plain h, ended, hlast]
  rfl

/-- A line with its indentation. -/
def indented (column : Nat) (line : String) : String := String.ofList (spaces column) ++ line

theorem sequenceLines_plain {names : List String} (h : ∀ s ∈ names, formOf s = .plain) (column : Nat) :
    ((sequenceLines column (names.map text)).flatMap (spaces column ++ ·)) =
      ofLines (names.map fun s => indented column ("- " ++ s)) := by
  induction names with
  | nil => rw [List.map_nil, sequenceLines]; rfl
  | cons s names ih =>
    rw [List.map_cons, sequenceLines, List.flatMap_cons, ih fun t ht => h t (List.mem_cons_of_mem s ht),
      behind_plain (h s List.mem_cons_self), List.map_cons, ofLines_cons, indented, String.toList_append,
      String.toList_append, String.toList_ofList]
    simp

theorem behind_names {names : List String} (hne : names ≠ []) (h : ∀ s ∈ names, formOf s = .plain)
    (column : Nat) : behind .below column (sequence (names.map text)) =
      '\n' :: ofLines (names.map fun s => indented column ("- " ++ s)) := by
  rw [← sequenceLines_plain h]
  obtain ⟨s, names, rfl⟩ := List.exists_cons_of_ne_nil hne
  rw [List.map_cons, behind_sequence, sequenceLines]
  rfl

/-- A key that is written without quotes on the line of its value. -/
structure IsPlainKey (key : String) : Prop where
  form : formOf key = .plain
  simple : isSimpleKey key = true

theorem pairLine_plain {key : String} (h : IsPlainKey key) (value : Outline) (column : Nat) :
    pairLine key value column = key.toList ++ ':' :: behind .below column value := by
  rw [pairLine, if_pos h.simple, written_plain h.form]

theorem mappingLines_append (column : Nat) (front back : List (String × Outline)) :
    mappingLines column (front ++ back) = mappingLines column front ++ mappingLines column back := by
  induction front with
  | nil => rfl
  | cons pair front ih =>
    obtain ⟨key, value⟩ := pair
    rw [List.cons_append, mappingLines_cons, mappingLines_cons, ih, List.cons_append]

end Yaml.Outline

namespace Config
open Outline

/-! ## The lines of fields -/

theorem document_append (c : Config) (front back : List ConfigField) :
    c.document (front ++ back) = c.document front ++ c.document back := by
  rw [document, List.map_append, Outline.document, mappingLines_append, List.flatten_append,
    String.ofList_append]
  rfl

theorem isPlainKey_name (f : ConfigField) : IsPlainKey f.name := by
  cases f <;> exact ⟨by decide +kernel, by decide +kernel⟩

theorem document_field (c : Config) (f : ConfigField) :
    (c.document [f]).toList = f.name.toList ++ ':' :: behind .below 0 (c.fieldOutline f) := by
  rw [document, Outline.document, String.toList_ofList, List.map_singleton, mappingLines_cons,
    mappingLines, pairLine_plain (isPlainKey_name f), List.flatten_singleton]

/-- A table entry whose names need no quotes. -/
structure IsPlainEntry (entry : String × NameSet) : Prop where
  key : IsPlainKey entry.1
  nonempty : entry.2.toList ≠ []
  names : ∀ s ∈ entry.2.toList, formOf s = .plain

/-- The lines of an entry. -/
def entryLines (entry : String × NameSet) : List String :=
  indented 2 (entry.1 ++ ":") :: entry.2.toList.map fun s => indented 2 ("- " ++ s)

theorem mappingLines_entries {entries : List (String × NameSet)} (h : ∀ e ∈ entries, IsPlainEntry e) :
    (mappingLines 2 (entries.map fun (file, tables) => (file, namesOutline tables))).flatMap
      (spaces 2 ++ ·) = ofLines (entries.flatMap entryLines) := by
  induction entries with
  | nil => rw [List.map_nil, mappingLines]; rfl
  | cons entry entries ih =>
    obtain ⟨hkey, hne, hnames⟩ := h entry List.mem_cons_self
    rw [List.map_cons, mappingLines_cons, List.flatMap_cons, ih fun e he => h e (List.mem_cons_of_mem _ he),
      List.flatMap_cons, ofLines_append, entryLines, ofLines_cons, pairLine_plain hkey, namesOutline,
      behind_names hne hnames, indented, String.toList_append, String.toList_append, String.toList_ofList]
    simp

/-- A configuration none of whose texts needs quotes and none of whose collections is empty. -/
structure IsPlain (c : Config) : Prop where
  schema : formOf c.schema.text = .plain
  actionsFolder : formOf c.actionsFolder.text = .plain
  typesFolder : formOf c.typesFolder.text = .plain
  extension : formOf c.extension = .plain
  tables : c.fileTables.entries ≠ []
  entries : ∀ entry ∈ c.fileTables.entries, IsPlainEntry entry
  keys : c.knownKeys.toList ≠ []
  keyNames : ∀ s ∈ c.knownKeys.toList, formOf s = .plain

/-- The lines of a field. -/
def fieldLines (c : Config) : ConfigField → List String
  | .schema => ["schema: " ++ c.schema.text]
  | .actionsFolder => ["actions_dir: " ++ c.actionsFolder.text]
  | .typesFolder => ["types_dir: " ++ c.typesFolder.text]
  | .extension => ["extension: " ++ c.extension]
  | .fileTables => "file_tables:" :: c.fileTables.entries.flatMap entryLines
  | .knownKeys => "non_db_type_keys:" :: c.knownKeys.toList.map fun s => indented 0 ("- " ++ s)

section Plain
variable {c : Config} (h : c.IsPlain)
include h

theorem document_field_of_isPlain (f : ConfigField) :
    (c.document [f]).toList = ofLines (c.fieldLines f) := by
  have hvalue : ∀ {s : String}, formOf s = .plain → f.name.toList ++ ':' :: behind .below 0 (.text s) =
      ofLines [f.name ++ ": " ++ s] := by
    intro s hs
    rw [behind_plain hs, ofLines_cons, String.toList_append, String.toList_append, ofLines,
      List.flatMap_nil]
    simp
  rw [document_field]
  cases f with
  | schema => exact hvalue h.schema
  | actionsFolder => exact hvalue h.actionsFolder
  | typesFolder => exact hvalue h.typesFolder
  | extension => exact hvalue h.extension
  | fileTables =>
    obtain ⟨entry, entries, hentries⟩ := List.exists_cons_of_ne_nil h.tables
    have hlines := mappingLines_entries h.entries
    rw [fieldLines, fieldOutline, ofLines_cons, ← hlines, hentries, List.map_cons, behind_mapping,
      mappingLines_cons]
    rfl
  | knownKeys =>
    rw [fieldLines, fieldOutline, namesOutline, behind_names h.keys h.keyNames, ofLines_cons]
    rfl

theorem document_of_isPlain (fields : List ConfigField) :
    c.document fields = String.ofList (ofLines (fields.flatMap c.fieldLines)) := by
  induction fields with
  | nil => rfl
  | cons f fields ih =>
    have hsplit : f :: fields = [f] ++ fields := rfl
    rw [hsplit, document_append, ih, List.flatMap_append, ofLines_append, String.ofList_append,
      List.flatMap_singleton, ← document_field_of_isPlain h f, String.ofList_toList]

/-- The document has a line for each text, which stands there as it is. -/
theorem yaml_of_isPlain : c.yaml = String.ofList (ofLines (ConfigField.all.flatMap c.fieldLines)) :=
  document_of_isPlain h ConfigField.all

end Plain

/-! ## The standard configuration -/

theorem isPlain_standard : standard.IsPlain where
  schema := by decide +kernel
  actionsFolder := by decide +kernel
  typesFolder := by decide +kernel
  extension := by decide +kernel
  tables := by decide +kernel
  entries := by
    have hentries : ∀ entry ∈ standard.fileTables.entries, (formOf entry.1 = .plain ∧
        isSimpleKey entry.1 = true) ∧ entry.2.toList ≠ [] ∧ ∀ s ∈ entry.2.toList, formOf s = .plain := by
      decide +kernel
    intro entry hentry
    obtain ⟨⟨hform, hsimple⟩, hne, hnames⟩ := hentries entry hentry
    exact ⟨⟨hform, hsimple⟩, hne, hnames⟩
  keys := by decide +kernel
  keyNames := by decide +kernel

def standardLines : List String :=
  ["schema: supabase/migrations/20260223191944_initial_schema.sql",
    "actions_dir: src/lib/actions", "types_dir: src/lib/types", "extension: ts",
    "file_tables:",
    "  auth.ts:", "  - auth_flow_tokens", "  - otp_records", "  - users",
    "  event.ts:", "  - categories", "  - event_images", "  - events", "  - ticket_types",
    "  profile.ts:", "  - users",
    "  ticket.ts:", "  - event_images", "  - events", "  - ticket_types", "  - tickets",
    "non_db_type_keys:",
    "- attemptsRemaining", "- canResend", "- category", "- data", "- event", "- imageUrl",
    "- images", "- message", "- needsVerification", "- primary_image", "- profile", "- purpose",
    "- redirectTo", "- remainingSeconds", "- resetToken", "- start_ticket_price", "- success",
    "- ticket_type", "- ticket_types", "- token"]

theorem yaml_standard : standard.yaml = String.ofList (ofLines standardLines) := by
  have hlines : ConfigField.all.flatMap standard.fieldLines = standardLines := by decide +kernel
  rw [yaml_of_isPlain isPlain_standard, hlines]

end Config
end ColumnAudit
