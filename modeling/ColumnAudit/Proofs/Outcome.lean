import ColumnAudit.Proofs.Audit.Folder
import ColumnAudit.Proofs.Program

/-! # All or nothing

An audit prints its whole report or nothing at all. It ends with status 2 and an empty output exactly
if something that it has to read is not in order (`Blocked`): the configuration file, the schema, a
folder of sources or one of their files. Else it prints the report on all of them, also when the report
falls short of the threshold (`audit_all_or_nothing`).
-/

namespace ColumnAudit.Program
open Audit CommandLine Files Number Schema Source
set_option autoImplicit false

/-! ## The configuration of an audit -/

/-- A configuration that is in force before the other arguments change it: the one that a file holds
without flaws, or the standard one. -/
def Configured (t : Tree) : Option Path → Config → Prop
  | none, base => base = .standard
  | some path, base =>
    ∃ bytes, t.read path = .ok bytes ∧ Config.ofBytes bytes = .ok base ∧ base.flaw? = none

/-- The configuration that an audit works with: paths that are given replace those of the base, and
all are seen from the root. -/
structure Effective (request : AuditRequest) (base config : Config) : Prop where
  schema : config.schema = request.root.join (request.schema.getD base.schema)
  actionsFolder :
    config.actionsFolder = request.root.join (request.actionsFolder.getD base.actionsFolder)
  typesFolder : config.typesFolder = request.root.join (request.typesFolder.getD base.typesFolder)
  extension : config.extension = base.extension
  fileTables : config.fileTables = base.fileTables
  knownKeys : config.knownKeys = base.knownKeys

theorem effective_iff {request : AuditRequest} {base config : Config} :
    Effective request base config ↔ config = effectiveConfig request base := by
  obtain ⟨schema, actionsFolder, typesFolder, extension, fileTables, knownKeys⟩ := config
  constructor
  · rintro ⟨h1, h2, h3, h4, h5, h6⟩
    simp only at h1 h2 h3 h4 h5 h6
    rw [h1, h2, h3, h4, h5, h6]
    rfl
  · intro h
    rw [h]
    exact ⟨rfl, rfl, rfl, rfl, rfl, rfl⟩

theorem ofFile_eq_ok_iff {path : Path} {bytes : ByteArray} {base : Config} :
    Config.ofFile path bytes = .ok base ↔ Config.ofBytes bytes = .ok base ∧ base.flaw? = none := by
  unfold Config.ofFile
  cases Config.ofBytes bytes with
  | error fault => exact ⟨nofun, nofun⟩
  | ok config =>
    cases hflaw : config.flaw? with
    | some flaw =>
      simp only [hflaw]
      refine ⟨nofun, ?_⟩
      rintro ⟨h, hnone⟩
      rw [← Except.ok.inj h, hflaw] at hnone
      cases hnone
    | none =>
      simp only [hflaw]
      constructor
      · intro h
        obtain rfl := Except.ok.inj h
        exact ⟨rfl, hflaw⟩
      · rintro ⟨h, -⟩
        exact congrArg Except.ok (Except.ok.inj h)

theorem configIn_eq_ok_iff {t : Tree} {path : Option Path} {base : Config} :
    configIn t path = .ok base ↔ Configured t path base := by
  cases path with
  | none => exact ⟨fun h => (Except.ok.inj h).symm, fun h => congrArg Except.ok h.symm⟩
  | some path =>
    constructor
    · intro h
      obtain ⟨bytes, hbytes, h⟩ := exists_of_bind_eq_ok h
      exact ⟨bytes, eq_ok_of_mapError hbytes, ofFile_eq_ok_iff.1 h⟩
    · rintro ⟨bytes, hbytes, h⟩
      rw [configIn, hbytes]
      exact ofFile_eq_ok_iff.2 h

/-! ## What stands in the way of an audit -/

/-- Something that an audit has to read is not in order. -/
inductive Blocked (t : Tree) (request : AuditRequest) : Prop
  /-- The configuration file cannot be read. -/
  | configNotRead (path : Path) (e : FileError) (hpath : request.config = some path)
      (hread : t.read path = .error e)
  /-- The configuration file holds no configuration. -/
  | configNotUnderstood (path : Path) (bytes : ByteArray) (fault : ConfigFault)
      (hpath : request.config = some path) (hread : t.read path = .ok bytes)
      (hfault : Config.ofBytes bytes = .error fault)
  /-- The configuration of the file has a flaw. -/
  | configFlawed (path : Path) (bytes : ByteArray) (base : Config) (flaw : Config.Flaw)
      (hpath : request.config = some path) (hread : t.read path = .ok bytes)
      (hbase : Config.ofBytes bytes = .ok base) (hflaw : base.flaw? = some flaw)
  /-- The schema is no file with text. -/
  | schemaNotRead (base config : Config) (hbase : Configured t request.config base)
      (hconfig : Effective request base config)
      (hschema : ∀ bytes, t.read config.schema = .ok bytes → ¬ bytes.IsValidUTF8)
  /-- A folder of sources is a file. -/
  | folderIsFile (base config : Config) (hbase : Configured t request.config base)
      (hconfig : Effective request base config) (kind : ScanKind) (bytes : ByteArray)
      (hfolder : t.node (config.folder kind) = .ok (.file bytes))
  /-- A source holds no text. -/
  | sourceNotRead (base config : Config) (hbase : Configured t request.config base)
      (hconfig : Effective request base config) (kind : ScanKind) (name : String)
      (bytes : ByteArray)
      (hsource : HasSource t (config.folder kind) config.normalExtension name bytes)
      (hbytes : ¬ bytes.IsValidUTF8)

section Request
variable {t : Tree} {request : AuditRequest}

theorem exists_configured (h : ¬ Blocked t request) :
    ∃ base config, Configured t request.config base ∧ Effective request base config := by
  have hbase : ∃ base, Configured t request.config base := by
    cases hpath : request.config with
    | none => exact ⟨.standard, rfl⟩
    | some path =>
      cases hread : t.read path with
      | error e => exact absurd (.configNotRead path e hpath hread) h
      | ok bytes =>
        cases hbytes : Config.ofBytes bytes with
        | error fault => exact absurd (.configNotUnderstood path bytes fault hpath hread hbytes) h
        | ok base =>
          cases hflaw : base.flaw? with
          | some flaw => exact absurd (.configFlawed path bytes base flaw hpath hread hbytes hflaw) h
          | none => exact ⟨base, bytes, hread, hbytes, hflaw⟩
  obtain ⟨base, hbase⟩ := hbase
  exact ⟨base, effectiveConfig request base, hbase, effective_iff.2 rfl⟩

theorem Configured.unique {path : Option Path} {base other : Config} (h : Configured t path base)
    (hother : Configured t path other) : base = other :=
  Except.ok.inj ((configIn_eq_ok_iff.2 h).symm.trans (configIn_eq_ok_iff.2 hother))

theorem reportFor_eq_ok {report : Report} (h : reportFor t request = .ok report) :
    ∃ base config schema sources, Configured t request.config base ∧
      Effective request base config ∧ t.read config.schema = .ok (String.toUTF8 schema) ∧
      (∀ kind, sourcesOfKind t config kind = .ok (Sources.ofKind sources kind)) ∧
      report = compare (Catalog.parse schema) config sources := by
  obtain ⟨base, hbase, h⟩ := exists_of_bind_eq_ok h
  obtain ⟨catalog, hcatalog, h⟩ := exists_of_bind_eq_ok h
  obtain ⟨schema, hschema, rfl⟩ := exists_of_map_eq_ok hcatalog
  obtain ⟨sources, hsources, h⟩ := exists_of_bind_eq_ok h
  obtain ⟨actions, hactions, hsources⟩ := exists_of_bind_eq_ok hsources
  obtain ⟨types, htypes, hsources⟩ := exists_of_bind_eq_ok hsources
  obtain rfl := Except.ok.inj hsources
  refine ⟨base, effectiveConfig request base, schema, ⟨actions, types⟩,
    configIn_eq_ok_iff.1 hbase, effective_iff.2 rfl,
    Tree.text_eq_ok_iff.1 (eq_ok_of_mapError hschema), fun kind => ?_, (Except.ok.inj h).symm⟩
  cases kind with
  | actions => exact hactions
  | types => exact htypes

theorem not_blocked_of_reportFor (hwell : t.WellNamed) {report : Report}
    (h : reportFor t request = .ok report) : ¬ Blocked t request := by
  obtain ⟨base, config, schema, sources, hbase, hconfig, hschema, hsources, -⟩ :=
    reportFor_eq_ok h
  have hsame : ∀ base' config', Configured t request.config base' →
      Effective request base' config' → config' = config := by
    intro base' config' hbase' hconfig'
    obtain rfl := hbase.unique hbase'
    exact (effective_iff.1 hconfig').trans (effective_iff.1 hconfig).symm
  have hread : ∀ path, request.config = some path →
      ∃ bytes, t.read path = .ok bytes ∧ Config.ofBytes bytes = .ok base ∧ base.flaw? = none := by
    intro path hpath
    rw [hpath] at hbase
    exact hbase
  intro hblocked
  cases hblocked with
  | configNotRead path e hpath hfail =>
    obtain ⟨bytes, hbytes, -, -⟩ := hread path hpath
    rw [hbytes] at hfail
    cases hfail
  | configNotUnderstood path bytes fault hpath hbytes hfault =>
    obtain ⟨bytes', hbytes', hdecoded, -⟩ := hread path hpath
    obtain rfl := Except.ok.inj (hbytes.symm.trans hbytes')
    rw [hdecoded] at hfault
    cases hfault
  | configFlawed path bytes other flaw hpath hbytes hother hflaw =>
    obtain ⟨bytes', hbytes', hdecoded, hnone⟩ := hread path hpath
    obtain rfl := Except.ok.inj (hbytes.symm.trans hbytes')
    obtain rfl := Except.ok.inj (hother.symm.trans hdecoded)
    rw [hnone] at hflaw
    cases hflaw
  | schemaNotRead base' config' hbase' hconfig' hfail =>
    obtain rfl := hsame base' config' hbase' hconfig'
    exact hfail _ hschema schema.isValidUTF8
  | folderIsFile base' config' hbase' hconfig' kind bytes hfolder =>
    obtain rfl := hsame base' config' hbase' hconfig'
    exact (sourced_of_sourcesOfKind hwell (hsources kind)).1 bytes hfolder
  | sourceNotRead base' config' hbase' hconfig' kind name bytes hsource hbytes =>
    obtain rfl := hsame base' config' hbase' hconfig'
    exact hbytes ((sourced_of_sourcesOfKind hwell (hsources kind)).2.1 name bytes hsource)

theorem exists_reportFor (hwell : t.WellNamed) (h : ¬ Blocked t request) :
    ∃ report, reportFor t request = .ok report := by
  obtain ⟨base, config, hbase, hconfig⟩ := exists_configured h
  have hschema : ∃ schema : String, t.read config.schema = .ok schema.toUTF8 := by
    by_contra hnone
    refine h (.schemaNotRead base config hbase hconfig fun bytes hbytes hvalid => hnone ?_)
    obtain ⟨schema, rfl⟩ := Tree.exists_toUTF8_iff.2 hvalid
    exact ⟨schema, hbytes⟩
  have hsources : ∀ kind, ∃ files, sourcesOfKind t config kind = .ok files := by
    refine fun kind => exists_sourcesOfKind hwell (fun bytes hfolder => ?_)
      fun name bytes hsource => ?_
    · exact h (.folderIsFile base config hbase hconfig kind bytes hfolder)
    · by_contra hbytes
      exact h (.sourceNotRead base config hbase hconfig kind name bytes hsource hbytes)
  obtain ⟨schema, hschema⟩ := hschema
  obtain ⟨actions, hactions⟩ := hsources .actions
  obtain ⟨types, htypes⟩ := hsources .types
  refine ⟨compare (Catalog.parse schema) config ⟨actions, types⟩, ?_⟩
  rw [reportFor, configIn_eq_ok_iff.2 hbase]
  change reportIn t (effectiveConfig request base) = _
  rw [← effective_iff.1 hconfig, reportIn, sourcesIn, hactions, htypes, catalogAt,
    Tree.text_eq_ok_iff.2 hschema]
  rfl

end Request

/-! ## What an audit shows -/

theorem shown_of_report {outcome : Outcome} {log : List LogRecord} {request : AuditRequest}
    {report : Report} (h : outcome = .ofResult log (.ok (auditResult request report))) :
    outcome.output = reportText report request.format ∧
      outcome.status = if request.threshold.any report.overallPercentage.lt then 1 else 0 := by
  rw [h, auditResult]
  cases request.threshold with
  | none => exact ⟨rfl, rfl⟩
  | some threshold =>
    rw [Option.any_some, shortfall?]
    split
    · exact ⟨rfl, rfl⟩
    · exact ⟨rfl, rfl⟩

/-- An audit is all or nothing. With something in the way it prints nothing and ends with 2; else it
prints the whole report on the schema and on all sources of the effective configuration, and ends
with 1 if the percentage is below the threshold and with 0 if not. A folder of sources that is not
there stands in the way of nothing: it has no sources. -/
theorem audit_all_or_nothing {t : Tree} (hwell : t.WellNamed) (request : AuditRequest) :
    let outcome := (runIn t (.audit request)).1
    ((outcome.status = 2 ∧ outcome.output = "") ↔ Blocked t request) ∧
      (¬ Blocked t request → ∃ base config schema sources,
        Configured t request.config base ∧ Effective request base config ∧
        t.read config.schema = .ok (String.toUTF8 schema) ∧
        (∀ kind, Sourced t (config.folder kind) config.normalExtension
          (Sources.ofKind sources kind)) ∧
        (∀ kind, ¬ t.isPresent (config.folder kind) = true → Sources.ofKind sources kind = []) ∧
        let report := compare (Catalog.parse schema) config sources
        outcome.output = reportText report request.format ∧
          (request.format = .json → outcome.output = report.json.render ++ "\n") ∧
          (request.format = .table → outcome.output = report.table.render) ∧
          outcome.status = if request.threshold.any report.overallPercentage.lt then 1 else 0) := by
  intro outcome
  obtain ⟨log, hrun⟩ := run_audit request t
  cases hreport : reportFor t request with
  | error failure =>
    have houtcome : outcome = Outcome.ofResult log (.error failure) := by
      simp only [outcome, hrun, hreport, Except.map]
    have hblocked : Blocked t request := by
      by_contra h
      obtain ⟨report, h⟩ := exists_reportFor hwell h
      rw [hreport] at h
      cases h
    refine ⟨⟨fun _ => hblocked, fun _ => ?_⟩, fun h => absurd hblocked h⟩
    rw [houtcome]
    exact ⟨rfl, rfl⟩
  | ok report =>
    have hfree := not_blocked_of_reportFor hwell hreport
    obtain ⟨base, config, schema, sources, hbase, hconfig, hschema, hsources, rfl⟩ :=
      reportFor_eq_ok hreport
    have hsourced := fun kind => (sourced_of_sourcesOfKind hwell (hsources kind)).2.2
    have houtcome : outcome = .ofResult log
        (.ok (auditResult request (compare (Catalog.parse schema) config sources))) := by
      simp only [outcome, hrun, hreport, Except.map]
    obtain ⟨houtput, hcode⟩ := shown_of_report houtcome
    have hstatus : outcome.status ≠ 2 := by
      rw [hcode]
      split
      · decide
      · decide
    refine ⟨⟨fun h => absurd h.1 hstatus, fun h => absurd h hfree⟩, fun _ =>
      ⟨base, config, schema, sources, hbase, hconfig, hschema, hsourced,
        fun kind => (hsourced kind).eq_nil, houtput, fun hjson => ?_, fun htable => ?_, hcode⟩⟩
    · rw [houtput, hjson, reportText]
    · rw [houtput, htable, reportText]

/-- The report of one source at its threshold, in both forms and without a folder of type sources; and a
file in the place of the folder of action sources. -/
theorem audit_prints_all_and_nothing :
    let request := fun format => AuditRequest.mk (some (.ofNat 100)) format none ⟨"project"⟩
      (some ⟨"schema.sql"⟩) (some ⟨"actions"⟩) none
    let schema := FileNode.file "CREATE TABLE users (user_id uuid);".toUTF8
    let sources :=
      FileNode.folder [("auth.ts", .file ".eq('user_id', id)".toUTF8), ("b", .folder [])]
    let project := fun actions => Tree.mk
      (.folder [("project", .folder [("schema.sql", schema), ("actions", actions)])]) []
    let lines : OutputFormat → List String
      | .json => [
        "\x7b", "  \"actions\": \x7b", "    \"auth.ts\": \x7b", "      \"db_only\": \x7b",
        "        \"total\": 1,", "        \"matched\": 1,", "        \"percentage\": 100.0,",
        "        \"unmatched\": [],", "        \"excluded_non_db\": []", "      \x7d", "    \x7d",
        "  \x7d,", "  \"types\": \x7b\x7d,", "  \"overall\": \x7b", "    \"db_only\": \x7b",
        "      \"total\": 1,", "      \"matched\": 1,", "      \"percentage\": 100.0", "    \x7d,",
        "    \"actions\": \x7b", "      \"total\": 1,", "      \"matched\": 1,",
        "      \"percentage\": 100.0", "    \x7d,", "    \"types\": \x7b", "      \"total\": 0,",
        "      \"matched\": 0,", "      \"percentage\": 100.0", "    \x7d", "  \x7d", "\x7d"]
      | .table => [
        "scope    file     total  matched  percentage  unmatched  excluded_non_db",
        "-------  -------  -----  -------  ----------  ---------  ---------------",
        "actions  auth.ts      1        1     100.00%", "actions  *            1        1     100.00%",
        "types    *            0        0     100.00%", "overall  *            1        1     100.00%"]
    ((project sources).WellNamed ∧ ∀ format,
        ¬ Blocked (project sources) (request format) ∧
        (runIn (project sources) (.audit (request format))).1.status = 0 ∧
        (runIn (project sources) (.audit (request format))).1.output =
          String.join ((lines format).map (· ++ "\n"))) ∧
      (project schema).WellNamed ∧ ∀ format, Blocked (project schema) (request format) ∧
        (runIn (project schema) (.audit (request format))).1.output = "" := by
  intro request schema sources project lines
  have hwell : (project sources).WellNamed := by
    simp only [project, schema, sources, Tree.WellNamed, FileNode.WellNamed,
      FileNode.MembersWellNamed]
    decide +kernel
  have hwell' : (project schema).WellNamed := by
    simp only [project, schema, Tree.WellNamed, FileNode.WellNamed, FileNode.MembersWellNamed]
    decide +kernel
  have hprinted : ∀ format,
      (runIn (project sources) (.audit (request format))).1.status = 0 ∧
        (runIn (project sources) (.audit (request format))).1.output =
          String.join ((lines format).map (· ++ "\n")) := by
    intro format
    cases format <;> decide +kernel
  have hshown : ∀ format,
      (runIn (project schema) (.audit (request format))).1.status = 2 ∧
        (runIn (project schema) (.audit (request format))).1.output = "" := by
    intro format
    cases format <;> decide +kernel
  refine ⟨⟨hwell, fun format => ⟨fun hblocked => ?_, hprinted format⟩⟩, hwell', fun format =>
    ⟨?_, (hshown format).2⟩⟩
  · have h := ((audit_all_or_nothing hwell (request format)).1.2 hblocked).1
    rw [(hprinted format).1] at h
    cases h
  · exact (audit_all_or_nothing hwell' (request format)).1.1 (hshown format)

end ColumnAudit.Program
