import ColumnAudit.Program
import ColumnAudit.Proofs.Audit.Agreement
import ColumnAudit.Proofs.Audit.Run

/-! # What an audit comes to

In a file tree an audit ends with the report that `reportFor` gives, or with the failure on the way to
it, and leaves the tree as it is (`run_audit`). So its exit status is decided by whether the report can
be made and by the threshold (`status_audit`).

Because every comparison agrees, the threshold decides alone: an audit that makes its report exits
with 1 exactly if the threshold is above one hundred, whatever the sources use
(`audit_fails_iff_threshold_above_hundred`).
-/

namespace ColumnAudit.Program
open Audit CommandLine Files Number Schema Source
set_option autoImplicit false

/-! ## Audits of a tree -/

/-- What a run in a tree shows, and the tree that it leaves. -/
def runIn (tree : Tree) (command : Command) : Outcome × Tree :=
  (run command : StateM Tree Outcome).run tree

/-- The configuration at a path, or the standard one. -/
def configIn (t : Tree) : Option Path → Except Failure Config
  | some path => do Config.ofFile path (← (t.read path).mapError (Config.unreadable path))
  | none => .ok .standard

/-- The report that is asked for. -/
def reportFor (t : Tree) (request : AuditRequest) : Except Failure Report := do
  let config ← configIn t request.config
  reportIn t (effectiveConfig request config)

/-- What an audit ends with, given its report. -/
def auditResult (request : AuditRequest) (report : Report) : Result :=
  ⟨reportText report request.format, shortfall? report.overallPercentage request.threshold⟩

theorem reads_loadOrStandard (path : Option Path) :
    Task.Reads (Config.loadOrStandard path) fun t => configIn t path := by
  cases path with
  | none => exact Task.Reads.pure _
  | some path =>
    refine ((Task.Reads.read path (Config.unreadable path)).bind fun bytes =>
      (Task.Reads.ofExcept (Config.ofFile path bytes)).bind fun config =>
        (Task.Reads.log _).bind fun _ => Task.Reads.pure config).congr fun t => ?_
    simp only [configIn]
    cases (t.read path).mapError (Config.unreadable path) with
    | error e => rfl
    | ok bytes =>
      simp only [bind, Except.bind]
      cases Config.ofFile path bytes <;> rfl

theorem reads_runAudit (request : AuditRequest) :
    Task.Reads (runAudit request) fun t => (reportFor t request).map (auditResult request) := by
  refine ((reads_loadOrStandard request.config).bind fun config =>
    (Task.Reads.log _).bind fun _ =>
      (reads_run (effectiveConfig request config)).bind fun report =>
        Task.Reads.pure (auditResult request report)).congr fun t => ?_
  unfold reportFor
  cases configIn t request.config with
  | error e => rfl
  | ok config =>
    simp only [bind, Except.bind]
    cases reportIn t (effectiveConfig request config) <;> rfl

theorem run_audit (request : AuditRequest) (tree : Tree) :
    ∃ log, runIn tree (.audit request) =
      (Outcome.ofResult log ((reportFor tree request).map (auditResult request)), tree) := by
  obtain ⟨log, h⟩ := reads_runAudit request [] tree
  refine ⟨log, ?_⟩
  have hperform : ((perform (.audit request) : Task (StateM Tree) Result).run.run []).run tree =
      (((reportFor tree request).map (auditResult request), log), tree) := h
  simp only [runIn, run, StateT.run_bind, hperform]
  rfl

/-- The exit status: 2 without a report, 1 with a report that falls short, and else 0. -/
theorem status_audit (request : AuditRequest) (tree : Tree) :
    (runIn tree (.audit request)).1.status =
      match reportFor tree request with
      | .error _ => 2
      | .ok report =>
        if (shortfall? report.overallPercentage request.threshold).isSome then 1 else 0 := by
  obtain ⟨log, h⟩ := run_audit request tree
  rw [h]
  cases reportFor tree request with
  | error e => rfl
  | ok report =>
    simp only [Except.map, auditResult]
    cases shortfall? report.overallPercentage request.threshold <;> rfl

/-! ## The gate -/

theorem exists_compare_of_reportFor {t : Tree} {request : AuditRequest} {report : Report}
    (h : reportFor t request = .ok report) :
    ∃ catalog config sources, report = compare catalog config sources ∧
      ∀ kind, characters (sources.ofKind kind) ≤ t.size * t.size := by
  obtain ⟨config, -, h⟩ := exists_of_bind_eq_ok h
  obtain ⟨catalog, -, h⟩ := exists_of_bind_eq_ok h
  obtain ⟨sources, hsources, h⟩ := exists_of_bind_eq_ok h
  obtain rfl := Except.ok.inj h
  exact ⟨catalog, _, sources, rfl, fun kind => characters_le_of_sourcesIn hsources⟩

/-- In every report all names that were compared matched, so the percentage of each scope is one
hundred and only a threshold above that makes an audit fail. Counts become doubles: hence the limits,
which are far beyond what a machine can hold. -/
theorem audit_fails_iff_threshold_above_hundred {text : String} {threshold : Binary64}
    (h : readThreshold text = .ok threshold) :
    (∀ (sql : String) (config : Config) (sources : Sources),
      let report := compare (Catalog.parse sql) config sources
      report.Agrees ∧
        (characters sources.actions + characters sources.types < 2 ^ 1000 →
          (∀ t ∈ report.scopes, t.percentage = .ofNat 100) ∧
          ((shortfall? report.overallPercentage (some threshold)).isSome ↔
            100 < threshold.value))) ∧
    ∀ (request : AuditRequest) (tree : Tree), request.threshold = some threshold →
      tree.size < 2 ^ 400 →
      (runIn tree (.audit request)).1.status =
        match reportFor tree request with
        | .error _ => 2
        | .ok _ => if 100 < threshold.value then 1 else 0 := by
  have hfinite := isFinite_of_readThreshold h
  have hshort : ∀ (catalog : Catalog) (config : Config) (sources : Sources),
      characters sources.actions + characters sources.types < 2 ^ 1000 →
        ((shortfall? (compare catalog config sources).overallPercentage
          (some threshold)).isSome ↔ 100 < threshold.value) := by
    intro catalog config sources hbound
    have hall := percentage_compare catalog config hbound
    rw [Report.overallPercentage, hall _ (by simp [Report.scopes])]
    exact shortfall?_hundred_iff hfinite
  refine ⟨fun sql config sources => ⟨agrees_compare _ config sources, fun hbound =>
    ⟨percentage_compare _ config hbound, hshort _ config sources hbound⟩⟩, ?_⟩
  intro request tree hthreshold hsize
  rw [status_audit]
  cases hreport : reportFor tree request with
  | error e => rfl
  | ok report =>
    obtain ⟨catalog, config, sources, rfl, hcharacters⟩ := exists_compare_of_reportFor hreport
    have hactions := hcharacters .actions
    have htypes := hcharacters .types
    have hsquare : tree.size * tree.size ≤ 2 ^ 400 * 2 ^ 400 :=
      Nat.mul_le_mul hsize.le hsize.le
    have hlimit : 2 * (2 ^ 400 * 2 ^ 400) < 2 ^ 1000 := by decide +kernel
    simp only [Sources.ofKind] at hactions htypes
    have hiff := hshort catalog config sources (by omega)
    simp only [hthreshold, hiff]

/-- One column of one, and a threshold of 101. -/
theorem audit_fails_at_hundred_and_one :
    let schema := "CREATE TABLE users (user_id uuid);"
    let config := { Config.standard with fileTables := .ofList [("a.ts", .ofList ["users"])] }
    let report := compare (Catalog.parse schema) config ⟨[⟨"a.ts", ".eq('user_id', id)"⟩], []⟩
    let request : AuditRequest :=
      ⟨some (.ofNat 101), .json, none, ⟨""⟩, some ⟨"schema.sql"⟩, none, none⟩
    let tree : Tree := ⟨.folder [("schema.sql", .file schema.toUTF8)], []⟩
    report.totals.overall = ⟨1, 1⟩ ∧ report.overallPercentage = .ofNat 100 ∧
      (runIn tree (.audit request)).1.status = 1 := by
  intro schema config report request tree
  have hread : readThreshold "101" = .ok (.ofNat 101) := by decide +kernel
  obtain ⟨hreport, hrun⟩ := audit_fails_iff_threshold_above_hundred hread
  refine ⟨by decide +kernel, ?_, ?_⟩
  · exact ((hreport schema config ⟨[⟨"a.ts", ".eq('user_id', id)"⟩], []⟩).2 (by decide +kernel)).1
      report.totals.overall (by simp [Report.scopes, report])
  · rw [hrun request tree rfl (by decide +kernel)]
    decide +kernel

end ColumnAudit.Program
