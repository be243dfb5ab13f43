import ColumnAudit.Audit.Run
import ColumnAudit.Proofs.Files.Reading
import ColumnAudit.Proofs.Source.QueryPatterns

/-! # What an audit reads

In a file tree an audit is a function of the tree. `reportIn` says which files it reads and in which
order it fails, without the records it logs; `reads_run` says that the audit does just that and leaves
the tree as it is. What it reads is bounded by the size of the tree (`characters_le_of_sourcesIn`).
-/

namespace ColumnAudit.Audit
open Files Schema Source
set_option autoImplicit false

/-! ## Files and folders -/

/-- The paths of the files in a folder that have an extension. -/
def pathsIn (t : Tree) (folder : Path) (extension : String) : Except Failure (List Path) :=
  if t.isPresent folder then do
    let members ← (t.list folder).mapError (Failure.folderNotListed folder)
    return (sourceNames extension members).map fun name => folder.join ⟨name⟩
  else .ok []

/-- The source at a path. -/
def sourceAt (t : Tree) (path : Path) : Except Failure SourceFile :=
  match path.fileName? with
  | some name => do return ⟨name, ← (t.text path).mapError (Failure.sourceNotRead path)⟩
  | none => .error (.sourceUnnamed path)

/-- The sources of one kind. -/
def sourcesOfKind (t : Tree) (config : Config) (kind : ScanKind) :
    Except Failure (List SourceFile) := do
  (← pathsIn t (config.folder kind) config.normalExtension).mapM (sourceAt t)

/-- The sources of both kinds. -/
def sourcesIn (t : Tree) (config : Config) : Except Failure Sources := do
  let actions ← sourcesOfKind t config .actions
  let types ← sourcesOfKind t config .types
  return ⟨actions, types⟩

/-- The catalog of the schema at a path. -/
def catalogAt (t : Tree) (path : Path) : Except Failure Catalog :=
  ((t.text path).mapError (Failure.schemaNotRead path)).map Catalog.parse

/-- The report on the files that a configuration names. -/
def reportIn (t : Tree) (config : Config) : Except Failure Report := do
  let catalog ← catalogAt t config.schema
  let sources ← sourcesIn t config
  return compare catalog config sources

/-! ## The tasks of an audit -/

theorem reads_discover (folder : Path) (extension : String) :
    Task.Reads (discover folder extension) fun t => pathsIn t folder extension := by
  unfold discover
  refine ((Task.Reads.isPresent folder).bind (h := fun present t =>
    if present then do
      let members ← (t.list folder).mapError (Failure.folderNotListed folder)
      return (sourceNames extension members).map fun name => folder.join ⟨name⟩
    else .ok []) fun present => ?_).congr fun t => ?_
  · cases present with
    | true =>
      exact (Task.Reads.list folder (.folderNotListed folder)).bind fun members =>
        Task.Reads.pure _
    | false => exact (Task.Reads.log _).bind fun _ => Task.Reads.pure []
  · rfl

theorem reads_readSource (path : Path) :
    Task.Reads (readSource path) fun t => sourceAt t path := by
  unfold readSource sourceAt
  cases path.fileName? with
  | some name =>
    exact (Task.Reads.readText path (.sourceNotRead path)).bind fun text => Task.Reads.pure _
  | none => exact Task.Reads.throw _

theorem reads_loadKind (config : Config) (kind : ScanKind) :
    Task.Reads (loadKind config kind) fun t => sourcesOfKind t config kind := by
  unfold loadKind
  refine ((reads_discover _ _).bind fun paths =>
    (Task.Reads.mapM reads_readSource paths).bind fun sources =>
      (Task.Reads.log _).bind fun _ => Task.Reads.pure sources).congr fun t => ?_
  simp only [sourcesOfKind]
  cases pathsIn t (config.folder kind) config.normalExtension with
  | error e => rfl
  | ok paths =>
    simp only [bind, Except.bind]
    cases paths.mapM (sourceAt t) <;> rfl

theorem reads_loadSources (config : Config) :
    Task.Reads (loadSources config) fun t => sourcesIn t config :=
  (reads_loadKind config .actions).bind fun _ =>
    (reads_loadKind config .types).bind fun _ => Task.Reads.pure _

theorem reads_loadCatalog (path : Path) (origin : LogOrigin) :
    Task.Reads (loadCatalog path origin) fun t => catalogAt t path := by
  refine ((Task.Reads.readText path (.schemaNotRead path)).bind fun text =>
    (Task.Reads.log _).bind fun _ => Task.Reads.pure (Catalog.parse text)).congr fun t => ?_
  unfold catalogAt
  cases (t.text path).mapError (Failure.schemaNotRead path) <;> rfl

theorem reads_run (config : Config) : Task.Reads (run config) fun t => reportIn t config :=
  (reads_loadCatalog config.schema .audit).bind fun _ =>
    (reads_loadSources config).bind fun _ =>
      (Task.Reads.log _).bind fun _ => (Task.Reads.log _).bind fun _ => Task.Reads.pure _

/-! ## How much is read -/

section Sizes
variable {t : Tree} {config : Config} {kind : ScanKind}

theorem length_pathsIn_le {folder : Path} {extension : String} {paths : List Path}
    (h : pathsIn t folder extension = .ok paths) : paths.length ≤ t.size := by
  unfold pathsIn at h
  split at h
  · obtain ⟨members, hmembers, h⟩ := exists_of_bind_eq_ok h
    obtain rfl := Except.ok.inj h
    rw [List.length_map, sourceNames, List.length_mergeSort, List.length_map]
    exact (List.length_filter_le _ _).trans (Tree.length_le_of_list (eq_ok_of_mapError hmembers))
  · obtain rfl := Except.ok.inj h
    exact Nat.zero_le _

theorem length_text_sourceAt_le {path : Path} {source : SourceFile}
    (h : sourceAt t path = .ok source) : source.text.toList.length ≤ t.size := by
  unfold sourceAt at h
  split at h
  · obtain ⟨text, htext, h⟩ := exists_of_bind_eq_ok h
    obtain rfl := Except.ok.inj h
    exact Tree.length_le_of_text (eq_ok_of_mapError htext)
  · cases h

theorem characters_le_of_mapM {paths : List Path} {files : List SourceFile}
    (h : paths.mapM (sourceAt t) = .ok files) : characters files ≤ paths.length * t.size := by
  rw [mapM_eq_ok_iff] at h
  induction h with
  | nil => exact Nat.zero_le _
  | cons hsource _ ih =>
    have hfirst := length_text_sourceAt_le hsource
    rw [List.length_cons, Nat.add_mul, Nat.one_mul, characters]
    omega

theorem characters_sourcesOfKind_le {files : List SourceFile}
    (h : sourcesOfKind t config kind = .ok files) : characters files ≤ t.size * t.size := by
  obtain ⟨paths, hpaths, h⟩ := exists_of_bind_eq_ok h
  exact (characters_le_of_mapM h).trans (Nat.mul_le_mul_right _ (length_pathsIn_le hpaths))

/-- Each file is read at most once for each member of its folder. -/
theorem characters_le_of_sourcesIn {sources : Sources} (h : sourcesIn t config = .ok sources) :
    characters (sources.ofKind kind) ≤ t.size * t.size := by
  obtain ⟨actions, hactions, h⟩ := exists_of_bind_eq_ok h
  obtain ⟨types, htypes, h⟩ := exists_of_bind_eq_ok h
  obtain rfl := Except.ok.inj h
  cases kind with
  | actions => exact characters_sourcesOfKind_le hactions
  | types => exact characters_sourcesOfKind_le htypes

end Sizes
end ColumnAudit.Audit
