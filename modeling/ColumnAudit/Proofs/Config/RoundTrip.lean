import ColumnAudit.Proofs.Files.Writing
import ColumnAudit.Proofs.Names
import ColumnAudit.Proofs.Program
import ColumnAudit.Proofs.Yaml.OutlineNodes

/-! # Configurations that are written and loaded

The document of some fields of a configuration, in whatever order they stand, is read as the standard
configuration with these fields replaced as a whole (`read_document`). Loading a file with that document
gives this configuration or tells its flaw, and a configuration that has been saved is the one that is loaded
(`load_document`).
-/

namespace ColumnAudit
open Yaml Files
set_option autoImplicit false

/-! ## Names of fields -/

theorem ConfigField.ofName?_name (f : ConfigField) : ConfigField.ofName? f.name = some f := by
  cases f <;> decide

/-! ## Decoding what has been written -/

namespace Decode
variable {α β : Type}

/-- A step of decoding that gives a result and follows no alias. -/
def Decodes (step : Decode α) (a : α) : Prop := ∀ count, step.run count = .ok (a, count)

theorem Decodes.pure (a : α) : Decodes (Pure.pure a) a := fun _ => rfl

theorem Decodes.bind {x : Decode α} {f : α → Decode β} {a : α} {b : β} (hx : Decodes x a)
    (hf : Decodes (f a) b) : Decodes (x >>= f) b := by
  intro count
  rw [StateT.run_bind, hx count]
  exact hf count

variable {doc : Document} {part : String} {node : Node}

theorem decodes_follow {outline : Outline} (h : Shows node outline) : Decodes (follow doc node) node := by
  cases h <;> exact fun _ => rfl

theorem decodes_text {s : String} (h : Shows node (.text s)) (wanted : Wanted) :
    Decodes (text doc wanted part node) s := by
  refine (decodes_follow h).bind ?_
  cases h with
  | text mark => exact Decodes.pure s

theorem decodes_texts {names : List String} {nodes : List Node}
    (h : ShowsItems nodes (names.map .text)) (index : Nat) :
    Decodes (texts doc part index nodes) names := by
  induction names generalizing nodes index with
  | nil =>
    cases h
    exact Decodes.pure []
  | cons name names ih =>
    cases h with
    | cons hname hnames =>
      exact (decodes_text hname .text).bind ((ih hnames (index + 1)).bind (Decodes.pure _))

theorem decodes_names {s : NameSet} (h : Shows node (Config.namesOutline s)) :
    Decodes (names doc part node) s := by
  cases h with
  | sequence mark hnames =>
    have hitems : ∀ nodes, Decodes (items doc part (.sequence mark nodes)) nodes := fun _ _ => rfl
    refine (hitems _).bind ((decodes_texts hnames 0).bind ?_)
    rw [NameSet.ofList_toList]
    exact Decodes.pure s

theorem decodes_entries {tables : List (String × NameSet)} {nodes : List (Node × Node)}
    (h : ShowsPairs nodes (tables.map fun (file, names) => (file, Config.namesOutline names))) :
    Decodes (entries doc part nodes) tables := by
  induction tables generalizing nodes with
  | nil =>
    cases h
    exact Decodes.pure []
  | cons entry tables ih =>
    obtain ⟨file, names⟩ := entry
    cases h with
    | cons mark _ hnames hrest =>
      exact (decodes_text (.text mark file) .text).bind
        ((decodes_names hnames).bind ((ih hrest).bind (Decodes.pure _)))

theorem decodes_pairs (mark : Mark) (nodes : List (Node × Node)) :
    Decodes (pairs doc part (.mapping mark nodes)) nodes := fun _ => rfl

end Decode

/-! ## Fields -/

namespace Config

/-- A configuration with a field replaced by that of another one. -/
def replace (base c : Config) : ConfigField → Config
  | .schema => { base with schema := c.schema }
  | .actionsFolder => { base with actionsFolder := c.actionsFolder }
  | .typesFolder => { base with typesFolder := c.typesFolder }
  | .extension => { base with extension := c.extension }
  | .fileTables => { base with fileTables := c.fileTables }
  | .knownKeys => { base with knownKeys := c.knownKeys }

/-- A configuration with some fields as in another one, as a whole. -/
def withFields (base c : Config) (fields : List ConfigField) : Config where
  schema := if .schema ∈ fields then c.schema else base.schema
  actionsFolder := if .actionsFolder ∈ fields then c.actionsFolder else base.actionsFolder
  typesFolder := if .typesFolder ∈ fields then c.typesFolder else base.typesFolder
  extension := if .extension ∈ fields then c.extension else base.extension
  fileTables := if .fileTables ∈ fields then c.fileTables else base.fileTables
  knownKeys := if .knownKeys ∈ fields then c.knownKeys else base.knownKeys

theorem withFields_nil (base c : Config) : base.withFields c [] = base := by
  simp [withFields]

theorem withFields_all (base c : Config) : base.withFields c ConfigField.all = c := by
  simp [withFields, ConfigField.all]

theorem withFields_cons (base c : Config) (f : ConfigField) (fields : List ConfigField) :
    base.withFields c (f :: fields) = (base.replace c f).withFields c fields := by
  cases f <;> simp [withFields, replace]

end Config

namespace Decode
variable {doc : Document} {part : String} {node : Node}

theorem decodes_field (base c : Config) (f : ConfigField) (h : Shows node (c.fieldOutline f)) :
    Decodes (field doc base f part node) (base.replace c f) := by
  cases f with
  | schema => exact (decodes_text h .path).bind (Decodes.pure _)
  | actionsFolder => exact (decodes_text h .path).bind (Decodes.pure _)
  | typesFolder => exact (decodes_text h .path).bind (Decodes.pure _)
  | extension => exact (decodes_text h .text).bind (Decodes.pure _)
  | knownKeys => exact (decodes_names h).bind (Decodes.pure _)
  | fileTables =>
    cases h with
    | mapping mark hpairs =>
      refine (decodes_pairs mark _).bind ((decodes_entries hpairs).bind ?_)
      rw [NameMap.ofList_entries]
      exact Decodes.pure _

theorem decodes_fields (c : Config) {fields : List ConfigField} (hnodup : fields.Nodup)
    {nodes : List (Node × Node)}
    (h : ShowsPairs nodes (fields.map fun f => (f.name, c.fieldOutline f))) (start : Mark)
    {seen : List ConfigField} (hseen : ∀ f ∈ fields, f ∉ seen) (base : Config) :
    Decodes (Decode.fields doc start seen base nodes) (base.withFields c fields) := by
  induction fields generalizing nodes seen base with
  | nil =>
    cases h
    rw [Config.withFields_nil]
    exact Decodes.pure base
  | cons f fields ih =>
    cases h with
    | cons mark _ hfield hrest =>
      rw [List.nodup_cons] at hnodup
      have hfresh : seen.contains f = false := by
        rw [Bool.eq_false_iff]
        exact fun hmem => hseen f (List.mem_cons_self ..) (List.contains_iff_mem.1 hmem)
      have hseen' : ∀ g ∈ fields, g ∉ f :: seen := by
        intro g hg hmem
        rcases List.mem_cons.1 hmem with rfl | hmem
        · exact hnodup.1 hg
        · exact hseen g (List.mem_cons_of_mem _ hg) hmem
      have hkey : Shows (.scalar mark ⟨f.name, none, formOf f.name⟩) (.text f.name) :=
        .text mark f.name
      refine (decodes_follow hkey).bind ((decodes_text hkey .fieldName).bind ?_)
      rw [ConfigField.ofName?_name, Config.withFields_cons]
      simp only [hfresh, Bool.false_eq_true, if_false]
      exact (decodes_field base c f hfield).bind (ih hnodup.2 hrest hseen' _)

end Decode

namespace Config

theorem read_document (c : Config) {fields : List ConfigField} (hnodup : fields.Nodup) :
    read (c.document fields) = .ok (standard.withFields c fields) := by
  cases fields with
  | nil =>
    rw [withFields_nil]
    rfl
  | cons f fields =>
    obtain ⟨doc, node, hparse, hroot, hnode⟩ := parse_document f.name (c.fieldOutline f)
      (fields.map fun f => (f.name, c.fieldOutline f))
    cases hnode with
    | mapping mark hpairs =>
      have hdecodes : Decode.Decodes (Decode.fields doc mark [] standard _) _ :=
        Decode.decodes_fields c hnodup hpairs mark (fun f _ => List.not_mem_nil) standard
      have hconfig : (Decode.config doc).run 0 = .ok (standard.withFields c (f :: fields), 0) := by
        rw [Decode.config, hroot]
        exact hdecodes 0
      have hparse' : Document.parse (c.document (f :: fields)) = .ok doc := hparse
      rw [read, hparse']
      simp only [hconfig]

/-! ## Files -/

/-- A configuration as it is loaded from a file: it is rejected if it has a flaw. -/
def checked (path : Path) (c : Config) : Except Failure Config :=
  match c.flaw? with
  | some flaw => .error (.configFlawed path flaw)
  | none => .ok c

/-- Loading a file of a tree ends with a result, whatever has been logged before, and leaves the tree as it
is. -/
def Loads (t : Tree) (path : Path) (result : Except Failure Config) : Prop :=
  ∀ log, ∃ log', ((load path : Task (StateM Tree) Config).run.run log).run t = ((result, log'), t)

theorem ofBytes_toUTF8 (text : String) : ofBytes text.toUTF8 = read text := by
  have hvalid : text.toUTF8.IsValidUTF8 := text.isValidUTF8
  have htext : String.fromUTF8? text.toUTF8 = some text := by
    rw [String.fromUTF8?, dif_pos hvalid]
    rfl
  rw [ofBytes, htext]

theorem loads_of_read {t : Tree} {path : Path} {text : String} {c : Config}
    (hfile : t.read path = .ok text.toUTF8) (htext : read text = .ok c) :
    Loads t path (checked path c) := by
  have hconfig : Program.configIn t (some path) = checked path c := by
    rw [Program.configIn, hfile]
    change ofFile path text.toUTF8 = checked path c
    rw [ofFile, ofBytes_toUTF8, htext]
    rfl
  rw [← hconfig]
  exact fun log => Program.reads_loadOrStandard (some path) log t

theorem read_of_save {t t' : Tree} {path : Path} {c : Config}
    (h : (c.save path : StateM Tree (Except FileError Unit)).run t = (.ok (), t')) :
    t'.read path = .ok c.yaml.toUTF8 := by
  have hwrite : t.write path c.yaml.toUTF8 = .ok t' := by
    simp only [save, WritesFiles.write, StateT.run] at h
    split at h
    · rename_i written hwritten
      obtain ⟨-, rfl⟩ := Prod.mk.inj h
      exact hwritten
    · cases h
  exact Tree.read_write hwrite

/-- A file that holds some fields of a configuration, in any order, is loaded as the standard configuration
with exactly these fields replaced, or rejected for the flaw that this configuration has. A configuration
without a flaw that has been saved is loaded as it was. -/
theorem load_document (c : Config) (t : Tree) (path : Path) :
    (∀ fields : List ConfigField, fields.Nodup →
      t.read path = .ok (c.document fields).toUTF8 →
        Loads t path (checked path (standard.withFields c fields))) ∧
    ∀ t' : Tree, c.flaw? = none →
      (c.save path : StateM Tree (Except FileError Unit)).run t = (.ok (), t') →
        Loads t' path (.ok c) := by
  constructor
  · intro fields hnodup hfile
    exact loads_of_read hfile (read_document c hnodup)
  · intro t' hflaw hsave
    have hread : read c.yaml = .ok (standard.withFields c ConfigField.all) :=
      read_document c (by decide)
    rw [withFields_all] at hread
    have hloads := loads_of_read (read_of_save hsave) hread
    rw [checked, hflaw] at hloads
    exact hloads

/-- A file with two fields, whose texts look like something else, and the configuration saved in its
place. -/
theorem load_document_of_two_fields :
    let c : Config := { standard with schema := ⟨"null\n"⟩, extension := " 0x1F" }
    let holding := fun bytes : ByteArray => Tree.mk (.folder [("audit.yml", .file bytes)]) []
    let path : Path := ⟨"audit.yml"⟩
    let fields : List ConfigField := [.extension, .schema]
    Loads (holding (c.document fields).toUTF8) path (.ok c) ∧
      (c.save path : StateM Tree (Except FileError Unit)).run (holding (c.document fields).toUTF8) =
        (.ok (), holding c.yaml.toUTF8) ∧
      Loads (holding c.yaml.toUTF8) path (.ok c) := by
  intro c holding path fields
  have hread : ∀ bytes : ByteArray,
      (Tree.mk (.folder [("audit.yml", .file bytes)]) []).read ⟨"audit.yml"⟩ = .ok bytes :=
    fun _ => rfl
  have hwrite : ∀ old bytes : ByteArray,
      (Tree.mk (.folder [("audit.yml", .file old)]) []).write ⟨"audit.yml"⟩ bytes =
        .ok ⟨.folder [("audit.yml", .file bytes)], []⟩ :=
    fun _ _ => rfl
  have hsave : (c.save path : StateM Tree (Except FileError Unit)).run
      (holding (c.document fields).toUTF8) = (.ok (), holding c.yaml.toUTF8) := by
    simp only [save, WritesFiles.write, StateT.run, holding, path, hwrite]
  have hflaw : c.flaw? = none := by decide +kernel
  have hc : standard.withFields c fields = c := by simp [withFields, c, fields]
  obtain ⟨hloaded, hsaved⟩ := load_document c (holding (c.document fields).toUTF8) path
  refine ⟨?_, hsave, hsaved _ hflaw hsave⟩
  have h := hloaded fields (by decide) (hread _)
  rw [hc, checked, hflaw] at h
  exact h

end Config

end ColumnAudit
