import ColumnAudit.Proofs.Audit.Run
import ColumnAudit.Proofs.Files.Members
import Mathlib.Data.String.Basic

/-! # Sources in folders

The sources of a kind are the files of one folder with one extension, each with its text, in the order
of their names (`Sourced`). They can be read exactly if the folder is no file and all these files hold
text (`sourced_of_sourcesOfKind`, `exists_sourcesOfKind`). A folder that is not there has no sources.
-/

namespace ColumnAudit.Audit
open Files Source
set_option autoImplicit false

/-! ## Files with an extension -/

/-- In a folder there is a file of that name, with the extension and with these bytes. -/
def HasSource (t : Tree) (folder : Path) (extension name : String) (bytes : ByteArray) : Prop :=
  ∃ members, t.node folder = .ok (.folder members) ∧ (name, .file bytes) ∈ members ∧
    extension? name = some extension

/-- The sources are all files of a folder that have the extension, in the order of their names. -/
structure Sourced (t : Tree) (folder : Path) (extension : String) (files : List SourceFile) :
    Prop where
  ascending : files.Pairwise fun a b => a.name < b.name
  mem_iff : ∀ source, source ∈ files ↔
    HasSource t folder extension source.name source.text.toUTF8

section Names
variable {extension name : String} {members : List (String × FileNode)}

/-- The members of a folder as they are listed. -/
def listing (members : List (String × FileNode)) : List (String × Bool) :=
  members.map fun (name, node) => (name, match node with | .file _ => true | .folder _ => false)

theorem list_eq_listing {t : Tree} {folder : Path} (h : t.node folder = .ok (.folder members)) :
    t.list folder = .ok (listing members) := by
  rw [Tree.list, h]
  rfl

theorem mem_listing : (name, true) ∈ listing members ↔ ∃ bytes, (name, .file bytes) ∈ members := by
  rw [listing, List.mem_map]
  constructor
  · rintro ⟨⟨other, node⟩, hmem, heq⟩
    cases node with
    | file bytes => exact ⟨bytes, (Prod.mk.inj heq).1 ▸ hmem⟩
    | folder inner => cases (Prod.mk.inj heq).2
  · rintro ⟨bytes, hmem⟩
    exact ⟨_, hmem, rfl⟩

theorem mem_sourceNames {listed : List (String × Bool)} :
    name ∈ sourceNames extension listed ↔
      (name, true) ∈ listed ∧ extension? name = some extension := by
  rw [sourceNames, List.mem_mergeSort, List.mem_map]
  constructor
  · rintro ⟨⟨other, isFile⟩, hmem, rfl⟩
    simp only [List.mem_filter, Bool.and_eq_true, beq_iff_eq] at hmem
    obtain ⟨hmem, rfl, hextension⟩ := hmem
    exact ⟨hmem, hextension⟩
  · rintro ⟨hmem, hextension⟩
    refine ⟨(name, true), ?_, rfl⟩
    simp [hmem, hextension]

theorem ascending_sourceNames {listed : List (String × Bool)}
    (h : (listed.map Prod.fst).Nodup) : (sourceNames extension listed).Pairwise (· < ·) := by
  have hsorted : (sourceNames extension listed).Pairwise fun a b => decide (a ≤ b) = true :=
    List.pairwise_mergeSort
      (fun a b c hab hbc =>
        decide_eq_true ((of_decide_eq_true hab).trans (of_decide_eq_true hbc)))
      (fun a b => by simpa using le_total a b) _
  have hnodup : (sourceNames extension listed).Nodup := by
    rw [sourceNames, (List.mergeSort_perm _ _).nodup_iff]
    exact h.sublist (List.filter_sublist.map _)
  refine (hsorted.and hnodup).imp fun {a b} hab => ?_
  exact lt_of_le_of_ne (of_decide_eq_true hab.1) hab.2

end Names

/-! ## Reading a folder -/

theorem isPresent_iff {t : Tree} {p : Path} : t.isPresent p = true ↔ ∃ node, t.node p = .ok node := by
  unfold Tree.isPresent
  cases t.node p with
  | error e => exact ⟨nofun, nofun⟩
  | ok node => exact ⟨fun _ => ⟨node, rfl⟩, fun _ => rfl⟩

theorem text_ne_empty_of_node {t : Tree} {p : Path} {node : FileNode} (h : t.node p = .ok node) :
    p.text ≠ "" := by
  intro hempty
  obtain ⟨place, hplace, -⟩ := Tree.exists_place_of_node h
  rw [Tree.place, if_pos hempty] at hplace
  cases hplace

section Folders
variable {t : Tree} {folder : Path} {extension : String}

theorem pathsIn_of_not_present (h : ¬ t.isPresent folder = true) :
    pathsIn t folder extension = .ok [] := if_neg h

theorem pathsIn_ne_ok_of_file {bytes : ByteArray} (h : t.node folder = .ok (.file bytes))
    (paths : List Path) : pathsIn t folder extension ≠ .ok paths := by
  rw [pathsIn, if_pos (isPresent_iff.2 ⟨_, h⟩), Tree.list, h]
  exact nofun

theorem pathsIn_of_folder {members : List (String × FileNode)}
    (h : t.node folder = .ok (.folder members)) :
    pathsIn t folder extension =
      .ok ((sourceNames extension (listing members)).map fun name => folder.join ⟨name⟩) := by
  rw [pathsIn, if_pos (isPresent_iff.2 ⟨_, h⟩), list_eq_listing h]
  rfl

/-- Reading a member gives its name and the text that its bytes encode. -/
theorem sourceAt_member (hwell : t.WellNamed) {members : List (String × FileNode)}
    (hfolder : t.node folder = .ok (.folder members)) {name : String} {bytes : ByteArray}
    (hmem : (name, .file bytes) ∈ members) {source : SourceFile} :
    sourceAt t (folder.join ⟨name⟩) = .ok source ↔
      source.name = name ∧ bytes = source.text.toUTF8 := by
  have hname := Tree.isMemberName_of_mem hwell hfolder hmem
  have hread : t.read (folder.join ⟨name⟩) = .ok bytes := by
    rw [Tree.read, Tree.node_join hwell hfolder hmem]
    rfl
  rw [sourceAt, Path.fileName?_join hname (text_ne_empty_of_node hfolder)]
  constructor
  · intro h
    obtain ⟨text, htext, h⟩ := exists_of_bind_eq_ok h
    obtain rfl := Except.ok.inj h
    have hbytes := Tree.text_eq_ok_iff.1 (eq_ok_of_mapError htext)
    rw [hread] at hbytes
    exact ⟨rfl, Except.ok.inj hbytes⟩
  · rintro ⟨rfl, rfl⟩
    rw [Tree.text_eq_ok_iff.2 hread]
    rfl

theorem hasSource_of_folder {members : List (String × FileNode)}
    (hfolder : t.node folder = .ok (.folder members)) {name : String} {bytes : ByteArray} :
    HasSource t folder extension name bytes ↔
      (name, .file bytes) ∈ members ∧ extension? name = some extension := by
  constructor
  · rintro ⟨others, hothers, h⟩
    obtain rfl := FileNode.folder.inj (Except.ok.inj (hfolder.symm.trans hothers))
    exact h
  · intro h
    exact ⟨members, hfolder, h⟩

theorem sourced_nil (h : ∀ members, t.node folder ≠ .ok (.folder members)) :
    Sourced t folder extension [] :=
  ⟨.nil, fun _ => ⟨nofun, fun ⟨members, hmembers, _⟩ => absurd hmembers (h members)⟩⟩

theorem Sourced.eq_nil {files : List SourceFile} (h : Sourced t folder extension files)
    (habsent : ¬ t.isPresent folder = true) : files = [] := by
  refine List.eq_nil_iff_forall_not_mem.2 fun source hmem => ?_
  obtain ⟨members, hmembers, -⟩ := (h.mem_iff source).1 hmem
  exact habsent (isPresent_iff.2 ⟨_, hmembers⟩)

section Files
variable (hwell : t.WellNamed) {members : List (String × FileNode)}
  (hfolder : t.node folder = .ok (.folder members))
include hwell hfolder

theorem members_of_read {names : List String} {files : List SourceFile}
    (hnames : ∀ name ∈ names, ∃ bytes, (name, .file bytes) ∈ members)
    (h : List.Forall₂ (fun name source => sourceAt t (folder.join ⟨name⟩) = .ok source)
      names files) :
    files.map (·.name) = names ∧
      ∀ source ∈ files, (source.name, .file source.text.toUTF8) ∈ members := by
  induction h with
  | nil => exact ⟨rfl, nofun⟩
  | cons hsource _ ih =>
    obtain ⟨bytes, hmem⟩ := hnames _ (List.mem_cons_self ..)
    obtain ⟨rfl, rfl⟩ := (sourceAt_member hwell hfolder hmem).1 hsource
    obtain ⟨hrest, hfiles⟩ := ih fun name hname => hnames name (List.mem_cons_of_mem _ hname)
    refine ⟨by rw [List.map_cons, hrest], fun other hother => ?_⟩
    rcases List.mem_cons.1 hother with rfl | hother
    · exact hmem
    · exact hfiles other hother

theorem sourced_of_read {files : List SourceFile}
    (h : List.Forall₂ (fun name source => sourceAt t (folder.join ⟨name⟩) = .ok source)
      (sourceNames extension (listing members)) files) :
    Sourced t folder extension files ∧
      ∀ name bytes, HasSource t folder extension name bytes → bytes.IsValidUTF8 := by
  have hnodup := Tree.names_nodup_of_node hwell hfolder
  have hlisted : (listing members).map Prod.fst = members.map Prod.fst := List.map_map
  obtain ⟨hnames, hfiles⟩ := members_of_read hwell hfolder
    (fun name hname => mem_listing.1 (mem_sourceNames.1 hname).1) h
  -- Names differ, so a source that was read under a name holds the bytes of every file of that name.
  have hfound : ∀ name bytes, HasSource t folder extension name bytes →
      ∃ source ∈ files, source.name = name ∧ bytes = source.text.toUTF8 := by
    intro name bytes hsource
    obtain ⟨hmem, hextension⟩ := (hasSource_of_folder hfolder).1 hsource
    have hname : name ∈ files.map (·.name) :=
      hnames ▸ mem_sourceNames.2 ⟨mem_listing.2 ⟨bytes, hmem⟩, hextension⟩
    obtain ⟨source, hin, rfl⟩ := List.mem_map.1 hname
    have hlookup := (FileNode.lookup_eq_some_iff hnodup).2 hmem
    rw [(FileNode.lookup_eq_some_iff hnodup).2 (hfiles source hin)] at hlookup
    exact ⟨source, hin, rfl, (FileNode.file.inj (Option.some.inj hlookup)).symm⟩
  refine ⟨⟨?_, fun source => ⟨fun hin => ?_, fun hsource => ?_⟩⟩, fun name bytes hsource => ?_⟩
  · have hascending : (sourceNames extension (listing members)).Pairwise (· < ·) :=
      ascending_sourceNames (hlisted ▸ hnodup)
    rw [← hnames] at hascending
    exact List.pairwise_map.1 hascending
  · have hname : source.name ∈ sourceNames extension (listing members) :=
      hnames ▸ List.mem_map_of_mem hin
    exact (hasSource_of_folder hfolder).2 ⟨hfiles source hin, (mem_sourceNames.1 hname).2⟩
  · obtain ⟨other, hin, hname, hbytes⟩ := hfound _ _ hsource
    have htext : source.text = other.text := String.toByteArray_inj.1 hbytes
    obtain ⟨name, text⟩ := source
    subst hname htext
    exact hin
  · obtain ⟨source, -, -, rfl⟩ := hfound name bytes hsource
    exact source.text.isValidUTF8

theorem exists_read (hvalid : ∀ name bytes, HasSource t folder extension name bytes →
    bytes.IsValidUTF8) :
    ∀ name ∈ sourceNames extension (listing members),
      ∃ source, sourceAt t (folder.join ⟨name⟩) = .ok source := by
  intro name hname
  obtain ⟨hlisted, hextension⟩ := mem_sourceNames.1 hname
  obtain ⟨bytes, hmem⟩ := mem_listing.1 hlisted
  obtain ⟨text, rfl⟩ := Tree.exists_toUTF8_iff.2
    (hvalid name bytes ((hasSource_of_folder hfolder).2 ⟨hmem, hextension⟩))
  exact ⟨⟨name, text⟩, (sourceAt_member hwell hfolder hmem).2 ⟨rfl, rfl⟩⟩

end Files
end Folders

/-! ## The sources of a kind -/

section Kinds
variable {t : Tree} (hwell : t.WellNamed) {config : Config} {kind : ScanKind}
include hwell

/-- If the sources of a kind can be read, then their folder is no file, all its files with the
extension hold text, and these are the sources. -/
theorem sourced_of_sourcesOfKind {files : List SourceFile}
    (h : sourcesOfKind t config kind = .ok files) :
    (∀ bytes, t.node (config.folder kind) ≠ .ok (.file bytes)) ∧
      (∀ name bytes, HasSource t (config.folder kind) config.normalExtension name bytes →
        bytes.IsValidUTF8) ∧
      Sourced t (config.folder kind) config.normalExtension files := by
  obtain ⟨paths, hpaths, h⟩ := exists_of_bind_eq_ok h
  cases hnode : t.node (config.folder kind) with
  | error e =>
    have habsent : ¬ t.isPresent (config.folder kind) = true := by
      rw [isPresent_iff, hnode]
      exact nofun
    obtain rfl := Except.ok.inj ((pathsIn_of_not_present habsent).symm.trans hpaths)
    obtain rfl := Except.ok.inj h
    have hnone : ∀ members, t.node (config.folder kind) ≠ .ok (.folder members) := by
      rw [hnode]
      exact nofun
    exact ⟨nofun, fun name bytes ⟨members, hmembers, _⟩ => absurd hmembers (hnone members),
      sourced_nil hnone⟩
  | ok node =>
    cases node with
    | file bytes => exact absurd hpaths (pathsIn_ne_ok_of_file hnode paths)
    | folder members =>
      obtain rfl := Except.ok.inj ((pathsIn_of_folder hnode).symm.trans hpaths)
      rw [mapM_eq_ok_iff, List.forall₂_map_left_iff] at h
      obtain ⟨hsourced, hvalid⟩ := sourced_of_read hwell hnode h
      exact ⟨nofun, hvalid, hsourced⟩

/-- If the folder of a kind is no file and all its files with the extension hold text, then its
sources can be read. -/
theorem exists_sourcesOfKind
    (hfile : ∀ bytes, t.node (config.folder kind) ≠ .ok (.file bytes))
    (hvalid : ∀ name bytes, HasSource t (config.folder kind) config.normalExtension name bytes →
      bytes.IsValidUTF8) :
    ∃ files, sourcesOfKind t config kind = .ok files := by
  unfold sourcesOfKind
  by_cases hpresent : t.isPresent (config.folder kind) = true
  · obtain ⟨node, hnode⟩ := isPresent_iff.1 hpresent
    cases node with
    | file bytes => exact absurd hnode (hfile bytes)
    | folder members =>
      rw [pathsIn_of_folder hnode]
      refine exists_mapM_eq_ok fun path hpath => ?_
      obtain ⟨name, hname, rfl⟩ := List.mem_map.1 hpath
      exact exists_read hwell hnode hvalid name hname
  · rw [pathsIn_of_not_present hpresent]
    exact ⟨[], rfl⟩

end Kinds
end ColumnAudit.Audit
