import ColumnAudit.Proofs.Audit.Folder

/-! # What is found in a folder

The extension of a file name is what stands behind its last dot (`extension?_eq_some_iff`). A name that
ends in a dot and an extension is therefore found only if the extension has no dot of its own: with
such an extension the files of a folder are found exactly, in the order of their names, and with any
other none is (`discover_exact_iff`).
-/

namespace ColumnAudit.Audit
open Files Text
set_option autoImplicit false

/-! ## Names and extensions -/

/-- A name is a stem that is not empty, a dot and the extension. -/
def EndsIn (extension name : String) : Prop :=
  ∃ stem, stem ≠ "" ∧ name = stem ++ "." ++ extension

theorem endsIn_iff {extension name : String} :
    EndsIn extension name ↔ ∃ stem, stem ≠ [] ∧ name.toList = stem ++ '.' :: extension.toList := by
  constructor
  · rintro ⟨stem, hstem, rfl⟩
    refine ⟨stem.toList, fun h => hstem (String.toList_eq_nil_iff.1 h), ?_⟩
    rw [String.toList_append, String.toList_append, List.append_assoc]
    rfl
  · rintro ⟨stem, hstem, hname⟩
    refine ⟨String.ofList stem, fun h => hstem (by simpa using h), ?_⟩
    rw [← String.toList_inj, hname, String.toList_append, String.toList_append, String.toList_ofList,
      List.append_assoc]
    rfl

theorem extension?_of_no_dot {name : List Char} (h : '.' ∉ name) :
    extension? (String.ofList name) = none := by
  have hdrop : name.reverse.dropWhile (· != '.') = [] := by
    rw [List.dropWhile_eq_nil_iff]
    intro c hc
    rw [bne_iff_ne]
    rintro rfl
    exact h (List.mem_reverse.1 hc)
  unfold extension?
  rw [String.toList_ofList]
  dsimp only
  rw [hdrop]

theorem extension?_of_last_dot {stem last : List Char} (h : '.' ∉ last) :
    extension? (String.ofList (stem ++ '.' :: last)) =
      if stem = [] then none else some (String.ofList last) := by
  have hreversed : (stem ++ '.' :: last).reverse = last.reverse ++ '.' :: stem.reverse := by simp
  have hlast : ∀ c ∈ last.reverse, (c != '.') = true := by
    intro c hc
    rw [bne_iff_ne]
    rintro rfl
    exact h (List.mem_reverse.1 hc)
  obtain ⟨htake, hdrop⟩ := takeWhile_dropWhile_append hlast (b := '.' :: stem.reverse) (by simp)
  unfold extension?
  rw [String.toList_ofList]
  dsimp only
  rw [hreversed, htake, hdrop, List.reverse_reverse]
  cases hstem : stem.reverse with
  | nil => rw [if_pos (List.reverse_eq_nil_iff.1 hstem)]
  | cons c rest =>
    rw [if_neg]
    rintro rfl
    cases hstem

/-- The extension of a name is what stands behind its last dot. -/
theorem extension?_eq_some_iff {extension name : String} :
    extension? name = some extension ↔ '.' ∉ extension.toList ∧ EndsIn extension name := by
  rw [endsIn_iff]
  constructor
  · intro h
    rw [← String.ofList_toList (s := name)] at h
    by_cases hdot : '.' ∈ name.toList
    -- The first dot from behind is the last one.
    · obtain ⟨last, stem, hsplit, hlast⟩ := List.eq_append_cons_of_mem (List.mem_reverse.2 hdot)
      rw [List.reverse_eq_iff, List.reverse_append, List.reverse_cons, List.append_assoc] at hsplit
      have hlast' : '.' ∉ last.reverse := fun hmem => hlast (List.mem_reverse.1 hmem)
      rw [hsplit, List.singleton_append, extension?_of_last_dot hlast'] at h
      split at h
      · cases h
      · rename_i hstem
        obtain rfl := Option.some.inj h
        rw [String.toList_ofList]
        exact ⟨hlast', stem.reverse, hstem, hsplit⟩
    · rw [extension?_of_no_dot hdot] at h
      cases h
  · rintro ⟨hdot, stem, hstem, hname⟩
    rw [← String.ofList_toList (s := name), hname, extension?_of_last_dot hdot, if_neg hstem,
      String.ofList_toList]

/-! ## Folders -/

/-- In a folder there is a file of that name. -/
def HasFile (t : Tree) (folder : Path) (name : String) : Prop :=
  ∃ members bytes, t.node folder = .ok (.folder members) ∧ (name, .file bytes) ∈ members

/-- The paths are those of the files in a folder whose names end in a dot and the extension, in the
order of the names. -/
def Discovers (t : Tree) (folder : Path) (extension : String) (paths : List Path) : Prop :=
  ∃ names : List String, paths = names.map (fun name => folder.join ⟨name⟩) ∧
    names.Pairwise (· < ·) ∧
    ∀ name, name ∈ names ↔ HasFile t folder name ∧ EndsIn extension name

section Folders
variable {t : Tree} (hwell : t.WellNamed) {folder : Path}
  (hfolder : ∀ bytes, t.node folder ≠ .ok (.file bytes))
include hwell hfolder

/-- What is found in a folder: the files with the extension, as long as it has no dot. -/
theorem exists_pathsIn (extension : String) :
    ∃ names : List String,
      pathsIn t folder extension = .ok (names.map fun name => folder.join ⟨name⟩) ∧
      names.Pairwise (· < ·) ∧
      ∀ name, name ∈ names ↔
        HasFile t folder name ∧ '.' ∉ extension.toList ∧ EndsIn extension name := by
  cases hnode : t.node folder with
  | error e =>
    have habsent : ¬ t.isPresent folder = true := by
      rw [isPresent_iff, hnode]
      exact nofun
    refine ⟨[], pathsIn_of_not_present habsent, .nil, fun name => ⟨nofun, ?_⟩⟩
    rintro ⟨⟨members, bytes, hmembers, -⟩, -⟩
    rw [hnode] at hmembers
    cases hmembers
  | ok node =>
    cases node with
    | file bytes => exact absurd hnode (hfolder bytes)
    | folder members =>
      have hnodup : ((listing members).map Prod.fst).Nodup := by
        have hlisted : (listing members).map Prod.fst = members.map Prod.fst := List.map_map
        rw [hlisted]
        exact Tree.names_nodup_of_node hwell hnode
      refine ⟨_, pathsIn_of_folder hnode, ascending_sourceNames hnodup, fun name => ?_⟩
      rw [mem_sourceNames, mem_listing, extension?_eq_some_iff]
      refine and_congr_left' ⟨?_, ?_⟩
      · rintro ⟨bytes, hmem⟩
        exact ⟨members, bytes, hnode, hmem⟩
      · rintro ⟨others, bytes, hothers, hmem⟩
        obtain rfl := FileNode.folder.inj (Except.ok.inj (hnode.symm.trans hothers))
        exact ⟨bytes, hmem⟩

/-- The search of a folder gives exactly its files with the extension, in the order of their names,
if and only if the extension has no dot or no file of the folder ends in it. With a dot in the
extension nothing is found, and a folder that is not there holds nothing. -/
theorem discover_exact_iff (config : Config) :
    ∃ paths,
      (∀ log, ∃ log', ((discover folder config.normalExtension :
        Task (StateM Tree) (List Path)).run.run log).run t = ((.ok paths, log'), t)) ∧
      (Discovers t folder config.normalExtension paths ↔
        '.' ∉ config.normalExtension.toList ∨
          ∀ name, HasFile t folder name → ¬ EndsIn config.normalExtension name) ∧
      ('.' ∈ config.normalExtension.toList → paths = []) ∧
      (¬ t.isPresent folder → paths = []) := by
  generalize config.normalExtension = extension
  obtain ⟨names, hpaths, hascending, hnames⟩ := exists_pathsIn hwell hfolder extension
  -- No extension of a name has a dot, so an extension that has one is never met.
  have hnone : '.' ∈ extension.toList → names = [] := by
    intro hdot
    refine List.eq_nil_iff_forall_not_mem.2 fun name hmem => ?_
    exact ((hnames name).1 hmem).2.1 hdot
  refine ⟨names.map fun name => folder.join ⟨name⟩, fun log => ?runs, ⟨?only, ?exact⟩, ?dotted,
    ?absent⟩
  case runs =>
    rw [← hpaths]
    exact reads_discover folder extension log t
  case only =>
    rintro ⟨others, hsame, -, hothers⟩
    by_cases hdot : '.' ∈ extension.toList
    · right
      intro name hfile hends
      rw [hnone hdot, List.map_nil, eq_comm, List.map_eq_nil_iff] at hsame
      have hmem := (hothers name).2 ⟨hfile, hends⟩
      rw [hsame] at hmem
      cases hmem
    · exact .inl hdot
  case exact =>
    intro h
    refine ⟨names, rfl, hascending, fun name => ?_⟩
    rw [hnames name]
    rcases h with hdot | hends
    · exact and_congr_right fun _ => and_iff_right hdot
    · exact and_congr_right fun hfile => by simp [hends name hfile]
  case dotted =>
    intro hdot
    rw [hnone hdot, List.map_nil]
  case absent =>
    intro habsent
    rw [pathsIn_of_not_present habsent] at hpaths
    exact (Except.ok.inj hpaths).symm

end Folders

/-- One source is found beside a folder and a file that are none. -/
theorem discover_one_of_three :
    let t : Tree := ⟨.folder [("lib", .folder [("c.ts", .folder []), ("x.d.ts", .file "x".toUTF8),
      ("ts", .file "y".toUTF8)])], []⟩
    t.WellNamed ∧ Discovers t ⟨"lib"⟩ Config.standard.normalExtension [⟨"lib/x.d.ts"⟩] := by
  intro t
  have hwell : t.WellNamed := by
    simp only [t, Tree.WellNamed, FileNode.WellNamed, FileNode.MembersWellNamed]
    decide +kernel
  have hlist : t.list ⟨"lib"⟩ = .ok [("c.ts", false), ("x.d.ts", true), ("ts", true)] := by
    decide +kernel
  have hfolder : ∀ bytes, t.node ⟨"lib"⟩ ≠ .ok (.file bytes) := by
    intro bytes h
    rw [Tree.list, h] at hlist
    cases hlist
  have hextension : '.' ∉ Config.standard.normalExtension.toList := by decide +kernel
  have hfound : (((discover ⟨"lib"⟩ Config.standard.normalExtension :
      Task (StateM Tree) (List Path)).run.run []).run t).1.1 = .ok [⟨"lib/x.d.ts"⟩] := by
    decide +kernel
  obtain ⟨paths, hrun, hexact, -⟩ := discover_exact_iff hwell hfolder Config.standard
  obtain ⟨log, hlog⟩ := hrun []
  rw [hlog] at hfound
  obtain rfl := Except.ok.inj hfound
  exact ⟨hwell, hexact.2 (.inl hextension)⟩

/-- With the extension `d.ts`, which has no flaw, the file `api.d.ts` is not found. -/
theorem discover_misses_dotted_extension :
    let t : Tree := ⟨.folder [("lib", .folder [("api.d.ts", .file "x".toUTF8)])], []⟩
    let config : Config := { Config.standard with extension := "d.ts" }
    config.flaw? = none ∧
      (((discover ⟨"lib"⟩ config.normalExtension : Task (StateM Tree) (List Path)).run.run []).run
        t).1.1 = .ok [] ∧
      HasFile t ⟨"lib"⟩ "api.d.ts" ∧ EndsIn config.normalExtension "api.d.ts" ∧
      ¬ Discovers t ⟨"lib"⟩ config.normalExtension [] := by
  intro t config
  have hextension : config.normalExtension = "d.ts" := by decide +kernel
  have hends : EndsIn config.normalExtension "api.d.ts" := by
    rw [hextension]
    exact ⟨"api", by decide, by decide⟩
  have hlist : t.list ⟨"lib"⟩ = .ok [("api.d.ts", true)] := by decide +kernel
  have hfile : HasFile t ⟨"lib"⟩ "api.d.ts" := by
    rw [Tree.list] at hlist
    obtain ⟨node, hnode, hlisted⟩ := exists_of_bind_eq_ok hlist
    cases node with
    | file bytes => cases hlisted
    | folder members =>
      have hlisting : listing members = [("api.d.ts", true)] := Except.ok.inj hlisted
      have hmem : ("api.d.ts", true) ∈ listing members := by
        rw [hlisting]
        exact List.mem_singleton_self _
      obtain ⟨bytes, hbytes⟩ := mem_listing.1 hmem
      exact ⟨members, bytes, hnode, hbytes⟩
  refine ⟨by decide +kernel, by decide +kernel, hfile, hends, ?_⟩
  rintro ⟨names, hnil, -, hnames⟩
  have hmem := (hnames "api.d.ts").2 ⟨hfile, hends⟩
  rw [List.map_eq_nil_iff.1 hnil.symm] at hmem
  cases hmem

end ColumnAudit.Audit
