import ColumnAudit.Proofs.Files.Members

/-! # Writing files

What a tree holds is seen place by place: a file with its bytes, a folder, or nothing
(`Tree.standing`). Writing to a path puts a file at the one place that the path names and leaves all
other places as they are (`Tree.standing_write`). Folders remain folders, so all paths lead where they led
before, and the path that was written to leads to the new file (`Tree.read_write`).
-/

namespace ColumnAudit.Files
set_option autoImplicit false

/-! ## What stands at a place -/

/-- What is seen of a node at its own place: the bytes of a file, or that it is a folder. -/
inductive Standing where
  | file (contents : ByteArray)
  | folder

/-- What is seen of a node at its own place. -/
def FileNode.standing : FileNode → Standing
  | .file contents => .file contents
  | .folder _ => .folder

/-- What stands at a place, given by its names from the root. -/
def Tree.standing (t : Tree) (names : List String) : Option Standing :=
  (t.root.at? names).map FileNode.standing

/-! ## Replacing a node -/

namespace FileNode

theorem lookup_setMember (name other : String) (node : FileNode)
    (members : List (String × FileNode)) :
    (setMember name node members).lookup other =
      if other = name then some node else members.lookup other := by
  induction members with
  | nil =>
    rw [setMember, List.lookup_cons, List.lookup_nil]
    by_cases h : other = name
    · rw [if_pos h, beq_iff_eq.2 h]
    · rw [if_neg h, beq_eq_false_iff_ne.2 h]
  | cons member members ih =>
    obtain ⟨first, old⟩ := member
    rw [setMember]
    by_cases hfirst : first = name
    · rw [if_pos hfirst, List.lookup_cons, List.lookup_cons, hfirst]
      by_cases h : other = name
      · rw [if_pos h, beq_iff_eq.2 h]
      · rw [if_neg h, beq_eq_false_iff_ne.2 h]
    · rw [if_neg hfirst, List.lookup_cons, List.lookup_cons]
      by_cases h : other = first
      · have hname : ¬ other = name := fun heq => hfirst (h.symm.trans heq)
        rw [if_neg hname, beq_iff_eq.2 h]
      · rw [beq_eq_false_iff_ne.2 h]
        exact ih

/-- A file set into a folder, where nothing but a file is, changes its own place only. -/
theorem standing_setAt {root : FileNode} {folder : List String} {members : List (String × FileNode)}
    (hfolder : root.at? folder = some (.folder members)) {last : String}
    (hlast : ∀ inner, members.lookup last ≠ some (.folder inner)) (contents : ByteArray)
    (names : List String) :
    ((setAt (.file contents) (folder ++ [last]) root).at? names).map standing =
      if names = folder ++ [last] then some (.file contents)
      else (root.at? names).map standing := by
  induction folder generalizing root names with
  | nil =>
    rw [at?] at hfolder
    obtain rfl := Option.some.inj hfolder
    rw [List.nil_append, setAt]
    cases names with
    | nil => rfl
    | cons name names =>
      rw [at?, at?, lookup_setMember]
      by_cases hname : name = last
      · subst hname
        cases names with
        | nil => simp [at?, standing]
        | cons next names =>
          have hne : ¬ name :: next :: names = [name] := by simp
          rw [if_pos rfl, if_neg hne]
          -- Nothing stands behind a file, neither behind the new one nor behind the old one.
          cases hold : members.lookup name with
          | none => rfl
          | some old =>
            cases old with
            | file bytes => rfl
            | folder inner => exact absurd hold (hlast inner)
      · have hne : ¬ name :: names = [last] := fun heq => hname (List.cons.inj heq).1
        rw [if_neg hname, if_neg hne]
  | cons first folder ih =>
    cases root with
    | file bytes => cases hfolder
    | folder outer =>
      rw [at?] at hfolder
      cases hnext : outer.lookup first with
      | none =>
        rw [hnext] at hfolder
        cases hfolder
      | some next =>
        rw [hnext] at hfolder
        have hset : setAt (.file contents) (first :: folder ++ [last]) (.folder outer) =
            .folder (setMember first (setAt (.file contents) (folder ++ [last]) next) outer) := by
          cases folder <;> simp [setAt, hnext]
        rw [hset]
        cases names with
        | nil => rfl
        | cons name names =>
          rw [at?, at?, lookup_setMember]
          by_cases hname : name = first
          · subst hname
            rw [if_pos rfl, hnext]
            have := ih hfolder names
            simpa using this
          · have hne : ¬ name :: names = first :: folder ++ [last] := fun heq =>
              hname (List.cons.inj heq).1
            rw [if_neg hname, if_neg hne]

end FileNode

/-! ## Writing to a path -/

namespace Tree

/-- A path ends in a name, its folder is there, and nothing but a file is in its place. -/
structure LeadsToFile (t : Tree) (p : Path) (folder : List String) (last : String) : Prop where
  not_empty : p.text ≠ ""
  no_nul : '\x00' ∉ p.text.toList
  last_not_empty : last ≠ ""
  last_not_dot : last ≠ "."
  last_not_dots : last ≠ ".."
  leads : ∃ parents, p.segments = parents ++ [last] ∧ follow t.root (t.start p) parents = .ok folder
  replaces : ∃ members, t.root.at? folder = some (.folder members) ∧
    ∀ inner, members.lookup last ≠ some (.folder inner)

section Write
variable {t t' : Tree} {p : Path} {names : List String} {contents : ByteArray}

theorem leadsToFile_of_target (h : t.target p = .ok names) :
    ∃ folder last, names = folder ++ [last] ∧ t.LeadsToFile p folder last := by
  have hrefused : ∀ {α : Type} {e : FileError} {f : Unit → Except FileError α} {a : α},
      (Except.error e >>= f) = Except.ok a → False := nofun
  unfold Tree.target at h
  dsimp only at h
  by_cases htext : p.text = ""
  · rw [if_pos htext] at h
    exact (hrefused h).elim
  rw [if_neg htext] at h
  by_cases hnul : p.text.toList.contains '\x00'
  · rw [if_pos hnul] at h
    exact (hrefused h).elim
  rw [if_neg hnul] at h
  generalize hreversed : p.segments.reverse = reversed at h
  cases hnamed : reversed.dropWhile (· = "") with
  | nil =>
    rw [hnamed] at h
    cases h
  | cons last parents =>
    rw [hnamed] at h
    dsimp only at h
    by_cases hdots : last = "." ∨ last = ".."
    · rw [if_pos hdots] at h
      obtain ⟨_, -, h⟩ := exists_of_bind_eq_ok h
      exact (hrefused h).elim
    rw [if_neg hdots] at h
    obtain ⟨folder, hfollow, h⟩ := exists_of_bind_eq_ok h
    split at h
    · rename_i members hfolder
      by_cases hslash : reversed.head? = some ""
      · rw [if_pos hslash] at h
        exact (hrefused h).elim
      rw [if_neg hslash] at h
      have hwhole : reversed = last :: parents := by
        cases reversed with
        | nil => cases hnamed
        | cons s rest =>
          have hs : ¬ s = "" := fun heq => hslash (congrArg some heq)
          rw [List.dropWhile_cons_of_neg (by simpa using hs)] at hnamed
          exact hnamed
      have hempty : last ≠ "" := fun heq => hslash (by rw [hwhole, heq]; rfl)
      have hsegments : p.segments = parents.reverse ++ [last] := by
        rw [← List.reverse_cons, ← hwhole, ← hreversed, List.reverse_reverse]
      split at h
      · cases h
      · rename_i hlast
        exact ⟨folder, last, (Except.ok.inj h).symm, {
          not_empty := htext
          no_nul := by simpa using hnul
          last_not_empty := hempty
          last_not_dot := fun heq => hdots (.inl heq)
          last_not_dots := fun heq => hdots (.inr heq)
          leads := ⟨parents.reverse, hsegments, hfollow⟩
          replaces := ⟨members, hfolder, fun inner heq => hlast inner heq⟩ }⟩
    · cases h

theorem current_write (h : t.write p contents = .ok t') : t'.current = t.current := by
  obtain ⟨names, -, h⟩ := exists_of_bind_eq_ok h
  rw [← Except.ok.inj h]

/-- Writing to a path puts a file at the place that the path names, and leaves all others alone. -/
theorem standing_write (htarget : t.target p = .ok names) (h : t.write p contents = .ok t')
    (other : List String) :
    t'.standing other = if other = names then some (.file contents) else t.standing other := by
  obtain ⟨folder, last, rfl, hleads⟩ := leadsToFile_of_target htarget
  obtain ⟨members, hfolder, hlast⟩ := hleads.replaces
  rw [Tree.write, htarget] at h
  rw [← Except.ok.inj h]
  exact FileNode.standing_setAt hfolder hlast contents other

/-! ## Paths after a change -/

theorem standing_eq_folder_iff :
    t.standing names = some .folder ↔ ∃ members, t.root.at? names = some (.folder members) := by
  unfold Tree.standing
  cases t.root.at? names with
  | none => simp
  | some node => cases node <;> simp [FileNode.standing]

theorem standing_eq_file_iff {bytes : ByteArray} :
    t.standing names = some (.file bytes) ↔ t.root.at? names = some (.file bytes) := by
  unfold Tree.standing
  cases t.root.at? names with
  | none => simp
  | some node => cases node <;> simp [FileNode.standing]

theorem isSome_lookup_iff {members : List (String × FileNode)}
    (hfolder : t.root.at? names = some (.folder members)) (name : String) :
    (members.lookup name).isSome ↔ (t.standing (names ++ [name])).isSome := by
  rw [Tree.standing, FileNode.at?_append, hfolder, Option.bind_some, FileNode.at?]
  cases members.lookup name with
  | none => simp
  | some node => simp [FileNode.at?]

/-- Where all folders remain and nothing is gone, segments lead where they led before. -/
theorem follow_of_standing (hfolders : ∀ names, t.standing names = some .folder →
      t'.standing names = some .folder)
    (hkept : ∀ names, (t.standing names).isSome → (t'.standing names).isSome)
    {place next : List String} {segments : List String}
    (h : follow t.root place segments = .ok next) : follow t'.root place segments = .ok next := by
  induction segments generalizing place with
  | nil => exact h
  | cons s segments ih =>
    rw [follow] at h ⊢
    split at h
    · rename_i members hfolder
      obtain ⟨members', hfolder'⟩ :=
        standing_eq_folder_iff.1 (hfolders _ (standing_eq_folder_iff.2 ⟨members, hfolder⟩))
      rw [hfolder']
      dsimp only
      split at h
      · rename_i hstay
        rw [if_pos hstay]
        exact ih h
      · rename_i hstay
        rw [if_neg hstay]
        split at h
        · rename_i hup
          rw [if_pos hup]
          exact ih h
        · rename_i hup
          rw [if_neg hup]
          split at h
          · rename_i hthere
            have hthere' := (isSome_lookup_iff hfolder' s).2
              (hkept _ ((isSome_lookup_iff hfolder s).1 hthere))
            rw [if_pos hthere']
            exact ih h
          · cases h
    · cases h

theorem place_write (htarget : t.target p = .ok names) (h : t.write p contents = .ok t') :
    t'.place p = .ok names := by
  have hstanding := standing_write htarget h
  obtain ⟨folder, last, rfl, hleads⟩ := leadsToFile_of_target htarget
  obtain ⟨parents, hsegments, hfollow⟩ := hleads.leads
  obtain ⟨members, hfolder, hlast⟩ := hleads.replaces
  have hnot : t.standing (folder ++ [last]) ≠ some .folder := by
    rw [Ne, standing_eq_folder_iff, FileNode.at?_append, hfolder]
    rintro ⟨inner, hinner⟩
    rw [Option.bind_some, FileNode.at?] at hinner
    split at hinner
    · rename_i node hnode
      obtain rfl := Option.some.inj hinner
      exact hlast inner hnode
    · cases hinner
  have hfolders : ∀ names, t.standing names = some .folder → t'.standing names = some .folder := by
    intro names hnames
    have hne : names ≠ folder ++ [last] := fun heq => hnot (heq ▸ hnames)
    rw [hstanding, if_neg hne, hnames]
  have hkept : ∀ names, (t.standing names).isSome → (t'.standing names).isSome := by
    intro names hnames
    rw [hstanding]
    split
    · rfl
    · exact hnames
  obtain ⟨members', hfolder'⟩ :=
    standing_eq_folder_iff.1 (hfolders folder (standing_eq_folder_iff.2 ⟨members, hfolder⟩))
  have hthere : (members'.lookup last).isSome := by
    rw [isSome_lookup_iff hfolder', hstanding, if_pos rfl]
    rfl
  have hstart : t'.start p = t.start p := by rw [start, start, current_write h]
  have hstay : ¬ (last = "" ∨ last = ".") := not_or.2 ⟨hleads.last_not_empty, hleads.last_not_dot⟩
  have hnul : ¬ p.text.toList.contains '\x00' := by simpa using hleads.no_nul
  rw [Tree.place, if_neg hleads.not_empty, if_neg hnul, hstart, hsegments, follow_append,
    follow_of_standing hfolders hkept hfollow]
  simp only [bind, Except.bind, follow, hfolder', if_neg hstay, if_neg hleads.last_not_dots,
    hthere, if_true]

theorem read_write (h : t.write p contents = .ok t') : t'.read p = .ok contents := by
  obtain ⟨names, htarget, -⟩ := exists_of_bind_eq_ok h
  have hhere := standing_write htarget h names
  rw [if_pos rfl, standing_eq_file_iff] at hhere
  simp only [Tree.read, Tree.node, place_write htarget h, bind, Except.bind, hhere]

end Write
end Tree
end ColumnAudit.Files
