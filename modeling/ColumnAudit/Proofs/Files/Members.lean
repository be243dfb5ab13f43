import ColumnAudit.Proofs.Files.Reading
import ColumnAudit.Proofs.Text.Blank

/-! # Members of folders

In a tree whose folders name their members properly (`Tree.WellNamed`), a member of a folder is what the
path of the folder with the name of the member behind it leads to (`Tree.node_join`), and its name is
the file name of that path (`Path.fileName?_join`). This comes from how joined paths fall into segments
(`Path.segments_join`): a slash at the end of the folder only adds an empty segment, which stays where
it is.
-/

namespace ColumnAudit.Files
open Text
set_option autoImplicit false

/-! ## Names of members -/

/-- What a member of a folder can be called. -/
structure IsMemberName (name : String) : Prop where
  not_empty : name ≠ ""
  not_dot : name ≠ "."
  not_dots : name ≠ ".."
  no_slash : '/' ∉ name.toList
  no_nul : '\x00' ∉ name.toList

instance (name : String) : Decidable (IsMemberName name) :=
  decidable_of_iff (name ≠ "" ∧ name ≠ "." ∧ name ≠ ".." ∧ '/' ∉ name.toList ∧
      '\x00' ∉ name.toList)
    ⟨fun ⟨h1, h2, h3, h4, h5⟩ => ⟨h1, h2, h3, h4, h5⟩,
      fun ⟨h1, h2, h3, h4, h5⟩ => ⟨h1, h2, h3, h4, h5⟩⟩

mutual

/-- In every folder, the names of the members are proper and differ from each other. -/
def FileNode.WellNamed : FileNode → Prop
  | .file _ => True
  | .folder members => (members.map Prod.fst).Nodup ∧ FileNode.MembersWellNamed members

/-- The members of a folder have proper names and are well named inside. -/
def FileNode.MembersWellNamed : List (String × FileNode) → Prop
  | [] => True
  | (name, node) :: members =>
    IsMemberName name ∧ node.WellNamed ∧ FileNode.MembersWellNamed members

end

/-- A tree as a file system holds it. -/
def Tree.WellNamed (t : Tree) : Prop := t.root.WellNamed

namespace FileNode

theorem MembersWellNamed.of_mem {members : List (String × FileNode)} (h : MembersWellNamed members)
    {name : String} {node : FileNode} (hmem : (name, node) ∈ members) :
    IsMemberName name ∧ node.WellNamed := by
  induction members with
  | nil => cases hmem
  | cons member members ih =>
    obtain ⟨hname, hnode, hrest⟩ := h
    rcases List.mem_cons.1 hmem with rfl | hmem
    · exact ⟨hname, hnode⟩
    · exact ih hrest hmem

theorem lookup_eq_some_iff {members : List (String × FileNode)}
    (hnames : (members.map Prod.fst).Nodup) {name : String} {node : FileNode} :
    members.lookup name = some node ↔ (name, node) ∈ members := by
  induction members with
  | nil => simp
  | cons member members ih =>
    obtain ⟨other, old⟩ := member
    rw [List.map_cons, List.nodup_cons] at hnames
    rw [List.lookup_cons]
    by_cases h : name = other
    · subst h
      have hnot : (name, node) ∉ members := fun hmem =>
        hnames.1 (List.mem_map.2 ⟨(name, node), hmem, rfl⟩)
      simp [hnot, eq_comm]
    · rw [beq_eq_false_iff_ne.2 h]
      simp [h, ih hnames.2]

theorem at?_append (root : FileNode) (a b : List String) :
    root.at? (a ++ b) = (root.at? a).bind fun node => node.at? b := by
  induction a generalizing root with
  | nil => simp [at?]
  | cons name a ih =>
    cases root with
    | file contents => simp [at?]
    | folder members =>
      rw [List.cons_append, at?, at?]
      cases members.lookup name with
      | none => rfl
      | some node => exact ih node

theorem WellNamed.of_at? {root node : FileNode} (h : root.WellNamed) {names : List String}
    (hat : root.at? names = some node) : node.WellNamed := by
  induction names generalizing root with
  | nil =>
    rw [at?] at hat
    exact Option.some.inj hat ▸ h
  | cons name names ih =>
    cases root with
    | file contents => cases hat
    | folder members =>
      rw [at?] at hat
      rw [WellNamed] at h
      split at hat
      · rename_i next hnext
        exact ih (h.2.of_mem ((lookup_eq_some_iff h.1).1 hnext)).2 hat
      · cases hat

end FileNode

/-! ## Paths of members -/

namespace Path

section Member
variable {name : String} (h : IsMemberName name)
include h

theorem isAbsolute_member : (⟨name⟩ : Path).isAbsolute = false := by
  rw [isAbsolute, beq_eq_false_iff_ne]
  exact fun hhead => h.no_slash (List.mem_of_mem_head? hhead)

theorem text_join (p : Path) :
    (p.join ⟨name⟩).text = p.text ++ (if p.needsSlash then "/" else "") ++ name := by
  rw [join, isAbsolute_member h]
  rfl

theorem reachable_join {p : Path} (hp : p.text ≠ "") (hnul : ¬ p.text.toList.contains '\x00') :
    (p.join ⟨name⟩).text ≠ "" ∧ ¬ (p.join ⟨name⟩).text.toList.contains '\x00' ∧
      (p.join ⟨name⟩).isAbsolute = p.isAbsolute := by
  obtain ⟨c, cs, hchars⟩ := List.exists_cons_of_ne_nil fun heq => hp (String.toList_inj.1 heq)
  have hjoin : (p.join ⟨name⟩).text.toList =
      c :: (cs ++ (if p.needsSlash then "/" else "").toList ++ name.toList) := by
    rw [text_join h, String.toList_append, String.toList_append, hchars, List.cons_append,
      List.cons_append]
  have hsep : '\x00' ∉ (if p.needsSlash then "/" else "").toList := by
    split
    · decide
    · decide
  refine ⟨fun heq => ?_, ?_, ?_⟩
  · rw [heq] at hjoin
    cases hjoin
  · rw [List.contains_iff_mem, hchars] at hnul
    rw [List.contains_iff_mem, hjoin]
    simp only [List.mem_cons, List.mem_append, not_or] at hnul ⊢
    exact ⟨hnul.1, ⟨hnul.2, hsep⟩, h.no_nul⟩
  · rw [isAbsolute, isAbsolute, hjoin, hchars]
    rfl

/-- A path with a name behind it has the segments of the path, up to an empty one at the end, and the
name. -/
theorem segments_join {p : Path} (hp : p.text ≠ "") :
    ∃ front, (p.join ⟨name⟩).segments = front ++ [name] ∧
      (p.segments = front ∨ p.segments = front ++ [""]) := by
  have hname : pieces '/' name.toList = [name.toList] := pieces_of_not_mem h.no_slash
  have hchars : p.text.toList ≠ [] := fun heq => hp (String.toList_inj.1 heq)
  simp only [segments, text_join h]
  by_cases hslash : p.text.toList.getLast? = some '/'
  · have hneeds : p.needsSlash = false := by rw [needsSlash, hslash]; rfl
    obtain ⟨front, hfront⟩ := List.getLast?_eq_some_iff.1 hslash
    refine ⟨(pieces '/' front).map String.ofList, ?_, .inr ?_⟩
    · rw [hneeds]
      simp only [Bool.false_eq_true, if_false, String.append_empty, String.toList_append, hfront,
        List.append_assoc, List.singleton_append, pieces_append, hname, List.map_append,
        List.map_cons, List.map_nil, String.ofList_toList]
    · rw [hfront, pieces_append, List.map_append]
      rfl
  · have hneeds : p.needsSlash = true := by
      rw [needsSlash, Option.any_eq_true]
      refine ⟨p.text.toList.getLast hchars, List.getLast?_eq_some_getLast hchars, ?_⟩
      rw [bne_iff_ne]
      intro heq
      exact hslash (heq ▸ List.getLast?_eq_some_getLast hchars)
    refine ⟨(pieces '/' p.text.toList).map String.ofList, ?_, .inl rfl⟩
    have hsep : "/".toList = ['/'] := rfl
    rw [hneeds]
    simp only [if_true, String.toList_append, hsep, List.append_assoc, List.singleton_append,
      pieces_append, hname, List.map_append, List.map_cons, List.map_nil, String.ofList_toList]

theorem fileName?_join {p : Path} (hp : p.text ≠ "") :
    (p.join ⟨name⟩).fileName? = some name := by
  obtain ⟨front, hsegments, -⟩ := segments_join h hp
  have hlast : ((front ++ [name]).filter fun s => s != "" && s != ".").getLast? = some name := by
    rw [List.filter_append]
    simp [h.not_empty, h.not_dot]
  rw [fileName?, hsegments, hlast]
  exact if_neg h.not_dots

end Member
end Path

/-! ## Following paths to members -/

namespace Tree

theorem follow_append (root : FileNode) (place : List String) (a b : List String) :
    follow root place (a ++ b) = follow root place a >>= fun next => follow root next b := by
  induction a generalizing place with
  | nil => rfl
  | cons s a ih =>
    rw [List.cons_append, follow, follow]
    split
    · split
      · exact ih place
      · split
        · exact ih place.dropLast
        · split
          · exact ih _
          · rfl
    · rfl

theorem follow_concat_empty {root : FileNode} {place next : List String} {front : List String}
    (h : follow root place (front ++ [""]) = .ok next) : follow root place front = .ok next := by
  rw [follow_append] at h
  obtain ⟨middle, hmiddle, h⟩ := exists_of_bind_eq_ok h
  rw [follow] at h
  split at h
  · rw [if_pos (.inl rfl), follow] at h
    rw [hmiddle, Except.ok.inj h]
  · cases h

theorem follow_member {root : FileNode} {place : List String} {members : List (String × FileNode)}
    (hplace : root.at? place = some (.folder members)) {name : String} (hname : IsMemberName name)
    {node : FileNode} (hlookup : members.lookup name = some node) :
    follow root place [name] = .ok (place ++ [name]) := by
  have hnot : ¬ (name = "" ∨ name = ".") := by
    rintro (h | h)
    · exact hname.not_empty h
    · exact hname.not_dot h
  rw [follow, hplace]
  simp only [if_neg hnot, if_neg hname.not_dots, hlookup, Option.isSome_some, if_true, follow]

theorem place_join {t : Tree} {p : Path} {place : List String}
    {members : List (String × FileNode)} (hplace : t.place p = .ok place)
    (hat : t.root.at? place = some (.folder members)) {name : String} (hname : IsMemberName name)
    {node : FileNode} (hlookup : members.lookup name = some node) :
    t.place (p.join ⟨name⟩) = .ok (place ++ [name]) := by
  unfold Tree.place at hplace
  split at hplace
  · cases hplace
  · rename_i hp
    split at hplace
    · cases hplace
    · rename_i hnul
      obtain ⟨hp', hnul', habsolute⟩ := Path.reachable_join hname hp hnul
      obtain ⟨front, hsegments, hfront⟩ := Path.segments_join hname hp
      have hfollow : follow t.root (t.start p) front = .ok place := by
        rcases hfront with hfront | hfront
        · rw [← hfront]
          exact hplace
        · rw [hfront] at hplace
          exact follow_concat_empty hplace
      have hstart : t.start (p.join ⟨name⟩) = t.start p := by rw [start, start, habsolute]
      rw [Tree.place, if_neg hp', if_neg hnul', hstart, hsegments, follow_append, hfollow]
      exact follow_member hat hname hlookup

theorem exists_place_of_node {t : Tree} {p : Path} {node : FileNode} (h : t.node p = .ok node) :
    ∃ place, t.place p = .ok place ∧ t.root.at? place = some node := by
  obtain ⟨place, hplace, hat⟩ := exists_of_bind_eq_ok h
  split at hat
  · rename_i found hfound
    exact ⟨place, hplace, Except.ok.inj hat ▸ hfound⟩
  · cases hat

section Member
variable {t : Tree} (hwell : t.WellNamed) {p : Path} {members : List (String × FileNode)}
  (hfolder : t.node p = .ok (.folder members))
include hwell hfolder

theorem names_nodup_of_node : (members.map Prod.fst).Nodup := by
  obtain ⟨place, -, hat⟩ := exists_place_of_node hfolder
  have hnamed := FileNode.WellNamed.of_at? hwell hat
  rw [FileNode.WellNamed] at hnamed
  exact hnamed.1

theorem isMemberName_of_mem {name : String} {node : FileNode} (hmem : (name, node) ∈ members) :
    IsMemberName name := by
  obtain ⟨place, -, hat⟩ := exists_place_of_node hfolder
  have hnamed := FileNode.WellNamed.of_at? hwell hat
  rw [FileNode.WellNamed] at hnamed
  exact (hnamed.2.of_mem hmem).1

/-- A member of a folder stands at the path of the folder with the name of the member behind it. -/
theorem node_join {name : String} {node : FileNode} (hmem : (name, node) ∈ members) :
    t.node (p.join ⟨name⟩) = .ok node := by
  have hname := isMemberName_of_mem hwell hfolder hmem
  have hlookup := (FileNode.lookup_eq_some_iff (names_nodup_of_node hwell hfolder)).2 hmem
  obtain ⟨place, hplace, hat⟩ := exists_place_of_node hfolder
  have hmember : t.root.at? (place ++ [name]) = some node := by
    rw [FileNode.at?_append, hat]
    simp only [Option.bind_some, FileNode.at?, hlookup]
  have hjoined := place_join hplace hat hname hlookup
  simp only [Tree.node, hjoined, bind, Except.bind, hmember]

end Member
end Tree
end ColumnAudit.Files
