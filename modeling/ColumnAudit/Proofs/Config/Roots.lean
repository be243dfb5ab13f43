import ColumnAudit.Config.Basic
import Mathlib.Data.List.Forall2

/-! # Roots of configurations

A path is seen from a root by its text alone: `Path.opened` is what comes before a relative path, and
the opened text of two joined paths is that of both, one after the other (`Path.opened_join`). So paths
can be joined from either side (`Path.join_join`), and a configuration that is seen from one root and
then from another is seen from the two roots joined (`resolve_root_of_root`).
-/

namespace ColumnAudit
open Files
set_option autoImplicit false

namespace Files.Path

/-! ## Joined texts -/

/-- The text of a path as something goes on behind it. -/
def opened (p : Path) : String := p.text ++ (if p.needsSlash then "/" else "")

theorem join_of_absolute {root p : Path} (hp : p.isAbsolute = true) : root.join p = p := if_pos hp

theorem text_join_of_relative {root p : Path} (hp : p.isAbsolute = false) :
    (root.join p).text = root.opened ++ p.text := by
  rw [join, hp]
  rfl

theorem opened_of_empty {p : Path} (hp : p.text = "") : p.opened = "" := by
  simp [opened, needsSlash, hp]

/-- Something can go on behind an opened path without a further slash. -/
theorem needsSlash_opened (p : Path) : needsSlash ⟨p.opened⟩ = false := by
  rw [opened]
  cases hslash : p.needsSlash with
  | false => simpa using hslash
  | true => simp [needsSlash, String.toList_append]

theorem needsSlash_append {a b : String} (hb : b ≠ "") : needsSlash ⟨a ++ b⟩ = needsSlash ⟨b⟩ := by
  have hne : b.toList ≠ [] := fun h => hb (String.toList_inj.1 h)
  rw [needsSlash, needsSlash, String.toList_append, List.getLast?_append_of_ne_nil _ hne]

theorem opened_join {root p : Path} (hp : p.isAbsolute = false) :
    (root.join p).opened = root.opened ++ p.opened := by
  have htext : (root.join p).text = root.opened ++ p.text := text_join_of_relative hp
  by_cases hempty : p.text = ""
  · rw [hempty, String.append_empty] at htext
    have hclosed : (root.join p).needsSlash = false := by
      have hopened := needsSlash_opened root
      rwa [← htext] at hopened
    rw [opened_of_empty hempty, opened, hclosed, htext]
    rfl
  · have hslash : (root.join p).needsSlash = p.needsSlash := by
      have hlast := needsSlash_append (a := root.opened) hempty
      rwa [← htext] at hlast
    have hopened : p.opened = p.text ++ (if p.needsSlash then "/" else "") := rfl
    rw [opened, hslash, htext, hopened, String.append_assoc]

/-! ## Absolute paths -/

theorem isAbsolute_append {a b : String} (ha : a ≠ "") :
    isAbsolute ⟨a ++ b⟩ = isAbsolute ⟨a⟩ := by
  have hne : a.toList ≠ [] := fun h => ha (String.toList_inj.1 h)
  rw [isAbsolute, isAbsolute, String.toList_append, List.head?_append_of_ne_nil _ hne]

/-- A joined path is absolute exactly if one of its parts is. -/
theorem isAbsolute_join (root p : Path) :
    (root.join p).isAbsolute = (p.isAbsolute || root.isAbsolute) := by
  cases hp : p.isAbsolute with
  | true => rw [join_of_absolute hp, hp, Bool.true_or]
  | false =>
    have htext : (root.join p).text = root.opened ++ p.text := text_join_of_relative hp
    rw [Bool.false_or]
    by_cases hempty : root.text = ""
    · rw [opened_of_empty hempty, String.empty_append] at htext
      have hjoin : (root.join p).isAbsolute = p.isAbsolute := by rw [isAbsolute, htext, isAbsolute]
      rw [hjoin, hp, isAbsolute, hempty]
      rfl
    · rw [opened, String.append_assoc] at htext
      have hfirst := isAbsolute_append (b := (if root.needsSlash then "/" else "") ++ p.text) hempty
      rwa [← htext] at hfirst

theorem join_join (far near p : Path) : far.join (near.join p) = (far.join near).join p := by
  cases hp : p.isAbsolute with
  | true => rw [join_of_absolute hp, join_of_absolute hp, join_of_absolute hp]
  | false =>
    cases hnear : near.isAbsolute with
    | true =>
      have hjoin : (near.join p).isAbsolute = true := by rw [isAbsolute_join, hnear, Bool.or_true]
      rw [join_of_absolute hjoin, join_of_absolute hnear]
    | false =>
      have hjoin : (near.join p).isAbsolute = false := by rw [isAbsolute_join, hp, hnear, Bool.or_false]
      have htext : (far.join (near.join p)).text = ((far.join near).join p).text := by
        rw [text_join_of_relative hjoin, text_join_of_relative hp, text_join_of_relative hp,
          opened_join hnear, String.append_assoc]
      exact congrArg Path.mk htext

end Files.Path

namespace Config

/-! ## Configurations -/

/-- The paths of a configuration. -/
def paths (c : Config) : List Path := [c.schema, c.actionsFolder, c.typesFolder]

theorem paths_resolve (c : Config) (root : Path) : (c.resolve root).paths = c.paths.map root.join := rfl

theorem resolve_resolve (c : Config) (near far : Path) :
    (c.resolve near).resolve far = c.resolve (far.join near) := by
  simp only [resolve, Path.join_join]

theorem forall_paths_resolve_absolute (c : Config) {root : Path} (hroot : root.isAbsolute = true) :
    ∀ p ∈ (c.resolve root).paths, p.isAbsolute = true := by
  intro p hp
  rw [paths_resolve] at hp
  obtain ⟨q, -, rfl⟩ := List.mem_map.1 hp
  rw [Path.isAbsolute_join, hroot, Bool.or_true]

theorem forall₂_paths_resolve (c : Config) (root : Path) :
    List.Forall₂ (fun p q => p.isAbsolute = true → q = p) c.paths (c.resolve root).paths := by
  rw [paths_resolve, List.forall₂_map_right_iff, List.forall₂_same]
  exact fun p _ hp => Path.join_of_absolute hp

/-- A root may itself be seen from a root: what is seen from one and then from the other is seen from
both joined, and nothing but the paths changes. Seen from an absolute root all paths are absolute, so
that a second look changes nothing, and a path that is absolute anyway stays what it is. -/
theorem resolve_root_of_root (c : Config) (near far : Path) :
    (c.resolve near).resolve far = c.resolve (far.join near) ∧
      ((c.resolve near).extension = c.extension ∧ (c.resolve near).fileTables = c.fileTables ∧
        (c.resolve near).knownKeys = c.knownKeys) ∧
      (near.isAbsolute = true → (c.resolve near).resolve near = c.resolve near ∧
        ∀ p ∈ (c.resolve near).paths, p.isAbsolute = true) ∧
      List.Forall₂ (fun p q => p.isAbsolute = true → q = p) c.paths (c.resolve near).paths := by
  refine ⟨c.resolve_resolve near far, ⟨rfl, rfl, rfl⟩, fun hnear => ⟨?_, ?_⟩,
    c.forall₂_paths_resolve near⟩
  · rw [resolve_resolve, Path.join_of_absolute hnear]
  · exact c.forall_paths_resolve_absolute hnear

example : ((Config.standard.resolve ⟨"app"⟩).resolve ⟨"/srv/"⟩).typesFolder.text =
    "/srv/app/src/lib/types" := by decide +kernel

end Config
end ColumnAudit
