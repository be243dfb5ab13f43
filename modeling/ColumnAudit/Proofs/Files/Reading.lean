import ColumnAudit.Task
import Mathlib.Data.List.Forall2
import Mathlib.Tactic.Linarith

/-! # Tasks that read a tree

`Task.Reads task f` says that in every tree the task ends as `f` says and leaves the tree as it is,
whatever it logs. The rules for the steps of a task carry this from its parts to the whole, so that a
task can be replaced by a function of the tree.

The size of a tree counts its files, folders and bytes. What can be read or listed in it is bounded by
that size (`size_le_of_read`, `length_le_of_list`).
-/

namespace ColumnAudit
open Files
set_option autoImplicit false

/-! ## Results of several steps -/

section Steps
variable {ε δ α β : Type}

theorem exists_of_bind_eq_ok {x : Except ε α} {f : α → Except ε β} {b : β}
    (h : x >>= f = .ok b) : ∃ a, x = .ok a ∧ f a = .ok b := by
  cases x with
  | ok a => exact ⟨a, rfl, h⟩
  | error e => cases h

theorem exists_of_map_eq_ok {x : Except ε α} {f : α → β} {b : β} (h : x.map f = .ok b) :
    ∃ a, x = .ok a ∧ f a = b := by
  cases x with
  | ok a => exact ⟨a, rfl, Except.ok.inj h⟩
  | error e => cases h

theorem eq_ok_of_mapError {x : Except ε α} {f : ε → δ} {a : α} (h : x.mapError f = .ok a) :
    x = .ok a := by
  cases x with
  | ok b => exact congrArg Except.ok (Except.ok.inj h)
  | error e => cases h

theorem mapM_eq_ok_iff {f : α → Except ε β} {l : List α} {bs : List β} :
    l.mapM f = .ok bs ↔ List.Forall₂ (fun a b => f a = .ok b) l bs := by
  constructor
  · intro h
    induction l generalizing bs with
    | nil =>
      obtain rfl := Except.ok.inj h
      exact .nil
    | cons a l ih =>
      rw [List.mapM_cons] at h
      obtain ⟨b, hb, h⟩ := exists_of_bind_eq_ok h
      obtain ⟨rest, hrest, h⟩ := exists_of_bind_eq_ok h
      obtain rfl := Except.ok.inj h
      exact .cons hb (ih hrest)
  · intro h
    induction h with
    | nil => rfl
    | cons hb _ ih =>
      rw [List.mapM_cons, hb, ih]
      rfl

/-- Steps that all go well give a result for each item. -/
theorem exists_mapM_eq_ok {f : α → Except ε β} {l : List α} (h : ∀ a ∈ l, ∃ b, f a = .ok b) :
    ∃ bs, l.mapM f = .ok bs := by
  induction l with
  | nil => exact ⟨[], rfl⟩
  | cons a l ih =>
    obtain ⟨b, hb⟩ := h a (List.mem_cons_self ..)
    obtain ⟨bs, hbs⟩ := ih fun c hc => h c (List.mem_cons_of_mem _ hc)
    refine ⟨b :: bs, ?_⟩
    rw [List.mapM_cons, hb, hbs]
    rfl

end Steps

/-! ## Sizes of trees -/

namespace Files

mutual

/-- How many files, folders and bytes a node holds. -/
def FileNode.size : FileNode → Nat
  | .file contents => contents.size + 1
  | .folder members => FileNode.sizeOfMembers members + 1

/-- How many files, folders and bytes the members of a folder hold. -/
def FileNode.sizeOfMembers : List (String × FileNode) → Nat
  | [] => 0
  | (_, node) :: members => node.size + FileNode.sizeOfMembers members

end

/-- How many files, folders and bytes a tree holds. -/
def Tree.size (t : Tree) : Nat := t.root.size

theorem FileNode.size_pos (node : FileNode) : 0 < node.size := by
  cases node <;> simp [FileNode.size]

theorem FileNode.length_le_sizeOfMembers (members : List (String × FileNode)) :
    members.length ≤ FileNode.sizeOfMembers members := by
  induction members with
  | nil => simp [FileNode.sizeOfMembers]
  | cons member members ih =>
    have hpos := member.2.size_pos
    rw [FileNode.sizeOfMembers, List.length_cons]
    omega

theorem FileNode.size_le_of_lookup {members : List (String × FileNode)} {name : String}
    {node : FileNode} (h : members.lookup name = some node) :
    node.size ≤ FileNode.sizeOfMembers members := by
  induction members with
  | nil => cases h
  | cons member members ih =>
    obtain ⟨other, old⟩ := member
    rw [FileNode.sizeOfMembers]
    rw [List.lookup_cons] at h
    split at h
    · obtain rfl := Option.some.inj h
      omega
    · have := ih h
      omega

theorem FileNode.size_le_of_at? {names : List String} {root node : FileNode}
    (h : root.at? names = some node) : node.size ≤ root.size := by
  induction names generalizing root with
  | nil =>
    rw [FileNode.at?] at h
    obtain rfl := Option.some.inj h
    exact Nat.le_refl _
  | cons name names ih =>
    cases root with
    | file contents => cases h
    | folder members =>
      rw [FileNode.at?] at h
      split at h
      · rename_i next hnext
        have hstep := FileNode.size_le_of_lookup hnext
        have hrest := ih h
        rw [FileNode.size]
        omega
      · cases h

namespace Tree
variable {t : Tree} {p : Path}

theorem size_le_of_node {node : FileNode} (h : t.node p = .ok node) : node.size ≤ t.size := by
  obtain ⟨names, -, h⟩ := exists_of_bind_eq_ok h
  split at h
  · rename_i found hfound
    obtain rfl := Except.ok.inj h
    exact FileNode.size_le_of_at? hfound
  · cases h

theorem size_le_of_read {bytes : ByteArray} (h : t.read p = .ok bytes) : bytes.size ≤ t.size := by
  obtain ⟨node, hnode, h⟩ := exists_of_bind_eq_ok h
  cases node with
  | folder members => cases h
  | file contents =>
    obtain rfl := Except.ok.inj h
    have hsize := size_le_of_node hnode
    rw [FileNode.size] at hsize
    omega

theorem length_le_of_list {members : List (String × Bool)} (h : t.list p = .ok members) :
    members.length ≤ t.size := by
  obtain ⟨node, hnode, h⟩ := exists_of_bind_eq_ok h
  cases node with
  | file contents => cases h
  | folder named =>
    obtain rfl := Except.ok.inj h
    have hsize := size_le_of_node hnode
    have hlength := FileNode.length_le_sizeOfMembers named
    rw [FileNode.size] at hsize
    rw [List.length_map]
    omega

/-- The text that bytes encode. -/
def decoded (bytes : ByteArray) : Except TextFault String :=
  match String.fromUTF8? bytes with
  | some text => .ok text
  | none => .error .notUtf8

/-- The text of a file. -/
def text (t : Tree) (p : Path) : Except TextFault String :=
  (t.read p).mapError TextFault.file >>= decoded

theorem length_le_size_utf8Encode (l : List Char) : l.length ≤ l.utf8Encode.size := by
  induction l with
  | nil => simp
  | cons c l ih =>
    have hc : 0 < [c].utf8Encode.size := by
      rw [List.utf8Encode_singleton, List.size_toByteArray, String.length_utf8EncodeChar]
      exact c.utf8Size_pos
    rw [List.utf8Encode_cons, ByteArray.size_append, List.length_cons]
    omega

theorem decoded_eq_ok_iff {bytes : ByteArray} {text : String} :
    decoded bytes = .ok text ↔ bytes = text.toUTF8 := by
  unfold decoded String.fromUTF8?
  constructor
  · intro h
    split at h
    · rename_i found hfound
      split at hfound
      · obtain rfl := Except.ok.inj h
        obtain rfl := Option.some.inj hfound
        rfl
      · cases hfound
    · cases h
  · rintro rfl
    have hvalid : text.toUTF8.IsValidUTF8 := text.isValidUTF8
    rw [dif_pos hvalid]
    rfl

theorem exists_toUTF8_iff {bytes : ByteArray} :
    (∃ text : String, bytes = text.toUTF8) ↔ bytes.IsValidUTF8 := by
  constructor
  · rintro ⟨text, rfl⟩
    exact text.isValidUTF8
  · intro h
    exact ⟨.ofByteArray bytes h, rfl⟩

theorem text_eq_ok_iff {text : String} :
    t.text p = .ok text ↔ t.read p = .ok text.toUTF8 := by
  unfold Tree.text
  cases t.read p with
  | error e => exact ⟨nofun, nofun⟩
  | ok bytes => exact decoded_eq_ok_iff.trans ⟨congrArg Except.ok, Except.ok.inj⟩

theorem length_le_of_text {text : String} (h : t.text p = .ok text) :
    text.toList.length ≤ t.size := by
  have hlength := length_le_size_utf8Encode text.toList
  rw [String.utf8Encode_toList] at hlength
  exact hlength.trans (size_le_of_read (text_eq_ok_iff.1 h))

end Tree
end Files

/-! ## What a task reads -/

namespace Task
variable {α β : Type}

/-- In every tree the task ends as `f` says and leaves the tree as it is. -/
def Reads (task : Task (StateM Tree) α) (f : Tree → Except Failure α) : Prop :=
  ∀ log tree, ∃ log', (task.run.run log).run tree = ((f tree, log'), tree)

theorem Reads.congr {task : Task (StateM Tree) α} {f g : Tree → Except Failure α}
    (h : Reads task f) (hfg : ∀ t, f t = g t) : Reads task g := by
  intro log tree
  rw [← hfg]
  exact h log tree

theorem Reads.pure (a : α) : Reads (Pure.pure a) fun _ => .ok a := by
  intro log tree
  exact ⟨log, rfl⟩

theorem Reads.throw (e : Failure) : Reads (throw e : Task (StateM Tree) α) fun _ => .error e := by
  intro log tree
  exact ⟨log, rfl⟩

theorem Reads.bind {x : Task (StateM Tree) α} {g : α → Task (StateM Tree) β}
    {f : Tree → Except Failure α} {h : α → Tree → Except Failure β} (hx : Reads x f)
    (hg : ∀ a, Reads (g a) (h a)) : Reads (x >>= g) fun t => f t >>= fun a => h a t := by
  intro log tree
  obtain ⟨log1, h1⟩ := hx log tree
  cases hf : f tree with
  | error e =>
    refine ⟨log1, ?_⟩
    rw [hf] at h1
    simp only [ExceptT.run_bind, StateT.run_bind, h1, hf]
    rfl
  | ok a =>
    obtain ⟨log2, h2⟩ := hg a log1 tree
    refine ⟨log2, ?_⟩
    rw [hf] at h1
    simp only [ExceptT.run_bind, StateT.run_bind, h1, hf]
    exact h2

/-- The steps of a list, one after the other. -/
theorem Reads.mapM {g : α → Task (StateM Tree) β} {h : α → Tree → Except Failure β}
    (hg : ∀ a, Reads (g a) (h a)) (l : List α) :
    Reads (l.mapM g) fun t => l.mapM fun a => h a t := by
  induction l with
  | nil => exact Reads.pure []
  | cons a l ih =>
    simp only [List.mapM_cons]
    exact (hg a).bind fun b => ih.bind fun bs => Reads.pure (b :: bs)

theorem Reads.log (records : List LogRecord) :
    Reads (Task.log records : Task (StateM Tree) Unit) fun _ => .ok () := by
  intro log tree
  exact ⟨log ++ records, rfl⟩

theorem Reads.ofExcept (r : Except Failure α) :
    Reads (Task.ofExcept r : Task (StateM Tree) α) fun _ => r := by
  cases r with
  | ok a => exact Reads.pure a
  | error e => exact Reads.throw e

theorem Reads.isPresent (path : Path) :
    Reads (Task.isPresent path : Task (StateM Tree) Bool) fun t => .ok (t.isPresent path) := by
  intro log tree
  exact ⟨log, rfl⟩

/-- A step that reads and may fail. -/
theorem Reads.attempt {step : StateM Tree (Except FileError α)} {f : Tree → Except FileError α}
    (hstep : ∀ tree, step.run tree = (f tree, tree)) (failure : FileError → Failure) :
    Reads (Task.attempt step failure) fun t => (f t).mapError failure := by
  have hlift : Reads (monadLift step : StateT (List LogRecord) (StateM Tree) (Except FileError α))
      fun t => .ok (f t) := by
    intro log tree
    refine ⟨log, ?_⟩
    change ((Except.ok (step.run tree).1, log), (step.run tree).2) = _
    rw [hstep tree]
  unfold Task.attempt
  refine hlift.bind (h := fun r _ => r.mapError failure) fun r => ?_
  cases r with
  | ok a => exact Reads.pure a
  | error e => exact Reads.throw (failure e)

theorem Reads.read (path : Path) (failure : FileError → Failure) :
    Reads (Task.attempt (ReadsFiles.read path) failure) fun t => (t.read path).mapError failure :=
  Reads.attempt (fun _ => rfl) failure

theorem Reads.list (path : Path) (failure : FileError → Failure) :
    Reads (Task.attempt (ReadsFiles.list path) failure) fun t => (t.list path).mapError failure :=
  Reads.attempt (fun _ => rfl) failure

theorem Reads.readText (path : Path) (failure : TextFault → Failure) :
    Reads (Task.readText path failure) fun t => (t.text path).mapError failure := by
  refine ((Reads.read path fun e => failure (.file e)).bind
    (h := fun bytes _ => (Tree.decoded bytes).mapError failure) fun bytes => ?_).congr fun t => ?_
  · unfold Tree.decoded
    cases String.fromUTF8? bytes with
    | some text => exact Reads.pure text
    | none => exact Reads.throw (failure .notUtf8)
  · unfold Tree.text
    cases t.read path <;> rfl

end Task
end ColumnAudit
