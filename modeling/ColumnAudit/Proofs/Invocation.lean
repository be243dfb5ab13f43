import ColumnAudit.Proofs.Config.PlainText
import ColumnAudit.Proofs.Files.Writing
import ColumnAudit.Proofs.Program

/-! # What invocations leave behind

An invocation either writes the standard configuration to the file that it names as its output
(`Installs`), or leaves the tree as it is (`Keeps`): `installs_or_keeps` goes through all commands,
refused arguments and failures.

So after any sequence of invocations each place is as it was at the start or holds the standard
configuration, and the latter exactly if one of them wrote it there (`runs_install_or_keep`).
-/

namespace ColumnAudit
open Files
set_option autoImplicit false

/-! ## What a task does -/

namespace Task
variable {α β : Type}

/-- In every tree the task ends as `f` says, and leaves the tree that `f` says. -/
def Does (task : Task (StateM Tree) α) (f : Tree → Except Failure α × Tree) : Prop :=
  ∀ log tree, ∃ log', (task.run.run log).run tree = (((f tree).1, log'), (f tree).2)

theorem Reads.does {task : Task (StateM Tree) α} {f : Tree → Except Failure α}
    (h : Reads task f) : Does task fun t => (f t, t) := h

theorem Does.congr {task : Task (StateM Tree) α} {f g : Tree → Except Failure α × Tree}
    (h : Does task f) (hfg : ∀ t, f t = g t) : Does task g := by
  intro log tree
  rw [← hfg]
  exact h log tree

theorem Does.bind {x : Task (StateM Tree) α} {g : α → Task (StateM Tree) β}
    {f : Tree → Except Failure α × Tree} {h : α → Tree → Except Failure β × Tree} (hx : Does x f)
    (hg : ∀ a, Does (g a) (h a)) :
    Does (x >>= g) fun t =>
      match f t with
      | (.ok a, t') => h a t'
      | (.error e, t') => (.error e, t') := by
  intro log tree
  obtain ⟨log1, h1⟩ := hx log tree
  obtain ⟨⟨result, tree1⟩, hf⟩ : ∃ r, f tree = r := ⟨_, rfl⟩
  rw [hf] at h1
  cases result with
  | error e =>
    refine ⟨log1, ?_⟩
    simp only [ExceptT.run_bind, StateT.run_bind, h1, hf]
    rfl
  | ok a =>
    obtain ⟨log2, h2⟩ := hg a log1 tree1
    refine ⟨log2, ?_⟩
    simp only [ExceptT.run_bind, StateT.run_bind, h1, hf]
    exact h2

theorem does_write (path : Path) (contents : ByteArray) (failure : FileError → Failure) :
    Does (Task.attempt (WritesFiles.write path contents) failure) fun t =>
      match t.write path contents with
      | .ok t' => (.ok (), t')
      | .error e => (.error (failure e), t) := by
  have hlift : Does (monadLift (WritesFiles.write path contents : StateM Tree _) :
      StateT (List LogRecord) (StateM Tree) (Except FileError Unit)) fun t =>
        match t.write path contents with
        | .ok t' => (.ok (.ok ()), t')
        | .error e => (.ok (.error e), t) := by
    intro log tree
    refine ⟨log, ?_⟩
    change ((Except.ok ((WritesFiles.write path contents : StateM Tree _).run tree).1, log),
      ((WritesFiles.write path contents : StateM Tree _).run tree).2) = _
    simp only [WritesFiles.write, StateT.run]
    cases tree.write path contents <;> rfl
  unfold Task.attempt
  refine (hlift.bind (h := fun r t => (r.mapError failure, t)) fun r => ?_).congr fun t => ?_
  · cases r with
    | ok a => exact (Reads.pure a).does
    | error e => exact (Reads.throw (failure e)).does
  · cases t.write path contents <;> rfl

end Task

namespace Program
open CommandLine

/-! ## Invocations in a tree -/

/-- What an invocation in a tree answers, and the tree that it leaves. -/
def invokeIn (t : Tree) (arguments : List String) : Except Refusal Outcome × Tree :=
  (invoke arguments : StateM Tree (Except Refusal Outcome)).run t

/-- The tree after invocations, one after the other. -/
def treeAfter (t : Tree) (runs : List (List String)) : Tree :=
  runs.foldl (fun t arguments => (invokeIn t arguments).2) t

/-- An invocation that writes the standard configuration: it asks for that, its output is not there or may
be replaced, and it ends well. All that it changes is the file at the place of its output. -/
structure Installs (t : Tree) (arguments : List String) (output : Path) (names : List String) :
    Prop where
  asked : ∃ force, CommandLine.parse arguments = .ok (.configInit output force) ∧
    (t.isPresent output → force = true)
  status : exitStatus (invokeIn t arguments).1 = 0
  target : t.target output = .ok names
  place : (invokeIn t arguments).2.place output = .ok names
  read : (invokeIn t arguments).2.read output = .ok Config.standard.yaml.toUTF8
  here : (invokeIn t arguments).2.standing names = some (.file Config.standard.yaml.toUTF8)
  elsewhere : ∀ other, other ≠ names →
    (invokeIn t arguments).2.standing other = t.standing other
  current : (invokeIn t arguments).2.current = t.current

/-- An invocation that leaves the tree as it is. If it asks to write the standard configuration, it fails:
the output is there and may not be replaced, or it cannot be made. -/
structure Keeps (t : Tree) (arguments : List String) : Prop where
  tree : (invokeIn t arguments).2 = t
  refused : ∀ output force, CommandLine.parse arguments = .ok (.configInit output force) →
    exitStatus (invokeIn t arguments).1 = 2 ∧
      ((t.isPresent output = true ∧ force = false) ∨ ∃ e, t.target output = .error e)

/-! ## Commands -/

/-- All commands but one only read. -/
theorem exists_reads_perform {command : Command}
    (h : ∀ output force, command ≠ .configInit output force) :
    ∃ f, Task.Reads (perform command) f := by
  cases command with
  | audit request => exact ⟨_, reads_runAudit request⟩
  | catalog schema format =>
    exact ⟨_, (Audit.reads_loadCatalog schema .program).bind fun _ => Task.Reads.pure _⟩
  | fields input kind =>
    exact ⟨_, (Audit.reads_readSource input).bind fun _ =>
      (Task.Reads.log _).bind fun _ => Task.Reads.pure _⟩
  | configShow config =>
    exact ⟨_, (reads_loadOrStandard config).bind fun _ => Task.Reads.pure _⟩
  | configInit output force => exact absurd rfl (h output force)

/-- How writing the standard configuration ends, and the tree that it leaves. -/
def configInitIn (output : Path) (force : Bool) (t : Tree) : Except Failure Result × Tree :=
  if t.isPresent output && !force then (.error (.outputPresent output), t)
  else
    match t.write output Config.standard.yaml.toUTF8 with
    | .ok t' => (.ok ⟨"", none⟩, t')
    | .error e => (.error (.outputNotMade output e), t)

theorem does_configInit (output : Path) (force : Bool) :
    Task.Does (perform (.configInit output force)) (configInitIn output force) := by
  unfold perform runConfigInit
  refine ((Task.Reads.isPresent output).does.bind (h := fun present t =>
    if present && !force then (.error (.outputPresent output), t)
    else
      match t.write output Config.standard.yaml.toUTF8 with
      | .ok t' => (.ok ⟨"", none⟩, t')
      | .error e => (.error (.outputNotMade output e), t)) fun present => ?_).congr fun t => rfl
  by_cases hguard : (present && !force) = true
  · simp only [if_pos hguard]
    exact (Task.Reads.throw _).does
  · simp only [if_neg hguard]
    refine ((Task.does_write _ _ _).bind fun _ => ((Task.Reads.log _).bind fun _ =>
      Task.Reads.pure _).does).congr fun t => ?_
    cases t.write output Config.standard.yaml.toUTF8 <;> rfl

theorem runIn_of_does {command : Command} {f : Tree → Except Failure Result × Tree}
    (h : Task.Does (perform command) f) (t : Tree) :
    ∃ log, runIn t command = (.ofResult log (f t).1, (f t).2) := by
  obtain ⟨log, h⟩ := h [] t
  refine ⟨log, ?_⟩
  simp only [runIn, run, StateT.run_bind, h]
  rfl

theorem runIn_of_ne_configInit {command : Command}
    (h : ∀ output force, command ≠ .configInit output force) (t : Tree) :
    (runIn t command).2 = t := by
  obtain ⟨f, h⟩ := exists_reads_perform h
  obtain ⟨log, h⟩ := runIn_of_does h.does t
  rw [h]

/-! ## One invocation -/

theorem invokeIn_of_parse {t : Tree} {arguments : List String} {command : Command}
    (h : CommandLine.parse arguments = .ok command) :
    invokeIn t arguments = (.ok (runIn t command).1, (runIn t command).2) := by
  unfold invokeIn invoke
  rw [h]
  rfl

theorem invokeIn_of_refusal {t : Tree} {arguments : List String} {refusal : Refusal}
    (h : CommandLine.parse arguments = .error refusal) :
    invokeIn t arguments = (.error refusal, t) := by
  unfold invokeIn invoke
  rw [h]
  rfl

section ConfigInit
variable {t : Tree} {arguments : List String} {output : Path} {force : Bool}
  (hparse : CommandLine.parse arguments = .ok (.configInit output force))
include hparse

theorem installs_of_target (hfree : t.isPresent output → force = true) {names : List String}
    (htarget : t.target output = .ok names) : Installs t arguments output names := by
  obtain ⟨log, hrun⟩ := runIn_of_does (does_configInit output force) t
  obtain ⟨t', hwrite⟩ : ∃ t', t.write output Config.standard.yaml.toUTF8 = .ok t' := by
    rw [Tree.write, htarget]
    exact ⟨_, rfl⟩
  have hguard : (t.isPresent output && !force) = false := by
    cases hpresent : t.isPresent output with
    | false => rfl
    | true => rw [hfree hpresent]; rfl
  have hinstalled : configInitIn output force t = (.ok ⟨"", none⟩, t') := by
    rw [configInitIn, hguard, hwrite]
    rfl
  rw [hinstalled] at hrun
  have hinvoke : invokeIn t arguments = (.ok ⟨"", log, none, 0⟩, t') := by
    rw [invokeIn_of_parse hparse, hrun]
    rfl
  have hstanding := Tree.standing_write htarget hwrite
  constructor
  case asked => exact ⟨force, hparse, hfree⟩
  case status => rw [hinvoke]; rfl
  case target => exact htarget
  case place => rw [hinvoke]; exact Tree.place_write htarget hwrite
  case read => rw [hinvoke]; exact Tree.read_write hwrite
  case here => rw [hinvoke, hstanding, if_pos rfl]
  case elsewhere =>
    intro other hother
    rw [hinvoke, hstanding, if_neg hother]
  case current => rw [hinvoke]; exact Tree.current_write hwrite

theorem unchanged_of_not_target
    (h : (t.isPresent output = true ∧ force = false) ∨ ∃ e, t.target output = .error e) :
    (invokeIn t arguments).2 = t ∧ exitStatus (invokeIn t arguments).1 = 2 := by
  obtain ⟨log, hrun⟩ := runIn_of_does (does_configInit output force) t
  have hfailed : ∃ failure, configInitIn output force t = (.error failure, t) := by
    unfold configInitIn
    by_cases hguard : (t.isPresent output && !force) = true
    · rw [if_pos hguard]
      exact ⟨_, rfl⟩
    · rw [if_neg hguard]
      rcases h with ⟨hpresent, hforce⟩ | ⟨e, htarget⟩
      · rw [hpresent, hforce] at hguard
        exact absurd rfl hguard
      · rw [Tree.write, htarget]
        exact ⟨_, rfl⟩
  obtain ⟨failure, hfailed⟩ := hfailed
  rw [invokeIn_of_parse hparse, hrun, hfailed]
  exact ⟨rfl, rfl⟩

end ConfigInit

theorem installs_or_keeps (t : Tree) (arguments : List String) :
    (∃ output names, Installs t arguments output names) ∨ Keeps t arguments := by
  cases hparse : CommandLine.parse arguments with
  | error refusal =>
    refine .inr ⟨by rw [invokeIn_of_refusal hparse], fun output force h => ?_⟩
    cases hparse.symm.trans h
  | ok command =>
    by_cases hinit : ∃ output force, command = .configInit output force
    · obtain ⟨output, force, rfl⟩ := hinit
      by_cases hblocked :
          (t.isPresent output = true ∧ force = false) ∨ ∃ e, t.target output = .error e
      · obtain ⟨htree, hstatus⟩ := unchanged_of_not_target hparse hblocked
        refine .inr ⟨htree, fun output' force' h => ?_⟩
        obtain ⟨rfl, rfl⟩ := Command.configInit.inj (Except.ok.inj (hparse.symm.trans h))
        exact ⟨hstatus, hblocked⟩
      · obtain ⟨hfree, hmade⟩ := not_or.1 hblocked
        cases htarget : t.target output with
        | error e => exact absurd ⟨e, htarget⟩ hmade
        | ok names =>
          refine .inl ⟨output, names, installs_of_target hparse (fun hpresent => ?_) htarget⟩
          cases force with
          | true => rfl
          | false => exact absurd ⟨hpresent, rfl⟩ hfree
    · have hother : ∀ output force, command ≠ .configInit output force :=
        fun output force heq => hinit ⟨output, force, heq⟩
      refine .inr ⟨?_, fun output force h =>
        absurd (Except.ok.inj (hparse.symm.trans h)) (hother output force)⟩
      rw [invokeIn_of_parse hparse]
      exact runIn_of_ne_configInit hother t

/-! ## Sequences of invocations -/

/-- One of the invocations of a sequence writes the standard configuration to a place. -/
def InstallsAt (t : Tree) (runs : List (List String)) (names : List String) : Prop :=
  ∃ earlier arguments later output, runs = earlier ++ arguments :: later ∧
    Installs (treeAfter t earlier) arguments output names

section Runs
variable {t : Tree} {arguments : List String} {runs : List (List String)} {names : List String}

theorem installsAt_cons_iff : InstallsAt t (arguments :: runs) names ↔
    (∃ output, Installs t arguments output names) ∨
      InstallsAt (invokeIn t arguments).2 runs names := by
  constructor
  · rintro ⟨earlier, arguments', later, output, hruns, h⟩
    cases earlier with
    | nil =>
      obtain ⟨rfl, rfl⟩ := List.cons.inj hruns
      exact .inl ⟨output, h⟩
    | cons first earlier =>
      obtain ⟨rfl, rfl⟩ := List.cons.inj hruns
      exact .inr ⟨earlier, arguments', later, output, rfl, h⟩
  · rintro (⟨output, h⟩ | ⟨earlier, arguments', later, output, rfl, h⟩)
    · exact ⟨[], arguments, runs, output, rfl, h⟩
    · exact ⟨arguments :: earlier, arguments', later, output, rfl, h⟩

theorem current_treeAfter (t : Tree) (runs : List (List String)) :
    (treeAfter t runs).current = t.current := by
  induction runs generalizing t with
  | nil => rfl
  | cons arguments runs ih =>
    have hstep : (invokeIn t arguments).2.current = t.current := by
      rcases installs_or_keeps t arguments with ⟨output, names, h⟩ | h
      · exact h.current
      · rw [h.tree]
    exact (ih _).trans hstep

/-- A place that is written to holds the standard configuration from then on, and others are as they
were. -/
theorem standing_treeAfter (t : Tree) (runs : List (List String)) (names : List String) :
    (InstallsAt t runs names ∧
        (treeAfter t runs).standing names = some (.file Config.standard.yaml.toUTF8)) ∨
      (¬ InstallsAt t runs names ∧ (treeAfter t runs).standing names = t.standing names) := by
  induction runs generalizing t with
  | nil =>
    refine .inr ⟨?_, rfl⟩
    rintro ⟨earlier, arguments, later, output, hruns, -⟩
    exact absurd hruns.symm (by simp)
  | cons arguments runs ih =>
    rw [installsAt_cons_iff]
    rcases ih (invokeIn t arguments).2 with ⟨hlater, hstanding⟩ | ⟨hlater, hstanding⟩
    · exact .inl ⟨.inr hlater, hstanding⟩
    · by_cases hnow : ∃ output, Installs t arguments output names
      · obtain ⟨output, hnow⟩ := hnow
        exact .inl ⟨.inl ⟨output, hnow⟩, hstanding.trans hnow.here⟩
      · refine .inr ⟨not_or.2 ⟨hnow, hlater⟩, hstanding.trans ?_⟩
        rcases installs_or_keeps t arguments with ⟨output, other, h⟩ | h
        · exact h.elsewhere names fun heq => hnow ⟨output, heq ▸ h⟩
        · rw [h.tree]

end Runs

/-- Whatever is invoked in whatever order: each invocation, after any others, writes the standard
configuration to its output or changes nothing; and after all of them, each place that one of them wrote
to holds the standard configuration, while every other place is as it was at the start. -/
theorem runs_install_or_keep (start : Tree) (runs : List (List String)) :
    (∀ arguments,
      (∃ output names, Installs (treeAfter start runs) arguments output names) ∨
        Keeps (treeAfter start runs) arguments) ∧
      (treeAfter start runs).current = start.current ∧
      ∀ names,
        (InstallsAt start runs names ∧
            (treeAfter start runs).standing names = some (.file Config.standard.yaml.toUTF8)) ∨
          (¬ InstallsAt start runs names ∧
            (treeAfter start runs).standing names = start.standing names) :=
  ⟨installs_or_keeps _, current_treeAfter start runs, standing_treeAfter start runs⟩

/-- A file that is there is replaced by force only. It then holds the lines of the standard configuration,
and keeps them. -/
theorem runs_install_standard_lines :
    let start : Tree := ⟨.folder [("d", .folder [("a", .file .empty)])], []⟩
    let asked := ["config", "init", "-o", "d/a"]
    let forced := ["config", "init", "--force", "-od/./a"]
    let lines := String.ofList (Yaml.Outline.ofLines Config.standardLines)
    Keeps start asked ∧ Installs start forced ⟨"d/./a"⟩ ["d", "a"] ∧
      (invokeIn start forced).2.read ⟨"d/./a"⟩ = .ok lines.toUTF8 ∧
      (treeAfter start [asked, forced, asked, ["config", "show"]]).standing ["d", "a"] =
        some (.file lines.toUTF8) := by
  intro start asked forced lines
  have hyaml : Config.standard.yaml = lines := Config.yaml_standard
  have hasked : CommandLine.parse asked = .ok (.configInit ⟨"d/a"⟩ false) := rfl
  have hforced : CommandLine.parse forced = .ok (.configInit ⟨"d/./a"⟩ true) := rfl
  have hpresent : start.isPresent ⟨"d/a"⟩ = true := by decide +kernel
  obtain ⟨hkeep, hfails⟩ := unchanged_of_not_target hasked (t := start) (.inl ⟨hpresent, rfl⟩)
  have hinstalls : Installs start forced ⟨"d/./a"⟩ ["d", "a"] :=
    installs_of_target hforced (fun _ => rfl) (by decide +kernel)
  refine ⟨?_, hinstalls, hyaml ▸ hinstalls.read, ?_⟩
  · -- An invocation that ends with 2 does not install.
    obtain ⟨heach, -, -⟩ := runs_install_or_keep start []
    rcases heach asked with ⟨output, names, hinstall⟩ | hkeeps
    · cases hinstall.status.symm.trans hfails
    · exact hkeeps
  · obtain ⟨-, -, hplaces⟩ := runs_install_or_keep start [asked, forced, asked, ["config", "show"]]
    rcases hplaces ["d", "a"] with ⟨-, hstanding⟩ | ⟨hnever, -⟩
    · rw [hstanding, hyaml]
    · refine absurd ⟨[asked], forced, [asked, ["config", "show"]], ⟨"d/./a"⟩, rfl, ?_⟩ hnever
      show Installs (invokeIn start asked).2 forced _ _
      rw [hkeep]
      exact hinstalls

end Program
end ColumnAudit
