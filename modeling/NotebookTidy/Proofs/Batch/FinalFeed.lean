import Mathlib.Data.List.DropRight
import NotebookTidy.Proofs.Batch.Runs

/-! What a formatted script ends with. It is closed by one line feed, but for one that already held
what its engine gives, without a line feed. -/
namespace NotebookTidy.Batch
open Storage (FileTree)
open Storage.FileTree (Rewritten)
open Source (Kind)
open Pipeline (trimmed)

theorem trimmedAgain (text : String) : trimmed (trimmed text) = trimmed text := by
  rw [trimmed, trimmed, String.toList_ofList, Text.trimEnd, Text.trimEnd, List.reverse_reverse,
    List.dropWhile_idempotent]

/-- The text that is given to the engine of a format. -/
def imported (sortImports : Bool) (pair : Workspace.Pair) (text : String) : String :=
  if sortImports then Pipeline.fixText pair.sorting.engine text else text

theorem scriptTidied {sortImports : Bool} {pair : Workspace.Pair} {text out : String}
    (formats : pair.format.engine.format (imported sortImports pair text) = .ok out) :
    formatTidying sortImports pair .script text =
      if trimmed out = text then text
      else if trimmed out = "" then "" else trimmed out ++ "\n" := by
  have formatted : Pipeline.formatText pair.format.engine (imported sortImports pair text) =
      trimmed out := by
    rw [Pipeline.formatText, formats]
  have source : Pipeline.formatSource pair.format.engine
      (if sortImports then some pair.sorting.engine else none) text =
        Pipeline.formatText pair.format.engine (imported sortImports pair text) := by
    cases sortImports <;> rfl
  rw [formatTidying, source, formatted, finished]
  by_cases same : trimmed out = text
  · rw [if_pos same, if_neg fun both => both.2 same, same]
  · rw [if_neg same, if_pos ⟨rfl, same⟩, trimmedAgain]
    dsimp only
    simp only [String.isEmpty_iff]
    split
    · assumption
    · rfl

/-! One target, and those behind it -/

theorem targetWritten {job : Job} (wet : job.dry = false) {pair : Workspace.Pair}
    {tree : FileTree} {t : Target} (kind : Kind.ofPath t.path = some .script)
    (inScope : pair.format.shouldFormat t.path t.explicit = true) {names : List String}
    {text : String} (found : tree.find t.path = .ok (names, .file (.text text))) :
    (tidyTarget job pair tree t).1.contentAt? names =
      some (.text (job.tidy pair .script text)) := by
  have there := (FileTree.findNames found).2
  have read : tree.readText t.path = .ok text := by
    rw [FileTree.readText, found]
    rfl
  rw [tidyTarget, if_pos inScope, kind]
  dsimp only
  rw [tidied, read]
  dsimp only
  by_cases same : job.tidy pair .script text = text
  · rw [if_pos same, same]
    exact FileTree.contentFile.mpr there
  · rw [if_neg same, wet]
    dsimp only
    rw [if_neg Bool.false_ne_true, FileTree.writeFound found]
    exact FileTree.contentFile.mpr (FileTree.putHere there _)

theorem processRewritten (around : Surroundings) (job : Job) (progress : Progress)
    (rest : List Target) :
    Rewritten (fun names => ∃ t ∈ rest, progress.tree.names? t.path = some names) progress.tree
      (processFrom around job progress rest).tree := by
  induction rest generalizing progress with
  | nil => exact .refl _ _
  | cons t rest ih =>
    rw [processCons]
    split
    · exact .refl _ _
    · rename_i pair known found
      have here := tidyRewritten job pair progress.tree t
      refine (here.mono fun names leads => ?_).trans
        ((ih (progress.next job pair known t)).mono ?_)
      · exact ⟨t, List.mem_cons_self, leads⟩
      · rintro names ⟨u, mem, leads⟩
        exact ⟨u, List.mem_cons_of_mem _ mem, (here.leads u.path).symm.trans leads⟩

/-- How far a run has come behind some of its targets. -/
def Progress.through (around : Surroundings) (job : Job) (progress : Progress) :
    List Target → Option Progress
  | [] => some progress
  | t :: rest =>
    match pairFor around progress.tree progress.known t.path with
    | .error _ => none
    | .ok (pair, known) => through around job (progress.next job pair known t) rest

theorem processThrough {around : Surroundings} {job : Job} {progress reached : Progress}
    {before : List Target} (came : progress.through around job before = some reached)
    (rest : List Target) :
    processFrom around job progress (before ++ rest) = processFrom around job reached rest ∧
      ∀ p, reached.tree.names? p = progress.tree.names? p := by
  induction before generalizing progress with
  | nil =>
    cases came
    exact ⟨rfl, fun _ => rfl⟩
  | cons t before ih =>
    rw [Progress.through] at came
    rw [List.cons_append, processCons]
    cases found : pairFor around progress.tree progress.known t.path with
    | error e =>
      rw [found] at came
      cases came
    | ok result =>
      obtain ⟨pair, known⟩ := result
      rw [found] at came
      obtain ⟨onward, leads⟩ := ih came
      exact ⟨onward, fun p =>
        (leads p).trans ((tidyRewritten job pair progress.tree t).leads p)⟩

section run

variable {m : Machine} {tree : FileTree} {inv : Invocation} {arguments : List String}
variable {paths : List Path} {sortImports : Bool} {overrides : Config.Table}
variable {before rest : List Target} {t : Target} {reached : Progress} {pair : Workspace.Pair}
variable {known : Resolutions} {names : List String} {text out : String}

theorem scriptClosed (asked : Invocation.ofArguments arguments = .ok inv)
    (assigned : inv.assignment? m tree =
      some ⟨paths, ⟨formatTidying sortImports, false⟩, .format⟩)
    (given : Config.parseOverrides inv.overrides = .ok overrides)
    (collected : Target.collect tree m.current paths = .ok (before ++ t :: rest))
    (came : Progress.through (surroundings m inv.program overrides)
      ⟨formatTidying sortImports, false⟩ ⟨tree, [], []⟩ before = some reached)
    (governed : pairFor (surroundings m inv.program overrides) reached.tree reached.known t.path =
      .ok (pair, known))
    (kind : Kind.ofPath t.path = some .script)
    (inScope : pair.format.shouldFormat t.path t.explicit = true)
    (found : reached.tree.find t.path = .ok (names, .file (.text text)))
    (formats : pair.format.engine.format (imported sortImports pair text) = .ok out)
    (last : ∀ u ∈ rest, tree.names? u.path ≠ some names) :
    (run m tree arguments).tree.contentAt? names = some (.text
      (if trimmed out = text then text
      else if trimmed out = "" then "" else trimmed out ++ "\n")) := by
  obtain ⟨onward, leads⟩ := processThrough came (t :: rest)
  have ends : (run m tree arguments).tree = (processFrom (surroundings m inv.program overrides)
      ⟨formatTidying sortImports, false⟩ reached (t :: rest)).tree := by
    rw [runAssigned asked assigned, runJob, given, collected, ← onward]
    dsimp only
    rw [ended, process]
    split <;> rfl
  have here := tidyRewritten ⟨formatTidying sortImports, false⟩ pair reached.tree t
  have later := processRewritten (surroundings m inv.program overrides)
    ⟨formatTidying sortImports, false⟩
    (reached.next ⟨formatTidying sortImports, false⟩ pair known t) rest
  have outside : ¬ ∃ u ∈ rest, (tidyTarget ⟨formatTidying sortImports, false⟩ pair reached.tree
      t).1.names? u.path = some names := by
    rintro ⟨u, mem, same⟩
    rw [here.leads, leads] at same
    exact last u mem same
  rw [ends, processCons, governed]
  dsimp only
  rw [later.contents names outside, Progress.next, ← scriptTidied formats]
  exact targetWritten rfl kind inScope found

end run

def feedMachine : Machine := ⟨⟨"/"⟩, fun _ _ _ => .ok ⟨0, Text.encodeUtf8 "x = 1\n", [], none⟩⟩

def feedTree (text : String) : FileTree :=
  .directory (.cons .aPy (.file (.text text)) .nil)

theorem feedCollected (text : String) :
    Target.collect (feedTree text) ⟨"/"⟩ [⟨"/a.py"⟩] = .ok [⟨⟨"/a.py"⟩, true⟩] := by
  have seen : [Path.mk "/a.py"].mapM (·.absolute ⟨"/"⟩) = some [⟨"/a.py"⟩] := by decide
  refine collectOrdered seen ?_ (List.pairwise_singleton _ _) rfl
  rw [List.flatMap_singleton, Target.ofPath]
  rfl

/-- What the run knows of the one file in the tree, and what the engine makes of it. -/
def feedGoverns (text : String) : Option (Bool × Option String) :=
  (pairFor (surroundings feedMachine "ruff" .nil) (feedTree text) [] ⟨"/a.py"⟩).toOption.map
    fun found => (found.1.format.shouldFormat ⟨"/a.py"⟩ true,
      (found.1.format.engine.format (imported true found.1 text)).toOption)

theorem feedGoverned {text out : String} (governs : feedGoverns text = some (true, some out)) :
    ∃ pair known,
      pairFor (surroundings feedMachine "ruff" .nil) (feedTree text) [] ⟨"/a.py"⟩ =
        .ok (pair, known) ∧
      pair.format.shouldFormat ⟨"/a.py"⟩ true = true ∧
      pair.format.engine.format (imported true pair text) = .ok out := by
  obtain ⟨⟨pair, known⟩, found, both⟩ := Option.map_eq_some_iff.mp governs
  obtain ⟨inScope, formats⟩ := Prod.mk.inj both
  exact ⟨pair, known, Config.toOptionOk found, inScope, Config.toOptionOk formats⟩

theorem feedAsked : Invocation.ofArguments ["format", "/a.py"] =
    .ok ⟨[], "ruff", none, false, .format [⟨"/a.py"⟩] false true⟩ := by
  decide +kernel

theorem feedAssigned (text : String) : Invocation.assignment? feedMachine (feedTree text)
    ⟨[], "ruff", none, false, .format [⟨"/a.py"⟩] false true⟩ =
      some ⟨[⟨"/a.py"⟩], ⟨formatTidying true, false⟩, .format⟩ := rfl

theorem scriptClosedSpaced :
    (run feedMachine (feedTree "x=1") ["format", "/a.py"]).tree.contentAt? ["a.py"] =
      some (.text "x = 1\n") := by
  obtain ⟨pair, known, governed, inScope, formats⟩ :=
    feedGoverned (by decide +kernel : feedGoverns "x=1" = some (true, some "x = 1\n"))
  have kind : Kind.ofPath ⟨"/a.py"⟩ = some .script := by decide
  have found : (feedTree "x=1").find ⟨"/a.py"⟩ = .ok (["a.py"], .file (.text "x=1")) := rfl
  have came : Progress.through (surroundings feedMachine "ruff" .nil)
      ⟨formatTidying true, false⟩ ⟨feedTree "x=1", [], []⟩ [] = some ⟨feedTree "x=1", [], []⟩ := rfl
  have given : Config.parseOverrides [] = .ok .nil := rfl
  have collected : Target.collect (feedTree "x=1") ⟨"/"⟩ [⟨"/a.py"⟩] =
      .ok ([] ++ ⟨⟨"/a.py"⟩, true⟩ :: []) := feedCollected "x=1"
  have closed := scriptClosed feedAsked (feedAssigned "x=1") given collected came governed kind
    inScope found formats (List.forall_mem_nil _)
  rw [closed]
  decide

/-- The engine gives the script with a line feed, and the script stays as it is, without one. -/
theorem scriptUnclosed : ∃ pair known,
    pairFor (surroundings feedMachine "ruff" .nil) (feedTree "x = 1") [] ⟨"/a.py"⟩ =
      .ok (pair, known) ∧
    pair.format.shouldFormat ⟨"/a.py"⟩ true = true ∧
    pair.format.engine.format (imported true pair "x = 1") = .ok "x = 1\n" ∧
    (run feedMachine (feedTree "x = 1") ["format", "/a.py"]).tree.contentAt? ["a.py"] =
      some (.text "x = 1") ∧
    trimmed "x = 1\n" ++ "\n" ≠ "x = 1" := by
  obtain ⟨pair, known, governed, inScope, formats⟩ :=
    feedGoverned (by decide +kernel : feedGoverns "x = 1" = some (true, some "x = 1\n"))
  refine ⟨pair, known, governed, inScope, formats, ?_, by decide⟩
  rw [runAssigned feedAsked (feedAssigned "x = 1"), runJob]
  dsimp only
  rw [show feedMachine.current = ⟨"/"⟩ from rfl, feedCollected]
  decide +kernel

end NotebookTidy.Batch
