import NotebookTidy.Ignore.Walk
import NotebookTidy.Notebook.File
import NotebookTidy.Storage.Disk
import NotebookTidy.Workspace

/-!
Targets, and tidying them one after the other. Targets are the files named by a list of paths, in
the order of their components: a file that is named itself is explicit; of a directory all files
count that no ignore file drops; what does not exist is passed over. Workspaces are resolved once
for each directory. What fails for one file is noted with it; a configuration that does not resolve
ends the whole.
-/
namespace NotebookTidy

namespace Source

inductive Kind where
  | script
  | notebook
  deriving DecidableEq, Repr

def Kind.ofPath (p : Path) : Option Kind :=
  match p.extension with
  | some "py" | some "pyi" | some "pyw" => some .script
  | some "ipynb" => some .notebook
  | _ => none

end Source

namespace Batch
open Storage (FileTree)
open Source (Kind)

/-! Targets -/

structure Target where
  path : Path
  explicit : Bool
  deriving DecidableEq, Repr

structure EmptyPath where
  deriving DecidableEq, Repr

def EmptyPath.message (_ : EmptyPath) : String := "cannot make an empty path absolute"

namespace Target

def ofPath (tree : FileTree) (p : Path) : List Target :=
  match tree.find p with
  | .ok (names, .directory cs) =>
    (Ignore.walk tree names cs).map fun below =>
      ⟨below.foldl (fun d name => d.join ⟨name⟩) p, false⟩
  | .ok (_, .file _) => [⟨p, true⟩]
  | .error _ => []

/-- Neighbours with one path become one, explicit if any of them is. -/
def merge : List Target → List Target
  | [] => []
  | t :: rest =>
    match merge rest with
    | [] => [t]
    | u :: others =>
      if t.path.same u.path then ⟨t.path, t.explicit || u.explicit⟩ :: others
      else t :: u :: others

def ordered (ts : List Target) : List Target :=
  ts.mergeSort fun a b => (a.path.order b.path).isLE

def collect (tree : FileTree) (current : Path) (paths : List Path) :
    Except EmptyPath (List Target) :=
  match paths.mapM (·.absolute current) with
  | some absolute => .ok (merge (ordered (absolute.flatMap (ofPath tree))))
  | none => .error ⟨⟩

end Target

/-! Tidying -/

inductive Disposition where
  | skipped
  | unchanged
  | changed
  | failed
  deriving DecidableEq, Repr

abbrev Tidying := Workspace.Pair → Kind → String → String

structure Job where
  tidy : Tidying
  dry : Bool

/-- The text of a tidied file, if it is another one. Nothing can be said of a file that
cannot be read or is no notebook though its name says so. -/
def tidied (tree : FileTree) (p : Path) (kind : Kind) (f : String → String) :
    Except Unit (Option String) :=
  match tree.readText p with
  | .error _ => .error ()
  | .ok text =>
    match kind with
    | .script => .ok (if f text = text then none else some (f text))
    | .notebook =>
      match Notebook.transform text f with
      | .ok output => .ok output
      | .error _ => .error ()

def tidyTarget (job : Job) (pair : Workspace.Pair) (tree : FileTree) (t : Target) :
    FileTree × Disposition :=
  if pair.format.shouldFormat t.path t.explicit then
    match Kind.ofPath t.path with
    | none => (tree, .skipped)
    | some kind =>
      match tidied tree t.path kind (job.tidy pair kind) with
      | .error _ => (tree, .failed)
      | .ok none => (tree, .unchanged)
      | .ok (some output) =>
        if job.dry then (tree, .changed)
        else
          match tree.writeText t.path output with
          | .ok next => (next, .changed)
          | .error _ => (tree, .failed)
  else (tree, .skipped)

structure Surroundings where
  current : Path
  overrides : Config.Table
  factory : EngineFactory

abbrev Resolutions := List (List Component × Workspace.Pair)

def pairFor (around : Surroundings) (tree : FileTree) (known : Resolutions) (p : Path) :
    Except Config.Error (Workspace.Pair × Resolutions) :=
  match known.lookup p.directory.components with
  | some pair => .ok (pair, known)
  | none =>
    let storage := Storage.Disk.storage tree around.current
    (Workspace.resolvePair storage p around.overrides around.factory).map fun pair =>
      (pair, (p.directory.components, pair) :: known)

structure Progress where
  tree : FileTree
  known : Resolutions
  done : List (Target × Disposition)

structure Ended where
  tree : FileTree
  result : Except Config.Error (List (Target × Disposition))

def processFrom (around : Surroundings) (job : Job) (progress : Progress) : List Target → Ended
  | [] => ⟨progress.tree, .ok progress.done⟩
  | t :: rest =>
    match pairFor around progress.tree progress.known t.path with
    | .error e => ⟨progress.tree, .error e⟩
    | .ok (pair, known) =>
      let (tree, disposition) := tidyTarget job pair progress.tree t
      processFrom around job ⟨tree, known, progress.done ++ [(t, disposition)]⟩ rest

def process (around : Surroundings) (job : Job) (tree : FileTree) (targets : List Target) : Ended :=
  processFrom around job ⟨tree, [], []⟩ targets

/-! What is told at the end of a run -/

structure Wording where
  verb : String
  done : String
  deriving DecidableEq, Repr

def Wording.format : Wording := ⟨"reformat", "Reformatted"⟩

def Wording.fix : Wording := ⟨"fix", "Fixed"⟩

abbrev Outcomes := List (Target × Disposition)

namespace Outcomes

def paths (outcomes : Outcomes) (d : Disposition) : List Path :=
  (outcomes.filter (·.2 = d)).map (·.1.path)

def changed (outcomes : Outcomes) : List Path := paths outcomes .changed

def failed (outcomes : Outcomes) : List Path := paths outcomes .failed

def unchanged (outcomes : Outcomes) : Nat := (paths outcomes .unchanged).length

/-- Whether a run is to be told as one that did not go well: a file failed, or would be changed. -/
def alarming (outcomes : Outcomes) (dry : Bool) : Bool :=
  (dry && !(changed outcomes).isEmpty) || !(failed outcomes).isEmpty

def text (outcomes : Outcomes) (dry : Bool) (wording : Wording) : String :=
  let mark := if dry then "Would " ++ wording.verb else wording.done
  let lines := (changed outcomes).map fun p => mark ++ ": " ++ p.text ++ "\n"
  let action := if dry then "would be changed" else "changed"
  String.join lines ++ toString (changed outcomes).length ++ " file(s) " ++ action ++ ", " ++
    toString (unchanged outcomes) ++ " file(s) left unchanged\n"

end Outcomes
end Batch
end NotebookTidy
