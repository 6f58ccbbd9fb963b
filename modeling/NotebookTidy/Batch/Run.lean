import NotebookTidy.Batch.Arguments
import NotebookTidy.Batch.Process
import NotebookTidy.Engine.Command
import NotebookTidy.Settings

/-!
One run of the command line over a tree of files. Exit code 2 is for a command line, settings or a
configuration that cannot be used; a run that comes to its end has 1 where it is alarming.
-/
namespace NotebookTidy.Batch
open Storage (FileTree)
open Source (Kind)

structure Answer where
  exit : Nat
  stdout : String
  failed : List Path
  tree : FileTree
  deriving DecidableEq, Repr

structure Machine where
  current : Path
  launch : Engine.Launcher

private def refused (tree : FileTree) : Answer := ⟨2, "", [], tree⟩

def versionText : String := "nbruff 0.1.0\n"

def helpText : String :=
  "Usage: nbruff [OPTIONS] <COMMAND>\n\nCommands:\n  format  Format files and notebooks\n" ++
  "  check   Apply lint fixes to files and notebooks\n" ++
  "  config  Show the configuration resolved for a path\n"

def Stop.answer (stop : Stop) (tree : FileTree) : Answer :=
  match stop with
  | .usage => refused tree
  | .help => ⟨0, helpText, [], tree⟩
  | .version => ⟨0, versionText, [], tree⟩

/-- Cells carry no final line feed, but a script that changes ends with one unless it is empty. -/
def finished (kind : Kind) (source formatted : String) : String :=
  if kind = .script ∧ formatted ≠ source then
    let body := Pipeline.trimmed formatted
    if body.isEmpty then body else body ++ "\n"
  else formatted

def formatTidying (sortImports : Bool) : Tidying := fun pair kind source =>
  let sorting := if sortImports then some pair.sorting.engine else none
  finished kind source (Pipeline.formatSource pair.format.engine sorting source)

def fixTidying : Tidying := fun pair _ source => Pipeline.fixText pair.format.engine source

def surroundings (m : Machine) (program : String) (overrides : Config.Table) :
    Surroundings :=
  ⟨m.current, overrides, Engine.Command.factory m.launch program⟩

def ended (e : Ended) (job : Job) (wording : Wording) : Answer :=
  match e.result with
  | .error _ => refused e.tree
  | .ok outcomes =>
    { exit := if Outcomes.alarming outcomes job.dry then 1 else 0
      stdout := Outcomes.text outcomes job.dry wording
      failed := Outcomes.failed outcomes
      tree := e.tree }

def runJob (m : Machine) (inv : Invocation) (tree : FileTree) (paths : List Path) (job : Job)
    (wording : Wording) : Answer :=
  match Config.parseOverrides inv.overrides, Target.collect tree m.current paths with
  | .ok overrides, .ok targets =>
    ended (process (surroundings m inv.program overrides) job tree targets) job wording
  | _, _ => refused tree

def resolvedText (r : Config.Resolved) : String :=
  let found := match r.source with
    | some p => "# Resolved from " ++ p.text ++ "\n"
    | none => "# No configuration file found\n"
  found ++ String.join (r.bases.map fun p => "# Extends " ++ p.text ++ "\n") ++
    Toml.document r.config

def runConfig (m : Machine) (inv : Invocation) (tree : FileTree) (p : Path) : Answer :=
  match Config.parseOverrides inv.overrides, p.absolute m.current with
  | .ok overrides, some absolute =>
    match Config.resolve (Storage.Disk.storage tree m.current) absolute overrides with
    | .ok resolved => ⟨0, resolvedText resolved, [], tree⟩
    | .error _ => refused tree
  | _, _ => refused tree

def loadSettings (m : Machine) (inv : Invocation) (tree : FileTree) :
    Except Settings.Error Settings :=
  match inv.settings with
  | some p => Settings.load tree (Storage.Disk.resolved m.current p)
  | none => .ok {}

def runInvocation (m : Machine) (inv : Invocation) (tree : FileTree) : Answer :=
  match inv.task with
  | .format paths dry sortImports =>
    match loadSettings m inv tree with
    | .ok settings =>
      let job : Job := ⟨formatTidying (settings.sortImports && sortImports), dry⟩
      runJob m inv tree paths job .format
    | .error _ => refused tree
  | .fix paths dry => runJob m inv tree paths ⟨fixTidying, dry⟩ .fix
  | .config p => runConfig m inv tree p

def run (m : Machine) (tree : FileTree) (arguments : List String) : Answer :=
  match Invocation.ofArguments arguments with
  | .ok inv => runInvocation m inv tree
  | .error stop => stop.answer tree

/-! The paths that a run looks at, for a caller that reads files one by one: the named ones, what
may govern them, and the bases that their configuration extends. -/

def Invocation.named (inv : Invocation) (current : Path) : List Path :=
  let paths := match inv.task with
    | .format paths _ _ => paths
    | .fix paths _ => paths
    | .config p => [p]
  paths.filterMap (·.absolute current)

def governing (p : Path) : List Path :=
  p.parents.flatMap fun d =>
    (Config.fileNames ++ [".ignore", ".gitignore"]).map fun name => d.join ⟨name⟩

def Invocation.firstDemand (inv : Invocation) (current : Path) : List Path :=
  let named := inv.named current
  inv.settings.toList.map (Storage.Disk.resolved current) ++ named ++ named.flatMap governing

/-- The base of a configuration that is not among the files of the tree. -/
private def missingBase (m : Machine) (tree : FileTree) (overrides : Config.Table) (p : Path) :
    Option Path :=
  match Config.resolve (Storage.Disk.storage tree m.current) p overrides with
  | .error (.storage (.notFound base)) => some base
  | _ => none

def Invocation.nextDemand (inv : Invocation) (m : Machine) (tree : FileTree) : List Path :=
  match Config.parseOverrides inv.overrides with
  | .ok overrides => (inv.named m.current).filterMap (missingBase m tree overrides)
  | .error _ => []

end NotebookTidy.Batch
