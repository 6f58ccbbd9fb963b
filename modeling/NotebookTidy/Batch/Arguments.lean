import NotebookTidy.Path

/-!
The command line. Options may stand anywhere, before the name of a task or after it; one that
stands on both sides counts as it stands after. Only `--config` may be repeated on one side. After
`--` nothing is an option.
-/
namespace NotebookTidy.Batch

inductive Flag where
  | verbose
  | check
  | noSortImports
  | fix
  deriving DecidableEq, Repr

inductive Valued where
  | config
  | program
  | settings
  deriving DecidableEq, Repr

inductive TaskName where
  | format
  | check
  | config
  deriving DecidableEq, Repr

inductive Stop where
  | usage
  | help
  | version
  deriving DecidableEq, Repr

def Flag.name : Flag → String
  | .verbose => "verbose"
  | .check => "check"
  | .noSortImports => "no-sort-imports"
  | .fix => "fix"

def Valued.name : Valued → String
  | .config => "config"
  | .program => "ruff"
  | .settings => "settings"

def TaskName.name : TaskName → String
  | .format => "format"
  | .check => "check"
  | .config => "config"

def TaskName.all : List TaskName := [.format, .check, .config]

def TaskName.ofText? (text : String) : Option TaskName := all.find? (·.name = text)

def Valued.ofText? (text : List Char) : Option Valued :=
  [Valued.config, .program, .settings].find? (·.name.toList = text)

def TaskName.flags : TaskName → List Flag
  | .format => [.verbose, .check, .noSortImports]
  | .check => [.verbose, .check, .fix]
  | .config => [.verbose]

structure Given where
  overrides : List String := []
  program : Option String := none
  settings : Option String := none
  flags : List Flag := []
  paths : List String := []
  deriving DecidableEq, Repr

inductive Side where
  | before
  | after (task : TaskName)
  deriving DecidableEq, Repr

namespace Side

def flags : Side → List Flag
  | .before => [.verbose]
  | .after task => task.flags

/-- The version is only told before a task is named. -/
def tellsVersion : Side → Bool
  | .before => true
  | .after _ => false

def flagOf? (side : Side) (name : List Char) : Option Flag :=
  side.flags.find? (·.name.toList = name)

end Side

namespace Given

def setFlag (g : Given) (f : Flag) : Except Stop Given :=
  if f ∈ g.flags then .error .usage else .ok { g with flags := f :: g.flags }

/-- Paths are never empty, and neither are the paths that options name. -/
def addPath (g : Given) (path : String) : Except Stop Given :=
  if path.isEmpty then .error .usage else .ok { g with paths := g.paths ++ [path] }

def setValue (g : Given) (option : Valued) (value : String) : Except Stop Given :=
  match option with
  | .config => .ok { g with overrides := g.overrides ++ [value] }
  | .program =>
    if value.isEmpty || g.program.isSome then .error .usage
    else .ok { g with program := some value }
  | .settings =>
    if value.isEmpty || g.settings.isSome then .error .usage
    else .ok { g with settings := some value }

def setLetters (side : Side) (g : Given) : List Char → Except Stop Given
  | [] => .ok g
  | c :: rest =>
    if c = 'v' then
      match g.setFlag .verbose with
      | .ok next => setLetters side next rest
      | .error e => .error e
    else if c = 'h' then .error .help
    else if c = 'V' && side.tellsVersion then .error .version
    else .error .usage

def setLong (side : Side) (g : Given) (name : List Char) : Except Stop Given :=
  match side.flagOf? name with
  | some f => g.setFlag f
  | none =>
    if name = "help".toList then .error .help
    else if name = "version".toList && side.tellsVersion then .error .version
    else .error .usage

/-- A positional argument is a path, and only a task takes paths. -/
def addPositional (side : Side) (g : Given) (text : String) : Except Stop Given :=
  match side with
  | .before => .error .usage
  | .after .config => if g.paths.isEmpty then g.addPath text else .error .usage
  | .after _ => g.addPath text

end Given

/-- A hyphen alone is no option. -/
def looksLikeOption (text : String) : Bool :=
  match text.toList with
  | '-' :: _ :: _ => true
  | _ => false

structure Reading where
  given : Given
  rest : Option (TaskName × List String)
  deriving DecidableEq, Repr

def readSide (side : Side) (g : Given) : List String → Except Stop Reading
  | [] => .ok ⟨g, none⟩
  | arg :: rest =>
    let go (next : Except Stop Given) : Except Stop Reading :=
      match next with
      | .ok g => readSide side g rest
      | .error e => .error e
    match arg.toList with
    | ['-', '-'] =>
      match rest.foldlM (Given.addPositional side) g with
      | .ok g => .ok ⟨g, none⟩
      | .error e => .error e
    | '-' :: '-' :: body =>
      let name := body.takeWhile (· ≠ '=')
      match Valued.ofText? name, body.dropWhile (· ≠ '=') with
      | some option, _ :: value => go (g.setValue option (String.ofList value))
      | some option, [] =>
        match rest with
        | value :: others =>
          if looksLikeOption value then .error .usage
          else
            match g.setValue option value with
            | .ok g => readSide side g others
            | .error e => .error e
        | [] => .error .usage
      | none, [] => go (g.setLong side name)
      | none, _ => .error .usage
    | '-' :: c :: letters => go (g.setLetters side (c :: letters))
    | _ =>
      match side, TaskName.ofText? arg with
      | .before, some task => .ok ⟨g, some (task, rest)⟩
      | .before, none => .error (if arg = "help" then .help else .usage)
      | .after _, _ => go (g.addPositional side arg)

inductive Task where
  | format (paths : List Path) (dry sortImports : Bool)
  | fix (paths : List Path) (dry : Bool)
  | config (path : Path)
  deriving DecidableEq, Repr

structure Invocation where
  overrides : List String
  program : String
  settings : Option Path
  verbose : Bool
  task : Task
  deriving DecidableEq, Repr

def defaultProgram : String := "ruff"

def Given.task? (g : Given) : TaskName → Option Task
  | .format =>
    if g.paths.isEmpty then none
    else some (.format (g.paths.map Path.mk) (.check ∈ g.flags) (.noSortImports ∉ g.flags))
  | .check =>
    if g.paths.isEmpty || Flag.fix ∉ g.flags then none
    else some (.fix (g.paths.map Path.mk) (.check ∈ g.flags))
  | .config => g.paths.head?.map fun p => .config ⟨p⟩

private def invocation (before after : Given) (task : Task) : Invocation :=
  { overrides := if after.overrides.isEmpty then before.overrides else after.overrides
    program := ((after.program).or before.program).getD defaultProgram
    settings := ((after.settings).or before.settings).map Path.mk
    verbose := .verbose ∈ after.flags ++ before.flags
    task }

def Invocation.ofArguments (arguments : List String) : Except Stop Invocation := do
  let first ← readSide .before {} arguments
  match first.rest with
  | none => throw .usage
  | some (name, rest) =>
    let second ← readSide (.after name) {} rest
    match second.given.task? name with
    | some task => pure (invocation first.given second.given task)
    | none => throw .usage

end NotebookTidy.Batch
