import NotebookTidy.Config.Resolution
import NotebookTidy.Source.Patch

/-!
A configuration bound to its engine, with the globs that say which files it covers. Texts are
formatted with the engines of workspaces; an engine that fails changes nothing.
-/
namespace NotebookTidy

structure Workspace where
  options : Config.Table
  included : Glob.Matcher
  excluded : Glob.Matcher
  forceExclude : Bool
  engine : Engine

namespace Workspace
open Config

def defaultInclude : List String := ["*.py", "*.pyi", "*.pyw", "*.ipynb", "**/pyproject.toml"]

def defaultExclude : List String :=
  [".bzr", ".direnv", ".eggs", ".git", ".git-rewrite", ".hg", ".mypy_cache", ".nox", ".pants.d",
   ".pytype", ".ruff_cache", ".svn", ".tox", ".venv", "__pypackages__", "_build", "buck-out",
   "dist", "node_modules", "venv"]

def effectiveGlobs (options : Table) (key extendKey : String) (defaults : List String) :
    List String :=
  (options.strings? key).getD defaults ++ (options.strings? extendKey).getD []

def matcher (globs : List String) : Except Error Glob.Matcher :=
  match Glob.Matcher.ofGlobs globs with
  | .ok m => .ok m
  | .error e => .error (.globs e)

/-- A bad engine configuration is found before a bad glob, and included globs come first. -/
def build (options : Table) (factory : EngineFactory) (encoding : Text.Encoding) :
    Except Error Workspace :=
  match factory options encoding with
  | .error e => .error (.engine e)
  | .ok engine => do
    let included ← matcher (effectiveGlobs options "include" "extend-include" defaultInclude)
    let excluded ← matcher (effectiveGlobs options "exclude" "extend-exclude" defaultExclude)
    pure ⟨options, included, excluded,
      options.get? "force-exclude" = some (.boolean true), engine⟩

theorem matcherOk {globs : List String} {m : Glob.Matcher} (ok : matcher globs = .ok m) :
    Glob.Matcher.ofGlobs globs = .ok m := by
  unfold matcher at ok
  split at ok
  · rename_i found
    cases ok
    exact found
  · cases ok

/-- What a workspace holds of the options it is built from. -/
structure BuiltFrom (options : Table) (factory : EngineFactory) (encoding : Text.Encoding)
    (w : Workspace) : Prop where
  kept : w.options = options
  engine : factory options encoding = .ok w.engine
  included : Glob.Matcher.ofGlobs
    (effectiveGlobs options "include" "extend-include" defaultInclude) = .ok w.included
  excluded : Glob.Matcher.ofGlobs
    (effectiveGlobs options "exclude" "extend-exclude" defaultExclude) = .ok w.excluded
  forced : w.forceExclude = decide (options.get? "force-exclude" = some (.boolean true))

theorem builtFrom {options : Table} {factory : EngineFactory} {encoding : Text.Encoding}
    {w : Workspace} (built : build options factory encoding = .ok w) :
    BuiltFrom options factory encoding w := by
  unfold build at built
  split at built
  · cases built
  · rename_i engine made
    cases including : matcher
      (effectiveGlobs options "include" "extend-include" defaultInclude) with
    | error e =>
      rw [including] at built
      cases built
    | ok included =>
      cases excluding : matcher
        (effectiveGlobs options "exclude" "extend-exclude" defaultExclude) with
      | error e =>
        rw [including, excluding] at built
        cases built
      | ok excluded =>
        rw [including, excluding] at built
        cases built
        exact ⟨rfl, made, matcherOk including, matcherOk excluding, rfl⟩

/-- Workspaces of documents count columns in UTF-16 units. -/
def resolve (s : Storage) (p : Path) (overrides : Table) (factory : EngineFactory) :
    Except Error Workspace := do
  build (← Config.resolve s p overrides).config factory .utf16

/-- Whether a path is formatted. An explicit request passes over the included globs, and over the
excluded ones unless those are forced. -/
def shouldFormat (w : Workspace) (p : Path) (explicit : Bool) : Bool :=
  if explicit && !w.forceExclude then true
  else if explicit || w.included.accepts p then !w.excluded.accepts p
  else false

structure Pair where
  format : Workspace
  sorting : Workspace

def resolvePair (s : Storage) (p : Path) (overrides : Table) (factory : EngineFactory) :
    Except Error Pair := do
  let format ← resolve s p overrides factory
  let sorting ← resolve s p (merge overrides importSorting) factory
  pure ⟨format, sorting⟩

/-- Engines that are asked for when a pair is resolved: none before the configuration is found, and
none for the sorting of imports before the other workspace stands. -/
def enginesAsked (s : Storage) (p : Path) (overrides : Table) (factory : EngineFactory) : Nat :=
  match Config.resolve s p overrides, resolve s p overrides factory with
  | .error _, _ => 0
  | .ok _, .error _ => 1
  | .ok _, .ok _ =>
    match Config.resolve s p (merge overrides importSorting) with
    | .error _ => 1
    | .ok _ => 2

end Workspace

namespace Pipeline
open Source

def trimmed (text : String) : String := String.ofList (Text.trimEnd text.toList)

def formatText (engine : Engine) (text : String) : String :=
  match engine.format text with
  | .ok formatted => trimmed formatted
  | .error _ => text

def collectFixes (engine : Engine) (text : String) : List Diagnostic :=
  match engine.check text with
  | .ok diagnostics => diagnostics.filter Diagnostic.hasSafeFix
  | .error _ => []

def fixText (engine : Engine) (text : String) : String :=
  (applyFixes text (collectFixes engine text) engine.encoding).text

/-- Imports are sorted before the text is formatted. -/
def formatSource (format : Engine) (sorting : Option Engine) (text : String) : String :=
  match sorting with
  | some engine => formatText format (fixText engine text)
  | none => formatText format text

end Pipeline
end NotebookTidy
