import NotebookTidy.Storage.FileTree
import NotebookTidy.Toml.Reader

/-!
The three switches of a user, and the file they are kept in between sessions. A file that does not
exist holds the defaults; keys that are no switch are passed over.
-/
namespace NotebookTidy
open Storage (FileTree OsFault)

inductive Setting where
  | formatOnRun
  | formatOnSave
  | sortImports
  deriving DecidableEq, Repr

structure Settings where
  formatOnRun : Bool := false
  formatOnSave : Bool := false
  sortImports : Bool := true
  deriving DecidableEq, Repr

namespace Setting

def all : List Setting := [.formatOnRun, .formatOnSave, .sortImports]

def key : Setting → String
  | .formatOnRun => "format-on-run"
  | .formatOnSave => "format-on-save"
  | .sortImports => "sort-imports"

end Setting

namespace Settings

inductive Error where
  | unreadable
  | malformed
  | unwritable
  | unavailable
  deriving DecidableEq, Repr

/-- Which file it was, and what was wrong with it, is not part of the message. -/
def Error.message : Error → String
  | .unreadable => "Settings error: Failed to read"
  | .malformed => "Settings error: Failed to parse"
  | .unwritable => "Settings error: Failed to write"
  | .unavailable => "Settings error: store unavailable"

def get (s : Settings) : Setting → Bool
  | .formatOnRun => s.formatOnRun
  | .formatOnSave => s.formatOnSave
  | .sortImports => s.sortImports

def set (s : Settings) (setting : Setting) (value : Bool) : Settings :=
  match setting with
  | .formatOnRun => { s with formatOnRun := value }
  | .formatOnSave => { s with formatOnSave := value }
  | .sortImports => { s with sortImports := value }

def toggle (s : Settings) (setting : Setting) : Settings := s.set setting (!s.get setting)

theorem getSet (s : Settings) (a b : Setting) (value : Bool) :
    (s.set a value).get b = if a = b then value else s.get b := by
  cases a <;> cases b <;> rfl

private def readSwitch (t : Config.Table) (s : Settings) (setting : Setting) : Option Settings :=
  match t.get? setting.key with
  | none => some s
  | some (.boolean value) => some (s.set setting value)
  | some _ => none

/-- The defaults with the switches of a table set. A switch that is no boolean is an error. -/
def ofTable? (t : Config.Table) : Option Settings := Setting.all.foldlM (readSwitch t) {}

def read? (text : String) : Option Settings := (Toml.read? text).bind ofTable?

private def line (s : Settings) (setting : Setting) : String :=
  setting.key ++ " = " ++ toString (s.get setting) ++ "\n"

def text (s : Settings) : String := String.join (Setting.all.map (line s))

def load (tree : FileTree) (p : Path) : Except Error Settings :=
  match tree.readText p with
  | .ok text =>
    match read? text with
    | some s => .ok s
    | none => .error .malformed
  | .error .noEntry => .ok {}
  | .error _ => .error .unreadable

def save (s : Settings) (tree : FileTree) (p : Path) : Except Error FileTree :=
  match tree.writeText p s.text with
  | .ok tree => .ok tree
  | .error _ => .error .unwritable

/-- Where a session keeps its settings. A store that is out of order is neither read nor changed. -/
structure Store where
  held : Settings
  broken : Bool
  deriving DecidableEq, Repr

namespace Store

def load (store : Store) : Except Error Settings :=
  if store.broken then .error .unavailable else .ok store.held

def save (store : Store) (s : Settings) : Except Error Store :=
  if store.broken then .error .unavailable else .ok { store with held := s }

end Store
end Settings
end NotebookTidy
