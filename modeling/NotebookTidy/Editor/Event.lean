import NotebookTidy.Config.Resolution
import NotebookTidy.Settings

/-! What an editor reports, and what a session tells about an event that it could not serve. -/
namespace NotebookTidy.Editor

inductive Command where
  | formatCell
  | formatAllCells
  | formatText
  | toggle (setting : Setting)
  | reload
  deriving DecidableEq, Repr

inductive Event where
  | activated (path : Path)
  | cellScheduled (path : Path) (cell : Nat)
  | saving (path : Path)
  | command (command : Command)
  deriving DecidableEq, Repr

inductive Operation where
  | cells
  | allCells
  | text
  deriving DecidableEq, Repr

def Operation.name : Operation → String
  | .cells => "Cell formatting"
  | .allCells => "Formatting all cells"
  | .text => "Editor formatting"

inductive Error where
  | config (cause : Config.Error)
  | noActiveDocument
  | notOpen (path : Path)
  | wrongKind (operation : Operation) (path : Path)
  | settings (cause : Settings.Error)
  deriving DecidableEq, Repr

def Error.message : Error → String
  | .config cause => cause.message
  | .noActiveDocument => "No active document"
  | .notOpen p => "Document not open: " ++ p.text
  | .wrongKind operation p => operation.name ++ " is not available for " ++ p.text
  | .settings cause => cause.message

inductive Notice where
  | failed (cause : Error)
  | unresolved (path : Path)
  | excluded (path : Path)
  | dropped (events : Nat)
  deriving DecidableEq, Repr

def Notice.message : Notice → String
  | .failed cause => cause.message
  | .unresolved p => "No configuration resolved, skipping " ++ p.text
  | .excluded p => p.text ++ " is excluded from formatting"
  | .dropped n => "Dropped " ++ toString n ++ " host events"

/-- All that is no failure is a warning. -/
def Notice.isError : Notice → Bool
  | .failed _ => true
  | _ => false

end NotebookTidy.Editor
