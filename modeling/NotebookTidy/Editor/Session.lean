import NotebookTidy.Editor.Document
import NotebookTidy.Editor.Event
import NotebookTidy.Workspace

/-!
A session of an editor: its open documents, its settings and the workspaces of the directory that
was last resolved. Serving an event never fails; what went wrong is told in notices.
-/
namespace NotebookTidy.Editor

structure Governed where
  directory : Path
  pair : Workspace.Pair

structure Session where
  documents : Documents := .empty
  activePath : Option Path := none
  activeCell : Option Nat := none
  settings : Settings := {}
  store : Settings.Store := ⟨{}, false⟩
  workspaces : Option Governed := none
  engines : Nat := 0

structure Surroundings where
  storage : Storage
  factory : EngineFactory
  overrides : Config.Table

structure Request where
  path : Path
  explicit : Bool
  sources : List (Target × String)
  deriving DecidableEq, Repr

structure Replacement where
  target : Target
  before : String
  after : String
  deriving DecidableEq, Repr

namespace Session

/-! Configuration -/

def needsReload (s : Session) (p : Path) : Bool :=
  match s.workspaces with
  | some w => !w.directory.same p.directory
  | none => true

/-- Resolves both workspaces anew. If one of them fails, those in use stay. -/
def reload (s : Session) (around : Surroundings) (p : Path) : Session × Except Error Unit :=
  let asked := Workspace.enginesAsked around.storage p around.overrides around.factory
  let s := { s with engines := s.engines + asked }
  match Workspace.resolvePair around.storage p around.overrides around.factory with
  | .ok pair => ({ s with workspaces := some ⟨p.directory, pair⟩ }, .ok ())
  | .error e => (s, .error (.config e))

def active (s : Session) : Except Error Path :=
  match s.activePath with
  | some p => .ok p
  | none => .error .noActiveDocument

/-- No cell of a document that has just become active is selected. -/
def activate (s : Session) (p : Path) : Session :=
  { s with activePath := some p, activeCell := none }

def selectCell (s : Session) (cell : Option Nat) : Session := { s with activeCell := cell }

def openDocument (s : Session) (d : Document) : Session :=
  { s with documents := s.documents.openDocument d }

def close (s : Session) (p : Path) : Session := { s with documents := s.documents.close p }

/-- Takes over the stored settings, and the configuration of the active document. -/
def start (s : Session) (around : Surroundings) : Session × Except Error Unit :=
  match s.store.load with
  | .error e => (s, .error (.settings e))
  | .ok settings =>
    let s := { s with settings }
    match s.activePath with
    | some p => s.reload around p
    | none => (s, .ok ())

/-- Flips a switch and then stores all of them. A switch that cannot be stored stays flipped. -/
def toggle (s : Session) (setting : Setting) : Session × Except Error Unit :=
  let s := { s with settings := s.settings.toggle setting }
  match s.store.save s.settings with
  | .ok store => ({ s with store }, .ok ())
  | .error e => (s, .error (.settings e))

/-! Requests -/

def sourcesAt (b : Body) (targets : List Target) : List (Target × String) :=
  targets.filterMap fun target => (b.source? target).map fun source => (target, source)

def document (s : Session) (p : Path) : Except Error Document :=
  match s.documents.get? p with
  | some d => .ok d
  | none => .error (.notOpen p)

/-- Cells that do not exist or hold no code are passed over. -/
def cellsRequest (s : Session) (p : Path) (cells : List Nat) (explicit : Bool) :
    Except Error Request := do
  let d ← s.document p
  match d.body with
  | .notebook _ => pure ⟨p, explicit, sourcesAt d.body (cells.map .cell)⟩
  | .text _ => throw (.wrongKind .cells p)

def textRequest (s : Session) (p : Path) (explicit : Bool) : Except Error Request := do
  let d ← s.document p
  match d.body with
  | .text _ => pure ⟨p, explicit, sourcesAt d.body [.whole]⟩
  | .notebook _ => throw (.wrongKind .text p)

def allCellsRequest (s : Session) (p : Path) : Except Error Request := do
  let d ← s.document p
  match d.body with
  | .notebook cells => s.cellsRequest p (Notebook.codeIndices cells) true
  | .text _ => throw (.wrongKind .allCells p)

def savingRequest (s : Session) (p : Path) : Except Error Request := do
  let d ← s.document p
  match d.body with
  | .notebook cells => s.cellsRequest p (Notebook.codeIndices cells) false
  | .text _ => s.textRequest p false

def request (s : Session) : Event → Except Error (Option Request)
  | .cellScheduled p cell =>
    if s.settings.formatOnRun then some <$> s.cellsRequest p [cell] false else pure none
  | .saving p =>
    if s.settings.formatOnSave then some <$> s.savingRequest p else pure none
  | .command .formatCell => do
    let p ← s.active
    match s.activeCell with
    | some cell => some <$> s.cellsRequest p [cell] true
    | none => pure none
  | .command .formatAllCells => do some <$> s.allCellsRequest (← s.active)
  | .command .formatText => do some <$> s.textRequest (← s.active) true
  | _ => pure none

/-! Formatting -/

def admitted (s : Session) (r : Request) : Except Notice Workspace.Pair :=
  match s.workspaces with
  | none => .error (.unresolved r.path)
  | some w =>
    if w.pair.format.shouldFormat r.path r.explicit then .ok w.pair
    else .error (.excluded r.path)

def replacements (s : Session) (pair : Workspace.Pair) (r : Request) : List Replacement :=
  let sorting := if s.settings.sortImports then some pair.sorting.engine else none
  r.sources.map fun (target, source) =>
    ⟨target, source, Pipeline.formatSource pair.format.engine sorting source⟩

def formats (s : Session) (e : Event) : Bool :=
  match s.request e with
  | .ok (some r) => !r.sources.isEmpty && (s.admitted r).isOk
  | _ => false

def apply (p : Path) (s : Session) (r : Replacement) : Session :=
  { s with
    documents := s.documents.modify p fun body => body.replace r.target r.before r.after }

/-- Formats the texts of a request. A document that arrives while they are being formatted is open
before they are put in place, and only texts that are still there are replaced. -/
def format (s : Session) (r : Request) (arriving : Option Document) :
    Session × Option Document × List Notice :=
  if r.sources.isEmpty then (s, arriving, [])
  else
    match s.admitted r with
    | .error notice => (s, arriving, [notice])
    | .ok pair =>
      let met := arriving.elim s s.openDocument
      ((s.replacements pair r).foldl (apply r.path) met, none, [])

def told (r : Session × Except Error Unit) (arriving : Option Document) :
    Session × Option Document × List Notice :=
  match r with
  | (s, .ok _) => (s, arriving, [])
  | (s, .error e) => (s, arriving, [.failed e])

/-- Serves an event while a document may arrive; gives back the document if it has not. -/
def handleAmid (s : Session) (around : Surroundings) (e : Event) (arriving : Option Document) :
    Session × Option Document × List Notice :=
  match e with
  | .activated p =>
    let s := s.activate p
    if s.needsReload p then told (s.reload around p) arriving else (s, arriving, [])
  | .command (.toggle setting) => told (s.toggle setting) arriving
  | .command .reload =>
    match s.active with
    | .ok p => told (s.reload around p) arriving
    | .error e => (s, arriving, [.failed e])
  | e =>
    match s.request e with
    | .ok (some r) => s.format r arriving
    | .ok none => (s, arriving, [])
    | .error e => (s, arriving, [.failed e])

def handle (s : Session) (around : Surroundings) (e : Event) : Session :=
  (s.handleAmid around e none).1

def run (s : Session) (around : Surroundings) (events : List Event) : Session :=
  events.foldl (·.handle around ·) s

end Session
end NotebookTidy.Editor
