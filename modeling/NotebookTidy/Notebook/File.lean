import NotebookTidy.Json.Printer
import NotebookTidy.Text.Segments

/-!
Notebooks as files: JSON with a list of cells. Only the sources of cells are ever changed, and each
keeps its shape, one string or a list of lines.
-/
namespace NotebookTidy.Notebook
open Json (Value)

inductive CellKind where
  | code
  | markdown
  | raw
  deriving DecidableEq, Repr

structure Cell where
  kind : CellKind
  source : String
  deriving DecidableEq, Repr

def Cell.isCode (c : Cell) : Bool := c.kind = .code

def codeIndices (cells : List Cell) : List Nat :=
  (cells.zipIdx.filter (·.1.isCode)).map (·.2)

structure File where
  json : Value
  deriving DecidableEq, Repr

inductive FileError where
  | notJson
  | notANotebook
  deriving DecidableEq, Repr

/-- The message for text that is no JSON is that of its reader, and is not given here. -/
def FileError.message : FileError → String
  | .notJson => "not JSON"
  | .notANotebook => "Not a notebook: missing `cells` array"

namespace File

def rawCells? (f : File) : Option (List Value) := (f.json.get? "cells").bind Value.array?

def parse (text : String) : Except FileError File :=
  match Json.read? text with
  | none => .error .notJson
  | some json => if (File.rawCells? ⟨json⟩).isSome then .ok ⟨json⟩ else .error .notANotebook

def kindOf (cell : Value) : CellKind :=
  match cell.get? "cell_type" with
  | some (.string "code") => .code
  | some (.string "markdown") => .markdown
  | _ => .raw

def sourceOf (cell : Value) : String :=
  match cell.get? "source" with
  | some (.string s) => s
  | some (.array lines) => String.join (lines.toList.filterMap Value.string?)
  | _ => ""

def cellOf (cell : Value) : Cell := ⟨kindOf cell, sourceOf cell⟩

def cells (f : File) : List Cell := (f.rawCells?.getD []).map cellOf

/-- A source in the shape of the one that it replaces. -/
def sourceLike (old : Option Value) (source : String) : Value :=
  match old with
  | some (.array _) =>
    .array (.ofList ((Text.lineFeedPieces source.toList).map fun l => .string (String.ofList l)))
  | _ => .string source

def withSource (cell : Value) (source : String) : Value :=
  match cell with
  | .object ms => .object (ms.insert "source" (sourceLike (cell.get? "source") source))
  | other => other

def withCells (f : File) (cells : List Value) : File :=
  match f.json with
  | .object ms => ⟨.object (ms.insert "cells" (.array (.ofList cells)))⟩
  | _ => f

/-- Sets the source of one cell; a position beyond the last one changes nothing. -/
def setSource (f : File) (index : Nat) (source : String) : File :=
  match f.rawCells? with
  | some raw => f.withCells (raw.modify index (withSource · source))
  | none => f

def text (f : File) : String := f.json.document

end File

def codeSources (f : File) : List String := (f.cells.filter Cell.isCode).map Cell.source

/-- Hands the source of a code cell to a function; the cell it gives, if that is another one. -/
def tidyCell {m : Type → Type} [Monad m] (f : String → m String) (cell : Value) :
    m (Option Value) := do
  if File.kindOf cell = .code then
    let source := File.sourceOf cell
    let tidied ← f source
    pure (if tidied = source then none else some (File.withSource cell tidied))
  else pure none

/-- The file with the cells that were given in place of its own. -/
def File.replaceCells (f : File) (replaced : List (Option Value)) : File :=
  f.withCells (List.zipWith Option.getD replaced (f.rawCells?.getD []))

/-- Applies a function, which may have effects, to the sources of the code cells, one after the
other; nothing if it changes none of them. -/
def transformM {m : Type → Type} [Monad m] (text : String) (f : String → m String) :
    m (Except FileError (Option String)) :=
  match File.parse text with
  | .error e => pure (.error e)
  | .ok file => do
    let replaced ← (file.rawCells?.getD []).mapM (tidyCell f)
    pure (.ok (if replaced.all Option.isNone then none else some (file.replaceCells replaced).text))

def transform (text : String) (f : String → String) : Except FileError (Option String) :=
  Id.run (transformM text fun source => pure (f source))

end NotebookTidy.Notebook
