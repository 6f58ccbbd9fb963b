import NotebookTidy.Notebook.File
import NotebookTidy.Path

/-! Documents open in an editor: a notebook with its cells, or a text. -/
namespace NotebookTidy.Editor
open Notebook (Cell)

inductive Body where
  | notebook (cells : List Cell)
  | text (text : String)
  deriving DecidableEq, Repr

structure Document where
  path : Path
  body : Body
  deriving DecidableEq, Repr

inductive Target where
  | cell (index : Nat)
  | whole
  deriving DecidableEq, Repr

namespace Body

/-- The source at a target; only code cells have one. -/
def source? (b : Body) (target : Target) : Option String :=
  match b, target with
  | .notebook cells, .cell i => (cells[i]?.filter Cell.isCode).map Cell.source
  | .text t, .whole => some t
  | _, _ => none

def replaceSource (expected source : String) (c : Cell) : Cell :=
  if c.source = expected then { c with source } else c

/-- Puts a source in place of another one, if that still stands at the target. -/
def replace (b : Body) (target : Target) (expected source : String) : Body :=
  match b, target with
  | .notebook cells, .cell i => .notebook (cells.modify i (replaceSource expected source))
  | .text t, .whole => .text (if t = expected then source else t)
  | b, _ => b

end Body

structure Documents where
  all : List Document
  deriving DecidableEq, Repr

namespace Documents

def empty : Documents := ⟨[]⟩

def get? (ds : Documents) (p : Path) : Option Document := ds.all.find? (·.path.same p)

def close (ds : Documents) (p : Path) : Documents := ⟨ds.all.filter fun d => !d.path.same p⟩

def openDocument (ds : Documents) (d : Document) : Documents := ⟨(ds.close d.path).all ++ [d]⟩

def modify (ds : Documents) (p : Path) (f : Body → Body) : Documents :=
  ⟨ds.all.map fun d => if d.path.same p then { d with body := f d.body } else d⟩

def ordered (ds : Documents) : List Document :=
  ds.all.mergeSort fun a b => (a.path.order b.path).isLE

end Documents
end NotebookTidy.Editor
