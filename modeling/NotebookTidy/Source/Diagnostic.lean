/-!
What an engine reports about a text. Rows and columns count from one; in which units a column
counts is up to the engine.
-/
namespace NotebookTidy.Source

structure Location where
  row : UInt32
  column : UInt32
  deriving DecidableEq, Repr

inductive Applicability where
  | displayOnly
  | unsafeFix
  | safe
  deriving DecidableEq, Repr

structure Edit where
  content : String
  start : Location
  stop : Location
  deriving DecidableEq, Repr

structure Fix where
  applicability : Applicability
  message : Option String
  edits : List Edit
  deriving DecidableEq, Repr

structure Diagnostic where
  code : Option String
  message : String
  start : Location
  stop : Location
  fix : Option Fix
  deriving DecidableEq, Repr

def Edit.isEmpty (e : Edit) : Bool := e.content.isEmpty && e.start = e.stop

namespace Diagnostic

def edits (d : Diagnostic) : List Edit := (d.fix.map Fix.edits).getD []

def hasSafeFix (d : Diagnostic) : Bool := d.fix.any fun f => f.applicability = .safe

def mapLocations (f : Location → Location) (d : Diagnostic) : Diagnostic :=
  { d with
    start := f d.start
    stop := f d.stop
    fix := d.fix.map fun x =>
      { x with edits := x.edits.map fun e => { e with start := f e.start, stop := f e.stop } } }

end Diagnostic
end NotebookTidy.Source
