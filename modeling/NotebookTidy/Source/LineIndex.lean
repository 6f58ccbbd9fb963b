import NotebookTidy.Source.Diagnostic
import NotebookTidy.Text.Encoding

/-!
From rows and columns to byte offsets. The index holds where each line ends; a row beyond the last
is the end of the text, a column beyond its line the end of the line, and a column inside a
character the boundary after it.
-/
namespace NotebookTidy.Source
open Text (Encoding byteLength)

/-- What is left of a text after a number of bytes, from the next character boundary on. -/
def dropBytes : Nat → List Char → List Char
  | 0, text => text
  | _ + 1, [] => []
  | n + 1, c :: rest => dropBytes (n + 1 - c.utf8Size) rest

/-- The characters of a text that start within a number of bytes. -/
def takeBytes : Nat → List Char → List Char
  | 0, _ => []
  | _ + 1, [] => []
  | n + 1, c :: rest => c :: takeBytes (n + 1 - c.utf8Size) rest

def slice (text : List Char) (start stop : Nat) : List Char :=
  takeBytes (stop - start) (dropBytes start text)

def boundaryFrom : Nat → List Char → Nat
  | 0, _ => 0
  | _ + 1, [] => 0
  | n + 1, c :: rest => c.utf8Size + boundaryFrom (n + 1 - c.utf8Size) rest

/-- The first boundary of a line that has the given number of units before it. -/
def unitsOffset (e : Encoding) : Nat → List Char → Nat
  | 0, _ => 0
  | _ + 1, [] => 0
  | n + 1, c :: rest => c.utf8Size + unitsOffset e (n + 1 - e.width c) rest

def isAscii (c : Char) : Bool := c.toNat < 0x80

/-- Bytes are counted without looking at characters where units are bytes. -/
def columnOffset (e : Encoding) (line : List Char) (units : Nat) : Nat :=
  if e = .utf8 || line.all isAscii then boundaryFrom (min units (byteLength line)) line
  else unitsOffset e units line

/-- A text with the offset just past each of its line feeds. -/
structure LineIndex where
  text : List Char
  ends : List Nat
  deriving Repr

def lineEndsFrom (offset : Nat) : List Char → List Nat
  | [] => []
  | c :: rest =>
    let next := offset + c.utf8Size
    if c = '\n' then next :: lineEndsFrom next rest else lineEndsFrom next rest

namespace LineIndex

def ofText (text : List Char) : LineIndex := ⟨text, lineEndsFrom 0 text⟩

def lineCount (i : LineIndex) : Nat := i.ends.length + 1

def maxPosition (i : LineIndex) : Nat := byteLength i.text

def lineStart (i : LineIndex) (row : UInt32) : Nat :=
  match row.toNat with
  | 0 | 1 => 0
  | n + 2 => i.ends[n]?.getD i.maxPosition

def line (i : LineIndex) (row : UInt32) : List Char :=
  (dropBytes (i.lineStart row) i.text).takeWhile (· ≠ '\n')

def offset (i : LineIndex) (e : Encoding) (l : Location) : Nat :=
  i.lineStart l.row + columnOffset e (i.line l.row) (l.column.toNat - 1)

end LineIndex
end NotebookTidy.Source
