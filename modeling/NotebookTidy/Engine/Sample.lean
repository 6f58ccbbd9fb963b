import NotebookTidy.Config.Merge
import NotebookTidy.Engine.Command
import NotebookTidy.Json.Printer

/-!
A small engine that needs no program: it rescales indentation, strips lines and sorts the imports
at the head of a text. Text whose parentheses do not balance it refuses as a whole. Indentation is
counted in machine words, and what happens where one is too small is up to the build.
-/
namespace NotebookTidy.Engine
open Config Source
open Text (Encoding byteLength lines joined trimEnd)

/-- What a build does with a number that no machine word holds: it halts the program, or goes on
with the remainder. -/
inductive Overflow where
  | halts
  | wraps
  deriving DecidableEq, Repr

def Overflow.word (o : Overflow) (n : Nat) : Option UInt64 :=
  if o = .halts ∧ UInt64.size ≤ n then none else some (.ofNat n)

/-- A width that an indentation can have. -/
abbrev Width := {width : UInt64 // 0 < width}

structure Sample where
  indentWidth : Width
  sortImports : Bool
  encoding : Encoding
  deriving DecidableEq, Repr

namespace Sample

theorem wordPositive {n : Int64} (positive : 0 < n) : 0 < n.toUInt64 := by
  rw [UInt64.pos_iff_ne_zero]
  intro zero
  have nothing : n = 0 := by
    rw [← Int64.toInt64_toUInt64 n, zero]
    rfl
  rw [nothing] at positive
  exact absurd positive (by decide)

def indentWidthOf (config : Table) : Except Error Width :=
  match config.get? "indent-width" with
  | none => .ok ⟨4, by decide⟩
  | some (.integer n) =>
    if positive : 0 < n then .ok ⟨n.toUInt64, wordPositive positive⟩
    else .error (.invalidConfig (.indentWidth (.integer n)))
  | some other => .error (.invalidConfig (.indentWidth other))

def selectsImports (config : Table) : Bool :=
  (((config.get? "lint").bind Value.table?).bind (·.strings? "select")).any (·.contains "I")

def ofConfig (config : Table) (encoding : Encoding) : Except Error Sample :=
  (indentWidthOf config).map fun width => ⟨width, selectsImports config, encoding⟩

def balancedFrom (depth : Nat) : List Char → Bool
  | [] => depth = 0
  | c :: rest =>
    if c = '(' then balancedFrom (depth + 1) rest
    else if c = ')' then
      match depth with
      | 0 => false
      | d + 1 => balancedFrom d rest
    else balancedFrom depth rest

def balanced (text : List Char) : Bool := balancedFrom 0 text

def unbalanced : Error := .call "error: Failed to parse: unbalanced parentheses"

def spaces (line : List Char) : Nat := (line.takeWhile (· = ' ')).length

/-- Each four spaces of indentation become one width; a rest stays. -/
def rescaled (width : Width) (spaces : Nat) : Nat := spaces / 4 * width.val.toNat + spaces % 4

def reindent (indentation : Nat) (line : List Char) : List Char :=
  List.replicate indentation ' ' ++ trimEnd (line.dropWhile (· = ' '))

/-- Bytes that a text may not reach: half of what a machine word can count. -/
def textLimit : Nat := UInt64.size / 2

def reindented (o : Overflow) (width : Width) (line : List Char) : Option (List Char) := do
  let indentation ← o.word (rescaled width (spaces line))
  if textLimit ≤ indentation.toNat then none else some (reindent indentation.toNat line)

def closed (all : List (List Char)) : List Char :=
  let kept := (all.reverse.dropWhile List.isEmpty).reverse
  if kept.isEmpty then [] else joined ['\n'] kept ++ ['\n']

/-- Nothing where the program halts: on a word that is too small, or for want of room for the
text. -/
def formatted (o : Overflow) (width : Width) (text : List Char) : Option (List Char) := do
  let all ← (lines text).mapM (reindented o width)
  if textLimit ≤ byteLength (closed all) then none else some (closed all)

def isImport (line : List Char) : Bool :=
  "import ".toList.isPrefixOf line || "from ".toList.isPrefixOf line

def inOrder (a b : List Char) : Bool := decide (String.ofList a ≤ String.ofList b)

/-- The replacement for an unsorted block of imports at the head of a text. Within the text it
ends before the next line, at its end after the last character. -/
def importEdit? (encoding : Encoding) (text : List Char) : Option Edit :=
  let all := lines text
  let block := all.takeWhile isImport
  let sorted := block.mergeSort inOrder
  if block.length < 2 || sorted = block then none
  else
    let start : Location := ⟨1, 1⟩
    if block.length < all.length then
      some ⟨String.ofList (joined ['\n'] sorted ++ ['\n']), start,
        ⟨UInt32.ofNat (block.length + 1), 1⟩⟩
    else
      let column := encoding.units (block.getLast?.getD []) + 1
      some ⟨String.ofList (joined ['\n'] sorted), start,
        ⟨UInt32.ofNat block.length, UInt32.ofNat column⟩⟩

def importDiagnostic (edit : Edit) : Diagnostic :=
  { code := some "I001"
    message := "Import block is un-sorted or un-formatted"
    start := edit.start
    stop := edit.stop
    fix := some ⟨.safe, some "Organize imports", [edit]⟩ }

def format (o : Overflow) (s : Sample) (text : String) : Option (Except Error String) :=
  if balanced text.toList then
    (formatted o s.indentWidth text.toList).map fun out => .ok (String.ofList out)
  else some (.error unbalanced)

def check (s : Sample) (text : String) : Except Error (List Diagnostic) :=
  let chars := text.toList
  if !balanced chars then .error unbalanced
  else if !s.sortImports then .ok []
  else .ok ((importEdit? s.encoding chars).toList.map importDiagnostic)

def noRoom : Error := .call "capacity overflow"

/-- The engine of a build that wraps, where only a text that there is no room for halts. Nothing
goes on after that, so it counts as a failed call. -/
def engine (s : Sample) : Engine :=
  ⟨s.encoding, fun text => (s.format .wraps text).getD (.error noRoom), s.check⟩

def factory : EngineFactory := fun config encoding =>
  (ofConfig config encoding).map Sample.engine

/-! The sample engine behind the arguments of an engine program. Settings are laid over each other
in order; any failure is exit code 2 with nothing on standard output. -/

private def settingsIn : List String → List String
  | "--config" :: s :: rest => s :: settingsIn rest
  | _ :: rest => settingsIn rest
  | [] => []

private def answer (arguments : List String) (text : String) : Option String := do
  let config ← (parseOverrides (settingsIn arguments)).toOption
  let sample ← (ofConfig config .utf32).toOption
  match arguments.head? with
  | some "format" => (sample.engine.format text).toOption
  | some "check" =>
    let diagnostics ← (sample.check text).toOption
    some (Json.Value.array (.ofList (diagnostics.map Diagnostic.toJson))).document
  | _ => none

def program (arguments : List String) (text : String) : Outcome :=
  match answer arguments text with
  | some stdout => ⟨0, Text.encodeUtf8 stdout, [], none⟩
  | none => ⟨2, [], [], none⟩

end Sample
end NotebookTidy.Engine
