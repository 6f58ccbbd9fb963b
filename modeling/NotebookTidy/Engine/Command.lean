import NotebookTidy.Engine.Basic
import NotebookTidy.Source.DiagnosticJson
import NotebookTidy.Text.Segments
import NotebookTidy.Text.Utf8

/-!
An engine that is a program: the arguments it is started with, and what its outcome means. The
program reads the text from its standard input; its columns count characters. How a program is
started is up to the caller.
-/
namespace NotebookTidy.Engine
open Config Source
open Text (Encoding segments)

/-! Columns that count characters, turned into columns of another encoding. A column past the end of
its line keeps its distance from there; a row that the text does not have keeps its columns. -/

def columnUnits (e : Encoding) (line : List Char) (column : UInt32) : Nat :=
  let chars := column.toNat - 1
  let before := line.take chars
  e.units before + (chars - before.length) + 1

/-- The new column is taken modulo `2 ^ 32`. -/
def recodeColumn (e : Encoding) (line : List Char) (column : UInt32) : UInt32 :=
  UInt32.ofNat (columnUnits e line column)

def recodeLocation (e : Encoding) (rows : List (List Char)) (l : Location) : Location :=
  match l.row.toNat with
  | 0 => l
  | n + 1 =>
    match rows[n]? with
    | some line => { l with column := recodeColumn e line l.column }
    | none => l

def recode (e : Encoding) (text : List Char) (diagnostics : List Diagnostic) : List Diagnostic :=
  if e = .utf32 then diagnostics
  else
    let rows := segments '\n' text
    diagnostics.map (·.mapLocations (recodeLocation e rows))

/-! Programs -/

/-- How a program came to its end; 0 is the exit code of success. `unwritten` is why it did not take
all of its input, if so. -/
structure Outcome where
  exit : Nat
  stdout : List UInt8
  stderr : List UInt8
  unwritten : Option String := none
  deriving DecidableEq, Repr

/-- Why there is no outcome: the program did not start, or what it wrote was lost. -/
inductive LaunchFault where
  | notStarted (reason : String)
  | lost (reason : String)
  deriving DecidableEq, Repr

abbrev Launcher := String → List String → String → Except LaunchFault Outcome

structure Command where
  program : String
  settings : List String
  fileName : String
  encoding : Encoding
  deriving DecidableEq, Repr

namespace Command

/-- A key in front of its value: bare where it can be, else as a string. -/
def keyText (key : String) : String :=
  if key.toList.all Toml.isBare then key else Toml.valueText (.string key)

def setting (entry : String × Value) : Except Error String :=
  if entry.1.isEmpty then .error (.invalidConfig .emptyKey)
  else .ok (keyText entry.1 ++ " = " ++ Toml.valueText entry.2)

def settingsOf (config : Table) : Except Error (List String) := config.toList.mapM setting

def defaultFileName : String := "untitled.py"

def ofConfig (program : String) (config : Table) (encoding : Encoding) : Except Error Command :=
  (settingsOf config).map fun settings => ⟨program, settings, defaultFileName, encoding⟩

def formatArguments : List String := ["format"]

def checkArguments : List String :=
  ["check", "--output-format", "json", "--exit-zero", "--no-fix"]

def arguments (c : Command) (task : List String) : List String :=
  task ++ ["--isolated"] ++ c.settings.flatMap (fun s => ["--config", s]) ++
    ["--stdin-filename", c.fileName, "-"]

/-- A program that failed is believed before the input is looked at that it did not take. -/
def output (o : Outcome) : Except Error String :=
  if o.exit ≠ 0 then .error (.call (String.ofList (Text.trim (Text.shown o.stderr).toList)))
  else
    match o.unwritten with
    | some reason => .error (.io reason)
    | none =>
      match Text.decodeUtf8 o.stdout with
      | .ok text => .ok text
      | .error e => .error (.call ("output is not UTF-8: " ++ e.message))

def run (c : Command) (launch : Launcher) (task : List String) (text : String) :
    Except Error String :=
  match launch c.program (c.arguments task) text with
  | .ok o => output o
  | .error (.notStarted reason) => .error (.spawn (c.program ++ ": " ++ reason))
  | .error (.lost reason) => .error (.io reason)

def check (c : Command) (launch : Launcher) (text : String) : Except Error (List Diagnostic) := do
  let stdout ← c.run launch checkArguments text
  match Diagnostic.readAll? stdout with
  | some diagnostics => .ok (recode c.encoding text.toList diagnostics)
  | none => .error .output

def engine (c : Command) (launch : Launcher) : Engine :=
  ⟨c.encoding, c.run launch formatArguments, c.check launch⟩

def factory (launch : Launcher) (program : String) : EngineFactory := fun config encoding =>
  (ofConfig program config encoding).map (·.engine launch)

end Command
end NotebookTidy.Engine
