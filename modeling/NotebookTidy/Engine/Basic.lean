import NotebookTidy.Source.Diagnostic
import NotebookTidy.Text.Encoding
import NotebookTidy.Toml.Printer

/-! What formats and checks a text, and how it can fail. -/
namespace NotebookTidy
open Text (Encoding)

namespace Engine

inductive InvalidConfig where
  | indentWidth (given : Config.Value)
  | emptyKey
  deriving DecidableEq, Repr

def InvalidConfig.message : InvalidConfig → String
  | .indentWidth given =>
    "indent-width must be a positive integer, got " ++ Toml.valueText given
  | .emptyKey => "empty configuration key"

inductive Error where
  | spawn (reason : String)
  | call (reason : String)
  | invalidConfig (cause : InvalidConfig)
  | output
  | io (reason : String)
  deriving DecidableEq, Repr

/-- What was wrong with unreadable output is not part of the message. -/
def Error.message : Error → String
  | .spawn reason => "Failed to start engine: " ++ reason
  | .call reason => "Engine call failed: " ++ reason
  | .invalidConfig cause => "Invalid engine configuration: " ++ cause.message
  | .output => "Malformed engine output"
  | .io reason => "I/O error: " ++ reason

end Engine

/-- An engine with all that its answers depend on, in the state it is in: asked the same question
again it answers the same way, and an engine that would answer otherwise is another one. Columns
count in its encoding. -/
structure Engine where
  encoding : Encoding
  format : String → Except Engine.Error String
  check : String → Except Engine.Error (List Source.Diagnostic)

abbrev EngineFactory := Config.Table → Encoding → Except Engine.Error Engine

end NotebookTidy
