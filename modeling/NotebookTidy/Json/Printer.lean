import NotebookTidy.Json.Value
import NotebookTidy.Text.Segments

/-!
Writing a JSON value, one element or member a line, each level one space further in. Only quotes,
backslashes and control characters are escaped.
-/
namespace NotebookTidy.Json
open Text (joined)

/-- The fewest digits that read back, with an exponent below `1e-05` and from `1e+16`. -/
def floatText : Decimal.Layout :=
  { low := some (-5), high := some 16, plus := true, width := 2, tie := .even, nan := "null" }

def escaped (c : Char) : List Char :=
  if c = '"' || c = '\\' then ['\\', c]
  else if c = '\x08' then ['\\', 'b']
  else if c = '\x0c' then ['\\', 'f']
  else if c = '\n' then ['\\', 'n']
  else if c = '\r' then ['\\', 'r']
  else if c = '\t' then ['\\', 't']
  else if c.toNat < 0x20 then
    ['\\', 'u', '0', '0', Nat.digitChar (c.toNat / 16), Nat.digitChar (c.toNat % 16)]
  else [c]

def quoted (text : List Char) : List Char := '"' :: text.flatMap escaped ++ ['"']

def Number.chars : Number → List Char
  | .integer n => (toString n).toList
  | .float x => (floatText.write x).toList

def newLine (level : Nat) : List Char := '\n' :: List.replicate level ' '

mutual
def Value.chars (level : Nat) : Value → List Char
  | .null => "null".toList
  | .bool b => (if b then "true" else "false").toList
  | .number n => n.chars
  | .string s => quoted s.toList
  | .array .nil => ['[', ']']
  | .array (.cons v rest) =>
    '[' :: newLine (level + 1) ++ v.chars (level + 1) ++ rest.chars (level + 1) ++
      newLine level ++ [']']
  | .object .nil => ['\x7b', '\x7d']
  | .object (.cons k v rest) =>
    '\x7b' :: newLine (level + 1) ++ quoted k.toList ++ [':', ' '] ++ v.chars (level + 1) ++
      rest.chars (level + 1) ++ newLine level ++ ['\x7d']
def Items.chars (level : Nat) : Items → List Char
  | .nil => []
  | .cons v rest => ',' :: newLine level ++ v.chars level ++ rest.chars level
def Members.chars (level : Nat) : Members → List Char
  | .nil => []
  | .cons k v rest =>
    ',' :: newLine level ++ quoted k.toList ++ [':', ' '] ++ v.chars level ++ rest.chars level
end

def Value.document (v : Value) : String := String.ofList (v.chars 0 ++ ['\n'])

end NotebookTidy.Json
