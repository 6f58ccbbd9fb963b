import NotebookTidy.Text.Segments
import NotebookTidy.Toml.Definition

/-!
Writing a configuration tree as TOML: a single value on a line, or a whole document with its
headers. Keys come in the order of the tree.
-/
namespace NotebookTidy.Toml
open Config
open Text (joined)

/-- Positional digits always, at least one of them after the point. -/
def floatText : Decimal.Layout :=
  { low := none, high := none, plus := false, width := 1, tie := .up, nan := "nan" }

/-- Control characters other than the tab and the line feed have no form but an escape. -/
def needsEscape (c : Char) : Bool := isControl c && c ≠ '\n'

def escapeOf (c : Char) : Option (List Char) :=
  if c = '\x08' then some ['\\', 'b']
  else if c = '\t' then some ['\\', 't']
  else if c = '\n' then some ['\\', 'n']
  else if c = '\x0c' then some ['\\', 'f']
  else if c = '\r' then some ['\\', 'r']
  else if c = '\\' then some ['\\', '\\']
  else if isControl c then
    let code := Nat.toDigits 16 c.toNat |>.map Char.toUpper
    some ('\\' :: 'u' :: List.replicate (4 - code.length) '0' ++ code)
  else none

/-- The text between double quotes, where `allowed` of them may stand in a row; `run` counts those
just before. Line feeds are escaped unless the form has several lines. -/
def escapedBody (multiline : Bool) (allowed run : Nat) : List Char → List Char
  | [] => []
  | c :: rest =>
    if c = '"' then
      if allowed ≤ run then '\\' :: '"' :: escapedBody multiline allowed 0 rest
      else c :: escapedBody multiline allowed (run + 1) rest
    else if c = '\n' && multiline then c :: escapedBody multiline allowed 0 rest
    else (escapeOf c).getD [c] ++ escapedBody multiline allowed 0 rest

def longestRun (c : Char) (text : List Char) : Nat :=
  (text.foldl (fun (best, run) d => if d = c then (max best (run + 1), run + 1) else (best, 0))
    (0, 0)).1

def fenced (quotes body : List Char) : List Char := quotes ++ body ++ quotes

def lead (text : List Char) : List Char := if text.contains '\n' then ['\n'] else []

def stringChars (text : List Char) : List Char :=
  let coded := text.any needsEscape
  let lines := text.contains '\n'
  let backslash := text.contains '\\'
  let double := longestRun '"' text
  let single := longestRun '\'' text
  let basic := fenced ['"'] (escapedBody false 0 0 text)
  let multiline := fenced ['"', '"', '"'] (lead text ++ escapedBody true 2 0 text)
  if !coded && !backslash && double = 0 && !lines then basic
  else if !coded && single = 0 && !lines then fenced ['\''] text
  else if !coded && !backslash && double ≤ 2 then multiline
  else if !coded && single ≤ 2 then fenced ['\'', '\'', '\''] (lead text ++ text)
  else if lines then multiline
  else basic

def keyChars (key : String) : List Char :=
  let text := key.toList
  let coded := text.any isControl
  let basic := fenced ['"'] (escapedBody false 0 0 text)
  if !text.isEmpty && text.all isBare then text
  else if !coded && !text.contains '\\' && !text.contains '"' then basic
  else if !coded && !text.contains '\'' then fenced ['\''] text
  else basic

/-- How a moment is written: by itself, or as the table that a reader takes for one. -/
inductive MomentForm where
  | plain
  | tagged
  deriving DecidableEq, Repr

def commaSpace : List Char := [',', ' ']

def pair (key : String) (value : List Char) : List Char :=
  keyChars key ++ [' ', '=', ' '] ++ value

def inlineTable (pairs : List (List Char)) : List Char :=
  match pairs with
  | [] => ['\x7b', '\x7d']
  | _ => ['\x7b', ' '] ++ joined commaSpace pairs ++ [' ', '\x7d']

def momentChars (form : MomentForm) (d : Datetime) : List Char :=
  match form with
  | .plain => d.chars
  | .tagged => inlineTable [pair momentKey (stringChars d.chars)]

mutual
def inlineChars (form : MomentForm) : Value → List Char
  | .string s => stringChars s.toList
  | .integer n => (toString n.toInt).toList
  | .float x => (floatText.write x).toList
  | .boolean b => (if b then "true" else "false").toList
  | .datetime d => momentChars form d
  | .array vs => '[' :: joined commaSpace (inlineItems form vs) ++ [']']
  | .table t => inlineTable (inlinePairsOf form t)
def inlineItems (form : MomentForm) : Values → List (List Char)
  | .nil => []
  | .cons v rest => inlineChars form v :: inlineItems form rest
def inlinePairsOf (form : MomentForm) : Table → List (List Char)
  | .nil => []
  | .cons k v rest => pair k (inlineChars form v) :: inlinePairsOf form rest
end

def valueText (v : Value) : String := String.ofList (inlineChars .tagged v)

private def isRows (vs : Values) : Bool := vs.toList ≠ [] && vs.toList.all Value.isTable

def hasHeader : Value → Bool
  | .table _ => true
  | .array vs => isRows vs
  | _ => false

def plainLines : Table → List Char
  | .nil => []
  | .cons k v rest =>
    (if hasHeader v then [] else pair k (inlineChars .plain v) ++ ['\n']) ++ plainLines rest

private def headerLine (brackets : Nat) (path : List String) : List Char :=
  List.replicate brackets '[' ++ joined ['.'] (path.map keyChars) ++
    List.replicate brackets ']' ++ ['\n']

private def hasPlain (t : Table) : Bool := t.toList.any fun (_, v) => !hasHeader v

mutual
/-- The sections of a table below a path, each with its header: its own entries first, then the
tables in it. A table that only holds tables has no header. -/
def tableSections (path : List String) (brackets : Nat) (t : Table) : List (List Char) :=
  (if brackets = 2 || t = .nil || hasPlain t then
    [headerLine brackets path ++ plainLines t] else []) ++ nestedSections path t
def nestedSections (path : List String) : Table → List (List Char)
  | .nil => []
  | .cons k v rest => valueSections (path ++ [k]) v ++ nestedSections path rest
def valueSections (path : List String) : Value → List (List Char)
  | .table t => tableSections path 1 t
  | .array vs => if isRows vs then rowSections path vs else []
  | _ => []
def rowSections (path : List String) : Values → List (List Char)
  | .nil => []
  | .cons (.table t) rest => tableSections path 2 t ++ rowSections path rest
  | .cons _ rest => rowSections path rest
end

/-- A whole document: the entries without headers, then one section after another with an empty
line between them. -/
def document (t : Table) : String :=
  let top := if hasPlain t then [plainLines t] else []
  String.ofList (joined ['\n'] (top ++ nestedSections [] t))

end NotebookTidy.Toml
