import NotebookTidy.Text.Segments

/-!
The syntax of a JSON text, before it is decided what its numbers and strings mean: numerals keep
their digits, a string whose escapes leave half of a surrogate pair alone has no text, and the
fields of an object stay as written, repeated ones too. A reader that skips a part of a text skips
it at this level.
-/
namespace NotebookTidy.Json

/-- Digits as written. A missing fraction has no digits; the exponent is its sign and digits. -/
structure Numeral where
  negative : Bool
  whole : List Char
  fraction : List Char
  exponent : Option (Bool × List Char)
  deriving DecidableEq, Repr

mutual
inductive Node where
  | null
  | bool (flag : Bool)
  | number (numeral : Numeral)
  | string (text : Option String)
  | array (nodes : Nodes)
  | object (fields : Fields)
  deriving DecidableEq, Repr
inductive Nodes where
  | nil
  | cons (node : Node) (rest : Nodes)
  deriving DecidableEq, Repr
inductive Fields where
  | nil
  | cons (name : Option String) (node : Node) (rest : Fields)
  deriving DecidableEq, Repr
end

def Nodes.toList : Nodes → List Node
  | .nil => []
  | .cons n rest => n :: rest.toList

def Nodes.ofList : List Node → Nodes
  | [] => .nil
  | n :: rest => .cons n (ofList rest)

def Fields.toList : Fields → List (Option String × Node)
  | .nil => []
  | .cons k n rest => (k, n) :: rest.toList

def Fields.ofList : List (Option String × Node) → Fields
  | [] => .nil
  | (k, n) :: rest => .cons k n (ofList rest)

abbrev Read (α : Type) := List Char → Option (α × List Char)

def isSpace (c : Char) : Bool := c = ' ' || c = '\n' || c = '\t' || c = '\r'

def skipSpace (text : List Char) : List Char := text.dropWhile isSpace

def isDigit (c : Char) : Bool := '0' ≤ c && c ≤ '9'

def hexDigit? (c : Char) : Option Nat :=
  if '0' ≤ c && c ≤ '9' then some (c.toNat - '0'.toNat)
  else if 'a' ≤ c && c ≤ 'f' then some (c.toNat - 'a'.toNat + 10)
  else if 'A' ≤ c && c ≤ 'F' then some (c.toNat - 'A'.toNat + 10)
  else none

inductive Piece where
  | char (c : Char)
  | surrogate (code : Nat)
  deriving DecidableEq, Repr

/-- The text of the pieces, each high surrogate joined with the low one that must follow it. -/
def Piece.text? : List Piece → Option (List Char)
  | [] => some []
  | .char c :: rest => (text? rest).map (c :: ·)
  | .surrogate high :: .surrogate low :: rest =>
    if high < 0xDC00 ∧ 0xDC00 ≤ low then
      (text? rest).map (Char.ofNat (0x10000 + (high - 0xD800) * 0x400 + (low - 0xDC00)) :: ·)
    else none
  | .surrogate _ :: _ => none

def unicodeEscape (text : List Char) : Option Piece := do
  let digits := text.take 4
  if digits.length < 4 then none
  else
    let code ← digits.foldlM (fun n c => (hexDigit? c).map (16 * n + ·)) 0
    some (if 0xD800 ≤ code ∧ code < 0xE000 then .surrogate code else .char (Char.ofNat code))

/-- What an escape contributes, and how long it is after its backslash. -/
def escape? : List Char → Option (Piece × Nat)
  | '"' :: _ => some (.char '"', 1)
  | '\\' :: _ => some (.char '\\', 1)
  | '/' :: _ => some (.char '/', 1)
  | 'b' :: _ => some (.char '\x08', 1)
  | 'f' :: _ => some (.char '\x0c', 1)
  | 'n' :: _ => some (.char '\n', 1)
  | 'r' :: _ => some (.char '\r', 1)
  | 't' :: _ => some (.char '\t', 1)
  | 'u' :: rest => (unicodeEscape rest).map (·, 5)
  | _ => none

def stringPieces : Read (List Piece)
  | [] => none
  | c :: rest =>
    if c = '"' then some ([], rest)
    else if c = '\\' then
      match escape? rest with
      | some (p, size) => (stringPieces (rest.drop size)).map fun (ps, next) => (p :: ps, next)
      | none => none
    else if c.toNat < 0x20 then none
    else (stringPieces rest).map fun (ps, next) => (.char c :: ps, next)
termination_by text => text.length
decreasing_by all_goals (simp only [List.length_drop, List.length_cons]; omega)

def string : Read (Option String) := fun text =>
  (stringPieces text).map fun (ps, rest) => ((Piece.text? ps).map String.ofList, rest)

def digits? (text : List Char) : Option (List Char × List Char) :=
  let ds := text.takeWhile isDigit
  if ds.isEmpty then none else some (ds, text.dropWhile isDigit)

def wholePart : Read (List Char) := fun text => do
  let (ds, rest) ← digits? text
  if ds.head? = some '0' ∧ 1 < ds.length then none else some (ds, rest)

def fractionPart : Read (List Char)
  | '.' :: rest => digits? rest
  | text => some ([], text)

def exponentPart : Read (Option (Bool × List Char))
  | c :: rest =>
    if c = 'e' || c = 'E' then
      let (negative, start) := match rest with
        | '-' :: more => (true, more)
        | '+' :: more => (false, more)
        | more => (false, more)
      (digits? start).map fun (ds, next) => (some (negative, ds), next)
    else some (none, c :: rest)
  | [] => some (none, [])

def signPart : List Char → Bool × List Char
  | '-' :: rest => (true, rest)
  | text => (false, text)

def numeral : Read Numeral := fun text => do
  let (negative, rest) := signPart text
  let (whole, rest) ← wholePart rest
  let (fraction, rest) ← fractionPart rest
  let (exponent, rest) ← exponentPart rest
  some (⟨negative, whole, fraction, exponent⟩, rest)

def word (spelled : String) (node : Node) : Read Node := fun text =>
  if spelled.toList.isPrefixOf text then some (node, text.drop spelled.length) else none

def elements (element : Read Node) : Nat → Read (List Node)
  | 0, _ => none
  | fuel + 1, text => do
    let (n, rest) ← element (skipSpace text)
    match skipSpace rest with
    | ',' :: more =>
      let (ns, next) ← elements element fuel more
      some (n :: ns, next)
    | ']' :: next => some ([n], next)
    | _ => none

def fields (element : Read Node) : Nat → Read (List (Option String × Node))
  | 0, _ => none
  | fuel + 1, text =>
    match skipSpace text with
    | '"' :: start => do
      let (name, rest) ← string start
      match skipSpace rest with
      | ':' :: rest =>
        let (n, rest) ← element (skipSpace rest)
        match skipSpace rest with
        | ',' :: more =>
          let (fs, next) ← fields element fuel more
          some ((name, n) :: fs, next)
        | '}' :: next => some ([(name, n)], next)
        | _ => none
      | _ => none
    | _ => none

/-- A value with fewer than `fuel` levels. -/
def node : Nat → Read Node
  | 0, _ => none
  | fuel + 1, text =>
    match text with
    | '"' :: rest => (string rest).map fun (s, next) => (.string s, next)
    | '[' :: rest =>
      match skipSpace rest with
      | ']' :: next => some (.array .nil, next)
      | start =>
        (elements (node fuel) (start.length + 1) start).map fun (ns, next) =>
          (.array (.ofList ns), next)
    | '{' :: rest =>
      match skipSpace rest with
      | '}' :: next => some (.object .nil, next)
      | start =>
        (fields (node fuel) (start.length + 1) start).map fun (fs, next) =>
          (.object (.ofList fs), next)
    | 'n' :: _ => word "null" .null text
    | 't' :: _ => word "true" (.bool true) text
    | 'f' :: _ => word "false" (.bool false) text
    | _ => (numeral text).map fun (n, next) => (.number n, next)

def parse? (text : String) : Option Node := do
  let chars := text.toList
  let (n, rest) ← node (chars.length + 1) (skipSpace chars)
  if (skipSpace rest).isEmpty then some n else none

end NotebookTidy.Json
