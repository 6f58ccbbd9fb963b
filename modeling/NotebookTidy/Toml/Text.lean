/-!
Blanks, comments, keys' bare characters and the four kinds of string of a TOML document. A reader
takes the characters that are left and answers what it read with what is left after it, or nothing
if the text is not of its form.
-/
namespace NotebookTidy.Toml

abbrev Read (α : Type) := List Char → Option (α × List Char)

def isGap (c : Char) : Bool := c = ' ' || c = '\t'

def skipGap (text : List Char) : List Char := text.dropWhile isGap

/-- A control character may stand in no string and no comment; the tab is none. -/
def isControl (c : Char) : Bool := (c.toNat < 0x20 && c ≠ '\t') || c.toNat = 0x7F

def isBare (c : Char) : Bool :=
  ('a' ≤ c && c ≤ 'z') || ('A' ≤ c && c ≤ 'Z') || ('0' ≤ c && c ≤ '9') || c = '_' || c = '-'

def isDigit (c : Char) : Bool := '0' ≤ c && c ≤ '9'

def newline? : List Char → Option (List Char)
  | '\n' :: rest => some rest
  | '\r' :: '\n' :: rest => some rest
  | _ => none

def skipComment : List Char → List Char
  | '#' :: rest => rest.dropWhile (fun c => !isControl c)
  | text => text

mutual
/-- Blanks, line ends and whole comment lines between the parts of an array. -/
def skipLines : List Char → List Char
  | '\r' :: '\n' :: rest => skipLines rest
  | c :: rest =>
    if isGap c || c = '\n' then skipLines rest
    else if c = '#' then skipCommentLine rest
    else c :: rest
  | [] => []
def skipCommentLine : List Char → List Char
  | '\r' :: '\n' :: rest => skipLines rest
  | c :: rest =>
    if c = '\n' then skipLines rest
    else if isControl c then c :: rest
    else skipCommentLine rest
  | [] => []
end

def hexDigit? (c : Char) : Option Nat :=
  if '0' ≤ c && c ≤ '9' then some (c.toNat - '0'.toNat)
  else if 'a' ≤ c && c ≤ 'f' then some (c.toNat - 'a'.toNat + 10)
  else if 'A' ≤ c && c ≤ 'F' then some (c.toNat - 'A'.toNat + 10)
  else none

/-- The character whose code is written in `count` hexadecimal digits; surrogates have none. -/
def codePoint? (count : Nat) (text : List Char) : Option Char := do
  let digits := text.take count
  if digits.length < count then none
  else
    let code ← digits.foldlM (fun n c => (hexDigit? c).map (16 * n + ·)) 0
    if h : code.isValidChar then some (Char.ofNatAux code h) else none

def escape? : List Char → Option (Char × Nat)
  | 'b' :: _ => some ('\x08', 1)
  | 't' :: _ => some ('\t', 1)
  | 'n' :: _ => some ('\n', 1)
  | 'f' :: _ => some ('\x0c', 1)
  | 'r' :: _ => some ('\r', 1)
  | '"' :: _ => some ('"', 1)
  | '\\' :: _ => some ('\\', 1)
  | 'u' :: rest => (codePoint? 4 rest).map (·, 5)
  | 'U' :: rest => (codePoint? 8 rest).map (·, 9)
  | _ => none

def put (c : Char) (read : Option (List Char × List Char)) :
    Option (List Char × List Char) :=
  read.map fun (text, rest) => (c :: text, rest)

def basicString : Read (List Char)
  | [] => none
  | c :: rest =>
    if c = '"' then some ([], rest)
    else if c = '\\' then
      match escape? rest with
      | some (e, size) => put e (basicString (rest.drop size))
      | none => none
    else if isControl c then none
    else put c (basicString rest)
termination_by text => text.length
decreasing_by all_goals (simp only [List.length_drop, List.length_cons]; omega)

def literalString : Read (List Char)
  | [] => none
  | c :: rest =>
    if c = '\'' then some ([], rest)
    else if isControl c then none
    else put c (literalString rest)

def skipBlankLines : List Char → List Char
  | '\r' :: '\n' :: rest => skipBlankLines rest
  | c :: rest => if isGap c || c = '\n' then skipBlankLines rest else c :: rest
  | [] => []

/-- How many characters a backslash that ends its line joins over. -/
def lineContinuation? (text : List Char) : Option Nat :=
  (newline? (skipGap text)).map fun rest => text.length - (skipBlankLines rest).length

def quoteRun (quote : Char) (text : List Char) : Nat :=
  (text.takeWhile (· = quote)).length

/-- At three quotes or more: up to two belong to the text before the closing three. -/
def closing (quote : Char) (text : List Char) : List Char × List Char :=
  let run := quoteRun quote text
  (List.replicate (min (run - 3) 2) quote, text.drop (min run 5))

def multilineBasic : Read (List Char)
  | [] => none
  | c :: rest =>
    if c = '"' && 3 ≤ quoteRun '"' (c :: rest) then some (closing '"' (c :: rest))
    else if c = '\\' then
      match lineContinuation? rest with
      | some size => multilineBasic (rest.drop size)
      | none =>
        match escape? rest with
        | some (e, size) => put e (multilineBasic (rest.drop size))
        | none => none
    else if c = '\n' then put c (multilineBasic rest)
    else if c = '\r' then
      match rest with
      | '\n' :: next => put '\n' (multilineBasic next)
      | _ => none
    else if isControl c then none
    else put c (multilineBasic rest)
termination_by text => text.length
decreasing_by all_goals (simp only [List.length_drop, List.length_cons]; omega)

def multilineLiteral : Read (List Char)
  | [] => none
  | '\r' :: '\n' :: rest => put '\n' (multilineLiteral rest)
  | c :: rest =>
    if c = '\'' && 3 ≤ quoteRun '\'' (c :: rest) then some (closing '\'' (c :: rest))
    else if c = '\n' then put c (multilineLiteral rest)
    else if isControl c then none
    else put c (multilineLiteral rest)

/-- A line end right after the opening delimiter is not part of the text. -/
def afterOpening (text : List Char) : List Char := (newline? text).getD text

def anyString : Read (List Char)
  | '"' :: '"' :: '"' :: rest => multilineBasic (afterOpening rest)
  | '\'' :: '\'' :: '\'' :: rest => multilineLiteral (afterOpening rest)
  | '"' :: rest => basicString rest
  | '\'' :: rest => literalString rest
  | _ => none

def simpleKey : Read String := fun text =>
  match text with
  | '"' :: rest => (basicString rest).map fun (k, next) => (String.ofList k, next)
  | '\'' :: rest => (literalString rest).map fun (k, next) => (String.ofList k, next)
  | _ =>
    let key := text.takeWhile isBare
    if key.isEmpty then none else some (String.ofList key, text.dropWhile isBare)

/-- Keys have fewer than this many parts, and arrays and inline tables fewer levels. -/
def depthLimit : Nat := 80

/-- A dotted key of at most `budget` parts, blanks around each part included. -/
def dottedKey : Nat → Read (List String)
  | 0, _ => none
  | budget + 1, text => do
    let (key, rest) ← simpleKey (skipGap text)
    match skipGap rest with
    | '.' :: more =>
      let (keys, next) ← dottedKey budget more
      some (key :: keys, next)
    | next => some ([key], next)

end NotebookTidy.Toml
