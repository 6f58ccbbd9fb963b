import NotebookTidy.Toml.Definition

/-!
Reading a TOML 1.0 document into a configuration tree. Arrays and inline tables nest below a fixed
depth, so the reader of values recurses on what is left of it.
-/
namespace NotebookTidy.Toml
open Config

/-- What follows `[`, for at most `fuel` values. -/
def arrayItems (item : Read Value) : Nat → Read (List Value)
  | 0, _ => none
  | fuel + 1, text =>
    match skipLines text with
    | ']' :: rest => some ([], rest)
    | start => do
      let (v, rest) ← item start
      match skipLines rest with
      | ',' :: more =>
        let (vs, next) ← arrayItems item fuel more
        some (v :: vs, next)
      | ']' :: next => some ([v], next)
      | _ => none

def splitLast : List String → Option (List String × String)
  | [] => none
  | [key] => some ([], key)
  | key :: rest => (splitLast rest).map fun (path, last) => (key :: path, last)

/-- A pair `key = value`, with the key split into the tables it passes and its last part. -/
def keyValue (item : Read Value) : Read (List String × String × Value) := fun text => do
  let (keys, rest) ← dottedKey (depthLimit - 1) text
  let (path, key) ← splitLast keys
  let (v, rest) ← item (skipGap (← literally '=' rest))
  some ((path, key, v), rest)

/-- The pairs of an inline table, from the first one on. -/
def inlinePairs (item : Read Value) : Nat → Entries → Read Entries
  | 0, _, _ => none
  | fuel + 1, entries, text => do
    let ((path, key, v), rest) ← keyValue item text
    let entries ← entries.define path key v
    match skipGap rest with
    | ',' :: more => inlinePairs item fuel entries more
    | '}' :: next => some (entries, next)
    | _ => none

def word (spelled : String) (v : Value) : Read Value := fun text =>
  if spelled.toList.isPrefixOf text then some (v, text.drop spelled.length) else none

def scalar : Read Value := fun text =>
  match text with
  | '"' :: _ | '\'' :: _ =>
    (anyString text).map fun (s, rest) => (.string (String.ofList s), rest)
  | 't' :: _ => word "true" (.boolean true) text
  | 'f' :: _ => word "false" (.boolean false) text
  | 'i' :: _ | 'n' :: _ => numeral text
  | c :: _ => if c = '+' || c = '-' || isDigit c then numeralOrMoment text else none
  | [] => none

private theorem wordKind {spelled : String} {flag : Bool} {text rest : List Char} {v : Value}
    (read : word spelled (.boolean flag) text = some (v, rest)) : v = .boolean flag := by
  unfold word at read
  split at read
  · cases read
    rfl
  · cases read

/-- A scalar is a string, a boolean, a number or a moment. -/
theorem scalarKind {text rest : List Char} {v : Value} (read : scalar text = some (v, rest)) :
    v.isTable = false ∧ v.array? = none := by
  have number (read : numeral text = some (v, rest)) : v.isTable = false ∧ v.array? = none := by
    rcases numeralKind read with ⟨n, rfl⟩ | ⟨x, rfl⟩ <;> exact ⟨rfl, rfl⟩
  have string (read : (anyString text).map (fun (s, rest) => (Value.string (String.ofList s), rest))
      = some (v, rest)) : v.isTable = false ∧ v.array? = none := by
    obtain ⟨_, -, same⟩ := Option.map_eq_some_iff.mp read
    cases same
    exact ⟨rfl, rfl⟩
  unfold scalar at read
  split at read
  · exact string read
  · exact string read
  · exact wordKind read ▸ ⟨rfl, rfl⟩
  · exact wordKind read ▸ ⟨rfl, rfl⟩
  · exact number read
  · exact number read
  · split at read
    · unfold numeralOrMoment at read
      split at read
      · obtain ⟨_, -, same⟩ := Option.map_eq_some_iff.mp read
        cases same
        exact ⟨rfl, rfl⟩
      · exact number read
    · cases read
  · cases read

/-- A value with at most `depth` levels of arrays and inline tables. -/
def value : Nat → Read Value
  | 0, text => scalar text
  | depth + 1, text =>
    match text with
    | '[' :: rest =>
      (arrayItems (value depth) (rest.length + 1) rest).map fun (vs, next) =>
        (.array (.ofList vs), next)
    | '{' :: rest => do
      let (entries, next) ← match skipGap rest with
        | '}' :: next => some (Entries.nil, next)
        | start => inlinePairs (value depth) (start.length + 1) .nil start
      some (← entries.value?, next)
    | _ => scalar text

def lineEnd? (text : List Char) : Option (List Char) :=
  match skipComment (skipGap text) with
  | [] => some []
  | rest => newline? rest

abbrev Header := List String

private def headerKeys (close : List Char) (text : List Char) :
    Option (Header × List String × String × List Char) := do
  let (keys, rest) ← dottedKey (depthLimit - 1) text
  let (path, key) ← splitLast keys
  if close.isPrefixOf rest then
    some (keys, path, key, ← lineEnd? (rest.drop close.length))
  else none

def expression (header : Header) (root : Entries) (text : List Char) :
    Option (Header × Entries × List Char) :=
  match text with
  | '[' :: '[' :: rest => do
    let (keys, path, key, next) ← headerKeys [']', ']'] rest
    some (keys, ← root.openRow path key, next)
  | '[' :: rest => do
    let (keys, path, key, next) ← headerKeys [']'] rest
    some (keys, ← root.openTable path key, next)
  | '#' :: _ | '\n' :: _ | '\r' :: _ => (lineEnd? text).map fun next => (header, root, next)
  | _ => do
    let ((path, key, v), rest) ← keyValue (value (depthLimit - 1)) text
    let root ← root.within false header (fun _ entries => entries.define path key v) false
    some (header, root, ← lineEnd? rest)

/-- The rest of a document, of at most `fuel` lines. -/
def expressions : Nat → Header → Entries → List Char → Option Entries
  | 0, _, _, _ => none
  | fuel + 1, header, root, text =>
    match skipGap text with
    | [] => some root
    | start => do
      let (header, root, next) ← expression header root start
      expressions fuel header root next

def withoutByteOrderMark : List Char → List Char
  | c :: rest => if c = '\uFEFF' then rest else c :: rest
  | [] => []

def read? (document : String) : Option Table := do
  let text := withoutByteOrderMark document.toList
  (← expressions (text.length + 1) [] .nil text).table?

end NotebookTidy.Toml
