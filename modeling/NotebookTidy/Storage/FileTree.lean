import NotebookTidy.Path
import NotebookTidy.Text.Encoding
import NotebookTidy.Text.Utf8

/-!
A tree of files and directories without links, and how the operating system finds a path in it.
Below a file there is nothing, not even `.` or `..`. Names are texts, and an entry has one that the
operating system allows.
-/
namespace NotebookTidy.Storage

/-- A file holds a text, or bytes that are none. -/
inductive FileContent where
  | text (value : String)
  | binary (bytes : List UInt8)
  deriving DecidableEq, Repr

def FileContent.ofBytes (bytes : List UInt8) : FileContent :=
  match Text.decodeUtf8 bytes with
  | .ok s => .text s
  | .error _ => .binary bytes

/-- Bytes that a name may not exceed. -/
def nameLimit : Nat := 255

/-- A name of an entry is one component of a path, without a NUL, and not too long. -/
structure Nameable (text : String) : Prop where
  plain : '/' ∉ text.toList
  proper : text ≠ "" ∧ text ≠ "." ∧ text ≠ ".."
  lawful : '\x00' ∉ text.toList
  short : text.utf8ByteSize ≤ nameLimit

theorem nameableIff {text : String} : Nameable text ↔ '/' ∉ text.toList ∧
    (text ≠ "" ∧ text ≠ "." ∧ text ≠ "..") ∧ '\x00' ∉ text.toList ∧
      text.utf8ByteSize ≤ nameLimit :=
  ⟨fun n => ⟨n.plain, n.proper, n.lawful, n.short⟩, fun ⟨a, b, c, d⟩ => ⟨a, b, c, d⟩⟩

instance (text : String) : Decidable (Nameable text) := decidable_of_iff _ nameableIff.symm

structure FileName where
  text : String
  nameable : Nameable text
  deriving DecidableEq, Repr

def FileName.ofText? (text : String) : Option FileName :=
  if nameable : Nameable text then some ⟨text, nameable⟩ else none

mutual
inductive FileTree where
  | file (content : FileContent)
  | directory (children : Children)
  deriving DecidableEq, Repr
/-- Entries of a directory in the order of their names. -/
inductive Children where
  | nil
  | cons (name : FileName) (tree : FileTree) (rest : Children)
  deriving DecidableEq, Repr
end

namespace Children

def toList : Children → List (FileName × FileTree)
  | .nil => []
  | .cons name tree rest => (name, tree) :: rest.toList

def get? : Children → String → Option FileTree
  | .nil, _ => none
  | .cons n tree rest, name => if n.text = name then some tree else rest.get? name

def insert (name : FileName) (tree : FileTree) : Children → Children
  | .nil => .cons name tree .nil
  | .cons n t rest =>
    if name.text < n.text then .cons name tree (.cons n t rest)
    else if n = name then .cons name tree rest
    else .cons n t (rest.insert name tree)

/-- Nothing changes where no entry can have the name. -/
def set (cs : Children) (name : String) (tree : FileTree) : Children :=
  match FileName.ofText? name with
  | some entry => cs.insert entry tree
  | none => cs

def erase (name : String) : Children → Children
  | .nil => .nil
  | .cons n t rest => if n.text = name then rest else .cons n t (rest.erase name)

end Children

/-- Why the operating system does not find, read or write a path. -/
inductive OsFault where
  | noEntry
  | notDirectory
  | isDirectory
  | nameTooLong
  | nulInName
  | notText
  deriving DecidableEq, Repr

def OsFault.message : OsFault → String
  | .noEntry => "No such file or directory (os error 2)"
  | .notDirectory => "Not a directory (os error 20)"
  | .isDirectory => "Is a directory (os error 21)"
  | .nameTooLong => "File name too long (os error 36)"
  | .nulInName => "file name contained an unexpected NUL byte"
  | .notText => "stream did not contain valid UTF-8"

namespace FileTree

def empty : FileTree := .directory .nil

def isDirectory : FileTree → Bool
  | .directory _ => true
  | .file _ => false

def children : FileTree → Children
  | .directory cs => cs
  | .file _ => .nil

def get? (tree : FileTree) : List String → Option FileTree
  | [] => some tree
  | name :: rest => (tree.children.get? name).bind (·.get? rest)

/-- Puts a tree at a list of names, with directories on the way where there is nothing yet. A file
on the way stays, and nothing changes. -/
def put (tree node : FileTree) : List String → FileTree
  | [] => node
  | name :: rest =>
    match tree with
    | .file content => .file content
    | .directory cs => .directory (cs.set name (put ((cs.get? name).getD empty) node rest))

def remove (tree : FileTree) : List String → FileTree
  | [] => tree
  | [name] =>
    match tree with
    | .file content => .file content
    | .directory cs => .directory (cs.erase name)
  | name :: next :: rest =>
    match tree with
    | .file content => .file content
    | .directory cs =>
      match cs.get? name with
      | some inner => .directory (cs.set name (inner.remove (next :: rest)))
      | none => .directory cs

/-- Bytes that a path may not reach. -/
def pathLimit : Nat := 4096

def enter (root : FileTree) (names : List String) (c : Component) :
    Except OsFault (List String) :=
  match root.get? names with
  | some (.directory cs) =>
    match c with
    | .root => .ok []
    | .here => .ok names
    | .up => .ok names.dropLast
    | .name n =>
      if nameLimit < n.utf8ByteSize then .error .nameTooLong
      else if (cs.get? n).isSome then .ok (names ++ [n])
      else .error .noEntry
  | some (.file _) => .error .notDirectory
  | none => .error .noEntry

def spellsDirectory (p : Path) : Bool :=
  match (Text.segments '/' p.text.toList).getLast? with
  | some s => s.isEmpty || s = ['.'] || s = ['.', '.']
  | none => false

def locate (root : FileTree) (p : Path) : Except OsFault (List String × FileTree) := do
  let names ← p.components.foldlM (enter root) []
  match root.get? names with
  | none => throw .noEntry
  | some (.file content) =>
    if spellsDirectory p then throw .notDirectory else pure (names, .file content)
  | some (.directory cs) => pure (names, .directory cs)

def find (root : FileTree) (p : Path) : Except OsFault (List String × FileTree) :=
  if p.text.toList.contains '\x00' then .error .nulInName
  else if pathLimit ≤ Text.byteLength p.text.toList then .error .nameTooLong
  else if p.text.isEmpty then .error .noEntry
  else locate root p

theorem findGet {root node : FileTree} {p : Path} {names : List String}
    (found : root.find p = .ok (names, node)) : root.get? names = some node := by
  have located : locate root p = .ok (names, node) := by
    unfold find at found
    split at found
    · cases found
    · split at found
      · cases found
      · split at found
        · cases found
        · exact found
  unfold locate at located
  cases entered : p.components.foldlM (enter root) [] with
  | error e =>
    rw [entered] at located
    cases located
  | ok reached =>
    rw [entered] at located
    dsimp only [bind, Except.bind] at located
    split at located
    · cases located
    · split at located
      · cases located
      · cases located
        assumption
    · cases located
      assumption

def readText (root : FileTree) (p : Path) : Except OsFault String := do
  match (← root.find p).2 with
  | .file (.text t) => pure t
  | .file (.binary _) => throw .notText
  | .directory _ => throw .isDirectory

/-- Writes a file that exists, or a new one into a directory that does. -/
def writeText (root : FileTree) (p : Path) (text : String) : Except OsFault FileTree :=
  match root.find p with
  | .ok (names, .file _) => .ok (root.put (.file (.text text)) names)
  | .ok (_, .directory _) => .error .isDirectory
  | .error .noEntry =>
    match p.fileName with
    | some name =>
      if spellsDirectory p then .error .isDirectory
      else
        match root.find p.directory with
        | .ok (names, .directory _) => .ok (root.put (.file (.text text)) (names ++ [name]))
        | .ok (_, .file _) => .error .notDirectory
        | .error e => .error e
    | none => .error .noEntry
  | .error e => .error e

end FileTree
end NotebookTidy.Storage
