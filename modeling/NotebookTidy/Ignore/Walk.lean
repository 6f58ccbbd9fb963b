import NotebookTidy.Ignore.Rule
import NotebookTidy.Storage.FileTree

/-!
The files below a directory that its ignore files, and those of the directories around it, do not
drop. `.ignore` counts everywhere and comes first; `.gitignore` and the excludes of a repository
count only up to the repository that an entry lies in. A directory that is dropped is not entered.
-/
namespace NotebookTidy.Ignore
open Storage (FileTree Children FileContent)

structure Level where
  depth : Nat
  ignore : List Rule
  git : List Rule
  exclude : List Rule
  repository : Bool
  deriving Repr

/-- The lines of a file up to the first one that is no text. -/
private def readable : FileContent → List Char
  | .text t => t.toList
  | .binary bytes =>
    let lines := (bytes.splitOn 0x0A).map fun line => (Text.decodeUtf8 line).toOption
    (lines.takeWhile Option.isSome).flatMap fun line => (line.getD "").toList ++ ['\n']

private def rulesIn (tree : FileTree) (names : List String) : List Rule :=
  match tree.get? names with
  | some (.file content) => Rule.ofText (readable content)
  | _ => []

namespace Level

def ofDirectory (depth : Nat) (cs : Children) : Level :=
  let tree := FileTree.directory cs
  { depth
    ignore := rulesIn tree [".ignore"]
    git := rulesIn tree [".gitignore"]
    exclude := rulesIn tree [".git", "info", "exclude"]
    repository := (cs.get? ".git").isSome || (cs.get? ".jj").isSome }

private def relative (level : Level) (names : List String) : List UInt8 :=
  (Text.joined ['/'] ((names.drop level.depth).map String.toList)).flatMap String.utf8EncodeChar

/-- The levels from the innermost one up to the first repository, if there is one at all. -/
def repositoryLevels (levels : List Level) : List Level :=
  if levels.any Level.repository then
    levels.takeWhile (!·.repository) ++ (levels.find? Level.repository).toList
  else []

def verdict (levels : List Level) (names : List String) (isDirectory : Bool) : Verdict :=
  let ask (rules : Level → List Rule) (levels : List Level) : Verdict :=
    .first (levels.map fun l => Rule.verdict (rules l) (l.relative names) isDirectory)
  let nested := repositoryLevels levels
  ((ask ignore levels).or (ask git nested)).or (ask exclude nested)

def drops (levels : List Level) (names : List String) (isDirectory : Bool) : Bool :=
  verdict levels names isDirectory = .dropped

/-- The levels of the directories around and at a list of names, the innermost one first. -/
def around (tree : FileTree) (names : List String) : List Level :=
  ((List.range (names.length + 1)).filterMap fun depth =>
    match tree.get? (names.take depth) with
    | some (.directory cs) => some (ofDirectory depth cs)
    | _ => none).reverse

end Level

mutual
/-- Files below an entry that is not dropped, by their names from the root. -/
def filesBelow (levels : List Level) (names : List String) : FileTree → List (List String)
  | .file _ => if Level.drops levels names false then [] else [names]
  | .directory cs =>
    if Level.drops levels names true then []
    else filesAmong (.ofDirectory names.length cs :: levels) names cs
def filesAmong (levels : List Level) (names : List String) : Children → List (List String)
  | .nil => []
  | .cons name tree rest =>
    filesBelow levels (names ++ [name.text]) tree ++ filesAmong levels names rest
end

/-- Files of a directory, by their names below it; the directory itself is never dropped. -/
def walk (tree : FileTree) (names : List String) (cs : Children) : List (List String) :=
  (filesAmong (Level.around tree names) names cs).map (·.drop names.length)

end NotebookTidy.Ignore
