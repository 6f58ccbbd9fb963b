import NotebookTidy.Glob.Pattern
import NotebookTidy.Text.Segments

/-!
Lines of an ignore file. A glob without a separator is for names at any depth; one with a separator
starts at the directory of the file. The last line that matches decides.
-/
namespace NotebookTidy.Ignore
open Glob (Pattern)

inductive Verdict where
  | silent
  | dropped
  | kept
  deriving DecidableEq, Repr

namespace Verdict

def or (first second : Verdict) : Verdict :=
  match first with
  | .silent => second
  | decided => decided

def first (verdicts : List Verdict) : Verdict := verdicts.foldr or .silent

end Verdict

structure Rule where
  pattern : Pattern
  keeps : Bool
  directoriesOnly : Bool
  deriving DecidableEq, Repr

namespace Rule

/-- Blanks at the end do not count, unless the last one is escaped. -/
private def withoutEnd (line : List Char) : List Char :=
  if ['\\', ' '].isSuffixOf line then line else Text.trimEnd line

private def markers (line : List Char) : Bool × Bool × List Char :=
  let anchored (keeps : Bool) (body : List Char) : Bool × Bool × List Char :=
    match body with
    | '/' :: rest => (keeps, true, rest)
    | _ => (keeps, false, body)
  match line with
  | '\\' :: '!' :: rest => (false, false, '!' :: rest)
  | '\\' :: '#' :: rest => (false, false, '#' :: rest)
  | '!' :: rest => anchored true rest
  | _ => anchored false line

/-- Takes a separator off the end, and the backslash that may escape it. -/
private def directoryBody (body : List Char) : Bool × List Char :=
  if ['\\', '/'].isSuffixOf body then (true, body.dropLast.dropLast)
  else if ['/'].isSuffixOf body then (true, body.dropLast)
  else (false, body)

private def globOf (anchored : Bool) (body : List Char) : List Char :=
  let glob :=
    if anchored || body.contains '/' || body = ['*', '*'] then body
    else '*' :: '*' :: '/' :: body
  if "/**".toList.isSuffixOf glob then glob ++ ['/', '*'] else glob

/-- Comments, blank lines and globs that cannot be read are no rules. -/
def ofLine? (line : List Char) : Option Rule :=
  if line.head? = some '#' then none
  else
    let line := withoutEnd line
    if line.isEmpty then none
    else
      let (keeps, anchored, body) := markers line
      let (directoriesOnly, body) := directoryBody body
      match Glob.tokensOf .lenient (globOf anchored body) with
      | .ok ts => some ⟨Glob.globPattern Glob.anyByte ts, keeps, directoriesOnly⟩
      | .error _ => none

/-- Marks of byte order at the beginning of the first line are passed over. -/
def ofText (text : List Char) : List Rule :=
  (Text.lines (text.dropWhile (· = '\ufeff'))).filterMap ofLine?

def applies (r : Rule) (path : List UInt8) (isDirectory : Bool) : Bool :=
  (isDirectory || !r.directoriesOnly) && r.pattern.matchesWhole path

def verdict (rules : List Rule) (path : List UInt8) (isDirectory : Bool) : Verdict :=
  match rules.reverse.find? (·.applies path isDirectory) with
  | some r => if r.keeps then .kept else .dropped
  | none => .silent

end Rule
end NotebookTidy.Ignore
