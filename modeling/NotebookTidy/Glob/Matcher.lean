import NotebookTidy.Glob.Pattern
import NotebookTidy.Path

/-!
Lists of globs matched against paths. A glob matches a path if it matches any part of its spelling,
so `.git` also matches inside `proj/.github/ci.py`; a `**` does not
pass over a line feed.
-/
namespace NotebookTidy.Glob

/-- Levels that the expression written for a glob may nest. -/
def levelLimit : Nat := 250

def Token.pieces : Token → Nat
  | .literal c => c.utf8Size
  | .deepEnd => 2
  | .group branches => if anyPattern branches then 1 else 0
  | _ => 1

def sequenceLevels (pieces inner : Nat) : Nat := if pieces ≤ 1 then inner else inner + 1

mutual
/-- Levels of the expression for a token: a class is one, and one more if it has several parts; a
repetition, a group and an alternation are one each. -/
def Token.levels : Token → Nat
  | .literal _ => 0
  | .one => 1
  | .run => 2
  | .deepStart => 4
  | .deepEnd => 1
  | .deepMiddle => 4
  | .charClass _ ranges =>
    if (ranges.flatMap fun (a, b) => rangeBytes a b).length ≤ 1 then 1 else 2
  | .group branches =>
    if 1 < presentBranches branches then branchLevels branches + 2 else branchLevels branches + 1
def innerLevels : List Token → Nat
  | [] => 0
  | t :: rest => max t.levels (innerLevels rest)
def pieceCount : List Token → Nat
  | [] => 0
  | t :: rest => t.pieces + pieceCount rest
def branchLevels : List (List Token) → Nat
  | [] => 0
  | b :: rest => max (sequenceLevels (pieceCount b) (innerLevels b)) (branchLevels rest)
def presentBranches : List (List Token) → Nat
  | [] => 0
  | b :: rest => (if hasPattern b then 1 else 0) + presentBranches rest
end

/-- The expression starts with a switch of its own, which makes any other piece a second one. -/
def globLevels (ts : List Token) : Nat :=
  sequenceLevels (pieceCount ts + 1) (innerLevels ts)

inductive GlobError where
  | invalid (glob : String) (fault : Fault)
  | tooDeep
  deriving DecidableEq, Repr

def GlobError.message : GlobError → String
  | .invalid glob fault =>
    "Invalid glob pattern: error parsing glob '" ++ glob ++ "': " ++ fault.reason
  | .tooDeep => "Failed to compile globs"

structure Matcher where
  globs : List String
  patterns : List Pattern
  deriving Repr

def readGlob (glob : String) : Except GlobError (List Token) :=
  match tokens glob with
  | .ok ts => .ok ts
  | .error e => .error (.invalid glob e)

namespace Matcher

/-- The first glob that cannot be read is reported; only then is their depth looked at. -/
def ofGlobs (globs : List String) : Except GlobError Matcher := do
  let read ← globs.mapM readGlob
  if read.any (levelLimit < globLevels ·) then .error .tooDeep
  else .ok ⟨globs, read.map (globPattern nonLineFeed)⟩

def pathBytes (p : Path) : List UInt8 := p.text.toList.flatMap String.utf8EncodeChar

def accepts (m : Matcher) (p : Path) : Bool := m.patterns.any (·.occursIn (pathBytes p))

end Matcher
end NotebookTidy.Glob
