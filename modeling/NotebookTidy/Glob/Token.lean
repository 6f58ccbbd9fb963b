/-!
The tokens of a glob and how they are read. `**` between separators means any number of
directories; anywhere else two stars mean what one means. Groups nest, and each has the branches
between its commas.
-/
namespace NotebookTidy.Glob

/-- A `?` is `one`, a `*` is `run`; `**/` at the start of a branch is `deepStart`, `/**` at the end
`deepEnd` and `/**/` between the two `deepMiddle`. -/
inductive Token where
  | literal (c : Char)
  | one
  | run
  | deepStart
  | deepEnd
  | deepMiddle
  | charClass (negated : Bool) (ranges : List (Char × Char))
  | group (branches : List (List Token))
  deriving Repr

inductive Fault where
  | unclosedClass
  | invalidRange (first last : Char)
  | unopenedGroup
  | unclosedGroup
  | danglingEscape
  deriving DecidableEq, Repr

def Fault.reason : Fault → String
  | .unclosedClass => "unclosed character class; missing ']'"
  | .invalidRange first last =>
    "invalid range; '" ++ first.toString ++ "' > '" ++ last.toString ++ "'"
  | .unopenedGroup =>
    "unopened alternate group; missing '\x7b' (maybe escape '\x7d' with '[\x7d]'?)"
  | .unclosedGroup =>
    "unclosed alternate group; missing '\x7d' (maybe escape '\x7b' with '[\x7b]'?)"
  | .danglingEscape => "dangling '\\'"

structure Frame where
  branches : List (List Token)
  current : List Token

/-- The innermost frame and those around it; the outermost is the glob itself. -/
structure Draft where
  inner : Frame
  outer : List Frame

namespace Draft

def start : Draft := ⟨⟨[], []⟩, []⟩

def push (d : Draft) (t : Token) : Draft :=
  { d with inner := { d.inner with current := t :: d.inner.current } }

def openGroup (d : Draft) : Draft := ⟨⟨[], []⟩, d.inner :: d.outer⟩

def allBranches (f : Frame) : List (List Token) := f.branches ++ [f.current.reverse]

def closeGroup (d : Draft) : Except Fault Draft :=
  match d.outer with
  | [] => .error .unopenedGroup
  | f :: outer => .ok (push ⟨f, outer⟩ (.group (allBranches d.inner)))

def nextBranch (d : Draft) : Draft := { d with inner := ⟨allBranches d.inner, []⟩ }

/-- A deep token in place of the separator before it; deep tokens in a row are one. -/
def deepen (d : Draft) (t : Token) : Draft :=
  let earlier := d.inner.current.drop 1
  let next := match d.inner.current.head? with
    | some .deepStart => .deepStart
    | some .deepEnd => .deepEnd
    | _ => t
  { d with inner := { d.inner with current := next :: earlier } }

def finish (d : Draft) : Except Fault (List Token) :=
  if d.outer.isEmpty then .ok d.inner.current.reverse else .error .unclosedGroup

end Draft

/-- The ranges of a class, read up to its `]`. The first character is never the end, and a hyphen
at either end is itself. The last range read comes first. -/
def classRanges (first inRange : Bool) (ranges : List (Char × Char)) :
    List Char → Except Fault (List (Char × Char) × List Char)
  | [] => .error .unclosedClass
  | c :: rest =>
    if c = ']' && !first then
      .ok (if inRange then ('-', '-') :: ranges else ranges, rest)
    else if c = '-' && !first && !inRange then classRanges false true ranges rest
    else if inRange then
      match ranges with
      | (low, _) :: earlier =>
        if c < low then .error (.invalidRange low c)
        else classRanges false false ((low, c) :: earlier) rest
      | [] => classRanges false false [(c, c)] rest
    else classRanges false false ((c, c) :: ranges) rest

def classToken (text : List Char) : Except Fault (Token × List Char) :=
  let (negated, body) := match text with
    | c :: rest => if c = '!' || c = '^' then (true, rest) else (false, text)
    | [] => (false, [])
  (classRanges true false [] body).map fun (ranges, rest) =>
    (.charClass negated ranges.reverse, rest)

private def atBranchStart (previous : Option Char) (d : Draft) : Bool :=
  !d.outer.isEmpty && (previous = some ',' || previous = some '\x7b')

/-- Two stars, with the character before them and the text after them. The separator after a deep
token belongs to it. -/
def doubleStar (d : Draft) (previous : Option Char) (text : List Char) : Draft × List Char :=
  let plain := ((d.push .run).push .run, text)
  if d.inner.current.isEmpty then
    match text with
    | [] => (d.push .deepStart, [])
    | c :: rest => if c = '/' then (d.push .deepStart, rest) else plain
  else if previous ≠ some '/' && !atBranchStart previous d then plain
  else
    match text with
    | [] => (d.deepen .deepEnd, [])
    | c :: rest =>
      if (c = ',' || c = '\x7d') && !d.outer.isEmpty then (d.deepen .deepEnd, text)
      else if c = '/' then (d.deepen .deepMiddle, rest)
      else plain

/-- What a `[` means: a class that has to be closed; a class or, if none is closed, only itself
from then on; or only itself. -/
inductive Brackets where
  | closed
  | lenient
  | plain
  deriving DecidableEq, Repr

/-- Reads the rest of a glob, given the character before it; at most `fuel` tokens. -/
def tokensFrom : Nat → Brackets → Draft → Option Char → List Char → Except Fault (List Token)
  | 0, _, d, _, _ => d.finish
  | _ + 1, _, d, _, [] => d.finish
  | fuel + 1, brackets, d, previous, c :: rest =>
    if c = '?' then tokensFrom fuel brackets (d.push .one) (some c) rest
    else if c = '*' then
      match rest with
      | '*' :: after =>
        let (next, left) := doubleStar d previous after
        let last := if left.length < after.length then '/' else '*'
        tokensFrom fuel brackets next (some last) left
      | _ => tokensFrom fuel brackets (d.push .run) (some c) rest
    else if c = '[' && brackets ≠ .plain then
      match classToken rest with
      | .ok (t, left) => tokensFrom fuel brackets (d.push t) (some ']') left
      | .error e =>
        if brackets = .lenient ∧ e = .unclosedClass then
          tokensFrom fuel .plain (d.push (.literal c)) (some c) rest
        else .error e
    else if c = '\x7b' then tokensFrom fuel brackets d.openGroup (some c) rest
    else if c = '\x7d' then
      match d.closeGroup with
      | .ok next => tokensFrom fuel brackets next (some c) rest
      | .error e => .error e
    else if c = ',' then
      tokensFrom fuel brackets (if d.outer.isEmpty then d.push (.literal c) else d.nextBranch)
        (some c) rest
    else if c = '\\' then
      match rest with
      | [] => .error .danglingEscape
      | e :: left => tokensFrom fuel brackets (d.push (.literal e)) (some e) left
    else tokensFrom fuel brackets (d.push (.literal c)) (some c) rest

def tokensOf (brackets : Brackets) (glob : List Char) : Except Fault (List Token) :=
  tokensFrom (glob.length + 1) brackets .start none glob

def tokens (glob : String) : Except Fault (List Token) := tokensOf .closed glob.toList

end NotebookTidy.Glob
