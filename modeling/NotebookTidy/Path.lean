import NotebookTidy.Text.Segments

/-!
Paths as they are spelled, and the components that they mean. Repeated separators, an inner `.`
and a separator at the end are part of the spelling only; a leading `.` is a component of its own,
and `..` is one that nothing here resolves except `normalize`. Paths are texts. The operating system
has any bytes in a name, and a name that is no text is told of in two places only: the bytes that a
glob is matched against, and the steps that texts in memory are kept under.
-/
namespace NotebookTidy

inductive Component where
  | root
  | here
  | up
  | name (text : String)
  deriving DecidableEq, Repr

structure Path where
  text : String
  deriving DecidableEq, Repr, Inhabited

namespace Component

def text : Component → String
  | .root => "/"
  | .here => "."
  | .up => ".."
  | .name s => s

private def rank : Component → Nat
  | .root => 0
  | .here => 1
  | .up => 2
  | .name _ => 3

def order (a b : Component) : Ordering :=
  match a, b with
  | .name s, .name t => compare s t
  | _, _ => compare a.rank b.rank

end Component

namespace Path
open Text (segments joined)

def empty : Path := ⟨""⟩

def isFiller (segment : List Char) : Bool := segment.isEmpty || segment = ['.']

def bodyComponent (segment : List Char) : Option Component :=
  if isFiller segment then none
  else if segment = ['.', '.'] then some .up
  else some (.name (String.ofList segment))

def lead (p : Path) : Option Component × List (List Char) :=
  match segments '/' p.text.toList with
  | [] :: next :: rest => (some .root, next :: rest)
  | ['.'] :: rest => (some .here, rest)
  | whole => (none, whole)

def components (p : Path) : List Component :=
  p.lead.1.toList ++ p.lead.2.filterMap bodyComponent

def ofComponents : List Component → Path
  | .root :: rest => ⟨String.ofList ('/' :: joined ['/'] (rest.map (·.text.toList)))⟩
  | rest => ⟨String.ofList (joined ['/'] (rest.map (·.text.toList)))⟩

def same (a b : Path) : Bool := a.components = b.components

def isAbsolute (p : Path) : Bool := p.text.toList.head? = some '/'

def join (base tail : Path) : Path :=
  if tail.isAbsolute then tail
  else if base.text.toList.getLast?.any (· ≠ '/') then ⟨base.text ++ "/" ++ tail.text⟩
  else ⟨base.text ++ tail.text⟩

def withoutFillerEnd (body : List (List Char)) : List (List Char) :=
  (body.reverse.dropWhile isFiller).reverse

/-- The path without its last component, as spelled; the root and the empty path have none. -/
def parent (p : Path) : Option Path :=
  let body := withoutFillerEnd p.lead.2
  let outer := withoutFillerEnd body.dropLast
  match p.lead.1, body with
  | none, [] => none
  | none, _ => some ⟨String.ofList (joined ['/'] outer)⟩
  | some .root, [] => none
  | some .root, _ => some ⟨String.ofList ('/' :: joined ['/'] outer)⟩
  | some _, [] => some empty
  | some c, _ => some ⟨String.ofList (joined ['/'] (c.text.toList :: outer))⟩

def directory (p : Path) : Path := p.parent.getD empty

def fileName (p : Path) : Option String :=
  match p.components.getLast? with
  | some (.name s) => some s
  | _ => none

/-- The part of the file name after its last dot, unless that dot begins the name. -/
def extension (p : Path) : Option String := do
  let name ← p.fileName
  let pieces := segments '.' name.toList
  if pieces.length ≤ 1 || pieces.dropLast = [[]] then none
  else pieces.getLast?.map String.ofList

def normalStep (done : List Component) : Component → List Component
  | .here => done
  | .up =>
    match done.getLast? with
    | some (.name _) => done.dropLast
    | some .root => done
    | _ => done ++ [.up]
  | c => done ++ [c]

/-- The components with `.` and `..` taken away without looking at any file. -/
def normalComponents (cs : List Component) : List Component := cs.foldl normalStep []

def normalize (p : Path) : Path := ofComponents (normalComponents p.components)

def parentsUpTo (p : Path) : Nat → List Path
  | 0 => []
  | n + 1 =>
    match p.parent with
    | none => []
    | some d => d :: d.parentsUpTo n

/-- The parent, its parent and so on. Each has one component less than the one before. -/
def parents (p : Path) : List Path := p.parentsUpTo p.components.length

def order (a b : Path) : Ordering := go a.components b.components
where
  go : List Component → List Component → Ordering
    | [], [] => .eq
    | [], _ :: _ => .lt
    | _ :: _, [] => .gt
    | x :: xs, y :: ys => (x.order y).then (go xs ys)

/-- The path seen from `/`, with `..` kept; the empty path has no such form. A separator at the
end stays, and so does a pair of separators at the beginning. -/
def absolute (p current : Path) : Option Path :=
  if p.text.isEmpty then none
  else
    let components := match p.components with
      | .here :: rest => rest
      | whole => whole
    let chars := p.text.toList
    let start :=
      if p.isAbsolute then
        if chars.take 2 = ['/', '/'] && (chars.drop 2).head? ≠ some '/' then ⟨"//"⟩ else ⟨"/"⟩
      else current
    let plain := (components.filter (· ≠ .root)).foldl (fun d c => d.join ⟨c.text⟩) start
    some (if chars.getLast? = some '/' then plain.join empty else plain)

end Path
end NotebookTidy
