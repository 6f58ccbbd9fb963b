import NotebookTidy.Source.LineIndex

/-!
Applying the edits of safe fixes to a text. All of them speak of the text as it was. They are
applied from its end to its beginning, so none moves the place of a later one, and an edit that
reaches into one already applied is left out.
-/
namespace NotebookTidy.Source
open Text (Encoding)

/-- An edit as byte offsets, the end never before the start. -/
structure Change where
  start : Nat
  stop : Nat
  content : List Char
  deriving DecidableEq, Repr

def Change.ofEdit (i : LineIndex) (e : Encoding) (edit : Edit) : Change :=
  let start := i.offset e edit.start
  ⟨start, max start (i.offset e edit.stop), edit.content.toList⟩

/-- The edits of all safe fixes, the last one of the last diagnostic first. -/
def safeChanges (i : LineIndex) (e : Encoding) (diagnostics : List Diagnostic) : List Change :=
  ((diagnostics.reverse.filter Diagnostic.hasSafeFix).flatMap (·.edits.reverse)).map
    (Change.ofEdit i e)

/-- Whether `a` starts after `b`, or with it and ends no earlier. -/
def Change.fromEnd (a b : Change) : Bool :=
  b.start < a.start || (b.start = a.start && b.stop ≤ a.stop)

structure Patched where
  text : List Char
  applied : List Change
  skipped : List Change
  deriving DecidableEq, Repr

/-- Applies changes that come in the order of `Change.fromEnd`; `done` is the new text from
`cursor` on. -/
def patchFrom (text : List Char) (cursor : Nat) (done : List Char) : List Change → Patched
  | [] => ⟨takeBytes cursor text ++ done, [], []⟩
  | c :: rest =>
    if cursor < c.stop then
      let r := patchFrom text cursor done rest
      { r with skipped := c :: r.skipped }
    else
      let r := patchFrom text c.start (c.content ++ slice text c.stop cursor ++ done) rest
      { r with applied := c :: r.applied }

def patch (text : List Char) (changes : List Change) : Patched :=
  patchFrom text (Text.byteLength text) [] (changes.mergeSort Change.fromEnd)

structure FixResult where
  applied : Nat
  text : String
  modified : Bool
  deriving DecidableEq, Repr

def applyFixes (text : String) (diagnostics : List Diagnostic) (e : Encoding) : FixResult :=
  let chars := text.toList
  match safeChanges (.ofText chars) e diagnostics with
  | [] => ⟨0, text, false⟩
  | changes =>
    let r := patch chars changes
    ⟨r.applied.length, String.ofList r.text, r.text ≠ chars⟩

end NotebookTidy.Source
