import NotebookTidy.Json.Value
import NotebookTidy.Source.Diagnostic

/-!
Diagnostics as JSON. A record is an object, whose unknown fields are skipped and whose known ones
occur at most once, or the array of its fields in order. Fields with a default may be missing;
only a code, a fix and the message of a fix may be null.
-/
namespace NotebookTidy.Source
open Json

/-- The one value of a field; none at all if it is missing, and no answer if it is repeated. -/
private def field? (name : String) (fields : List (String × Node)) : Option (Option Node) :=
  match fields.filter (·.1 = name) with
  | [] => some none
  | [(_, n)] => some (some n)
  | _ => none

/-- The fields of a record by the names they have, each given once. -/
def recordFields? (names : List String) : Node → Option (List (Option Node))
  | .object fs => do
    let fields ← fs.toList.mapM fun (k, n) => k.map (·, n)
    names.mapM (field? · fields)
  | .array ns =>
    let nodes := ns.toList
    if nodes.length ≤ names.length then
      some (nodes.map some ++ List.replicate (names.length - nodes.length) none)
    else none
  | _ => none

private theorem fieldSingle {name : String} {fields : List (String × Node)} {given : Option Node}
    (single : fields.filter (·.1 = name) = given.toList.map (name, ·)) :
    field? name fields = some given := by
  rw [field?, single]
  cases given <;> rfl

private theorem fieldsNamed (fields : List (String × Node)) :
    (fields.map fun f => (some f.1, f.2)).mapM (fun (k, n) => k.map (·, n)) = some fields := by
  induction fields with
  | nil => rfl
  | cons f rest ih =>
    rw [List.map_cons, List.mapM_cons, ih]
    rfl

theorem recordFieldsObject {names : List String} {given : List (Option Node)} {fs : Fields}
    {fields : List (String × Node)} (spelled : fs.toList = fields.map fun f => (some f.1, f.2))
    (sizes : names.length = given.length)
    (single : ∀ f ∈ names.zip given, fields.filter (·.1 = f.1) = f.2.toList.map (f.1, ·)) :
    recordFields? names (.object fs) = some given := by
  rw [recordFields?, spelled, fieldsNamed, Option.bind_eq_bind, Option.bind_some]
  induction names generalizing given with
  | nil => rw [List.length_eq_zero_iff.mp sizes.symm]; rfl
  | cons name others ih =>
    cases given with
    | nil => cases sizes
    | cons first rest =>
      obtain ⟨here, later⟩ := List.forall_mem_cons.mp single
      rw [List.mapM_cons, fieldSingle here, ih (Nat.succ.inj sizes) later]
      rfl

def text? : Node → Option String
  | .string s => s
  | _ => none

def optional? {α : Type} (read : Node → Option α) : Option Node → Option (Option α)
  | none => some none
  | some .null => some none
  | some n => (read n).map some

def withDefault? {α : Type} (default : α) (read : Node → Option α) : Option Node → Option α
  | none => some default
  | some n => read n

def ordinal? : Node → Option UInt32
  | .number n =>
    if n.negative then none
    else
      match n.number? with
      | some (.integer i) => if i < UInt32.size then some (UInt32.ofNat i.toNat) else none
      | _ => none
  | _ => none

def list? {α : Type} (read : Node → Option α) : Node → Option (List α)
  | .array ns => ns.toList.mapM read
  | _ => none

def Location.ofNode? (n : Node) : Option Location := do
  match ← recordFields? ["row", "column"] n with
  | [some row, some column] => some ⟨← ordinal? row, ← ordinal? column⟩
  | _ => none

def Applicability.name : Applicability → String
  | .displayOnly => "display-only"
  | .unsafeFix => "unsafe"
  | .safe => "safe"

def Applicability.ofName? : String → Option Applicability
  | "display-only" => some .displayOnly
  | "unsafe" => some .unsafeFix
  | "safe" => some .safe
  | _ => none

/-- A name, alone or as the only field of an object, which then holds null. -/
def Applicability.ofNode? : Node → Option Applicability
  | .string s => do ofName? (← s)
  | .object (.cons s .null .nil) => do ofName? (← s)
  | _ => none

def Edit.ofNode? (n : Node) : Option Edit := do
  match ← recordFields? ["content", "location", "end_location"] n with
  | [content, some start, some stop] =>
    let content ← withDefault? "" text? content
    some ⟨content, ← Location.ofNode? start, ← Location.ofNode? stop⟩
  | _ => none

def Fix.ofNode? (n : Node) : Option Fix := do
  match ← recordFields? ["applicability", "message", "edits"] n with
  | [applicability, message, edits] =>
    let applicability ← withDefault? .safe Applicability.ofNode? applicability
    let message ← optional? text? message
    let edits ← withDefault? [] (list? Edit.ofNode?) edits
    some ⟨applicability, message, edits⟩
  | _ => none

def Diagnostic.ofNode? (n : Node) : Option Diagnostic := do
  match ← recordFields? ["code", "message", "location", "end_location", "fix"] n with
  | [code, some message, some start, some stop, fix] =>
    let code ← optional? text? code
    let message ← text? message
    let start ← Location.ofNode? start
    let stop ← Location.ofNode? stop
    some ⟨code, message, start, stop, ← optional? Fix.ofNode? fix⟩
  | _ => none

def Diagnostic.read? (text : String) : Option Diagnostic := do ofNode? (← parse? text)

def Diagnostic.readAll? (text : String) : Option (List Diagnostic) := do
  list? ofNode? (← parse? text)

private def object (members : List (String × Value)) : Value := .object (.ofList members)

def Location.toJson (l : Location) : Value :=
  object [("row", .number (.integer l.row.toNat)), ("column", .number (.integer l.column.toNat))]

def Edit.toJson (e : Edit) : Value :=
  object [("content", .string e.content), ("location", e.start.toJson),
    ("end_location", e.stop.toJson)]

def Fix.toJson (f : Fix) : Value :=
  object ([("applicability", .string f.applicability.name),
    ("edits", .array (.ofList (f.edits.map Edit.toJson)))] ++
    f.message.toList.map fun m => ("message", .string m))

def Diagnostic.toJson (d : Diagnostic) : Value :=
  object ([("code", (d.code.map Value.string).getD .null), ("message", .string d.message),
    ("location", d.start.toJson), ("end_location", d.stop.toJson)] ++
    d.fix.toList.map fun f => ("fix", f.toJson))

end NotebookTidy.Source
