import NotebookTidy.Toml.Number

/-!
Which tables and keys a document may define where. A table remembers how it came about: by its own
header, on the way to another header, or by a dotted key; a key is defined once, and each way
allows some ways of adding to the table later. Entries keep the order of the document.
-/
namespace NotebookTidy.Toml
open Config

inductive Origin where
  | header
  | passage
  | dotted
  deriving DecidableEq, Repr

mutual
/-- Of an array of tables only the last row can still grow. -/
inductive Item where
  | value (value : Value)
  | table (origin : Origin) (entries : Entries)
  | rows (finished : List Value) (current : Entries)
inductive Entries where
  | nil
  | cons (key : String) (item : Item) (rest : Entries)
end

/-- A table whose first key is this one is the moment that the key's string spells. -/
def momentKey : String := "$__toml_private_datetime"

mutual
def Item.value? : Item → Option Value
  | .value v => some v
  | .table _ entries => entries.value?
  | .rows finished current => current.value?.map fun row => .array (.ofList (finished ++ [row]))
def Entries.value? : Entries → Option Value
  | .nil => some (.table .empty)
  | .cons key item rest => do
    let v ← item.value?
    if key = momentKey then (v.string?.bind standaloneMoment?).map .datetime
    else some (.table ((← rest.table?).insert key v))
def Entries.table? : Entries → Option Table
  | .nil => some .empty
  | .cons key item rest => do
    let v ← item.value?
    some ((← rest.table?).insert key v)
end

namespace Entries

/-- Changes the item at a key in place; a new one comes last. -/
def update (key : String) (change : Option Item → Option Item) : Entries → Option Entries
  | .nil => (change none).map (.cons key · .nil)
  | .cons k item rest =>
    if k = key then (change (some item)).map (.cons k · rest)
    else (rest.update key change).map (.cons k item)

/-- Changes the table at a path, which is made where it is missing. A dotted key does not pass
through a table with a header of its own. `change` also learns whether the table is one that
dotted keys made. -/
def within (dotted : Bool) (path : List String) (change : Bool → Entries → Option Entries)
    (made : Bool) (entries : Entries) : Option Entries :=
  match path with
  | [] => change made entries
  | key :: rest =>
    entries.update key fun
      | none =>
        (within dotted rest change dotted .nil).map
          (.table (if dotted then .dotted else .passage))
      | some (.value _) => none
      | some (.rows finished current) =>
        (within dotted rest change false current).map (.rows finished)
      | some (.table origin inner) =>
        if dotted && origin = .header then none
        else (within dotted rest change (origin = .dotted) inner).map (.table origin)

/-- A key and its value, below the table in which the key is written. A dotted key ends in a table
that dotted keys made, a plain key in the table itself. -/
def define (path : List String) (key : String) (value : Value) (entries : Entries) :
    Option Entries :=
  within true path (fun made inner =>
    if made = path.isEmpty then none
    else inner.update key fun
      | none => some (.value value)
      | some _ => none) false entries

/-- A table header. A table has one, and none if dotted keys made it. -/
def openTable (path : List String) (key : String) (root : Entries) : Option Entries :=
  within false path (fun _ inner => inner.update key fun
    | none => some (.table .header .nil)
    | some (.table .passage entries) => some (.table .header entries)
    | _ => none) false root

def openRow (path : List String) (key : String) (root : Entries) : Option Entries :=
  within false path (fun _ inner => inner.update key fun
    | none => some (.rows [] .nil)
    | some (.rows finished current) =>
      current.value?.map fun row => .rows (finished ++ [row]) .nil
    | _ => none) false root

end Entries
end NotebookTidy.Toml
