import NotebookTidy.Config.Value
import NotebookTidy.Text.Invisible
import NotebookTidy.Toml.Reader

/-!
Deep override of one configuration tree by another: tables are united key by key at every depth,
and any other value of the overriding tree takes the place of whatever stood there. Overrides may be
given item by item, each a document of its own laid over those before it.
-/
namespace NotebookTidy.Config

mutual
/-- What stands at a key after an override, given what stood there. -/
def Value.over (value : Value) (below : Option Value) : Value :=
  match value with
  | .table t =>
    match below with
    | some (.table b) => .table (t.over b)
    | _ => .table t
  | .string s => .string s
  | .integer n => .integer n
  | .float x => .float x
  | .boolean b => .boolean b
  | .datetime d => .datetime d
  | .array vs => .array vs
def Table.over (overrides base : Table) : Table :=
  match overrides with
  | .nil => base
  | .cons key value rest => (rest.over base).insert key (value.over (base.get? key))
end

def merge (base overrides : Table) : Table := overrides.over base

structure InvalidOverride where
  item : String
  deriving DecidableEq, Repr

/-- Says which item was refused; what the reader found wrong with it is not part of the message. -/
def InvalidOverride.message (e : InvalidOverride) : String :=
  "Invalid --config value " ++ Text.quoted e.item

def parseOverride (item : String) : Except InvalidOverride Table :=
  match Toml.read? item with
  | some t => .ok t
  | none => .error ⟨item⟩

def parseOverrides (items : List String) : Except InvalidOverride Table :=
  items.foldlM (fun merged item => (parseOverride item).map (merge merged)) .empty

def importSorting : Table :=
  .ofList [("lint", .table (.ofList [("select", .array (.ofList [.string "I"]))]))]

end NotebookTidy.Config
