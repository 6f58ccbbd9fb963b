import NotebookTidy.Storage.Basic
import NotebookTidy.Text.Utf8

/-!
Texts held in memory, each under the steps of its path. Directories are wherever a text lies below
them; the path without steps always is one. A listing knows its entries by the texts that their
steps are shown as: of steps that are shown alike it has the first one only.
-/
namespace NotebookTidy.Storage

/-- How a step of a path stands in a listing. -/
class Shown (Step : Type) where
  text : Step → String

/-- A name as the operating system has it, which need not be a text. -/
structure OsName where
  bytes : List UInt8
  proper : bytes ≠ [] ∧ bytes ≠ [0x2E] ∧ bytes ≠ [0x2E, 0x2E] ∧ 0x2F ∉ bytes
  deriving DecidableEq, Repr

instance : Shown OsName := ⟨fun name => Text.shown name.bytes⟩

instance : Ord OsName := ⟨compareOn OsName.bytes⟩

instance : Shown Component := ⟨Component.text⟩

instance : Ord Component := ⟨Component.order⟩

/-- What a listing says about one of its entries, which it does not load. -/
structure Listed (Step : Type) where
  name : String
  path : List Step
  deriving DecidableEq, Repr

inductive Found (Step : Type) where
  | text (value : String)
  | directory (children : List (Listed Step))
  deriving DecidableEq, Repr

structure Fetched (Step : Type) where
  name : String
  path : List Step
  content : Found Step
  deriving DecidableEq, Repr

namespace Fetched
variable {Step : Type}

def of [Shown Step] (path : List Step) (content : Found Step) : Fetched Step :=
  ⟨(path.getLast?.map Shown.text).getD "", path, content⟩

def children (e : Fetched Step) : List (Listed Step) :=
  match e.content with
  | .text _ => []
  | .directory children => children

end Fetched

structure Texts (Step : Type) where
  files : List (List Step × String)
  deriving DecidableEq, Repr

namespace Texts
variable {Step : Type} [DecidableEq Step]

def empty : Texts Step := ⟨[]⟩

def get? (m : Texts Step) (path : List Step) : Option String := m.files.lookup path

def remove (m : Texts Step) (path : List Step) : Texts Step := ⟨m.files.filter (·.1 ≠ path)⟩

def insert (m : Texts Step) (path : List Step) (text : String) : Texts Step :=
  ⟨(m.remove path).files ++ [(path, text)]⟩

/-- The first step of a path behind a directory that it lies below. -/
def behind? (directory path : List Step) : Option Step :=
  if directory.isPrefixOf path then (path.drop directory.length).head? else none

theorem keyOfGet {m : Texts Step} {path : List Step} {text : String}
    (h : m.get? path = some text) : path ∈ m.files.map Prod.fst := by
  unfold get? at h
  generalize m.files = files at h
  induction files with
  | nil => simp at h
  | cons f rest ih =>
    obtain ⟨key, value⟩ := f
    rw [List.lookup_cons] at h
    by_cases same : path = key
    · simp [same]
    · have : (path == key) = false := by simpa using same
      rw [this] at h
      exact List.mem_cons_of_mem _ (ih h)

variable [Ord Step] [Shown Step]

def alike (a b : Step) : Bool := Shown.text a = Shown.text b

/-- Of steps that are shown alike the first one. -/
def firsts : List Step → List Step
  | [] => []
  | s :: rest => s :: (firsts rest).filter fun t => !alike t s

def below (m : Texts Step) (directory : List Step) : List Step :=
  let steps := m.files.filterMap fun f => behind? directory f.1
  (firsts (steps.mergeSort fun a b => (compare a b).isLE)).mergeSort fun a b =>
    Shown.text a ≤ Shown.text b

def child (directory : List Step) (s : Step) : Listed Step := ⟨Shown.text s, directory ++ [s]⟩

/-- A path at which there is nothing is given back. -/
def lookUp (m : Texts Step) (path : List Step) : Except (List Step) (Fetched Step) :=
  match m.get? path with
  | some text => .ok (.of path (.text text))
  | none =>
    match m.below path with
    | [] => if path.isEmpty then .ok (.of path (.directory [])) else .error path
    | steps => .ok (.of path (.directory (steps.map (child path))))

theorem textFetched {m : Texts Step} {path : List Step} {e : Fetched Step} {text : String}
    (fetched : m.lookUp path = .ok e) (is : e.content = .text text) : m.get? path = some text := by
  unfold lookUp at fetched
  split at fetched
  · rename_i value held
    cases fetched
    cases is
    exact held
  · split at fetched
    · split at fetched <;> cases fetched
      cases is
    · cases fetched
      cases is

end Texts

/-- Texts under the components of paths that are texts themselves. -/
structure Memory extends Texts Component where
  keys : ∀ f ∈ files, ∃ p : Path, f.1 = p.components

namespace Memory

def empty : Memory := ⟨.empty, nofun⟩

def get? (m : Memory) (p : Path) : Option String := m.toTexts.get? p.components

def remove (m : Memory) (p : Path) : Memory where
  toTexts := m.toTexts.remove p.components
  keys f mem := m.keys f (List.mem_filter.mp mem).1

def insert (m : Memory) (p : Path) (text : String) : Memory where
  toTexts := m.toTexts.insert p.components text
  keys f mem := by
    rcases List.mem_append.mp mem with old | new
    · exact (m.remove p).keys f old
    · exact ⟨p, congrArg Prod.fst (List.mem_singleton.mp new)⟩

def below (m : Memory) (directory : Path) : List Component := m.toTexts.below directory.components

def contentAt (p : Path) : Found Component → Content
  | .text text => .text text
  | .directory children => .directory (children.map fun c => .ofPath (p.join ⟨c.name⟩))

def lookUp (m : Memory) (p : Path) : Except Error Entry :=
  match m.toTexts.lookUp p.components with
  | .ok e => .ok (.at p (contentAt p e.content))
  | .error _ => .error (.notFound p)

def storage (m : Memory) : Storage where
  get := m.lookUp
  finite := by
    refine ⟨m.files.map Prod.fst, ?_⟩
    rintro p e found ⟨t, text⟩
    unfold lookUp at found
    split at found
    · rename_i entry fetched
      cases found
      cases content : entry.content with
      | text value => exact Texts.keyOfGet (Texts.textFetched fetched content)
      | directory children => simp [Entry.at, contentAt, content] at text
    · cases found

end Memory
end NotebookTidy.Storage
