import NotebookTidy.Path

/-! Where configuration is looked up: texts and directory listings, each under a path. -/
namespace NotebookTidy

namespace Storage

inductive Error where
  | notFound (path : Path)
  | notAFile (path : Path)
  | failed (path : Path) (reason : String)
  deriving DecidableEq, Repr

def Error.message : Error → String
  | .notFound p => "Not found: " ++ p.text
  | .notAFile p => "Not a text file: " ++ p.text
  | .failed p reason => "Failed to read " ++ p.text ++ ": " ++ reason

/-- What a listing says about one of its entries. The name is empty where the path has none. -/
structure Child where
  name : String
  path : Path
  deriving DecidableEq, Repr

def Child.ofPath (p : Path) : Child := ⟨p.fileName.getD "", p⟩

inductive Content where
  | text (value : String)
  | directory (children : List Child)
  deriving DecidableEq, Repr

structure Entry where
  name : String
  path : Path
  content : Content
  deriving DecidableEq, Repr

def Entry.at (p : Path) (content : Content) : Entry := ⟨p.fileName.getD "", p, content⟩

def Entry.text (e : Entry) : Except Error String :=
  match e.content with
  | .text t => .ok t
  | .directory _ => .error (.notAFile e.path)

def Entry.children (e : Entry) : List Child :=
  match e.content with
  | .text _ => []
  | .directory children => children

end Storage

/-- A storage holds texts under finitely many paths only; two spellings of the same components
count once. -/
structure Storage where
  get : Path → Except Storage.Error Storage.Entry
  finite : ∃ held : List (List Component), ∀ p e, get p = .ok e →
    (∃ t, e.content = .text t) → p.components ∈ held

namespace Storage

def load (s : Storage) (p : Path) : Except Error String :=
  match s.get p with
  | .ok e => e.text
  | .error e => .error e

def list (s : Storage) (p : Path) : List Child :=
  match s.get p with
  | .ok e => e.children
  | .error _ => []

theorem loadHeld (s : Storage) {held : List (List Component)}
    (h : ∀ p e, s.get p = .ok e → (∃ t, e.content = .text t) → p.components ∈ held)
    {p : Path} {t : String} (loaded : s.load p = .ok t) : p.components ∈ held := by
  unfold load at loaded
  split at loaded
  · next e he =>
    refine h p e he ?_
    unfold Entry.text at loaded
    split at loaded
    · next text ht => exact ⟨text, ht⟩
    · cases loaded
  · cases loaded

end Storage
end NotebookTidy
