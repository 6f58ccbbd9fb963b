import NotebookTidy.Config.Merge
import NotebookTidy.Engine.Basic
import NotebookTidy.Glob.Matcher
import NotebookTidy.Storage.Basic

/-!
Which configuration governs a path. The directories above it are searched from the nearest on; the
file found there is laid under the caller's overrides and over the chain of files that it extends.
A chain never comes back to a file, so it ends when the texts of the storage run out.
-/
namespace NotebookTidy.Config

inductive Error where
  | globs (cause : Glob.GlobError)
  | unreadable (path : Path)
  | extendCycle (path : Path)
  | storage (cause : Storage.Error)
  | engine (cause : Engine.Error)
  deriving DecidableEq, Repr

/-- Where in an unreadable file the reader stopped is not part of the message. -/
def Error.message : Error → String
  | .globs cause => "Configuration error: " ++ cause.message
  | .unreadable p => "Failed to parse " ++ p.text
  | .extendCycle p => "Cyclic `extend` chain through " ++ p.text
  | .storage cause => "Storage error: " ++ cause.message
  | .engine cause => "Engine error: " ++ cause.message

/-- A configuration, the file it was found in and the files that one extends, in that order. -/
structure Resolved where
  config : Table
  source : Option Path
  bases : List Path
  deriving DecidableEq, Repr

def projectFile : String := "pyproject.toml"

/-- Names of configuration files; of several in one directory the first counts. -/
def fileNames : List String := [".ruff.toml", "ruff.toml", projectFile]

def loadTable (s : Storage) (p : Path) : Except Error Table :=
  match s.load p with
  | .error e => .error (.storage e)
  | .ok text =>
    match Toml.read? text with
    | some t => .ok t
    | none => .error (.unreadable p)

theorem loadTableText {s : Storage} {p : Path} {t : Table} (loaded : loadTable s p = .ok t) :
    ∃ text, s.load p = .ok text ∧ Toml.read? text = some t := by
  unfold loadTable at loaded
  split at loaded
  · cases loaded
  · rename_i text found
    split at loaded
    · rename_i read
      cases loaded
      exact ⟨text, found, read⟩
    · cases loaded

/-- The first of the named files in a listing that holds a configuration. A project file without a
section of its own holds none; a file that cannot be read is an error. -/
def firstOf (s : Storage) (listing : List Storage.Child) :
    List String → Except Error (Option (Path × Table))
  | [] => .ok none
  | name :: rest =>
    match listing.find? (·.name = name) with
    | none => firstOf s listing rest
    | some file =>
      match loadTable s file.path with
      | .error e => .error e
      | .ok t =>
        if name = projectFile then
          match t.ruffSection with
          | some section_ => .ok (some (file.path, section_))
          | none => firstOf s listing rest
        else .ok (some (file.path, t))

def findIn (s : Storage) (directory : Path) : Except Error (Option (Path × Table)) :=
  firstOf s (s.list directory) fileNames

def findAbove (s : Storage) : List Path → Except Error (Option (Path × Table))
  | [] => .ok none
  | d :: rest =>
    match findIn s d with
    | .error e => .error e
    | .ok (some found) => .ok (some found)
    | .ok none => findAbove s rest

def extendKey : String := "extend"

def extendTarget (config : Table) : Option String := (config.get? extendKey).bind Value.string?

def baseTable (p : Path) (t : Table) : Table :=
  if p.fileName.any fun name => projectFile.toList.isSuffixOf name.toList then
    t.ruffSection.getD .empty
  else t

private theorem filterLengthLt {α : Type} {p q : α → Bool} {x : α} {l : List α}
    (weaker : ∀ a, q a = true → p a = true) (mem : x ∈ l) (yes : p x = true) (no : q x = false) :
    (l.filter q).length < (l.filter p).length := by
  induction l with
  | nil => cases mem
  | cons a rest ih =>
    have tail : (rest.filter q).length ≤ (rest.filter p).length := by
      rw [← List.countP_eq_length_filter, ← List.countP_eq_length_filter]
      exact List.countP_mono_left fun a _ => weaker a
    rw [List.filter_cons, List.filter_cons]
    cases mem with
    | head =>
      rw [if_pos yes, no, if_neg Bool.false_ne_true]
      exact Nat.lt_succ_of_le tail
    | tail _ mem =>
      have less := ih mem
      split
      · rename_i kept
        rw [if_pos (weaker a kept)]
        exact Nat.succ_lt_succ less
      · split
        · exact Nat.lt_succ_of_lt less
        · exact less

/-- Texts of a storage that a chain has not come to yet. -/
noncomputable def unvisited (s : Storage) (visited : List (List Component)) : Nat :=
  (s.finite.choose.filter fun key => !visited.contains key).length

theorem unvisitedLt {s : Storage} {visited : List (List Component)} {p : Path} {text : String}
    (fresh : ¬ visited.contains p.components = true) (loaded : s.load p = .ok text) :
    unvisited s (p.components :: visited) < unvisited s visited := by
  refine filterLengthLt ?_ (Storage.loadHeld s s.finite.choose_spec loaded) ?_ ?_
  · intro key
    simp
  · simpa using fresh
  · simp

def followExtends (s : Storage) (visited : List (List Component)) (directory : Path)
    (config : Table) : Except Error (Table × List Path) :=
  match extendTarget config with
  | none => .ok (config, [])
  | some target =>
    let base := (directory.join ⟨target⟩).normalize
    if _seen : visited.contains base.components = true then .error (.extendCycle base)
    else
      match _loaded : loadTable s base with
      | .error e => .error e
      | .ok t =>
        (followExtends s (base.components :: visited) base.directory
          (merge (baseTable base t) (config.erase extendKey))).map fun (final, bases) =>
            (final, base :: bases)
termination_by unvisited s visited
decreasing_by
  obtain ⟨text, loaded, _⟩ := loadTableText _loaded
  exact unvisitedLt _seen loaded

/-- The configuration of a path; without any file, the overrides alone. -/
def resolve (s : Storage) (p : Path) (overrides : Table) : Except Error Resolved :=
  match findAbove s p.parents with
  | .error e => .error e
  | .ok none => .ok ⟨overrides, none, []⟩
  | .ok (some (source, config)) =>
    (followExtends s [source.normalize.components] source.directory
      (merge config overrides)).map fun (final, bases) => ⟨final, some source, bases⟩

end NotebookTidy.Config
