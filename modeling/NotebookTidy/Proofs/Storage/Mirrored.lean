import NotebookTidy.Config.Resolution
import NotebookTidy.Proofs.Storage.Listing
import NotebookTidy.Proofs.Storage.Placing

/-! A memory and a directory on a disk that hold the same texts. What is stored in one of the two
under a path of names is found in the other, as long as the disk does not refuse the path for its
length. -/
namespace NotebookTidy.Storage

namespace Memory

/-- A text lies at the components or below them. -/
def Holds (m : Memory) (cs : List Component) : Prop := ∃ f ∈ m.files, cs <+: f.1

/-- The texts of the memory are in the directory, each under its own names, and there is no other
file. There may be more directories, but one that has the name of a configuration file has a text
below it. -/
structure Mirrored (m : Memory) (below : FileTree) : Prop where
  named : ∀ f ∈ m.files, ∀ c ∈ f.1, ∃ name, c = .name name
  texts : ∀ names text, m.files.lookup (names.map Component.name) = some text ↔
    below.get? names = some (.file (.text text))
  textual : ∀ names bytes, below.get? names ≠ some (.file (.binary bytes))
  filled : ∀ names cs, below.get? names = some (.directory cs) →
    (∃ name ∈ names.getLast?, name ∈ Config.fileNames) → m.Holds (names.map Component.name)

theorem namesOf {cs : List Component} (named : ∀ c ∈ cs, ∃ name, c = .name name) :
    ∃ names : List String, cs = names.map Component.name := by
  induction cs with
  | nil => exact ⟨[], rfl⟩
  | cons c rest ih =>
    obtain ⟨⟨name, rfl⟩, others⟩ := List.forall_mem_cons.mp named
    obtain ⟨names, rfl⟩ := ih others
    exact ⟨name :: names, rfl⟩

theorem namesInjective : Function.Injective (List.map Component.name) :=
  List.map_injective_iff.mpr fun _ _ => Component.name.inj

theorem getHeld {m : Memory} {p : Path} (stored : m.get? p ≠ none) : m.Holds p.components := by
  obtain ⟨f, mem, same⟩ := Texts.keyHeld.mpr stored
  exact ⟨f, mem, same ▸ List.prefix_refl _⟩

section mirrored

variable {m : Memory} {below : FileTree} (mirrored : m.Mirrored below)
include mirrored

theorem textMirrored (names : List String) :
    m.files.lookup (names.map Component.name) = (below.get? names).bind FileTree.text? := by
  refine Option.ext fun text => ?_
  rw [mirrored.texts, Option.bind_eq_some_iff]
  constructor
  · exact fun at_ => ⟨_, at_, rfl⟩
  · rintro ⟨node, at_, is⟩
    cases node with
    | directory cs => cases is
    | file content =>
      cases content with
      | binary bytes => cases is
      | text t =>
        cases is
        exact at_

theorem heldMirrored {names : List String} (held : m.Holds (names.map Component.name)) :
    (below.get? names).isSome = true := by
  obtain ⟨f, mem, more, whole⟩ := held
  obtain ⟨keys, spelled⟩ := namesOf (mirrored.named f mem)
  obtain ⟨front, rest, rfl, same, -⟩ := List.map_eq_append_iff.mp (spelled.symm.trans whole.symm)
  cases namesInjective same
  obtain ⟨text, stored⟩ := Option.ne_none_iff_exists'.mp (Texts.keyHeld.mp ⟨f, mem, spelled⟩)
  have there := (mirrored.texts _ _).mp stored
  rw [FileTree.getAppend] at there
  obtain ⟨node, at_, -⟩ := Option.bind_eq_some_iff.mp there
  rw [at_]
  rfl

theorem heldIff {names : List String} {name : String} (known : name ∈ Config.fileNames) :
    m.Holds ((names ++ [name]).map Component.name) ↔
      (below.get? (names ++ [name])).isSome = true := by
  refine ⟨heldMirrored mirrored, fun there => ?_⟩
  obtain ⟨node, at_⟩ := Option.isSome_iff_exists.mp there
  cases node with
  | directory cs => exact mirrored.filled _ cs at_ ⟨name, List.getLast?_concat, known⟩
  | file content =>
    cases content with
    | binary bytes => exact absurd at_ (mirrored.textual _ bytes)
    | text t =>
      have stored := (mirrored.texts _ _).mpr at_
      obtain ⟨f, mem, same⟩ := Texts.keyHeld.mpr (stored ▸ Option.some_ne_none t)
      exact ⟨f, mem, same ▸ List.prefix_refl _⟩

theorem listedMirrored {d : Path} {names : List String} {name : String}
    (spelled : d.components = names.map Component.name) (known : name ∈ Config.fileNames)
    (plain : '/' ∉ name.toList) (proper : name ≠ "" ∧ name ≠ "." ∧ name ≠ "..") :
    ((m.storage.list d).find? (·.name = name)).isSome = (below.get? (names ++ [name])).isSome := by
  have listing := findListed m d plain proper
  have key : d.components ++ [.name name] = (names ++ [name]).map Component.name := by
    rw [spelled, List.map_append, List.map_singleton]
  have held : m.Holds ((names ++ [name]).map Component.name) ↔ _ := heldIff mirrored known
  rw [listing, key, Bool.eq_iff_iff, ← held]
  -- A text at the directory itself would leave nothing below it.
  have free (there : m.Holds ((names ++ [name]).map Component.name)) : m.get? d = none := by
    rw [get?, Texts.get?, spelled, textMirrored mirrored]
    have inside := held.mp there
    rw [FileTree.getSnoc] at inside
    cases at_ : below.get? names with
    | none => rfl
    | some node =>
      cases node with
      | directory cs => rfl
      | file content =>
        rw [at_] at inside
        cases inside
  split
  · rename_i both
    exact iff_of_true rfl both.2
  · rename_i neither
    exact iff_of_false Bool.false_ne_true fun there => neither ⟨free there, there⟩

end mirrored

theorem mirroredNodes {m : Memory} {below : FileTree}
    (stored : ∀ f ∈ m.files, ∃ e ∈ below.nodes,
      f.1 = e.1.map Component.name ∧ below.get? e.1 = some (.file (.text f.2)))
    (seen : ∀ e ∈ below.nodes,
      (e.2.isDirectory = true ∧ e.1.getLast?.all (· ∉ Config.fileNames) = true) ∨
        (e.2.text?.isSome = true ∧ m.files.lookup (e.1.map Component.name) = e.2.text?)) :
    m.Mirrored below where
  named f mem c within := by
    obtain ⟨e, -, key, -⟩ := stored f mem
    rw [key] at within
    obtain ⟨name, -, rfl⟩ := List.mem_map.mp within
    exact ⟨name, rfl⟩
  texts names text := by
    constructor
    · intro found
      obtain ⟨before, after, whole, -⟩ := List.lookup_eq_some_iff.mp found
      obtain ⟨e, -, key, at_⟩ := stored _ (whole ▸ List.mem_append_right _ List.mem_cons_self)
      cases namesInjective key
      exact at_
    · intro at_
      rcases seen _ (FileTree.getNode at_) with ⟨directory, -⟩ | ⟨-, same⟩
      · cases directory
      · exact same
  textual names bytes at_ := by
    rcases seen _ (FileTree.getNode at_) with ⟨directory, -⟩ | ⟨text, -⟩
    · cases directory
    · cases text
  filled names cs at_ known := by
    obtain ⟨name, last, known⟩ := known
    rcases seen _ (FileTree.getNode at_) with ⟨-, other⟩ | ⟨text, -⟩
    · rw [Option.mem_def.mp last] at other
      simp [known] at other
    · cases text

end Memory

section both

variable {m : Memory} {tree : FileTree} {root : Path} {at_ : List String} {cs : Children}
variable (rooted : tree.find root = .ok (at_, .directory cs))
variable (mirrored : m.Mirrored (.directory cs))
include rooted mirrored

theorem listedBoth {d : Path} {name : String}
    (named : ∀ c ∈ d.components, ∃ name, c = .name name) (known : name ∈ Config.fileNames)
    (plain : '/' ∉ name.toList) (proper : name ≠ "" ∧ name ≠ "." ∧ name ≠ "..")
    (short : m.Holds (d.join ⟨name⟩).components → (Disk.resolved root (d.join ⟨name⟩)).Short) :
    ((m.storage.list d).find? (·.name = name)).isSome =
      (((Disk.storage tree root).list d).find? (·.name = name)).isSome := by
  obtain ⟨names, spelled⟩ := Memory.namesOf named
  have memory := Memory.listedMirrored mirrored spelled known plain proper
  by_cases reach : (Disk.resolved root d).Short
  · rw [memory, Disk.listedBelow rooted reach spelled]
  · have key : (d.join ⟨name⟩).components = (names ++ [name]).map Component.name := by
      rw [Path.joinName d plain proper, spelled, List.map_append, List.map_singleton]
    have free : ¬ m.Holds (d.join ⟨name⟩).components :=
      fun held => reach (Disk.shortAbove plain proper.1 (short held))
    rw [key, Memory.heldIff mirrored known, ← memory] at free
    rw [Disk.listLong reach]
    simpa using free

theorem loadBoth {p : Path} (named : ∀ c ∈ p.components, ∃ name, c = .name name)
    (file : p.components ≠ [] → FileTree.spellsDirectory p = false)
    (short : m.get? p ≠ none → (Disk.resolved root p).Short) :
    (m.storage.load p).toOption = ((Disk.storage tree root).load p).toOption := by
  obtain ⟨names, spelled⟩ := Memory.namesOf named
  have memory := Memory.textMirrored mirrored names
  rw [Memory.loadMemory]
  by_cases reach : (Disk.resolved root p).Short
  · have some_ : names ≠ [] → p.components ≠ [] := by simp [spelled]
    rw [Memory.get?, Texts.get?, spelled, memory,
      Disk.loadBelow rooted reach spelled fun filled => file (some_ filled)]
  · rw [Disk.loadLong reach]
    exact not_not.mp (mt short reach)

end both

end NotebookTidy.Storage
