import NotebookTidy.Proofs.Config.Containment
import NotebookTidy.Proofs.Storage.Mirrored
import NotebookTidy.Proofs.Workspace.Uniform

/-! Resolution over a memory and over a disk that hold the same texts. Both come to the same, as
long as the disk does not refuse a path for its length under which the memory holds something. -/
namespace NotebookTidy.Config
open Storage (Memory FileTree Children Disk.storage Disk.resolved)
open Text (joined)

/-- The resolution asks the disk for no path that is too long for it where the memory has an answer:
something at or below the place of a configuration file, or a base. -/
structure Reachable (m : Memory) (root p : Path) (overrides : Table) : Prop where
  places : ∀ c ∈ candidates p, m.Holds c.path.components → (Disk.resolved root c.path).Short
  bases : ∀ q, Visited m.storage p overrides q → m.get? q ≠ none → (Disk.resolved root q).Short

theorem visitedNormal {s : Storage} {p q : Path} {overrides : Table}
    (visited : Visited s p overrides q) : ∃ t : Path, q = t.normalize := by
  obtain ⟨source, own, files, last, -, -, -, names⟩ := visited
  obtain ⟨target, -, rfl⟩ := Option.map_eq_some_iff.mp names
  exact ⟨_, rfl⟩

section both

variable {m : Memory} {tree : FileTree} {root : Path} {at_ : List String} {cs : Children}
variable (rooted : tree.find root = .ok (at_, .directory cs))
variable (mirrored : m.Mirrored (.directory cs))
include rooted mirrored

theorem candidateBoth {c : Candidate} (known : c.name ∈ fileNames)
    (named : ∀ d ∈ c.directory.components, ∃ name, d = .name name)
    (short : m.Holds c.path.components → (Disk.resolved root c.path).Short) :
    c.Alike Eq m.storage (Disk.storage tree root) c := by
  obtain ⟨plain, proper⟩ := fileNamePlain known
  refine ⟨rfl, verdictAlike rfl ?_ fun _ => ?_⟩
  · exact Storage.listedBoth rooted mirrored named known plain proper short
  · have inside : ∀ d ∈ c.path.components, ∃ name, d = .name name := by
      rw [candidateComponents known, List.forall_mem_append, List.forall_mem_singleton]
      exact ⟨named, c.name, rfl⟩
    have file : FileTree.spellsDirectory c.path = false := by
      rw [Candidate.path, Storage.Disk.directoryJoin, Storage.Disk.directoryName plain proper]
    rw [loadTableRead, loadTableRead,
      Storage.loadBoth rooted mirrored inside (fun _ => file)
        fun stored => short (Memory.getHeld stored)]

theorem baseBoth {t : Path} (relative : t.normalize.isAbsolute = false)
    (within : t.normalize.components.head? ≠ some .up)
    (short : m.get? t.normalize ≠ none → (Disk.resolved root t.normalize).Short) :
    (loadTable m.storage t.normalize).toOption =
      (loadTable (Disk.storage tree root) t.normalize).toOption := by
  have named : ∀ c ∈ t.normalize.components, ∃ name, c = .name name := by
    have unrooted := mt (Path.absoluteSpelled t.normalize).mpr (Bool.not_eq_true _ ▸ relative)
    rw [Path.normalizeComponents] at within unrooted ⊢
    exact (Path.normalNamed t).resolve_left (not_or.mpr ⟨unrooted, within⟩)
  have file (filled : t.normalize.components ≠ []) :
      FileTree.spellsDirectory t.normalize = false := by
    obtain ⟨names, spelled⟩ := Memory.namesOf named
    refine Storage.Disk.directoryNormal spelled fun nothing => filled ?_
    rw [spelled, nothing]
    rfl
  rw [loadTableRead, loadTableRead, Storage.loadBoth rooted mirrored named file short]

end both

/-- A memory and a disk that hold the same texts give every document the same configuration, with
the same source and the same bases, or both give it none. -/
theorem backendsAgree {m : Memory} {tree : FileTree} {root p : Path} {at_ : List String}
    {cs : Children} {overrides : Table} (rooted : tree.find root = .ok (at_, .directory cs))
    (mirrored : m.Mirrored (.directory cs)) (document : ∀ c ∈ p.components, ∃ name, c = .name name)
    (inside : ∀ q, Visited m.storage p overrides q →
      q.isAbsolute = false ∧ q.components.head? ≠ some .up)
    (reachable : Reachable m root p overrides) :
    (resolve m.storage p overrides).toOption =
      (resolve (Disk.storage tree root) p overrides).toOption := by
  have rows : List.Forall₂ (Candidate.Alike Eq m.storage (Disk.storage tree root)) (candidates p)
      (candidates p) := by
    refine List.forall₂_same.mpr fun c mem => ?_
    obtain ⟨above, known⟩ := candidateNamed mem
    refine candidateBoth rooted mirrored known (fun d within => ?_)
      (reachable.places c mem)
    have below := (Path.parentsAbove above).trans (List.dropLast_prefix _)
    exact document d (below.subset within)
  refine alikeSame (resolveAlike (memoryJoined m) (diskJoined tree root)
    (fun a b same => congrArg Path.components same) rows fun q visited => ?_)
  obtain ⟨relative, within⟩ := inside q visited
  have short := reachable.bases q visited
  obtain ⟨t, rfl⟩ := visitedNormal visited
  exact baseBoth rooted mirrored relative within short

def nestedTree : FileTree :=
  .directory (.cons ⟨"b.toml", by decide⟩ (.file (.text "x = 1"))
    (.cons .d (.directory
      (.cons .ruffToml (.file (.text "extend = \"../b.toml\"")) .nil)) .nil))

theorem nestedMirrored : nestedMemory.Mirrored nestedTree :=
  Memory.mirroredNodes (by decide) (by decide)

theorem backendsAgreeNested :
    resolve (Disk.storage nestedTree ⟨"/"⟩) ⟨"d/x.py"⟩ (.cons "y" (.integer 2) .nil) =
      .ok ⟨.cons "x" (.integer 1) (.cons "y" (.integer 2) .nil), some ⟨"d/ruff.toml"⟩,
        [⟨"b.toml"⟩]⟩ := by
  have next : (Declaration.ofConfig (Path.directory ⟨"d/ruff.toml"⟩)
      (merge (.cons "extend" (.string "../b.toml") .nil)
        (.cons "y" (.integer 2) .nil))).next? = some ⟨"b.toml"⟩ := by decide +kernel
  have only := fun q => nestedVisited next (q := q)
  have reachable : Reachable nestedMemory ⟨"/"⟩ ⟨"d/x.py"⟩ (.cons "y" (.integer 2) .nil) := by
    constructor
    · have places : ∀ c ∈ candidates ⟨"d/x.py"⟩, (Disk.resolved ⟨"/"⟩ c.path).Short := by
        rw [nestedRow]
        unfold Path.Short
        decide
      exact fun c mem _ => places c mem
    · intro q visited _
      rw [only q visited]
      unfold Path.Short
      decide
  have document : ∀ c ∈ Path.components ⟨"d/x.py"⟩, ∃ name, c = .name name := by
    have whole : Path.components ⟨"d/x.py"⟩ = [.name "d", .name "x.py"] := by decide
    simp [whole]
  have inside : ∀ q, Visited nestedMemory.storage ⟨"d/x.py"⟩ (.cons "y" (.integer 2) .nil) q →
      q.isAbsolute = false ∧ q.components.head? ≠ some .up := by
    intro q visited
    rw [only q visited]
    decide
  have same := backendsAgree (rfl : nestedTree.find ⟨"/"⟩ = .ok ([], nestedTree))
    nestedMirrored document inside reachable
  rw [nestedResolved] at same
  exact toOptionOk same.symm

/-! A directory that is spelled with too many separators -/

def slashedMemory : Memory := Memory.empty.insert ⟨"a/b/ruff.toml"⟩ "x = 1"

def slashedTree : FileTree :=
  .directory (.cons .a (.directory (.cons ⟨"b", by decide⟩ (.directory
    (.cons .ruffToml (.file (.text "x = 1")) .nil)) .nil)) .nil)

def slashed (n : Nat) (names : List (List Char)) : Path :=
  ⟨String.ofList (joined ['/'] (['a'] :: (List.replicate n [] ++ names)))⟩

theorem slashedMirrored : slashedMemory.Mirrored slashedTree :=
  Memory.mirroredNodes (by decide) (by decide)

section slashed

variable {n : Nat} {names : List (List Char)} (plain : ∀ name ∈ names, '/' ∉ name)
include plain

theorem slashedPlain : ∀ part ∈ ['a'] :: (List.replicate n [] ++ names), '/' ∉ part := by
  simp only [List.forall_mem_cons, List.forall_mem_append, List.mem_replicate]
  refine ⟨by decide, ?_, plain⟩
  rintro part ⟨-, rfl⟩
  exact List.not_mem_nil

theorem slashedComponents : (slashed n names).components =
    .name "a" :: names.filterMap Path.bodyComponent := by
  have first : Path.bodyComponent ['a'] = some (.name "a") := by decide
  have blank : (List.replicate n []).filterMap Path.bodyComponent = [] :=
    List.filterMap_replicate_of_none rfl
  rw [slashed, Path.componentsPlain (slashedPlain plain) (by simp), List.filterMap_cons_some first,
    List.filterMap_append, blank, List.nil_append]

end slashed

theorem slashedParents (n : Nat) : (slashed n [['b'], "x.py".toList]).parents =
    slashed n [['b']] :: (slashed n [['b']]).parents := by
  have plain : ∀ part ∈ ['a'] :: (List.replicate n [] ++ [['b'], "x.py".toList]), '/' ∉ part :=
    slashedPlain (by decide)
  have whole : ['a'] :: (List.replicate n [] ++ [['b'], "x.py".toList]) =
      (['a'] :: (List.replicate n [] ++ [['b']])) ++ ["x.py".toList] := by simp
  have named : Path.isFiller ['b'] = false := by decide
  rw [whole] at plain
  refine Path.parentsCons ?_
  rw [slashed, whole]
  refine Path.parentPlain plain (by decide) (by decide) (by decide) ?_
  simp [Path.withoutFillerEnd, named]

theorem slashedRow (n : Nat) : candidates (slashed n [['b'], "x.py".toList]) =
    [⟨slashed n [['b']], ".ruff.toml"⟩] ++ ⟨slashed n [['b']], "ruff.toml"⟩ ::
      ⟨slashed n [['b']], projectFile⟩ :: candidatesIn (slashed n [['b']]).parents := by
  rw [candidates, slashedParents]
  rfl

theorem slashedDirectory (n : Nat) :
    (slashed n [['b']]).components = [.name "a", .name "b"] := by
  rw [slashedComponents (by decide)]
  decide

theorem slashedStored (n : Nat) :
    resolve slashedMemory.storage (slashed n [['b'], "x.py".toList]) .nil =
      .ok ⟨.cons "x" (.integer 1) .nil,
        some (Candidate.path ⟨slashed n [['b']], "ruff.toml"⟩), []⟩ := by
  have components := slashedDirectory n
  have read : Toml.read? "x = 1" = some (.cons "x" (.integer 1) .nil) := by decide +kernel
  have free : slashedMemory.get? (slashed n [['b']]) = none := by
    rw [Memory.get?, components]
    decide
  have stored : slashedMemory.get? (Candidate.path ⟨slashed n [['b']], "ruff.toml"⟩) =
      some "x = 1" := by
    rw [Memory.get?, candidateComponents (by decide : "ruff.toml" ∈ fileNames), components]
    rfl
  have missing : ¬ ∃ f ∈ slashedMemory.files,
      (slashed n [['b']]).components ++ [.name ".ruff.toml"] <+: f.1 := by
    rw [components]
    decide
  rw [resolveStored (slashedRow n) (List.forall_mem_singleton.mpr missing)
    (by decide : "ruff.toml" ≠ projectFile) free stored read (by decide)]
  rfl

theorem slashedLong {n : Nat} (many : FileTree.pathLimit ≤ n) :
    ¬ (Disk.resolved ⟨"/"⟩ (slashed n [['b']])).Short := by
  have own : n ≤ (slashed n [['b']]).text.toList.length := by
    rw [slashed, String.toList_ofList, ← List.cons_append, Text.joinedConcat]
    simp
    omega
  have bytes := Text.lengthLeByteLength (slashed n [['b']]).text.toList
  have longer := Storage.Disk.byteLengthResolved ⟨"/"⟩ (slashed n [['b']])
  unfold Path.Short
  omega

theorem slashedUnlisted {n : Nat} (many : FileTree.pathLimit ≤ n) {d : Path}
    (above : d ∈ (slashed n [['b'], "x.py".toList]).parents) {name : String}
    (known : name ∈ fileNames) :
    ((Disk.storage slashedTree ⟨"/"⟩).list d).find? (·.name = name) = none := by
  have rooted : slashedTree.find ⟨"/"⟩ = .ok ([], slashedTree) := rfl
  have missing : ∀ name ∈ fileNames, slashedTree.get? ([] ++ [name]) = none ∧
      slashedTree.get? (["a"] ++ [name]) = none := by decide
  rw [slashedParents] at above
  rcases List.mem_cons.mp above with rfl | further
  · rw [Storage.Disk.listLong (slashedLong many)]
    rfl
  · have outer := Path.parentsAbove further
    rw [slashedDirectory] at outer
    rcases List.prefix_cons_iff.mp outer with top | ⟨rest, spelled, inner⟩
    · have spelled : d.components = [].map Component.name := top
      exact Storage.Disk.unlistedBelow rooted spelled (missing name known).1
    · have spelled : d.components = ["a"].map Component.name := by
        rw [spelled, List.prefix_nil.mp inner]
        rfl
      exact Storage.Disk.unlistedBelow rooted spelled (missing name known).2

theorem slashedPassed {n : Nat} (many : FileTree.pathLimit ≤ n) :
    resolve (Disk.storage slashedTree ⟨"/"⟩) (slashed n [['b'], "x.py".toList]) .nil =
      .ok ⟨.nil, none, []⟩ := by
  refine resolveUndecided (diskJoined slashedTree _)
    (List.findSome?_eq_none_iff.mpr fun c mem => ?_)
  obtain ⟨above, known⟩ := candidateNamed mem
  rw [verdictUnlisted (slashedUnlisted many above known)]
  rfl

theorem slashedDocument (n : Nat) :
    ∀ c ∈ (slashed n [['b'], "x.py".toList]).components, ∃ name, c = .name name := by
  have whole : [['b'], "x.py".toList].filterMap Path.bodyComponent =
      [.name "b", .name "x.py"] := by decide
  rw [slashedComponents (by decide), whole]
  simp

/-- On a disk a path that is spelled too long has no configuration; in memory it has one. -/
theorem spellingUnread :
    slashedTree.find ⟨"/"⟩ = .ok ([], slashedTree) ∧ slashedMemory.Mirrored slashedTree ∧
    (∀ c ∈ (slashed 5000 [['b'], "x.py".toList]).components, ∃ name, c = .name name) ∧
    (∀ q, Visited slashedMemory.storage (slashed 5000 [['b'], "x.py".toList]) .nil q →
      q.isAbsolute = false ∧ q.components.head? ≠ some .up) ∧
    (resolve slashedMemory.storage (slashed 5000 [['b'], "x.py".toList]) .nil).toOption ≠
      (resolve (Disk.storage slashedTree ⟨"/"⟩) (slashed 5000 [['b'], "x.py".toList])
        .nil).toOption := by
  refine ⟨rfl, slashedMirrored, slashedDocument 5000,
    fun q visited => absurd visited (visitedNone (slashedStored 5000) rfl), ?_⟩
  rw [slashedStored, slashedPassed (by decide)]
  simp [Except.toOption]

end NotebookTidy.Config
