import NotebookTidy.Proofs.Config.Alike
import NotebookTidy.Proofs.Config.Containment
import NotebookTidy.Proofs.Path.Rooted
import NotebookTidy.Proofs.Storage.Placing

/-! Directories far below the root, with one configuration file in the last of them. Whether it is
read hangs on the spelling of the directory, which may be too long for the name behind it. -/
namespace NotebookTidy
open Config Storage Text

def longName : List Char := ['d', 'd', 'd', 'd']

def longEntry : FileName := ⟨String.ofList longName, by decide⟩

theorem longEntryText : longEntry.text = String.ofList longName := rfl

def longTree : Nat → FileTree
  | 0 => .directory
      (.cons .ruffToml (.file (.text "include = []\nexclude = []")) .nil)
  | k + 1 => .directory (.cons longEntry (longTree k) .nil)

/-- A directory as deep as `longTree` is. -/
def deepTree (bottom : Children) : Nat → FileTree
  | 0 => .directory bottom
  | k + 1 => .directory (.cons longEntry (deepTree bottom k) .nil)

/-- A tree in which one configuration file governs a directory at a certain depth. -/
def Deep (tree : FileTree) (k : Nat) : Prop :=
  ∃ cs, tree.get? (List.replicate (k + 1) (String.ofList longName)) = some (.directory cs) ∧
    cs.get? ".ruff.toml" = none ∧
    cs.get? "ruff.toml" = some (.file (.text "include = []\nexclude = []"))

theorem deepGet (bottom : Children) (k : Nat) :
    (deepTree bottom k).get? (List.replicate k (String.ofList longName)) =
      some (.directory bottom) := by
  induction k with
  | zero => rfl
  | succ k ih =>
    simp only [List.replicate_succ, deepTree, FileTree.get?, FileTree.children, Children.get?,
      longEntryText, if_true, Option.bind_some, ih]

theorem deepDeep {bottom : Children} (hidden : bottom.get? ".ruff.toml" = none)
    (governed : bottom.get? "ruff.toml" = some (.file (.text "include = []\nexclude = []")))
    (k : Nat) : Deep (deepTree bottom (k + 1)) k :=
  ⟨bottom, deepGet bottom (k + 1), hidden, governed⟩

theorem longDeep (k : Nat) : Deep (longTree (k + 1)) k := by
  have same (k : Nat) : longTree k = deepTree
      (.cons .ruffToml (.file (.text "include = []\nexclude = []")) .nil) k := by
    induction k with
    | zero => rfl
    | succ k ih => rw [longTree, deepTree, ih]
  rw [same]
  exact deepDeep rfl rfl k

theorem longPlain {k : Nat} : ∀ part ∈ List.replicate k longName, '/' ∉ part := by
  intro part mem
  rw [List.eq_of_mem_replicate mem]
  decide

theorem longEnd (front : List (List Char)) (k : Nat) :
    Path.withoutFillerEnd (front ++ List.replicate (k + 1) longName) =
      front ++ List.replicate (k + 1) longName := by
  have named : Path.isFiller longName = false := by decide
  rw [List.replicate_succ', ← List.append_assoc]
  simp [Path.withoutFillerEnd, named]

theorem longComponents (k : Nat) : (List.replicate k longName).filterMap Path.bodyComponent =
    (List.replicate k (String.ofList longName)).map Component.name := by
  have one : Path.bodyComponent longName = some (.name (String.ofList longName)) := by decide
  rw [List.filterMap_replicate_of_some one, List.map_replicate]

theorem longLength (k : Nat) :
    byteLength (joined ['/'] (List.replicate (k + 1) longName)) = 5 * k + 4 := by
  rw [List.replicate_succ', joinedConcat]
  induction k with
  | zero => rfl
  | succ k ih =>
    rw [List.replicate_succ, List.map_cons, List.flatten_cons, List.append_assoc,
      byteLengthAppend, ih]
    have one : byteLength (longName ++ ['/']) = 5 := by decide
    omega

def longPath (front : List (List Char)) (k : Nat) : Path :=
  Path.rooted (front ++ List.replicate (k + 1) longName)

def longFile (front : List (List Char)) (k : Nat) (name : List Char) : Path :=
  Path.rooted (front ++ List.replicate (k + 1) longName ++ [name])

section spelling

variable {front : List (List Char)} {k : Nat} (plain : ∀ part ∈ front, '/' ∉ part)
variable (blank : front.filterMap Path.bodyComponent = [])
include plain

theorem longParent {name : List Char} (clean : '/' ∉ name) (named : Path.isFiller name = false) :
    (longFile front k name).parent = some (longPath front k) := by
  refine rootedParent ?_ named (longEnd front k)
  simp only [List.forall_mem_append, List.forall_mem_singleton]
  exact ⟨⟨plain, longPlain⟩, clean⟩

theorem longDirectory {name : List Char} (clean : '/' ∉ name)
    (named : Path.isFiller name = false) :
    (longFile front k name).directory = longPath front k := by
  rw [Path.directory, longParent plain clean named]
  rfl

include blank

theorem longPathComponents : (longPath front k).components =
    .root :: (List.replicate (k + 1) (String.ofList longName)).map Component.name := by
  have whole : ∀ part ∈ front ++ List.replicate (k + 1) longName, '/' ∉ part :=
    List.forall_mem_append.mpr ⟨plain, longPlain⟩
  rw [longPath, Path.rooted, Path.componentsFromRoot whole, List.filterMap_append, blank,
    longComponents, List.nil_append]

theorem longPathAbsolute : (longPath front k).isAbsolute = true := by
  rw [Path.absoluteSpelled, longPathComponents plain blank]
  rfl

theorem longCandidate :
    (Candidate.path ⟨longPath front k, "ruff.toml"⟩).components =
      (longPath front k).components ++ [.name "ruff.toml"] ∧
    Disk.resolved ⟨"/"⟩ (Candidate.path ⟨longPath front k, "ruff.toml"⟩) =
      Candidate.path ⟨longPath front k, "ruff.toml"⟩ := by
  have components := candidateComponents (c := ⟨longPath front k, "ruff.toml"⟩)
    (by decide : "ruff.toml" ∈ fileNames)
  refine ⟨components, Disk.resolvedAbsolute ?_ _⟩
  rw [Path.absoluteSpelled, components, longPathComponents plain blank]
  rfl

variable {tree : FileTree} (deep : Deep tree k)
include deep

theorem longPlace (more : List String) :
    tree.place ((longPath front k).components ++ more.map Component.name) =
      (tree.get? (List.replicate (k + 1) (String.ofList longName) ++ more)).map
        (List.replicate (k + 1) (String.ofList longName) ++ more, ·) := by
  have reached : [Component.root].foldlM (FileTree.enter tree) [] = .ok [] := by
    obtain ⟨cs, found, -⟩ := deep
    cases tree with
    | file content => cases found
    | directory top => rfl
  have place := FileTree.placeNames reached rfl (by simp) (by decide)
    (List.replicate (k + 1) (String.ofList longName) ++ more)
  rw [List.map_append, List.nil_append] at place
  rw [longPathComponents plain blank]
  exact place

theorem longListed (short : (longPath front k).Short) :
    (((Disk.storage tree ⟨"/"⟩).list (longPath front k)).find?
        (·.name = ".ruff.toml")).isSome = false ∧
      (((Disk.storage tree ⟨"/"⟩).list (longPath front k)).find?
        (·.name = "ruff.toml")).isSome = true := by
  have absolute := longPathAbsolute plain blank (k := k)
  have place := longPlace plain blank deep []
  obtain ⟨cs, found, hidden, governed⟩ := deep
  rw [List.map_nil, List.append_nil, List.append_nil, found] at place
  have within : (Disk.resolved ⟨"/"⟩ (longPath front k)).Short := by
    rwa [Disk.resolvedAbsolute absolute]
  rw [Disk.listedFind within, Disk.listedFind within, Disk.resolvedAbsolute absolute, place]
  simp [FileTree.children, hidden, governed]

theorem longFirst {name : List Char} (clean : '/' ∉ name) (named : Path.isFiller name = false)
    (short : (longPath front k).Short) :
    firstVerdict (Disk.storage tree ⟨"/"⟩) (candidates (longFile front k name)) =
      some (⟨longPath front k, "ruff.toml"⟩, loadTable (Disk.storage tree ⟨"/"⟩)
        (Candidate.path ⟨longPath front k, "ruff.toml"⟩)) := by
  obtain ⟨absent, present⟩ := longListed plain blank deep short
  have hidden : verdict (Disk.storage tree ⟨"/"⟩) ⟨longPath front k, ".ruff.toml"⟩ = none := by
    refine verdictUnlisted ?_
    rw [← Option.isNone_iff_eq_none, ← Option.isSome_eq_false_iff, absent]
  have decides : verdict (Disk.storage tree ⟨"/"⟩) ⟨longPath front k, "ruff.toml"⟩ =
      some (loadTable (Disk.storage tree ⟨"/"⟩)
        (Candidate.path ⟨longPath front k, "ruff.toml"⟩)) :=
    verdictListed present (by decide : "ruff.toml" ≠ projectFile)
  have row : candidates (longFile front k name) = ⟨longPath front k, ".ruff.toml"⟩ ::
      ⟨longPath front k, "ruff.toml"⟩ :: ⟨longPath front k, projectFile⟩ ::
      candidatesIn (longPath front k).parents := by
    rw [candidates, Path.parentsCons (longParent plain clean named)]
    rfl
  rw [row, verdictCons, verdictCons, hidden, decides]
  rfl

theorem longLoads (short : (Candidate.path ⟨longPath front k, "ruff.toml"⟩).Short) :
    loadTable (Disk.storage tree ⟨"/"⟩) (Candidate.path ⟨longPath front k, "ruff.toml"⟩) =
      .ok (.cons "exclude" (.array .nil) (.cons "include" (.array .nil) .nil)) := by
  obtain ⟨slashless, named⟩ := fileNamePlain (by decide : "ruff.toml" ∈ fileNames)
  obtain ⟨components, resolved⟩ := longCandidate plain blank (k := k)
  have read : Toml.read? "include = []\nexclude = []" =
      some (.cons "exclude" (.array .nil) (.cons "include" (.array .nil) .nil)) := by
    decide +kernel
  have place := longPlace plain blank deep ["ruff.toml"]
  obtain ⟨cs, found, -, governed⟩ := deep
  rw [FileTree.getSnoc, found, Option.bind_some, FileTree.children, governed,
    List.map_singleton] at place
  refine toOptionOk ?_
  rw [Candidate.path] at resolved components short ⊢
  rw [loadTableRead, Disk.loadNamed slashless named (by rwa [resolved]), resolved, components,
    place]
  exact read

omit deep in
theorem longFails (tree : FileTree)
    (long : ¬ (Candidate.path ⟨longPath front k, "ruff.toml"⟩).Short) :
    ∃ e, loadTable (Disk.storage tree ⟨"/"⟩)
      (Candidate.path ⟨longPath front k, "ruff.toml"⟩) = .error e := by
  obtain ⟨-, resolved⟩ := longCandidate plain blank (k := k)
  refine toOptionError ?_
  rw [loadTableRead, Disk.loadLong (by rwa [resolved])]
  rfl

omit plain blank deep in
theorem longEnds {overrides : Table} (own : overrides.get? extendKey = none) :
    extendTarget (merge (.cons "exclude" (.array .nil) (.cons "include" (.array .nil) .nil))
      overrides) = none := by
  rw [extendTarget, merge, getOver, own]
  rfl

variable {name : List Char} (clean : '/' ∉ name) (named : Path.isFiller name = false)
include clean named

theorem longResolved (short : (longPath front k).Short)
    (near : (Candidate.path ⟨longPath front k, "ruff.toml"⟩).Short) {overrides : Table}
    (own : overrides.get? extendKey = none) :
    ∃ r, resolve (Disk.storage tree ⟨"/"⟩) (longFile front k name) overrides = .ok r ∧
      r.config = merge (.cons "exclude" (.array .nil) (.cons "include" (.array .nil) .nil))
        overrides := by
  have first := longFirst plain blank deep clean named short
  rw [longLoads plain blank deep near] at first
  exact ⟨_, resolveAlone (diskJoined tree ⟨"/"⟩) first (longEnds own), rfl⟩

theorem longUnresolved (short : (longPath front k).Short)
    (far : ¬ (Candidate.path ⟨longPath front k, "ruff.toml"⟩).Short) (overrides : Table) :
    ∃ e, resolve (Disk.storage tree ⟨"/"⟩) (longFile front k name) overrides = .error e := by
  have first := longFirst plain blank deep clean named short
  obtain ⟨e, failed⟩ := longFails plain blank tree far
  rw [failed] at first
  exact ⟨e, resolveRefused (diskJoined tree ⟨"/"⟩) first⟩

end spelling

theorem longCandidateLength (front : List (List Char)) (k : Nat) :
    byteLength (Candidate.path ⟨longPath front k, "ruff.toml"⟩).text.toList =
      byteLength (longPath front k).text.toList + 10 := by
  have relative : Path.isAbsolute ⟨"ruff.toml"⟩ = false := by decide
  have ends : (longPath front k).text.toList.getLast? = some 'd' := by
    rw [longPath, Path.rooted, String.toList_ofList, List.replicate_succ', ← List.append_assoc,
      joinedConcat, longName]
    simp [List.getLast?_cons]
  have own : byteLength "/".toList + byteLength "ruff.toml".toList = 10 := by decide
  rw [Candidate.path, Path.joinText relative, ends, Option.any_some, if_pos (by decide)]
  simp only [String.toList_append, byteLengthAppend]
  omega

theorem longPathLength (k : Nat) :
    byteLength (longPath [] k).text.toList = 5 * k + 5 ∧
      byteLength (longPath [[]] k).text.toList = 5 * k + 6 := by
  have slash : '/'.utf8Size = 1 := by decide
  have length := longLength k
  have again : joined ['/'] ([] :: List.replicate (k + 1) longName) =
      '/' :: joined ['/'] (List.replicate (k + 1) longName) := by
    rw [List.replicate_succ]
    rfl
  constructor
  · rw [longPath, Path.rooted, String.toList_ofList, List.nil_append, byteLengthCons, length]
    omega
  · rw [longPath, Path.rooted, String.toList_ofList, List.singleton_append, again, byteLengthCons,
      byteLengthCons, length]
    omega

/-! Files in such a directory -/

theorem orderShared {shared : List Component} (same : ∀ c ∈ shared, c.order c = .eq)
    (x y : Component) : Path.order.go (shared ++ [x]) (shared ++ [y]) = x.order y := by
  induction shared with
  | nil =>
    rw [List.nil_append, List.nil_append, Path.order.go, Path.order.go]
    cases x.order y <;> rfl
  | cons c rest ih =>
    obtain ⟨here, more⟩ := List.forall_mem_cons.mp same
    rw [List.cons_append, List.cons_append, Path.order.go, here, ih more]
    rfl

section long

variable {front : List (List Char)} {k : Nat} (start : front = [] ∨ front = [[]])
variable {name : List Char} (naming : Path.Naming name)

def longPlaceOf (k : Nat) (name : List Char) : List String :=
  List.replicate (k + 1) (String.ofList longName) ++ [String.ofList name]

include naming in
theorem longNaming : ∀ piece ∈ List.replicate (k + 1) longName ++ [name], Path.Naming piece := by
  refine List.forall_mem_append.mpr ⟨fun piece mem => ?_, List.forall_mem_singleton.mpr naming⟩
  rw [List.eq_of_mem_replicate mem]
  exact ⟨by decide, by decide, by decide⟩

include start naming

theorem longFileComponents : (longFile front k name).components =
    .root :: (longPlaceOf k name).map Component.name := by
  rw [longFile, List.append_assoc, rootedComponents start (longNaming naming), longPlaceOf]
  simp

theorem longFileAbsolute (current : Path) :
    (longFile front k name).absolute current = some (longFile front k name) := by
  rw [longFile, List.append_assoc]
  exact rootedAbsolute start (longNaming (k := k) naming) current

theorem longFileFound {tree : FileTree} (deep : Deep tree k)
    (short : (longFile front k name).Short) {content : FileContent}
    (held : tree.get? (longPlaceOf k name) = some (.file content)) :
    tree.find (longFile front k name) = .ok (longPlaceOf k name, .file content) := by
  have plain : ∀ part ∈ front, '/' ∉ part := by rcases start with rfl | rfl <;> simp
  have blank : front.filterMap Path.bodyComponent = [] := by rcases start with rfl | rfl <;> rfl
  have place := longPlace plain blank deep [String.ofList name]
  rw [longPathComponents plain blank] at place
  have whole : (longFile front k name).components =
      .root :: (List.replicate (k + 1) (String.ofList longName)).map Component.name ++
        [String.ofList name].map Component.name := by
    rw [longFileComponents start naming, longPlaceOf, List.map_append]
    rfl
  have spelled : FileTree.spellsDirectory (longFile front k name) = false := by
    refine Disk.directoryPieces ?_ naming.body
    rw [longFile, rootedPieces (by simp), ← List.cons_append, List.getLast?_concat]
    rw [List.append_assoc]
    exact List.forall_mem_append.mpr
      ⟨plain, fun piece mem => (longNaming (k := k) naming piece mem).plain⟩
  refine toOptionOk ?_
  rw [FileTree.findPlace short, whole, place]
  rw [longPlaceOf] at held
  rw [held, Option.map_some, Option.filter_some, spelled]
  rfl

end long

theorem longOrder {name other : List Char} (naming : Path.Naming name)
    (naming' : Path.Naming other) (k : Nat) :
    (longFile [] k name).order (longFile [[]] k other) =
      Component.order (.name (String.ofList name)) (.name (String.ofList other)) := by
  have shared : ∀ c ∈ Component.root ::
      List.replicate (k + 1) (Component.name (String.ofList longName)), c.order c = .eq := by
    refine List.forall_mem_cons.mpr ⟨by decide, fun c mem => ?_⟩
    rw [List.eq_of_mem_replicate mem]
    decide
  rw [Path.order, longFileComponents (.inl rfl) naming, longFileComponents (.inr rfl) naming',
    longPlaceOf, longPlaceOf, List.map_append, List.map_append, List.map_replicate]
  exact orderShared shared _ _

theorem longFileLength (front : List (List Char)) (k : Nat) (name : List Char) :
    byteLength (longFile front k name).text.toList =
      byteLength (longPath front k).text.toList + byteLength name + 1 := by
  have slash : '/'.utf8Size = 1 := by decide
  rw [longFile, rootedSnoc (by simp), longPath, Text.byteLengthAppend, Text.byteLengthCons]
  omega

end NotebookTidy
