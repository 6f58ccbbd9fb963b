import NotebookTidy.Proofs.Path.Spelling
import NotebookTidy.Storage.Disk

/-! What is found of a path in a tree of files, told by the components of the path. Beside them only
the length of the spelling counts, and for a file whether the spelling ends as one of a directory.
So two spellings list and load the same, as long as neither of them is too long. -/
namespace NotebookTidy

/-- Within the limit to the length of a path. -/
def Path.Short (p : Path) : Prop := Text.byteLength p.text.toList < Storage.FileTree.pathLimit

namespace Storage
open Text (byteLength)

namespace FileTree

/-- Where components lead in a tree. No path without components leads anywhere, nor one with a NUL
in a name. -/
def place (root : FileTree) (cs : List Component) : Option (List String × FileTree) :=
  if cs = [] ∨ ∃ c ∈ cs, '\x00' ∈ c.text.toList then none
  else (cs.foldlM (enter root) []).toOption.bind fun names => (root.get? names).map (names, ·)

def text? : FileTree → Option String
  | .file (.text t) => some t
  | _ => none

mutual
def nodes : FileTree → List (List String × FileTree)
  | .file content => [([], .file content)]
  | .directory cs => ([], .directory cs) :: inner cs
def inner : Children → List (List String × FileTree)
  | .nil => []
  | .cons name tree rest => (nodes tree).map (fun e => (name.text :: e.1, e.2)) ++ inner rest
end

theorem innerNode {cs : Children} {name : String} {tree : FileTree} {e : List String × FileTree}
    (found : cs.get? name = some tree) (mem : e ∈ tree.nodes) : (name :: e.1, e.2) ∈ inner cs := by
  match cs with
  | .nil => cases found
  | .cons n first rest =>
    rw [Children.get?] at found
    rw [inner]
    split at found
    · rename_i same
      cases found
      subst same
      exact List.mem_append_left _ (List.mem_map.mpr ⟨e, mem, rfl⟩)
    · exact List.mem_append_right _ (innerNode found mem)

theorem getNode {tree node : FileTree} {names : List String} (found : tree.get? names = some node) :
    (names, node) ∈ tree.nodes := by
  induction names generalizing tree with
  | nil =>
    cases found
    cases node <;> exact List.mem_cons_self
  | cons name rest ih =>
    obtain ⟨next, inside, further⟩ := Option.bind_eq_some_iff.mp found
    cases tree with
    | file content => cases inside
    | directory cs => exact List.mem_cons_of_mem _ (innerNode inside (ih further))

theorem placeReached {root node : FileTree} {cs : List Component} {names : List String}
    (found : root.place cs = some (names, node)) : cs ≠ [] ∧ (∀ c ∈ cs, '\x00' ∉ c.text.toList) ∧
      cs.foldlM (enter root) [] = .ok names ∧ root.get? names = some node := by
  unfold place at found
  split at found
  · cases found
  · rename_i usable
    obtain ⟨filled, plain⟩ := not_or.mp usable
    obtain ⟨reached, entered, found⟩ := Option.bind_eq_some_iff.mp found
    obtain ⟨there, at_, same⟩ := Option.map_eq_some_iff.mp found
    cases same
    refine ⟨filled, fun c mem nul => plain ⟨c, mem, nul⟩, ?_, at_⟩
    cases ends : cs.foldlM (enter root) [] with
    | error e =>
      rw [ends] at entered
      cases entered
    | ok names =>
      rw [ends] at entered
      exact congrArg _ (Option.some.inj entered)

theorem getAppend (root : FileTree) (names more : List String) :
    root.get? (names ++ more) = (root.get? names).bind (·.get? more) := by
  induction names generalizing root with
  | nil => rfl
  | cons name rest ih =>
    rw [List.cons_append, get?, get?]
    cases root.children.get? name with
    | none => rfl
    | some inner => exact ih inner

theorem getSnoc (root : FileTree) (names : List String) (name : String) :
    root.get? (names ++ [name]) = (root.get? names).bind fun node => node.children.get? name := by
  have one (node : FileTree) : node.get? [name] = node.children.get? name := by
    rw [get?]
    cases node.children.get? name <;> rfl
  rw [getAppend]
  exact congrArg _ (funext one)

theorem getEntry {cs : Children} {name : String} {node : FileTree}
    (found : cs.get? name = some node) : ∃ entry : FileName, entry.text = name ∧
      (entry, node) ∈ cs.toList := by
  match cs with
  | .nil => cases found
  | .cons n tree rest =>
    rw [Children.get?] at found
    split at found
    · rename_i same
      cases found
      exact ⟨n, same, List.mem_cons_self⟩
    · obtain ⟨entry, same, mem⟩ := getEntry found
      exact ⟨entry, same, List.mem_cons_of_mem _ mem⟩

theorem getNameable {cs : Children} {name : String} {node : FileTree}
    (found : cs.get? name = some node) : Nameable name := by
  obtain ⟨entry, rfl, -⟩ := getEntry found
  exact entry.nameable

section names

variable {root : FileTree}

theorem enterNames {base : List String} (there : (root.get? base).isSome = true)
    (names : List String) : ((names.map Component.name).foldlM (enter root) base).toOption =
      if (root.get? (base ++ names)).isSome then some (base ++ names) else none := by
  induction names generalizing base with
  | nil =>
    rw [List.append_nil, if_pos there]
    rfl
  | cons name rest ih =>
    have next : base ++ name :: rest = (base ++ [name]) ++ rest := by simp
    have onward := getSnoc root base name
    have nothing (missing : root.get? (base ++ [name]) = none) :
        (root.get? (base ++ name :: rest)).isSome = false := by
      rw [next, getAppend, missing]
      rfl
    rw [List.map_cons, List.foldlM_cons]
    obtain ⟨node, found⟩ := Option.isSome_iff_exists.mp there
    rw [found, Option.bind_some] at onward
    cases node with
    | file content =>
      rw [nothing onward, if_neg Bool.false_ne_true]
      simp only [enter, found]
      rfl
    | directory cs =>
      cases inside : cs.get? name with
      | none =>
        rw [nothing (onward.trans inside), if_neg Bool.false_ne_true]
        simp only [enter, found, inside]
        split <;> rfl
      | some inner =>
        have short := (getNameable inside).short
        have entered : enter root base (.name name) = .ok (base ++ [name]) := by
          simp only [enter, found, inside, if_neg (Nat.not_lt_of_le short)]
          rfl
        rw [entered, next]
        exact ih (by rw [onward, FileTree.children, inside]; rfl)

theorem heldPlain {base names : List String} (held : (root.get? (base ++ names)).isSome = true) :
    ∀ name ∈ names, '\x00' ∉ name.toList := by
  induction names generalizing base with
  | nil => simp
  | cons name rest ih =>
    have next : base ++ name :: rest = (base ++ [name]) ++ rest := by simp
    rw [next] at held
    refine List.forall_mem_cons.mpr ⟨?_, ih held⟩
    rw [getAppend] at held
    obtain ⟨last, held⟩ := Option.isSome_iff_exists.mp held
    obtain ⟨node, onward, -⟩ := Option.bind_eq_some_iff.mp held
    rw [getSnoc] at onward
    obtain ⟨above, found, inside⟩ := Option.bind_eq_some_iff.mp onward
    cases above with
    | file content => cases inside
    | directory cs => exact (getNameable inside).lawful

theorem placeNames {start : List Component} {base : List String}
    (reached : start.foldlM (enter root) [] = .ok base) (there : (root.get? base).isSome = true)
    (filled : start ≠ []) (plain : ∀ c ∈ start, '\x00' ∉ c.text.toList) (names : List String) :
    root.place (start ++ names.map Component.name) =
      (root.get? (base ++ names)).map (base ++ names, ·) := by
  have entered : ((start ++ names.map Component.name).foldlM (enter root) []).toOption =
      if (root.get? (base ++ names)).isSome then some (base ++ names) else none := by
    rw [List.foldlM_append, reached]
    exact enterNames there names
  unfold place
  cases found : root.get? (base ++ names) with
  | none =>
    rw [found] at entered
    rw [entered]
    split <;> rfl
  | some node =>
    rw [found, Option.isSome_some, if_pos rfl] at entered
    have clean := heldPlain (by rw [found]; rfl)
    rw [entered, if_neg]
    · simp [found]
    · rintro (nothing | ⟨c, mem, nul⟩)
      · exact filled (List.append_eq_nil_iff.mp nothing).1
      · rcases List.mem_append.mp mem with old | new
        · exact plain c old nul
        · obtain ⟨name, among, rfl⟩ := List.mem_map.mp new
          exact clean name among nul

end names

theorem findLong {root : FileTree} {p : Path} (long : ¬ p.Short) :
    (root.find p).toOption = none := by
  unfold find
  split
  · rfl
  · rw [if_pos (Nat.le_of_not_lt long)]
    rfl

theorem locatePlace (root : FileTree) (p : Path) : (root.locate p).toOption =
    ((p.components.foldlM (enter root) []).toOption.bind fun names =>
      (root.get? names).map (names, ·)).filter fun x => x.2.isDirectory || !spellsDirectory p := by
  unfold locate
  cases p.components.foldlM (enter root) [] with
  | error e => rfl
  | ok names =>
    simp only [bind, Except.bind, Except.toOption, Option.bind_some]
    cases root.get? names with
    | none => rfl
    | some node =>
      cases node with
      | directory cs => rfl
      | file content =>
        simp only [Option.map_some, Option.filter_some, isDirectory, Bool.false_or]
        cases spellsDirectory p <;> rfl

theorem findPlace {root : FileTree} {p : Path} (short : p.Short) :
    (root.find p).toOption =
      (root.place p.components).filter fun x => x.2.isDirectory || !spellsDirectory p := by
  have nul : p.text.toList.contains '\x00' = true ↔
      ∃ c ∈ p.components, '\x00' ∈ c.text.toList := by
    rw [List.contains_iff_mem, Path.charSpelled (by decide) (by decide)]
  unfold find place
  by_cases held : ∃ c ∈ p.components, '\x00' ∈ c.text.toList
  · rw [if_pos (nul.mpr held), if_pos (.inr held)]
    rfl
  · rw [if_neg (mt nul.mp held), if_neg (Nat.not_le_of_lt short)]
    by_cases nothing : p.components = []
    · rw [if_pos ((Path.isEmptyIff p).mpr nothing), if_pos (.inl nothing)]
      rfl
    · rw [if_neg (mt (Path.isEmptyIff p).mp nothing), if_neg (not_or.mpr ⟨nothing, held⟩),
        locatePlace]

end FileTree

namespace Disk
open FileTree (place spellsDirectory)

variable {tree : FileTree} {root d p : Path}

theorem resolvedSame (same : d.components = p.components) :
    (resolved root d).components = (resolved root p).components := by
  have empty : d.text = "" ↔ p.text = "" := by rw [Path.emptyIff, Path.emptyIff, same]
  unfold resolved
  simp only [String.isEmpty_iff, empty]
  split
  · rfl
  · rw [Path.joinComponents, Path.joinComponents, same]

theorem resolvedAbsolute (absolute : p.isAbsolute = true) (root : Path) : resolved root p = p := by
  have filled : p.text.isEmpty = false := by
    cases empty : p.text.isEmpty with
    | false => rfl
    | true =>
      rw [Path.isAbsolute, String.isEmpty_iff.mp empty] at absolute
      cases absolute
  rw [resolved, filled, if_neg Bool.false_ne_true, Path.joinAbsolute absolute]

theorem listFound (tree : FileTree) (root d : Path) : (storage tree root).list d =
    ((tree.find (resolved root d)).toOption.map fun x => children d x.2.children).getD [] := by
  simp only [Storage.list, storage, lookUp]
  cases tree.find (resolved root d) with
  | error e => rfl
  | ok x =>
    obtain ⟨names, node⟩ := x
    cases node with
    | directory cs => rfl
    | file content => cases content <;> rfl

theorem loadFound (tree : FileTree) (root p : Path) : ((storage tree root).load p).toOption =
    (tree.find (resolved root p)).toOption.bind fun x => x.2.text? := by
  simp only [Storage.load, storage, lookUp]
  cases tree.find (resolved root p) with
  | error e => rfl
  | ok x =>
    obtain ⟨names, node⟩ := x
    cases node with
    | directory cs => rfl
    | file content => cases content <;> rfl

theorem listLong (long : ¬ (resolved root d).Short) : (storage tree root).list d = [] := by
  rw [listFound, FileTree.findLong long]
  rfl

theorem loadLong (long : ¬ (resolved root p).Short) :
    ((storage tree root).load p).toOption = none := by
  rw [loadFound, FileTree.findLong long]
  rfl

theorem listPlace (short : (resolved root d).Short) : (storage tree root).list d =
    ((place tree (resolved root d).components).map fun x => children d x.2.children).getD [] := by
  rw [listFound, FileTree.findPlace short]
  cases place tree (resolved root d).components with
  | none => rfl
  | some x =>
    obtain ⟨names, node⟩ := x
    -- A file that is spelled as a directory is not found, and has nothing to list either.
    cases node with
    | directory cs => rfl
    | file content =>
      rw [Option.filter_some]
      split <;> rfl

theorem loadPlace (short : (resolved root p).Short)
    (named : spellsDirectory (resolved root p) = false) :
    ((storage tree root).load p).toOption =
      (place tree (resolved root p).components).bind fun x => x.2.text? := by
  rw [loadFound, FileTree.findPlace short, named]
  cases place tree (resolved root p).components with
  | none => rfl
  | some x => simp [Option.filter]

theorem shortAbove {name : String} (plain : '/' ∉ name.toList) (filled : name ≠ "")
    (short : (resolved root (d.join ⟨name⟩)).Short) : (resolved root d).Short := by
  have relative : Path.isAbsolute ⟨name⟩ = false := by
    have piece := Path.relativePiece plain
    rwa [String.ofList_toList] at piece
  have some_ : (d.join ⟨name⟩).text.isEmpty = false := by
    rw [Path.joinText relative]
    simpa using fun _ _ => filled
  refine Nat.lt_of_le_of_lt ?_ short
  unfold resolved
  rw [some_, if_neg Bool.false_ne_true]
  split
  · rename_i empty
    rw [Path.joinEmpty (d := d) (by simpa using empty), Path.joinText relative]
    simp only [String.toList_append, Text.byteLengthAppend]
    omega
  · rename_i nonempty
    refine Path.joinLonger root ?_ ?_
    · have head : (d.join ⟨name⟩).text.toList.head? = d.text.toList.head? := by
        have begins : d.text.toList ≠ [] := by simpa using nonempty
        rw [Path.joinText relative]
        simp [List.head?_append_of_ne_nil _ begins]
      rw [Path.isAbsolute, Path.isAbsolute, head]
    · rw [Path.joinText relative]
      simp only [String.toList_append, Text.byteLengthAppend]
      omega

/-! Files that are listed -/

theorem directoryJoin (d p : Path) : spellsDirectory (d.join p) = spellsDirectory p := by
  have same : (d.join p).pieces.getLast? = p.pieces.getLast? := by
    cases absolute : p.isAbsolute with
    | true => rw [Path.joinAbsolute absolute]
    | false =>
      rcases Path.joinPieces d absolute with ⟨-, only⟩ | ⟨front, -, -, joined⟩
      · rw [only]
      · rw [joined, List.getLast?_append_of_ne_nil _ p.piecesNeNil]
  unfold Path.pieces at same
  rw [spellsDirectory, spellsDirectory, same]

theorem directoryPieces {p : Path} {piece : List Char} {name : String}
    (last : p.pieces.getLast? = some piece) (is : Path.bodyComponent piece = some (.name name)) :
    spellsDirectory p = false := by
  have ends : (Text.segments '/' p.text.toList).getLast? = some piece := last
  have other (filler : List Char) (none : Path.bodyComponent filler ≠ some (.name name)) :
      piece ≠ filler := fun same => none (same ▸ is)
  have empty : piece ≠ [] := other _ nofun
  have here : piece ≠ ['.'] := other _ nofun
  have up : piece ≠ ['.', '.'] := other _ nofun
  rw [spellsDirectory, ends]
  simp [empty, here, up]

theorem directoryName {name : String} (plain : '/' ∉ name.toList)
    (named : name ≠ "" ∧ name ≠ "." ∧ name ≠ "..") : spellsDirectory ⟨name⟩ = false := by
  refine directoryPieces ?_ (Path.bodyName named)
  rw [Path.pieces, Text.segmentsPlain plain]
  rfl

theorem directoryNormal {p : Path} {names : List String}
    (spelled : p.normalize.components = names.map Component.name) (filled : names ≠ []) :
    spellsDirectory p.normalize = false := by
  rw [Path.normalizeComponents] at spelled
  have inner : ∀ c ∈ names.map Component.name, c.Inner := by
    intro c mem
    refine Path.normalInner p c (spelled ▸ mem) ?_
    rintro rfl
    obtain ⟨name, -, same⟩ := List.mem_map.mp mem
    cases same
  obtain ⟨plain, -⟩ := Path.textsSpell inner
  obtain ⟨init, last, rfl⟩ := List.eq_nil_or_concat names |>.resolve_left filled
  rw [List.concat_eq_append, List.map_append, List.map_singleton] at spelled inner plain
  obtain ⟨-, is⟩ := Path.innerSpelled (inner (.name last) (by simp))
  have text : p.normalize = ⟨String.ofList (Text.joined ['/']
      ((init.map Component.name ++ [Component.name last]).map (·.text.toList)))⟩ := by
    rw [Path.normalize, spelled]
    cases init <;> rfl
  refine directoryPieces ?_ is
  rw [text, Path.piecesJoined (by simp) plain, List.map_append]
  exact List.getLast?_concat

theorem resolvedDirectory (filled : p.components ≠ []) :
    spellsDirectory (resolved root p) = spellsDirectory p := by
  rw [resolved, if_neg (mt (Path.isEmptyIff p).mp filled), directoryJoin]

theorem getListed (cs : Children) (name : String) :
    (cs.get? name).isSome = true ↔ ∃ e ∈ cs.toList, e.1.text = name := by
  match cs with
  | .nil => simp [Children.get?, Children.toList]
  | .cons n tree rest =>
    rw [Children.get?, Children.toList, List.exists_mem_cons_iff, ← getListed rest name]
    split
    · rename_i same
      simp [same]
    · rename_i other
      simp [other]

theorem listedFind (short : (resolved root d).Short) (name : String) :
    (((storage tree root).list d).find? (·.name = name)).isSome =
      ((place tree (resolved root d).components).bind fun x => x.2.children.get? name).isSome := by
  rw [listPlace short]
  cases found : place tree (resolved root d).components with
  | none => rfl
  | some x =>
    obtain ⟨names, node⟩ := x
    cases node with
    | file content => rfl
    | directory cs =>
      have own (n : FileName) : (Child.ofPath (d.join ⟨n.text⟩)).name = n.text := by
        rw [Child.ofPath, Path.joinFileName d n.nameable.plain n.nameable.proper]
        rfl
      simp only [Option.map_some, Option.getD_some, Option.bind_some, FileTree.children]
      rw [Bool.eq_iff_iff, getListed, List.find?_isSome]
      constructor
      · rintro ⟨c, mem, same⟩
        obtain ⟨e, inside, rfl⟩ := List.mem_map.mp mem
        exact ⟨e, inside, by simpa [own] using same⟩
      · rintro ⟨e, inside, rfl⟩
        exact ⟨_, List.mem_map.mpr ⟨e, inside, rfl⟩, by simpa using own e.1⟩

theorem loadNamed {name : String} (plain : '/' ∉ name.toList)
    (named : name ≠ "" ∧ name ≠ "." ∧ name ≠ "..")
    (short : (resolved root (d.join ⟨name⟩)).Short) :
    ((storage tree root).load (d.join ⟨name⟩)).toOption =
      (place tree (resolved root (d.join ⟨name⟩)).components).bind fun x => x.2.text? := by
  have filled : (d.join ⟨name⟩).components ≠ [] := by
    rw [Path.joinName d plain named]
    simp
  refine loadPlace short ?_
  rw [resolvedDirectory filled, directoryJoin, directoryName plain named]

/-! Below the directory that the storage starts at -/

section below

variable {at_ names : List String} {cs : Children}
variable (rooted : tree.find root = .ok (at_, .directory cs))
include rooted

theorem placeBelow (spelled : p.components = names.map Component.name) :
    place tree (resolved root p).components =
      ((FileTree.directory cs).get? names).map (at_ ++ names, ·) := by
  have found := @FileTree.findPlace tree root (findShort rooted)
  rw [rooted] at found
  obtain ⟨placed, -⟩ := (Option.filter_eq_some_iff (p := _)).mp found.symm
  obtain ⟨filled, plain, entered, there⟩ := FileTree.placeReached placed
  have whole : (resolved root p).components = root.components ++ names.map Component.name := by
    rw [← spelled, resolved]
    split
    · rename_i nothing
      rw [(Path.isEmptyIff p).mp nothing, List.append_nil]
    · have relative : p.components.head? ≠ some .root := by
        rw [spelled, List.head?_map]
        cases names.head? <;> simp
      have free : p.components.filter (· ≠ .here) = p.components := by
        refine List.filter_eq_self.mpr fun c mem => ?_
        obtain ⟨name, -, rfl⟩ := List.mem_map.mp (spelled ▸ mem)
        rfl
      rw [Path.joinComponents, if_neg (not_or.mpr ⟨relative, filled⟩), free]
  have held : (tree.get? at_).isSome = true := by rw [there]; rfl
  rw [whole, FileTree.placeNames entered held filled plain, FileTree.getAppend, there,
    Option.bind_some]

theorem listedBelow (short : (resolved root d).Short)
    (spelled : d.components = names.map Component.name) (name : String) :
    (((storage tree root).list d).find? (·.name = name)).isSome =
      ((FileTree.directory cs).get? (names ++ [name])).isSome := by
  rw [listedFind short, placeBelow rooted spelled, FileTree.getSnoc]
  cases (FileTree.directory cs).get? names <;> rfl

theorem unlistedBelow (spelled : d.components = names.map Component.name) {name : String}
    (absent : (FileTree.directory cs).get? (names ++ [name]) = none) :
    ((storage tree root).list d).find? (·.name = name) = none := by
  by_cases short : (resolved root d).Short
  · have listed := listedBelow rooted short spelled name
    rwa [absent, Option.isSome_none, Option.isSome_eq_false_iff,
      Option.isNone_iff_eq_none] at listed
  · rw [listLong short]
    rfl

theorem loadBelow (short : (resolved root p).Short)
    (spelled : p.components = names.map Component.name)
    (file : names ≠ [] → spellsDirectory p = false) : ((storage tree root).load p).toOption =
      ((FileTree.directory cs).get? names).bind FileTree.text? := by
  have place := placeBelow rooted spelled
  by_cases filled : names = []
  · subst filled
    rw [loadFound, FileTree.findPlace short, place]
    rfl
  · have some_ : p.components ≠ [] := by simpa [spelled] using filled
    rw [loadPlace short ((resolvedDirectory some_).trans (file filled)), place]
    cases (FileTree.directory cs).get? names <;> rfl

end below

end Disk

/-! Names that several trees of examples have -/

namespace FileName

def ruffToml : FileName := ⟨"ruff.toml", by decide⟩

def a : FileName := ⟨"a", by decide⟩

def d : FileName := ⟨"d", by decide⟩

def aPy : FileName := ⟨"a.py", by decide⟩

def bPy : FileName := ⟨"b.py", by decide⟩

end FileName

end Storage
end NotebookTidy
