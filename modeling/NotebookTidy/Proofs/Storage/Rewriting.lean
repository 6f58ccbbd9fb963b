import NotebookTidy.Proofs.Storage.Placing

/-! Trees that differ in what some of their files hold, and in nothing else. Every path leads to the
same place in both, and what is read there is the same unless the file is one of those. -/
namespace NotebookTidy

theorem Path.fileNameIff {p : Path} {name : String} :
    p.fileName = some name ↔ p.components.getLast? = some (.name name) := by
  rw [fileName]
  constructor
  · intro named
    split at named
    · rename_i ends
      cases named
      exact ends
    · cases named
  · intro last
    rw [last]

namespace Storage

theorem Disk.resolvedName {p : Path} {name : String} (named : p.fileName = some name)
    (root : Path) : (resolved root p).fileName = some name := by
  rw [Path.fileNameIff] at named ⊢
  rw [resolved]
  split
  · rename_i empty
    rw [(Path.isEmptyIff p).mp empty] at named
    cases named
  · rw [Path.joinComponents]
    split
    · exact named
    · obtain ⟨init, whole⟩ := List.getLast?_eq_some_iff.mp named
      simp [whole]

theorem Children.getInsert (name : FileName) (key : String) (tree : FileTree) (cs : Children) :
    (cs.insert name tree).get? key = if name.text = key then some tree else cs.get? key := by
  match cs with
  | .nil => rfl
  | .cons n first rest =>
    rw [Children.insert]
    split
    · rfl
    · split
      · rename_i same
        subst same
        rw [Children.get?, Children.get?]
        split <;> rfl
      · rename_i other
        rw [Children.get?, Children.get?, getInsert name key tree rest]
        split
        · rename_i here
          rw [if_neg fun same => other ?_]
          cases n
          cases name
          cases here.trans same.symm
          rfl
        · rfl

theorem Children.getSet {name : String} (nameable : Nameable name) (key : String) (tree : FileTree)
    (cs : Children) :
    (cs.set name tree).get? key = if name = key then some tree else cs.get? key := by
  rw [Children.set, FileName.ofText?, dif_pos nameable]
  exact getInsert ⟨name, nameable⟩ key tree cs

namespace FileTree

def content? : FileTree → Option FileContent
  | .file content => some content
  | .directory _ => none

def contentAt? (root : FileTree) (names : List String) : Option FileContent :=
  (root.get? names).bind content?

/-- Where a path leads. -/
def names? (root : FileTree) (p : Path) : Option (List String) :=
  (root.find p).toOption.map Prod.fst

def textAt? (root : FileTree) (p : Path) : Option String :=
  (root.find p).toOption.bind fun x => x.2.text?

structure Rewritten (touched : List String → Prop) (before after : FileTree) : Prop where
  kinds : ∀ names, (after.get? names).map isDirectory = (before.get? names).map isDirectory
  contents : ∀ names, ¬ touched names → after.contentAt? names = before.contentAt? names

variable {root before after : FileTree} {touched : List String → Prop} {names : List String}

theorem contentFile {c : FileContent} :
    root.contentAt? names = some c ↔ root.get? names = some (.file c) := by
  rw [contentAt?, Option.bind_eq_some_iff]
  constructor
  · rintro ⟨node, found, is⟩
    cases node with
    | directory cs => cases is
    | file content =>
      cases is
      exact found
  · exact fun found => ⟨_, found, rfl⟩

theorem textNode (node : FileTree) : node.text? = node.content?.bind fun c => (file c).text? := by
  cases node <;> rfl

theorem findNames {p : Path} {x : List String × FileTree} (found : root.find p = .ok x) :
    root.names? p = some x.1 ∧ root.get? x.1 = some x.2 :=
  ⟨by rw [names?, found]; rfl, findGet found⟩

theorem textNames (root : FileTree) (p : Path) :
    root.textAt? p = (root.names? p).bind fun names =>
      (root.contentAt? names).bind fun c => (file c).text? := by
  rw [textAt?, names?, Option.bind_map]
  cases found : root.find p with
  | error e => rfl
  | ok x =>
    obtain ⟨-, there⟩ := findNames found
    simp only [Except.toOption, Option.bind_some, Function.comp_apply]
    rw [contentAt?, there, Option.bind_some]
    exact textNode x.2

theorem readTextAt (root : FileTree) (p : Path) :
    (root.readText p).toOption = root.textAt? p := by
  rw [readText, textAt?]
  cases root.find p with
  | error e => rfl
  | ok x =>
    obtain ⟨names, node⟩ := x
    cases node with
    | directory cs => rfl
    | file content => cases content <;> rfl

theorem textFound {p : Path} {text : String} (read : root.textAt? p = some text) :
    ∃ names, root.find p = .ok (names, .file (.text text)) := by
  rw [textAt?, Option.bind_eq_some_iff] at read
  obtain ⟨⟨names, node⟩, found, is⟩ := read
  cases here : root.find p with
  | error e =>
    rw [here] at found
    cases found
  | ok x =>
    rw [here] at found
    cases found
    cases node with
    | directory cs => cases is
    | file content =>
      cases content with
      | binary bytes => cases is
      | text t =>
        cases is
        exact ⟨names, rfl⟩

/-! What a file name says about the place -/

theorem namesLast {p : Path} {name : String} (found : root.names? p = some names)
    (named : p.fileName = some name) : names.getLast? = some name := by
  obtain ⟨init, whole⟩ := List.getLast?_eq_some_iff.mp (Path.fileNameIff.mp named)
  have located : (root.locate p).toOption.map Prod.fst = some names := by
    rw [names?, find] at found
    split at found
    · cases found
    · split at found
      · cases found
      · split at found
        · cases found
        · exact found
  rw [locatePlace, whole, List.foldlM_append] at located
  obtain ⟨x, kept, rfl⟩ := Option.map_eq_some_iff.mp located
  obtain ⟨reached, -⟩ := Option.filter_eq_some_iff.mp kept
  obtain ⟨ends, entered, there⟩ := Option.bind_eq_some_iff.mp reached
  obtain ⟨node, -, rfl⟩ := Option.map_eq_some_iff.mp there
  cases above : init.foldlM (enter root) [] with
  | error e =>
    rw [above] at entered
    cases entered
  | ok outer =>
    rw [above] at entered
    simp only [List.foldlM_cons, List.foldlM_nil, bind, Except.bind, enter] at entered
    split at entered
    · cases entered
    · rename_i next given
      cases entered
      split at given
      · split at given
        · cases given
        · split at given
          · cases given
            exact List.getLast?_concat
          · cases given
      · cases given
      · cases given

/-! What a rewritten tree shares -/

namespace Rewritten

theorem refl (touched : List String → Prop) (tree : FileTree) : Rewritten touched tree tree :=
  ⟨fun _ => rfl, fun _ _ => rfl⟩

theorem trans {last : FileTree} (first : Rewritten touched before after)
    (second : Rewritten touched after last) : Rewritten touched before last :=
  ⟨fun names => (second.kinds names).trans (first.kinds names),
    fun names free => (second.contents names free).trans (first.contents names free)⟩

theorem mono {more : List String → Prop} (rewritten : Rewritten touched before after)
    (wider : ∀ names, touched names → more names) : Rewritten more before after :=
  ⟨rewritten.kinds, fun names free => rewritten.contents names (mt (wider names) free)⟩

variable (rewritten : Rewritten touched before after)
include rewritten

theorem held (names : List String) : (after.get? names).isSome = (before.get? names).isSome := by
  rw [← Option.isSome_map (f := isDirectory), rewritten.kinds, Option.isSome_map]

/-- A place is held both times by a file, both times by a directory, or not at all. -/
theorem kept (names : List String) :
    (before.get? names = none ∧ after.get? names = none) ∨ ∃ node node',
      before.get? names = some node ∧ after.get? names = some node' ∧
        node'.isDirectory = node.isDirectory := by
  have kind := rewritten.kinds names
  cases there : before.get? names with
  | none =>
    rw [there, Option.map_none, Option.map_eq_none_iff] at kind
    exact .inl ⟨rfl, kind⟩
  | some node =>
    rw [there] at kind
    obtain ⟨node', there', same⟩ := Option.map_eq_some_iff.mp kind
    exact .inr ⟨node, node', rfl, there', same⟩

theorem entries {cs cs' : Children} (there : before.get? names = some (.directory cs))
    (there' : after.get? names = some (.directory cs')) (name : String) :
    (cs'.get? name).isSome = (cs.get? name).isSome := by
  have inside := rewritten.held (names ++ [name])
  rwa [getSnoc, getSnoc, there, there'] at inside

theorem entered : enter after = enter before := by
  funext names c
  rw [enter, enter]
  rcases rewritten.kept names with ⟨there, there'⟩ | ⟨node, node', there, there', same⟩
  · rw [there, there']
  · rw [there, there']
    cases node with
    | file content =>
      cases node' with
      | file content' => rfl
      | directory cs => cases same
    | directory cs =>
      cases node' with
      | file content' => cases same
      | directory cs' =>
        cases c with
        | name n =>
          dsimp only
          rw [rewritten.entries there there']
        | _ => rfl

theorem leads (p : Path) : after.names? p = before.names? p := by
  have located : (after.locate p).toOption.map Prod.fst =
      (before.locate p).toOption.map Prod.fst := by
    rw [locatePlace, locatePlace, rewritten.entered]
    cases p.components.foldlM (enter before) [] with
    | error e => rfl
    | ok names =>
      simp only [Except.toOption, Option.bind_some]
      rcases rewritten.kept names with ⟨there, there'⟩ | ⟨node, node', there, there', same⟩
      · rw [there, there']
      · rw [there, there', Option.map_some, Option.map_some, Option.filter_some,
          Option.filter_some, same]
        split <;> rfl
  rw [names?, names?, find, find]
  split
  · rfl
  · split
    · rfl
    · split
      · rfl
      · exact located

theorem text {p : Path} (free : ∀ names, before.names? p = some names → ¬ touched names) :
    after.textAt? p = before.textAt? p := by
  rw [textNames, textNames, rewritten.leads p]
  cases found : before.names? p with
  | none => rfl
  | some names => rw [Option.bind_some, Option.bind_some, rewritten.contents names (free _ found)]

theorem listed (root d : Path) (name : String) :
    (((Disk.storage after root).list d).find? (·.name = name)).isSome =
      (((Disk.storage before root).list d).find? (·.name = name)).isSome := by
  by_cases short : (Disk.resolved root d).Short
  · rw [Disk.listedFind short, Disk.listedFind short, place, place, rewritten.entered]
    split
    · rfl
    · cases (Disk.resolved root d).components.foldlM (enter before) [] with
      | error e => rfl
      | ok names =>
        have inside := rewritten.held (names ++ [name])
        rw [getSnoc, getSnoc] at inside
        simp only [Except.toOption, Option.bind_some, Option.bind_map, Function.comp_def]
        exact inside
  · rw [Disk.listLong short, Disk.listLong short]

theorem loaded {root p : Path}
    (free : ∀ names, before.names? (Disk.resolved root p) = some names → ¬ touched names) :
    ((Disk.storage after root).load p).toOption = ((Disk.storage before root).load p).toOption := by
  rw [Disk.loadFound, Disk.loadFound]
  exact rewritten.text free

end Rewritten

/-! A file that is written again -/

section put

variable {node inner : FileTree} {cs : Children} {name : String} {rest : List String}

theorem putGet (inside : cs.get? name = some inner) (key : String) (more : List String) :
    (put (.directory cs) node (name :: rest)).get? (key :: more) =
      if name = key then (put inner node rest).get? more
      else (FileTree.directory cs).get? (key :: more) := by
  rw [put, inside, Option.getD_some, get?, children, Children.getSet (getNameable inside)]
  split <;> rfl

theorem putHere {old : FileTree} (found : root.get? names = some old) (node : FileTree) :
    (root.put node names).get? names = some node := by
  induction names generalizing root with
  | nil => rfl
  | cons name rest ih =>
    obtain ⟨inner, inside, further⟩ := Option.bind_eq_some_iff.mp found
    cases root with
    | file content => cases inside
    | directory cs =>
      have inside : cs.get? name = some inner := inside
      rw [putGet inside, if_pos rfl]
      exact ih further

theorem putRewritten {old : FileContent} (found : root.get? names = some (.file old))
    (new : FileContent) : Rewritten (· = names) root (root.put (.file new) names) := by
  induction names generalizing root with
  | nil =>
    cases found
    refine ⟨fun key => ?_, fun key other => ?_⟩
    · cases key <;> rfl
    · cases key with
      | nil => exact absurd rfl other
      | cons name rest => rfl
  | cons name rest ih =>
    obtain ⟨inner, inside, further⟩ := Option.bind_eq_some_iff.mp found
    cases root with
    | file content => cases inside
    | directory cs =>
      have inside : cs.get? name = some inner := inside
      have below := ih further
      have onward (more : List String) :
          (FileTree.directory cs).get? (name :: more) = inner.get? more := by
        rw [get?, children, inside, Option.bind_some]
      refine ⟨fun key => ?_, fun key other => ?_⟩
      · cases key with
        | nil => rfl
        | cons n more =>
          rw [putGet inside]
          split
          · rename_i here
            rw [← here, onward, below.kinds]
          · rfl
      · cases key with
        | nil => rfl
        | cons n more =>
          rw [contentAt?, contentAt?, putGet inside]
          split
          · rename_i here
            subst here
            rw [onward]
            exact below.contents more fun whole => other (whole ▸ rfl)
          · rfl

end put

theorem writeFound {p : Path} {old : FileContent} (found : root.find p = .ok (names, .file old))
    (text : String) : root.writeText p text = .ok (root.put (.file (.text text)) names) := by
  rw [writeText, found]

end FileTree
end Storage
end NotebookTidy
