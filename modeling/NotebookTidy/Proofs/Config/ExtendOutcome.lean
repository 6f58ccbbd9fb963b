import NotebookTidy.Proofs.Config.ExtendChain
import NotebookTidy.Proofs.Storage.Listing

/-! How a resolution comes out of texts held in memory, once a file has been found. The declared
chain alone decides: which files are laid under the one found, when a cycle is reported and of
which path, and which file is to blame for any other failure. -/
namespace NotebookTidy.Config
open Storage (Memory)

inductive Unusable (m : Memory) (q : Path) : Error → Prop where
  | missing (absent : m.get? q = none) (nothing : m.below q = [])
      (inner : q.text.isEmpty = false) : Unusable m q (.storage (.notFound q))
  | notText (absent : m.get? q = none) (directory : m.below q ≠ [] ∨ q.text.isEmpty = true) :
      Unusable m q (.storage (.notAFile q))
  | unreadable {text : String} (stored : m.get? q = some text)
      (malformed : Toml.read? text = none) : Unusable m q (.unreadable q)

theorem loadStored {m : Memory} {q : Path} {text : String} (stored : m.get? q = some text) :
    m.storage.load q = .ok text := by
  simp only [Storage.load, Memory.storage, Memory.lookUpIs, stored]
  rfl

theorem loadRead {m : Memory} {q : Path} {text : String} {t : Table}
    (stored : m.get? q = some text) (read : Toml.read? text = some t) :
    loadTable m.storage q = .ok t := by
  rw [loadTable, loadStored stored]
  simp only [read]

theorem loadMissing {m : Memory} {q : Path} (absent : m.get? q = none) (nothing : m.below q = [])
    (inner : q.text.isEmpty = false) : m.storage.load q = .error (.notFound q) := by
  simp [Storage.load, Memory.storage, Memory.lookUpIs, absent, nothing, inner]

theorem loadDirectory {m : Memory} {q : Path} (absent : m.get? q = none)
    (directory : m.below q ≠ [] ∨ q.text.isEmpty = true) :
    m.storage.load q = .error (.notAFile q) := by
  simp only [Storage.load, Memory.storage, Memory.lookUpIs, absent]
  cases below : m.below q with
  | nil =>
    have root : q.text.isEmpty = true := directory.resolve_left (not_not_intro below)
    simp only [root, if_true]
    rfl
  | cons c rest => rfl

theorem storedOrNot (m : Memory) (q : Path) : (∃ text, m.get? q = some text) ∨
    (m.get? q = none ∧ m.below q = [] ∧ q.text.isEmpty = false) ∨
    (m.get? q = none ∧ (m.below q ≠ [] ∨ q.text.isEmpty = true)) := by
  cases m.get? q with
  | some text => exact .inl ⟨text, rfl⟩
  | none =>
    by_cases nothing : m.below q = []
    · cases root : q.text.isEmpty with
      | false => exact .inr (.inl ⟨rfl, nothing, rfl⟩)
      | true => exact .inr (.inr ⟨rfl, .inr rfl⟩)
    · exact .inr (.inr ⟨rfl, .inl nothing⟩)

theorem unusableIff {m : Memory} {q : Path} {e : Error} :
    loadTable m.storage q = .error e ↔ Unusable m q e := by
  constructor
  · intro failed
    unfold loadTable at failed
    rcases storedOrNot m q with ⟨text, stored⟩ | ⟨absent, nothing, inner⟩ | ⟨absent, directory⟩
    · rw [loadStored stored] at failed
      dsimp only at failed
      split at failed
      · cases failed
      · rename_i malformed
        cases failed
        exact .unreadable stored malformed
    · rw [loadMissing absent nothing inner] at failed
      cases failed
      exact .missing absent nothing inner
    · rw [loadDirectory absent directory] at failed
      cases failed
      exact .notText absent directory
  · intro unusable
    cases unusable with
    | missing absent nothing inner => rw [loadTable, loadMissing absent nothing inner]
    | notText absent directory => rw [loadTable, loadDirectory absent directory]
    | unreadable stored malformed => rw [loadTable, loadStored stored]; simp only [malformed]

theorem unusableNoCycle {m : Memory} {q p : Path} {e : Error} (unusable : Unusable m q e) :
    e ≠ .extendCycle p := by
  cases unusable <;> simp

theorem endsOk {s : Storage} {visited : List (List Component)} {files : List Path}
    {last : Declaration} (ends : Ends s visited files last (.ok ())) : last.next? = none := by
  cases ends with
  | complete names => exact names

theorem endsCycle {m : Memory} {visited : List (List Component)} {files : List Path}
    {last : Declaration} {q : Path}
    (ends : Ends m.storage visited files last (.error (.extendCycle q))) :
    last.next? = some q ∧ Seen visited files q := by
  cases ends with
  | cycle names old => exact ⟨names, old⟩
  | broken names new failed => exact absurd rfl (unusableNoCycle (unusableIff.mp failed))

theorem endsUnusable {m : Memory} {visited : List (List Component)} {files : List Path}
    {last : Declaration} {e : Error} (ends : Ends m.storage visited files last (.error e))
    (other : ∀ q, e ≠ .extendCycle q) :
    ∃ q, last.next? = some q ∧ ¬ Seen visited files q ∧ Unusable m q e := by
  cases ends with
  | cycle names old => exact absurd rfl (other _)
  | broken names new failed => exact ⟨_, names, new, unusableIff.mp failed⟩

theorem chainStored {m : Memory} {d last : Declaration} {files : List Path}
    (chain : Chain m.storage d files last) : ∀ p ∈ files, ∃ text, m.get? p = some text := by
  induction chain with
  | here d => simp
  | @step d p t files last names loaded rest ih =>
    refine List.forall_mem_cons.mpr ⟨?_, ih⟩
    rcases storedOrNot m p with stored | ⟨absent, nothing, inner⟩ | ⟨absent, directory⟩
    · exact stored
    · rw [unusableIff.mpr (.missing absent nothing inner)] at loaded
      cases loaded
    · rw [unusableIff.mpr (.notText absent directory)] at loaded
      cases loaded

def Distinct (source : Path) (files : List Path) : Prop :=
  ((source.normalize :: files).map Path.components).Nodup

theorem distinctFresh {source : Path} {files : List Path} :
    Distinct source files ↔ Fresh [source.normalize.components] files := by
  simp only [Distinct, Fresh, List.map_cons, List.nodup_cons, List.mem_map, List.mem_singleton,
    not_exists, not_and]
  exact and_comm

theorem seenKnown {source : Path} {files : List Path} {q : Path} :
    Seen [source.normalize.components] files q ↔
      q.components ∈ (source.normalize :: files).map Path.components := by
  rw [Seen, List.mem_singleton, List.map_cons, List.mem_cons]

theorem chainBounded {m : Memory} {d last : Declaration} {files : List Path} {source : Path}
    (chain : Chain m.storage d files last) (distinct : Distinct source files) :
    files.length ≤ m.files.length := by
  have stored : files.map Path.components ⊆ m.files.map Prod.fst := by
    intro key mem
    obtain ⟨p, inside, rfl⟩ := List.mem_map.mp mem
    obtain ⟨text, found⟩ := chainStored chain p inside
    exact Storage.Texts.keyOfGet found
  have short := (List.nodup_cons.mp distinct).2.length_le_of_subset stored
  simpa using short

/-- What the declarations from `start` on make of a resolution that has found `source`. -/
structure Declared (m : Memory) (source : Path) (start : Declaration)
    (outcome : Except Error Resolved) : Prop where
  bounded : ∀ files last, Chain m.storage start files last → Distinct source files →
    files.length ≤ m.files.length
  success : ∀ files, (∃ r, outcome = .ok r ∧ r.bases = files) ↔
    Distinct source files ∧ ∃ last, Chain m.storage start files last ∧ last.next? = none
  result : ∀ r, outcome = .ok r → r.source = some source ∧ extendTarget r.config = none ∧
    ∀ p ∈ r.bases, ∃ text, m.get? p = some text
  cycle : ∀ q, outcome = .error (.extendCycle q) ↔
    ∃ files last, Distinct source files ∧ Chain m.storage start files last ∧
      last.next? = some q ∧ q.components ∈ (source.normalize :: files).map Path.components
  unusable : ∀ e, (outcome = .error e ∧ ∀ q, e ≠ .extendCycle q) ↔
    ∃ files last q, Distinct source files ∧ Chain m.storage start files last ∧
      last.next? = some q ∧ q.components ∉ (source.normalize :: files).map Path.components ∧
      Unusable m q e

section resolved

variable {m : Memory} {p source : Path} {overrides own : Table}

theorem resolveFound {s : Storage} (found : findAbove s p.parents = .ok (some (source, own))) :
    resolve s p overrides =
      (followExtends s [source.normalize.components] source.directory
        (merge own overrides)).map fun (final, bases) => ⟨final, some source, bases⟩ := by
  rw [resolve, found]

theorem resolveBases (found : findAbove m.storage p.parents = .ok (some (source, own))) :
    (resolve m.storage p overrides).map Resolved.bases =
      (followExtends m.storage [source.normalize.components] source.directory
        (merge own overrides)).map Prod.snd := by
  rw [resolveFound found]
  cases followExtends m.storage [source.normalize.components] source.directory
    (merge own overrides) <;> rfl

theorem resolveDeclared (overrides : Table)
    (found : findAbove m.storage p.parents = .ok (some (source, own))) :
    ∃ files last outcome,
      Chain m.storage (.ofConfig source.directory (merge own overrides)) files last ∧
      Distinct source files ∧
      Ends m.storage [source.normalize.components] files last outcome ∧
      (resolve m.storage p overrides).map Resolved.bases = outcome.map fun _ => files := by
  rw [resolveBases found]
  simp only [distinctFresh]
  exact followSound ..

theorem resolveOfChain {files : List Path} {last : Declaration} {outcome : Except Error Unit}
    (found : findAbove m.storage p.parents = .ok (some (source, own)))
    (chain : Chain m.storage (.ofConfig source.directory (merge own overrides)) files last)
    (distinct : Distinct source files)
    (ends : Ends m.storage [source.normalize.components] files last outcome) :
    (resolve m.storage p overrides).map Resolved.bases = outcome.map fun _ => files := by
  rw [resolveBases found]
  exact followComplete chain rfl (distinctFresh.mp distinct) ends

theorem resolveSuccess (found : findAbove m.storage p.parents = .ok (some (source, own)))
    {files : List Path} :
    (∃ r, resolve m.storage p overrides = .ok r ∧ r.bases = files) ↔
      Distinct source files ∧ ∃ last,
        Chain m.storage (.ofConfig source.directory (merge own overrides)) files last ∧
        last.next? = none := by
  constructor
  · rintro ⟨r, done, rfl⟩
    obtain ⟨files, last, outcome, chain, distinct, ends, same⟩ :=
      resolveDeclared overrides found
    rw [done] at same
    obtain ⟨_, rfl, rfl⟩ := mapOk same.symm
    exact ⟨distinct, last, chain, endsOk ends⟩
  · rintro ⟨distinct, last, chain, names⟩
    exact mapOk (resolveOfChain found chain distinct (.complete names))

theorem resolveResult (found : findAbove m.storage p.parents = .ok (some (source, own)))
    {r : Resolved} (done : resolve m.storage p overrides = .ok r) :
    r.source = some source ∧ extendTarget r.config = none ∧
      ∀ p ∈ r.bases, ∃ text, m.get? p = some text := by
  obtain ⟨_, last, chain, _⟩ := (resolveSuccess found).mp ⟨r, done, rfl⟩
  have stored := chainStored chain
  rw [resolveFound found] at done
  obtain ⟨⟨final, bases⟩, followed, rfl⟩ := mapOk done
  exact ⟨rfl, followFinal followed, stored⟩

theorem resolveCycle (found : findAbove m.storage p.parents = .ok (some (source, own)))
    {q : Path} :
    resolve m.storage p overrides = .error (.extendCycle q) ↔
      ∃ files last, Distinct source files ∧
        Chain m.storage (.ofConfig source.directory (merge own overrides)) files last ∧
        last.next? = some q ∧ q.components ∈ (source.normalize :: files).map Path.components := by
  constructor
  · intro failed
    obtain ⟨files, last, outcome, chain, distinct, ends, same⟩ :=
      resolveDeclared overrides found
    rw [failed] at same
    cases mapError same.symm
    obtain ⟨names, old⟩ := endsCycle ends
    exact ⟨files, last, distinct, chain, names, seenKnown.mp old⟩
  · rintro ⟨files, last, distinct, chain, names, old⟩
    exact mapError (resolveOfChain found chain distinct (.cycle names (seenKnown.mpr old)))

theorem resolveUnusable (found : findAbove m.storage p.parents = .ok (some (source, own)))
    {e : Error} :
    (resolve m.storage p overrides = .error e ∧ ∀ q, e ≠ .extendCycle q) ↔
      ∃ files last q, Distinct source files ∧
        Chain m.storage (.ofConfig source.directory (merge own overrides)) files last ∧
        last.next? = some q ∧ q.components ∉ (source.normalize :: files).map Path.components ∧
        Unusable m q e := by
  constructor
  · rintro ⟨failed, other⟩
    obtain ⟨files, last, outcome, chain, distinct, ends, same⟩ :=
      resolveDeclared overrides found
    rw [failed] at same
    cases mapError same.symm
    obtain ⟨q, names, new, unusable⟩ := endsUnusable ends other
    exact ⟨files, last, q, distinct, chain, names, mt seenKnown.mpr new, unusable⟩
  · rintro ⟨files, last, q, distinct, chain, names, new, unusable⟩
    refine ⟨?_, fun q => unusableNoCycle unusable⟩
    exact mapError (resolveOfChain found chain distinct
      (.broken names (mt seenKnown.mp new) (unusableIff.mpr unusable)))

theorem resolveFollowsDeclarations
    (found : findAbove m.storage p.parents = .ok (some (source, own))) :
    Declared m source (.ofConfig source.directory (merge own overrides))
      (resolve m.storage p overrides) where
  bounded _ _ chain distinct := chainBounded chain distinct
  success _ := resolveSuccess found
  result _ done := resolveResult found done
  cycle _ := resolveCycle found
  unusable _ := resolveUnusable found

end resolved

def nestedMemory : Memory :=
  (Memory.empty.insert ⟨"d/ruff.toml"⟩ "extend = \"../b.toml\"").insert ⟨"b.toml"⟩ "x = 1"

theorem nestedListing :
    nestedMemory.storage.list ⟨"d"⟩ = [⟨"ruff.toml", ⟨"d/ruff.toml"⟩⟩] := by
  have held : nestedMemory.files.filterMap
      (fun f => Storage.Texts.behind? (Path.components ⟨"d"⟩) f.1) = [.name "ruff.toml"] := by
    decide
  have below : nestedMemory.below ⟨"d"⟩ = [.name "ruff.toml"] := by
    unfold Memory.below Storage.Texts.below
    dsimp only
    rw [held, List.mergeSort_singleton]
    exact List.mergeSort_singleton _
  have directory : nestedMemory.get? ⟨"d"⟩ = none := by decide
  simp only [Storage.list, Memory.storage, Memory.lookUpIs, below, directory]
  decide

theorem nestedSource : loadTable nestedMemory.storage ⟨"d/ruff.toml"⟩ =
    .ok (.cons "extend" (.string "../b.toml") .nil) := by
  have stored : nestedMemory.get? ⟨"d/ruff.toml"⟩ = some "extend = \"../b.toml\"" := by decide
  exact loadRead stored (by decide +kernel)

theorem nestedParents : Path.parents ⟨"d/x.py"⟩ = [⟨"d"⟩, ⟨""⟩] := by decide

theorem nestedFound : findAbove nestedMemory.storage (Path.parents ⟨"d/x.py"⟩) =
    .ok (some (⟨"d/ruff.toml"⟩, .cons "extend" (.string "../b.toml") .nil)) := by
  simp only [nestedParents, findAbove, findIn, nestedListing, fileNames, firstOf]
  simp [nestedSource, projectFile]

theorem nestedBase :
    loadTable nestedMemory.storage ⟨"b.toml"⟩ = .ok (.cons "x" (.integer 1) .nil) := by
  have stored : nestedMemory.get? ⟨"b.toml"⟩ = some "x = 1" := by decide
  exact loadRead stored (by decide +kernel)

theorem nestedChain {start last : Declaration} {files : List Path}
    (next : start.next? = some ⟨"b.toml"⟩) (chain : Chain nestedMemory.storage start files last) :
    (files = [] ∧ last = start) ∨ (files = [⟨"b.toml"⟩] ∧
      last = .ofBase ⟨"b.toml"⟩ (.cons "x" (.integer 1) .nil)) := by
  have ends : (Declaration.ofBase ⟨"b.toml"⟩ (.cons "x" (.integer 1) .nil)).next? = none := by
    decide
  cases chain with
  | here => exact .inl ⟨rfl, rfl⟩
  | step names loaded rest =>
    cases next.symm.trans names
    cases nestedBase.symm.trans loaded
    cases rest with
    | here => exact .inr ⟨rfl, rfl⟩
    | step names => cases ends.symm.trans names

theorem resolveFollowsNested : ∃ r, resolve nestedMemory.storage ⟨"d/x.py"⟩ .nil = .ok r ∧
    r.bases = [⟨"b.toml"⟩] := by
  have distinct : Distinct ⟨"d/ruff.toml"⟩ [⟨"b.toml"⟩] := by
    unfold Distinct
    decide
  have next : (Declaration.ofConfig (Path.directory ⟨"d/ruff.toml"⟩)
      (merge (.cons "extend" (.string "../b.toml") .nil) .nil)).next? = some ⟨"b.toml"⟩ := by
    decide +kernel
  have last : (Declaration.ofBase ⟨"b.toml"⟩ (.cons "x" (.integer 1) .nil)).next? = none := by
    decide
  exact ((resolveFollowsDeclarations nestedFound).success _).mpr
    ⟨distinct, _, .step next nestedBase (.here _), last⟩

end NotebookTidy.Config
