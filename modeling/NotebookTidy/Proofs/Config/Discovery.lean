import NotebookTidy.Proofs.Config.ExtendOutcome
import NotebookTidy.Proofs.Config.Layers
import NotebookTidy.Proofs.Storage.Listing

/-! Which file a search in memory finds, and what the search depends on. The candidates stand in
one row, the nearest directory first; the first of them that is there and is not passed over
decides. Texts that lie neither at a directory above the path, nor at or below a candidate that was
looked at or a base that was followed, make no difference, not even to an error. -/
namespace NotebookTidy

/-- A configuration file is listed in a directory as the name joined to it. -/
def Storage.Joined (s : Storage) : Prop :=
  ∀ d, ∀ file ∈ s.list d, file.name ∈ Config.fileNames → file.path = d.join ⟨file.name⟩

namespace Config
open Storage (Memory)

structure Candidate where
  directory : Path
  name : String

def Candidate.path (c : Candidate) : Path := c.directory.join ⟨c.name⟩

def candidatesIn (directories : List Path) : List Candidate :=
  directories.flatMap fun d => fileNames.map (Candidate.mk d)

def candidates (p : Path) : List Candidate := candidatesIn p.parents

def Candidate.Listed (c : Candidate) (s : Storage) : Prop :=
  ∃ found ∈ s.list c.directory, found.name = c.name

/-- A candidate decides a search if it is there and cannot be used, or holds a configuration. -/
inductive Decides (m : Memory) (c : Candidate) : Except Error Table → Prop where
  | unusable {e : Error} (listed : c.Listed m.storage) (failed : Unusable m c.path e) :
      Decides m c (.error e)
  | plain {t : Table} (listed : c.Listed m.storage) (named : c.name ≠ projectFile)
      (loaded : loadTable m.storage c.path = .ok t) : Decides m c (.ok t)
  | project {t section_ : Table} (listed : c.Listed m.storage) (named : c.name = projectFile)
      (loaded : loadTable m.storage c.path = .ok t) (own : t.ruffSection = some section_) :
      Decides m c (.ok section_)

theorem fileNamePlain {name : String} (mem : name ∈ fileNames) :
    '/' ∉ name.toList ∧ name ≠ "" ∧ name ≠ "." ∧ name ≠ ".." := by
  simp only [fileNames, projectFile, List.mem_cons, List.not_mem_nil, or_false] at mem
  rcases mem with rfl | rfl | rfl <;> decide

theorem candidateNamed {directories : List Path} {c : Candidate}
    (mem : c ∈ candidatesIn directories) : c.directory ∈ directories ∧ c.name ∈ fileNames := by
  obtain ⟨d, inside, mem⟩ := List.mem_flatMap.mp mem
  obtain ⟨name, named, rfl⟩ := List.mem_map.mp mem
  exact ⟨inside, named⟩

theorem candidateComponents {c : Candidate} (named : c.name ∈ fileNames) :
    c.path.components = c.directory.components ++ [.name c.name] :=
  Path.joinName c.directory (fileNamePlain named).1 (fileNamePlain named).2

theorem listedIff {s : Storage} {c : Candidate} : c.Listed s ↔
    ((s.list c.directory).find? (·.name = c.name)).isSome = true := by
  rw [List.find?_isSome]
  simp [Candidate.Listed]

theorem candidateListed {m : Memory} {c : Candidate}
    (named : c.name ∈ fileNames) : c.Listed m.storage ↔ m.get? c.directory = none ∧
      ∃ f ∈ m.files, c.directory.components ++ [.name c.name] <+: f.1 := by
  rw [listedIff, Memory.findListed m _ (fileNamePlain named).1 (fileNamePlain named).2]
  split
  · rename_i present
    exact iff_of_true rfl present
  · rename_i absent
    exact iff_of_false Bool.false_ne_true absent

/-! The search as one row of candidates -/

def verdict (s : Storage) (c : Candidate) : Option (Except Error Table) :=
  match (s.list c.directory).find? (·.name = c.name) with
  | none => none
  | some _ =>
    match loadTable s c.path with
    | .error e => some (.error e)
    | .ok t => if c.name = projectFile then t.ruffSection.map .ok else some (.ok t)

def outcomeOf (decided : Option (Candidate × Except Error Table)) :
    Except Error (Option (Path × Table)) :=
  match decided with
  | none => .ok none
  | some (c, outcome) => outcome.map fun own => some (c.path, own)

def firstVerdict (s : Storage) (row : List Candidate) : Option (Candidate × Except Error Table) :=
  row.findSome? fun c => (verdict s c).map (c, ·)

theorem verdictCons (s : Storage) (c : Candidate) (rest : List Candidate) :
    firstVerdict s (c :: rest) = ((verdict s c).map (c, ·)).or (firstVerdict s rest) := by
  rw [firstVerdict, List.findSome?_cons]
  cases verdict s c <;> rfl

theorem verdictUnlisted {s : Storage} {c : Candidate}
    (absent : (s.list c.directory).find? (·.name = c.name) = none) : verdict s c = none := by
  rw [verdict, absent]

theorem verdictListed {s : Storage} {c : Candidate}
    (listed : ((s.list c.directory).find? (·.name = c.name)).isSome = true)
    (named : c.name ≠ projectFile) : verdict s c = some (loadTable s c.path) := by
  obtain ⟨file, found⟩ := Option.isSome_iff_exists.mp listed
  rw [verdict, found]
  cases loadTable s c.path with
  | error e => rfl
  | ok t => exact if_neg named

theorem memoryJoined (m : Memory) : m.storage.Joined := by
  intro d file listed known
  rw [Memory.listMemory] at listed
  split at listed
  · cases listed
  · obtain ⟨c, below, rfl⟩ := List.mem_map.mp listed
    generalize same : (Memory.child d c).name = name at known
    rw [Memory.childNamed below (fileNamePlain known).2.1 same]
    rfl

section joined

variable {s : Storage} (joined : s.Joined)
include joined

theorem firstOfRow (d : Path) {names : List String} (known : names ⊆ fileNames) :
    firstOf s (s.list d) names = outcomeOf (firstVerdict s (names.map (Candidate.mk d))) := by
  induction names with
  | nil => rfl
  | cons name rest ih =>
    obtain ⟨mem, more⟩ := List.cons_subset.mp known
    have later := ih more
    rw [firstOf, List.map_cons, verdictCons, verdict]
    dsimp only [Candidate.path]
    -- What is listed under the name is the candidate itself. A project file without a section of
    -- its own leaves the search to the names that follow, as one that is not there does.
    cases found : (s.list d).find? (fun found => found.name = name) with
    | none => exact later
    | some file =>
      have named : file.name = name := by simpa using List.find?_some found
      subst named
      dsimp only
      rw [joined d file (List.mem_of_find?_eq_some found) mem]
      cases loadTable s (d.join ⟨file.name⟩) with
      | error e => rfl
      | ok t =>
        dsimp only
        split
        · cases t.ruffSection with
          | none => exact later
          | some section_ => rfl
        · rfl

theorem findRow (directories : List Path) :
    findAbove s directories = outcomeOf (firstVerdict s (candidatesIn directories)) := by
  induction directories with
  | nil => rfl
  | cons d rest ih =>
    have row : firstVerdict s (candidatesIn (d :: rest)) =
        (firstVerdict s (fileNames.map (Candidate.mk d))).or
          (firstVerdict s (candidatesIn rest)) := List.findSome?_append
    rw [findAbove, findIn, firstOfRow joined d (List.Subset.refl _), row, ih]
    cases firstVerdict s (fileNames.map (Candidate.mk d)) with
    | none => rfl
    | some decided =>
      obtain ⟨c, outcome⟩ := decided
      cases outcome <;> rfl

end joined

theorem decidesIff {m : Memory} {c : Candidate} {outcome : Except Error Table} :
    Decides m c outcome ↔ verdict m.storage c = some outcome := by
  have listed : c.Listed m.storage ↔
      ∃ file, (m.storage.list c.directory).find? (·.name = c.name) = some file :=
    listedIff.trans Option.isSome_iff_exists
  constructor
  · intro decides
    cases decides with
    | unusable there failed =>
      obtain ⟨file, found⟩ := listed.mp there
      rw [verdict, found, unusableIff.mpr failed]
    | plain there named loaded =>
      obtain ⟨file, found⟩ := listed.mp there
      rw [verdict, found, loaded]
      exact if_neg named
    | project there named loaded own =>
      obtain ⟨file, found⟩ := listed.mp there
      rw [verdict, found, loaded]
      dsimp only
      rw [if_pos named, own]
      rfl
  · intro given
    rw [verdict] at given
    split at given
    · cases given
    · rename_i file found
      have there := listed.mpr ⟨file, found⟩
      split at given
      · rename_i failed
        cases given
        exact .unusable there (unusableIff.mp failed)
      · rename_i t loaded
        split at given
        · rename_i named
          obtain ⟨section_, own, same⟩ := Option.map_eq_some_iff.mp given
          cases same
          exact .project there named loaded own
        · rename_i named
          cases given
          exact .plain there named loaded

def Passed (m : Memory) (row : List Candidate) : Prop := ∀ c ∈ row, ∀ outcome, ¬ Decides m c outcome

theorem passedUnlisted {m : Memory} {row : List Candidate}
    (unlisted : ∀ c ∈ row, ¬ c.Listed m.storage) : Passed m row := by
  intro c mem outcome decides
  cases decides <;> exact unlisted c mem ‹_›

theorem passedVerdict {m : Memory} {row : List Candidate} (passed : Passed m row) :
    firstVerdict m.storage row = none := by
  refine List.findSome?_eq_none_iff.mpr fun c mem => ?_
  cases given : verdict m.storage c with
  | none => rfl
  | some outcome => exact absurd (decidesIff.mpr given) (passed c mem outcome)

theorem firstDecides {m : Memory} {before after : List Candidate} {c : Candidate}
    {outcome : Except Error Table} (passed : Passed m before) (decides : Decides m c outcome) :
    firstVerdict m.storage (before ++ c :: after) = some (c, outcome) := by
  have none := passedVerdict passed
  have rest := verdictCons m.storage c after
  rw [firstVerdict] at none rest ⊢
  rw [List.findSome?_append, none, rest, decidesIff.mp decides]
  rfl

/-! What the search depends on -/

/-- Looked at by the search: nothing before it decides. -/
def Reached (m : Memory) (p : Path) (c : Candidate) : Prop :=
  ∃ before after, candidates p = before ++ c :: after ∧ Passed m before

/-- Visited by the chain of the configuration that the search finds. -/
def Visited (s : Storage) (p : Path) (overrides : Table) (q : Path) : Prop :=
  ∃ source own files last, findAbove s p.parents = .ok (some (source, own)) ∧
    Chain s (.ofConfig source.directory (merge own overrides)) files last ∧
    Fresh [source.normalize.components] files ∧ last.next? = some q

theorem rowAgree {m m' : Memory} {row : List Candidate}
    (same : ∀ before c after, row = before ++ c :: after → Passed m before →
      verdict m.storage c = verdict m'.storage c) :
    firstVerdict m.storage row = firstVerdict m'.storage row := by
  induction row with
  | nil => rfl
  | cons c rest ih =>
    rw [verdictCons, verdictCons, ← same [] c rest rfl (by simp [Passed])]
    cases given : verdict m.storage c with
    | some outcome => rfl
    | none =>
      -- This one is passed over, so that those before a later one are passed over with it.
      refine ih fun before b after whole passed => ?_
      refine same (c :: before) b after (by rw [whole]; rfl) ?_
      refine List.forall_mem_cons.mpr ⟨fun outcome decides => ?_, passed⟩
      rw [decidesIff.mp decides] at given
      cases given

theorem loadAgree {m m' : Memory} {q : Path} (agree : m.AgreeBelow m' q.components) :
    loadTable m.storage q = loadTable m'.storage q := by
  have text : m.get? q = m'.get? q := agree q.components (List.prefix_refl _)
  have below := Memory.agreeNothingBelow agree
  have load : m.storage.load q = m'.storage.load q := by
    rcases storedOrNot m q with ⟨t, stored⟩ | ⟨absent, nothing, inner⟩ | ⟨absent, directory⟩
    · rw [loadStored stored, loadStored (text ▸ stored)]
    · rw [loadMissing absent nothing inner, loadMissing (text ▸ absent) (below.mp nothing) inner]
    · rw [loadDirectory absent directory,
        loadDirectory (text ▸ absent) (directory.imp_left (mt below.mpr))]
  rw [loadTable, loadTable, load]

theorem verdictAgree {m m' : Memory} {c : Candidate}
    (named : c.name ∈ fileNames)
    (directory : m.get? c.directory = m'.get? c.directory)
    (agree : m.AgreeBelow m' c.path.components) :
    verdict m.storage c = verdict m'.storage c := by
  obtain ⟨plain, proper⟩ := fileNamePlain named
  have listing : (m.storage.list c.directory).find? (·.name = c.name) =
      (m'.storage.list c.directory).find? (·.name = c.name) := by
    have present := Memory.agreeHeld agree (List.prefix_refl _)
    rw [candidateComponents named] at present
    rw [Memory.findListed m _ plain proper, Memory.findListed m' _ plain proper,
      directory]
    simp only [present]
  rw [verdict, verdict, listing, loadAgree agree]

theorem followAgree {s s' : Storage} (visited : List (List Component)) (directory : Path)
    (config : Table)
    (same : ∀ files last q, Chain s (.ofConfig directory config) files last →
      Fresh visited files → last.next? = some q → loadTable s q = loadTable s' q) :
    followExtends s visited directory config = followExtends s' visited directory config := by
  induction visited, directory, config using followInduction s with
  | nothing visited directory config names =>
    rw [followNothing names, followNothing names]
  | seen visited directory config q names old =>
    rw [followSeen names old, followSeen names old]
  | broken visited directory config q e names new failed =>
    have there := same [] _ q (.here _) (freshNil visited) names
    rw [followBroken names new failed, followBroken names new (there ▸ failed)]
  | step visited directory config q t names new loaded ih =>
    have there := same [] _ q (.here _) (freshNil visited) names
    rw [followStep names new loaded, followStep names new (there ▸ loaded), ih]
    intro files last b chain fresh next
    rw [Declaration.ofConfig, targetOfBase] at chain
    exact same (q :: files) last b (.step names loaded chain) (freshCons.mpr ⟨new, fresh⟩) next

/-! What the first verdict makes of a resolution -/

section decided

variable {s : Storage} (joined : s.Joined) {p : Path} {overrides : Table}
include joined

theorem resolveUndecided (undecided : firstVerdict s (candidates p) = none) :
    resolve s p overrides = .ok ⟨overrides, none, []⟩ := by
  have found := findRow joined p.parents
  rw [show firstVerdict s (candidatesIn p.parents) = none from undecided] at found
  rw [resolve, found]
  rfl

variable {c : Candidate}

theorem resolveRefused {e : Error}
    (refused : firstVerdict s (candidates p) = some (c, .error e)) :
    resolve s p overrides = .error e := by
  have found := findRow joined p.parents
  rw [show firstVerdict s (candidatesIn p.parents) = _ from refused] at found
  rw [resolve, found]
  rfl

theorem resolveDecided {own : Table}
    (decided : firstVerdict s (candidates p) = some (c, .ok own)) :
    resolve s p overrides =
      (followExtends s [c.path.normalize.components] c.path.directory
        (merge own overrides)).map fun (final, bases) => ⟨final, some c.path, bases⟩ := by
  have found := findRow joined p.parents
  rw [show firstVerdict s (candidatesIn p.parents) = _ from decided] at found
  exact resolveFound found

theorem resolveAlone {own : Table}
    (decided : firstVerdict s (candidates p) = some (c, .ok own))
    (ends : extendTarget (merge own overrides) = none) :
    resolve s p overrides = .ok ⟨merge own overrides, some c.path, []⟩ := by
  have names : (Declaration.ofConfig c.path.directory (merge own overrides)).next? = none :=
    Option.map_eq_none_iff.mpr ends
  rw [resolveDecided joined decided, followNothing names]
  rfl

theorem visitedAlone {outcome : Except Error Table} {q : Path}
    (decided : firstVerdict s (candidates p) = some (c, outcome))
    (ends : ∀ own, outcome = .ok own → extendTarget (merge own overrides) = none) :
    ¬ Visited s p overrides q := by
  rintro ⟨source, own, files, last, found, chain, -, names⟩
  have row := findRow joined p.parents
  rw [show firstVerdict s (candidatesIn p.parents) = _ from decided, found] at row
  cases outcome with
  | error e => cases row
  | ok table =>
    cases row
    have nothing : (Declaration.ofConfig c.path.directory (merge own overrides)).next? = none :=
      Option.map_eq_none_iff.mpr (ends own rfl)
    cases chain with
    | here => cases nothing.symm.trans names
    | step next => cases nothing.symm.trans next

end decided

section resolved

variable {m : Memory} {p : Path} {overrides : Table}

theorem resolveUnusableFirst {before after : List Candidate} {c : Candidate}
    {e : Error} (row : candidates p = before ++ c :: after) (passed : Passed m before)
    (decides : Decides m c (.error e)) : resolve m.storage p overrides = .error e :=
  resolveRefused (memoryJoined m) (row ▸ firstDecides passed decides)

theorem resolveFirst {before after : List Candidate} {c : Candidate}
    {own : Table} (row : candidates p = before ++ c :: after) (passed : Passed m before)
    (decides : Decides m c (.ok own)) :
    resolve m.storage p overrides =
      (followExtends m.storage [c.path.normalize.components] c.path.directory
        (merge own overrides)).map fun (final, bases) => ⟨final, some c.path, bases⟩ :=
  resolveDecided (memoryJoined m) (row ▸ firstDecides passed decides)

theorem resolveNone (passed : Passed m (candidates p)) :
    resolve m.storage p overrides = .ok ⟨overrides, none, []⟩ :=
  resolveUndecided (memoryJoined m) (passedVerdict passed)

/-- The first candidate that is there holds a table of its own, which extends nothing. -/
theorem resolveStored {before after : List Candidate} {c : Candidate}
    {text : String} {t : Table} (row : candidates p = before ++ c :: after)
    (missing : ∀ b ∈ before,
      ¬ ∃ f ∈ m.files, b.directory.components ++ [.name b.name] <+: f.1)
    (named : c.name ≠ projectFile) (free : m.get? c.directory = none)
    (stored : m.get? c.path = some text) (read : Toml.read? text = some t)
    (ends : extendTarget (merge t overrides) = none) :
    resolve m.storage p overrides = .ok ⟨merge t overrides, some c.path, []⟩ := by
  have known (b : Candidate) (mem : b ∈ before ++ c :: after) : b.name ∈ fileNames :=
    (candidateNamed (row ▸ mem : b ∈ candidates p)).2
  have hidden : Passed m before := by
    refine passedUnlisted fun b mem => ?_
    rw [candidateListed (known b (List.mem_append_left _ mem))]
    exact mt And.right (missing b mem)
  have own := known c (List.mem_append_right _ List.mem_cons_self)
  have listed : c.Listed m.storage := by
    rw [candidateListed own, ← candidateComponents own]
    obtain ⟨f, mem, same⟩ := Storage.Texts.keyHeld.mpr (stored ▸ Option.some_ne_none text)
    exact ⟨free, f, mem, same ▸ List.prefix_refl _⟩
  have decides := Decides.plain listed named (loadRead stored read)
  exact resolveAlone (memoryJoined m) (row ▸ firstDecides hidden decides) ends

theorem resolveAgree {m' : Memory}
    (above : ∀ d ∈ p.parents, m.get? d = m'.get? d)
    (reached : ∀ c, Reached m p c → m.AgreeBelow m' c.path.components)
    (visited : ∀ q, Visited m.storage p overrides q → m.AgreeBelow m' q.components) :
    resolve m'.storage p overrides = resolve m.storage p overrides := by
  have search : findAbove m.storage p.parents = findAbove m'.storage p.parents := by
    rw [findRow (memoryJoined m), findRow (memoryJoined m')]
    refine congrArg outcomeOf (rowAgree fun before c after row passed => ?_)
    obtain ⟨inside, named⟩ := candidateNamed (row ▸ List.mem_append_right _ List.mem_cons_self)
    exact verdictAgree named (above _ inside) (reached c ⟨before, after, row, passed⟩)
  rw [resolve, resolve, ← search]
  cases found : findAbove m.storage p.parents with
  | error e => rfl
  | ok result =>
    cases result with
    | none => rfl
    | some pair =>
      obtain ⟨source, own⟩ := pair
      have follow : followExtends m.storage [source.normalize.components] source.directory
            (merge own overrides) =
          followExtends m'.storage [source.normalize.components] source.directory
            (merge own overrides) :=
        followAgree _ _ _ fun files last q chain fresh next =>
          loadAgree (visited q ⟨source, own, files, last, found, chain, fresh, next⟩)
      dsimp only
      rw [follow]

end resolved

theorem visitedNone {m : Memory} {p q : Path} {overrides : Table} {r : Resolved}
    (done : resolve m.storage p overrides = .ok r) (alone : r.bases = []) :
    ¬ Visited m.storage p overrides q := by
  rintro ⟨source, own, files, last, found, chain, -, names⟩
  obtain ⟨-, start, here, ends⟩ := (resolveSuccess found).mp ⟨r, done, alone⟩
  cases here
  cases chain with
  | here => cases ends.symm.trans names
  | step next => cases ends.symm.trans next

theorem candidatesListed {p : Path} (named : ∀ c ∈ p.components, ∃ name, c = .name name) :
    (candidates p).map (·.path.components) =
      (List.range p.components.length).reverse.flatMap fun i =>
        fileNames.map fun name => p.components.take i ++ [.name name] := by
  have relative : .root ∉ p.components := fun mem => by
    obtain ⟨name, same⟩ := named _ mem
    cases same
  have one (d : Path) : (fileNames.map (Candidate.mk d)).map (·.path.components) =
      fileNames.map fun name => d.components ++ [.name name] := by
    rw [List.map_map]
    exact List.map_congr_left fun name mem => candidateComponents (c := ⟨d, name⟩) mem
  have rows := congrArg (List.flatMap fun d => fileNames.map fun name => d ++ [.name name])
    (Path.parentsListed relative)
  rw [List.flatMap_map, List.flatMap_map] at rows
  rw [candidates, candidatesIn, List.map_flatMap, ← rows]
  simp only [one]

theorem searchDecides (m : Memory) (p : Path) (overrides : Table) :
    ((∀ c ∈ p.components, ∃ name, c = .name name) →
      (candidates p).map (·.path.components) =
        (List.range p.components.length).reverse.flatMap fun i =>
          fileNames.map fun name => p.components.take i ++ [.name name]) ∧
    (∀ before c after e, candidates p = before ++ c :: after → Passed m before →
      Decides m c (.error e) →
        Unusable m c.path e ∧ resolve m.storage p overrides = .error e) ∧
    (∀ before c after own, candidates p = before ++ c :: after → Passed m before →
      Decides m c (.ok own) →
        resolve m.storage p overrides =
          (followExtends m.storage [c.path.normalize.components] c.path.directory
            (merge own overrides)).map fun (final, bases) => ⟨final, some c.path, bases⟩) ∧
    (Passed m (candidates p) → resolve m.storage p overrides = .ok ⟨overrides, none, []⟩) ∧
    ∀ f : Path, ¬ f.components <+: p.components.dropLast →
      (∀ c, Reached m p c → ¬ c.path.components <+: f.components) →
      (∀ q, Visited m.storage p overrides q → ¬ q.components <+: f.components) →
      (∀ text, resolve (m.insert f text).storage p overrides = resolve m.storage p overrides) ∧
        resolve (m.remove f).storage p overrides = resolve m.storage p overrides := by
  refine ⟨candidatesListed, ?_, ?_, resolveNone, ?_⟩
  · intro before c after e row passed decides
    refine ⟨?_, resolveUnusableFirst row passed decides⟩
    cases decides with
    | unusable listed failed => exact failed
  · exact fun before c after own row passed decides => resolveFirst row passed decides
  · intro f outside reached visited
    have apart (d : Path) (mem : d ∈ p.parents) : ¬ d.components = f.components :=
      fun same => outside (same ▸ Path.parentsAbove mem)
    constructor
    · intro text
      refine resolveAgree (fun d mem => ?_)
        (fun c at_ => Memory.agreeInsert m text (reached c at_))
        (fun q at_ => Memory.agreeInsert m text (visited q at_))
      rw [Memory.getInsert, if_neg (apart d mem)]
    · refine resolveAgree (fun d mem => ?_)
        (fun c at_ => Memory.agreeRemove m (reached c at_))
        (fun q at_ => Memory.agreeRemove m (visited q at_))
      rw [Memory.getRemove, if_neg (apart d mem)]

theorem nestedVisited {overrides : Table} {q : Path}
    (next : (Declaration.ofConfig (Path.directory ⟨"d/ruff.toml"⟩)
      (merge (.cons "extend" (.string "../b.toml") .nil) overrides)).next? = some ⟨"b.toml"⟩)
    (visited : Visited nestedMemory.storage ⟨"d/x.py"⟩ overrides q) : q = ⟨"b.toml"⟩ := by
  have ends : (Declaration.ofBase ⟨"b.toml"⟩ (.cons "x" (.integer 1) .nil)).next? = none := by
    decide
  obtain ⟨source, own, files, last, found, chain, -, names⟩ := visited
  cases nestedFound.symm.trans found
  rcases nestedChain next chain with ⟨-, rfl⟩ | ⟨-, rfl⟩
  · exact (Option.some.inj (next.symm.trans names)).symm
  · cases ends.symm.trans names

theorem nestedRow : candidates ⟨"d/x.py"⟩ =
    [⟨⟨"d"⟩, ".ruff.toml"⟩] ++ ⟨⟨"d"⟩, "ruff.toml"⟩ ::
      [⟨⟨"d"⟩, projectFile⟩, ⟨⟨""⟩, ".ruff.toml"⟩, ⟨⟨""⟩, "ruff.toml"⟩, ⟨⟨""⟩, projectFile⟩] := by
  rw [candidates, nestedParents]
  rfl

theorem nestedHidden : Passed nestedMemory [⟨⟨"d"⟩, ".ruff.toml"⟩] := by
  refine passedUnlisted (List.forall_mem_singleton.mpr ?_)
  rw [candidateListed (by decide)]
  decide

theorem nestedDecides : Decides nestedMemory ⟨⟨"d"⟩, "ruff.toml"⟩
    (.ok (.cons "extend" (.string "../b.toml") .nil)) := by
  have path : Candidate.path ⟨⟨"d"⟩, "ruff.toml"⟩ = ⟨"d/ruff.toml"⟩ := by decide
  refine .plain ?_ (by decide) (path ▸ nestedSource)
  rw [candidateListed (by decide)]
  decide

theorem searchDecidesNested :
    (∃ outcome : Except Error (Table × List Path),
      resolve nestedMemory.storage ⟨"d/x.py"⟩ .nil =
        outcome.map fun (final, bases) => ⟨final, some ⟨"d/ruff.toml"⟩, bases⟩) ∧
    resolve (nestedMemory.insert ⟨"e/x.toml"⟩ "y = 2").storage ⟨"d/x.py"⟩ .nil =
      resolve nestedMemory.storage ⟨"d/x.py"⟩ .nil := by
  obtain ⟨-, -, first, -, frame⟩ := searchDecides nestedMemory ⟨"d/x.py"⟩ .nil
  have path : Candidate.path ⟨⟨"d"⟩, "ruff.toml"⟩ = ⟨"d/ruff.toml"⟩ := by decide
  refine ⟨⟨_, path ▸ first _ _ _ _ nestedRow nestedHidden nestedDecides⟩, ?_⟩
  refine (frame ⟨"e/x.toml"⟩ (by decide) ?_ ?_).1 _
  · rintro c ⟨before, after, row, -⟩
    have mem : c ∈ candidates ⟨"d/x.py"⟩ :=
      row ▸ List.mem_append_right _ List.mem_cons_self
    have apart : ∀ c ∈ candidates ⟨"d/x.py"⟩,
        ¬ c.path.components <+: Path.components ⟨"e/x.toml"⟩ := by
      rw [nestedRow]
      decide
    exact apart c mem
  · intro q visited
    rw [nestedVisited (by decide +kernel) visited]
    decide

end Config
end NotebookTidy
