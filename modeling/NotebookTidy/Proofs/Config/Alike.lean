import Mathlib.Data.Option.Defs
import NotebookTidy.Proofs.Config.Discovery
import NotebookTidy.Proofs.Path.Spelling

/-! When two resolutions give the same. They may search two storages, or one storage from paths that
are spelled differently. Which error a resolution ends in may differ, not whether it ends in one. -/
namespace NotebookTidy.Config

/-- Two places of a search: both are passed over, both cannot be used, or both hold one table. -/
structure Candidate.Alike (near : Path → Path → Prop) (s s' : Storage) (c c' : Candidate) :
    Prop where
  path : near c.path c'.path
  verdict : (verdict s c).map Except.toOption = (verdict s' c').map Except.toOption

structure Resolved.Alike (near : Path → Path → Prop) (r r' : Resolved) : Prop where
  config : r.config = r'.config
  source : Option.Rel near r.source r'.source
  bases : r.bases = r'.bases

theorem alikeSame {x y : Option Resolved} (alike : Option.Rel (Resolved.Alike Eq) x y) : x = y := by
  cases alike with
  | none => rfl
  | @some r r' same =>
    obtain ⟨config, source, bases⟩ := r
    obtain ⟨config', source', bases'⟩ := r'
    obtain ⟨rfl, sources, rfl⟩ := same
    cases sources with
    | none => rfl
    | some here => rw [here]

theorem nextSame {d d' : Path} (same : d.components = d'.components) (config : Table) :
    (Declaration.ofConfig d config).next? = (Declaration.ofConfig d' config).next? := by
  have target (target : String) :
      (d.join ⟨target⟩).normalize = (d'.join ⟨target⟩).normalize := by
    rw [Path.normalize, Path.normalize, Path.joinComponents, Path.joinComponents, same]
  exact congrArg (Option.map · _) (funext target)

theorem toOptionMap {ε α β : Type} (x : Except ε α) (f : α → β) :
    (x.map f).toOption = x.toOption.map f := by
  cases x <;> rfl

theorem toOptionBind {ε α β : Type} (x : Except ε α) (f : α → Except ε β) :
    (x >>= f).toOption = x.toOption.bind fun a => (f a).toOption := by
  cases x <;> rfl

theorem toOptionError {ε α : Type} {x : Except ε α} (none : x.toOption = none) :
    ∃ e, x = .error e := by
  cases x with
  | error e => exact ⟨e, rfl⟩
  | ok a => cases none

theorem toOptionOk {ε α : Type} {x : Except ε α} {a : α} (some_ : x.toOption = some a) :
    x = .ok a := by
  cases x with
  | error e => cases some_
  | ok b => exact congrArg _ (Option.some.inj some_)

theorem loadTableRead (s : Storage) (p : Path) :
    (loadTable s p).toOption = (s.load p).toOption.bind Toml.read? := by
  unfold loadTable
  cases s.load p with
  | error e => rfl
  | ok text =>
    dsimp only
    cases read : Toml.read? text with
    | none => simp [Except.toOption, read]
    | some t => simp [Except.toOption, read]

theorem verdictAlike {s s' : Storage} {c c' : Candidate} (name : c.name = c'.name)
    (listed : ((s.list c.directory).find? (·.name = c.name)).isSome =
      ((s'.list c'.directory).find? (·.name = c'.name)).isSome)
    (loaded : ((s.list c.directory).find? (·.name = c.name)).isSome = true →
      (loadTable s c.path).toOption = (loadTable s' c'.path).toOption) :
    (verdict s c).map Except.toOption = (verdict s' c').map Except.toOption := by
  rw [verdict, verdict]
  cases found : (s.list c.directory).find? (·.name = c.name) with
  | none =>
    rw [found] at listed
    rw [Option.isSome_eq_false_iff.mp listed.symm |> Option.isNone_iff_eq_none.mp]
  | some file =>
    rw [found] at listed loaded
    obtain ⟨file', found'⟩ := Option.isSome_iff_exists.mp listed.symm
    rw [found']
    have tables := loaded rfl
    dsimp only
    rw [← name]
    cases here : loadTable s c.path with
    | error e =>
      rw [here] at tables
      obtain ⟨e', there⟩ := toOptionError tables.symm
      rw [there]
      rfl
    | ok t =>
      rw [here] at tables
      rw [toOptionOk tables.symm]

section searches

variable {s s' : Storage} {near : Path → Path → Prop}

theorem firstAlike {row row' : List Candidate}
    (alike : List.Forall₂ (Candidate.Alike near s s') row row') :
    Option.Rel (fun x x' => near x.1.path x'.1.path ∧ x.2.toOption = x'.2.toOption)
      (firstVerdict s row) (firstVerdict s' row') := by
  induction alike with
  | nil => exact .none
  | @cons c c' rest rest' here _ ih =>
    have verdicts := here.verdict
    rw [verdictCons, verdictCons]
    cases given : verdict s c with
    | none =>
      rw [given] at verdicts
      rw [Option.map_eq_none_iff.mp verdicts.symm]
      exact ih
    | some outcome =>
      rw [given] at verdicts
      obtain ⟨outcome', given', same⟩ := Option.map_eq_some_iff.mp verdicts.symm
      rw [given']
      exact .some ⟨here.path, same.symm⟩

theorem followAlike (visited : List (List Component)) {d d' : Path} (config : Table)
    (same : d.components = d'.components)
    (loads : ∀ files last q, Chain s (.ofConfig d config) files last →
      Fresh visited files → last.next? = some q →
      (loadTable s q).toOption = (loadTable s' q).toOption) :
    (followExtends s visited d config).toOption =
      (followExtends s' visited d' config).toOption := by
  -- From the first base on both chains are in the directories of the same paths.
  induction visited, d, config using followInduction s generalizing d' with
  | nothing visited d config names =>
    rw [followNothing names, followNothing (nextSame same config ▸ names)]
  | seen visited d config q names old =>
    rw [followSeen names old, followSeen (nextSame same config ▸ names) old]
  | broken visited d config q e names new failed =>
    have there := loads [] _ q (.here _) (freshNil visited) names
    rw [failed] at there
    obtain ⟨e', failed'⟩ := toOptionError there.symm
    rw [followBroken names new failed, followBroken (nextSame same config ▸ names) new failed']
    rfl
  | step visited d config q t names new loaded ih =>
    have there := loads [] _ q (.here _) (freshNil visited) names
    rw [loaded] at there
    rw [followStep names new loaded,
      followStep (nextSame same config ▸ names) new (toOptionOk there.symm), toOptionMap,
      toOptionMap, ih rfl]
    intro files last b chain fresh next
    rw [Declaration.ofConfig, targetOfBase] at chain
    exact loads (q :: files) last b (.step names loaded chain) (freshCons.mpr ⟨new, fresh⟩) next

theorem resolveAlike (joined : s.Joined) (joined' : s'.Joined)
    (spelled : ∀ a b, near a b → a.components = b.components) {p p' : Path} {overrides : Table}
    (rows : List.Forall₂ (Candidate.Alike near s s') (candidates p) (candidates p'))
    (loads : ∀ q, Visited s p overrides q →
      (loadTable s q).toOption = (loadTable s' q).toOption) :
    Option.Rel (Resolved.Alike near) (resolve s p overrides).toOption
      (resolve s' p' overrides).toOption := by
  have first := firstAlike rows
  have found := findRow joined p.parents
  have found' := findRow joined' p'.parents
  rw [show candidatesIn p.parents = candidates p from rfl] at found
  rw [show candidatesIn p'.parents = candidates p' from rfl] at found'
  generalize firstVerdict s (candidates p) = x at first found
  generalize firstVerdict s' (candidates p') = x' at first found'
  cases first with
  | none =>
    rw [resolve, resolve, found, found']
    exact .some ⟨rfl, .none, rfl⟩
  | @some a a' here =>
    obtain ⟨c, outcome⟩ := a
    obtain ⟨c', outcome'⟩ := a'
    obtain ⟨place, outcomes⟩ := here
    dsimp only at place outcomes
    cases outcome with
    | error e =>
      obtain ⟨e', rfl⟩ := toOptionError outcomes.symm
      rw [resolve, resolve, found, found']
      exact .none
    | ok own =>
      cases toOptionOk outcomes.symm
      have components := spelled _ _ place
      have follow : (followExtends s [c.path.normalize.components] c.path.directory
            (merge own overrides)).toOption =
          (followExtends s' [c'.path.normalize.components] c'.path.directory
            (merge own overrides)).toOption := by
        rw [Path.normalize, components]
        refine followAlike _ _ ?_ fun files last q chain fresh next => loads q
          ⟨c.path, own, files, last, found, chain, ?_, next⟩
        · rw [Path.directoryComponents, Path.directoryComponents, components]
        · rwa [Path.normalize, components]
      rw [resolveFound found, resolveFound found', toOptionMap, toOptionMap, follow]
      cases (followExtends s' [c'.path.normalize.components] c'.path.directory
        (merge own overrides)).toOption with
      | none => exact .none
      | some result => exact .some ⟨rfl, .some place, rfl⟩

end searches

end NotebookTidy.Config
