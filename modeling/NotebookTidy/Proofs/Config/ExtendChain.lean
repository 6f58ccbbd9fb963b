import NotebookTidy.Config.Resolution
import NotebookTidy.Proofs.Config.Lookup
import NotebookTidy.Storage.Memory

/-! The chain of files that a configuration extends, as each file on it declares the next. The
chain is told without the tables that are merged along it; following it does as it says, and ends
at its end, at a file that it has come to before, or at one that cannot be read. -/
namespace NotebookTidy.Config
open Storage (Memory)

structure Declaration where
  directory : Path
  target : Option String

def Declaration.next? (d : Declaration) : Option Path :=
  d.target.map fun target => (d.directory.join ⟨target⟩).normalize

def Declaration.ofConfig (directory : Path) (config : Table) : Declaration :=
  ⟨directory, extendTarget config⟩

def Declaration.ofBase (p : Path) (t : Table) : Declaration := .ofConfig p.directory (baseTable p t)

inductive Chain (s : Storage) : Declaration → List Path → Declaration → Prop where
  | here (d : Declaration) : Chain s d [] d
  | step {d : Declaration} {p : Path} {t : Table} {files : List Path} {last : Declaration}
      (names : d.next? = some p) (loaded : loadTable s p = .ok t)
      (rest : Chain s (.ofBase p t) files last) : Chain s d (p :: files) last

/-- Two paths are one file if their components are the same. -/
def Fresh (visited : List (List Component)) (files : List Path) : Prop :=
  (files.map Path.components).Nodup ∧ ∀ p ∈ files, p.components ∉ visited

def Seen (visited : List (List Component)) (files : List Path) (q : Path) : Prop :=
  q.components ∈ visited ∨ q.components ∈ files.map Path.components

inductive Ends (s : Storage) (visited : List (List Component)) (files : List Path)
    (last : Declaration) : Except Error Unit → Prop where
  | complete (names : last.next? = none) : Ends s visited files last (.ok ())
  | cycle {q : Path} (names : last.next? = some q) (old : Seen visited files q) :
      Ends s visited files last (.error (.extendCycle q))
  | broken {q : Path} {e : Error} (names : last.next? = some q) (new : ¬ Seen visited files q)
      (failed : loadTable s q = .error e) : Ends s visited files last (.error e)

theorem freshNil (visited : List (List Component)) : Fresh visited [] := ⟨.nil, by simp⟩

theorem freshCons {visited : List (List Component)} {p : Path} {files : List Path} :
    Fresh visited (p :: files) ↔
      p.components ∉ visited ∧ Fresh (p.components :: visited) files := by
  simp only [Fresh, List.map_cons, List.nodup_cons]
  constructor
  · rintro ⟨⟨apart, distinct⟩, new⟩
    obtain ⟨first, others⟩ := List.forall_mem_cons.mp new
    refine ⟨first, distinct, fun q mem seen => ?_⟩
    rcases List.mem_cons.mp seen with same | old
    · exact apart (List.mem_map.mpr ⟨q, mem, same⟩)
    · exact others q mem old
  · rintro ⟨first, distinct, others⟩
    refine ⟨⟨fun repeated => ?_, distinct⟩, List.forall_mem_cons.mpr ⟨first, fun q mem old => ?_⟩⟩
    · obtain ⟨q, mem, same⟩ := List.mem_map.mp repeated
      exact others q mem (List.mem_cons.mpr (.inl same))
    · exact others q mem (List.mem_cons_of_mem _ old)

theorem seenCons {visited : List (List Component)} {p : Path} {files : List Path} {q : Path} :
    Seen visited (p :: files) q ↔ Seen (p.components :: visited) files q := by
  simp only [Seen, List.map_cons, List.mem_cons, or_assoc, or_left_comm]

theorem endsCons {s : Storage} {visited : List (List Component)} {p : Path} {files : List Path}
    {last : Declaration} {outcome : Except Error Unit} :
    Ends s visited (p :: files) last outcome ↔
      Ends s (p.components :: visited) files last outcome := by
  constructor <;> intro h
  · cases h with
    | complete names => exact .complete names
    | cycle names old => exact .cycle names (seenCons.mp old)
    | broken names new failed => exact .broken names (mt seenCons.mpr new) failed
  · cases h with
    | complete names => exact .complete names
    | cycle names old => exact .cycle names (seenCons.mpr old)
    | broken names new failed => exact .broken names (mt seenCons.mp new) failed

theorem targetOfBase (base config : Table) :
    extendTarget (merge base (config.erase extendKey)) = extendTarget base := by
  have own : (config.erase extendKey).get? extendKey = none := by
    rw [getErase, if_pos rfl]
  rw [extendTarget, merge, getOver, own]
  rfl

theorem mapOk {ε α β : Type} {x : Except ε α} {f : α → β} {b : β} (h : x.map f = .ok b) :
    ∃ a, x = .ok a ∧ f a = b := by
  cases x with
  | error e => cases h
  | ok a => exact ⟨a, rfl, Except.ok.inj h⟩

theorem mapError {α β : Type} {x : Except Error α} {f : α → β} {e : Error}
    (h : x.map f = .error e) : x = .error e := by
  cases x with
  | error e => cases h; rfl
  | ok a => cases h

theorem bindOk {ε α β : Type} {x : Except ε α} {f : α → Except ε β} {b : β}
    (h : x >>= f = .ok b) : ∃ a, x = .ok a ∧ f a = .ok b := by
  cases x with
  | error e => cases h
  | ok a => exact ⟨a, rfl, h⟩

section follow

variable {s : Storage} {visited : List (List Component)} {directory : Path} {config : Table}

theorem nextIff {q : Path} : (Declaration.ofConfig directory config).next? = some q ↔
    ∃ target, extendTarget config = some target ∧ (directory.join ⟨target⟩).normalize = q :=
  Option.map_eq_some_iff

theorem followNothing (names : (Declaration.ofConfig directory config).next? = none) :
    followExtends s visited directory config = .ok (config, []) := by
  have target : extendTarget config = none := Option.map_eq_none_iff.mp names
  rw [followExtends, target]

theorem followSeen {q : Path} (names : (Declaration.ofConfig directory config).next? = some q)
    (old : q.components ∈ visited) :
    followExtends s visited directory config = .error (.extendCycle q) := by
  obtain ⟨target, found, rfl⟩ := nextIff.mp names
  rw [followExtends, found]
  exact dif_pos (List.contains_iff_mem.mpr old)

theorem followBroken {q : Path} {e : Error}
    (names : (Declaration.ofConfig directory config).next? = some q)
    (new : q.components ∉ visited) (failed : loadTable s q = .error e) :
    followExtends s visited directory config = .error e := by
  obtain ⟨target, found, rfl⟩ := nextIff.mp names
  rw [followExtends, found]
  dsimp only
  rw [dif_neg (mt List.contains_iff_mem.mp new), failed]

theorem followStep {q : Path} {t : Table}
    (names : (Declaration.ofConfig directory config).next? = some q)
    (new : q.components ∉ visited) (loaded : loadTable s q = .ok t) :
    followExtends s visited directory config =
      (followExtends s (q.components :: visited) q.directory
        (merge (baseTable q t) (config.erase extendKey))).map fun (final, bases) =>
          (final, q :: bases) := by
  obtain ⟨target, found, rfl⟩ := nextIff.mp names
  rw [followExtends, found]
  dsimp only
  rw [dif_neg (mt List.contains_iff_mem.mp new), loaded]

/-- Induction along the files that are loaded; the texts that a storage holds run out. -/
theorem followInduction (s : Storage) {motive : List (List Component) → Path → Table → Prop}
    (nothing : ∀ visited directory config,
      (Declaration.ofConfig directory config).next? = none → motive visited directory config)
    (seen : ∀ visited directory config q, (Declaration.ofConfig directory config).next? = some q →
      q.components ∈ visited → motive visited directory config)
    (broken : ∀ visited directory config q e,
      (Declaration.ofConfig directory config).next? = some q → q.components ∉ visited →
      loadTable s q = .error e → motive visited directory config)
    (step : ∀ visited directory config q t,
      (Declaration.ofConfig directory config).next? = some q → q.components ∉ visited →
      loadTable s q = .ok t →
      motive (q.components :: visited) q.directory
        (merge (baseTable q t) (config.erase extendKey)) → motive visited directory config)
    (visited : List (List Component)) (directory : Path) (config : Table) :
    motive visited directory config := by
  induction visited, directory, config using followExtends.induct s with
  | case1 visited directory config ended =>
    exact nothing _ _ _ (congrArg (Option.map _) ended)
  | case2 visited directory config target found base old =>
    exact seen _ _ _ _ (nextIff.mpr ⟨target, found, rfl⟩) (List.contains_iff_mem.mp old)
  | case3 visited directory config target found base new e failed =>
    exact broken _ _ _ _ e (nextIff.mpr ⟨target, found, rfl⟩)
      (mt List.contains_iff_mem.mpr new) failed
  | case4 visited directory config target found base new t loaded ih =>
    exact step _ _ _ _ t (nextIff.mpr ⟨target, found, rfl⟩)
      (mt List.contains_iff_mem.mpr new) loaded ih

theorem followFinal {final : Table} {bases : List Path}
    (done : followExtends s visited directory config = .ok (final, bases)) :
    extendTarget final = none := by
  induction visited, directory, config using followInduction s generalizing bases with
  | nothing visited directory config names =>
    rw [followNothing names] at done
    cases done
    exact Option.map_eq_none_iff.mp names
  | seen visited directory config q names old =>
    rw [followSeen names old] at done
    cases done
  | broken visited directory config q e names new failed =>
    rw [followBroken names new failed] at done
    cases done
  | step visited directory config q t names new loaded ih =>
    rw [followStep names new loaded] at done
    obtain ⟨⟨last, more⟩, rest, same⟩ := mapOk done
    cases same
    exact ih rest

theorem followSound (s : Storage) (visited : List (List Component)) (directory : Path)
    (config : Table) :
    ∃ files last outcome, Chain s (.ofConfig directory config) files last ∧
      Fresh visited files ∧ Ends s visited files last outcome ∧
      (followExtends s visited directory config).map Prod.snd = outcome.map fun _ => files := by
  have unseen {visited : List (List Component)} {q : Path} (new : q.components ∉ visited) :
      ¬ Seen visited [] q := by simpa [Seen] using new
  induction visited, directory, config using followInduction s with
  | nothing visited directory config names =>
    exact ⟨[], _, _, .here _, freshNil visited, .complete names, by rw [followNothing names]; rfl⟩
  | seen visited directory config q names old =>
    exact ⟨[], _, _, .here _, freshNil visited, .cycle names (.inl old),
      by rw [followSeen names old]; rfl⟩
  | broken visited directory config q e names new failed =>
    exact ⟨[], _, _, .here _, freshNil visited, .broken names (unseen new) failed,
      by rw [followBroken names new failed]; rfl⟩
  | step visited directory config q t names new loaded ih =>
    obtain ⟨files, last, outcome, chain, fresh, ends, same⟩ := ih
    rw [Declaration.ofConfig, targetOfBase] at chain
    refine ⟨q :: files, last, outcome, .step names loaded chain, freshCons.mpr ⟨new, fresh⟩,
      endsCons.mpr ends, ?_⟩
    rw [followStep names new loaded]
    cases outcome with
    | ok u =>
      obtain ⟨⟨final, bases⟩, found, rfl⟩ := mapOk same
      rw [found]
      rfl
    | error e =>
      rw [mapError same]
      rfl

theorem followComplete {d last : Declaration} {files : List Path} {outcome : Except Error Unit}
    (chain : Chain s d files last) (same : d = .ofConfig directory config)
    (fresh : Fresh visited files) (ends : Ends s visited files last outcome) :
    (followExtends s visited directory config).map Prod.snd = outcome.map fun _ => files := by
  induction chain generalizing visited directory config with
  | here d =>
    subst same
    cases ends with
    | complete names =>
      rw [followNothing names]
      rfl
    | cycle names old =>
      rw [followSeen names (by simpa [Seen] using old)]
      rfl
    | broken names new failed =>
      rw [followBroken names (by simpa [Seen] using new) failed]
      rfl
  | @step d p t files last names loaded rest ih =>
    subst same
    obtain ⟨new, others⟩ := freshCons.mp fresh
    have next : Declaration.ofBase p t =
        .ofConfig p.directory (merge (baseTable p t) (config.erase extendKey)) := by
      rw [Declaration.ofConfig, targetOfBase]
      rfl
    have tail := ih next others (endsCons.mp ends)
    rw [followStep names new loaded]
    cases outcome with
    | ok u =>
      obtain ⟨⟨final, bases⟩, found, rfl⟩ := mapOk tail
      rw [found]
      rfl
    | error e =>
      rw [mapError tail]
      rfl

end follow

end NotebookTidy.Config
