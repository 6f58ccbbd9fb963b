import Mathlib.Data.List.Forall2
import NotebookTidy.Proofs.Config.Alike
import NotebookTidy.Proofs.Config.Containment
import NotebookTidy.Proofs.Storage.Placing
import NotebookTidy.Proofs.Workspace.ImportSorting

/-! When one resolution serves all the paths of a directory. Workspaces depend on the directory of a
path alone, and not on how it is spelled: in memory always, and on a disk as long as the names of
configuration files, joined to each spelling, are within the limit to the length of a path. -/
namespace NotebookTidy
open Config

/-- Two spellings of one path. -/
def Path.Alike (p q : Path) : Prop := p.components = q.components

namespace Storage

/-- What is found under a path does not depend on how the path is spelled. -/
structure Spelled (s : Storage) : Prop where
  joined : s.Joined
  lists : ∀ a b : Path, a.Alike b → ∀ name ∈ fileNames,
    ((s.list a).find? (·.name = name)).isSome = ((s.list b).find? (·.name = name)).isSome
  loads : ∀ a b : Path, a.Alike b → (s.load a).toOption = (s.load b).toOption

/-- No path at which a configuration is looked for is too long for a disk. -/
def Disk.InReach (root p : Path) : Prop :=
  ∀ c ∈ candidates p, (Disk.resolved root c.path).Short

/-- A storage in which none of the given paths is resolved otherwise for its spelling. -/
inductive Uniform : Storage → List Path → Prop where
  | spelled {s : Storage} {asked : List Path} (all : s.Spelled) : Uniform s asked
  | disk {tree : FileTree} {root : Path} {asked : List Path} (reach : ∀ p ∈ asked, ∀ q ∈ asked,
        p.directory.Alike q.directory →
          p.directory = q.directory ∨ Disk.InReach root p ∧ Disk.InReach root q) :
      Uniform (Disk.storage tree root) asked

theorem Memory.spelled (m : Memory) : m.storage.Spelled where
  joined := memoryJoined m
  lists a b same name known := by
    obtain ⟨plain, named⟩ := fileNamePlain known
    rw [findListed m _ plain named, findListed m _ plain named, get?, get?, same]
    split <;> rfl
  loads a b same := by rw [loadMemory, loadMemory, get?, get?, same]

end Storage

namespace Config
open Storage (Memory FileTree)

variable {c c' : Candidate}

theorem candidateAlike (name : c.name = c'.name) (known : c.name ∈ fileNames)
    (directory : c.directory.Alike c'.directory) : c.path.Alike c'.path := by
  rw [Path.Alike, candidateComponents known, candidateComponents (name ▸ known), directory, name]

theorem spelledAlike {s : Storage} (spelled : s.Spelled) (name : c.name = c'.name)
    (known : c.name ∈ fileNames) (directory : c.directory.Alike c'.directory) :
    c.Alike Path.Alike s s c' := by
  have path := candidateAlike name known directory
  refine ⟨path, verdictAlike name ?_ fun _ => ?_⟩
  · rw [spelled.lists _ _ directory _ known, name]
  · rw [loadTableRead, loadTableRead, spelled.loads _ _ path]

theorem diskAlike {tree : FileTree} {root : Path} (name : c.name = c'.name)
    (known : c.name ∈ fileNames) (directory : c.directory.Alike c'.directory)
    (short : (Storage.Disk.resolved root c.path).Short)
    (short' : (Storage.Disk.resolved root c'.path).Short) :
    c.Alike Path.Alike (Storage.Disk.storage tree root) (Storage.Disk.storage tree root) c' := by
  have path := candidateAlike name known directory
  obtain ⟨plain, named⟩ := fileNamePlain known
  obtain ⟨plain', named'⟩ := fileNamePlain (name ▸ known)
  refine ⟨path, verdictAlike name ?_ fun _ => ?_⟩
  · have above := Storage.Disk.shortAbove plain named.1 short
    have above' := Storage.Disk.shortAbove plain' named'.1 short'
    rw [Storage.Disk.listedFind above, Storage.Disk.listedFind above',
      Storage.Disk.resolvedSame directory, name]
  · have place : (Storage.Disk.resolved root c.path).components =
      (Storage.Disk.resolved root c'.path).components := Storage.Disk.resolvedSame path
    rw [Candidate.path, Candidate.path] at place
    rw [loadTableRead, loadTableRead, Candidate.path, Candidate.path,
      Storage.Disk.loadNamed plain named short, Storage.Disk.loadNamed plain' named' short', place]

theorem rowsAlike {s s' : Storage} {near : Path → Path → Prop} {ds es : List Path}
    (above : List.Forall₂ Path.Alike ds es)
    (one : ∀ c ∈ candidatesIn ds, ∀ c' ∈ candidatesIn es, c.name = c'.name →
      c.directory.Alike c'.directory → c.Alike near s s' c') :
    List.Forall₂ (Candidate.Alike near s s') (candidatesIn ds) (candidatesIn es) := by
  induction above with
  | nil => exact .nil
  | @cons d e ds es here _ ih =>
    refine List.rel_append ?_ (ih fun c mem c' mem' => one c ?_ c' ?_)
    · rw [List.forall₂_map_left_iff, List.forall₂_map_right_iff, List.forall₂_same]
      exact fun name known => one _ (List.mem_append_left _ (List.mem_map_of_mem known)) _
        (List.mem_append_left _ (List.mem_map_of_mem known)) rfl here
    · exact List.mem_append_right _ mem
    · exact List.mem_append_right _ mem'

theorem workspaceSame {s s' : Storage} {p q : Path} {overrides : Table}
    (configs : (resolve s p overrides).toOption.map Resolved.config =
      (resolve s' q overrides).toOption.map Resolved.config) (factory : EngineFactory) :
    (Workspace.resolve s p overrides factory).toOption =
      (Workspace.resolve s' q overrides factory).toOption := by
  have built (x : Option Resolved) :
      (x.bind fun r => (Workspace.build r.config factory .utf16).toOption) =
        (x.map Resolved.config).bind fun t => (Workspace.build t factory .utf16).toOption := by
    cases x <;> rfl
  rw [Workspace.resolve, Workspace.resolve, toOptionBind, toOptionBind, built, built, configs]

theorem pairSame {s s' : Storage} {p q : Path} {overrides : Table}
    (format : (resolve s p overrides).toOption.map Resolved.config =
      (resolve s' q overrides).toOption.map Resolved.config)
    (sorting : (resolve s p (merge overrides importSorting)).toOption.map Resolved.config =
      (resolve s' q (merge overrides importSorting)).toOption.map Resolved.config)
    (factory : EngineFactory) :
    (Workspace.resolvePair s p overrides factory).toOption =
      (Workspace.resolvePair s' q overrides factory).toOption := by
  rw [Workspace.resolvePair, Workspace.resolvePair]
  simp only [toOptionBind, workspaceSame format, workspaceSame sorting]

section uniform

variable {s : Storage} {asked : List Path} (uniform : s.Uniform asked)
include uniform

theorem uniformJoined : s.Joined := by
  cases uniform with
  | spelled all => exact all.joined
  | disk reach => exact diskJoined _ _

variable {p q : Path} (mem : p ∈ asked) (mem' : q ∈ asked) (beside : p.Beside q)
include mem mem' beside

theorem uniformRows :
    List.Forall₂ (Candidate.Alike Path.Alike s s) (candidates p) (candidates q) := by
  have above := Path.parentsBeside beside
  cases uniform with
  | spelled all =>
    exact rowsAlike above fun c mem c' _ name directory =>
      spelledAlike all name (candidateNamed mem).2 directory
  | disk reach =>
    rcases reach p mem q mem' beside.directory with same | ⟨short, short'⟩
    · rw [candidates, candidates, Path.parentsDirectory beside.top same]
      exact List.forall₂_same.mpr fun c _ => ⟨rfl, rfl⟩
    · exact rowsAlike above fun c mem c' mem' name directory =>
        diskAlike name (candidateNamed mem).2 directory (short c mem) (short' c' mem')

theorem uniformResolve (overrides : Table) :
    Option.Rel (Resolved.Alike Path.Alike) (resolve s p overrides).toOption
      (resolve s q overrides).toOption :=
  resolveAlike (uniformJoined uniform) (uniformJoined uniform) (fun _ _ same => same)
    (uniformRows uniform mem mem' beside) fun _ _ => rfl

theorem uniformPair (overrides : Table) (factory : EngineFactory) :
    (Workspace.resolvePair s p overrides factory).toOption =
      (Workspace.resolvePair s q overrides factory).toOption := by
  have configs (overrides : Table) : (resolve s p overrides).toOption.map Resolved.config =
      (resolve s q overrides).toOption.map Resolved.config := by
    have resolved := uniformResolve uniform mem mem' beside overrides
    generalize (resolve s p overrides).toOption = x at resolved ⊢
    generalize (resolve s q overrides).toOption = y at resolved ⊢
    cases resolved with
    | none => rfl
    | some alike => exact congrArg some alike.config
  exact pairSame (configs _) (configs _) factory

end uniform

end Config
end NotebookTidy
