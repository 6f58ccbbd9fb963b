import NotebookTidy.Proofs.Config.Discovery
import NotebookTidy.Proofs.Storage.Placing

/-! Where the file that governs a path stands. Its directory is one of those above the path as it
is spelled, and contains the path unless the spelling steps out of that directory again. The search
does not take `..` away, so a spelling that does step out is governed from a directory that has
nothing to do with it. -/
namespace NotebookTidy

/-- A configuration file is listed in a directory as the path one component below it. -/
def Storage.Immediate (s : Storage) : Prop :=
  ∀ d, ∀ file ∈ s.list d, file.name ∈ Config.fileNames →
    file.path.components = d.components ++ [.name file.name]

namespace Config
open Storage (Memory)

theorem joinedImmediate {s : Storage} (joined : s.Joined) : s.Immediate := by
  intro d file listed known
  obtain ⟨plain, named⟩ := fileNamePlain known
  rw [joined d file listed known, Path.joinName d plain named]

theorem memoryImmediate (m : Memory) : m.storage.Immediate := joinedImmediate (memoryJoined m)

theorem diskJoined (tree : Storage.FileTree) (root : Path) :
    (Storage.Disk.storage tree root).Joined := by
  intro d file listed _
  simp only [Storage.list, Storage.Disk.storage, Storage.Disk.lookUp] at listed
  split at listed
  · rename_i entry at_
    split at at_
    · rename_i names cs found
      cases at_
      obtain ⟨⟨name, inner⟩, mem, rfl⟩ := List.mem_map.mp listed
      simp [Storage.Child.ofPath,
        Path.joinFileName d name.nameable.plain name.nameable.proper]
    · cases at_
      cases listed
    · cases at_
    · cases at_
  · cases listed

theorem firstListed {s : Storage} {listing : List Storage.Child} {names : List String}
    {source : Path} {own : Table} (found : firstOf s listing names = .ok (some (source, own))) :
    ∃ file ∈ listing, file.name ∈ names ∧ file.path = source := by
  induction names with
  | nil => cases found
  | cons name rest ih =>
    have later (found : firstOf s listing rest = .ok (some (source, own))) :
        ∃ file ∈ listing, file.name ∈ name :: rest ∧ file.path = source := by
      obtain ⟨file, mem, known, path⟩ := ih found
      exact ⟨file, mem, List.mem_cons_of_mem _ known, path⟩
    rw [firstOf] at found
    cases listed : listing.find? (·.name = name) with
    | none => exact later (by rwa [listed] at found)
    | some file =>
      have named : file.name = name := by simpa using List.find?_some listed
      have here : ∃ file' ∈ listing, file'.name ∈ name :: rest ∧ file'.path = file.path :=
        ⟨file, List.mem_of_find?_eq_some listed, named ▸ List.mem_cons_self, rfl⟩
      rw [listed] at found
      dsimp only at found
      split at found
      · cases found
      · split at found
        · split at found
          · cases found
            exact here
          · exact later found
        · cases found
          exact here

theorem foundListed {s : Storage} {directories : List Path} {source : Path} {own : Table}
    (found : findAbove s directories = .ok (some (source, own))) :
    ∃ d ∈ directories, ∃ file ∈ s.list d, file.name ∈ fileNames ∧ file.path = source := by
  induction directories with
  | nil => cases found
  | cons d rest ih =>
    rw [findAbove] at found
    split at found
    · cases found
    · rename_i here
      cases found
      exact ⟨d, List.mem_cons_self, firstListed here⟩
    · obtain ⟨above, mem, listed⟩ := ih found
      exact ⟨above, List.mem_cons_of_mem _ mem, listed⟩

theorem resolveContained {s : Storage} (immediate : s.Immediate) {p : Path} {overrides : Table}
    {r : Resolved} {source : Path} (done : resolve s p overrides = .ok r)
    (governs : r.source = some source) :
    ∃ rest, p.directory.components = source.directory.components ++ rest ∧
      (Path.Stays 0 rest →
        source.directory.normalize.components <+: p.directory.normalize.components) := by
  have search : ∃ own, findAbove s p.parents = .ok (some (source, own)) := by
    rw [resolve] at done
    split at done
    · cases done
    · cases done
      cases governs
    · rename_i found
      obtain ⟨⟨final, bases⟩, -, rfl⟩ := mapOk done
      cases governs
      exact ⟨_, found⟩
  obtain ⟨own, found⟩ := search
  -- The directory of the source is the one that was searched, and that one is a parent of `p`.
  obtain ⟨d, mem, file, listed, known, rfl⟩ := foundListed found
  have inside : file.path.directory.components = d.components := by
    rw [Path.directoryComponents, immediate d file listed known, List.dropLast_concat]
  obtain ⟨rest, above⟩ := Path.parentsAbove mem
  have spelled : p.directory.components = file.path.directory.components ++ rest := by
    rw [Path.directoryComponents, inside, above]
  refine ⟨rest, spelled, fun stays => ?_⟩
  rw [Path.normalizeComponents, Path.normalizeComponents, spelled]
  exact Path.normalBelow stays

def passedMemory : Memory := Memory.empty.insert ⟨"a/ruff.toml"⟩ "x = 1"

theorem passedResolved {p : Path} {before after : List Candidate}
    (row : candidates p = before ++ ⟨⟨"a"⟩, "ruff.toml"⟩ :: after)
    (missing : ∀ c ∈ before, c.name ∈ fileNames ∧
      ¬ ∃ f ∈ passedMemory.files, c.directory.components ++ [.name c.name] <+: f.1) :
    resolve passedMemory.storage p .nil =
      .ok ⟨.cons "x" (.integer 1) .nil, some ⟨"a/ruff.toml"⟩, []⟩ := by
  have path : Candidate.path ⟨⟨"a"⟩, "ruff.toml"⟩ = ⟨"a/ruff.toml"⟩ := by decide
  have stored : passedMemory.get? (Candidate.path ⟨⟨"a"⟩, "ruff.toml"⟩) = some "x = 1" := by decide
  have read : Toml.read? "x = 1" = some (.cons "x" (.integer 1) .nil) := by decide +kernel
  have ends : extendTarget (merge (.cons "x" (.integer 1) .nil) .nil) = none := by decide
  rw [resolveStored row (fun c mem => (missing c mem).2) (by decide) (by decide) stored
    read ends, path]
  rfl

theorem resolveContainedBelow :
    (Path.normalize ⟨"a"⟩).components <+: (Path.normalize ⟨"a/b"⟩).components := by
  have parents : Path.parents ⟨"a/b/x.py"⟩ = [⟨"a/b"⟩, ⟨"a"⟩, ⟨""⟩] := by decide
  have row : candidates ⟨"a/b/x.py"⟩ =
      [⟨⟨"a/b"⟩, ".ruff.toml"⟩, ⟨⟨"a/b"⟩, "ruff.toml"⟩, ⟨⟨"a/b"⟩, projectFile⟩,
        ⟨⟨"a"⟩, ".ruff.toml"⟩] ++ ⟨⟨"a"⟩, "ruff.toml"⟩ ::
      [⟨⟨"a"⟩, projectFile⟩, ⟨⟨""⟩, ".ruff.toml"⟩, ⟨⟨""⟩, "ruff.toml"⟩, ⟨⟨""⟩, projectFile⟩] := by
    rw [candidates, parents]
    rfl
  obtain ⟨rest, spelled, contained⟩ := resolveContained (memoryImmediate passedMemory)
    (passedResolved row (by decide)) rfl
  have source : Path.directory ⟨"a/ruff.toml"⟩ = ⟨"a"⟩ := by decide
  have below : Path.directory ⟨"a/b/x.py"⟩ = ⟨"a/b"⟩ := by decide
  rw [source, below] at contained spelled
  have outer : Path.components ⟨"a"⟩ = [.name "a"] := by decide
  have inner : Path.components ⟨"a/b"⟩ = [.name "a"] ++ [.name "b"] := by decide
  rw [outer, inner, List.append_cancel_left_eq] at spelled
  subst spelled
  exact contained trivial

theorem passedGoverns :
    resolve passedMemory.storage ⟨"a/../b.py"⟩ .nil =
        .ok ⟨.cons "x" (.integer 1) .nil, some ⟨"a/ruff.toml"⟩, []⟩ ∧
      ¬ (Path.directory ⟨"a/ruff.toml"⟩).normalize.components <+:
        (Path.directory ⟨"a/../b.py"⟩).normalize.components := by
  have parents : Path.parents ⟨"a/../b.py"⟩ = [⟨"a/.."⟩, ⟨"a"⟩, ⟨""⟩] := by decide
  have row : candidates ⟨"a/../b.py"⟩ =
      [⟨⟨"a/.."⟩, ".ruff.toml"⟩, ⟨⟨"a/.."⟩, "ruff.toml"⟩, ⟨⟨"a/.."⟩, projectFile⟩,
        ⟨⟨"a"⟩, ".ruff.toml"⟩] ++ ⟨⟨"a"⟩, "ruff.toml"⟩ ::
      [⟨⟨"a"⟩, projectFile⟩, ⟨⟨""⟩, ".ruff.toml"⟩, ⟨⟨""⟩, "ruff.toml"⟩, ⟨⟨""⟩, projectFile⟩] := by
    rw [candidates, parents]
    rfl
  exact ⟨passedResolved row (by decide), by decide⟩

end Config
end NotebookTidy
