import NotebookTidy.Proofs.Editor.Governing
import NotebookTidy.Proofs.Workspace.Depth
import NotebookTidy.Proofs.Workspace.Uniform

/-! What is remembered by directory is what a resolution from nothing would give: for the one
directory of an editor session, and for all those that a run has come through. -/
namespace NotebookTidy

namespace Batch
open Storage (FileTree)

/-- What a resolution of a path gives when nothing is remembered. -/
def Surroundings.pairOf (around : Surroundings) (tree : FileTree) (p : Path) :
    Except Config.Error Workspace.Pair :=
  Workspace.resolvePair (Storage.Disk.storage tree around.current) p around.overrides
    around.factory

/-- What is remembered was resolved for one of the paths that were asked for. -/
def Remembers (around : Surroundings) (tree : FileTree) (paths : List Path)
    (known : Resolutions) : Prop :=
  ∀ e ∈ known, ∃ q ∈ paths, e.1 = q.directory.components ∧ around.pairOf tree q = .ok e.2

section runs

variable {around : Surroundings} {tree : FileTree} {paths : List Path}
variable (absolute : ∀ p ∈ paths, p.isAbsolute = true)
variable (uniform : (Storage.Disk.storage tree around.current).Uniform paths)
include absolute uniform

theorem pairForShared {known : Resolutions} (kept : Remembers around tree paths known) {p : Path}
    (mem : p ∈ paths) :
    (pairFor around tree known p).map Prod.fst = around.pairOf tree p ∧
      ∀ pair after, pairFor around tree known p = .ok (pair, after) →
        Remembers around tree paths after := by
  unfold pairFor
  cases found : known.lookup p.directory.components with
  | some pair =>
    obtain ⟨q, mem', same, resolved⟩ := kept _ (lookupMem found)
    have beside := Path.absoluteBeside (absolute q mem') (absolute p mem) same.symm
    have both := Config.uniformPair uniform mem' mem beside around.overrides around.factory
    refine ⟨?_, fun pair' after done => ?_⟩
    · unfold Surroundings.pairOf at resolved ⊢
      rw [resolved] at both
      exact (Config.toOptionOk both.symm).symm
    · cases done
      exact kept
  | none =>
    dsimp only
    unfold Surroundings.pairOf at *
    cases resolved : Workspace.resolvePair (Storage.Disk.storage tree around.current) p
      around.overrides around.factory with
    | error e => exact ⟨rfl, fun _ _ done => nomatch done⟩
    | ok pair =>
      refine ⟨rfl, fun pair' after done => ?_⟩
      cases done
      exact List.forall_mem_cons.mpr ⟨⟨p, mem, rfl, resolved⟩, kept⟩

theorem pairsForShared {known : Resolutions} (kept : Remembers around tree paths known)
    {rest : List Path} (inside : rest ⊆ paths) :
    pairsFor around known (rest.map (tree, ·)) = rest.map (around.pairOf tree) := by
  induction rest generalizing known with
  | nil => rfl
  | cons p rest ih =>
    obtain ⟨mem, more⟩ := List.cons_subset.mp inside
    obtain ⟨same, further⟩ := pairForShared absolute uniform kept mem
    rw [List.map_cons, List.map_cons, pairsFor, ← same]
    cases got : pairFor around tree known p with
    | error e => exact congrArg _ (ih kept more)
    | ok result => exact congrArg _ (ih (further _ _ got) more)

end runs

end Batch

open Editor.Session in
/-- Remembering by directory cannot be told from resolving each time: in an editor session after
every event that turns to a path, and in a run for every path, errors included. The storage must
find the same for both spellings of a directory; memory always does. -/
theorem resolutionsShared :
    (∀ (s : Editor.Session) (around : Editor.Surroundings) (events : List Editor.Event)
      (e : Editor.Event) (p : Path), s.workspaces = none →
      (∀ q ∈ s.asked (events ++ [e]), q.parent ≠ none) →
      around.storage.Uniform (s.asked (events ++ [e])) →
      (s.run around events).turnsTo e = some p →
      Settled around p (s.run around events) ((s.run around events).handle around e)) ∧
    (∀ (around : Batch.Surroundings) (tree : Storage.FileTree) (paths : List Path),
      (∀ p ∈ paths, p.isAbsolute = true) →
      (Storage.Disk.storage tree around.current).Uniform paths →
      Batch.pairsFor around [] (paths.map (tree, ·)) = paths.map (around.pairOf tree)) ∧
    ∀ (m : Storage.Memory) (asked : List Path), m.storage.Uniform asked := by
  refine ⟨fun s around events e p fresh parents uniform turned => ?_,
    fun around tree paths absolute uniform => ?_, fun m asked => ?_⟩
  · have known := fun f mem => s.pathsAsked (events ++ [e]) f (List.mem_append_left [e] mem)
    have tracks := runTracks (freshTracks fresh around (events ++ [e])) known
    refine handleSettled uniform parents tracks ?_ turned
    cases e with
    | activated q =>
      cases turned
      exact s.pathsAsked _ (.activated p)
        (List.mem_append_right _ (List.mem_singleton_self _)) p rfl
    | command c =>
      cases c with
      | reload => exact tracks.active p turned
      | _ => cases turned
    | _ => cases turned
  · exact Batch.pairsForShared absolute uniform (by simp [Batch.Remembers]) (List.Subset.refl _)
  · exact .spelled (Storage.Memory.spelled m)

theorem resolutionsSharedNear :
    Editor.Session.Settled Editor.narrowAround ⟨"b/x.py"⟩
      (Editor.narrowSession.run Editor.narrowAround [.activated ⟨"a/y.py"⟩])
      ((Editor.narrowSession.run Editor.narrowAround [.activated ⟨"a/y.py"⟩]).handle
        Editor.narrowAround (.activated ⟨"b/x.py"⟩)) ∧
    Batch.pairsFor ⟨⟨"/"⟩, .nil, Editor.tidyFactory⟩ []
        ([⟨"/d/a.py"⟩, ⟨"//d/b.py"⟩].map (Storage.FileTree.empty, ·)) =
      [⟨"/d/a.py"⟩, ⟨"//d/b.py"⟩].map
        (Batch.Surroundings.pairOf ⟨⟨"/"⟩, .nil, Editor.tidyFactory⟩ Storage.FileTree.empty) := by
  obtain ⟨session, run, memory⟩ := resolutionsShared
  have reach : ∀ p ∈ [⟨"/d/a.py"⟩, ⟨"//d/b.py"⟩], Storage.Disk.InReach ⟨"/"⟩ p := by
    unfold Storage.Disk.InReach Path.Short
    decide
  refine ⟨session _ _ _ _ _ rfl (by decide) (memory _ _) rfl,
    run _ _ _ (by decide) (.disk fun p mem q mem' _ => .inr ⟨reach p mem, reach q mem'⟩)⟩

/-! A directory within reach in one of its spellings -/

open Config Storage Text

def longAround : Batch.Surroundings := ⟨⟨"/"⟩, .nil, Editor.tidyFactory⟩

section limit

variable {k : Nat} {tree : FileTree} (deep : Deep tree k)

include deep in
theorem longKnown (inside : 5 * k + 15 < FileTree.pathLimit) : ∃ pair,
    Batch.pairFor longAround tree [] (longFile [] k "a.py".toList) =
      .ok (pair, [((longPath [] k).components, pair)]) := by
  obtain ⟨length, -⟩ := longPathLength k
  have candidate := longCandidateLength [] k
  have short : (longPath [] k).Short := by
    unfold Path.Short
    omega
  have near : (Candidate.path ⟨longPath [] k, "ruff.toml"⟩).Short := by
    unfold Path.Short
    omega
  have clean : '/' ∉ "a.py".toList := by decide
  have named : Path.isFiller "a.py".toList = false := by decide
  have none : ∀ part ∈ ([] : List (List Char)), '/' ∉ part := by simp
  obtain ⟨r, formatting, config⟩ := longResolved none rfl deep clean named short near
    (rfl : Table.nil.get? extendKey = Option.none)
  obtain ⟨r', selecting, config'⟩ := longResolved none rfl deep clean named short near
    (by decide : (merge .nil importSorting).get? extendKey = Option.none)
  have format : ∃ w, Workspace.build r.config Editor.tidyFactory .utf16 = .ok w := by
    rw [config]
    refine (Option.isSome_iff_exists.mp ?_).imp fun w => toOptionOk
    decide +kernel
  have sorting : ∃ w, Workspace.build r'.config Editor.tidyFactory .utf16 = .ok w := by
    rw [config']
    refine (Option.isSome_iff_exists.mp ?_).imp fun w => toOptionOk
    decide +kernel
  obtain ⟨w, built⟩ := format
  obtain ⟨w', built'⟩ := sorting
  have resolved := pairBuilt formatting selecting built built'
  refine ⟨⟨w, w'⟩, ?_⟩
  unfold Batch.pairFor
  rw [List.lookup_nil, longDirectory none clean named]
  dsimp only [longAround]
  rw [resolved]
  rfl

include deep in
theorem longForgotten (inside : 5 * k + 6 < FileTree.pathLimit)
    (outside : FileTree.pathLimit ≤ 5 * k + 16) : ∃ e,
    longAround.pairOf tree (longFile [[]] k "b.py".toList) = .error e := by
  obtain ⟨-, length⟩ := longPathLength k
  have candidate := longCandidateLength [[]] k
  have short : (longPath [[]] k).Short := by
    unfold Path.Short
    omega
  have far : ¬ (Candidate.path ⟨longPath [[]] k, "ruff.toml"⟩).Short := by
    unfold Path.Short
    omega
  have plain : ∀ part ∈ ([[]] : List (List Char)), '/' ∉ part := by decide
  obtain ⟨e, failed⟩ := longUnresolved plain rfl deep (by decide : '/' ∉ "b.py".toList) (by decide)
    short far .nil
  refine ⟨e, ?_⟩
  unfold Batch.Surroundings.pairOf longAround Workspace.resolvePair Workspace.resolve
  dsimp only
  rw [failed]
  rfl

omit deep in
theorem longRemembered (tree : FileTree) (pair : Workspace.Pair) :
    Batch.pairFor longAround tree [((longPath [] k).components, pair)]
      (longFile [[]] k "b.py".toList) = .ok (pair, [((longPath [] k).components, pair)]) := by
  have plain : ∀ part ∈ ([[]] : List (List Char)), '/' ∉ part := by decide
  have none : ∀ part ∈ ([] : List (List Char)), '/' ∉ part := by simp
  unfold Batch.pairFor
  rw [longDirectory plain (by decide) (by decide), longPathComponents plain rfl,
    longPathComponents none rfl, List.lookup_cons_self]

theorem longSpellings (inside : 5 * k + 15 < FileTree.pathLimit)
    (outside : FileTree.pathLimit ≤ 5 * k + 16) :
    (∀ p ∈ [longFile [] k "a.py".toList, longFile [[]] k "b.py".toList], p.isAbsolute = true) ∧
    Batch.pairsFor longAround []
        ([longFile [] k "a.py".toList, longFile [[]] k "b.py".toList].map (longTree (k + 1), ·)) ≠
      [longFile [] k "a.py".toList, longFile [[]] k "b.py".toList].map
        (longAround.pairOf (longTree (k + 1))) := by
  have absolute (front : List (List Char)) (name : List Char) :
      (longFile front k name).isAbsolute = true := by
    rw [Path.isAbsolute, longFile, Path.rooted, String.toList_ofList]
    rfl
  refine ⟨by simp [absolute], fun same => ?_⟩
  obtain ⟨pair, first⟩ := longKnown (longDeep k) inside
  obtain ⟨e, failed⟩ := longForgotten (longDeep k) (by omega) outside
  rw [List.map_cons, List.map_singleton, List.map_cons, List.map_singleton, Batch.pairsFor, first]
    at same
  dsimp only at same
  rw [Batch.pairsFor, longRemembered, failed] at same
  cases (List.cons.inj (List.cons.inj same).2).1

end limit

/-- What is remembered of a directory is used for a spelling that is too long to resolve. -/
theorem spellingForgotten :
    (∀ p ∈ [longFile [] 816 "a.py".toList, longFile [[]] 816 "b.py".toList],
      p.isAbsolute = true) ∧
    Batch.pairsFor longAround [] ([longFile [] 816 "a.py".toList,
        longFile [[]] 816 "b.py".toList].map (longTree (816 + 1), ·)) ≠
      [longFile [] 816 "a.py".toList, longFile [[]] 816 "b.py".toList].map
        (longAround.pairOf (longTree (816 + 1))) :=
  longSpellings (by decide) (by decide)

end NotebookTidy
