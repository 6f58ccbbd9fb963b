import NotebookTidy.Batch.Process
import NotebookTidy.Editor.Session
import NotebookTidy.Proofs.Config.Alike
import NotebookTidy.Proofs.Config.Containment
import NotebookTidy.Proofs.Config.MoreOverrides

/-! The workspace that sorts imports differs from the one that formats by the rules it selects, and
by nothing else: its options are those of the other with the selection laid over them. This holds
for the pairs of an editor session and for those that a run keeps by directory. -/
namespace NotebookTidy
open Config

theorem resolvedOptions {s : Storage} {p : Path} {overrides : Table} {factory : EngineFactory}
    {w : Workspace} (resolved : Workspace.resolve s p overrides factory = .ok w) :
    ∃ r, Config.resolve s p overrides = .ok r ∧ w.options = r.config := by
  obtain ⟨r, found, built⟩ := bindOk resolved
  exact ⟨r, found, (Workspace.builtFrom built).kept⟩

/-- No table that a resolution merges has anything but a table at `lint`. -/
def LintIsTable (s : Storage) (p : Path) (overrides : Table) : Prop :=
  ∀ t, t = overrides ∨ Loaded s p overrides t → ∀ v, t.get? "lint" = some v → v.isTable = true

theorem sortingTables {path : List String} {x : Value} (stands : importSorting.at? path = some x)
    (kind : x.isTable = true) : path = [] ∨ path = ["lint"] := by
  have selection : importSorting = .cons "lint" (.table (.cons "select"
    (.array (.cons (.string "I") .nil)) .nil)) .nil := rfl
  cases path with
  | nil => exact .inl rfl
  | cons key rest =>
    obtain ⟨v, found, leads⟩ := Option.bind_eq_some_iff.mp stands
    rw [selection, Value.table?, Option.bind_some, Table.get?, Table.get?] at found
    split at found
    · rename_i lint
      subst lint
      cases found
      cases rest with
      | nil => exact .inr rfl
      | cons key rest =>
        obtain ⟨w, found, leads⟩ := Option.bind_eq_some_iff.mp leads
        rw [Value.table?, Option.bind_some, Table.get?, Table.get?] at found
        split at found
        · cases found
          cases rest with
          | nil => cases leads; cases kind
          | cons key rest => rw [atSingle rfl] at leads; cases leads
        · cases found
    · cases found

theorem lintReceives {t : Table} (tables : ∀ v, t.get? "lint" = some v → v.isTable = true) :
    t.Receives importSorting := by
  intro path x y stands kind below
  rcases sortingTables stands kind with rfl | rfl
  · cases below
    rfl
  · obtain ⟨v, found, leads⟩ := Option.bind_eq_some_iff.mp below
    cases leads
    exact tables _ found

def Workspace.Pair.Sorts (pair : Workspace.Pair) : Prop :=
  pair.sorting.options = merge pair.format.options importSorting

theorem pairSorts {s : Storage} {p : Path} {overrides : Table} {factory : EngineFactory}
    {pair : Workspace.Pair} (lint : LintIsTable s p overrides)
    (resolved : Workspace.resolvePair s p overrides factory = .ok pair) : pair.Sorts := by
  obtain ⟨format, formatting, resolved⟩ := bindOk resolved
  obtain ⟨sorting, selecting, resolved⟩ := bindOk resolved
  cases resolved
  obtain ⟨r, found, options⟩ := resolvedOptions formatting
  obtain ⟨r', found', options'⟩ := resolvedOptions selecting
  rw [resolveLaid rfl (lintReceives (lint overrides (.inl rfl)))
    fun t loaded => lintReceives (lint t (.inr loaded)), found] at found'
  cases found'
  rw [Workspace.Pair.Sorts, options, options']

theorem reloadSorts {session after : Editor.Session} {around : Editor.Surroundings} {p : Path}
    (lint : LintIsTable around.storage p around.overrides)
    (done : session.reload around p = (after, .ok ())) :
    ∃ pair, after.workspaces = some ⟨p.directory, pair⟩ ∧ pair.Sorts := by
  unfold Editor.Session.reload at done
  dsimp only at done
  split at done
  · rename_i pair resolved
    cases done
    exact ⟨pair, rfl, pairSorts lint resolved⟩
  · cases done

namespace Batch
open Storage (FileTree)

/-- The pairs that one run gets for one path after the other. What it keeps stays with it, also
where a resolution fails. -/
def pairsFor (around : Surroundings) : Resolutions → List (FileTree × Path) →
    List (Except Error Workspace.Pair)
  | _, [] => []
  | known, (tree, p) :: rest =>
    match pairFor around tree known p with
    | .error e => .error e :: pairsFor around known rest
    | .ok (pair, known) => .ok pair :: pairsFor around known rest

theorem lookupMem {known : Resolutions} {key : List Component} {pair : Workspace.Pair}
    (found : known.lookup key = some pair) : (key, pair) ∈ known := by
  obtain ⟨before, after, rfl, -⟩ := List.lookup_eq_some_iff.mp found
  exact List.mem_append_right _ List.mem_cons_self

theorem pairForSorts {around : Surroundings} {tree : FileTree} {known after : Resolutions}
    {p : Path} {pair : Workspace.Pair} (kept : ∀ e ∈ known, e.2.Sorts)
    (lint : LintIsTable (Storage.Disk.storage tree around.current) p around.overrides)
    (got : pairFor around tree known p = .ok (pair, after)) :
    pair.Sorts ∧ ∀ e ∈ after, e.2.Sorts := by
  unfold pairFor at got
  split at got
  · rename_i found
    cases got
    exact ⟨kept _ (lookupMem found), kept⟩
  · obtain ⟨fresh, resolved, same⟩ := mapOk got
    cases same
    have sorts := pairSorts lint resolved
    exact ⟨sorts, List.forall_mem_cons.mpr ⟨sorts, kept⟩⟩

theorem pairsForSorts {around : Surroundings} {known : Resolutions}
    {asked : List (FileTree × Path)} (kept : ∀ e ∈ known, e.2.Sorts)
    (lint : ∀ a ∈ asked,
      LintIsTable (Storage.Disk.storage a.1 around.current) a.2 around.overrides) :
    ∀ pair, .ok pair ∈ pairsFor around known asked → pair.Sorts := by
  induction asked generalizing known with
  | nil => intro pair mem; cases mem
  | cons a rest ih =>
    obtain ⟨here, others⟩ := List.forall_mem_cons.mp lint
    obtain ⟨tree, p⟩ := a
    intro pair mem
    rw [pairsFor] at mem
    split at mem
    · rcases List.mem_cons.mp mem with failed | later
      · cases failed
      · exact ih kept others pair later
    · rename_i got
      obtain ⟨sorts, more⟩ := pairForSorts kept here got
      rcases List.mem_cons.mp mem with same | later
      · cases same
        exact sorts
      · exact ih more others pair later

end Batch

/-- More overrides commute with a resolution, its errors included; hence the import-sorting
workspace of an editor session, and of a run of the command line, has the options of the
formatting one with the selection laid over them. -/
theorem moreOverridesCommute :
    (∀ (s : Storage) (p : Path) (overrides laid : Table), laid.get? extendKey = none →
      (∀ t, t = overrides ∨ Loaded s p overrides t → t.Receives laid) →
      resolve s p (merge overrides laid) = (resolve s p overrides).map fun r =>
        { r with config := merge r.config laid }) ∧
    (∀ (session after : Editor.Session) (around : Editor.Surroundings) (p : Path),
      LintIsTable around.storage p around.overrides →
      session.reload around p = (after, .ok ()) →
      ∃ pair, after.workspaces = some ⟨p.directory, pair⟩ ∧
        pair.sorting.options = merge pair.format.options importSorting) ∧
    (∀ (around : Batch.Surroundings) (asked : List (Storage.FileTree × Path)),
      (∀ a ∈ asked, LintIsTable (Storage.Disk.storage a.1 around.current) a.2 around.overrides) →
      ∀ pair, .ok pair ∈ Batch.pairsFor around [] asked →
        pair.sorting.options = merge pair.format.options importSorting) := by
  refine ⟨fun s p overrides laid plain receives => ?_, fun _ _ _ _ lint done => ?_,
    fun around asked lint pair got => ?_⟩
  · exact resolveLaid plain (receives overrides (.inl rfl)) fun t loaded =>
      receives t (.inr loaded)
  · exact reloadSorts lint done
  · exact Batch.pairsForSorts (by simp) lint pair got

theorem nestedLoaded {t : Table}
    (loaded : Loaded nestedMemory.storage ⟨"d/x.py"⟩ (.cons "y" (.integer 2) .nil) t) :
    t = .cons "extend" (.string "../b.toml") .nil ∨ t = .cons "x" (.integer 1) .nil := by
  have next : (Declaration.ofConfig (Path.directory ⟨"d/ruff.toml"⟩)
      (merge (.cons "extend" (.string "../b.toml") .nil)
        (.cons "y" (.integer 2) .nil))).next? = some ⟨"b.toml"⟩ := by decide +kernel
  obtain ⟨source, own, found, rfl | ⟨files, ends, chain, -, f, mem, layer⟩⟩ := loaded
  · cases nestedFound.symm.trans found
    exact .inl rfl
  · cases nestedFound.symm.trans found
    rcases nestedChain next chain with ⟨rfl, -⟩ | ⟨rfl, -⟩
    · cases mem
    · rw [List.mem_singleton] at mem
      rw [mem, layerOf, nestedBase] at layer
      cases layer
      exact .inr rfl

theorem loadedAlone {s : Storage} {p : Path} {c : Candidate} {overrides own t : Table}
    (joined : s.Joined) (decided : firstVerdict s (candidates p) = some (c, .ok own))
    (ends : extendTarget (merge own overrides) = none) (loaded : Loaded s p overrides t) :
    t = own := by
  have row := findRow joined p.parents
  rw [show firstVerdict s (candidatesIn p.parents) = _ from decided] at row
  have nothing : (Declaration.ofConfig c.path.directory (merge own overrides)).next? = none :=
    Option.map_eq_none_iff.mpr ends
  obtain ⟨source, table, found, own | ⟨files, last, chain, -, f, mem, -⟩⟩ := loaded
  · cases row.symm.trans found
    exact own
  · cases row.symm.trans found
    cases chain with
    | here => cases mem
    | step next => cases nothing.symm.trans next

theorem pairBuilt {s : Storage} {p : Path} {overrides : Table} {factory : EngineFactory}
    {r r' : Resolved} {format sorting : Workspace} (formatting : resolve s p overrides = .ok r)
    (selecting : resolve s p (merge overrides importSorting) = .ok r')
    (built : Workspace.build r.config factory .utf16 = .ok format)
    (built' : Workspace.build r'.config factory .utf16 = .ok sorting) :
    Workspace.resolvePair s p overrides factory = .ok ⟨format, sorting⟩ := by
  have first : Workspace.resolve s p overrides factory = .ok format := by
    rw [Workspace.resolve, formatting]
    exact built
  have second : Workspace.resolve s p (merge overrides importSorting) factory = .ok sorting := by
    rw [Workspace.resolve, selecting]
    exact built'
  rw [Workspace.resolvePair, first]
  simp only [bind, Except.bind, second]
  rfl

/-! A session and a run that lay the selection over `x` and `y` -/

def Editor.tidyFactory : EngineFactory :=
  fun _ encoding => .ok ⟨encoding, fun _ => .ok "tidy", fun _ => .ok []⟩

theorem otherLint {key : String} (apart : key ≠ "lint") (v : Value) :
    ∀ w, (Table.cons key v .nil).get? "lint" = some w → w.isTable = true := by
  simp [Table.get?, apart]

theorem laidReceives {t : Table} (mem : t = .cons "y" (.integer 2) .nil ∨
    Loaded nestedMemory.storage ⟨"d/x.py"⟩ (.cons "y" (.integer 2) .nil) t) :
    ∀ v, t.get? "lint" = some v → v.isTable = true := by
  rcases mem with rfl | loaded
  · exact otherLint (by decide) _
  · rcases nestedLoaded loaded with rfl | rfl <;> exact otherLint (by decide) _

theorem laidPair {s : Storage} {p : Path} {source source' : Option Path} {bases bases' : List Path}
    (formatting : resolve s p (.cons "y" (.integer 2) .nil) =
      .ok ⟨.cons "x" (.integer 1) (.cons "y" (.integer 2) .nil), source, bases⟩)
    (selecting : resolve s p (merge (.cons "y" (.integer 2) .nil) importSorting) =
      .ok ⟨merge (.cons "x" (.integer 1) (.cons "y" (.integer 2) .nil)) importSorting, source',
        bases'⟩) :
    ∃ pair, Workspace.resolvePair s p (.cons "y" (.integer 2) .nil) Editor.tidyFactory =
      .ok pair := by
  have built (options : Table)
      (builds : (Workspace.build options Editor.tidyFactory .utf16).toOption.isSome = true) :
      ∃ w, Workspace.build options Editor.tidyFactory .utf16 = .ok w := by
    obtain ⟨w, is⟩ := Option.isSome_iff_exists.mp builds
    exact ⟨w, toOptionOk is⟩
  obtain ⟨w, is⟩ := built (.cons "x" (.integer 1) (.cons "y" (.integer 2) .nil)) (by decide +kernel)
  obtain ⟨w', is'⟩ := built
    (merge (.cons "x" (.integer 1) (.cons "y" (.integer 2) .nil)) importSorting) (by decide +kernel)
  exact ⟨_, pairBuilt formatting selecting is is'⟩

def ruledTree : Storage.FileTree :=
  .directory (.cons .ruffToml (.file (.text "x = 1")) .nil)

theorem ruledFirst : firstVerdict (Storage.Disk.storage ruledTree ⟨"/"⟩) (candidates ⟨"/a.py"⟩) =
    some (⟨⟨"/"⟩, "ruff.toml"⟩, .ok (.cons "x" (.integer 1) .nil)) := by
  have parents : Path.parents ⟨"/a.py"⟩ = [⟨"/"⟩] := by decide
  have row : candidates ⟨"/a.py"⟩ =
      [⟨⟨"/"⟩, ".ruff.toml"⟩, ⟨⟨"/"⟩, "ruff.toml"⟩, ⟨⟨"/"⟩, projectFile⟩] := by
    rw [candidates, parents]
    rfl
  have hidden : ((Storage.Disk.storage ruledTree ⟨"/"⟩).list ⟨"/"⟩).find?
      (·.name = ".ruff.toml") = none := by decide
  have present : (((Storage.Disk.storage ruledTree ⟨"/"⟩).list ⟨"/"⟩).find?
      (·.name = "ruff.toml")).isSome = true := by decide
  have path : Candidate.path ⟨⟨"/"⟩, "ruff.toml"⟩ = ⟨"/ruff.toml"⟩ := by decide
  have load : (Storage.Disk.storage ruledTree ⟨"/"⟩).load ⟨"/ruff.toml"⟩ = .ok "x = 1" := rfl
  have read : Toml.read? "x = 1" = some (.cons "x" (.integer 1) .nil) := by decide +kernel
  rw [row, verdictCons, verdictCons, verdictUnlisted hidden,
    verdictListed present (by decide : "ruff.toml" ≠ projectFile), path, loadTable, load]
  simp only [read]
  rfl

theorem moreOverridesNested :
    resolve nestedMemory.storage ⟨"d/x.py"⟩
        (merge (.cons "y" (.integer 2) .nil) importSorting) =
      .ok ⟨merge (.cons "x" (.integer 1) (.cons "y" (.integer 2) .nil)) importSorting,
        some ⟨"d/ruff.toml"⟩, [⟨"b.toml"⟩]⟩ ∧
    (∃ after pair, Editor.Session.reload {}
        ⟨nestedMemory.storage, Editor.tidyFactory, .cons "y" (.integer 2) .nil⟩ ⟨"d/x.py"⟩ =
          (after, .ok ()) ∧
      after.workspaces = some ⟨Path.directory ⟨"d/x.py"⟩, pair⟩ ∧
      pair.sorting.options = merge pair.format.options importSorting) ∧
    ∃ pair, .ok pair ∈ Batch.pairsFor
        ⟨⟨"/"⟩, .cons "y" (.integer 2) .nil, Editor.tidyFactory⟩ [] [(ruledTree, ⟨"/a.py"⟩)] ∧
      pair.sorting.options = merge pair.format.options importSorting := by
  obtain ⟨commutes, session, run⟩ := moreOverridesCommute
  have nested := commutes nestedMemory.storage ⟨"d/x.py"⟩ (.cons "y" (.integer 2) .nil)
    importSorting rfl fun t mem => lintReceives (laidReceives mem)
  rw [nestedResolved] at nested
  refine ⟨nested, ?_, ?_⟩
  · obtain ⟨pair, resolved⟩ := laidPair nestedResolved nested
    have done : ∃ after, Editor.Session.reload {}
        ⟨nestedMemory.storage, Editor.tidyFactory, .cons "y" (.integer 2) .nil⟩ ⟨"d/x.py"⟩ =
          (after, .ok ()) := by
      simp only [Editor.Session.reload, resolved]
      exact ⟨_, rfl⟩
    obtain ⟨after, done⟩ := done
    obtain ⟨pair, governed, sorts⟩ := session _ _ _ _ (fun t mem => laidReceives mem) done
    exact ⟨after, pair, done, governed, sorts⟩
  · have joined := diskJoined ruledTree ⟨"/"⟩
    have alone {overrides : Table}
        (ends : extendTarget (merge (.cons "x" (.integer 1) .nil) overrides) = none) :=
      resolveAlone joined ruledFirst ends
    obtain ⟨pair, resolved⟩ := laidPair (alone (by decide +kernel)) (alone (by decide +kernel))
    have got : Batch.pairsFor ⟨⟨"/"⟩, .cons "y" (.integer 2) .nil, Editor.tidyFactory⟩ []
        [(ruledTree, ⟨"/a.py"⟩)] = [.ok pair] := by
      simp only [Batch.pairsFor, Batch.pairFor, List.lookup_nil, resolved]
      rfl
    refine ⟨pair, got ▸ List.mem_singleton_self _,
      run _ _ ?_ pair (got ▸ List.mem_singleton_self _)⟩
    refine List.forall_mem_singleton.mpr fun t mem => ?_
    rcases mem with rfl | loaded
    · exact otherLint (by decide) _
    · rw [loadedAlone joined ruledFirst (by decide +kernel) loaded]
      exact otherLint (by decide) _

end NotebookTidy
