import NotebookTidy.Batch.Process
import NotebookTidy.Proofs.Batch.Tidying
import NotebookTidy.Proofs.Workspace.Sharing

/-! Targets that are tidied one after the other do not see each other. What becomes of each is what
becomes of it alone, and what is written in the end are the files of those that changed. A file that
is rewritten leaves the workspaces of every path as they were, unless it has the name of a
configuration file or is extended by one on the way to them. -/
namespace NotebookTidy
open Config
open Storage (FileTree)
open Storage.FileTree (Rewritten)

/-! Workspaces -/

/-- Extended on the way to one of the two workspaces of a path. -/
def Batch.Surroundings.Extends (around : Batch.Surroundings) (tree : FileTree) (p q : Path) :
    Prop :=
  Visited (Storage.Disk.storage tree around.current) p around.overrides q ∨
    Visited (Storage.Disk.storage tree around.current) p (merge around.overrides importSorting) q

section rewritten

variable {touched : List String → Prop} {before after : FileTree}
variable (rewritten : Rewritten touched before after)
variable (others : ∀ names, touched names → ∀ name ∈ names.getLast?, name ∉ fileNames)
include rewritten others

theorem candidateRewritten (root : Path) {c : Candidate} (known : c.name ∈ fileNames) :
    c.Alike Eq (Storage.Disk.storage before root) (Storage.Disk.storage after root) c := by
  refine ⟨rfl, verdictAlike rfl ?_ fun _ => ?_⟩
  · rw [rewritten.listed]
  · have name : c.path.fileName = some c.name := by
      rw [Path.fileNameIff, candidateComponents known, List.getLast?_concat]
    rw [loadTableRead, loadTableRead, rewritten.loaded]
    intro names leads held
    have last := FileTree.namesLast leads (Storage.Disk.resolvedName name root)
    exact others names held c.name last known

theorem resolveRewritten {root p : Path} {overrides : Table}
    (free : ∀ q, Visited (Storage.Disk.storage before root) p overrides q →
      ∀ names, before.names? (Storage.Disk.resolved root q) = some names → ¬ touched names) :
    (resolve (Storage.Disk.storage after root) p overrides).toOption =
      (resolve (Storage.Disk.storage before root) p overrides).toOption := by
  refine (alikeSame (resolveAlike (diskJoined before root)
    (diskJoined after root) ?_ ?_ fun q visited => ?_)).symm
  · rintro a _ rfl
    rfl
  · exact List.forall₂_same.mpr fun c mem =>
      candidateRewritten rewritten others root (candidateNamed mem).2
  · rw [loadTableRead, loadTableRead, rewritten.loaded (free q visited)]

theorem pairRewritten {around : Batch.Surroundings} {p : Path}
    (free : ∀ q, around.Extends before p q → ∀ names,
      before.names? (Storage.Disk.resolved around.current q) = some names → ¬ touched names) :
    (around.pairOf after p).toOption = (around.pairOf before p).toOption :=
  pairSame
    (congrArg _ (resolveRewritten rewritten others fun q visited => free q (.inl visited)))
    (congrArg _ (resolveRewritten rewritten others fun q visited => free q (.inr visited)))
    around.factory

end rewritten

/-! Targets -/

namespace Batch

/-- What becomes of a target in a tree that nothing has been written to. -/
def Surroundings.judge (around : Surroundings) (tidy : Tidying) (tree : FileTree) (t : Target) :
    Option (Target × Disposition) :=
  (around.pairOf tree t.path).toOption.map fun pair =>
    (t, (tidyTarget ⟨tidy, true⟩ pair tree t).2)

/-- What a target leaves to the next one. -/
def Progress.next (progress : Progress) (job : Job) (pair : Workspace.Pair) (known : Resolutions)
    (t : Target) : Progress :=
  ⟨(tidyTarget job pair progress.tree t).1, known,
    progress.done ++ [(t, (tidyTarget job pair progress.tree t).2)]⟩

theorem processCons (around : Surroundings) (job : Job) (progress : Progress) (t : Target)
    (rest : List Target) : processFrom around job progress (t :: rest) =
      match pairFor around progress.tree progress.known t.path with
      | .error e => ⟨progress.tree, .error e⟩
      | .ok (pair, known) => processFrom around job (progress.next job pair known t) rest := by
  rw [processFrom]
  rfl

/-- Targets that are different files, none of them one that a configuration extends. What is
remembered of a directory has to serve all the spellings of it. -/
structure Apart (around : Surroundings) (tree : FileTree) (targets : List Target) : Prop where
  distinct : targets.Pairwise fun t u => ∀ names, tree.names? t.path = some names →
    tree.names? u.path ≠ some names
  unextended : ∀ t ∈ targets, ∀ q, around.Extends tree t.path q → ∀ names,
    tree.names? (Storage.Disk.resolved around.current q) = some names →
      ∀ u ∈ targets, tree.names? u.path ≠ some names
  reach : ∀ t ∈ targets, ∀ u ∈ targets, t.path.directory.Alike u.path.directory →
    t.path.directory = u.path.directory ∨
      Storage.Disk.InReach around.current t.path ∧ Storage.Disk.InReach around.current u.path

variable {around : Surroundings} {job : Job} {tree : FileTree} {targets : List Target}

theorem Apart.uniform (apart : Apart around tree targets) :
    (Storage.Disk.storage tree around.current).Uniform (targets.map (·.path)) := by
  refine .disk ?_
  simp only [List.forall_mem_map]
  exact apart.reach

theorem Apart.single (apart : Apart around tree targets) {t : Target} (mem : t ∈ targets) :
    Apart around tree [t] where
  distinct := List.pairwise_singleton _ _
  unextended := by
    simp only [List.forall_mem_singleton]
    exact fun q extends_ names leads => apart.unextended t mem q extends_ names leads t mem
  reach := by
    simp only [List.forall_mem_singleton]
    exact fun _ => .inl trivial

/-- The places of the files that outcomes say were written. -/
def Rewrites (job : Job) (tree : FileTree) (outcomes : Outcomes) (names : List String) : Prop :=
  job.dry = false ∧ ∃ o ∈ outcomes, o.2 = .changed ∧ tree.names? o.1.path = some names

/-- What holds between one target and the next. -/
structure Follows (around : Surroundings) (job : Job) (tree : FileTree) (paths : List Path)
    (progress : Progress) : Prop where
  rewritten : Rewritten (Rewrites job tree progress.done) tree progress.tree
  differs : ∀ names, Rewrites job tree progress.done names →
    progress.tree.contentAt? names ≠ tree.contentAt? names
  others : ∀ names, Rewrites job tree progress.done names →
    ∀ name ∈ names.getLast?, name ∉ fileNames
  remembers : Remembers around tree paths progress.known

theorem rewritesSnoc {done : Outcomes} {o : Target × Disposition} {names : List String} :
    Rewrites job tree (done ++ [o]) names ↔
      Rewrites job tree done names ∨
        job.dry = false ∧ o.2 = .changed ∧ tree.names? o.1.path = some names := by
  simp only [Rewrites, List.mem_append, List.mem_singleton, or_and_right, exists_or,
    exists_eq_left, and_or_left]

theorem followsStart (around : Surroundings) (job : Job) (tree : FileTree) (paths : List Path) :
    Follows around job tree paths ⟨tree, [], []⟩ where
  rewritten := .refl _ tree
  differs _ := by simp [Rewrites]
  others _ := by simp [Rewrites]
  remembers := by simp [Remembers]

/-- No target before this one is the same file. -/
theorem targetFree {done : Outcomes} {t : Target} {rest : List Target}
    (apart : Apart around tree targets) (order : targets = done.map Prod.fst ++ t :: rest) :
    ∀ names, tree.names? t.path = some names → ¬ Rewrites job tree done names := by
  rintro names leads ⟨-, o, mem, -, there⟩
  have distinct := apart.distinct
  rw [order, List.pairwise_append] at distinct
  exact distinct.2.2 o.1 (List.mem_map_of_mem mem) t List.mem_cons_self names there leads

section outcome

variable {paths : List Path} {progress : Progress} {t : Target} {known : Resolutions}
variable (follows : Follows around job tree paths progress)
variable (remembers : Remembers around tree paths known)
include follows remembers

theorem followsIdle {d : Disposition} (dry : d = .changed → job.dry = true) :
    Follows around job tree paths ⟨progress.tree, known, progress.done ++ [(t, d)]⟩ := by
  have same (names : List String) : Rewrites job tree (progress.done ++ [(t, d)]) names ↔
      Rewrites job tree progress.done names := by
    rw [rewritesSnoc, or_iff_left]
    rintro ⟨wet, is, -⟩
    rw [dry is] at wet
    cases wet
  exact ⟨follows.rewritten.mono fun names => (same names).mpr,
    fun names touched => follows.differs names ((same names).mp touched),
    fun names touched => follows.others names ((same names).mp touched), remembers⟩

theorem followsWritten {names : List String} {text output : String} (written : job.dry = false)
    (kind : Source.Kind.ofPath t.path ≠ none)
    (found : progress.tree.find t.path = .ok (names, .file (.text text)))
    (differs : output ≠ text)
    (free : ∀ key, tree.names? t.path = some key → ¬ Rewrites job tree progress.done key) :
    Follows around job tree paths ⟨progress.tree.put (.file (.text output)) names, known,
      progress.done ++ [(t, .changed)]⟩ := by
  obtain ⟨leads, there⟩ := FileTree.findNames found
  rw [follows.rewritten.leads] at leads
  have content := follows.rewritten.contents names (free names leads)
  rw [FileTree.contentFile.mpr there] at content
  have put := FileTree.putRewritten there (.text output)
  have now : ∀ key, Rewrites job tree (progress.done ++ [(t, .changed)]) key ↔
      Rewrites job tree progress.done key ∨ key = names := by
    intro key
    rw [rewritesSnoc, leads]
    simp [written, eq_comm]
  refine ⟨?_, ?_, ?_, remembers⟩
  · exact (follows.rewritten.mono fun key touched => (now key).mpr (.inl touched)).trans
      (put.mono fun key same => (now key).mpr (.inr same))
  · intro key touched
    by_cases here : key = names
    · rw [here, FileTree.contentFile.mpr (FileTree.putHere there _), ← content]
      simpa using differs
    · rw [put.contents key here]
      exact follows.differs key (((now key).mp touched).resolve_right here)
  · intro key touched
    rcases (now key).mp touched with before | rfl
    · exact follows.others key before
    · exact kindOther kind leads

end outcome

section step

variable {progress : Progress} {t : Target} {rest : List Target}
variable (apart : Apart around tree targets)
variable (follows : Follows around job tree (targets.map (·.path)) progress)
include apart follows

theorem pairForFollows (absolute : ∀ t ∈ targets, t.path.isAbsolute = true) (mem : t ∈ targets)
    (done : ∀ o ∈ progress.done, o.1 ∈ targets) :
    (pairFor around progress.tree progress.known t.path).toOption.map Prod.fst =
      (around.pairOf tree t.path).toOption ∧
    ∀ pair known, pairFor around progress.tree progress.known t.path = .ok (pair, known) →
      Remembers around tree (targets.map (·.path)) known := by
  obtain ⟨same, further⟩ := pairForShared (List.forall_mem_map.mpr absolute) apart.uniform
    follows.remembers (List.mem_map_of_mem mem)
  have pairs : (around.pairOf progress.tree t.path).toOption =
      (around.pairOf tree t.path).toOption := by
    refine pairRewritten follows.rewritten follows.others ?_
    rintro q extends_ names leads ⟨-, o, inside, -, there⟩
    exact apart.unextended t mem q extends_ names leads o.1 (done o inside) there
  have now : (pairFor around progress.tree progress.known t.path).toOption =
      (pairFor around tree progress.known t.path).toOption := by
    unfold pairFor
    split
    · rfl
    · rw [toOptionMap, toOptionMap]
      exact congrArg _ pairs
  refine ⟨?_, fun pair known found => further pair known (toOptionOk ?_)⟩
  · rw [now, ← same, toOptionMap]
  · rw [← now, found]
    rfl

theorem tidyFollows (order : targets = progress.done.map Prod.fst ++ t :: rest)
    (pair : Workspace.Pair) {known : Resolutions}
    (remembers : Remembers around tree (targets.map (·.path)) known) :
    (tidyTarget job pair progress.tree t).2 = (tidyTarget ⟨job.tidy, true⟩ pair tree t).2 ∧
    Follows around job tree (targets.map (·.path)) (progress.next job pair known t) := by
  have free : ∀ names, tree.names? t.path = some names →
      ¬ Rewrites job tree progress.done names := targetFree apart order
  refine ⟨tidySame job ⟨job.tidy, true⟩ rfl pair (follows.rewritten.text free), ?_⟩
  rcases tidyStep job pair progress.tree t with ⟨d, step, dry⟩ |
    ⟨names, text, output, written, kind, found, differs, step⟩
  · rw [Progress.next, step]
    exact followsIdle follows remembers dry
  · rw [Progress.next, step]
    exact followsWritten follows remembers written kind found differs free

end step

section run

variable (apart : Apart around tree targets)
variable (absolute : ∀ t ∈ targets, t.path.isAbsolute = true)
include apart absolute

/-- A run from the middle: what is to come adds to what is done, or nothing comes of the whole. -/
theorem processFollows {rest : List Target} {progress : Progress}
    (follows : Follows around job tree (targets.map (·.path)) progress)
    (order : targets = progress.done.map Prod.fst ++ rest) :
    (processFrom around job progress rest).result.toOption =
      (rest.mapM (around.judge job.tidy tree)).map (progress.done ++ ·) ∧
    ∀ outcomes, (processFrom around job progress rest).result = .ok outcomes →
      ∃ known, Follows around job tree (targets.map (·.path))
        ⟨(processFrom around job progress rest).tree, known, outcomes⟩ := by
  induction rest generalizing progress with
  | nil =>
    refine ⟨by simp [processFrom, Except.toOption], fun outcomes done => ⟨progress.known, ?_⟩⟩
    cases done
    exact follows
  | cons t rest ih =>
    have mem : t ∈ targets := by simp [order]
    have among : ∀ o ∈ progress.done, o.1 ∈ targets := fun o inside => by
      rw [order]
      exact List.mem_append_left _ (List.mem_map_of_mem inside)
    obtain ⟨asked, further⟩ := pairForFollows apart follows absolute mem among
    rw [processCons, List.mapM_cons, Surroundings.judge, ← asked]
    cases found : pairFor around progress.tree progress.known t.path with
    | error e =>
      refine ⟨rfl, fun outcomes done => ?_⟩
      cases done
    | ok result =>
      obtain ⟨pair, known⟩ := result
      obtain ⟨same, next⟩ := tidyFollows apart follows order pair (further pair known found)
      obtain ⟨judged, done⟩ := ih next (by rw [order, Progress.next, List.map_append]; simp)
      refine ⟨?_, done⟩
      dsimp only
      rw [judged, Progress.next, same]
      cases rest.mapM (around.judge job.tidy tree) with
      | none => rfl
      | some outcomes => simp [Except.toOption]

theorem processJudged (job : Job) : (process around job tree targets).result.toOption =
    targets.mapM (around.judge job.tidy tree) := by
  have run := (processFollows apart absolute (followsStart around job tree _) rfl).1
  rw [process]
  simpa using run

theorem processWrites {outcomes : Outcomes}
    (done : (process around job tree targets).result = .ok outcomes) :
    (∀ names, ((process around job tree targets).tree.get? names).map FileTree.isDirectory =
      (tree.get? names).map FileTree.isDirectory) ∧
    ∀ names, (process around job tree targets).tree.contentAt? names ≠ tree.contentAt? names ↔
      Rewrites job tree outcomes names := by
  obtain ⟨known, follows⟩ :=
    (processFollows apart absolute (followsStart around job tree _) rfl).2 outcomes done
  refine ⟨follows.rewritten.kinds, fun names => ⟨fun other => ?_, follows.differs names⟩⟩
  exact by_contra fun free => other (follows.rewritten.contents names free)

end run

theorem eachGiven {α β : Type} {f : α → Option β} {as : List α} {bs : List β}
    (given : as.mapM f = some bs) : List.Forall₂ (fun a b => f a = some b) as bs := by
  induction as generalizing bs with
  | nil =>
    cases given
    exact .nil
  | cons a rest ih =>
    rw [List.mapM_cons] at given
    obtain ⟨b, first, others⟩ := Option.bind_eq_some_iff.mp given
    obtain ⟨more, later, same⟩ := Option.bind_eq_some_iff.mp others
    cases same
    exact .cons first (ih later)

theorem judgedTargets {tidy : Tidying} {outcomes : Outcomes}
    (judged : targets.mapM (around.judge tidy tree) = some outcomes) :
    outcomes.map Prod.fst = targets ∧ ∀ o ∈ outcomes, around.judge tidy tree o.1 = some o := by
  have each := eachGiven judged
  have order : outcomes.map Prod.fst = targets := by
    rw [← List.forall₂_eq_eq_eq, List.forall₂_map_left_iff]
    refine (each.imp ?_).flip
    intro t o is
    obtain ⟨pair, -, rfl⟩ := Option.map_eq_some_iff.mp is
    rfl
  rw [← order, List.forall₂_map_left_iff, List.forall₂_same] at each
  exact ⟨order, each⟩

theorem processDry (dry : job.dry = true) (progress : Progress) (rest : List Target) :
    (processFrom around job progress rest).tree = progress.tree := by
  induction rest generalizing progress with
  | nil => rfl
  | cons t rest ih =>
    rw [processCons]
    split
    · rfl
    · rename_i pair known found
      rw [ih, Progress.next]
      rcases tidyStep job pair progress.tree t with ⟨d, step, -⟩ | ⟨-, -, -, wet, -⟩
      · rw [step]
      · rw [dry] at wet
        cases wet

end Batch
end NotebookTidy
