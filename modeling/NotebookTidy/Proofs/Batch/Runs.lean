import NotebookTidy.Batch.Run
import NotebookTidy.Proofs.Batch.Independence

/-! A run of the command line over files that are tidied: which files, what becomes of each, and
what is told of it. A dry run tells the same and writes nothing. -/
namespace NotebookTidy.Batch
open Storage (FileTree FileContent)
open Text (byteLength)

structure Assignment where
  paths : List Path
  job : Job
  wording : Wording

def Invocation.assignment? (m : Machine) (tree : FileTree) (inv : Invocation) :
    Option Assignment :=
  match inv.task with
  | .format paths dry sortImports => (loadSettings m inv tree).toOption.map fun settings =>
    ⟨paths, ⟨formatTidying (settings.sortImports && sortImports), dry⟩, .format⟩
  | .fix paths dry => some ⟨paths, ⟨fixTidying, dry⟩, .fix⟩
  | .config _ => none

def Task.withDry (dry : Bool) : Task → Task
  | .format paths _ sortImports => .format paths dry sortImports
  | .fix paths _ => .fix paths dry
  | .config p => .config p

/-- The same command line with the switch for a dry run on or off. -/
def Invocation.withDry (inv : Invocation) (dry : Bool) : Invocation :=
  { inv with task := inv.task.withDry dry }

/-- What a run that came to its end tells, and what it leaves in the files. -/
structure Tells (tree : FileTree) (outcomes : Outcomes) (dry : Bool) (wording : Wording)
    (answer : Answer) : Prop where
  stdout : answer.stdout = outcomes.text dry wording
  failed : answer.failed = outcomes.failed
  exit : answer.exit =
    if ∃ o ∈ outcomes, o.2 = .failed ∨ dry = true ∧ o.2 = .changed then 1 else 0
  written : dry = false → ∀ names, answer.tree.contentAt? names ≠ tree.contentAt? names ↔
    ∃ p ∈ outcomes.changed, tree.names? p = some names
  kinds : ∀ names, (answer.tree.get? names).map FileTree.isDirectory =
    (tree.get? names).map FileTree.isDirectory
  untouched : dry = true → answer.tree = tree

theorem memPaths {outcomes : Outcomes} {d : Disposition} {p : Path} :
    p ∈ outcomes.paths d ↔ ∃ o ∈ outcomes, o.2 = d ∧ o.1.path = p := by
  simp [Outcomes.paths, and_assoc]

theorem outcomesCounted (outcomes : Outcomes) :
    outcomes.changed.length + outcomes.unchanged + (outcomes.paths .skipped).length +
      outcomes.failed.length = outcomes.length := by
  simp only [Outcomes.changed, Outcomes.unchanged, Outcomes.failed, Outcomes.paths,
    List.length_map]
  induction outcomes with
  | nil => rfl
  | cons o rest ih =>
    cases is : o.2 <;> simp [is] <;> omega

theorem alarmingIff (outcomes : Outcomes) (dry : Bool) : outcomes.alarming dry = true ↔
    ∃ o ∈ outcomes, o.2 = .failed ∨ dry = true ∧ o.2 = .changed := by
  have filled (d : Disposition) : (outcomes.paths d).isEmpty = false ↔ ∃ o ∈ outcomes, o.2 = d := by
    rw [← Bool.not_eq_true, List.isEmpty_iff, Outcomes.paths, List.map_eq_nil_iff,
      List.filter_eq_nil_iff]
    simp
  rw [Outcomes.alarming, Bool.or_eq_true, Bool.and_eq_true, Bool.not_eq_true', Bool.not_eq_true',
    Outcomes.changed, Outcomes.failed, filled, filled]
  constructor
  · rintro (⟨dry_, o, mem, is⟩ | ⟨o, mem, is⟩)
    · exact ⟨o, mem, .inr ⟨dry_, is⟩⟩
    · exact ⟨o, mem, .inl is⟩
  · rintro ⟨o, mem, is | ⟨dry_, is⟩⟩
    · exact .inr ⟨o, mem, is⟩
    · exact .inl ⟨dry_, o, mem, is⟩

/-! Targets -/

theorem mergePaths {ts : List Target} : ∀ t ∈ Target.merge ts, ∃ u ∈ ts, t.path = u.path := by
  induction ts with
  | nil => simp [Target.merge]
  | cons first rest ih =>
    intro t mem
    rw [Target.merge] at mem
    split at mem
    · exact ⟨first, List.mem_cons_self, by rw [List.mem_singleton.mp mem]⟩
    · rename_i u others merged
      rw [merged] at ih
      split at mem
      · rcases List.mem_cons.mp mem with rfl | later
        · exact ⟨first, List.mem_cons_self, rfl⟩
        · obtain ⟨v, inside, same⟩ := ih t (List.mem_cons_of_mem _ later)
          exact ⟨v, List.mem_cons_of_mem _ inside, same⟩
      · rcases List.mem_cons.mp mem with rfl | later
        · exact ⟨t, List.mem_cons_self, rfl⟩
        · obtain ⟨v, inside, same⟩ := ih t later
          exact ⟨v, List.mem_cons_of_mem _ inside, same⟩

theorem ofPathAbsolute {tree : FileTree} {p : Path} (absolute : p.isAbsolute = true) :
    ∀ t ∈ Target.ofPath tree p, t.path.isAbsolute = true := by
  intro t mem
  rw [Target.ofPath] at mem
  split at mem
  · obtain ⟨below, -, rfl⟩ := List.mem_map.mp mem
    exact Path.joinsAbsolute absolute _ below
  · rw [List.mem_singleton.mp mem]
    exact absolute
  · cases mem

theorem collectAbsolute {tree : FileTree} {current : Path} (rooted : current.isAbsolute = true)
    {paths : List Path} {targets : List Target}
    (collected : Target.collect tree current paths = .ok targets) :
    ∀ t ∈ targets, t.path.isAbsolute = true := by
  rw [Target.collect] at collected
  split at collected
  · rename_i seen given
    cases collected
    have absolute : ∀ p ∈ seen, p.isAbsolute = true := by
      have each := (eachGiven given).imp fun _ _ is => Path.absoluteAbsolute rooted is
      have both := each.flip.imp fun _ _ is => And.intro is trivial
      exact ((List.forall₂_and_left _ _).mp both).1
    intro t mem
    obtain ⟨u, inside, same⟩ := mergePaths t mem
    rw [Target.ordered, List.mem_mergeSort] at inside
    obtain ⟨p, among, inside⟩ := List.mem_flatMap.mp inside
    rw [same]
    exact ofPathAbsolute (absolute p among) u inside
  · cases collected

theorem collectMerged {tree : FileTree} {current : Path} {paths seen : List Path}
    {targets : List Target} (given : paths.mapM (·.absolute current) = some seen)
    (found : seen.flatMap (Target.ofPath tree) = targets)
    (ordered : targets.Pairwise fun a b => (a.path.order b.path).isLE = true) :
    Target.collect tree current paths = .ok (Target.merge targets) := by
  rw [Target.collect, given]
  dsimp only
  rw [found, Target.ordered, List.mergeSort_of_pairwise ordered]

theorem collectOrdered {tree : FileTree} {current : Path} {paths seen : List Path}
    {targets : List Target} (given : paths.mapM (·.absolute current) = some seen)
    (found : seen.flatMap (Target.ofPath tree) = targets)
    (ordered : targets.Pairwise fun a b => (a.path.order b.path).isLE = true)
    (merged : Target.merge targets = targets) :
    Target.collect tree current paths = .ok targets :=
  (collectMerged given found ordered).trans (congrArg Except.ok merged)

/-! The whole run -/

section run

variable {m : Machine} {tree : FileTree} {inv : Invocation} {work : Assignment}

theorem runAssigned {arguments : List String} (asked : Invocation.ofArguments arguments = .ok inv)
    (assigned : inv.assignment? m tree = some work) :
    run m tree arguments = runJob m inv tree work.paths work.job work.wording := by
  rw [run, asked]
  dsimp only
  rw [runInvocation]
  rw [Invocation.assignment?] at assigned
  cases task : inv.task with
  | format paths dry sortImports =>
    rw [task] at assigned
    obtain ⟨settings, loaded, rfl⟩ := Option.map_eq_some_iff.mp assigned
    rw [Config.toOptionOk loaded]
  | fix paths dry =>
    rw [task] at assigned
    cases assigned
    rfl
  | config p =>
    rw [task] at assigned
    cases assigned

theorem assignmentDry (assigned : inv.assignment? m tree = some work) (dry : Bool) :
    (inv.withDry dry).assignment? m tree =
      some ⟨work.paths, ⟨work.job.tidy, dry⟩, work.wording⟩ := by
  obtain ⟨overrides, program, settings, verbose, task⟩ := inv
  cases task with
  | format paths own sortImports =>
    obtain ⟨settings, loaded, rfl⟩ := Option.map_eq_some_iff.mp assigned
    exact Option.map_eq_some_iff.mpr ⟨settings, loaded, rfl⟩
  | fix paths own =>
    cases assigned
    rfl
  | config p => cases assigned

variable {overrides : Config.Table} {targets : List Target}

theorem endedTells {around : Surroundings} {job : Job} (wording : Wording) {outcomes : Outcomes}
    (apart : Apart around tree targets) (absolute : ∀ t ∈ targets, t.path.isAbsolute = true)
    (done : (process around job tree targets).result = .ok outcomes) :
    Tells tree outcomes job.dry wording (ended (process around job tree targets) job wording) := by
  obtain ⟨kinds, differs⟩ := processWrites apart absolute done
  have answer : ended (process around job tree targets) job wording =
      ⟨if outcomes.alarming job.dry then 1 else 0, outcomes.text job.dry wording, outcomes.failed,
        (process around job tree targets).tree⟩ := by
    rw [ended, done]
  rw [answer]
  refine ⟨rfl, rfl, ?_, fun wet names => ?_, kinds, fun dry => processDry dry _ targets⟩
  · exact if_congr (alarmingIff outcomes job.dry) rfl rfl
  · rw [differs names, Rewrites]
    simp only [Outcomes.changed, memPaths, wet, true_and]
    constructor
    · rintro ⟨o, mem, is, leads⟩
      exact ⟨o.1.path, ⟨o, mem, is, rfl⟩, leads⟩
    · rintro ⟨p, ⟨o, mem, is, rfl⟩, leads⟩
      exact ⟨o, mem, is, leads⟩

/-- Every target of a run has the outcome that it has alone, in a dry run and in one that writes,
and the two tell the same of them. -/
theorem runIndependent {arguments : List String}
    (asked : Invocation.ofArguments arguments = .ok inv)
    (assigned : inv.assignment? m tree = some work)
    (given : Config.parseOverrides inv.overrides = .ok overrides)
    (collected : Target.collect tree m.current work.paths = .ok targets)
    (rooted : m.current.isAbsolute = true)
    (apart : Apart (surroundings m inv.program overrides) tree targets)
    (completed : (run m tree arguments).exit ≠ 2) :
    ∃ outcomes : Outcomes, outcomes.map Prod.fst = targets ∧
      outcomes.changed.length + outcomes.unchanged + (outcomes.paths .skipped).length +
        outcomes.failed.length = targets.length ∧
      (∀ o ∈ outcomes, ∀ dry, (process (surroundings m inv.program overrides)
        ⟨work.job.tidy, dry⟩ tree [o.1]).result = .ok [o]) ∧
      Tells tree outcomes work.job.dry work.wording (run m tree arguments) ∧
      ∀ dry others, Invocation.ofArguments others = .ok (inv.withDry dry) →
        Tells tree outcomes dry work.wording (run m tree others) := by
  have absolute := collectAbsolute rooted collected
  have runs (job : Job) (wording : Wording) : runJob m inv tree work.paths job wording =
      ended (process (surroundings m inv.program overrides) job tree targets) job wording := by
    rw [runJob, given, collected]
  rw [runAssigned asked assigned, runs] at completed ⊢
  have judged (dry : Bool) := processJudged apart absolute ⟨work.job.tidy, dry⟩
  cases ends : (process (surroundings m inv.program overrides) work.job tree targets).result with
  | error e =>
    rw [ended, ends] at completed
    exact absurd rfl completed
  | ok outcomes =>
    have all := judged work.job.dry
    rw [show (⟨work.job.tidy, work.job.dry⟩ : Job) = work.job from rfl, ends] at all
    obtain ⟨order, each⟩ := judgedTargets all.symm
    refine ⟨outcomes, order, ?_, fun o mem dry => ?_, endedTells work.wording apart absolute ends,
      fun dry others asked' => ?_⟩
    · rw [outcomesCounted, ← order, List.length_map]
    · have inside : o.1 ∈ targets := order ▸ List.mem_map_of_mem mem
      have alone := processJudged (apart.single inside)
        (List.forall_mem_singleton.mpr (absolute o.1 inside)) ⟨work.job.tidy, dry⟩
      refine Config.toOptionOk (alone.trans ?_)
      rw [List.mapM_cons, List.mapM_nil, each o mem]
      rfl
    · have same := Config.toOptionOk ((judged dry).trans all.symm)
      have told := endedTells work.wording apart absolute same
      rw [runAssigned asked' (assignmentDry assigned dry)]
      have again : runJob m (inv.withDry dry) tree work.paths ⟨work.job.tidy, dry⟩ work.wording =
          runJob m inv tree work.paths ⟨work.job.tidy, dry⟩ work.wording := rfl
      rw [again, runs]
      exact told

end run

def pairTree : FileTree :=
  .directory (.cons .aPy (.file (.text "a"))
    (.cons .bPy (.file (.text "b\n")) .nil))

def pairMachine : Machine := ⟨⟨"/"⟩, fun _ _ _ => .ok ⟨0, Text.encodeUtf8 "b", [], none⟩⟩

def pairTargets : List Target := [⟨⟨"/a.py"⟩, true⟩, ⟨⟨"/b.py"⟩, true⟩]

theorem pairApart : Apart (surroundings pairMachine "ruff" .nil) pairTree pairTargets where
  distinct := by
    have first : pairTree.names? ⟨"/a.py"⟩ = some ["a.py"] := by decide
    have second : pairTree.names? ⟨"/b.py"⟩ = some ["b.py"] := by decide
    simp [pairTargets, first, second]
  unextended t mem q extends_ := by
    have nothing : ∀ t ∈ pairTargets,
        Config.findAbove (Storage.Disk.storage pairTree ⟨"/"⟩) t.path.parents = .ok none := by
      decide +kernel
    rcases extends_ with ⟨source, own, -, -, found, -⟩ | ⟨source, own, -, -, found, -⟩ <;>
      cases (nothing t mem).symm.trans found
  reach t mem u mem' _ := by
    have inside : ∀ t ∈ pairTargets, t.path.directory = ⟨"/"⟩ := by decide
    exact .inl ((inside t mem).trans (inside u mem').symm)

theorem runIndependentPair : ∃ outcomes : Outcomes, outcomes.map Prod.fst = pairTargets ∧
    Tells pairTree outcomes false .format (run pairMachine pairTree ["format", "/a.py", "/b.py"]) ∧
    Tells pairTree outcomes true .format
      (run pairMachine pairTree ["format", "--check", "/a.py", "/b.py"]) := by
  have asked : Invocation.ofArguments ["format", "/a.py", "/b.py"] =
      .ok ⟨[], "ruff", none, false, .format [⟨"/a.py"⟩, ⟨"/b.py"⟩] false true⟩ := by
    decide +kernel
  have collected : Target.collect pairTree ⟨"/"⟩ [⟨"/a.py"⟩, ⟨"/b.py"⟩] = .ok pairTargets :=
    collectOrdered rfl (by decide) (by decide) (by decide)
  have assigned : Invocation.assignment? pairMachine pairTree
      ⟨[], "ruff", none, false, .format [⟨"/a.py"⟩, ⟨"/b.py"⟩] false true⟩ =
        some ⟨[⟨"/a.py"⟩, ⟨"/b.py"⟩], ⟨formatTidying true, false⟩, .format⟩ := rfl
  have completed : (run pairMachine pairTree ["format", "/a.py", "/b.py"]).exit ≠ 2 := by
    rw [runAssigned asked assigned, runJob]
    dsimp only
    rw [show pairMachine.current = ⟨"/"⟩ from rfl, collected]
    decide +kernel
  obtain ⟨outcomes, order, -, -, told, dry⟩ :=
    runIndependent asked assigned rfl collected rfl pairApart completed
  exact ⟨outcomes, order, told, dry true _ (by decide +kernel)⟩

/-! A neighbour in a longer spelling -/

theorem namingA : Path.Naming "a.py".toList := ⟨by decide, by decide, by decide⟩

theorem namingB : Path.Naming "b.py".toList := ⟨by decide, by decide, by decide⟩

def crowdedBottom : Storage.Children :=
  .cons .aPy (.file (.text "x")) (.cons .bPy (.file (.text "y"))
    (.cons .ruffToml (.file (.text "include = []\nexclude = []")) .nil))

def crowdedTree (k : Nat) : FileTree := deepTree crowdedBottom (k + 1)

def crowdedTargets (k : Nat) : List Target :=
  [⟨longFile [] k "a.py".toList, true⟩, ⟨longFile [[]] k "b.py".toList, true⟩]

theorem crowdedDeep (k : Nat) : Deep (crowdedTree k) k :=
  deepDeep rfl rfl k

theorem placesDiffer (k : Nat) :
    longPlaceOf k "a.py".toList ≠ longPlaceOf k "b.py".toList := by
  rw [longPlaceOf, longPlaceOf, ne_eq, List.append_right_inj]
  decide

section crowded

variable {k : Nat} (inside : 5 * k + 15 < FileTree.pathLimit)
include inside

theorem crowdedFound {front : List (List Char)} (start : front = [] ∨ front = [[]])
    {name : List Char} (naming : Path.Naming name) (length : byteLength name = 4)
    {content : FileContent}
    (held : (crowdedTree k).get? (longPlaceOf k name) = some (.file content)) :
    (crowdedTree k).find (longFile front k name) = .ok (longPlaceOf k name, .file content) := by
  refine longFileFound start naming (crowdedDeep k) ?_ held
  obtain ⟨single, double⟩ := longPathLength k
  rw [Path.Short, longFileLength]
  rcases start with rfl | rfl <;> omega

theorem crowdedHeld : (crowdedTree k).find (longFile [] k "a.py".toList) =
      .ok (longPlaceOf k "a.py".toList, .file (.text "x")) ∧
    (crowdedTree k).find (longFile [[]] k "b.py".toList) =
      .ok (longPlaceOf k "b.py".toList, .file (.text "y")) := by
  have held (name : List Char) : (crowdedTree k).get? (longPlaceOf k name) =
      crowdedBottom.get? (String.ofList name) := by
    rw [longPlaceOf, crowdedTree, FileTree.getSnoc, deepGet]
    rfl
  exact ⟨crowdedFound inside (.inl rfl) namingA (by decide) ((held _).trans (by decide)),
    crowdedFound inside (.inr rfl) namingB (by decide) ((held _).trans (by decide))⟩

theorem crowdedCollected : Target.collect (crowdedTree k) ⟨"/"⟩
    ((crowdedTargets k).map (·.path)) = .ok (crowdedTargets k) := by
  obtain ⟨first, second⟩ := crowdedHeld inside
  have seen : ((crowdedTargets k).map (·.path)).mapM (·.absolute ⟨"/"⟩) =
      some ((crowdedTargets k).map (·.path)) := by
    rw [crowdedTargets, List.map_cons, List.map_singleton, List.mapM_cons, List.mapM_cons,
      longFileAbsolute (.inl rfl) namingA, longFileAbsolute (.inr rfl) namingB]
    rfl
  have order := longOrder namingA namingB k
  refine collectOrdered seen ?_ ?_ ?_
  · rw [crowdedTargets, List.map_cons, List.map_singleton, List.flatMap_cons,
      List.flatMap_singleton, Target.ofPath, Target.ofPath, first, second]
    rfl
  · rw [crowdedTargets, List.pairwise_pair]
    dsimp only
    rw [order]
    decide
  · have other : (longFile [] k "a.py".toList).same (longFile [[]] k "b.py".toList) = false := by
      rw [Path.same, longFileComponents (.inl rfl) namingA, longFileComponents (.inr rfl) namingB,
        decide_eq_false_iff_not, List.cons.injEq, List.map_inj_right fun _ _ => Component.name.inj]
      exact fun same => placesDiffer k same.2
    rw [crowdedTargets, Target.merge, Target.merge, Target.merge]
    dsimp only
    rw [other]
    rfl

theorem crowdedUnextended (outside : FileTree.pathLimit ≤ 5 * k + 16) :
    ∀ t ∈ crowdedTargets k, ∀ q, ¬ longAround.Extends (crowdedTree k) t.path q := by
  obtain ⟨single, double⟩ := longPathLength k
  have deep := crowdedDeep k
  have joined := Config.diskJoined (crowdedTree k) ⟨"/"⟩
  have plain : ∀ part ∈ ([[]] : List (List Char)), '/' ∉ part := by decide
  have free : ∀ part ∈ ([] : List (List Char)), '/' ∉ part := by simp
  have near {overrides : Config.Table} (own : overrides.get? Config.extendKey = none) (q : Path) :
      ¬ Config.Visited (Storage.Disk.storage (crowdedTree k) ⟨"/"⟩)
        (longFile [] k "a.py".toList) overrides q := by
    refine Config.visitedAlone joined (longFirst free rfl deep namingA.plain namingA.solid ?_) ?_
    · rw [Path.Short]
      omega
    · intro table loaded
      have within : (Config.Candidate.path ⟨longPath [] k, "ruff.toml"⟩).Short := by
        rw [Path.Short, longCandidateLength]
        omega
      rw [longLoads free rfl deep within] at loaded
      cases loaded
      exact longEnds own
  have far (overrides : Config.Table) (q : Path) :
      ¬ Config.Visited (Storage.Disk.storage (crowdedTree k) ⟨"/"⟩)
        (longFile [[]] k "b.py".toList) overrides q := by
    refine Config.visitedAlone joined (longFirst plain rfl deep namingB.plain namingB.solid ?_) ?_
    · rw [Path.Short]
      omega
    · intro table loaded
      have beyond : ¬ (Config.Candidate.path ⟨longPath [[]] k, "ruff.toml"⟩).Short := by
        rw [Path.Short, longCandidateLength]
        omega
      obtain ⟨e, failed⟩ := longFails plain rfl (crowdedTree k) beyond
      cases failed.symm.trans loaded
  intro t mem q extends_
  rcases List.mem_cons.mp mem with rfl | mem
  · exact extends_.elim (near rfl q) (near (by decide) q)
  · rw [List.mem_singleton.mp mem] at extends_
    exact extends_.elim (far _ q) (far _ q)

theorem crowdedCompletes (outside : FileTree.pathLimit ≤ 5 * k + 16) (job : Job) :
    (∃ outcomes, (process longAround job (crowdedTree k) (crowdedTargets k)).result =
      .ok outcomes) ∧
    ∃ e, (process longAround job (crowdedTree k)
      [⟨longFile [[]] k "b.py".toList, true⟩]).result = .error e := by
  obtain ⟨pair, first⟩ := longKnown (crowdedDeep k) inside
  obtain ⟨e, failed⟩ := longForgotten (crowdedDeep k) (by omega) outside
  constructor
  · rw [process, crowdedTargets, processFrom, first]
    dsimp only
    rw [processFrom, longRemembered]
    exact ⟨_, rfl⟩
  · have unknown : pairFor longAround (crowdedTree k) [] (longFile [[]] k "b.py".toList) =
        .error e := by
      unfold pairFor
      rw [List.lookup_nil]
      unfold Surroundings.pairOf at failed
      dsimp only
      rw [failed]
      rfl
    rw [process, processFrom, unknown]
    exact ⟨e, rfl⟩

end crowded

/-- Two files of one directory, of which the second is governed by what is remembered for the first
only: on its own it is too far from its configuration, in the spelling that names it. -/
theorem neighbourRemembered :
    Target.collect (crowdedTree 816) ⟨"/"⟩ ((crowdedTargets 816).map (·.path)) =
      .ok (crowdedTargets 816) ∧
    ((crowdedTargets 816).Pairwise fun t u =>
      (crowdedTree 816).names? t.path ≠ (crowdedTree 816).names? u.path) ∧
    (∀ t ∈ crowdedTargets 816, ∀ q, ¬ longAround.Extends (crowdedTree 816) t.path q) ∧
    (∃ outcomes, (process longAround ⟨fixTidying, true⟩ (crowdedTree 816)
      (crowdedTargets 816)).result = .ok outcomes) ∧
    ∃ t ∈ crowdedTargets 816, ∃ e,
      (process longAround ⟨fixTidying, true⟩ (crowdedTree 816) [t]).result = .error e := by
  have inside : 5 * 816 + 15 < FileTree.pathLimit := by decide
  have outside : FileTree.pathLimit ≤ 5 * 816 + 16 := by decide
  obtain ⟨first, second⟩ := crowdedHeld inside
  obtain ⟨together, alone⟩ := crowdedCompletes inside outside ⟨fixTidying, true⟩
  refine ⟨crowdedCollected inside, ?_, crowdedUnextended inside outside, together,
    _, List.mem_cons_of_mem _ (List.mem_singleton_self _), alone⟩
  rw [crowdedTargets, List.pairwise_pair]
  dsimp only
  rw [(FileTree.findNames first).1, (FileTree.findNames second).1]
  exact fun same => placesDiffer 816 (Option.some.inj same)

end NotebookTidy.Batch
