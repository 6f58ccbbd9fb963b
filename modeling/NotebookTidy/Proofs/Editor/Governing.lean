import NotebookTidy.Proofs.Editor.Serving
import NotebookTidy.Proofs.Workspace.Uniform

/-! Which workspaces a session has in use. They are those of the directory that was resolved last;
another document in that directory is not resolved again. As long as nothing fails to resolve they
are those of the active document, whichever document an event is about. -/
namespace NotebookTidy.Editor

/-- What a resolution of a path gives when nothing is remembered. -/
def Surroundings.pairOf (around : Surroundings) (p : Path) : Except Config.Error Workspace.Pair :=
  Workspace.resolvePair around.storage p around.overrides around.factory

def Event.path : Event → Option Path
  | .activated p => some p
  | .cellScheduled p _ => some p
  | .saving p => some p
  | .command _ => none

def Event.activates : Event → Option Path
  | .activated p => some p
  | _ => none

namespace Session

/-- The path whose directory an event turns to, whether or not that has to be resolved. -/
def turnsTo (s : Session) : Event → Option Path
  | .activated p => some p
  | .command .reload => s.activePath
  | _ => none

/-- The path that an event has resolved. -/
def resolves (s : Session) : Event → Option Path
  | .activated p => if s.needsReload p then some p else none
  | .command .reload => s.activePath
  | _ => none

def asked (s : Session) (events : List Event) : List Path :=
  s.activePath.toList ++ events.filterMap Event.path

/-- Nothing that a run has resolved fails. -/
def Succeeds (around : Surroundings) : Session → List Event → Prop
  | _, [] => True
  | s, e :: rest => (∀ p, s.resolves e = some p → ∃ pair, around.pairOf p = .ok pair) ∧
      Succeeds around (s.handle around e) rest

/-- What is in use after an event that turns to a path: both workspaces of a resolution of that
path, or exactly what was in use before. -/
inductive Settled (around : Surroundings) (p : Path) (s after : Session) : Prop where
  | resolved {directory : Path} {pair : Workspace.Pair} (fresh : around.pairOf p = .ok pair)
      (inUse : after.workspaces = some ⟨directory, pair⟩) (same : directory.Alike p.directory)
  | failed {e : Config.Error} (fresh : around.pairOf p = .error e)
      (kept : after.workspaces = s.workspaces)

/-- The workspaces in use are those of one of the paths that were asked for. -/
structure Tracks (around : Surroundings) (asked : List Path) (s : Session) : Prop where
  active : ∀ a, s.activePath = some a → a ∈ asked
  governed : ∀ w, s.workspaces = some w →
    ∃ q ∈ asked, w.directory = q.directory ∧ around.pairOf q = .ok w.pair

/-- The workspaces in use are those of the active document. -/
structure Follows (around : Surroundings) (s : Session) : Prop where
  governed : ∀ w, s.workspaces = some w →
    ∃ a, s.activePath = some a ∧ w.directory.Alike a.directory ∧ around.pairOf a = .ok w.pair

/-! What an event leaves -/

theorem answeredKeeps (s : Session) (e : Event) :
    (s.answered e).workspaces = s.workspaces ∧ (s.answered e).activePath = s.activePath := by
  have formatted (r : Request) : (s.format r none).1.workspaces = s.workspaces ∧
      (s.format r none).1.activePath = s.activePath := by
    unfold format
    split
    · exact ⟨rfl, rfl⟩
    · split
      · exact ⟨rfl, rfl⟩
      · simp only [appliedAll]
        exact ⟨rfl, rfl⟩
  unfold answered
  split
  · exact formatted _
  · exact ⟨rfl, rfl⟩

theorem reloadGoverned (s : Session) (around : Surroundings) (p : Path) :
    (s.reload around p).1.workspaces =
      ((around.pairOf p).toOption.map (Governed.mk p.directory)).or s.workspaces ∧
    (s.reload around p).1.activePath = s.activePath := by
  unfold reload Surroundings.pairOf
  dsimp only
  cases Workspace.resolvePair around.storage p around.overrides around.factory with
  | ok pair => exact ⟨rfl, rfl⟩
  | error e => exact ⟨rfl, rfl⟩

theorem handleGoverned (s : Session) (around : Surroundings) (e : Event) :
    (s.handle around e).workspaces =
      ((s.resolves e).bind fun p =>
        (around.pairOf p).toOption.map (Governed.mk p.directory)).or s.workspaces ∧
    (s.handle around e).activePath = e.activates.or s.activePath := by
  rw [handleEvent]
  cases e with
  | activated p =>
    simp only [resolves]
    split
    · exact (s.activate p).reloadGoverned around p
    · exact ⟨rfl, rfl⟩
  | cellScheduled p i => exact s.answeredKeeps _
  | saving p => exact s.answeredKeeps _
  | command c =>
    cases c with
    | toggle setting =>
      simp only [toggle]
      split <;> exact ⟨rfl, rfl⟩
    | reload =>
      simp only [resolves]
      cases active : s.activePath with
      | none => exact ⟨rfl, active⟩
      | some p =>
        obtain ⟨workspaces, path⟩ := s.reloadGoverned around p
        exact ⟨workspaces, path.trans active⟩
    | formatCell => exact s.answeredKeeps _
    | formatAllCells => exact s.answeredKeeps _
    | formatText => exact s.answeredKeeps _

/-- An event has a path resolved and leaves it active, makes active one in the directory that is in
use, or does neither. -/
inductive Steers (s : Session) (e : Event) : Prop where
  | anew {p : Path} (resolves : s.resolves e = some p) (turns : s.turnsTo e = some p)
      (active : e.activates.or s.activePath = some p)
  | again {p : Path} {w : Governed} (activates : e.activates = some p)
      (turns : s.turnsTo e = some p) (resolves : s.resolves e = none)
      (inUse : s.workspaces = some w) (same : w.directory.Alike p.directory)
  | elsewhere (activates : e.activates = none) (turns : s.turnsTo e = none)
      (resolves : s.resolves e = none)

theorem steers (s : Session) (e : Event) : Steers s e := by
  cases e with
  | activated p =>
    cases stale : s.needsReload p with
    | true => exact .anew (if_pos stale) rfl rfl
    | false =>
      have current : s.resolves (.activated p) = none := if_neg (by simp [stale])
      unfold needsReload at stale
      split at stale
      · rename_i w inUse
        have same : w.directory.Alike p.directory := by
          simpa [Path.same, Path.Alike] using stale
        exact .again rfl rfl current inUse same
      · cases stale
  | cellScheduled p i => exact .elsewhere rfl rfl rfl
  | saving p => exact .elsewhere rfl rfl rfl
  | command c =>
    cases c with
    | reload =>
      cases active : s.activePath with
      | none => exact .elsewhere rfl active active
      | some p => exact .anew active active active
    | _ => exact .elsewhere rfl rfl rfl

section runs

variable {around : Surroundings} {asked : List Path} {s : Session}

theorem besideParents {p q : Path} (up : p.parent ≠ none) (up' : q.parent ≠ none)
    (same : p.directory.Alike q.directory) : p.Beside q :=
  ⟨iff_of_false up up', same⟩

theorem pairShared (uniform : around.storage.Uniform asked) (parents : ∀ p ∈ asked, p.parent ≠ none)
    {p q : Path} (mem : p ∈ asked) (mem' : q ∈ asked) (same : p.directory.Alike q.directory)
    {pair : Workspace.Pair} (resolved : around.pairOf p = .ok pair) :
    around.pairOf q = .ok pair := by
  have both := Config.uniformPair uniform mem mem'
    (besideParents (parents p mem) (parents q mem') same) around.overrides around.factory
  unfold Surroundings.pairOf at resolved ⊢
  rw [resolved] at both
  exact Config.toOptionOk both.symm

theorem tracksStep (tracks : Tracks around asked s) {e : Event}
    (known : ∀ p, e.path = some p → p ∈ asked) : Tracks around asked (s.handle around e) := by
  have activated {p : Path} (activates : e.activates = some p) : p ∈ asked := by
    cases e with
    | activated q => exact known p activates
    | _ => cases activates
  obtain ⟨workspaces, path⟩ := s.handleGoverned around e
  have active (a : Path) (now : (s.handle around e).activePath = some a) : a ∈ asked := by
    rw [path] at now
    rcases Option.or_eq_some_iff.mp now with here | ⟨-, before⟩
    · exact activated here
    · exact tracks.active a before
  refine ⟨active, fun w inUse => ?_⟩
  have unchanged (nothing : s.resolves e = none) :
      ∃ q ∈ asked, w.directory = q.directory ∧ around.pairOf q = .ok w.pair := by
    rw [workspaces, nothing] at inUse
    exact tracks.governed w inUse
  cases s.steers e with
  | @anew p resolves turns now =>
    rw [workspaces, resolves, Option.bind_some] at inUse
    cases found : around.pairOf p with
    | error error =>
      rw [found] at inUse
      exact tracks.governed w inUse
    | ok pair =>
      rw [found] at inUse
      cases inUse
      exact ⟨p, active p (path.trans now), rfl, found⟩
  | again activates turns resolves => exact unchanged resolves
  | elsewhere activates turns resolves => exact unchanged resolves

theorem runTracks {events : List Event} (tracks : Tracks around asked s)
    (known : ∀ e ∈ events, ∀ p, e.path = some p → p ∈ asked) :
    Tracks around asked (s.run around events) := by
  induction events generalizing s with
  | nil => exact tracks
  | cons e rest ih =>
    obtain ⟨first, others⟩ := List.forall_mem_cons.mp known
    exact ih (tracksStep tracks first) others

theorem handleSettled (uniform : around.storage.Uniform asked)
    (parents : ∀ p ∈ asked, p.parent ≠ none) (tracks : Tracks around asked s) {e : Event} {p : Path}
    (mem : p ∈ asked) (turned : s.turnsTo e = some p) :
    Settled around p s (s.handle around e) := by
  obtain ⟨workspaces, -⟩ := s.handleGoverned around e
  cases s.steers e with
  | anew resolves turns now =>
    cases turns.symm.trans turned
    rw [resolves, Option.bind_some] at workspaces
    cases found : around.pairOf p with
    | error error =>
      rw [found] at workspaces
      exact .failed found workspaces
    | ok pair =>
      rw [found] at workspaces
      exact .resolved found workspaces rfl
  | @again _ w activates turns resolves inUse same =>
    cases turns.symm.trans turned
    -- What is in use was resolved for another path in the same directory.
    obtain ⟨q, mem', directory, found⟩ := tracks.governed w inUse
    rw [resolves, inUse] at workspaces
    exact .resolved (pairShared uniform parents mem' mem (directory ▸ same) found) workspaces same
  | elsewhere activates turns resolves =>
    rw [turns] at turned
    cases turned

theorem followsStep (uniform : around.storage.Uniform asked)
    (parents : ∀ p ∈ asked, p.parent ≠ none) (tracks : Tracks around asked s)
    (follows : Follows around s) {e : Event} (known : ∀ p, e.path = some p → p ∈ asked)
    (succeeds : ∀ p, s.resolves e = some p → ∃ pair, around.pairOf p = .ok pair) :
    Follows around (s.handle around e) := by
  obtain ⟨workspaces, path⟩ := s.handleGoverned around e
  refine ⟨fun w now => ?_⟩
  cases s.steers e with
  | @anew p resolves turns active =>
    obtain ⟨pair, found⟩ := succeeds p resolves
    rw [workspaces, resolves, Option.bind_some, found] at now
    cases now
    exact ⟨p, path.trans active, rfl, found⟩
  | @again p _ activates turns resolves inUse same =>
    rw [workspaces, resolves, inUse] at now
    cases now
    obtain ⟨a, active, directory, found⟩ := follows.governed w inUse
    have mem : p ∈ asked := by
      cases e with
      | activated q => exact known p activates
      | _ => cases activates
    have shared := pairShared uniform parents (tracks.active a active) mem
      (directory.symm.trans same) found
    exact ⟨p, by rw [path, activates]; rfl, same, shared⟩
  | elsewhere activates turns resolves =>
    rw [workspaces, resolves] at now
    obtain ⟨a, active, rest⟩ := follows.governed w now
    exact ⟨a, by rw [path, activates]; exact active, rest⟩

theorem runFollows (uniform : around.storage.Uniform asked)
    (parents : ∀ p ∈ asked, p.parent ≠ none) {events : List Event} (tracks : Tracks around asked s)
    (follows : Follows around s) (known : ∀ e ∈ events, ∀ p, e.path = some p → p ∈ asked)
    (succeeds : s.Succeeds around events) : Follows around (s.run around events) := by
  induction events generalizing s with
  | nil => exact follows
  | cons e rest ih =>
    obtain ⟨first, others⟩ := List.forall_mem_cons.mp known
    obtain ⟨now, later⟩ := succeeds
    exact ih (tracksStep tracks first)
      (followsStep uniform parents tracks follows first now) others later

end runs

/-- A document is in scope of a pair of workspaces, and the sources that an event aims at in it are
tidied with that pair. -/
structure TidiedUnder (s after : Session) (e : Event) (p : Path) (pair : Workspace.Pair) :
    Prop where
  inScope : pair.format.shouldFormat p e.explicit = true
  texts : ∃ d d', s.documents.get? p = some d ∧ after.documents.get? p = some d' ∧
    ∀ t, d'.body.source? t =
      if s.aimsAt e t then (d.body.source? t).map (s.tidied pair) else d.body.source? t

theorem changedAdmits {s after : Session} {e : Event} (served : Served s after e) {q : Path}
    (changed : after.documents.get? q ≠ s.documents.get? q) :
    ∃ p pair directory, s.subject e = some p ∧ q.Alike p ∧
      s.workspaces = some ⟨directory, pair⟩ ∧ TidiedUnder s after e p pair := by
  have aimed : ¬ ∀ p, s.subject e = some p → q.same p = false :=
    fun other => changed (served.others q other)
  push Not at aimed
  obtain ⟨p, about, here⟩ := aimed
  have touched : ¬ ∀ p pair d, s.Admits e p pair → s.documents.get? p = some d →
      ∀ t, s.aimsAt e t = true → d.body.source? t = none :=
    fun idle => changed (by rw [served.idle idle])
  push Not at touched
  obtain ⟨p', pair, d, admits, opened, -⟩ := touched
  cases about.symm.trans admits.subject
  obtain ⟨directory, inUse⟩ := admits.resolved
  obtain ⟨d', left, texts⟩ := served.texts p pair d admits opened
  have same : q.Alike p := by simpa [Path.same, Path.Alike] using here
  exact ⟨p, pair, directory, about, same, inUse, admits.inScope, d, d', opened, left, texts⟩

theorem subjectPath {s : Session} {e : Event} {p : Path} (about : s.subject e = some p) :
    e.path = some p ∨ (∃ c, e = .command c) ∧ s.activePath = some p := by
  cases e with
  | activated q => cases about
  | cellScheduled q i => exact .inl about
  | saving q => exact .inl about
  | command c =>
    refine .inr ⟨⟨c, rfl⟩, ?_⟩
    cases c with
    | toggle setting => cases about
    | reload => cases about
    | formatCell => exact about
    | formatAllCells => exact about
    | formatText => exact about

theorem pathsAsked (s : Session) (events : List Event) (e : Event) (mem : e ∈ events) (p : Path)
    (path : e.path = some p) : p ∈ s.asked events :=
  List.mem_append_right _ (List.mem_filterMap.mpr ⟨e, mem, path⟩)

theorem freshTracks {s : Session} (fresh : s.workspaces = none) (around : Surroundings)
    (events : List Event) : Tracks around (s.asked events) s where
  active a active := List.mem_append_left _ (by simp [active])
  governed w inUse := by
    rw [fresh] at inUse
    cases inUse

theorem freshFollows {s : Session} (fresh : s.workspaces = none) (around : Surroundings) :
    Follows around s where
  governed w inUse := by
    rw [fresh] at inUse
    cases inUse

end Session

open Session in
/-- As long as nothing fails to resolve, a document is changed under the workspaces of the active
one. They are those of the document itself for a command, and for an event of its own if it lies in
the directory of the active document. -/
theorem changedUnderActive {s : Session} {around : Surroundings} {events : List Event} {e : Event}
    (fresh : s.workspaces = none)
    (parents : ∀ p ∈ s.asked (events ++ [e]), p.parent ≠ none)
    (uniform : around.storage.Uniform (s.asked (events ++ [e])))
    (succeeds : s.Succeeds around events) (q : Path)
    (changed : ((s.run around events).handle around e).documents.get? q ≠
      (s.run around events).documents.get? q) :
    ∃ p a pair, (s.run around events).subject e = some p ∧ q.Alike p ∧
      (s.run around events).activePath = some a ∧ around.pairOf a = .ok pair ∧
      TidiedUnder (s.run around events) ((s.run around events).handle around e) e p pair ∧
      ((∃ c, e = .command c) ∨ p.directory.Alike a.directory → around.pairOf p = .ok pair) := by
  have known := fun f mem => s.pathsAsked (events ++ [e]) f (List.mem_append_left [e] mem)
  have tracks := freshTracks fresh around (events ++ [e])
  have follows := runFollows uniform parents tracks (freshFollows fresh around) known succeeds
  have tracked := runTracks tracks known
  obtain ⟨p, pair, directory, about, same, inUse, tidied⟩ :=
    changedAdmits ((s.run around events).handleServed around e) changed
  obtain ⟨a, active, -, found⟩ := follows.governed _ inUse
  refine ⟨p, a, pair, about, same, active, found, tidied, fun own => ?_⟩
  rcases subjectPath about with path | ⟨-, asks⟩
  · rcases own with ⟨c, rfl⟩ | beside
    · cases path
    · have mem : p ∈ s.asked (events ++ [e]) :=
        s.pathsAsked (events ++ [e]) e (List.mem_append_right _ (List.mem_singleton_self e)) p path
      exact pairShared uniform parents (tracked.active a active) mem beside.symm found
  · cases active.symm.trans asks
    exact found

/-! Two directories, one of which includes nothing -/

open Config Storage

def narrowMemory : Memory := Memory.empty.insert ⟨"b/ruff.toml"⟩ "include = []"

def narrowAround : Surroundings :=
  ⟨narrowMemory.storage, tidyFactory, .cons "exclude" (.array .nil) .nil⟩

def narrowSession : Session :=
  { documents := ⟨[⟨⟨"a/y.py"⟩, .text "x"⟩, ⟨⟨"b/x.py"⟩, .text "x"⟩]⟩
    settings := { formatOnSave := true, sortImports := false } }

theorem narrowOuter (overrides : Table) :
    resolve narrowMemory.storage ⟨"a/y.py"⟩ overrides = .ok ⟨overrides, none, []⟩ := by
  have parents : Path.parents ⟨"a/y.py"⟩ = [⟨"a"⟩, ⟨""⟩] := by decide
  refine resolveNone (passedUnlisted fun c mem => ?_)
  rw [candidateListed (candidateNamed mem).2]
  rw [candidates, parents] at mem
  have absent : ∀ c ∈ candidatesIn [⟨"a"⟩, ⟨""⟩],
      ¬ ∃ f ∈ narrowMemory.files, c.directory.components ++ [.name c.name] <+: f.1 := by
    decide
  exact mt And.right (absent c mem)

theorem narrowInner {overrides : Table} (plain : overrides.get? extendKey = none) :
    resolve narrowMemory.storage ⟨"b/x.py"⟩ overrides =
      .ok ⟨merge (.cons "include" (.array .nil) .nil) overrides, some ⟨"b/ruff.toml"⟩, []⟩ := by
  have parents : Path.parents ⟨"b/x.py"⟩ = [⟨"b"⟩, ⟨""⟩] := by decide
  have row : candidates ⟨"b/x.py"⟩ = [⟨⟨"b"⟩, ".ruff.toml"⟩] ++ ⟨⟨"b"⟩, "ruff.toml"⟩ ::
      [⟨⟨"b"⟩, projectFile⟩, ⟨⟨""⟩, ".ruff.toml"⟩, ⟨⟨""⟩, "ruff.toml"⟩, ⟨⟨""⟩, projectFile⟩] := by
    rw [candidates, parents]
    rfl
  have path : Candidate.path ⟨⟨"b"⟩, "ruff.toml"⟩ = ⟨"b/ruff.toml"⟩ := by decide
  have stored : narrowMemory.get? (Candidate.path ⟨⟨"b"⟩, "ruff.toml"⟩) = some "include = []" := by
    decide
  have ends : extendTarget (merge (.cons "include" (.array .nil) .nil) overrides) = none := by
    rw [extendTarget, merge, getOver, plain]
    rfl
  have read : Toml.read? "include = []" = some (.cons "include" (.array .nil) .nil) := by
    decide +kernel
  rw [resolveStored row (by decide) (by decide) (by decide) stored read ends, path]

def narrowBuild (options : Table) (q : Path) : Option (Bool × String) :=
  (Workspace.build options tidyFactory .utf16).toOption.map fun w =>
    (w.shouldFormat q false, Pipeline.formatText w.engine "x")

theorem narrowPair {p : Path} {r r' : Resolved}
    (formatting : resolve narrowMemory.storage p (.cons "exclude" (.array .nil) .nil) = .ok r)
    (selecting : resolve narrowMemory.storage p
      (merge (.cons "exclude" (.array .nil) .nil) importSorting) = .ok r')
    (built : (narrowBuild r.config p).isSome = true)
    (built' : (narrowBuild r'.config p).isSome = true) :
    ∃ pair, narrowAround.pairOf p = .ok pair ∧ ∀ q, narrowBuild r.config q =
      some (pair.format.shouldFormat q false, Pipeline.formatText pair.format.engine "x") := by
  unfold narrowBuild at built built' ⊢
  rw [Option.isSome_map] at built built'
  obtain ⟨w, is⟩ := Option.isSome_iff_exists.mp built
  obtain ⟨w', is'⟩ := Option.isSome_iff_exists.mp built'
  exact ⟨⟨w, w'⟩, pairBuilt formatting selecting (toOptionOk is) (toOptionOk is'),
    fun q => by rw [is]; rfl⟩

theorem narrowActivated : ∃ pair, narrowAround.pairOf ⟨"a/y.py"⟩ = .ok pair ∧
    (∀ p, p = ⟨"a/y.py"⟩ ∨ p = ⟨"b/x.py"⟩ → pair.format.shouldFormat p false = true) ∧
    Pipeline.formatText pair.format.engine "x" = "tidy" ∧
    ∃ engines, narrowSession.run narrowAround [.activated ⟨"a/y.py"⟩] =
      ⟨narrowSession.documents, some ⟨"a/y.py"⟩, none, narrowSession.settings, narrowSession.store,
        some ⟨⟨"a"⟩, pair⟩, engines⟩ := by
  obtain ⟨pair, found, built⟩ := narrowPair (narrowOuter _) (narrowOuter _) (by decide +kernel)
    (by decide +kernel)
  have outer : narrowBuild (.cons "exclude" (.array .nil) .nil) ⟨"a/y.py"⟩ =
      some (true, "tidy") := by decide +kernel
  have inner : narrowBuild (.cons "exclude" (.array .nil) .nil) ⟨"b/x.py"⟩ =
      some (true, "tidy") := by decide +kernel
  have outer' := (built ⟨"a/y.py"⟩).symm.trans outer
  have inner' := (built ⟨"b/x.py"⟩).symm.trans inner
  simp only [Option.some.injEq, Prod.mk.injEq] at outer' inner'
  refine ⟨pair, found, ?_, outer'.2, ?_⟩
  · rintro p (rfl | rfl)
    · exact outer'.1
    · exact inner'.1
  · have stale : narrowSession.needsReload ⟨"a/y.py"⟩ = true := rfl
    have directory : Path.directory ⟨"a/y.py"⟩ = ⟨"a"⟩ := by decide
    unfold Surroundings.pairOf at found
    unfold Session.run
    simp only [List.foldl_cons, List.foldl_nil, Session.handleEvent, stale, if_true, Session.reload,
      found, directory]
    exact ⟨_, rfl⟩

theorem narrowSaved {p : Path} (mem : p = ⟨"a/y.py"⟩ ∨ p = ⟨"b/x.py"⟩) :
    (((narrowSession.run narrowAround [.activated ⟨"a/y.py"⟩]).documents.get? p).bind
      (·.body.source? .whole)) = some "x" ∧
    ((((narrowSession.run narrowAround [.activated ⟨"a/y.py"⟩]).handle narrowAround
      (.saving p)).documents.get? p).bind (·.body.source? .whole)) = some "tidy" := by
  obtain ⟨pair, -, inScope, tidy, engines, run⟩ := narrowActivated
  rw [run]
  have opened :
      ∃ d, narrowSession.documents.get? p = some d ∧ d.body.source? .whole = some "x" := by
    rcases mem with rfl | rfl
    · exact ⟨⟨⟨"a/y.py"⟩, .text "x"⟩, by decide, rfl⟩
    · exact ⟨⟨⟨"b/x.py"⟩, .text "x"⟩, by decide, rfl⟩
  obtain ⟨d, opened, source⟩ := opened
  have served := Session.handleServed ⟨narrowSession.documents, some ⟨"a/y.py"⟩, none,
    narrowSession.settings, narrowSession.store, some ⟨⟨"a"⟩, pair⟩, engines⟩ narrowAround
    (.saving p)
  obtain ⟨d', left, texts⟩ := served.texts p pair d
    ⟨rfl, rfl, ⟨_, rfl⟩, inScope p mem⟩ opened
  have after := texts .whole
  rw [source] at after
  refine ⟨by rw [opened]; exact source, ?_⟩
  rw [left, Option.bind_some, after]
  exact congrArg some tidy

theorem narrowSucceeds : narrowSession.Succeeds narrowAround [.activated ⟨"a/y.py"⟩] := by
  obtain ⟨pair, found, -⟩ := narrowActivated
  have stale : narrowSession.resolves (.activated ⟨"a/y.py"⟩) = some ⟨"a/y.py"⟩ := rfl
  refine ⟨fun p resolves => ?_, trivial⟩
  cases stale.symm.trans resolves
  exact ⟨pair, found⟩

theorem changedUnderActiveOuter :
    ∃ pair, narrowAround.pairOf ⟨"a/y.py"⟩ = .ok pair ∧
      pair.format.shouldFormat ⟨"a/y.py"⟩ false = true := by
  obtain ⟨before, after⟩ := narrowSaved (p := ⟨"a/y.py"⟩) (.inl rfl)
  obtain ⟨pair, -, -, -, engines, run⟩ := narrowActivated
  obtain ⟨p, a, pair, about, same, active, -, tidied, own⟩ := changedUnderActive
    (s := narrowSession) (e := .saving ⟨"a/y.py"⟩) rfl (by decide)
    (.spelled (Memory.spelled narrowMemory)) narrowSucceeds ⟨"a/y.py"⟩ fun unchanged => by
      rw [unchanged, before] at after
      exact absurd after (by decide)
  rw [run] at active
  cases about
  cases active
  exact ⟨pair, own (.inr rfl), tidied.inScope⟩

/-- A document can be changed that its own configuration leaves out. -/
theorem changedOutOfScope :
    narrowSession.Succeeds narrowAround [.activated ⟨"a/y.py"⟩] ∧
    (∃ pair, narrowAround.pairOf ⟨"b/x.py"⟩ = .ok pair ∧
      pair.format.shouldFormat ⟨"b/x.py"⟩ (Event.saving ⟨"b/x.py"⟩).explicit = false) ∧
    ((narrowSession.run narrowAround [.activated ⟨"a/y.py"⟩]).handle narrowAround
        (.saving ⟨"b/x.py"⟩)).documents.get? ⟨"b/x.py"⟩ ≠
      (narrowSession.run narrowAround [.activated ⟨"a/y.py"⟩]).documents.get? ⟨"b/x.py"⟩ := by
  refine ⟨narrowSucceeds, ?_, fun unchanged => ?_⟩
  · obtain ⟨pair, found, built⟩ := narrowPair (narrowInner (by decide)) (narrowInner (by decide))
      (by decide +kernel) (by decide +kernel)
    have inner : narrowBuild (merge (.cons "include" (.array .nil) .nil)
        (.cons "exclude" (.array .nil) .nil)) ⟨"b/x.py"⟩ = some (false, "tidy") := by
      decide +kernel
    have inner' := (built ⟨"b/x.py"⟩).symm.trans inner
    simp only [Option.some.injEq, Prod.mk.injEq] at inner'
    exact ⟨pair, found, inner'.1⟩
  · obtain ⟨before, after⟩ := narrowSaved (p := ⟨"b/x.py"⟩) (.inr rfl)
    rw [unchanged, before] at after
    exact absurd after (by decide)

end NotebookTidy.Editor
