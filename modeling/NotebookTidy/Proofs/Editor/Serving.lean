import NotebookTidy.Proofs.Editor.Documents

/-! What serving an event does to the open documents. An event is about one document at most. That
document is formatted if the event is switched on and the workspaces in use admit its path; then the
sources that the event aims at are replaced by what the engines make of them. Nothing else changes,
in this document or another one, however long the session has been running. -/
namespace NotebookTidy.Editor
open Notebook (Cell)

/-- A user asks by commands only. -/
def Event.explicit : Event → Bool
  | .command _ => true
  | _ => false

namespace Session

def subject (s : Session) : Event → Option Path
  | .cellScheduled p _ => some p
  | .saving p => some p
  | .command .formatCell => s.activePath
  | .command .formatAllCells => s.activePath
  | .command .formatText => s.activePath
  | _ => none

def switchedOn (s : Session) : Event → Bool
  | .cellScheduled _ _ => s.settings.formatOnRun
  | .saving _ => s.settings.formatOnSave
  | _ => true

/-- Where an event looks for sources. Saving takes whatever the document has. -/
def aimsAt (s : Session) : Event → Target → Bool
  | .cellScheduled _ cell, t => t = .cell cell
  | .saving _, _ => true
  | .command .formatCell, .cell i => s.activeCell = some i
  | .command .formatAllCells, .cell _ => true
  | .command .formatText, .whole => true
  | _, _ => false

def tidied (s : Session) (pair : Workspace.Pair) (source : String) : String :=
  let sorting := if s.settings.sortImports then some pair.sorting.engine else none
  Pipeline.formatSource pair.format.engine sorting source

/-- A document is to be formatted for an event, with a pair of workspaces. -/
structure Admits (s : Session) (e : Event) (p : Path) (pair : Workspace.Pair) : Prop where
  subject : s.subject e = some p
  on : s.switchedOn e = true
  resolved : ∃ directory, s.workspaces = some ⟨directory, pair⟩
  inScope : pair.format.shouldFormat p e.explicit = true

/-- The same documents are open, with the same cells and all that is no code. -/
structure Kept (s after : Session) : Prop where
  paths : after.documents.all.map Document.path = s.documents.all.map Document.path
  shapes : ∀ q, (after.documents.get? q).map (fun d => (d.path, d.body.shape)) =
    (s.documents.get? q).map fun d => (d.path, d.body.shape)

/-- What an event makes of the documents. Those that it is not about stay (`others`), all of them
stay where it is switched off, finds no workspaces or none that admit the path, or no source in the
document that it is about (`idle`), and otherwise the sources that it aims at are tidied. -/
structure Served (s after : Session) (e : Event) : Prop where
  kept : Kept s after
  others : ∀ q, (∀ p, s.subject e = some p → q.same p = false) →
    after.documents.get? q = s.documents.get? q
  idle : (∀ p pair d, s.Admits e p pair → s.documents.get? p = some d →
    ∀ t, s.aimsAt e t = true → d.body.source? t = none) → after.documents = s.documents
  texts : ∀ p pair d, s.Admits e p pair → s.documents.get? p = some d →
    ∃ d', after.documents.get? p = some d' ∧ ∀ t, d'.body.source? t =
      if s.aimsAt e t then (d.body.source? t).map (s.tidied pair) else d.body.source? t

/-! Requests -/

/-- An event that is switched on asks for the sources that it aims at, if there are any. -/
inductive Answers (s : Session) (e : Event) (p : Path) : Except Error (Option Request) → Prop where
  | asked {d : Document} {targets : List Target} (opened : s.documents.get? p = some d)
      (exact : ∀ t source, d.body.source? t = some source → (t ∈ targets ↔ s.aimsAt e t = true)) :
      Answers s e p (.ok (some ⟨p, e.explicit, sourcesAt d.body targets⟩))
  | nothing {x : Except Error (Option Request)} (silent : ∀ r, x ≠ .ok (some r))
      (none : ∀ d, s.documents.get? p = some d →
        ∀ t, s.aimsAt e t = true → d.body.source? t = none) : Answers s e p x

section requests

variable {s : Session} {p : Path} {d : Document}

theorem cellsOfNotebook {own : List Cell} (opened : s.documents.get? p = some d)
    (body : d.body = .notebook own) (cells : List Nat) (explicit : Bool) :
    s.cellsRequest p cells explicit = .ok ⟨p, explicit, sourcesAt d.body (cells.map .cell)⟩ := by
  unfold cellsRequest document
  simp only [opened, bind, Except.bind, body]
  rfl

theorem cellsOfText {text : String} (opened : s.documents.get? p = some d)
    (body : d.body = .text text) (cells : List Nat) (explicit : Bool) :
    s.cellsRequest p cells explicit = .error (.wrongKind .cells p) := by
  unfold cellsRequest document
  simp only [opened, bind, Except.bind, body]
  rfl

theorem cellsMissing (missing : s.documents.get? p = none) (cells : List Nat) (explicit : Bool) :
    s.cellsRequest p cells explicit = .error (.notOpen p) := by
  unfold cellsRequest document
  simp only [missing, bind, Except.bind]

theorem textOfText {text : String} (opened : s.documents.get? p = some d)
    (body : d.body = .text text) (explicit : Bool) :
    s.textRequest p explicit = .ok ⟨p, explicit, sourcesAt d.body [.whole]⟩ := by
  unfold textRequest document
  simp only [opened, bind, Except.bind, body]
  rfl

theorem textOfNotebook {own : List Cell} (opened : s.documents.get? p = some d)
    (body : d.body = .notebook own) (explicit : Bool) :
    s.textRequest p explicit = .error (.wrongKind .text p) := by
  unfold textRequest document
  simp only [opened, bind, Except.bind, body]
  rfl

theorem textMissing (missing : s.documents.get? p = none) (explicit : Bool) :
    s.textRequest p explicit = .error (.notOpen p) := by
  unfold textRequest document
  simp only [missing, bind, Except.bind]

theorem codeIndexed {own : List Cell} {i : Nat} {source : String}
    (code : (Body.notebook own).source? (.cell i) = some source) :
    i ∈ Notebook.codeIndices own := by
  obtain ⟨c, found, -⟩ := Option.map_eq_some_iff.mp code
  obtain ⟨present, isCode⟩ := Option.filter_eq_some_iff.mp found
  unfold Notebook.codeIndices
  refine List.mem_map.mpr ⟨(c, i), List.mem_filter.mpr ⟨?_, isCode⟩, rfl⟩
  exact List.mem_zipIdx_iff_getElem?.mpr present

theorem sourceNotebook {own : List Cell} {t : Target} {source : String}
    (found : (Body.notebook own).source? t = some source) : ∃ i, t = .cell i := by
  cases t with
  | cell i => exact ⟨i, rfl⟩
  | whole => cases found

theorem sourceText {text : String} {t : Target} {source : String}
    (found : (Body.text text).source? t = some source) : t = .whole := by
  cases t with
  | cell i => cases found
  | whole => rfl

theorem answersMissing {e : Event} {x : Except Error (Option Request)}
    (missing : s.documents.get? p = none) (silent : ∀ r, x ≠ .ok (some r)) : Answers s e p x := by
  refine .nothing silent fun d opened => ?_
  rw [missing] at opened
  cases opened

theorem answersCells {e : Event} (cells : List Nat) (whole : s.aimsAt e .whole = false)
    (exact : ∀ i, i ∈ cells ↔ s.aimsAt e (.cell i) = true) :
    Answers s e p (some <$> s.cellsRequest p cells e.explicit) := by
  cases found : s.documents.get? p with
  | none =>
    rw [cellsMissing found]
    exact answersMissing found nofun
  | some d =>
    cases body : d.body with
    | text x =>
      rw [cellsOfText found body]
      refine .nothing nofun fun d' opened t aims => ?_
      cases found.symm.trans opened
      cases t with
      | cell i => rw [body]; rfl
      | whole => rw [whole] at aims; cases aims
    | notebook own =>
      rw [cellsOfNotebook found body]
      refine .asked found fun t source code => ?_
      obtain ⟨i, rfl⟩ := sourceNotebook (body ▸ code)
      simp [exact]

theorem answersCode {e : Event} {own : List Cell} (opened : s.documents.get? p = some d)
    (body : d.body = .notebook own) (all : ∀ i, s.aimsAt e (.cell i) = true) :
    Answers s e p (some <$> s.cellsRequest p (Notebook.codeIndices own) e.explicit) := by
  rw [cellsOfNotebook opened body]
  refine .asked opened fun t source code => ?_
  rw [body] at code
  obtain ⟨i, rfl⟩ := sourceNotebook code
  simp [all, codeIndexed code]

theorem answersText {e : Event} {text : String} (opened : s.documents.get? p = some d)
    (body : d.body = .text text) (whole : s.aimsAt e .whole = true) :
    Answers s e p (some <$> s.textRequest p e.explicit) := by
  rw [textOfText opened body]
  refine .asked opened fun t source found => ?_
  rw [body] at found
  cases sourceText found
  simp [whole]

theorem answersSaving (p : Path) : Answers s (.saving p) p (some <$> s.savingRequest p) := by
  unfold savingRequest document
  cases found : s.documents.get? p with
  | none => exact answersMissing found nofun
  | some d =>
    cases body : d.body with
    | notebook own =>
      simp only [bind, Except.bind, body]
      exact answersCode found body fun _ => rfl
    | text x =>
      simp only [bind, Except.bind, body]
      exact answersText found body rfl

theorem answersAllCells (p : Path) :
    Answers s (.command .formatAllCells) p (some <$> s.allCellsRequest p) := by
  unfold allCellsRequest document
  cases found : s.documents.get? p with
  | none => exact answersMissing found nofun
  | some d =>
    cases body : d.body with
    | notebook own =>
      simp only [bind, Except.bind, body]
      exact answersCode found body fun _ => rfl
    | text x =>
      simp only [bind, Except.bind, body]
      refine .nothing nofun fun d' opened t aims => ?_
      cases found.symm.trans opened
      cases t with
      | cell i => rw [body]; rfl
      | whole => cases aims

theorem answersWhole (p : Path) :
    Answers s (.command .formatText) p (some <$> s.textRequest p true) := by
  cases found : s.documents.get? p with
  | none =>
    rw [textMissing found]
    exact answersMissing found nofun
  | some d =>
    cases body : d.body with
    | text x => exact answersText found body rfl
    | notebook own =>
      rw [textOfNotebook found body]
      refine .nothing nofun fun d' opened t aims => ?_
      cases found.symm.trans opened
      cases t with
      | cell i => cases aims
      | whole => rw [body]; rfl

end requests

theorem requestAnswers {s : Session} {e : Event} {p : Path} (about : s.subject e = some p)
    (on : s.switchedOn e = true) : Answers s e p (s.request e) := by
  cases e with
  | activated q => cases about
  | cellScheduled q i =>
    cases about
    simp only [request, if_pos (show s.settings.formatOnRun = true from on)]
    exact answersCells [i] (by simp [aimsAt]) (by simp [aimsAt])
  | saving q =>
    cases about
    simp only [request, if_pos (show s.settings.formatOnSave = true from on)]
    exact answersSaving p
  | command c =>
    cases c with
    | toggle setting => cases about
    | reload => cases about
    | formatAllCells =>
      simp only [request, active, show s.activePath = some p from about]
      exact answersAllCells p
    | formatText =>
      simp only [request, active, show s.activePath = some p from about]
      exact answersWhole p
    | formatCell =>
      simp only [request, active, show s.activePath = some p from about]
      cases selected : s.activeCell with
      | none =>
        refine .nothing (fun r asked => by cases asked) fun d opened t aims => ?_
        cases t <;> simp [aimsAt, selected] at aims
      | some i => exact answersCells [i] rfl (by simp [aimsAt, selected, eq_comm])

theorem askedActive {s : Session} {α : Type} {f : Path → Except Error α} {a : α}
    (asked : s.active >>= f = .ok a) : ∃ p, s.activePath = some p := by
  cases present : s.activePath with
  | none =>
    simp only [active, present] at asked
    cases asked
  | some p => exact ⟨p, rfl⟩

theorem requestSilent {s : Session} {e : Event} {r : Request}
    (asked : s.request e = .ok (some r)) :
    (∃ p, s.subject e = some p) ∧ s.switchedOn e = true := by
  have switched {on : Bool} {x : Except Error (Option Request)}
      (asked : (if on = true then x else pure none) = .ok (some r)) : on = true := by
    cases on with
    | false => cases asked
    | true => rfl
  cases e with
  | activated q => cases asked
  | cellScheduled q i => exact ⟨⟨q, rfl⟩, switched asked⟩
  | saving q => exact ⟨⟨q, rfl⟩, switched asked⟩
  | command c =>
    refine ⟨?_, rfl⟩
    cases c with
    | toggle setting => cases asked
    | reload => cases asked
    | formatCell => exact askedActive asked
    | formatAllCells => exact askedActive asked
    | formatText => exact askedActive asked

/-! Formatting -/

theorem admittedIff {s : Session} {r : Request} {pair : Workspace.Pair} :
    s.admitted r = .ok pair ↔ (∃ directory, s.workspaces = some ⟨directory, pair⟩) ∧
      pair.format.shouldFormat r.path r.explicit = true := by
  unfold admitted
  constructor
  · intro ok
    split at ok
    · cases ok
    · rename_i w found
      split at ok
      · cases ok
        exact ⟨⟨w.directory, found⟩, by assumption⟩
      · cases ok
  · rintro ⟨⟨directory, found⟩, inScope⟩
    simp only [found, inScope, if_true]

theorem formatRefused {s : Session} {r : Request} (no : ∀ pair, s.admitted r ≠ .ok pair) :
    (s.format r none).1 = s := by
  unfold format
  split
  · rfl
  · split
    · rfl
    · rename_i pair ok
      exact absurd ok (no pair)

theorem formatAdmitted {s : Session} {r : Request} {pair : Workspace.Pair}
    (ok : s.admitted r = .ok pair) :
    (s.format r none).1.documents = s.documents.modify r.path fun b =>
      r.sources.foldl (fun now x => now.replace x.1 x.2 (s.tidied pair x.2)) b := by
  unfold format
  split
  · rename_i nothing
    rw [List.isEmpty_iff.mp nothing]
    exact (Documents.modifyNothing ..).symm
  · simp only [ok, Option.elim_none]
    rw [appliedAll]
    simp only [replacements, List.foldl_map]
    rfl

def answered (s : Session) (e : Event) : Session :=
  match s.request e with
  | .ok (some r) => (s.format r none).1
  | _ => s

theorem toldSession (r : Session × Except Error Unit) : (told r none).1 = r.1 := by
  unfold told
  split <;> rfl

/-- What is left by an event, when no document arrives while it is served. -/
theorem handleEvent (s : Session) (around : Surroundings) (e : Event) :
    s.handle around e = match e with
      | .command .reload => s.activePath.elim s fun p => (s.reload around p).1
      | .command (.toggle setting) => (s.toggle setting).1
      | .activated p =>
        if s.needsReload p then ((s.activate p).reload around p).1 else s.activate p
      | e => s.answered e := by
  unfold handle handleAmid answered
  cases e with
  | activated p =>
    dsimp only
    split
    · rename_i stale
      rw [if_pos (show s.needsReload p = true from stale), toldSession]
    · rename_i current
      rw [if_neg (show ¬ s.needsReload p = true from current)]
  | command c =>
    cases c with
    | toggle setting => exact toldSession _
    | reload =>
      simp only [active]
      cases s.activePath with
      | none => rfl
      | some p => exact toldSession _
    | _ =>
      dsimp only
      generalize s.request _ = asked
      cases asked with
      | error error => rfl
      | ok r => cases r <;> rfl
  | _ =>
    dsimp only
    generalize s.request _ = asked
    cases asked with
    | error error => rfl
    | ok r => cases r <;> rfl

theorem reloadDocuments (s : Session) (around : Surroundings) (p : Path) :
    (s.reload around p).1.documents = s.documents := by
  unfold reload
  dsimp only
  split <;> rfl

theorem handleDocuments (s : Session) (around : Surroundings) (e : Event) :
    (s.handle around e).documents = (s.answered e).documents := by
  have silent (none : s.request e = .ok none) : (s.answered e).documents = s.documents := by
    rw [answered, none]
  rw [handleEvent]
  cases e with
  | activated p =>
    rw [silent rfl]
    dsimp only
    split
    · exact reloadDocuments _ _ _
    · rfl
  | cellScheduled p i => rfl
  | saving p => rfl
  | command c =>
    cases c with
    | toggle setting =>
      rw [silent rfl]
      simp only [toggle]
      split <;> rfl
    | reload =>
      rw [silent rfl]
      cases s.activePath with
      | none => rfl
      | some p => exact reloadDocuments _ _ _
    | formatCell => rfl
    | formatAllCells => rfl
    | formatText => rfl

/-! Frames -/

theorem keptRefl {s after : Session} (same : after.documents = s.documents) : Kept s after :=
  ⟨by rw [same], fun q => by rw [same]⟩

theorem keptTrans {s next after : Session} (first : Kept s next) (rest : Kept next after) :
    Kept s after :=
  ⟨rest.paths.trans first.paths, fun q => (rest.shapes q).trans (first.shapes q)⟩

theorem servedNothing {s after : Session} {e : Event} (same : after.documents = s.documents)
    (none : ∀ p pair d, s.Admits e p pair → s.documents.get? p = some d →
      ∀ t, s.aimsAt e t = true → d.body.source? t = none) : Served s after e where
  kept := keptRefl same
  others q _ := by rw [same]
  idle _ := same
  texts p pair d admits opened := by
    refine ⟨d, by rw [same, opened], fun t => ?_⟩
    split
    · rename_i aims
      rw [none p pair d admits opened t aims]
      rfl
    · rfl

theorem admitsUnique {s : Session} {e : Event} {p p' : Path} {pair pair' : Workspace.Pair}
    (admits : s.Admits e p pair) (admits' : s.Admits e p' pair') : p = p' ∧ pair = pair' := by
  cases admits.subject.symm.trans admits'.subject
  obtain ⟨directory, resolved⟩ := admits.resolved
  obtain ⟨directory', resolved'⟩ := admits'.resolved
  cases resolved.symm.trans resolved'
  exact ⟨rfl, rfl⟩

theorem servedFormatted {s after : Session} {e : Event} {p : Path} {pair : Workspace.Pair}
    {d : Document} {targets : List Target} (admits : s.Admits e p pair)
    (opened : s.documents.get? p = some d)
    (exact : ∀ t source, d.body.source? t = some source → (t ∈ targets ↔ s.aimsAt e t = true))
    (done : after.documents = s.documents.modify p fun b => (sourcesAt d.body targets).foldl
      (fun now x => now.replace x.1 x.2 (s.tidied pair x.2)) b) : Served s after e := by
  have held : ∀ x ∈ sourcesAt d.body targets, d.body.source? x.1 = some x.2 :=
    fun x mem => (sourceAsked.mp mem).2
  have formatted := Body.formattedAll held (Body.formattedNothing (s.tidied pair) d.body)
  have found (q : Path) (here : q.same p = true) : s.documents.get? q = some d := by
    unfold Documents.get? Path.same at *
    rwa [of_decide_eq_true here]
  have aimed (t : Target) (source : String) (code : d.body.source? t = some source) :
      (t ∈ (sourcesAt d.body targets).map Prod.fst ∨ False) ↔ s.aimsAt e t = true := by
    rw [or_false, targetAsked code, exact t source code]
  constructor
  · constructor
    · rw [done, Documents.pathsModify]
    · intro q
      rw [done, Documents.getModify]
      split
      · rename_i here
        simp only [found q here, Option.map_some, formatted.shape]
      · rfl
  · intro q other
    rw [done, Documents.getModify, other p admits.subject]
    rfl
  · intro none
    have nothing : sourcesAt d.body targets = [] := by
      refine List.eq_nil_iff_forall_not_mem.mpr fun x asked => ?_
      obtain ⟨mem, code⟩ := sourceAsked.mp asked
      rw [none p pair d admits opened x.1 ((exact _ _ code).mp mem)] at code
      cases code
    rw [done, nothing]
    exact Documents.modifyNothing ..
  · intro p' pair' d' admits' opened'
    obtain ⟨rfl, rfl⟩ := admitsUnique admits admits'
    cases opened.symm.trans opened'
    have here : p.same p = true := by simp [Path.same]
    exact ⟨_, by rw [done, Documents.getModify, if_pos here, opened]; rfl,
      Body.formattedWhere formatted aimed⟩

theorem handleServed (s : Session) (around : Surroundings) (e : Event) :
    Served s (s.handle around e) e := by
  have documents := handleDocuments s around e
  unfold answered at documents
  by_cases asks : ∃ p, s.subject e = some p ∧ s.switchedOn e = true
  · obtain ⟨p, about, on⟩ := asks
    have answers := requestAnswers about on
    generalize s.request e = x at answers documents
    cases answers with
    | nothing silent none =>
      refine servedNothing ?_ fun p' pair d admits opened => ?_
      · rw [documents]
        split
        · rename_i r
          exact absurd rfl (silent r)
        · rfl
      · cases about.symm.trans admits.subject
        exact none d opened
    | @asked d targets opened exact =>
      by_cases admitted : ∃ pair, s.admitted ⟨p, e.explicit, sourcesAt d.body targets⟩ = .ok pair
      · obtain ⟨pair, ok⟩ := admitted
        obtain ⟨resolved, inScope⟩ := admittedIff.mp ok
        refine servedFormatted ⟨about, on, resolved, inScope⟩ opened exact ?_
        rw [documents]
        exact formatAdmitted ok
      · refine servedNothing ?_ fun p' pair d' admits _ => ?_
        · rw [documents]
          exact congrArg Session.documents (formatRefused fun pair ok => admitted ⟨pair, ok⟩)
        · cases about.symm.trans admits.subject
          exact absurd ⟨pair, admittedIff.mpr ⟨admits.resolved, admits.inScope⟩⟩ admitted
  · refine servedNothing ?_ fun p pair d admits _ => absurd ⟨p, admits.subject, admits.on⟩ asks
    rw [documents]
    split
    · rename_i r asked
      obtain ⟨⟨p, about⟩, on⟩ := requestSilent asked
      exact absurd ⟨p, about, on⟩ asks
    · rfl

theorem runKept (s : Session) (around : Surroundings) (events : List Event) :
    Kept s (s.run around events) := by
  induction events generalizing s with
  | nil => exact keptRefl rfl
  | cons e rest ih => exact keptTrans (handleServed s around e).kept (ih _)

end Session

/-- However long a session has run, an event changes the sources that it aims at in the document
that it is about, and nothing else; and no run changes more than sources of code. Engines are taken
to answer equal texts alike while one event is served; the next event may find any others, since the
session that it finds may be any one. -/
theorem eventsServed (s : Session) (around : Surroundings) (events : List Event) :
    s.Kept (s.run around events) ∧ ∀ e, (s.run around events).Served
      ((s.run around events).handle around e) e :=
  ⟨s.runKept around events, fun e => (s.run around events).handleServed around e⟩

end NotebookTidy.Editor
