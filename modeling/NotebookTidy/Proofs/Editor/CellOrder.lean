import NotebookTidy.Proofs.Editor.Serving
import NotebookTidy.Proofs.Workspace.Scope
import NotebookTidy.Storage.Memory

/-! A notebook that is formatted at once, and cell by cell. Each cell is asked for, formatted and
put back without regard to the others, so that the order in which cells are selected makes no
difference, and selecting what is no code none at all. -/
namespace NotebookTidy.Editor
open Notebook (Cell)

namespace Body

/-- Puts formatted sources in place, one after the other. -/
def replaceAll (f : String → String) (sources : List (Target × String)) (b : Body) : Body :=
  sources.foldl (fun now x => now.replace x.1 x.2 (f x.2)) b

theorem replaceApart (b : Body) {t u : Target} (apart : t ≠ u)
    (before after before' after' : String) :
    (b.replace t before after).replace u before' after' =
      (b.replace u before' after').replace t before after := by
  cases b with
  | text x =>
    cases t with
    | cell i => cases u <;> rfl
    | whole =>
      cases u with
      | cell j => rfl
      | whole => exact absurd rfl apart
  | notebook cells =>
    cases t with
    | whole => cases u <;> rfl
    | cell i =>
      cases u with
      | whole => rfl
      | cell j =>
        have other : i ≠ j := fun same => apart (congrArg Target.cell same)
        refine congrArg Body.notebook (List.ext_getElem? fun k => ?_)
        simp only [List.getElem?_modify]
        by_cases here : i = k
        · subst here
          simp [other.symm]
        · simp [here]

theorem replaceAllPerm (f : String → String) {own : Body} {targets targets' : List Target}
    (perm : targets.Perm targets') (b : Body) :
    replaceAll f (Session.sourcesAt own targets) b =
      replaceAll f (Session.sourcesAt own targets') b := by
  refine (perm.filterMap _).foldl_eq' (fun x asked y asked' now => ?_) b
  by_cases same : x.1 = y.1
  · -- Sources that are asked of one body at one target are the same.
    have one := (Session.sourceAsked.mp asked).2
    rw [same, (Session.sourceAsked.mp asked').2] at one
    rw [Prod.ext same (Option.some.inj one).symm]
  · exact replaceApart now same _ _ _ _

theorem replaceAllAppend (f : String → String) (own : Body) (targets more : List Target)
    (b : Body) :
    replaceAll f (Session.sourcesAt own (targets ++ more)) b =
      replaceAll f (Session.sourcesAt own more)
        (replaceAll f (Session.sourcesAt own targets) b) := by
  unfold replaceAll Session.sourcesAt
  rw [List.filterMap_append, List.foldl_append]

theorem replaceAllFormatted (f : String → String) (b : Body) (targets : List Target) :
    Formatted f (fun t => t ∈ (Session.sourcesAt b targets).map Prod.fst ∨ False) b
      (replaceAll f (Session.sourcesAt b targets) b) :=
  formattedAll (fun _ mem => (Session.sourceAsked.mp mem).2) (formattedNothing f b)

theorem notebookShaped {own : List Cell} {b : Body} (shape : b.shape = (notebook own).shape) :
    ∃ cells, b = .notebook cells := by
  cases b with
  | notebook cells => exact ⟨cells, rfl⟩
  | text x => cases shape

end Body

def Target.isCode (own : List Cell) : Target → Bool
  | .cell i => i ∈ Notebook.codeIndices own
  | .whole => false

namespace Session

theorem sourcesFilter (b : Body) (targets : List Target) {code : Target → Bool}
    (all : ∀ t source, b.source? t = some source → code t = true) :
    sourcesAt b (targets.filter code) = sourcesAt b targets := by
  unfold sourcesAt
  rw [List.filterMap_filter]
  refine List.filterMap_congr fun t _ => ?_
  split
  · rfl
  · rename_i none
    cases found : b.source? t with
    | none => rfl
    | some source => exact absurd (all t source found) none

/-- The session with the sources at some targets of one document tidied. -/
def placed (s : Session) (p : Path) (pair : Workspace.Pair) (own : Body) (targets : List Target) :
    Session :=
  { s with
    documents := s.documents.modify p (Body.replaceAll (s.tidied pair) (sourcesAt own targets)) }

theorem placedNothing (s : Session) (p : Path) (pair : Workspace.Pair) (own : Body) :
    s.placed p pair own [] = s :=
  congrArg (fun ds => { s with documents := ds }) (Documents.modifyNothing ..)

theorem placedPerm (s : Session) (p : Path) (pair : Workspace.Pair) (own : Body)
    {targets targets' : List Target} (perm : targets.Perm targets') :
    s.placed p pair own targets = s.placed p pair own targets' := by
  unfold placed
  rw [funext (Body.replaceAllPerm (s.tidied pair) perm)]

theorem placedFilter (s : Session) (p : Path) (pair : Workspace.Pair) {own : Body}
    (targets : List Target) {code : Target → Bool}
    (all : ∀ t source, own.source? t = some source → code t = true) :
    s.placed p pair own (targets.filter code) = s.placed p pair own targets := by
  unfold placed
  rw [sourcesFilter own targets all]

theorem placedAgain (s : Session) (p : Path) (pair : Workspace.Pair) {own now : Body}
    (targets : List Target) {more : List Target} (still : sourcesAt now more = sourcesAt own more)
    (selected cell : Option Nat) :
    (((s.selectCell selected).placed p pair own targets).selectCell cell).placed p pair now more =
      (s.selectCell cell).placed p pair own (targets ++ more) := by
  have documents : (s.documents.modify p
      (Body.replaceAll (s.tidied pair) (sourcesAt own targets))).modify p
        (Body.replaceAll (s.tidied pair) (sourcesAt now more)) = s.documents.modify p
          (Body.replaceAll (s.tidied pair) (sourcesAt own (targets ++ more))) := by
    rw [Documents.modifyModify, still, funext (Body.replaceAllAppend _ own targets more)]
  exact congrArg (fun ds => { s with activeCell := cell, documents := ds }) documents

theorem answeredAsked {s : Session} {e : Event} {p : Path} {explicit : Bool} {own : Body}
    {targets : List Target} {pair : Workspace.Pair}
    (asked : s.request e = .ok (some ⟨p, explicit, sourcesAt own targets⟩))
    (ok : s.admitted ⟨p, explicit, sourcesAt own targets⟩ = .ok pair) :
    s.answered e = s.placed p pair own targets := by
  unfold answered format
  rw [asked]
  dsimp only
  split
  · rename_i nothing
    rw [placed, List.isEmpty_iff.mp nothing]
    exact (placedNothing s p pair own).symm
  · simp only [ok, Option.elim_none]
    rw [appliedAll]
    simp only [replacements, List.foldl_map]
    rfl

theorem answeredOutside {s : Session} {e : Event} {r : Request}
    (asked : s.request e = .ok (some r)) (outside : ∀ w, s.workspaces = some w →
      w.pair.format.shouldFormat r.path r.explicit = false) : s.answered e = s := by
  unfold answered
  rw [asked]
  refine formatRefused fun pair ok => ?_
  obtain ⟨⟨directory, installed⟩, inScope⟩ := admittedIff.mp ok
  rw [outside _ installed] at inScope
  cases inScope

/-- Selects one cell after the other, and has each of them formatted. -/
def cellByCell (s : Session) (around : Surroundings) (order : List Nat) : Session :=
  order.foldl (fun s cell => (s.selectCell (some cell)).handle around (.command .formatCell)) s

theorem cellByCellSnoc (s : Session) (around : Surroundings) (order : List Nat) (cell : Nat) :
    s.cellByCell around (order ++ [cell]) =
      ((s.cellByCell around order).selectCell (some cell)).handle around
        (.command .formatCell) := by
  rw [cellByCell, List.foldl_append]
  rfl

section notebook

variable {s : Session} {p : Path} {d : Document} {own : List Cell}

/-! Requests for code -/

theorem cellAsked (active : s.activePath = some p) (opened : s.documents.get? p = some d)
    (body : d.body = .notebook own) (cell : Nat) :
    (s.selectCell (some cell)).request (.command .formatCell) =
      .ok (some ⟨p, true, sourcesAt d.body [.cell cell]⟩) := by
  have opened : (s.selectCell (some cell)).documents.get? p = some d := opened
  simp only [request, Session.active,
    show (s.selectCell (some cell)).activePath = some p from active,
    show (s.selectCell (some cell)).activeCell = some cell from rfl, bind, Except.bind,
    cellsOfNotebook opened body]
  rfl

theorem allCellsAsked (active : s.activePath = some p) (opened : s.documents.get? p = some d)
    (body : d.body = .notebook own) : s.request (.command .formatAllCells) =
      .ok (some ⟨p, true, sourcesAt d.body ((Notebook.codeIndices own).map .cell)⟩) := by
  simp only [request, Session.active, active, bind, Except.bind, allCellsRequest, document, opened,
    body, cellsOfNotebook opened body]
  rfl

theorem savingAsked (on : s.settings.formatOnSave = true) (opened : s.documents.get? p = some d)
    (body : d.body = .notebook own) : s.request (.saving p) =
      .ok (some ⟨p, false, sourcesAt d.body ((Notebook.codeIndices own).map .cell)⟩) := by
  simp only [request, on, if_true, bind, Except.bind, savingRequest, document, opened,
    body, cellsOfNotebook opened body]
  rfl

/-! One cell after the other -/

section admitted

variable (active : s.activePath = some p) (opened : s.documents.get? p = some d)
variable (body : d.body = .notebook own) {w : Governed} (installed : s.workspaces = some w)
variable (inScope : w.pair.format.shouldFormat p true = true)
include active opened body installed inScope

theorem cellPlaced (around : Surroundings) (cell : Nat) :
    (s.selectCell (some cell)).handle around (.command .formatCell) =
      (s.selectCell (some cell)).placed p w.pair d.body [.cell cell] := by
  rw [handleEvent]
  exact answeredAsked (cellAsked active opened body cell)
    (admittedIff.mpr ⟨⟨w.directory, installed⟩, inScope⟩)

theorem cellsPlaced (around : Surroundings) {order : List Nat}
    (once : (order.filter (· ∈ Notebook.codeIndices own)).Nodup) :
    ∃ selected, s.cellByCell around order =
      (s.selectCell selected).placed p w.pair d.body (order.map .cell) := by
  induction order using List.reverseRecOn with
  | nil => exact ⟨s.activeCell, (placedNothing s p w.pair d.body).symm⟩
  | append_singleton order cell ih =>
    rw [List.filter_append, List.nodup_append] at once
    obtain ⟨before, -, fresh⟩ := once
    obtain ⟨selected, reached⟩ := ih before
    have formatted := Body.replaceAllFormatted (s.tidied w.pair) d.body (order.map .cell)
    have shaped := formatted.shape.trans (congrArg Body.shape body)
    obtain ⟨cells, now⟩ := Body.notebookShaped shaped
    -- The cell has been passed by if it is no code, and not been reached if it is.
    have still : sourcesAt (.notebook cells) [.cell cell] = sourcesAt d.body [.cell cell] := by
      rw [← now]
      unfold sourcesAt
      refine List.filterMap_congr fun t mem => ?_
      rw [List.mem_singleton.mp mem]
      refine congrArg (Option.map _) (formatted.elsewhere _ fun done => ?_)
      obtain ⟨x, asked, same⟩ := List.mem_map.mp (done.resolve_right id)
      obtain ⟨aimed, code⟩ := sourceAsked.mp asked
      rw [same] at aimed code
      obtain ⟨i, mem, is⟩ := List.mem_map.mp aimed
      cases is
      have isCode := codeIndexed (body ▸ code)
      exact fresh cell (by simp [mem, isCode]) cell (by simp [isCode]) rfl
    have here : p.same p = true := by simp [Path.same]
    have open_ :
        ((s.selectCell selected).placed p w.pair d.body (order.map .cell)).documents.get? p =
          some ⟨d.path, .notebook cells⟩ := by
      rw [placed, Documents.getModify, if_pos here, ← now]
      exact congrArg (Option.map _) opened
    have step := cellPlaced (s := (s.selectCell selected).placed p w.pair d.body (order.map .cell))
      active open_ rfl installed inScope around cell
    refine ⟨some cell, ?_⟩
    rw [cellByCellSnoc, reached, step, List.map_append]
    exact placedAgain s p w.pair _ still selected (some cell)

end admitted

theorem cellsOutside (active : s.activePath = some p) (opened : s.documents.get? p = some d)
    (body : d.body = .notebook own) (outside : ∀ w, s.workspaces = some w →
      w.pair.format.shouldFormat p true = false) (around : Surroundings) (order : List Nat) :
    ∃ selected, s.cellByCell around order = s.selectCell selected := by
  induction order using List.reverseRecOn with
  | nil => exact ⟨s.activeCell, rfl⟩
  | append_singleton order cell ih =>
    obtain ⟨selected, reached⟩ := ih
    refine ⟨some cell, ?_⟩
    rw [cellByCellSnoc, reached, handleEvent]
    exact answeredOutside (cellAsked (s := s.selectCell selected) active opened body cell) outside

theorem codeIndicesNodup (cells : List Cell) : (Notebook.codeIndices cells).Nodup := by
  have indices : (cells.zipIdx.map Prod.snd).Nodup := by
    rw [List.zipIdx_map_snd]
    exact List.nodup_range'
  exact indices.sublist (List.filter_sublist.map _)

/-- Cells that are no code are passed over, and the others may be asked for in any order. -/
theorem codePlaced (s : Session) (p : Path) (pair : Workspace.Pair) (own : List Cell)
    {order : List Nat}
    (once : (order.filter (· ∈ Notebook.codeIndices own)).Perm (Notebook.codeIndices own)) :
    s.placed p pair (.notebook own) (order.map .cell) =
      s.placed p pair (.notebook own) ((Notebook.codeIndices own).map .cell) := by
  have all (t : Target) (source : String) (found : (Body.notebook own).source? t = some source) :
      t.isCode own = true := by
    obtain ⟨i, rfl⟩ := sourceNotebook found
    exact decide_eq_true (codeIndexed found)
  rw [← placedFilter s p pair (order.map .cell) all, List.filter_map]
  exact placedPerm s p pair (.notebook own) (once.map Target.cell)

end notebook
end Session

theorem cellsInAnyOrder {s : Session} {p : Path} {d : Document} {own : List Cell}
    (active : s.activePath = some p) (opened : s.documents.get? p = some d)
    (body : d.body = .notebook own) (around : Surroundings) {order : List Nat}
    (once : (order.filter (· ∈ Notebook.codeIndices own)).Perm (Notebook.codeIndices own)) :
    (s.cellByCell around order).selectCell s.activeCell =
      s.handle around (.command .formatAllCells) ∧
    (s.settings.formatOnSave = true →
      (∀ w, s.workspaces = some w → w.pair.format.shouldFormat p false = true →
        s.handle around (.saving p) = s.handle around (.command .formatAllCells)) ∧
      ((∀ w, s.workspaces = some w → w.pair.format.shouldFormat p false = false) →
        s.handle around (.saving p) = s)) := by
  have all : s.handle around (.command .formatAllCells) = s.answered (.command .formatAllCells) :=
    s.handleEvent around _
  have saving : s.handle around (.saving p) = s.answered (.saving p) := s.handleEvent around _
  have admits {w : Governed} (installed : s.workspaces = some w) {explicit : Bool}
      (inScope : w.pair.format.shouldFormat p explicit = true) (sources : List (Target × String)) :
      s.admitted ⟨p, explicit, sources⟩ = .ok w.pair :=
    Session.admittedIff.mpr ⟨⟨w.directory, installed⟩, inScope⟩
  have asked := Session.allCellsAsked active opened body
  rw [all, saving]
  refine ⟨?_, fun on => ⟨fun w installed inScope => ?_, fun outside => ?_⟩⟩
  · by_cases covered : ∃ w, s.workspaces = some w ∧ w.pair.format.shouldFormat p true = true
    · obtain ⟨w, installed, inScope⟩ := covered
      obtain ⟨selected, reached⟩ := Session.cellsPlaced active opened body installed inScope around
        (once.nodup_iff.mpr (Session.codeIndicesNodup own))
      rw [Session.answeredAsked asked (admits installed inScope _), reached, body,
        ← Session.codePlaced s p w.pair own once]
      rfl
    · have outside (w : Governed) (installed : s.workspaces = some w) :
          w.pair.format.shouldFormat p true = false :=
        Bool.eq_false_iff.mpr fun inScope => covered ⟨w, installed, inScope⟩
      obtain ⟨selected, reached⟩ := Session.cellsOutside active opened body outside around order
      rw [Session.answeredOutside asked outside, reached]
      rfl
  · rw [Session.answeredAsked (Session.savingAsked on opened body) (admits installed inScope _),
      Session.answeredAsked asked (admits installed (Workspace.explicitWider inScope) _)]
  · exact Session.answeredOutside (Session.savingAsked on opened body) outside

/-- An engine that leaves a mark behind each text, so that formatting twice is seen. -/
def markedWorkspace : Workspace :=
  ⟨.nil, ⟨["nb"], [Glob.globPattern Glob.nonLineFeed [.literal 'n', .literal 'b']]⟩, ⟨[], []⟩,
    false, ⟨.utf16, fun text => .ok (text ++ "#"), fun _ => .ok []⟩⟩

def markedSession : Session where
  documents := ⟨[⟨⟨"d/n.nb"⟩, .notebook [⟨.code, "a"⟩, ⟨.markdown, "t"⟩, ⟨.code, "b"⟩]⟩]⟩
  activePath := some ⟨"d/n.nb"⟩
  settings := { formatOnSave := true }
  workspaces := some ⟨⟨"d"⟩, markedWorkspace, markedWorkspace⟩

def markedAround : Surroundings := ⟨Storage.Memory.empty.storage, fun _ _ => .error .output, .nil⟩

theorem cellsInAnyOrderBackwards :
    (markedSession.cellByCell markedAround [2, 7, 0, 1]).selectCell none =
      markedSession.handle markedAround (.command .formatAllCells) ∧
    markedSession.handle markedAround (.saving ⟨"d/n.nb"⟩) =
      markedSession.handle markedAround (.command .formatAllCells) ∧
    (markedSession.handle markedAround (.command .formatAllCells)).documents.all =
      [⟨⟨"d/n.nb"⟩, .notebook [⟨.code, "a#"⟩, ⟨.markdown, "t"⟩, ⟨.code, "b#"⟩]⟩] := by
  have opened : markedSession.documents.get? ⟨"d/n.nb"⟩ = some ⟨⟨"d/n.nb"⟩,
      .notebook [⟨.code, "a"⟩, ⟨.markdown, "t"⟩, ⟨.code, "b"⟩]⟩ := by decide
  have once : ([2, 7, 0, 1].filter (· ∈ Notebook.codeIndices
      [⟨.code, "a"⟩, ⟨.markdown, "t"⟩, ⟨.code, "b"⟩])).Perm
        (Notebook.codeIndices [⟨.code, "a"⟩, ⟨.markdown, "t"⟩, ⟨.code, "b"⟩]) := by decide
  obtain ⟨each, saved⟩ := cellsInAnyOrder (s := markedSession) rfl opened rfl markedAround once
  exact ⟨each, (saved rfl).1 _ rfl (by decide +kernel), by decide +kernel⟩

end NotebookTidy.Editor
