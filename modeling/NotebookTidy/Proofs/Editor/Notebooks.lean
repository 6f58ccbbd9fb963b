import NotebookTidy.Batch.Run
import NotebookTidy.Proofs.Editor.Serving
import NotebookTidy.Proofs.Notebook.Reread
import NotebookTidy.Storage.Memory

/-! A notebook on its two ways: as a file whose text is transformed, and as an open document all of
whose cells are formatted on request. Both end with the same cells. -/
namespace NotebookTidy.Editor
open Notebook (Cell File)

namespace Body

theorem cellDetermined {f : String → String} {a c : Cell} (kind : a.kind = c.kind)
    (others : (if a.isCode then none else some a.source) = if c.isCode then none else some c.source)
    (source : ((some a).filter Cell.isCode).map Cell.source =
      (((some c).filter Cell.isCode).map Cell.source).map f) : a = c.tidied f := by
  have code : a.isCode = c.isCode := by rw [Cell.isCode, Cell.isCode, kind]
  obtain ⟨aKind, aSource⟩ := a
  cases kind
  rw [Option.filter_some, Option.filter_some, code] at source
  rw [code] at others
  rw [Cell.tidied]
  cases isCode : c.isCode with
  | true =>
    rw [isCode] at source
    have same : aSource = f c.source := Option.some.inj source
    rw [same]
    rfl
  | false =>
    rw [isCode] at others
    have same : aSource = c.source := Option.some.inj others
    rw [same]
    rfl

/-- The notebook that formatting leaves is known by its shape and its sources. -/
theorem notebookDetermined {f : String → String} {cells : List Cell} {after : Body}
    (shape : after.shape = (Body.notebook cells).shape)
    (sources : ∀ i, after.source? (.cell i) = ((Body.notebook cells).source? (.cell i)).map f) :
    after = .notebook (cells.map (Cell.tidied f)) := by
  cases after with
  | text t => cases shape
  | notebook own =>
    refine congrArg Body.notebook (List.ext_getElem? fun i => ?_)
    have kinds := congrArg (·[i]?) (Option.some.inj shape)
    have source := sources i
    simp only [List.getElem?_map] at kinds ⊢
    simp only [source?] at source
    generalize own[i]? = left at *
    generalize cells[i]? = right at *
    cases left with
    | none =>
      cases right with
      | none => rfl
      | some c => cases kinds
    | some a =>
      cases right with
      | none => cases kinds
      | some c =>
        simp only [Option.map_some, Option.some.injEq, Prod.mk.injEq] at kinds
        rw [Option.map_some, cellDetermined kinds.1 kinds.2 source]

end Body

namespace Session

/-- A session in which a notebook has just been opened and made active, under given workspaces. -/
def showing (s : Session) (p : Path) (cells : List Cell) (w : Governed) : Session :=
  { (s.openDocument ⟨p, .notebook cells⟩).activate p with workspaces := some w }

theorem showingDocument (s : Session) (p : Path) (cells : List Cell) (w : Governed) :
    (s.showing p cells w).documents.get? p = some ⟨p, .notebook cells⟩ := by
  have here : p.same p = true := by simp [Path.same]
  have closed : (s.documents.close p).all.find? (·.path.same p) = none := by
    rw [List.find?_eq_none]
    intro d mem same
    have other := (List.mem_filter.mp mem).2
    rw [same] at other
    cases other
  change ((s.documents.close p).all ++ [Document.mk p (.notebook cells)]).find? _ = _
  rw [List.find?_append, closed]
  simp [here]

end Session

theorem notebooksAgree {text : String} {file : File} (parsed : File.parse text = .ok file)
    (w : Governed) (p : Path) (inScope : w.pair.format.shouldFormat p true = true)
    (s : Session) (around : Surroundings) :
    ∃ after, Notebook.Leaves text
        (Batch.formatTidying s.settings.sortImports w.pair .notebook) file after ∧
      ((s.showing p file.cells w).handle around (.command .formatAllCells)).documents.get? p =
        some ⟨p, .notebook after.cells⟩ := by
  obtain ⟨after, leaves, cells⟩ := Notebook.transformLeaves parsed
    (Batch.formatTidying s.settings.sortImports w.pair .notebook)
  refine ⟨after, leaves, ?_⟩
  have opened := s.showingDocument p file.cells w
  have served := (s.showing p file.cells w).handleServed around (.command .formatAllCells)
  have admits : (s.showing p file.cells w).Admits (.command .formatAllCells) p w.pair :=
    ⟨rfl, rfl, ⟨w.directory, rfl⟩, inScope⟩
  obtain ⟨d, found, sources⟩ := served.texts p w.pair _ admits opened
  have shapes := served.kept.shapes p
  rw [found, opened] at shapes
  simp only [Option.map_some, Option.some.injEq, Prod.mk.injEq] at shapes
  have body := Body.notebookDetermined shapes.2 fun i => sources (.cell i)
  rw [found, cells]
  exact congrArg some (congrArg₂ Document.mk shapes.1 body)

def plainWorkspace : Workspace :=
  ⟨.nil, ⟨[], []⟩, ⟨[], []⟩, false, ⟨.utf16, fun _ => .ok "b\n", fun _ => .ok []⟩⟩

def plainGoverned : Governed := ⟨⟨"docs"⟩, plainWorkspace, plainWorkspace⟩

def plainAround : Surroundings := ⟨Storage.Memory.empty.storage, fun _ _ => .error .output, .nil⟩

def plainSession : Session := {}

theorem notebooksAgreePlain : ∃ after, Notebook.Leaves Notebook.runNotebook.document
      (Batch.formatTidying false plainGoverned.pair .notebook) ⟨Notebook.runNotebook⟩ after ∧
    after.cells = [⟨.code, "b"⟩] ∧
    ((plainSession.showing ⟨"docs/n.ipynb"⟩ [⟨.code, "a"⟩] plainGoverned).handle plainAround
      (.command .formatAllCells)).documents.get? ⟨"docs/n.ipynb"⟩ =
        some ⟨⟨"docs/n.ipynb"⟩, .notebook [⟨.code, "b"⟩]⟩ := by
  obtain ⟨after, leaves, shown⟩ := notebooksAgree Notebook.runParsed plainGoverned ⟨"docs/n.ipynb"⟩
    rfl plainSession plainAround
  have served : ((plainSession.showing ⟨"docs/n.ipynb"⟩ [⟨.code, "a"⟩] plainGoverned).handle
      plainAround (.command .formatAllCells)).documents.get? ⟨"docs/n.ipynb"⟩ =
        some ⟨⟨"docs/n.ipynb"⟩, .notebook [⟨.code, "b"⟩]⟩ := by
    decide +kernel
  have cells : File.cells ⟨Notebook.runNotebook⟩ = [⟨.code, "a"⟩] := by decide
  rw [cells, served] at shown
  refine ⟨after, leaves, ?_, served⟩
  simpa using shown.symm

end NotebookTidy.Editor
