import NotebookTidy.Proofs.Notebook.Transform

/-! What is read of a notebook that was written. Its numbers may differ in their last digits from
those of the file that was read first, but its cells are those that were put there. -/
namespace NotebookTidy.Notebook
open Json (Value Items Members Number)
open File

/-! Cells, whatever the numbers -/

theorem memberRenumber (g : Number → Number) (v : Value) (name : String) :
    (v.renumber g).get? name = (v.get? name).map (Value.renumber g) := by
  cases v with
  | object ms => exact Json.getRenumber g ms name
  | _ => rfl

theorem kindRenumber (g : Number → Number) (cell : Value) :
    kindOf (cell.renumber g) = kindOf cell := by
  rw [kindOf, kindOf, memberRenumber]
  cases cell.get? "cell_type" with
  | none => rfl
  | some v => cases v <;> rfl

theorem stringRenumber (g : Number → Number) (v : Value) :
    (v.renumber g).string? = v.string? := by
  cases v <;> rfl

theorem sourceRenumber (g : Number → Number) (cell : Value) :
    sourceOf (cell.renumber g) = sourceOf cell := by
  rw [sourceOf, sourceOf, memberRenumber]
  cases cell.get? "source" with
  | none => rfl
  | some v =>
    cases v with
    | array vs =>
      have strings : Value.string? ∘ Value.renumber g = Value.string? :=
        funext (stringRenumber g)
      simp only [Option.map_some, Value.renumber, Json.itemsRenumber, List.filterMap_map, strings]
    | _ => rfl

theorem cellRenumber (g : Number → Number) (cell : Value) :
    cellOf (cell.renumber g) = cellOf cell := by
  rw [cellOf, cellOf, kindRenumber, sourceRenumber]

variable {file : File} {ms : Members} {raw : List Value}

theorem holdsRenumber (g : Number → Number) (holds : Holds file ms raw) :
    Holds ⟨file.json.renumber g⟩ (ms.renumber g) (raw.map (Value.renumber g)) where
  json := by rw [holds.json, Value.renumber]
  cells := by
    rw [Json.getRenumber, holds.cells, Option.map_some, Value.renumber, ← Json.itemsOfList
      (Items.renumber g (.ofList raw)), Json.itemsRenumber, Items.toListOfList]

theorem cellsRenumber (g : Number → Number) (holds : Holds file ms raw) :
    File.cells ⟨file.json.renumber g⟩ = file.cells := by
  rw [holdsCells (holdsRenumber g holds), holdsCells holds, List.map_map]
  exact List.map_congr_left fun cell _ => cellRenumber g cell

/-- What a transformation leaves: the file itself if it changes nothing, and otherwise what is read
of its output. -/
inductive Leaves (text : String) (f : String → String) (file : File) : File → Prop where
  | untouched (none : transform text f = .ok none) : Leaves text f file file
  | rewritten {output : String} {after : File} (some : transform text f = .ok (some output))
      (read : File.parse output = .ok after) : Leaves text f file after

theorem transformLeaves {text : String} (parsed : File.parse text = .ok file)
    (f : String → String) :
    ∃ after, Leaves text f file after ∧ after.cells = file.cells.map (Cell.tidied f) := by
  obtain ⟨read, ms, raw, holds⟩ := parsedHolds parsed
  by_cases same : ∀ s ∈ codeSources file, f s = s
  · refine ⟨file, .untouched ((transformNothing parsed f).mpr same), ?_⟩
    refine (List.map_id _).symm.trans (List.map_congr_left fun c mem => ?_)
    rw [Cell.tidied]
    split
    · rename_i code
      rw [same c.source (List.mem_map_of_mem (List.mem_filter.mpr ⟨mem, code⟩))]
      rfl
    · rfl
  · have held := Json.documentLegible Json.heldCovers read
    have legible := fileLegible f holds held
    have done : transform text f = .ok (some (tidyFile f ms raw).text) := by
      rw [transformHolds parsed holds, if_neg]
      rwa [nothingTidied, ← holdsSources holds]
    refine ⟨⟨(tidyFile f ms raw).json.renumber Number.reread⟩, .rewritten done ?_, ?_⟩
    · exact parseHolds (Json.readDocument legible) (holdsRenumber _ (tidyHolds f ms raw))
    · rw [cellsRenumber _ (tidyHolds f ms raw), (tidyFileTidied f holds held).cells]

/-- What is written is never the text that was there: its cells are others. -/
theorem transformDiffers {text output : String} {f : String → String}
    (done : transform text f = .ok (some output)) : output ≠ text := by
  rintro rfl
  cases parsed : File.parse output with
  | error e =>
    rw [transform, transformM, parsed] at done
    cases done
  | ok file =>
    obtain ⟨after, leaves, cells⟩ := transformLeaves parsed f
    have fixed : ∀ s ∈ codeSources file, f s = s := by
      cases leaves with
      | untouched none => exact (transformNothing parsed f).mp none
      | rewritten some read =>
        cases done.symm.trans some
        cases parsed.symm.trans read
        have same : file.cells.map (Cell.tidied f) = file.cells.map id :=
          cells.symm.trans (List.map_id _).symm
        intro s mem
        obtain ⟨c, inside, rfl⟩ := List.mem_map.mp mem
        obtain ⟨among, code⟩ := List.mem_filter.mp inside
        have kept := List.map_inj_left.mp same c among
        rw [Cell.tidied, if_pos code] at kept
        exact congrArg Cell.source kept
    cases done.symm.trans ((transformNothing parsed f).mpr fixed)

end NotebookTidy.Notebook
