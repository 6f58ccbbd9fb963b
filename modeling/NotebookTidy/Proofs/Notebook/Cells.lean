import NotebookTidy.Notebook.File
import NotebookTidy.Proofs.Json.Legible

/-! What a transformation does to the cells of a notebook, before any of it is written: it calls its
function once for the source of each code cell, in their order, and puts another source into those
cells for which the function gives another one. -/
namespace NotebookTidy.Notebook
open Json (Value Items Members)
open File

/-! One cell -/

theorem codeObject {cell : Value} (code : kindOf cell = .code) : ∃ ms, cell = .object ms := by
  cases cell with
  | object ms => exact ⟨ms, rfl⟩
  | _ => cases code

theorem kindWithSource (cell : Value) (source : String) :
    kindOf (withSource cell source) = kindOf cell := by
  cases cell with
  | object ms =>
    have kept : (ms.insert "source" (sourceLike (ms.get? "source") source)).get? "cell_type" =
        ms.get? "cell_type" := by
      rw [Members.getInsert, if_neg (by decide)]
    simp only [withSource, kindOf, Value.get?, kept]
  | _ => rfl

theorem joinLines (source : String) :
    String.join (((Text.lineFeedPieces source.toList).map String.ofList)) = source := by
  refine String.toList_injective ?_
  rw [String.toList_join, List.flatMap_map]
  simp only [String.toList_ofList]
  rw [List.flatMap_id', Text.flattenLineFeedPieces]

theorem sourceLikeShape (old : Option Value) (source : String) :
    ((∃ vs, old = some (.array vs)) ∧ sourceLike old source = .array
      (.ofList ((Text.lineFeedPieces source.toList).map fun l => .string (String.ofList l)))) ∨
    (¬ ∃ vs, old = some (.array vs)) ∧ sourceLike old source = .string source := by
  unfold sourceLike
  split
  · exact .inl ⟨⟨_, rfl⟩, rfl⟩
  · rename_i other
    exact .inr ⟨fun ⟨vs, same⟩ => other vs same, rfl⟩

theorem sourceWithSource {cell : Value} (code : kindOf cell = .code) (source : String) :
    sourceOf (withSource cell source) = source := by
  obtain ⟨ms, rfl⟩ := codeObject code
  have put : (withSource (.object ms) source).get? "source" =
      some (sourceLike (ms.get? "source") source) := by
    rw [withSource, Value.get?, Members.getInsert, if_pos rfl]
    rfl
  unfold sourceOf
  rw [put]
  rcases sourceLikeShape (ms.get? "source") source with ⟨-, shape⟩ | ⟨-, shape⟩
  · have strings : (Value.string? ∘ fun l => .string (String.ofList l)) =
        some ∘ fun l => String.ofList l := rfl
    rw [shape]
    dsimp only
    rw [Items.toListOfList, List.filterMap_map, strings, List.filterMap_eq_map, joinLines]
  · rw [shape]

variable {fits : Json.Number → Prop}

theorem sourceLikeLegible {depth : Nat} {old : Option Value} (source : String)
    (held : ∀ v ∈ old, v.Legible fits depth) : (sourceLike old source).Legible fits depth := by
  rcases sourceLikeShape old source with ⟨⟨vs, rfl⟩, shape⟩ | ⟨-, shape⟩
  · obtain ⟨deep, -⟩ := held _ rfl
    rw [shape]
    refine ⟨deep, (Json.itemsLegible _ _).mpr fun v mem => ?_⟩
    rw [Items.toListOfList] at mem
    obtain ⟨line, -, rfl⟩ := List.mem_map.mp mem
    trivial
  · rw [shape]
    trivial

theorem withSourceLegible {depth : Nat} {cell : Value} (legible : cell.Legible fits depth)
    (source : String) : (withSource cell source).Legible fits depth := by
  cases cell with
  | object ms =>
    exact Json.insertLegible legible
      (sourceLikeLegible source fun v found => Json.getLegible legible found)
  | _ => exact legible

/-! All cells, one after the other -/

def Cell.tidied (f : String → String) (c : Cell) : Cell :=
  if c.isCode then { c with source := f c.source } else c

/-- The cell in place of one, if it is another. -/
def tidied? (f : String → String) (cell : Value) : Option Value :=
  if kindOf cell = .code ∧ f (sourceOf cell) ≠ sourceOf cell then
    some (withSource cell (f (sourceOf cell)))
  else none

def tidy (f : String → String) (cell : Value) : Value := (tidied? f cell).getD cell

theorem tidiedObject {f : String → String} {cell other : Value}
    (changed : tidied? f cell = some other) :
    (kindOf cell = .code ∧ f (sourceOf cell) ≠ sourceOf cell) ∧ ∃ ms, cell = .object ms ∧
      other = .object (ms.insert "source" (sourceLike (ms.get? "source") (f (sourceOf cell)))) := by
  rw [tidied?] at changed
  split at changed
  · rename_i differs
    cases changed
    obtain ⟨ms, rfl⟩ := codeObject differs.1
    exact ⟨differs, ms, rfl, rfl⟩
  · cases changed

theorem tidiedNone {f : String → String} {cell : Value} : tidied? f cell = none ↔
    (kindOf cell = .code → f (sourceOf cell) = sourceOf cell) := by
  rw [tidied?]
  split
  · rename_i differs
    exact iff_of_false (Option.some_ne_none _) fun same => differs.2 (same differs.1)
  · rename_i kept
    exact iff_of_true rfl fun code => Decidable.not_not.mp fun differs => kept ⟨code, differs⟩

theorem isCodeOf (cell : Value) : (cellOf cell).isCode = true ↔ kindOf cell = .code :=
  decide_eq_true_iff

def logged (f : String → String) (source : String) : StateM (List String) String := do
  modify (· ++ [source])
  pure (f source)

def sources (raw : List Value) : List String :=
  ((raw.map cellOf).filter Cell.isCode).map Cell.source

theorem forallSources {p : String → Prop} {raw : List Value} :
    (∀ s ∈ sources raw, p s) ↔ ∀ cell ∈ raw, kindOf cell = .code → p (sourceOf cell) := by
  constructor
  · intro all cell mem code
    have kept := List.mem_filter.mpr ⟨List.mem_map_of_mem mem, (isCodeOf cell).mpr code⟩
    exact all _ (List.mem_map_of_mem kept)
  · intro all s mem
    obtain ⟨c, kept, rfl⟩ := List.mem_map.mp mem
    obtain ⟨inside, code⟩ := List.mem_filter.mp kept
    obtain ⟨cell, held, rfl⟩ := List.mem_map.mp inside
    exact all cell held ((isCodeOf cell).mp code)

theorem tidyPure (f : String → String) (cell : Value) :
    tidyCell (m := Id) (fun source => pure (f source)) cell = pure (tidied? f cell) := by
  rw [tidyCell, tidied?]
  by_cases code : kindOf cell = .code <;> simp [code]

theorem cellLogged (f : String → String) (cell : Value) (log : List String) :
    (tidyCell (logged f) cell).run log = pure (tidied? f cell, log ++ sources [cell]) := by
  by_cases code : kindOf cell = .code
  · have called : sources [cell] = [sourceOf cell] := by simp [sources, cellOf, Cell.isCode, code]
    rw [tidyCell, tidied?, called]
    simp [code, logged]
  · have called : sources [cell] = [] := by simp [sources, cellOf, Cell.isCode, code]
    rw [tidyCell, tidied?, called]
    simp [code]

theorem allLogged (f : String → String) (raw : List Value) (log : List String) :
    (raw.mapM (tidyCell (logged f))).run log =
      pure (raw.map (tidied? f), log ++ sources raw) := by
  induction raw generalizing log with
  | nil => simp [sources]
  | cons cell rest ih =>
    have calls : sources (cell :: rest) = sources [cell] ++ sources rest := by
      simp only [sources, List.map_cons, List.map_nil, List.filter_cons, List.filter_nil]
      split <;> rfl
    rw [List.mapM_cons, calls]
    simp [cellLogged, ih]

theorem tidyCellOf (f : String → String) (cell : Value) :
    cellOf (tidy f cell) = (cellOf cell).tidied f := by
  rw [Cell.tidied, tidy]
  by_cases code : kindOf cell = .code
  · rw [if_pos ((isCodeOf cell).mpr code)]
    by_cases same : f (sourceOf cell) = sourceOf cell
    · rw [tidiedNone.mpr fun _ => same, Option.getD_none, cellOf, same]
    · rw [tidied?, if_pos ⟨code, same⟩, Option.getD_some, cellOf, kindWithSource,
        sourceWithSource code]
      rfl
  · rw [if_neg (mt (isCodeOf cell).mp code), tidiedNone.mpr fun yes => absurd yes code]
    rfl

theorem tidyLegible {depth : Nat} {cell : Value} (f : String → String)
    (legible : cell.Legible fits depth) : (tidy f cell).Legible fits depth := by
  rw [tidy, tidied?]
  split
  · exact withSourceLegible legible _
  · exact legible

theorem nothingTidied (f : String → String) (raw : List Value) :
    (raw.map (tidied? f)).all Option.isNone = true ↔ ∀ s ∈ sources raw, f s = s := by
  rw [forallSources, List.all_map, List.all_eq_true]
  exact forall_congr' fun cell => forall_congr' fun _ =>
    Option.isNone_iff_eq_none.trans tidiedNone

end NotebookTidy.Notebook
