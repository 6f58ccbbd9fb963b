import NotebookTidy.Proofs.Json.Position
import NotebookTidy.Proofs.Json.RoundTrip
import NotebookTidy.Proofs.Notebook.Cells

/-! What a transformation of a notebook does to its file. What it writes is a notebook again, which
differs from the one read in the sources of the cells that changed and in nothing else. -/
namespace NotebookTidy.Notebook
open Json (Value Items Members Step)
open File

/-! The file -/

structure Holds (file : File) (ms : Members) (raw : List Value) : Prop where
  json : file.json = .object ms
  cells : ms.get? "cells" = some (.array (.ofList raw))

theorem parsedHolds {text : String} {file : File} (parsed : File.parse text = .ok file) :
    Json.read? text = some file.json ∧ ∃ ms raw, Holds file ms raw := by
  rw [File.parse] at parsed
  split at parsed
  · cases parsed
  · rename_i json read
    split at parsed
    · rename_i list
      cases parsed
      refine ⟨read, ?_⟩
      obtain ⟨raw, found⟩ := Option.isSome_iff_exists.mp list
      obtain ⟨cells, held, array⟩ := Option.bind_eq_some_iff.mp found
      cases json with
      | object ms =>
        cases cells with
        | array vs => exact ⟨ms, vs.toList, rfl, by rw [Json.itemsOfList]; exact held⟩
        | _ => cases array
      | _ => cases held
    · cases parsed

variable {file : File} {ms : Members} {raw : List Value}

theorem holdsRaw (holds : Holds file ms raw) : file.rawCells? = some raw := by
  rw [rawCells?, holds.json, Value.get?, holds.cells, Option.bind_some, Value.array?,
    Items.toListOfList]

theorem holdsCells (holds : Holds file ms raw) : file.cells = raw.map cellOf := by
  rw [File.cells, holdsRaw holds, Option.getD_some]

theorem holdsSources (holds : Holds file ms raw) : codeSources file = sources raw := by
  rw [codeSources, holdsCells holds, sources]

theorem parseHolds {text : String} (read : Json.read? text = some file.json)
    (holds : Holds file ms raw) : File.parse text = .ok file := by
  rw [File.parse, read]
  exact if_pos (Option.isSome_iff_exists.mpr ⟨raw, holdsRaw holds⟩)

def tidyFile (f : String → String) (ms : Members) (raw : List Value) : File :=
  ⟨.object (ms.insert "cells" (.array (.ofList (raw.map (tidy f)))))⟩

theorem tidyHolds (f : String → String) (ms : Members) (raw : List Value) :
    Holds (tidyFile f ms raw) (ms.insert "cells" (.array (.ofList (raw.map (tidy f)))))
      (raw.map (tidy f)) :=
  ⟨rfl, by rw [Members.getInsert, if_pos rfl]⟩

theorem replaceTidied (f : String → String) (holds : Holds file ms raw) :
    file.replaceCells (raw.map (tidied? f)) = tidyFile f ms raw := by
  have cells : List.zipWith Option.getD (raw.map (tidied? f)) raw = raw.map (tidy f) := by
    rw [List.zipWith_map_left, List.zipWith_self]
    rfl
  rw [File.replaceCells, holdsRaw holds, Option.getD_some, cells, withCells, holds.json]
  rfl

theorem transformHolds {text : String} (parsed : File.parse text = .ok file)
    (holds : Holds file ms raw) (f : String → String) :
    transform text f = .ok (if (raw.map (tidied? f)).all Option.isNone then none
      else some (tidyFile f ms raw).text) := by
  have pure_ : (tidyCell fun source => (pure (f source) : Id String)) =
      fun cell => pure (tidied? f cell) := funext (tidyPure f)
  rw [transform, transformM, parsed]
  dsimp only
  rw [holdsRaw holds, Option.getD_some, pure_, List.mapM_pure, pure_bind, replaceTidied f holds]
  rfl

theorem transformLogged {text : String} (parsed : File.parse text = .ok file)
    (f : String → String) :
    (transformM text (logged f)).run [] = (transform text f, codeSources file) := by
  obtain ⟨-, ms, raw, holds⟩ := parsedHolds parsed
  rw [transformHolds parsed holds, ← replaceTidied f holds, holdsSources holds, transformM, parsed]
  dsimp only
  rw [holdsRaw holds, Option.getD_some, StateT.run_bind, allLogged, pure_bind, List.nil_append]
  rfl

theorem fileLegible {fits : Json.Number → Prop} {depth : Nat} (f : String → String)
    (holds : Holds file ms raw) (legible : file.json.Legible fits depth) :
    (tidyFile f ms raw).json.Legible fits depth := by
  rw [holds.json] at legible
  obtain ⟨deep, all⟩ := Json.getLegible legible holds.cells
  refine Json.insertLegible legible ⟨deep, (Json.itemsLegible _ _).mpr ?_⟩
  rw [Json.itemsLegible, Items.toListOfList] at all
  rw [Items.toListOfList, List.forall_mem_map]
  exact fun cell mem => tidyLegible f (all cell mem)

/-! What is left alone -/

def File.Changes (file : File) (f : String → String) (i : Nat) : Prop :=
  ∃ c, file.cells[i]? = some c ∧ c.isCode ∧ f c.source ≠ c.source

def sourcePath (i : Nat) : List Step := [.member "cells", .item i, .member "source"]

def File.SourceIsList (file : File) (i : Nat) : Prop :=
  ∃ vs, file.json.at? (sourcePath i) = some (.array vs)

/-- One file is another with the sources of its code cells put through a function. They show the
same outside the sources that changed; what is not above one either is the same as a whole. -/
structure Tidied (f : String → String) (before after : File) : Prop where
  cells : after.cells = before.cells.map (Cell.tidied f)
  positions : Value.SameBut (fun path => ∃ i, before.Changes f i ∧ sourcePath i <+: path)
    after.json before.json
  parts : ∀ path, (∀ i, before.Changes f i →
    ¬ sourcePath i <+: path ∧ ¬ path <+: sourcePath i) → after.json.at? path = before.json.at? path
  shapes : ∀ i, after.SourceIsList i ↔ before.SourceIsList i

theorem sourceHolds (holds : Holds file ms raw) (i : Nat) :
    file.json.at? (sourcePath i) = raw[i]?.bind (·.get? "source") := by
  rw [holds.json]
  simp only [sourcePath, Value.at?, Value.step?, Value.get?, holds.cells, Value.array?,
    Items.toListOfList, Option.bind_some, Option.bind_fun_some]

theorem tidyPositions (f : String → String) (holds : Holds file ms raw) :
    Value.SameBut (fun path => ∃ i, file.Changes f i ∧ sourcePath i <+: path)
      (tidyFile f ms raw).json file.json := by
  have item (i : Nat) (cell : Value) (at_ : raw[i]? = some cell) : Value.SameBut
      (fun rest => ∃ i', file.Changes f i' ∧
        sourcePath i' <+: .member "cells" :: .item i :: rest) (tidy f cell) cell := by
    cases changed : tidied? f cell with
    | none =>
      rw [tidy, changed]
      exact fun _ _ => rfl
    | some other =>
      -- Only the member `source` differs, and every position at or below it is exempt.
      rw [tidy, changed]
      obtain ⟨⟨code, differs⟩, ms, rfl, rfl⟩ := tidiedObject changed
      refine Value.insertSame fun rest allowed =>
        absurd ⟨i, ⟨cellOf (.object ms), ?_, ?_, differs⟩, ?_⟩ allowed
      · rw [holdsCells holds, List.getElem?_map, at_]
        rfl
      · exact (isCodeOf _).mpr code
      · exact List.prefix_append (sourcePath i) rest
  rw [holds.json]
  refine Value.insertSame fun rest allowed => ?_
  rw [holds.cells, Option.bind_some]
  have items : Value.SameBut
      (fun rest => ∃ i, file.Changes f i ∧ sourcePath i <+: .member "cells" :: rest)
      (.array (.ofList (raw.map (tidy f)))) (.array (.ofList raw)) :=
    Value.itemsSame fun i cell at_ rest allowed => item i cell at_ rest allowed
  exact items rest allowed

theorem tidyShapes (f : String → String) (holds : Holds file ms raw) (i : Nat) :
    (tidyFile f ms raw).SourceIsList i ↔ file.SourceIsList i := by
  rw [File.SourceIsList, File.SourceIsList, sourceHolds holds, sourceHolds (tidyHolds f ms raw),
    List.getElem?_map]
  cases raw[i]? with
  | none => rfl
  | some cell =>
    rw [Option.map_some, Option.bind_some, Option.bind_some]
    cases changed : tidied? f cell with
    | none => rw [tidy, changed, Option.getD_none]
    | some other =>
      rw [tidy, changed, Option.getD_some]
      obtain ⟨-, ms, rfl, rfl⟩ := tidiedObject changed
      rw [Value.get?, Members.getInsert, if_pos rfl, Value.get?]
      rcases sourceLikeShape (ms.get? "source") (f (sourceOf (.object ms))) with
        ⟨list, shape⟩ | ⟨other, shape⟩
      · rw [shape]
        exact iff_of_true ⟨_, rfl⟩ list
      · rw [shape]
        exact iff_of_false (by rintro ⟨_, ⟨⟩⟩) other

theorem tidyFileTidied (f : String → String) (holds : Holds file ms raw) {fits : Json.Number → Prop}
    {depth : Nat} (legible : file.json.Legible fits depth) : Tidied f file (tidyFile f ms raw) where
  cells := by
    rw [holdsCells (tidyHolds f ms raw), holdsCells holds, List.map_map, List.map_map]
    exact List.map_congr_left fun cell _ => tidyCellOf f cell
  positions := tidyPositions f holds
  parts path apart := by
    refine Value.sameParts (tidyPositions f holds) (fileLegible f holds legible) legible ?_
    rintro rest ⟨i, changes, inside⟩
    obtain ⟨above, below⟩ := apart i changes
    exact (List.prefix_or_prefix_of_prefix inside (List.prefix_append path rest)).elim above below
  shapes := tidyShapes f holds

theorem tidiedSources {f : String → String} {before after : File} (tidied : Tidied f before after) :
    codeSources after = (codeSources before).map f := by
  have kinds : Cell.isCode ∘ Cell.tidied f = Cell.isCode := by
    funext c
    rw [Function.comp_apply, Cell.tidied]
    split <;> rfl
  rw [codeSources, codeSources, tidied.cells, List.filter_map, kinds, List.map_map, List.map_map]
  refine List.map_congr_left fun c mem => ?_
  rw [Function.comp_apply, Function.comp_apply, Cell.tidied, if_pos (List.mem_filter.mp mem).2]

theorem transformNothing {text : String} {file : File} (parsed : File.parse text = .ok file)
    (f : String → String) :
    transform text f = .ok none ↔ ∀ s ∈ codeSources file, f s = s := by
  obtain ⟨-, ms, raw, holds⟩ := parsedHolds parsed
  rw [transformHolds parsed holds, holdsSources holds, ← nothingTidied]
  split
  · rename_i all
    exact iff_of_true rfl all
  · rename_i some_
    exact iff_of_false (fun same => by cases same) some_

theorem transformFrames {text : String} {file : File} (parsed : File.parse text = .ok file)
    (integral : ∀ n ∈ file.json.numbers, n.Integral) (f : String → String) :
    (transformM text (logged f)).run [] = (transform text f, codeSources file) ∧
    (transform text f = .ok none ↔ ∀ s ∈ codeSources file, f s = s) ∧
    ((∃ s ∈ codeSources file, f s ≠ s) → ∃ output after,
      transform text f = .ok (some output) ∧ File.parse output = .ok after ∧
      Tidied f file after ∧
      ((∀ s ∈ codeSources file, f (f s) = f s) → transform output f = .ok none)) := by
  obtain ⟨read, ms, raw, holds⟩ := parsedHolds parsed
  refine ⟨transformLogged parsed f, transformNothing parsed f, fun ⟨s, mem, differs⟩ => ?_⟩
  have legible := Json.readLegible read integral
  have tidied := tidyFileTidied f holds legible
  have back : File.parse (tidyFile f ms raw).text = .ok (tidyFile f ms raw) :=
    parseHolds (Json.readIntegral (fileLegible f holds legible)) (tidyHolds f ms raw)
  -- What was written is read as the tidied file, so the second run starts from that very file.
  refine ⟨_, _, ?_, back, tidied, fun again => (transformNothing back f).mpr ?_⟩
  · rw [transformHolds parsed holds, if_neg]
    rw [nothingTidied, ← holdsSources holds]
    exact fun all => differs (all s mem)
  · rw [tidiedSources tidied, List.forall_mem_map]
    exact again

def runCell : Value :=
  .object (.cons "cell_type" (.string "code")
    (.cons "execution_count" (.number (.integer 1)) (.cons "source" (.string "a") .nil)))

def runNotebook : Value := .object (.cons "cells" (.array (.cons runCell .nil)) .nil)

theorem runIntegral : (Json.Number.integer 1).Integral := by
  rw [Json.Number.Integral]
  decide

theorem runParsed : File.parse runNotebook.document = .ok ⟨runNotebook⟩ := by
  have ordered : Keyed.Sorted [("cell_type", Value.string "code"),
      ("execution_count", .number (.integer 1)), ("source", .string "a")] := by
    unfold Keyed.Sorted
    decide
  have legible : runNotebook.Legible Json.Number.Integral Json.depthLimit :=
    ⟨by decide, by unfold Keyed.Sorted; decide, ⟨by decide,
      ⟨by decide, ordered, trivial, runIntegral, trivial, trivial⟩, trivial⟩, trivial⟩
  have holds : Holds ⟨runNotebook⟩ _ [runCell] := ⟨rfl, rfl⟩
  exact parseHolds (Json.readIntegral legible) holds

theorem transformFramesRun : ∃ output after,
    transform runNotebook.document (fun _ => "b") = .ok (some output) ∧
    File.parse output = .ok after ∧ after.cells = [⟨.code, "b"⟩] ∧
    transform output (fun _ => "b") = .ok none := by
  obtain ⟨-, -, changed⟩ := transformFrames runParsed
    (List.forall_mem_singleton.mpr runIntegral) fun _ => "b"
  obtain ⟨output, after, done, back, tidied, again⟩ := changed ⟨"a", by decide, by decide⟩
  exact ⟨output, after, done, back, tidied.cells, again fun _ _ => rfl⟩

end NotebookTidy.Notebook
