import NotebookTidy.Engine.Command
import NotebookTidy.Proofs.Source.Splice

/-! A column of characters, recoded, finds in the new encoding the place that it had before. The
recoding counts forward over a row, the index looks for the first place with enough units; both
come down to the same beginning of the row. -/
namespace NotebookTidy.Engine
open Source
open Text (Encoding byteLength segments)

/-- A location in a row from the first on, whose new column needs no more than 32 bits. -/
def Recodable (e : Encoding) (text : List Char) (l : Location) : Prop :=
  1 ≤ l.row.toNat ∧
    ∀ line ∈ (segments '\n' text)[l.row.toNat - 1]?, columnUnits e line l.column < UInt32.size
instance (e text l) : Decidable (Recodable e text l) := by unfold Recodable; infer_instance

theorem recodedBeginning (e : Encoding) (line : List Char) (column : UInt32) :
    takeUnits e (columnUnits e line column - 1) line =
      takeUnits .utf32 (column.toNat - 1) line := by
  have units : columnUnits e line column - 1 = e.units (line.take (column.toNat - 1)) +
      (column.toNat - 1 - (line.take (column.toNat - 1)).length) := Nat.add_sub_cancel ..
  rw [units, takeUnitsUtf32]
  rcases Nat.le_total (column.toNat - 1) line.length with within | beyond
  · rw [List.length_take, Nat.min_eq_left within, Nat.sub_self, Nat.add_zero]
    have exact := takeUnitsExact e (line.take (column.toNat - 1)) (line.drop (column.toNat - 1))
    rwa [List.take_append_drop] at exact
  · rw [List.take_of_length_le beyond]
    exact takeUnitsAll e line (Nat.le_add_right ..)

theorem recodedOffset {e : Encoding} {text : List Char} {l : Location}
    (fits : Recodable e text l) :
    (LineIndex.ofText text).offset e (recodeLocation e (segments '\n' text) l) =
      (LineIndex.ofText text).offset .utf32 l := by
  obtain ⟨counted, small⟩ := fits
  obtain ⟨n, row⟩ : ∃ n, l.row.toNat = n + 1 := ⟨l.row.toNat - 1, by omega⟩
  rw [row, Nat.add_sub_cancel] at small
  cases found : (segments '\n' text)[n]? with
  | some line =>
    have recoded : recodeLocation e (segments '\n' text) l =
        { l with column := recodeColumn e line l.column } := by
      simp only [recodeLocation, row, found]
    have same : (LineIndex.ofText text).line l.row = line := by
      rw [lineSplit, row, Nat.add_sub_cancel, ← rowOfSegment found]
    have column : (recodeColumn e line l.column).toNat = columnUnits e line l.column :=
      UInt32.toNat_ofNat_of_lt (small line found)
    rw [recoded, offsetSplit, offsetSplit]
    dsimp only
    rw [same, column, recodedBeginning]
  | none =>
    have recoded : recodeLocation e (segments '\n' text) l = l := by
      simp only [recodeLocation, row, found]
    have empty : (LineIndex.ofText text).line l.row = [] := by
      rw [lineSplit, row, Nat.add_sub_cancel, nothingPastSegments found]
      rfl
    rw [recoded, offsetSplit, offsetSplit, empty, takeUnitsNil, takeUnitsNil]

theorem mapLocationsSafe (f : Location → Location) (d : Diagnostic) :
    (d.mapLocations f).hasSafeFix = d.hasSafeFix := by
  cases h : d.fix <;> simp [Diagnostic.hasSafeFix, Diagnostic.mapLocations, h]

theorem mapLocationsEdits (f : Location → Location) (d : Diagnostic) :
    (d.mapLocations f).edits =
      d.edits.map fun x => { x with start := f x.start, stop := f x.stop } := by
  cases h : d.fix <;> simp [Diagnostic.edits, Diagnostic.mapLocations, h]

theorem recodedChanges {e : Encoding} {text : List Char} {ds : List Diagnostic}
    (fits : ∀ d ∈ ds, ∀ edit ∈ d.edits, Recodable e text edit.start ∧ Recodable e text edit.stop) :
    engineChanges (.ofText text) e
        (ds.map (·.mapLocations (recodeLocation e (segments '\n' text)))) =
      engineChanges (.ofText text) .utf32 ds := by
  induction ds with
  | nil => rfl
  | cons d ds ih =>
    obtain ⟨first, others⟩ := List.forall_mem_cons.mp fits
    have head : (d.mapLocations (recodeLocation e (segments '\n' text))).edits.map
        (Change.ofEdit (.ofText text) e) = d.edits.map (Change.ofEdit (.ofText text) .utf32) := by
      rw [mapLocationsEdits, List.map_map]
      refine List.map_congr_left fun edit mem => ?_
      obtain ⟨start, stop⟩ := first edit mem
      simp only [Function.comp_apply, Change.ofEdit, recodedOffset start, recodedOffset stop]
    have tail := ih others
    simp only [engineChanges] at tail ⊢
    simp only [List.map_cons, List.filter_cons, mapLocationsSafe]
    split
    · rw [List.flatMap_cons, List.flatMap_cons, List.map_append, List.map_append, head, tail]
    · exact tail

theorem recodedFixesAgree (text : String) (e : Encoding) :
    (∀ l, Recodable e text.toList l →
      (LineIndex.ofText text.toList).offset e (recodeLocation e (segments '\n' text.toList) l) =
        (LineIndex.ofText text.toList).offset .utf32 l) ∧
    ∀ ds, (∀ d ∈ ds, ∀ edit ∈ d.edits,
        Recodable e text.toList edit.start ∧ Recodable e text.toList edit.stop) →
      applyFixes text (recode e text.toList ds) e = applyFixes text ds .utf32 := by
  refine ⟨fun l fits => recodedOffset fits, fun ds fits => ?_⟩
  unfold recode
  split
  · rename_i same
    rw [same]
  · have changes : safeChanges (.ofText text.toList) e
        (ds.map (·.mapLocations (recodeLocation e (segments '\n' text.toList)))) =
          safeChanges (.ofText text.toList) .utf32 ds := by
      rw [safeChangesReverse, safeChangesReverse, recodedChanges fits]
    simp only [applyFixes, changes]

theorem recodedFixesAgreeEmoji :
    (LineIndex.ofText "x🎉y\né".toList).offset .utf16
        (recodeLocation .utf16 (segments '\n' "x🎉y\né".toList) ⟨1, 9⟩) =
      (LineIndex.ofText "x🎉y\né".toList).offset .utf32 ⟨1, 9⟩ ∧
    (applyFixes "x🎉y\né" (recode .utf16 "x🎉y\né".toList
        [⟨none, "", ⟨1, 3⟩, ⟨1, 9⟩,
          some ⟨.safe, none, [⟨"z", ⟨1, 3⟩, ⟨1, 9⟩⟩, ⟨"", ⟨2, 0⟩, ⟨7, 4⟩⟩]⟩⟩]) .utf16).text.toList =
      "x🎉z\n".toList := by
  constructor
  · exact (recodedFixesAgree _ _).1 _ (by decide)
  · rw [(recodedFixesAgree _ _).2 _ (by decide), (applyFixesPatch _ _ _).2, patch,
      List.mergeSort_of_pairwise (by decide +kernel)]
    decide +kernel

end NotebookTidy.Engine
