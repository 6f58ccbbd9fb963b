import NotebookTidy.Proofs.Engine.Recoding
import NotebookTidy.Proofs.Source.Places
import NotebookTidy.Text.Encoding

/-! Recoding keeps the order of columns. What is counted before a column grows with it, in the row
and past its end, and never falls behind the column itself; only a count of more than 32 bits starts
again from zero. -/
namespace NotebookTidy.Engine
open Source
open Text (Encoding segments)

/-- Where a location goes when the diagnostics of a text are recoded. -/
def moved (e : Encoding) (text : List Char) (l : Location) : Location :=
  if e = .utf32 then l else recodeLocation e (segments '\n' text) l

theorem mapLocationsSame (d : Diagnostic) : d.mapLocations (fun l => l) = d := by
  cases h : d.fix <;> simp [Diagnostic.mapLocations]

theorem recodeMoved (e : Encoding) (text : List Char) (ds : List Diagnostic) :
    recode e text ds = ds.map (·.mapLocations (moved e text)) := by
  unfold recode moved
  split
  · simp only [mapLocationsSame, List.map_id']
  · rfl

/-! Counting before a column -/

theorem unitsAbove (e : Encoding) (text : List Char) : text.length ≤ e.units text := by
  induction text with
  | nil => exact Nat.le_refl 0
  | cons c rest ih =>
    have positive := e.widthPos c
    rw [Encoding.unitsCons, List.length_cons]
    omega

section line
variable (e : Encoding) (line : List Char)

theorem columnUnitsSplit (column : UInt32) : columnUnits e line column =
    e.units (line.take (column.toNat - 1)) + (column.toNat - 1 - line.length) + 1 := by
  simp only [columnUnits, List.length_take]
  omega

theorem columnUnitsAbove (column : UInt32) : column.toNat ≤ columnUnits e line column := by
  have taken := unitsAbove e (line.take (column.toNat - 1))
  rw [List.length_take] at taken
  rw [columnUnitsSplit]
  omega

theorem columnUnitsMono {c d : UInt32} (le : c ≤ d) :
    columnUnits e line c ≤ columnUnits e line d := by
  have before := UInt32.le_iff_toNat_le.mp le
  have within := unitsPrefix e (List.take_prefix_take_left (l := line)
    (Nat.sub_le_sub_right before 1))
  rw [columnUnitsSplit, columnUnitsSplit]
  omega

theorem columnUnitsStrict {c d : UInt32} (counted : 0 < c) (lt : c < d) :
    columnUnits e line c < columnUnits e line d := by
  have before := UInt32.lt_iff_toNat_lt.mp lt
  have first : 0 < c.toNat := UInt32.lt_iff_toNat_lt.mp counted
  -- One more character is taken, or the line has ended and the distance to its end grows.
  have within := unitsPrefix e (List.take_prefix_take_left (l := line)
    (show c.toNat - 1 + 1 ≤ d.toNat - 1 by omega))
  rw [columnUnitsSplit, columnUnitsSplit]
  rcases Nat.lt_or_ge (c.toNat - 1) line.length with inside | past
  · have positive := e.widthPos (GetElem.getElem line (c.toNat - 1) inside)
    rw [List.take_succ_eq_append_getElem inside, Encoding.unitsAppend, Encoding.unitsCons,
      Encoding.unitsNil] at within
    omega
  · rw [List.take_of_length_le past, List.take_of_length_le (by omega)]
    omega

end line

/-! Locations of one row -/

theorem movedStays {e : Encoding} {text : List Char} {l : Location}
    (stays : e = .utf32 ∨ l.row = 0 ∨ (segments '\n' text)[l.row.toNat - 1]? = none) :
    moved e text l = l := by
  unfold moved recodeLocation
  split
  · rfl
  · split
    · rfl
    · rename_i n row
      rw [row, Nat.succ_sub_one] at stays
      rcases stays with same | zero | missing
      · contradiction
      · rw [zero] at row
        cases row
      · rw [missing]

theorem movedFound {e : Encoding} {text line : List Char} {l : Location} (other : e ≠ .utf32)
    (counted : l.row ≠ 0) (found : (segments '\n' text)[l.row.toNat - 1]? = some line) :
    moved e text l = { l with column := recodeColumn e line l.column } := by
  obtain ⟨n, row⟩ : ∃ n, l.row.toNat = n + 1 :=
    Nat.exists_eq_add_one_of_ne_zero fun zero => counted (UInt32.toNat.inj zero)
  rw [row, Nat.add_sub_cancel] at found
  simp only [moved, if_neg other, recodeLocation, row, found]

theorem recodedColumn {e : Encoding} {line : List Char} {c d : UInt32} (le : c ≤ d)
    (fits : columnUnits e line d < UInt32.size) :
    (recodeColumn e line c).toNat = columnUnits e line c :=
  UInt32.toNat_ofNat_of_lt (Nat.lt_of_le_of_lt (columnUnitsMono e line le) fits)

/-- Locations of one row keep their order, and columns that differ stay different, as long as the
later one needs no more than 32 bits. No column falls. -/
theorem columnsOrdered (e : Encoding) (text : List Char) :
    (∀ ds, recode e text ds = ds.map (·.mapLocations (moved e text))) ∧
      ∀ l k : Location, l.row = k.row → l.column ≤ k.column → k.row = 0 ∨ Recodable e text k →
        (moved e text l).row = (moved e text k).row ∧
        (moved e text l).column ≤ (moved e text k).column ∧
        (0 < l.column → l.column < k.column →
          (moved e text l).column < (moved e text k).column) ∧
        l.column ≤ (moved e text l).column ∧ k.column ≤ (moved e text k).column := by
  refine ⟨recodeMoved e text, fun l k row le fits => ?_⟩
  by_cases stays : e = .utf32 ∨ k.row = 0 ∨ (segments '\n' text)[k.row.toNat - 1]? = none
  · rw [movedStays stays, movedStays (row ▸ stays)]
    exact ⟨row, le, fun _ lt => lt, UInt32.le_refl _, UInt32.le_refl _⟩
  · obtain ⟨other, inText⟩ := not_or.mp stays
    obtain ⟨counted, filled⟩ := not_or.mp inText
    obtain ⟨line, found⟩ := Option.ne_none_iff_exists'.mp filled
    have small := (fits.resolve_left counted).2 line found
    have left := recodedColumn le small
    have right := recodedColumn (UInt32.le_refl k.column) small
    rw [movedFound other counted found, movedFound other (row ▸ counted) (row ▸ found)]
    simp only [UInt32.le_iff_toNat_le, UInt32.lt_iff_toNat_lt, left, right]
    exact ⟨row, columnUnitsMono e line le,
      fun first lt => columnUnitsStrict e line (UInt32.lt_iff_toNat_lt.mpr first)
        (UInt32.lt_iff_toNat_lt.mpr lt),
      columnUnitsAbove e line _, columnUnitsAbove e line _⟩

theorem columnsOrderedEmoji :
    moved .utf16 "x🎉y\né".toList ⟨1, 3⟩ = ⟨1, 4⟩ ∧ moved .utf16 "x🎉y\né".toList ⟨1, 9⟩ = ⟨1, 10⟩ ∧
      (moved .utf16 "x🎉y\né".toList ⟨1, 3⟩).column <
        (moved .utf16 "x🎉y\né".toList ⟨1, 9⟩).column := by
  have ordered := (columnsOrdered .utf16 "x🎉y\né".toList).2 ⟨1, 3⟩ ⟨1, 9⟩ rfl (by decide)
    (.inr (by decide))
  exact ⟨by decide, by decide, ordered.2.2.1 (by decide) (by decide)⟩

/-- The last column there is, behind one wide character, starts again from zero. -/
theorem columnsInverted :
    (⟨1, 1⟩ : Location).column ≤ (⟨1, 4294967295⟩ : Location).column ∧
      moved .utf8 ['é'] ⟨1, 1⟩ = ⟨1, 1⟩ ∧ moved .utf8 ['é'] ⟨1, 4294967295⟩ = ⟨1, 0⟩ ∧
      ¬ (moved .utf8 ['é'] ⟨1, 1⟩).column ≤ (moved .utf8 ['é'] ⟨1, 4294967295⟩).column := by
  decide +kernel

end NotebookTidy.Engine
