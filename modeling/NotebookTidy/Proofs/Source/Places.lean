import Mathlib.Data.List.DropRight
import NotebookTidy.Proofs.Source.Cut

/-! The place of a row and a column, told by the rows of the text and the beginnings of a row in
place of an index. Every boundary is the place of what one counts before it, and places come in the
order of rows and columns. -/
namespace NotebookTidy.Source
open Text (Encoding byteLength segments segmentsOther)

/-- Where a row starts: behind the rows above it, each with its line feed. -/
def rowOffset (text : List Char) (n : Nat) : Nat :=
  byteLength (((segments '\n' text).take n).flatMap (· ++ ['\n']))

/-- The place of a location is the least boundary of its row that has enough units before it in the
row. It is the end of the row if no boundary has, and the end of the text if the text has no such
row. Row and column count from one, and zero is the same as one. -/
inductive Placed (e : Encoding) (text : List Char) (l : Location) : Nat → Prop where
  | beyond (missing : (segments '\n' text)[l.row.toNat - 1]? = none) :
      Placed e text l (byteLength text)
  | within {line before : List Char} (row : (segments '\n' text)[l.row.toNat - 1]? = some line)
      (begins : before <+: line) (enough : l.column.toNat - 1 ≤ e.units before)
      (least : ∀ other, other <+: line → l.column.toNat - 1 ≤ e.units other →
        byteLength before ≤ byteLength other) :
      Placed e text l (rowOffset text (l.row.toNat - 1) + byteLength before)
  | past {line : List Char} (row : (segments '\n' text)[l.row.toNat - 1]? = some line)
      (few : ∀ before, before <+: line → e.units before < l.column.toNat - 1) :
      Placed e text l (rowOffset text (l.row.toNat - 1) + byteLength line)

theorem unitsPrefix (e : Encoding) {a b : List Char} (begins : a <+: b) :
    e.units a ≤ e.units b := by
  obtain ⟨rest, rfl⟩ := begins
  rw [Encoding.unitsAppend]
  exact Nat.le_add_right ..

theorem takeUnitsEnough (e : Encoding) {n : Nat} {text : List Char} (reach : n ≤ e.units text) :
    n ≤ e.units (takeUnits e n text) := by
  induction text generalizing n with
  | nil => rwa [takeUnitsNil]
  | cons c rest ih =>
    cases n with
    | zero => exact Nat.zero_le _
    | succ n =>
      rw [Encoding.unitsCons] at reach
      have tail := ih (n := n + 1 - e.width c) (by omega)
      have positive : 0 < n + 1 := Nat.succ_pos n
      rw [takeUnitsCons e c rest positive, Encoding.unitsCons]
      omega

theorem takeUnitsLeast (e : Encoding) {n : Nat} {text other : List Char} (begins : other <+: text)
    (enough : n ≤ e.units other) : takeUnits e n text <+: other := by
  induction text generalizing n other with
  | nil => rw [takeUnitsNil]; exact List.nil_prefix
  | cons c rest ih =>
    cases n with
    | zero => exact List.nil_prefix
    | succ n =>
      cases other with
      | nil => simp at enough
      | cons d more =>
        obtain ⟨rfl, inner⟩ := List.cons_prefix_cons.mp begins
        rw [Encoding.unitsCons] at enough
        rw [takeUnitsCons e d rest (Nat.succ_pos n)]
        exact List.cons_prefix_cons.mpr ⟨rfl, ih inner (by omega)⟩

theorem takeUnitsMono (e : Encoding) {n k : Nat} (le : n ≤ k) (text : List Char) :
    takeUnits e n text <+: takeUnits e k text := by
  rcases Nat.le_total k (e.units text) with reach | short
  · exact takeUnitsLeast e (takeUnitsPrefix e k text) (Nat.le_trans le (takeUnitsEnough e reach))
  · rw [takeUnitsAll e text short]
    exact takeUnitsPrefix e n text

theorem rowSplitOffset {n : Nat} {text row : List Char}
    (found : (segments '\n' text)[n]? = some row) :
    (rowSplit n text).1 = ((segments '\n' text).take n).flatMap (· ++ ['\n']) := by
  induction text generalizing n row with
  | nil =>
    cases n with
    | zero => rfl
    | succ n => simp [segments] at found
  | cons c rest ih =>
    by_cases feed : c = '\n'
    · cases n with
      | zero => simp [rowSplit]
      | succ n => simpa [segments, rowSplit, feed] using ih (by simpa [segments, feed] using found)
    · obtain ⟨first, more, pieces, whole⟩ := segmentsOther feed rest
      rw [whole] at found ⊢
      rw [pieces] at ih
      cases n with
      | zero => simp [rowSplit]
      | succ n => simpa [rowSplit, feed] using ih (n := n + 1) (by simpa using found)

section location
variable (e : Encoding) {text : List Char} {l : Location}

theorem offsetInRow {line : List Char}
    (found : (segments '\n' text)[l.row.toNat - 1]? = some line) :
    (LineIndex.ofText text).offset e l = rowOffset text (l.row.toNat - 1) +
      byteLength (takeUnits e (l.column.toNat - 1) line) := by
  rw [offsetSplit, Text.byteLengthAppend, lineSplit, ← rowOfSegment found, rowSplitOffset found]
  rfl

theorem offsetBeyond (missing : (segments '\n' text)[l.row.toNat - 1]? = none) :
    (LineIndex.ofText text).offset e l = byteLength text := by
  have nothing := nothingPastSegments missing
  have whole := rowSplitAppend (l.row.toNat - 1) text
  rw [nothing, List.append_nil] at whole
  rw [offsetSplit, lineSplit, nothing, whole, List.takeWhile_nil, takeUnitsNil, List.append_nil]

theorem offsetIsPlaced : Placed e text l ((LineIndex.ofText text).offset e l) := by
  cases found : (segments '\n' text)[l.row.toNat - 1]? with
  | none =>
    rw [offsetBeyond e found]
    exact .beyond found
  | some line =>
    rw [offsetInRow e found]
    rcases Nat.lt_or_ge (e.units line) (l.column.toNat - 1) with short | reach
    · rw [takeUnitsAll e line (Nat.le_of_lt short)]
      exact .past found fun before begins => Nat.lt_of_le_of_lt (unitsPrefix e begins) short
    · exact .within found (takeUnitsPrefix e _ line) (takeUnitsEnough e reach)
        fun other begins enough => unitsPrefix .utf8 (takeUnitsLeast e begins enough)

theorem placedOffset {offset : Nat} (placed : Placed e text l offset) :
    (LineIndex.ofText text).offset e l = offset := by
  cases placed with
  | beyond missing => exact offsetBeyond e missing
  | @within line before row begins enough least =>
    have reach := Nat.le_trans enough (unitsPrefix e begins)
    have above := least _ (takeUnitsPrefix e _ line) (takeUnitsEnough e reach)
    have below : byteLength _ ≤ byteLength before :=
      unitsPrefix .utf8 (takeUnitsLeast e begins enough)
    rw [offsetInRow e row, Nat.le_antisymm below above]
  | @past line row few =>
    rw [offsetInRow e row, takeUnitsAll e line (Nat.le_of_lt (few line (List.prefix_refl line)))]

end location

theorem directColumn (e : Encoding) {line : List Char} (units : Nat)
    (direct : e = .utf8 ∨ line.all isAscii = true) :
    boundaryFrom (min units (byteLength line)) line = unitsOffset e units line := by
  have chosen : (decide (e = .utf8) || line.all isAscii) = true := by simpa using direct
  have counted := columnOffsetUnits e line units
  rwa [columnOffset, if_pos chosen, ← unitsOffsetUnits] at counted

/-- Offsets are the places of their locations, and no cut on the way to them is refused. Both ways
of counting a column agree; an offset is a boundary of the text and stays within its row. -/
theorem offsetIffPlaced (e : Encoding) (text : List Char) (l : Location) :
    (∀ offset, (LineIndex.ofText text).offset e l = offset ↔ Placed e text l offset) ∧
      (LineIndex.ofText text).offset? e l = some ((LineIndex.ofText text).offset e l) ∧
      (∀ line units, e = .utf8 ∨ line.all isAscii = true →
        boundaryFrom (min units (byteLength line)) line = unitsOffset e units line) ∧
      Boundary text ((LineIndex.ofText text).offset e l) ∧
      ∀ line ∈ (segments '\n' text)[l.row.toNat - 1]?,
        rowOffset text (l.row.toNat - 1) ≤ (LineIndex.ofText text).offset e l ∧
          (LineIndex.ofText text).offset e l ≤
            rowOffset text (l.row.toNat - 1) + byteLength line := by
  refine ⟨fun offset => ⟨?_, placedOffset e⟩, LineIndex.offsetCuts e text l,
    fun line => directColumn e, offsetBoundary e text l, fun line found => ?_⟩
  · rintro rfl
    exact offsetIsPlaced e
  · rw [offsetInRow e found]
    exact ⟨Nat.le_add_right .., Nat.add_le_add_left
      (unitsPrefix .utf8 (takeUnitsPrefix e (l.column.toNat - 1) line)) _⟩

theorem offsetIffPlacedEmoji :
    Placed .utf16 "x🎉y\né".toList ⟨1, 3⟩ 5 ∧
      boundaryFrom (min 9 (byteLength "ab".toList)) "ab".toList =
        unitsOffset .utf16 9 "ab".toList ∧
      (LineIndex.ofText "x🎉y\né".toList).offset .utf16 ⟨1, 3⟩ ≤
        rowOffset "x🎉y\né".toList 0 + byteLength "x🎉y".toList := by
  obtain ⟨placed, -, direct, -, inside⟩ := offsetIffPlaced .utf16 "x🎉y\né".toList ⟨1, 3⟩
  exact ⟨(placed 5).mp (by decide), direct _ 9 (.inr (by decide)), (inside _ (by decide)).2⟩

/-- What one counts before a place: the line feeds, and the units since the last of them. -/
def Location.behind (e : Encoding) (before : List Char) : Location :=
  ⟨.ofNat (before.count '\n' + 1), .ofNat (e.units (before.rtakeWhile (· ≠ '\n')) + 1)⟩

theorem rowSplitExact {above : List Char} (after : List Char)
    (ends : ∀ c ∈ above.getLast?, c = '\n') :
    rowSplit (above.count '\n') (above ++ after) = (above, after) := by
  induction above with
  | nil => simp [rowSplit]
  | cons c rest ih =>
    cases rest with
    | nil =>
      have feed : c = '\n' := ends c rfl
      simp [feed, rowSplit]
    | cons d more =>
      have inner := ih ends
      by_cases feed : c = '\n'
      · rw [feed, List.count_cons_self, List.cons_append, rowSplit, if_pos rfl, inner]
      · -- A line feed is still to come, the last character, so the count is not zero.
        have last := ends _ (List.getLast?_eq_some_getLast (List.cons_ne_nil d more))
        have mem : '\n' ∈ d :: more := last ▸ List.getLast_mem _
        obtain ⟨n, count⟩ : ∃ n, (d :: more).count '\n' = n + 1 :=
          Nat.exists_eq_succ_of_ne_zero (Nat.ne_of_gt (List.count_pos_iff.mpr mem))
        rw [count] at inner
        rw [List.count_cons_of_ne feed, count, List.cons_append, rowSplit, if_neg feed, inner]

theorem rowSplitBefore (before after : List Char) :
    rowSplit (before.count '\n') (before ++ after) =
      (before.rdropWhile (· ≠ '\n'), before.rtakeWhile (· ≠ '\n') ++ after) := by
  have parts := List.rdropWhile_append_rtakeWhile (p := (· ≠ '\n')) (l := before)
  have plain : (before.rtakeWhile (· ≠ '\n')).count '\n' = 0 :=
    List.count_eq_zero.mpr fun mem => by simpa using List.mem_rtakeWhile_imp mem
  have ends : ∀ c ∈ (before.rdropWhile (· ≠ '\n')).getLast?, c = '\n' := by
    intro c last
    obtain ⟨filled, rfl⟩ := List.mem_getLast?_eq_getLast last
    simpa using List.rdropWhile_last_not _ _ filled
  have whole := rowSplitExact (before.rtakeWhile (· ≠ '\n') ++ after) ends
  rwa [← List.append_assoc, parts, ← Nat.add_zero (List.count _ _), ← plain, ← List.count_append,
    parts] at whole

theorem widthLeSize (e : Encoding) (c : Char) : e.width c ≤ c.utf8Size := by
  cases e with
  | utf8 => exact Nat.le_refl _
  | utf32 => exact c.utf8Size_pos
  | utf16 =>
    simp only [Encoding.width]
    split
    · exact c.utf8Size_pos
    · rename_i high
      have above : ¬c.val.toNat < 0x10000 := high
      have several : c.utf8Size ≠ 1 := fun one => by
        have low : c.val.toNat ≤ 127 := Char.utf8Size_eq_one_iff.mp one
        omega
      have positive := c.utf8Size_pos
      omega

theorem unitsLeByteLength (e : Encoding) (text : List Char) : e.units text ≤ byteLength text := by
  induction text with
  | nil => exact Nat.le_refl 0
  | cons c rest ih =>
    have size := widthLeSize e c
    rw [Encoding.unitsCons, Text.byteLengthCons]
    omega

theorem behindFits (e : Encoding) {before after : List Char}
    (short : byteLength (before ++ after) < UInt32.size - 1) :
    (Location.behind e before).row.toNat = before.count '\n' + 1 ∧
      (Location.behind e before).column.toNat =
        e.units (before.rtakeWhile (· ≠ '\n')) + 1 := by
  have rows : before.count '\n' ≤ before.length := List.count_le_length
  have chars := Text.lengthLeByteLength before
  have columns := unitsLeByteLength e (before.rtakeWhile (· ≠ '\n'))
  have parts := congrArg byteLength
    (List.rdropWhile_append_rtakeWhile (p := (· ≠ '\n')) (l := before))
  rw [Text.byteLengthAppend] at short parts
  exact ⟨UInt32.toNat_ofNat_of_lt (by omega), UInt32.toNat_ofNat_of_lt (by omega)⟩

theorem offsetBehind (e : Encoding) {before after : List Char}
    (short : byteLength (before ++ after) < UInt32.size - 1) :
    (LineIndex.ofText (before ++ after)).offset e (.behind e before) = byteLength before := by
  obtain ⟨row, column⟩ := behindFits e short
  have plain (c : Char) (mem : c ∈ before.rtakeWhile (· ≠ '\n')) : (c ≠ '\n' : Bool) :=
    List.mem_rtakeWhile_imp (p := (· ≠ '\n')) mem
  rw [offsetSplit, lineSplit, row, column, Nat.add_sub_cancel, Nat.add_sub_cancel, rowSplitBefore,
    List.takeWhile_append_of_pos plain, takeUnitsExact, List.rdropWhile_append_rtakeWhile]

theorem rowSplitLater {n k : Nat} (later : n < k) (text : List Char) :
    (rowSplit n text).1 ++ (rowSplit n text).2.takeWhile (· ≠ '\n') <+: (rowSplit k text).1 := by
  -- What lies before a later row reaches past the end of the earlier one, up to its line feed.
  obtain ⟨k, rfl⟩ : ∃ j, k = j + 1 := ⟨k - 1, by omega⟩
  induction text generalizing n k with
  | nil => cases n <;> exact List.nil_prefix
  | cons c rest ih =>
    cases n with
    | zero =>
      by_cases feed : c = '\n'
      · simp [rowSplit, feed]
      · have tail := ih (n := 0) k (Nat.succ_pos k)
        simp only [rowSplit, List.nil_append] at tail
        simpa [rowSplit, feed] using tail
    | succ n =>
      by_cases feed : c = '\n'
      · obtain ⟨j, rfl⟩ : ∃ j, k = j + 1 := ⟨k - 1, by omega⟩
        simpa [rowSplit, feed] using ih (n := n) j (by omega)
      · simpa [rowSplit, feed] using ih (n := n + 1) k later

theorem offsetMono (e : Encoding) (text : List Char) {l m : Location} (first : 1 ≤ l.row)
    (upto : l.row < m.row ∨ l.row = m.row ∧ l.column ≤ m.column) :
    (LineIndex.ofText text).offset e l ≤ (LineIndex.ofText text).offset e m := by
  rw [offsetSplit, offsetSplit]
  rcases upto with above | ⟨beside, le⟩
  · have later : l.row.toNat - 1 < m.row.toNat - 1 := by
      have rows := UInt32.lt_iff_toNat_lt.mp above
      have counted : 1 ≤ l.row.toNat := UInt32.le_iff_toNat_le.mp first
      omega
    refine unitsPrefix .utf8 (List.IsPrefix.trans ?_ (List.prefix_append _ _))
    refine List.IsPrefix.trans ?_ (rowSplitLater later text)
    rw [lineSplit]
    exact (List.prefix_append_right_inj _).mpr (takeUnitsPrefix ..)
  · rw [beside]
    have columns : l.column.toNat - 1 ≤ m.column.toNat - 1 :=
      Nat.sub_le_sub_right (UInt32.le_iff_toNat_le.mp le) 1
    exact unitsPrefix .utf8 ((List.prefix_append_right_inj _).mpr (takeUnitsMono e columns _))

/-- Counting leads back to every boundary, and places come in the order of rows and columns. -/
theorem boundariesCounted (e : Encoding) {text : List Char}
    (short : byteLength text < UInt32.size - 1) :
    (∀ before after, text = before ++ after →
      (Location.behind e before).row.toNat = before.count '\n' + 1 ∧
        (Location.behind e before).column.toNat =
          e.units (before.rtakeWhile (· ≠ '\n')) + 1 ∧
        (LineIndex.ofText text).offset e (.behind e before) = byteLength before) ∧
      ∀ l m : Location, 1 ≤ l.row → l.row < m.row ∨ l.row = m.row ∧ l.column ≤ m.column →
        (LineIndex.ofText text).offset e l ≤ (LineIndex.ofText text).offset e m := by
  refine ⟨?_, fun l m first upto => offsetMono e text first upto⟩
  rintro before after rfl
  obtain ⟨row, column⟩ := behindFits e short
  exact ⟨row, column, offsetBehind e short⟩

theorem boundariesCountedEmoji :
    (LineIndex.ofText "é\nx🎉y".toList).offset .utf16 (.behind .utf16 "é\nx🎉".toList) =
        byteLength "é\nx🎉".toList ∧
      (LineIndex.ofText "é\nx🎉y".toList).offset .utf16 ⟨1, 9⟩ ≤
        (LineIndex.ofText "é\nx🎉y".toList).offset .utf16 ⟨2, 0⟩ := by
  have short : byteLength "é\nx🎉y".toList < UInt32.size - 1 := by decide
  obtain ⟨counted, ordered⟩ := boundariesCounted .utf16 short
  exact ⟨(counted _ "y".toList (by decide)).2.2, ordered ⟨1, 9⟩ ⟨2, 0⟩ (by decide) (by decide)⟩

end NotebookTidy.Source
