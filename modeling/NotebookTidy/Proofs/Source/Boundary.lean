import NotebookTidy.Source.LineIndex
import NotebookTidy.Text.Segments

/-! Offsets of a text as the lengths of what stands before them. The columns of every encoding
come down to one cut, the shortest beginning of a row that has enough units, and every row to one
split of the text. -/
namespace NotebookTidy.Source
open Text (Encoding byteLength segments segmentsOther)

def Boundary (text : List Char) (offset : Nat) : Prop :=
  ∃ before after, text = before ++ after ∧ byteLength before = offset

/-- The shortest beginning of a text with the given number of units, or all of it. -/
def takeUnits (e : Encoding) : Nat → List Char → List Char
  | 0, _ => []
  | _ + 1, [] => []
  | n + 1, c :: rest => c :: takeUnits e (n + 1 - e.width c) rest

theorem takeUnitsNil (e : Encoding) (n : Nat) : takeUnits e n [] = [] := by
  cases n <;> rfl

theorem takeUnitsCons (e : Encoding) {n : Nat} (c : Char) (rest : List Char) (positive : 0 < n) :
    takeUnits e n (c :: rest) = c :: takeUnits e (n - e.width c) rest := by
  cases n with
  | zero => omega
  | succ n => rfl

theorem takeUnitsPrefix (e : Encoding) (n : Nat) (text : List Char) :
    takeUnits e n text <+: text := by
  induction text generalizing n with
  | nil => simp [takeUnitsNil]
  | cons c rest ih =>
    cases n with
    | zero => exact List.nil_prefix
    | succ n => exact List.cons_prefix_cons.mpr ⟨rfl, ih _⟩

theorem takeUnitsExact (e : Encoding) (before after : List Char) :
    takeUnits e (e.units before) (before ++ after) = before := by
  induction before with
  | nil => simp [takeUnits]
  | cons c rest ih =>
    have positive : 0 < e.width c + e.units rest := by
      have := e.widthPos c
      omega
    rw [Encoding.unitsCons, List.cons_append, takeUnitsCons e c _ positive,
      Nat.add_sub_cancel_left, ih]

theorem takeUnitsAll (e : Encoding) {n : Nat} (text : List Char) (enough : e.units text ≤ n) :
    takeUnits e n text = text := by
  induction text generalizing n with
  | nil => exact takeUnitsNil e n
  | cons c rest ih =>
    rw [Encoding.unitsCons] at enough
    have positive := e.widthPos c
    rw [takeUnitsCons e c rest (by omega), ih (by omega)]

theorem takeUnitsMin (e : Encoding) (n : Nat) (text : List Char) :
    takeUnits e (min n (e.units text)) text = takeUnits e n text := by
  rcases Nat.le_total n (e.units text) with within | beyond
  · rw [Nat.min_eq_left within]
  · rw [Nat.min_eq_right beyond, takeUnitsAll e text (Nat.le_refl _), takeUnitsAll e text beyond]

theorem takeUnitsUtf32 (n : Nat) (text : List Char) : takeUnits .utf32 n text = text.take n := by
  induction text generalizing n with
  | nil => simp [takeUnitsNil]
  | cons c rest ih =>
    cases n with
    | zero => rfl
    | succ n => rw [takeUnitsCons .utf32 c rest (Nat.succ_pos n), List.take_succ_cons, ih]; rfl

theorem asciiWidth (e : Encoding) {c : Char} (ascii : isAscii c = true) : e.width c = 1 := by
  have small : c.val.toNat < 0x80 := of_decide_eq_true ascii
  cases e with
  | utf8 =>
    refine Char.utf8Size_eq_one_iff.mpr ?_
    show c.val.toNat ≤ 127
    omega
  | utf16 =>
    have low : c.val < 0x10000 := by
      show c.val.toNat < 0x10000
      omega
    simp [Encoding.width, low]
  | utf32 => rfl

theorem takeUnitsAscii (e d : Encoding) (n : Nat) (text : List Char)
    (ascii : text.all isAscii = true) : takeUnits e n text = takeUnits d n text := by
  induction text generalizing n with
  | nil => rw [takeUnitsNil, takeUnitsNil]
  | cons c rest ih =>
    simp only [List.all_cons, Bool.and_eq_true] at ascii
    cases n with
    | zero => rfl
    | succ n =>
      rw [takeUnitsCons e c rest (Nat.succ_pos n), takeUnitsCons d c rest (Nat.succ_pos n),
        asciiWidth e ascii.1, asciiWidth d ascii.1, ih _ ascii.2]

theorem takeBytesUnits (n : Nat) (text : List Char) :
    takeBytes n text = takeUnits .utf8 n text := by
  induction text generalizing n with
  | nil => cases n <;> rfl
  | cons c rest ih =>
    cases n with
    | zero => rfl
    | succ n => exact congrArg (c :: ·) (ih _)

theorem boundaryFromUnits (n : Nat) (text : List Char) :
    boundaryFrom n text = byteLength (takeUnits .utf8 n text) := by
  induction text generalizing n with
  | nil => cases n <;> rfl
  | cons c rest ih =>
    cases n with
    | zero => rfl
    | succ n =>
      rw [boundaryFrom, takeUnitsCons .utf8 c rest (Nat.succ_pos n), Text.byteLengthCons, ih]
      rfl

theorem unitsOffsetUnits (e : Encoding) (n : Nat) (text : List Char) :
    unitsOffset e n text = byteLength (takeUnits e n text) := by
  induction text generalizing n with
  | nil => cases n <;> rfl
  | cons c rest ih =>
    cases n with
    | zero => rfl
    | succ n =>
      rw [unitsOffset, takeUnitsCons e c rest (Nat.succ_pos n), Text.byteLengthCons, ih]

theorem columnOffsetUnits (e : Encoding) (line : List Char) (units : Nat) :
    columnOffset e line units = byteLength (takeUnits e units line) := by
  unfold columnOffset
  split
  · rename_i direct
    have all : boundaryFrom (min units (byteLength line)) line =
        byteLength (takeUnits .utf8 units line) := by
      rw [boundaryFromUnits]
      exact congrArg byteLength (takeUnitsMin .utf8 units line)
    rw [all]
    rcases (Bool.or_eq_true _ _).mp direct with same | ascii
    · rw [of_decide_eq_true same]
    · rw [takeUnitsAscii e .utf8 units line ascii]
  · exact unitsOffsetUnits e units line

theorem dropBytesExact (before after : List Char) :
    dropBytes (byteLength before) (before ++ after) = after := by
  induction before with
  | nil => simp [dropBytes]
  | cons c rest ih =>
    obtain ⟨n, size⟩ : ∃ n, byteLength (c :: rest) = n + 1 :=
      ⟨byteLength (c :: rest) - 1, by
        have := c.utf8Size_pos
        rw [Text.byteLengthCons]
        omega⟩
    have left : n + 1 - c.utf8Size = byteLength rest := by
      rw [← size, Text.byteLengthCons, Nat.add_sub_cancel_left]
    rw [size, List.cons_append, dropBytes, left, ih]

theorem takeBytesExact (before after : List Char) :
    takeBytes (byteLength before) (before ++ after) = before := by
  rw [takeBytesUnits]
  exact takeUnitsExact .utf8 before after

theorem sliceExact (before part after : List Char) :
    slice (before ++ (part ++ after)) (byteLength before)
      (byteLength before + byteLength part) = part := by
  rw [slice, dropBytesExact, Nat.add_sub_cancel_left, takeBytesExact]

/-- A text in front of the row with the given number, and from there on. A row that the text does
not have is empty and comes after all of it. -/
def rowSplit : Nat → List Char → List Char × List Char
  | 0, text => ([], text)
  | _ + 1, [] => ([], [])
  | n + 1, c :: rest =>
    let cut := rowSplit (if c = '\n' then n else n + 1) rest
    (c :: cut.1, cut.2)

theorem rowSplitAppend (n : Nat) (text : List Char) :
    (rowSplit n text).1 ++ (rowSplit n text).2 = text := by
  induction text generalizing n with
  | nil => cases n <;> rfl
  | cons c rest ih =>
    cases n with
    | zero => rfl
    | succ n => exact congrArg (c :: ·) (ih _)

theorem lineEndsAt (n offset : Nat) (text : List Char) :
    (lineEndsFrom offset text)[n]?.getD (offset + byteLength text) =
      offset + byteLength (rowSplit (n + 1) text).1 := by
  induction text generalizing n offset with
  | nil => rfl
  | cons c rest ih =>
    have shift (k : Nat) := ih k (offset + c.utf8Size)
    simp only [lineEndsFrom, rowSplit, Text.byteLengthCons, ← Nat.add_assoc]
    split
    · cases n with
      | zero => simp [rowSplit]
      | succ n => simpa using shift n
    · exact shift n

theorem rowOfSegment {n : Nat} {text row : List Char}
    (found : (segments '\n' text)[n]? = some row) :
    row = (rowSplit n text).2.takeWhile (· ≠ '\n') := by
  induction text generalizing n row with
  | nil =>
    cases n with
    | zero => simpa [segments, rowSplit] using found.symm
    | succ n => simp [segments] at found
  | cons c rest ih =>
    by_cases feed : c = '\n'
    · cases n with
      | zero => simpa [segments, rowSplit, feed] using found.symm
      | succ n => simpa [rowSplit, feed] using ih (by simpa [segments, feed] using found)
    · obtain ⟨first, more, pieces, whole⟩ := segmentsOther feed rest
      rw [whole] at found
      rw [pieces] at ih
      cases n with
      | zero =>
        have tail : first = _ := ih (n := 0) rfl
        cases Option.some.inj found
        simpa [rowSplit, feed] using tail
      | succ n => simpa [rowSplit, feed] using ih (n := n + 1) (by simpa using found)

theorem nothingPastSegments {n : Nat} {text : List Char}
    (missing : (segments '\n' text)[n]? = none) : (rowSplit n text).2 = [] := by
  induction text generalizing n with
  | nil => cases n <;> rfl
  | cons c rest ih =>
    by_cases feed : c = '\n'
    · cases n with
      | zero => simp [segments, feed] at missing
      | succ n => simpa [rowSplit, feed] using ih (by simpa [segments, feed] using missing)
    · obtain ⟨first, more, pieces, whole⟩ := segmentsOther feed rest
      rw [whole] at missing
      rw [pieces] at ih
      cases n with
      | zero => simp at missing
      | succ n => simpa [rowSplit, feed] using ih (n := n + 1) (by simpa using missing)

theorem lineStartSplit (text : List Char) (row : UInt32) :
    (LineIndex.ofText text).lineStart row = byteLength (rowSplit (row.toNat - 1) text).1 := by
  unfold LineIndex.lineStart
  split
  · rename_i zero
    simp [zero, rowSplit]
  · rename_i one
    simp [one, rowSplit]
  · rename_i n later
    rw [later]
    simpa [LineIndex.ofText, LineIndex.maxPosition] using lineEndsAt n 0 text

theorem lineSplit (text : List Char) (row : UInt32) :
    (LineIndex.ofText text).line row =
      (rowSplit (row.toNat - 1) text).2.takeWhile (· ≠ '\n') := by
  have rest : dropBytes (byteLength (rowSplit (row.toNat - 1) text).1) text =
      (rowSplit (row.toNat - 1) text).2 := by
    have exact := dropBytesExact (rowSplit (row.toNat - 1) text).1 (rowSplit (row.toNat - 1) text).2
    rwa [rowSplitAppend] at exact
  rw [LineIndex.line, lineStartSplit]
  exact congrArg _ rest

theorem offsetSplit (e : Encoding) (text : List Char) (l : Location) :
    (LineIndex.ofText text).offset e l =
      byteLength ((rowSplit (l.row.toNat - 1) text).1 ++
        takeUnits e (l.column.toNat - 1) ((LineIndex.ofText text).line l.row)) := by
  rw [LineIndex.offset, lineStartSplit, columnOffsetUnits, Text.byteLengthAppend]

theorem lineInText (text : List Char) (row : UInt32) :
    ∃ after, text =
      (rowSplit (row.toNat - 1) text).1 ++ ((LineIndex.ofText text).line row ++ after) := by
  refine ⟨(rowSplit (row.toNat - 1) text).2.dropWhile (· ≠ '\n'), ?_⟩
  rw [lineSplit, List.takeWhile_append_dropWhile, rowSplitAppend]

theorem offsetBoundary (e : Encoding) (text : List Char) (l : Location) :
    Boundary text ((LineIndex.ofText text).offset e l) := by
  obtain ⟨after, whole⟩ := lineInText text l.row
  obtain ⟨rest, row⟩ := takeUnitsPrefix e (l.column.toNat - 1)
    ((LineIndex.ofText text).line l.row)
  refine ⟨_, rest ++ after, ?_, (offsetSplit e text l).symm⟩
  rw [List.append_assoc, ← List.append_assoc _ rest after, row]
  exact whole

end NotebookTidy.Source
