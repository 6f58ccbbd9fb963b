import NotebookTidy.Proofs.Source.Boundary
import NotebookTidy.Source.Patch
import NotebookTidy.Text.Encoding

/-! Fixing a text by cuts that refuse an offset outside the text or inside a character, and ends in
the wrong order. No cut is ever refused, so this way and `applyFixes` are the same. -/
namespace NotebookTidy.Source
open Text (Encoding byteLength)

def splitBytes? : Nat → List Char → Option (List Char × List Char)
  | 0, text => some ([], text)
  | _ + 1, [] => none
  | n + 1, c :: rest =>
    if n + 1 < c.utf8Size then none
    else (splitBytes? (n + 1 - c.utf8Size) rest).map fun parts => (c :: parts.1, parts.2)

def cut? (text : List Char) (start stop : Nat) : Option (List Char) := do
  let (_, after) ← splitBytes? start text
  if start ≤ stop then
    let (part, _) ← splitBytes? (stop - start) after
    some part
  else none

theorem splitBytesZero {text before after : List Char} :
    splitBytes? 0 text = some (before, after) ↔ text = before ++ after ∧ byteLength before = 0 := by
  simp only [splitBytes?, Option.some.injEq, Prod.mk.injEq]
  constructor
  · rintro ⟨rfl, rfl⟩
    exact ⟨rfl, rfl⟩
  · rintro ⟨whole, size⟩
    have short := Text.lengthLeByteLength before
    rw [size] at short
    cases List.length_eq_zero_iff.mp (Nat.le_zero.mp short)
    exact ⟨rfl, whole⟩

theorem splitBytesIff {n : Nat} {text before after : List Char} :
    splitBytes? n text = some (before, after) ↔ text = before ++ after ∧ byteLength before = n := by
  induction text generalizing n before with
  | nil =>
    cases n with
    | zero => exact splitBytesZero
    | succ n =>
      simp only [splitBytes?, reduceCtorEq, List.nil_eq_append_iff, false_iff, not_and]
      rintro ⟨rfl, _⟩
      simp
  | cons c rest ih =>
    have positive := c.utf8Size_pos
    cases n with
    | zero => exact splitBytesZero
    | succ n =>
      cases before with
      | nil => simp only [splitBytes?]; split <;> simp
      | cons d more =>
        simp only [splitBytes?, List.cons_append, List.cons.injEq, Text.byteLengthCons]
        split
        · rename_i inside
          simp only [reduceCtorEq, false_iff, not_and]
          rintro ⟨rfl, _⟩
          omega
        · rename_i fits
          have step : _ ↔ rest = more ++ after ∧ _ := ih (n := n + 1 - c.utf8Size)
          simp only [Option.map_eq_some_iff, Prod.mk.injEq, List.cons.injEq]
          constructor
          · rintro ⟨parts, found, ⟨rfl, rfl⟩, rfl⟩
            obtain ⟨whole, size⟩ := step.mp found
            exact ⟨⟨rfl, whole⟩, by omega⟩
          · rintro ⟨⟨rfl, whole⟩, size⟩
            exact ⟨(more, after), step.mpr ⟨whole, by omega⟩, ⟨rfl, rfl⟩, rfl⟩

theorem cutIff {text part : List Char} {start stop : Nat} :
    cut? text start stop = some part ↔
      ∃ before after, text = before ++ (part ++ after) ∧ byteLength before = start ∧
        start + byteLength part = stop := by
  simp only [cut?, bind, Option.bind_eq_some_iff]
  constructor
  · rintro ⟨⟨before, tail⟩, first, second⟩
    obtain ⟨whole, size⟩ := splitBytesIff.mp first
    split at second <;> try contradiction
    rename_i inOrder
    obtain ⟨⟨found, after⟩, third, last⟩ := Option.bind_eq_some_iff.mp second
    cases Option.some.inj last
    obtain ⟨rest, length⟩ := splitBytesIff.mp third
    dsimp only at rest ⊢
    exact ⟨before, after, by rw [whole, rest], size, by omega⟩
  · rintro ⟨before, after, whole, size, length⟩
    refine ⟨(before, part ++ after), splitBytesIff.mpr ⟨whole, size⟩, ?_⟩
    rw [if_pos (by omega)]
    refine Option.bind_eq_some_iff.mpr ⟨(part, after), splitBytesIff.mpr ⟨rfl, by omega⟩, rfl⟩

theorem splitUnique {a b c d : List Char} (whole : a ++ b = c ++ d)
    (size : byteLength a = byteLength c) : a = c ∧ b = d := by
  have left := splitBytesIff.mpr (⟨rfl, rfl⟩ : a ++ b = a ++ b ∧ byteLength a = byteLength a)
  rw [whole, size, splitBytesIff.mpr ⟨rfl, rfl⟩] at left
  cases Option.some.inj left
  exact ⟨rfl, rfl⟩

theorem boundaryParts {text : List Char} {start stop : Nat} (first : Boundary text start)
    (last : Boundary text stop) (inOrder : start ≤ stop) :
    ∃ before part after, text = before ++ (part ++ after) ∧ byteLength before = start ∧
      start + byteLength part = stop := by
  obtain ⟨before, tail, whole, size⟩ := first
  obtain ⟨longer, after, same, length⟩ := last
  rcases List.append_eq_append_iff.mp (whole.symm.trans same) with
    ⟨part, long, rest⟩ | ⟨gap, long, rest⟩
  · rw [long, Text.byteLengthAppend] at length
    exact ⟨before, part, after, by rw [whole, rest], size, by omega⟩
  · rw [long, Text.byteLengthAppend] at size
    have none : gap = [] := by
      have := Text.lengthLeByteLength gap
      exact List.length_eq_zero_iff.mp (by omega)
    subst none
    exact ⟨longer, [], after, by simpa using same, by simpa using size, by simp; omega⟩

theorem cutSlice {text : List Char} {start stop : Nat} (first : Boundary text start)
    (last : Boundary text stop) (inOrder : start ≤ stop) :
    cut? text start stop = some (slice text start stop) := by
  obtain ⟨before, part, after, whole, size, length⟩ := boundaryParts first last inOrder
  rw [cutIff.mpr ⟨before, after, whole, size, length⟩, whole, ← length, ← size, sliceExact]

theorem boundaryZero (text : List Char) : Boundary text 0 := ⟨[], text, rfl, rfl⟩

theorem boundaryEnd (text : List Char) : Boundary text (byteLength text) :=
  ⟨text, [], by simp, rfl⟩

theorem boundaryLe {text : List Char} {offset : Nat} (h : Boundary text offset) :
    offset ≤ byteLength text := by
  obtain ⟨before, after, whole, size⟩ := h
  rw [whole, Text.byteLengthAppend]
  omega

namespace LineIndex

def line? (i : LineIndex) (row : UInt32) : Option (List Char) := do
  let tail ← cut? i.text (i.lineStart row) i.maxPosition
  cut? i.text (i.lineStart row)
    (i.lineStart row + byteLength (tail.takeWhile (· ≠ '\n')))

def offset? (i : LineIndex) (e : Encoding) (l : Location) : Option Nat :=
  (i.line? l.row).map fun line =>
    i.lineStart l.row + columnOffset e line (l.column.toNat - 1)

theorem lineCuts (text : List Char) (row : UInt32) :
    (ofText text).line? row = some ((ofText text).line row) := by
  obtain ⟨after, whole⟩ := lineInText text row
  have start : Boundary text ((ofText text).lineStart row) := by
    rw [lineStartSplit]
    exact ⟨_, _, whole, rfl⟩
  have tail : cut? text ((ofText text).lineStart row) (byteLength text) =
      some (rowSplit (row.toNat - 1) text).2 := by
    refine cutIff.mpr
      ⟨(rowSplit (row.toNat - 1) text).1, [], ?_, (lineStartSplit text row).symm, ?_⟩
    · rw [List.append_nil, rowSplitAppend]
    · rw [lineStartSplit, ← Text.byteLengthAppend, rowSplitAppend]
  have row : cut? text ((ofText text).lineStart row)
      ((ofText text).lineStart row + byteLength ((ofText text).line row)) =
        some ((ofText text).line row) :=
    cutIff.mpr ⟨_, after, whole, (lineStartSplit text row).symm, rfl⟩
  rw [lineSplit] at row ⊢
  exact Option.bind_eq_some_iff.mpr ⟨_, tail, row⟩

theorem offsetCuts (e : Encoding) (text : List Char) (l : Location) :
    (ofText text).offset? e l = some ((ofText text).offset e l) := by
  rw [offset?, lineCuts]
  rfl

end LineIndex

structure Change.InText (text : List Char) (c : Change) : Prop where
  start : Boundary text c.start
  stop : Boundary text c.stop
  inOrder : c.start ≤ c.stop

def Change.ofEdit? (i : LineIndex) (e : Encoding) (edit : Edit) : Option Change := do
  let start ← i.offset? e edit.start
  let stop ← i.offset? e edit.stop
  some ⟨start, max start stop, edit.content.toList⟩

theorem changeCuts (e : Encoding) (text : List Char) (edit : Edit) :
    Change.ofEdit? (.ofText text) e edit = some (Change.ofEdit (.ofText text) e edit) := by
  rw [Change.ofEdit?, LineIndex.offsetCuts, LineIndex.offsetCuts]
  rfl

theorem changeInText (e : Encoding) (text : List Char) (edit : Edit) :
    (Change.ofEdit (.ofText text) e edit).InText text := by
  have start := offsetBoundary e text edit.start
  have stop := offsetBoundary e text edit.stop
  refine ⟨start, ?_, Nat.le_max_left ..⟩
  show Boundary text (max _ _)
  rcases Nat.le_total ((LineIndex.ofText text).offset e edit.start)
    ((LineIndex.ofText text).offset e edit.stop) with h | h
  · rwa [Nat.max_eq_right h]
  · rwa [Nat.max_eq_left h]

theorem safeChangesInText (e : Encoding) (text : List Char) (ds : List Diagnostic) :
    ∀ c ∈ safeChanges (.ofText text) e ds, c.InText text := by
  intro c mem
  obtain ⟨edit, _, rfl⟩ := List.mem_map.mp mem
  exact changeInText e text edit

theorem sortedInText {text : List Char} {changes : List Change}
    (inText : ∀ c ∈ changes, c.InText text) :
    ∀ c ∈ changes.mergeSort Change.fromEnd, c.InText text :=
  fun c mem => inText c (List.mem_mergeSort.mp mem)

def patchFrom? (text : List Char) (cursor : Nat) (done : List Char) :
    List Change → Option (List Char × Nat)
  | [] => (cut? text 0 cursor).map fun kept => (kept ++ done, 0)
  | c :: rest =>
    if cursor < c.stop then patchFrom? text cursor done rest
    else do
      let kept ← cut? text c.stop cursor
      let (out, applied) ← patchFrom? text c.start (c.content ++ kept ++ done) rest
      some (out, applied + 1)

theorem patchFromCuts {text : List Char} {cursor : Nat} (done : List Char) {rest : List Change}
    (cursorAt : Boundary text cursor) (inText : ∀ c ∈ rest, c.InText text) :
    patchFrom? text cursor done rest =
      some ((patchFrom text cursor done rest).text,
        (patchFrom text cursor done rest).applied.length) := by
  induction rest generalizing cursor done with
  | nil =>
    rw [patchFrom?, cutSlice (boundaryZero text) cursorAt (Nat.zero_le cursor)]
    simp [patchFrom, slice, dropBytes]
  | cons c rest ih =>
    obtain ⟨first, others⟩ := List.forall_mem_cons.mp inText
    rw [patchFrom?, patchFrom]
    split
    · exact ih done cursorAt others
    · rename_i clear
      rw [cutSlice first.stop cursorAt (Nat.le_of_not_lt clear)]
      simp only [bind, Option.bind_some]
      rw [ih _ first.start others]
      rfl

def applyFixes? (text : String) (ds : List Diagnostic) (e : Encoding) : Option FixResult := do
  let chars := text.toList
  let edits := (ds.reverse.filter Diagnostic.hasSafeFix).flatMap (·.edits.reverse)
  match ← edits.mapM (Change.ofEdit? (.ofText chars) e) with
  | [] => some ⟨0, text, false⟩
  | changes =>
    let (out, applied) ← patchFrom? chars (byteLength chars) [] (changes.mergeSort Change.fromEnd)
    some ⟨applied, String.ofList out, out ≠ chars⟩

theorem mapMTotal {α β : Type} {f : α → Option β} {g : α → β} (total : ∀ x, f x = some (g x))
    (xs : List α) : xs.mapM f = some (xs.map g) := by
  induction xs with
  | nil => rfl
  | cons x xs ih => simp [List.mapM_cons, total x, ih]

theorem applyFixesCuts (text : String) (ds : List Diagnostic) (e : Encoding) :
    applyFixes? text ds e = some (applyFixes text ds e) := by
  have inText := safeChangesInText e text.toList ds
  have resolved : ((ds.reverse.filter Diagnostic.hasSafeFix).flatMap (·.edits.reverse)).mapM
      (Change.ofEdit? (.ofText text.toList) e) = some (safeChanges (.ofText text.toList) e ds) :=
    mapMTotal (changeCuts e text.toList) _
  simp only [applyFixes?, applyFixes, resolved, bind, Option.bind_some]
  cases changes : safeChanges (.ofText text.toList) e ds with
  | nil => rfl
  | cons c rest =>
    rw [changes] at inText
    simp only [patchFromCuts [] (boundaryEnd text.toList) (sortedInText inText), Option.bind_some]
    rfl

end NotebookTidy.Source
