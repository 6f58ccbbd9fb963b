/-!
Cutting text at a separator and joining it again. `segments` keeps empty pieces and never
answers an empty list, so `joined` is its inverse. Lines are the pieces between line feeds, and
what is blank is trimmed from the ends of a text.
-/
namespace NotebookTidy.Text

def segments (sep : Char) : List Char → List (List Char)
  | [] => [[]]
  | c :: rest =>
    if c = sep then [] :: segments sep rest
    else
      match segments sep rest with
      | [] => [[c]]
      | s :: more => (c :: s) :: more

def joined (sep : List Char) : List (List Char) → List Char
  | [] => []
  | [s] => s
  | s :: more => s ++ sep ++ joined sep more

theorem segmentsNeNil (sep : Char) (text : List Char) : segments sep text ≠ [] := by
  cases text with
  | nil => simp [segments]
  | cons c rest =>
    simp only [segments]
    split
    · simp
    · split <;> simp

theorem segmentsOther {sep c : Char} (other : c ≠ sep) (rest : List Char) :
    ∃ first more, segments sep rest = first :: more ∧
      segments sep (c :: rest) = (c :: first) :: more := by
  cases pieces : segments sep rest with
  | nil => exact absurd pieces (segmentsNeNil sep rest)
  | cons first more => exact ⟨first, more, rfl, by rw [segments, if_neg other, pieces]⟩

theorem joinedSegments (sep : Char) (text : List Char) :
    joined [sep] (segments sep text) = text := by
  induction text with
  | nil => rfl
  | cons c rest ih =>
    by_cases same : c = sep
    · rw [segments, if_pos same]
      cases pieces : segments sep rest with
      | nil => exact absurd pieces (segmentsNeNil sep rest)
      | cons first more => rw [pieces] at ih; simp [joined, ih, same]
    · obtain ⟨first, more, pieces, whole⟩ := segmentsOther same rest
      rw [pieces] at ih
      rw [whole, ← ih]
      cases more <;> simp [joined]

theorem segmentsPlain {sep : Char} {text : List Char} (plain : sep ∉ text) :
    segments sep text = [text] := by
  induction text with
  | nil => rfl
  | cons c rest ih =>
    have other : c ≠ sep := fun same => plain (same ▸ List.mem_cons_self)
    rw [segments, if_neg other, ih fun mem => plain (List.mem_cons_of_mem c mem)]

theorem segmentPlain {sep : Char} {text piece : List Char} (mem : piece ∈ segments sep text) :
    sep ∉ piece := by
  induction text generalizing piece with
  | nil =>
    rw [segments, List.mem_singleton] at mem
    subst mem
    exact List.not_mem_nil
  | cons c rest ih =>
    by_cases same : c = sep
    · rw [segments, if_pos same] at mem
      rcases List.mem_cons.mp mem with rfl | later
      · exact List.not_mem_nil
      · exact ih later
    · obtain ⟨first, more, pieces, whole⟩ := segmentsOther same rest
      rw [whole] at mem
      rw [pieces] at ih
      rcases List.mem_cons.mp mem with rfl | later
      · intro inside
        rcases List.mem_cons.mp inside with here | deeper
        · exact same here.symm
        · exact ih List.mem_cons_self deeper
      · exact ih (List.mem_cons_of_mem _ later)

theorem segmentsAppend (sep : Char) (before after : List Char) :
    segments sep (before ++ sep :: after) = segments sep before ++ segments sep after := by
  induction before with
  | nil => simp [segments]
  | cons c rest ih =>
    rw [List.cons_append]
    by_cases same : c = sep
    · rw [segments, segments, ih, if_pos same, if_pos same, List.cons_append]
    · obtain ⟨first, more, pieces, whole⟩ := segmentsOther same rest
      rw [pieces] at ih
      rw [whole, segments, if_neg same, ih]
      rfl

theorem segmentsJoined {sep : Char} {pieces : List (List Char)} (filled : pieces ≠ [])
    (plain : ∀ piece ∈ pieces, sep ∉ piece) : segments sep (joined [sep] pieces) = pieces := by
  induction pieces with
  | nil => exact absurd rfl filled
  | cons first rest ih =>
    obtain ⟨head, tail⟩ := List.forall_mem_cons.mp plain
    cases rest with
    | nil => exact segmentsPlain head
    | cons second more =>
      rw [joined, List.append_assoc, List.singleton_append, segmentsAppend, segmentsPlain head,
        ih (by simp) tail, List.singleton_append]
      exact List.cons_ne_nil _ _

theorem joinedAppend (sep : List Char) {a b : List (List Char)} (left : a ≠ []) (right : b ≠ []) :
    joined sep (a ++ b) = joined sep a ++ (sep ++ joined sep b) := by
  induction a with
  | nil => exact absurd rfl left
  | cons first rest ih =>
    cases rest with
    | nil =>
      obtain ⟨second, more, rfl⟩ := List.exists_cons_of_ne_nil right
      exact List.append_assoc first sep _
    | cons second more =>
      have inner := ih (List.cons_ne_nil second more)
      show first ++ sep ++ joined sep (second :: more ++ b) =
        first ++ sep ++ joined sep (second :: more) ++ (sep ++ joined sep b)
      rw [inner]
      simp only [List.append_assoc]

theorem joinedBehind {sep : Char} {a : List (List Char)} (filled : a ≠ [])
    (b : List (List Char)) :
    joined [sep] (a ++ b) = joined [sep] a ++ b.flatMap (sep :: ·) := by
  induction b generalizing a with
  | nil => simp
  | cons first rest ih =>
    have step := ih (List.append_ne_nil_of_left_ne_nil filled [first])
    have one : joined [sep] (a ++ [first]) = joined [sep] a ++ (sep :: first) :=
      joinedAppend [sep] filled (List.cons_ne_nil first [])
    rw [List.append_assoc, List.singleton_append, one, List.append_assoc] at step
    rw [step, List.flatMap_cons]

theorem memJoined {sep : List Char} {c : Char} (other : c ∉ sep) {pieces : List (List Char)} :
    c ∈ joined sep pieces ↔ ∃ piece ∈ pieces, c ∈ piece := by
  induction pieces with
  | nil => simp [joined]
  | cons first rest ih =>
    cases rest with
    | nil => simp [joined]
    | cons second more =>
      have whole : joined sep (first :: second :: more) =
          first ++ sep ++ joined sep (second :: more) := rfl
      simp only [whole, List.mem_append, other, or_false, ih, List.mem_cons, exists_eq_or_imp]

theorem memSegment {sep c : Char} {text piece : List Char} (mem : piece ∈ segments sep text)
    (inside : c ∈ piece) : c ∈ text := by
  have other : c ∉ [sep] := by
    rw [List.mem_singleton]
    exact fun same => segmentPlain mem (same ▸ inside)
  have whole := (memJoined other).mpr ⟨piece, mem, inside⟩
  rwa [joinedSegments] at whole

/-- Pieces that end in a line feed, and what follows the last one unless that is empty. -/
def lineFeedPieces (text : List Char) : List (List Char) :=
  let pieces := segments '\n' text
  pieces.dropLast.map (· ++ ['\n']) ++ (pieces.getLast?.toList.filter (fun p => !p.isEmpty))

theorem joinedConcat (sep : List Char) (init : List (List Char)) (last : List Char) :
    joined sep (init ++ [last]) = (init.map (· ++ sep)).flatten ++ last := by
  induction init with
  | nil => rfl
  | cons first rest ih =>
    rw [List.map_cons, List.flatten_cons, List.append_assoc, ← ih]
    cases rest with
    | nil => rfl
    | cons second more => rfl

theorem flattenLineFeedPieces (text : List Char) : (lineFeedPieces text).flatten = text := by
  have whole := joinedSegments '\n' text
  rw [lineFeedPieces]
  rcases List.eq_nil_or_concat (segments '\n' text) with nothing | ⟨init, last, ends⟩
  · exact absurd nothing (segmentsNeNil '\n' text)
  · rw [ends, List.concat_eq_append] at whole ⊢
    rw [joinedConcat] at whole
    simp only [List.dropLast_concat, List.getLast?_concat, Option.toList_some, List.flatten_append]
    cases last with
    | nil => simpa using whole
    | cons c more => simpa using whole

private def withoutReturn (line : List Char) : List Char :=
  if line.getLast? = some '\r' then line.dropLast else line

/-- The lines of a text without their ends. A line ends in a line feed, which a carriage return
may precede; the text after the last line feed is a line unless it is empty, and keeps its
carriage returns. -/
def lines (text : List Char) : List (List Char) :=
  let pieces := segments '\n' text
  pieces.dropLast.map withoutReturn ++ (pieces.getLast?.toList.filter (fun p => !p.isEmpty))

theorem linePlain {text line : List Char} (mem : line ∈ lines text) : '\n' ∉ line := by
  rcases List.mem_append.mp mem with ended | last
  · obtain ⟨piece, inside, rfl⟩ := List.mem_map.mp ended
    have plain := segmentPlain (List.dropLast_subset _ inside)
    unfold withoutReturn
    split
    · exact fun feed => plain (List.dropLast_subset piece feed)
    · exact plain
  · exact segmentPlain (List.mem_of_getLast? (Option.mem_toList.mp (List.mem_filter.mp last).1))

/-- Without carriage returns the lines are the pieces, up to an empty one at the end. -/
theorem linesPlain {text : List Char} (plain : '\r' ∉ text) :
    segments '\n' text = lines text ∨ segments '\n' text = lines text ++ [[]] := by
  have same (piece : List Char) (mem : piece ∈ (segments '\n' text).dropLast) :
      withoutReturn piece = piece := by
    refine if_neg fun return_ => plain ?_
    exact memSegment (List.dropLast_subset _ mem) (List.mem_of_getLast? return_)
  rw [lines, List.map_congr_left same, List.map_id']
  rcases List.eq_nil_or_concat (segments '\n' text) with nothing | ⟨above, last, ends⟩
  · exact absurd nothing (segmentsNeNil '\n' text)
  · rw [ends, List.concat_eq_append, List.dropLast_concat, List.getLast?_concat]
    cases last with
    | nil => exact .inr (by simp)
    | cons c more => exact .inl (by simp)

/-- Inclusive ranges of the property White_Space. -/
def whiteSpace : List (Nat × Nat) :=
  [(0x09, 0x0D), (0x20, 0x20), (0x85, 0x85), (0xA0, 0xA0), (0x1680, 0x1680), (0x2000, 0x200A),
   (0x2028, 0x2029), (0x202F, 0x202F), (0x205F, 0x205F), (0x3000, 0x3000)]

def isBlank (c : Char) : Bool :=
  whiteSpace.any fun (first, last) => first ≤ c.toNat && c.toNat ≤ last

def trimEnd (text : List Char) : List Char := (text.reverse.dropWhile isBlank).reverse

def trim (text : List Char) : List Char := trimEnd (text.dropWhile isBlank)

end NotebookTidy.Text
