import NotebookTidy.Proofs.Path.Spelling

/-! Paths that are spelled from the root by the pieces between their separators. -/
namespace NotebookTidy
open Text (segments joined)

def Path.rooted (parts : List (List Char)) : Path := ⟨String.ofList ('/' :: joined ['/'] parts)⟩

theorem rootedPieces {parts : List (List Char)} (filled : parts ≠ [])
    (plain : ∀ part ∈ parts, '/' ∉ part) : (Path.rooted parts).pieces = [] :: parts := by
  rw [Path.pieces, Path.rooted, String.toList_ofList, segments, if_pos rfl,
    Text.segmentsJoined filled plain]

theorem rootedLead {parts : List (List Char)} (filled : parts ≠ [])
    (plain : ∀ part ∈ parts, '/' ∉ part) : (Path.rooted parts).lead = (some .root, parts) := by
  obtain ⟨first, rest, rfl⟩ := List.exists_cons_of_ne_nil filled
  have spelled := rootedPieces filled plain
  rw [Path.pieces] at spelled
  rw [Path.lead, spelled]

theorem rootedParent {init : List (List Char)} {last : List Char}
    (plain : ∀ part ∈ init ++ [last], '/' ∉ part) (named : Path.isFiller last = false)
    (ends : Path.withoutFillerEnd init = init) :
    (Path.rooted (init ++ [last])).parent = some (Path.rooted init) := by
  have whole : Path.withoutFillerEnd (init ++ [last]) = init ++ [last] := by
    simp [Path.withoutFillerEnd, named]
  rw [Path.parentSpelled (rootedLead (by simp) plain) whole, ends]
  rfl

theorem rootedSnoc {init : List (List Char)} (filled : init ≠ []) (last : List Char) :
    (Path.rooted (init ++ [last])).text.toList =
      (Path.rooted init).text.toList ++ '/' :: last := by
  obtain ⟨front, own, rfl⟩ := (List.eq_nil_or_concat init).resolve_left filled
  rw [List.concat_eq_append, Path.rooted, Path.rooted, String.toList_ofList, String.toList_ofList,
    Text.joinedConcat, Text.joinedConcat]
  simp

/-- A piece of a path that is the name of a file or directory. -/
structure Path.Naming (piece : List Char) : Prop where
  plain : '/' ∉ piece
  filled : piece ≠ []
  body : bodyComponent piece = some (.name (String.ofList piece))

theorem Path.Naming.solid {piece : List Char} (naming : Naming piece) : isFiller piece = false := by
  rw [← Bool.not_eq_true, ← fillerNone, naming.body]
  simp

theorem rootedComponents {front pieces : List (List Char)} (start : front = [] ∨ front = [[]])
    (naming : ∀ piece ∈ pieces, Path.Naming piece) :
    (Path.rooted (front ++ pieces)).components =
      .root :: pieces.map fun piece => .name (String.ofList piece) := by
  have plain : ∀ piece ∈ front ++ pieces, '/' ∉ piece := by
    refine List.forall_mem_append.mpr ⟨?_, fun piece mem => (naming piece mem).plain⟩
    rcases start with rfl | rfl <;> simp
  have blank : front.filterMap Path.bodyComponent = [] := by
    rcases start with rfl | rfl <;> rfl
  rw [Path.rooted, Path.componentsFromRoot plain, List.filterMap_append, blank, List.nil_append,
    List.filterMap_congr fun piece mem => (naming piece mem).body, List.filterMap_eq_map']

theorem rootedEnd (parts : List (List Char)) {last : List Char} (naming : Path.Naming last) :
    (Path.rooted (parts ++ [last])).text.toList.getLast?.any (· ≠ '/') = true := by
  have ends := List.getLast?_eq_some_getLast naming.filled
  generalize last.getLast naming.filled = c at ends
  have other : c ≠ '/' := by
    rintro rfl
    exact naming.plain (List.mem_of_getLast? ends)
  rw [Path.rooted, String.toList_ofList, Text.joinedConcat, ← List.cons_append,
    List.getLast?_append, ends]
  simpa using other

theorem rootedJoins (parts : List (List Char)) {last : List Char} (naming : Path.Naming last)
    {pieces : List (List Char)} (others : ∀ piece ∈ pieces, Path.Naming piece) :
    pieces.foldl (fun d piece => d.join ⟨String.ofList piece⟩) (Path.rooted (parts ++ [last])) =
      Path.rooted (parts ++ last :: pieces) := by
  induction pieces generalizing parts last with
  | nil => rfl
  | cons piece rest ih =>
    obtain ⟨own, more⟩ := List.forall_mem_cons.mp others
    have joins : (Path.rooted (parts ++ [last])).join ⟨String.ofList piece⟩ =
        Path.rooted ((parts ++ [last]) ++ [piece]) := by
      have ends := rootedEnd parts naming
      have text := Path.joinText (d := Path.rooted (parts ++ [last])) (Path.relativePiece own.plain)
      rw [if_pos ends] at text
      refine congrArg Path.mk (text.trans (String.toList_inj.mp ?_))
      simp only [Path.rooted, String.toList_append, String.toList_ofList,
        Text.joinedConcat ['/'] (parts ++ [last]) piece, Text.joinedConcat ['/'] parts last]
      simp
    rw [List.foldl_cons, joins, ih _ own more]
    simp

theorem joinedLead {first : List Char} (naming : Path.Naming first) (pieces : List (List Char)) :
    ∃ c rest, joined ['/'] (first :: pieces) = c :: rest ∧ c ≠ '/' := by
  obtain ⟨c, inner, rfl⟩ := List.exists_cons_of_ne_nil naming.filled
  have other : c ≠ '/' := by
    rintro rfl
    exact naming.plain List.mem_cons_self
  cases pieces with
  | nil => exact ⟨c, inner, rfl, other⟩
  | cons next more => exact ⟨c, _, rfl, other⟩

theorem rootedOpen (front : List (List Char)) {first : List Char} {pieces : List (List Char)}
    (naming : ∀ piece ∈ first :: pieces, Path.Naming piece) :
    (Path.rooted (front ++ first :: pieces)).text.toList.getLast? ≠ some '/' := by
  obtain ⟨init, last, whole⟩ := (List.eq_nil_or_concat (first :: pieces)).resolve_left (by simp)
  rw [List.concat_eq_append] at whole
  have ends := rootedEnd (front ++ init) (naming last (by simp [whole]))
  rw [List.append_assoc, ← whole] at ends
  intro slash
  rw [slash] at ends
  cases ends

/-- The first name is joined to a root that ends in its separator. -/
theorem rootedFirst (front : List (List Char)) {first : List Char} (naming : Path.Naming first)
    {d : Path} (slash : d.text.toList.getLast?.any (· ≠ '/') = false)
    (text : d.text.toList ++ first = '/' :: joined ['/'] (front ++ [first])) :
    d.join ⟨String.ofList first⟩ = Path.rooted (front ++ [first]) := by
  refine congrArg Path.mk ((Path.joinText (Path.relativePiece naming.plain)).trans ?_)
  rw [slash, if_neg Bool.false_ne_true, String.append_empty, ← text, String.ofList_append,
    String.ofList_toList]

theorem rootedAbsolute {front : List (List Char)} (start : front = [] ∨ front = [[]])
    {first : List Char} {pieces : List (List Char)}
    (naming : ∀ piece ∈ first :: pieces, Path.Naming piece) (current : Path) :
    (Path.rooted (front ++ first :: pieces)).absolute current =
      some (Path.rooted (front ++ first :: pieces)) := by
  obtain ⟨own, others⟩ := List.forall_mem_cons.mp naming
  have components := rootedComponents start naming
  have begins : (Path.rooted (front ++ first :: pieces)).isAbsolute = true := by
    rw [Path.absoluteSpelled, components]
    rfl
  have filled : (Path.rooted (front ++ first :: pieces)).text.isEmpty = false :=
    Bool.eq_false_iff.mpr (mt (Path.isEmptyIff _).mp (by simp [components]))
  have names : ((first :: pieces).map fun piece => Component.name (String.ofList piece)).filter
      (· ≠ .root) = (first :: pieces).map fun piece => .name (String.ofList piece) :=
    List.filter_eq_self.mpr (by simp)
  obtain ⟨c, inner, lead, other⟩ := joinedLead own pieces
  have onward := rootedJoins front own others
  rw [Path.absolute, filled, components, begins]
  simp only [if_neg (rootedOpen front naming), if_true, if_neg Bool.false_ne_true,
    List.filter_cons, ne_eq, not_true_eq_false, decide_false, names]
  rw [List.foldl_map, List.foldl_cons]
  simp only [Component.text]
  -- One slash or two: the root that the names are joined to is told by the lead of the text.
  rcases start with rfl | rfl
  · have text : (Path.rooted ([] ++ first :: pieces)).text.toList = '/' :: c :: inner := by
      rw [Path.rooted, String.toList_ofList, List.nil_append, lead]
    rw [text, if_neg (by simp [other]), rootedFirst [] own (d := ⟨"/"⟩) (by decide) rfl, onward]
  · have text : (Path.rooted ([[]] ++ first :: pieces)).text.toList =
        '/' :: '/' :: c :: inner := by
      rw [Path.rooted, String.toList_ofList, ← lead]
      rfl
    rw [text, if_pos (by simp [other]), rootedFirst [[]] own (d := ⟨"//"⟩) (by decide) rfl, onward]

end NotebookTidy
