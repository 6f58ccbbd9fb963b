import NotebookTidy.Workspace
import NotebookTidy.Proofs.Config.Alike
import NotebookTidy.Proofs.Config.ExtendChain
import NotebookTidy.Proofs.Engine.Stripping
import NotebookTidy.Proofs.Source.Places
import NotebookTidy.Proofs.Source.Splice
import NotebookTidy.Proofs.Text.Bytes

/-! The imports at the head of a text, sorted by the fix of the sample engine. The edit names the
end of the block by a row and a column; whatever follows the block, and in every encoding, the place
it names is where the block ends, and the fixed text has the same rows with those of the block in
order. -/
namespace NotebookTidy.Engine.Sample
open Config Source
open Text (Encoding byteLength bytes joined joinedAppend lines linesPlain segments segmentsJoined)

/-! Order of lines -/

theorem inOrderIff {a b : List Char} : inOrder a b = true ↔ bytes a ≤ bytes b := by
  rw [inOrder, decide_eq_true_iff, String.le_iff_toList_le, String.toList_ofList,
    String.toList_ofList, Text.bytesLe]

theorem inOrderTrans (a b c : List Char) (ab : inOrder a b = true) (bc : inOrder b c = true) :
    inOrder a c = true := by
  rw [inOrderIff, Text.bytesLe] at *
  exact le_trans ab bc

theorem inOrderTotal (a b : List Char) : (inOrder a b || inOrder b a) = true := by
  rw [Bool.or_eq_true, inOrderIff, inOrderIff, Text.bytesLe, Text.bytesLe]
  exact le_total a b

def sorted (block : List (List Char)) : List (List Char) := block.mergeSort inOrder

theorem sortedPerm (block : List (List Char)) : (sorted block).Perm block :=
  List.mergeSort_perm block inOrder

theorem sortedOrdered (block : List (List Char)) :
    (sorted block).Pairwise fun a b => bytes a ≤ bytes b :=
  (List.pairwise_mergeSort inOrderTrans inOrderTotal block).imp inOrderIff.mp

theorem sortedSame {block : List (List Char)}
    (ordered : block.Pairwise fun a b => bytes a ≤ bytes b) : sorted block = block :=
  List.mergeSort_of_pairwise (ordered.imp inOrderIff.mpr)

theorem sortedAgain (block : List (List Char)) : sorted (sorted block) = sorted block :=
  sortedSame (sortedOrdered block)

theorem sortedShort {block : List (List Char)} (short : block.length < 2) :
    sorted block = block := by
  refine sortedSame ?_
  match block, short with
  | [], _ => exact .nil
  | [line], _ => exact List.pairwise_singleton _ line

/-! The block -/

def ImportLine (line : List Char) : Prop :=
  "import ".toList <+: line ∨ "from ".toList <+: line

theorem isImportIff {line : List Char} : isImport line = true ↔ ImportLine line := by
  rw [isImport, Bool.or_eq_true, List.isPrefixOf_iff_prefix, List.isPrefixOf_iff_prefix, ImportLine]

def head (text : List Char) : List (List Char) := (segments '\n' text).takeWhile isImport

def behind (text : List Char) : List (List Char) := (segments '\n' text).dropWhile isImport

theorem headBehind (text : List Char) : head text ++ behind text = segments '\n' text :=
  List.takeWhile_append_dropWhile

theorem linesHead {text : List Char} (plain : '\r' ∉ text) :
    (lines text).takeWhile isImport = head text := by
  rcases linesPlain plain with same | fed
  · rw [head, same]
  · have empty : isImport [] = false := by decide
    rw [head, fed, List.takeWhile_append, List.takeWhile_cons, empty]
    split
    · rename_i all
      exact ((List.takeWhile_prefix isImport).eq_of_length all).trans (List.append_nil _).symm
    · rfl

theorem behindFilled {text : List Char} (plain : '\r' ∉ text)
    (more : (head text).length < (lines text).length) : behind text ≠ [] := by
  intro nothing
  have rows := headBehind text
  rw [nothing, List.append_nil] at rows
  rcases linesPlain plain with same | fed
  · rw [rows, same] at more
    exact Nat.lt_irrefl _ more
  · rw [rows, fed, List.length_append] at more
    omega

theorem textSplit {text : List Char} (filled : head text ≠ []) :
    text = joined ['\n'] (head text) ++ (behind text).flatMap ('\n' :: ·) := by
  have whole := Text.joinedSegments '\n' text
  rw [← headBehind, Text.joinedBehind filled] at whole
  exact whole.symm

/-! The place of the edit -/

theorem countFeeds {above : List (List Char)} (plain : ∀ line ∈ above, '\n' ∉ line) :
    (above.map (· ++ ['\n'])).flatten.count '\n' = above.length := by
  induction above with
  | nil => rfl
  | cons line rest ih =>
    obtain ⟨first, others⟩ := List.forall_mem_cons.mp plain
    rw [List.map_cons, List.flatten_cons, List.count_append, ih others, List.count_append,
      List.count_eq_zero.mpr first, List.count_singleton_self, List.length_cons]
    omega

theorem sinceFeed (above : List (List Char)) {last : List Char} (plain : '\n' ∉ last) :
    ((above.map (· ++ ['\n'])).flatten ++ last).rtakeWhile (· ≠ '\n') = last := by
  have others : ∀ c ∈ last.reverse, (c ≠ '\n' : Bool) := by
    intro c mem
    exact decide_eq_true fun feed => plain (List.mem_reverse.mp (feed ▸ mem))
  have stops : (above.map (· ++ ['\n'])).flatten.reverse.takeWhile (· ≠ '\n') = [] := by
    rcases List.eq_nil_or_concat above with rfl | ⟨init, line, rfl⟩
    · rfl
    · simp
  rw [List.rtakeWhile, List.reverse_append, List.takeWhile_append_of_pos others, stops,
    List.append_nil, List.reverse_reverse]

theorem behindJoined (e : Encoding) (above : List (List Char)) (last : List Char)
    (plain : ∀ line ∈ above ++ [last], '\n' ∉ line) :
    Location.behind e (joined ['\n'] (above ++ [last])) =
      ⟨.ofNat (above.length + 1), .ofNat (e.units last + 1)⟩ := by
  have ends : '\n' ∉ last := plain last (List.mem_append_right _ List.mem_cons_self)
  have counted := countFeeds fun line mem => plain line (List.mem_append_left [last] mem)
  rw [Text.joinedConcat, Location.behind, sinceFeed above ends, List.count_append, counted,
    List.count_eq_zero.mpr ends, Nat.add_zero]

theorem headPlain {text line : List Char} (mem : line ∈ head text) : '\n' ∉ line :=
  Text.segmentPlain (List.takeWhile_subset _ mem)

section block
variable (e : Encoding) {text : List Char} (filled : head text ≠ [])
include filled

theorem behindNext : Location.behind e (joined ['\n'] (head text) ++ ['\n']) =
    ⟨.ofNat ((head text).length + 1), 1⟩ := by
  have place := behindJoined e (head text) [] fun line mem => by
    rcases List.mem_append.mp mem with inside | empty
    · exact headPlain inside
    · rw [List.mem_singleton.mp empty]
      exact List.not_mem_nil
  rw [joinedAppend ['\n'] filled (List.cons_ne_nil [] [])] at place
  exact place

theorem behindLast : Location.behind e (joined ['\n'] (head text)) =
    ⟨.ofNat (head text).length, .ofNat (e.units ((head text).getLast?.getD []) + 1)⟩ := by
  rcases List.eq_nil_or_concat (head text) with nothing | ⟨above, last, parts⟩
  · exact absurd nothing filled
  · rw [List.concat_eq_append] at parts
    have place := behindJoined e above last fun line mem => headPlain (parts ▸ mem)
    rw [parts, place, List.getLast?_concat, List.length_append]
    rfl

end block

theorem editMissing (e : Encoding) {text : List Char} (plain : '\r' ∉ text) :
    importEdit? e text = none ↔ sorted (head text) = head text := by
  simp only [importEdit?, linesHead plain]
  constructor
  · intro missing
    by_contra other
    have long : ¬(head text).length < 2 := fun short => other (sortedShort short)
    have unsorted : ¬(decide ((head text).length < 2) ||
        decide ((head text).mergeSort inOrder = head text)) = true := by
      simp only [Bool.or_eq_true, decide_eq_true_iff]
      exact not_or_intro long other
    rw [if_neg unsorted] at missing
    split at missing <;> cases missing
  · intro same
    exact if_pos (Bool.or_eq_true_iff.mpr (.inr (decide_eq_true same)))

/-- The edit reaches to the next line if there is one, and else to the end of the text. -/
theorem editParts {e : Encoding} {text : List Char} {edit : Edit} (plain : '\r' ∉ text)
    (found : importEdit? e text = some edit) : head text ≠ [] ∧ ∃ feed after,
      (behind text).flatMap ('\n' :: ·) = feed ++ after ∧
      edit = ⟨String.ofList (joined ['\n'] (sorted (head text)) ++ feed), .behind e [],
        .behind e (joined ['\n'] (head text) ++ feed)⟩ := by
  have filled : head text ≠ [] := by
    intro nothing
    have short : (head text).length < 2 := by rw [nothing]; exact Nat.zero_lt_two
    rw [(editMissing e plain).mpr (sortedShort short)] at found
    cases found
  refine ⟨filled, ?_⟩
  simp only [importEdit?, linesHead plain] at found
  split at found
  · cases found
  · split at found
    · rename_i more
      obtain ⟨line, rest, below⟩ := List.exists_cons_of_ne_nil (behindFilled plain more)
      refine ⟨['\n'], line ++ rest.flatMap ('\n' :: ·), by rw [below]; rfl, ?_⟩
      rw [behindNext e filled, ← Option.some.inj found]
      rfl
    · refine ⟨[], _, rfl, ?_⟩
      rw [List.append_nil, List.append_nil, behindLast e filled, ← Option.some.inj found]
      rfl

theorem patchFront (front back content : List Char) :
    (patch (front ++ back) [⟨0, byteLength front, content⟩]).text = content ++ back := by
  have within : ¬byteLength (front ++ back) < byteLength front := by
    rw [Text.byteLengthAppend]
    omega
  have rest : slice (front ++ back) (byteLength front) (byteLength (front ++ back)) = back := by
    have cut := sliceExact front back []
    rwa [List.append_nil, ← Text.byteLengthAppend] at cut
  rw [patch, List.mergeSort_singleton, patchFrom, if_neg within]
  simp only [patchFrom, takeBytes, rest, List.append_nil, List.nil_append]

theorem fixFront {text : String} {front back content : List Char} (e : Encoding)
    (whole : text.toList = front ++ back) (short : byteLength text.toList < UInt32.size - 1) :
    (applyFixes text [importDiagnostic ⟨String.ofList content, .behind e [], .behind e front⟩]
      e).text.toList = content ++ back := by
  have start : (LineIndex.ofText text.toList).offset e (.behind e []) = 0 :=
    @offsetBehind e [] text.toList short
  have stop : (LineIndex.ofText text.toList).offset e (.behind e front) = byteLength front := by
    rw [whole] at short ⊢
    exact offsetBehind e short
  have change : safeChanges (.ofText text.toList) e
      [importDiagnostic ⟨String.ofList content, .behind e [], .behind e front⟩] =
        [⟨0, byteLength front, content⟩] := by
    show [Change.ofEdit _ e _] = _
    rw [Change.ofEdit, start, stop, String.toList_ofList, Nat.zero_max]
  rw [(applyFixesPatch _ _ _).2, change, whole, patchFront]

/-! What the fix leaves -/

/-- The imports at the head of a text, up to the first other line, are in the order of their bytes;
the lines behind them are the same. -/
def HeadSorted (text out : List Char) : Prop :=
  ∃ imports ordered rest, segments '\n' text = imports ++ rest ∧
    (∀ line ∈ imports, ImportLine line) ∧ (∀ line ∈ rest.head?, ¬ImportLine line) ∧
    ordered.Perm imports ∧ (ordered.Pairwise fun a b => bytes a ≤ bytes b) ∧
    segments '\n' out = ordered ++ rest

def headSorted (text : List Char) : List Char :=
  joined ['\n'] (sorted (head text) ++ behind text)

theorem headImports {text line : List Char} (mem : line ∈ head text) : isImport line = true :=
  List.mem_takeWhile_imp mem

theorem behindOther {text line : List Char} (first : line ∈ (behind text).head?) :
    isImport line = false := by
  have found := List.head?_dropWhile_not isImport (segments '\n' text)
  rw [behind] at first
  rw [Option.mem_def.mp first] at found
  simpa using found

theorem sortedRows {text line : List Char} (mem : line ∈ sorted (head text) ++ behind text) :
    line ∈ segments '\n' text := by
  rw [← headBehind]
  exact List.mem_append.mpr ((List.mem_append.mp mem).imp_left (sortedPerm _).mem_iff.mp)

theorem headSortedSegments (text : List Char) :
    segments '\n' (headSorted text) = sorted (head text) ++ behind text := by
  refine segmentsJoined ?_ fun line mem => Text.segmentPlain (sortedRows mem)
  intro nothing
  have rows := ((sortedPerm (head text)).append_right (behind text)).length_eq
  rw [nothing, headBehind] at rows
  exact Text.segmentsNeNil '\n' text (List.length_eq_zero_iff.mp rows.symm)

theorem headSortedHead (text : List Char) : head (headSorted text) = sorted (head text) := by
  have imports : ∀ line ∈ sorted (head text), isImport line = true :=
    fun line mem => headImports ((sortedPerm _).mem_iff.mp mem)
  have stops : (behind text).takeWhile isImport = [] := by
    cases rest : behind text with
    | nil => rfl
    | cons line more =>
      have first : line ∈ (behind text).head? := by rw [rest]; rfl
      have other := behindOther first
      exact List.takeWhile_cons_of_neg (by rw [other]; exact Bool.false_ne_true)
  rw [head, headSortedSegments, List.takeWhile_append_of_pos imports, stops, List.append_nil]

theorem headSortedPlain {text : List Char} (plain : '\r' ∉ text) : '\r' ∉ headSorted text := by
  intro inside
  obtain ⟨line, mem, here⟩ := (Text.memJoined (by decide)).mp inside
  exact plain (Text.memSegment (sortedRows mem) here)

theorem headSortedSorts (text : List Char) : HeadSorted text (headSorted text) := by
  refine ⟨head text, sorted (head text), behind text, (headBehind text).symm, ?_, ?_,
    sortedPerm _, sortedOrdered _, headSortedSegments text⟩
  · exact fun line mem => isImportIff.mp (headImports mem)
  · intro line first named
    exact Bool.false_ne_true ((behindOther first).symm.trans (isImportIff.mpr named))

section fixing
variable {s : Sample} {text : String}

theorem fixRefused (refused : balanced text.toList = false) :
    Pipeline.fixText s.engine text = text := by
  have failed : s.engine.check text = .error unbalanced := by
    show s.check text = _
    rw [check, refused]
    rfl
  rw [Pipeline.fixText, Pipeline.collectFixes, failed]
  rfl

theorem fixesFound (sorts : s.sortImports = true) (accepted : balanced text.toList = true) :
    Pipeline.collectFixes s.engine text =
      (importEdit? s.encoding text.toList).toList.map importDiagnostic := by
  have checked : s.engine.check text =
      .ok ((importEdit? s.encoding text.toList).toList.map importDiagnostic) := by
    show s.check text = _
    rw [check, accepted, sorts]
    rfl
  rw [Pipeline.collectFixes, checked]
  cases importEdit? s.encoding text.toList <;> rfl

variable (sorts : s.sortImports = true) (plain : '\r' ∉ text.toList)
include sorts plain

theorem fixSorts (short : byteLength text.toList < UInt32.size - 1)
    (accepted : balanced text.toList = true) :
    (Pipeline.fixText s.engine text).toList = headSorted text.toList := by
  rw [Pipeline.fixText, fixesFound sorts accepted]
  cases found : importEdit? s.encoding text.toList with
  | none =>
    rw [headSorted, (editMissing _ plain).mp found, headBehind, Text.joinedSegments]
    rfl
  | some edit =>
    obtain ⟨filled, feed, after, below, rfl⟩ := editParts plain found
    have whole : text.toList = joined ['\n'] (head text.toList) ++ feed ++ after := by
      rw [List.append_assoc, ← below]
      exact textSplit filled
    have sortedFilled : sorted (head text.toList) ≠ [] := fun nothing =>
      filled (List.nil_perm.mp (nothing ▸ sortedPerm (head text.toList)))
    rw [headSorted, Text.joinedBehind sortedFilled, below, ← List.append_assoc]
    exact fixFront s.encoding whole short

theorem fixAgain (short : byteLength text.toList < UInt32.size - 1) :
    Pipeline.fixText s.engine (Pipeline.fixText s.engine text) =
      Pipeline.fixText s.engine text := by
  cases accepted : balanced text.toList with
  | false => rw [fixRefused accepted, fixRefused accepted]
  | true =>
    have out := fixSorts sorts plain short accepted
    -- Other lines first may leave the parentheses unbalanced; such a text is refused and stays.
    cases again : balanced (Pipeline.fixText s.engine text).toList with
    | false => exact fixRefused again
    | true =>
      have nothing : importEdit? s.encoding (Pipeline.fixText s.engine text).toList = none := by
        rw [out, editMissing _ (headSortedPlain plain), headSortedHead, sortedAgain]
      rw [Pipeline.fixText, fixesFound sorts again, nothing]
      rfl

end fixing

/-! Workspaces -/

/-- Among the rules that a configuration selects are those of imports. -/
def SelectsImports (config : Table) : Prop :=
  ∃ lint rules, config.get? "lint" = some (.table lint) ∧
    lint.get? "select" = some (.array rules) ∧ .string "I" ∈ rules.toList

theorem selectsSorts {config : Table} (selects : SelectsImports config) :
    selectsImports config = true := by
  obtain ⟨lint, rules, table, array, mem⟩ := selects
  have named : "I" ∈ rules.toList.filterMap Value.string? :=
    List.mem_filterMap.mpr ⟨_, mem, rfl⟩
  have chosen : lint.strings? "select" = some (rules.toList.filterMap Value.string?) := by
    rw [Table.strings?, array]
    rfl
  rw [selectsImports, table]
  show (lint.strings? "select").any (·.contains "I") = true
  rw [chosen]
  exact List.contains_iff_mem.mpr named

theorem sampleBuilt {options : Table} {encoding : Encoding} {w : Workspace}
    (selects : SelectsImports options) (built : Workspace.build options factory encoding = .ok w) :
    ∃ s : Sample, w.engine = s.engine ∧ s.sortImports = true := by
  obtain ⟨s, made, same⟩ := mapOk (Workspace.builtFrom built).engine
  obtain ⟨width, -, rfl⟩ := mapOk made
  exact ⟨_, same.symm, selectsSorts selects⟩

/-- In a workspace that selects the rules of imports the fix of a balanced text sorts the imports at
its head and changes nothing else; any other text it leaves, and what is fixed it leaves. -/
theorem importsFixed {options : Table} {encoding : Encoding} {w : Workspace} {text : String}
    (selects : SelectsImports options) (built : Workspace.build options factory encoding = .ok w)
    (plain : '\r' ∉ text.toList) (short : byteLength text.toList < UInt32.size - 1) :
    (Balanced text.toList → HeadSorted text.toList (Pipeline.fixText w.engine text).toList) ∧
      (¬Balanced text.toList → Pipeline.fixText w.engine text = text) ∧
      Pipeline.fixText w.engine (Pipeline.fixText w.engine text) =
        Pipeline.fixText w.engine text := by
  obtain ⟨s, same, sorts⟩ := sampleBuilt selects built
  rw [same]
  refine ⟨fun closes => ?_, fun open_ => ?_, fixAgain sorts plain short⟩
  · rw [fixSorts sorts plain short ((balancedIff _).mpr closes)]
    exact headSortedSorts text.toList
  · exact fixRefused (Bool.eq_false_iff.mpr fun accepted => open_ ((balancedIff _).mp accepted))

def sortingOptions : Table :=
  .cons "lint" (.table (.cons "select" (.array (.cons (.integer 7) (.cons (.string "I") .nil)))
    .nil)) .nil

/-- The block ends the text, in a line with a character of two units. -/
theorem importsFixedEmoji : ∃ w, Workspace.build sortingOptions factory .utf16 = .ok w ∧
    HeadSorted "import é\nfrom a import 🎉".toList "from a import 🎉\nimport é".toList ∧
    Pipeline.fixText w.engine "from a import 🎉\nimport é" = "from a import 🎉\nimport é" := by
  have ok : (Workspace.build sortingOptions factory .utf16).toOption.isSome = true := by
    decide +kernel
  obtain ⟨w, found⟩ := Option.isSome_iff_exists.mp ok
  have built := toOptionOk found
  have selects : SelectsImports sortingOptions := ⟨_, _, rfl, rfl, by decide⟩
  have closes : Balanced "import é\nfrom a import 🎉".toList := (balancedIff _).mp (by decide)
  have short : byteLength "import é\nfrom a import 🎉".toList < UInt32.size - 1 := by decide
  obtain ⟨ordered, -, again⟩ := importsFixed selects built (by decide) short
  have later : inOrder "import é".toList "from a import 🎉".toList = false := by decide
  have swapped : sorted ["import é".toList, "from a import 🎉".toList] =
      ["from a import 🎉".toList, "import é".toList] := by
    rw [sorted, List.mergeSort]
    simpa [List.merge] using later
  have out : Pipeline.fixText w.engine "import é\nfrom a import 🎉" =
      "from a import 🎉\nimport é" := by
    obtain ⟨s, same, sorts⟩ := sampleBuilt selects built
    have block : head "import é\nfrom a import 🎉".toList =
        ["import é".toList, "from a import 🎉".toList] := by decide
    rw [same, ← String.toList_inj, fixSorts sorts (by decide) short (by decide), headSorted,
      block, swapped]
    decide
  rw [out] at ordered again
  exact ⟨w, built, ordered closes, again⟩

end NotebookTidy.Engine.Sample
