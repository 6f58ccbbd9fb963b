import Mathlib.Data.List.DropRight
import NotebookTidy.Engine.Sample

/-! What the sample engine strips from the end of lines and of a text. The spaces at the head of a
line are rescaled before the rest of it is trimmed, so a blank line that begins with a space keeps
spaces. Such lines apart, no line ends in a blank, and the text is closed by one line feed. All this
is for texts whose indentation the machine can count, and has room for. -/
namespace NotebookTidy.Engine.Sample
open Text (byteLength isBlank joined joinedAppend linePlain lines segments segmentsJoined trimEnd)

/-! Parentheses -/

/-- No beginning closes more parentheses than it opens, and in the end all are closed. -/
def Balanced (text : List Char) : Prop :=
  (∀ before, before <+: text → before.count ')' ≤ before.count '(') ∧
    text.count ')' = text.count '('

theorem balancedFromIff (depth : Nat) (text : List Char) : balancedFrom depth text = true ↔
    (∀ before, before <+: text → before.count ')' ≤ depth + before.count '(') ∧
      text.count ')' = depth + text.count '(' := by
  induction text generalizing depth with
  | nil => simp [balancedFrom, eq_comm]
  | cons c rest ih =>
    have beginnings : (∀ before, before <+: c :: rest →
        before.count ')' ≤ depth + before.count '(') ↔ ∀ before, before <+: rest →
          (c :: before).count ')' ≤ depth + (c :: before).count '(' := by
      constructor
      · exact fun all before begins => all _ (List.cons_prefix_cons.mpr ⟨rfl, begins⟩)
      · intro all before begins
        cases before with
        | nil => simp
        | cons d more =>
          obtain ⟨rfl, inner⟩ := List.cons_prefix_cons.mp begins
          exact all more inner
    rw [beginnings]
    by_cases opens : c = '('
    · subst opens
      have step : balancedFrom depth ('(' :: rest) = balancedFrom (depth + 1) rest := rfl
      simp only [step, ih, List.count_cons_self, List.count_cons_of_ne (by decide : '(' ≠ ')'),
        Nat.add_right_comm depth 1, Nat.add_assoc]
    by_cases closes : c = ')'
    · subst closes
      cases depth with
      | zero =>
        have step : balancedFrom 0 (')' :: rest) = false := rfl
        simp only [step, Bool.false_eq_true, false_iff, not_and]
        intro all
        have first := all [] List.nil_prefix
        simp at first
      | succ depth =>
        have step : balancedFrom (depth + 1) (')' :: rest) = balancedFrom depth rest := rfl
        simp only [step, ih, List.count_cons_self, List.count_cons_of_ne (by decide : ')' ≠ '('),
          Nat.add_right_comm depth 1, Nat.add_le_add_iff_right, Nat.add_right_cancel_iff]
    · have step : balancedFrom depth (c :: rest) = balancedFrom depth rest := by
        rw [balancedFrom.eq_def]
        simp only [if_neg opens, if_neg closes]
      simp only [step, ih, List.count_cons_of_ne opens, List.count_cons_of_ne closes]

theorem balancedIff (text : List Char) : balanced text = true ↔ Balanced text := by
  have whole := balancedFromIff 0 text
  simp only [Nat.zero_add] at whole
  exact whole

/-! Lines -/

/-- A blank line that begins with a space. -/
def Hollow (line : List Char) : Prop := line.head? = some ' ' ∧ ∀ c ∈ line, isBlank c = true
instance (line) : Decidable (Hollow line) :=
  decidable_of_iff (line.head? = some ' ' ∧ line.all isBlank = true) (by simp [Hollow])

/-- A line whose last character is no blank. -/
def Ended (line : List Char) : Prop := ∃ c ∈ line.getLast?, isBlank c = false

theorem trimEndBlank {line : List Char} (blank : ∀ c ∈ line, isBlank c = true) :
    trimEnd line = [] :=
  List.rdropWhile_eq_nil_iff.mpr blank

theorem trimEndEnded {line : List Char} (other : ∃ c ∈ line, isBlank c = false) :
    Ended (trimEnd line) := by
  have filled : line.rdropWhile isBlank ≠ [] := by
    obtain ⟨c, mem, dark⟩ := other
    exact fun nothing => Bool.false_ne_true
      (dark.symm.trans (List.rdropWhile_eq_nil_iff.mp nothing c mem))
  exact ⟨_, List.getLast?_eq_some_getLast filled,
    Bool.not_eq_true _ ▸ List.rdropWhile_last_not isBlank line filled⟩

section shifted
variable {width : Width} {line : List Char}

/-- The spaces that a line begins with once it is rescaled, as a machine word has them. -/
def indentation (width : Width) (line : List Char) : Nat :=
  rescaled width (spaces line) % UInt64.size

def shifted (width : Width) (line : List Char) : List Char :=
  reindent (indentation width line) line

/-- A line with nothing but blanks, of which the spaces at its head stay. -/
def Kept (width : Width) (line : List Char) : Prop := Hollow line ∧ indentation width line ≠ 0

theorem spacesHollow (hollow : Hollow line) : 0 < spaces line := by
  cases line with
  | nil => cases hollow.1
  | cons c more =>
    cases hollow.1
    simp [spaces]

theorem spacesBare (bare : line.head? ≠ some ' ') :
    line.takeWhile (· = ' ') = [] ∧ line.dropWhile (· = ' ') = line := by
  cases line with
  | nil => exact ⟨rfl, rfl⟩
  | cons c more =>
    have other : decide (c = ' ') = false := decide_eq_false fun space => bare (congrArg some space)
    rw [List.takeWhile_cons, List.dropWhile_cons, other]
    exact ⟨rfl, rfl⟩

theorem rescaledPositive {count : Nat} (some_ : 0 < count) : 0 < rescaled width count := by
  -- Less than four spaces stay as they are, and four or more leave at least one width.
  have positive : 0 < width.val.toNat := width.property
  rw [rescaled]
  rcases Nat.eq_zero_or_pos (count / 4) with few | many
  · omega
  · exact Nat.add_pos_left (Nat.mul_pos many positive) _

theorem keptIff : Kept width line ↔
    Hollow line ∧ ¬ UInt64.size ∣ rescaled width (spaces line) := by
  rw [Kept, indentation, Nat.dvd_iff_mod_eq_zero]

theorem keptCounted (counted : rescaled width (spaces line) < UInt64.size) :
    Kept width line ↔ Hollow line := by
  rw [Kept, indentation, Nat.mod_eq_of_lt counted]
  exact and_iff_left_of_imp fun hollow => Nat.ne_of_gt (rescaledPositive (spacesHollow hollow))

theorem shiftedBlank (blank : ∀ c ∈ line, isBlank c = true) :
    shifted width line = List.replicate (indentation width line) ' ' := by
  have rest : trimEnd (line.dropWhile (· = ' ')) = [] :=
    trimEndBlank fun c mem => blank c (List.dropWhile_subset _ mem)
  rw [shifted, reindent, rest, List.append_nil]

theorem shiftedEnded (other : ∃ c ∈ line, isBlank c = false) : Ended (shifted width line) := by
  obtain ⟨c, mem, dark⟩ := other
  have inside : c ∈ line.dropWhile (· = ' ') := by
    rw [← List.takeWhile_append_dropWhile (p := (· = ' ')) (l := line)] at mem
    refine (List.mem_append.mp mem).resolve_left fun space => ?_
    rw [show c = ' ' by simpa using List.mem_takeWhile_imp space] at dark
    exact absurd dark (by decide)
  obtain ⟨last, ends, dark⟩ := trimEndEnded ⟨c, inside, dark⟩
  refine ⟨last, ?_, dark⟩
  rw [shifted, reindent, List.getLast?_append, ends]
  rfl

theorem shiftedPlain (plain : '\n' ∉ line) : '\n' ∉ shifted width line := by
  intro feed
  rcases List.mem_append.mp feed with space | rest
  · exact absurd (List.eq_of_mem_replicate space) (by decide)
  · have trimmed : trimEnd (line.dropWhile (· = ' ')) <+: line.dropWhile (· = ' ') :=
      List.rdropWhile_prefix isBlank _
    exact plain (List.dropWhile_subset _ (trimmed.subset rest))

theorem shiftedKept (kept : Kept width line) :
    ∃ n, shifted width line = List.replicate (n + 1) ' ' := by
  obtain ⟨n, count⟩ := Nat.exists_eq_succ_of_ne_zero kept.2
  exact ⟨n, by rw [shiftedBlank kept.1.2, count]⟩

theorem shiftedCases (width : Width) (line : List Char) :
    (Kept width line ∧ ∃ n, shifted width line = List.replicate (n + 1) ' ') ∨
      ¬ Kept width line ∧ (shifted width line = [] ∨ Ended (shifted width line)) := by
  by_cases kept : Kept width line
  · exact .inl ⟨kept, shiftedKept kept⟩
  · refine .inr ⟨kept, ?_⟩
    by_cases blank : ∀ c ∈ line, isBlank c = true
    · refine .inl ?_
      have nothing : indentation width line = 0 := by
        by_cases space : line.head? = some ' '
        · exact not_not.mp fun some_ => kept ⟨⟨space, blank⟩, some_⟩
        · simp [indentation, spaces, (spacesBare space).1, rescaled]
      rw [shiftedBlank blank, nothing]
      rfl
    · simp only [not_forall, Bool.not_eq_true] at blank
      obtain ⟨c, mem, dark⟩ := blank
      exact .inr (shiftedEnded ⟨c, mem, dark⟩)

end shifted

/-! Texts -/

section laid
variable {width : Width} {text : List Char}

/-- The lines that a text keeps: those behind the last one that is not empty are dropped. -/
def keptLines (width : Width) (text : List Char) : List (List Char) :=
  ((lines text).map (shifted width)).rdropWhile List.isEmpty

def laid (width : Width) (text : List Char) : List Char := closed ((lines text).map (shifted width))

theorem memKept {line : List Char} :
    line ∈ keptLines width text → ∃ source ∈ lines text, shifted width source = line :=
  fun mem => List.mem_map.mp ((List.rdropWhile_prefix List.isEmpty _).subset mem)

theorem keptFilled {source : List Char} (mem : source ∈ lines text)
    (filled : shifted width source ≠ []) : shifted width source ∈ keptLines width text := by
  have whole := List.rdropWhile_append_rtakeWhile (p := List.isEmpty)
    (l := (lines text).map (shifted width))
  have inside := List.mem_map_of_mem (f := shifted width) mem
  rw [← whole] at inside
  refine (List.mem_append.mp inside).resolve_right fun dropped => filled ?_
  exact List.isEmpty_iff.mp (List.mem_rtakeWhile_imp dropped)

theorem keptLast {last : List Char} {above : List (List Char)}
    (ends : keptLines width text = above ++ [last]) : last ≠ [] := by
  have filled : keptLines width text ≠ [] := by simp [ends]
  have stops : ¬ ((keptLines width text).getLast filled).isEmpty = true :=
    List.rdropWhile_last_not List.isEmpty _ filled
  simpa [ends] using stops

theorem laidRows (width : Width) (text : List Char) :
    segments '\n' (laid width text) = keptLines width text ++ [[]] := by
  have unfolded : laid width text = if (keptLines width text).isEmpty then [] else
      joined ['\n'] (keptLines width text) ++ ['\n'] := rfl
  rw [unfolded]
  by_cases nothing : keptLines width text = []
  · simp [nothing, segments]
  · have closed : joined ['\n'] (keptLines width text ++ [[]]) =
        joined ['\n'] (keptLines width text) ++ ['\n'] :=
      joinedAppend ['\n'] nothing (List.cons_ne_nil [] [])
    rw [if_neg (by simpa using nothing), ← closed, segmentsJoined (by simp)]
    intro line mem
    rcases List.mem_append.mp mem with kept | last
    · obtain ⟨source, inside, rfl⟩ := memKept kept
      exact shiftedPlain (linePlain inside)
    · rw [List.mem_singleton.mp last]
      exact List.not_mem_nil

/-- No line ends in a blank, and a text that is not empty ends in a line that is not blank and one
line feed. -/
structure Stripped (text : List Char) : Prop where
  ended : ∀ line ∈ segments '\n' text, ∀ c ∈ line.getLast?, isBlank c = false
  closed : text = [] ∨ ∃ above last, segments '\n' text = above ++ [last, []] ∧
    ∃ c ∈ last, isBlank c = false

/-- What holds even where spaces are kept: lines that end in a blank are all spaces, and a text that
is not empty ends in a line that is not empty and one line feed. -/
structure Spaced (text : List Char) : Prop where
  ended : ∀ line ∈ segments '\n' text, (∀ c ∈ line.getLast?, isBlank c = false) ∨
    ∃ n, line = List.replicate (n + 1) ' '
  closed : text = [] ∨ ∃ above last, segments '\n' text = above ++ [last, []] ∧ last ≠ []

theorem endedLine {line : List Char} (ended : line = [] ∨ Ended line) :
    ∀ c ∈ line.getLast?, isBlank c = false := by
  rcases ended with rfl | ⟨last, ends, dark⟩
  · exact fun c last => by cases last
  · intro c found
    cases Option.mem_unique ends found
    exact dark

theorem laidClosed (width : Width) (text : List Char) : laid width text = [] ∨
    ∃ above last, last ∈ keptLines width text ∧ last ≠ [] ∧
      segments '\n' (laid width text) = above ++ [last, []] := by
  have rows := laidRows width text
  rcases List.eq_nil_or_concat (keptLines width text) with none | ⟨above, last, ends⟩
  · refine .inl ?_
    have whole := Text.joinedSegments '\n' (laid width text)
    rw [rows, none] at whole
    exact whole.symm
  · rw [List.concat_eq_append] at ends
    exact .inr ⟨above, last, by simp [ends], keptLast ends, by simp [rows, ends]⟩

theorem laidLines {line : List Char} (mem : line ∈ segments '\n' (laid width text)) :
    line = [] ∨ ∃ source ∈ lines text, shifted width source = line := by
  rw [laidRows] at mem
  rcases List.mem_append.mp mem with kept | last
  · exact .inr (memKept kept)
  · exact .inl (List.mem_singleton.mp last)

theorem laidSpaced (width : Width) (text : List Char) : Spaced (laid width text) := by
  constructor
  · intro line mem
    rcases laidLines mem with rfl | ⟨source, -, rfl⟩
    · exact .inl (endedLine (.inl rfl))
    · exact (shiftedCases width source).symm.imp (endedLine ·.2) (·.2)
  · refine (laidClosed width text).imp_right ?_
    rintro ⟨above, last, -, filled, rows⟩
    exact ⟨above, last, rows, filled⟩

theorem laidStripped (width : Width) (text : List Char) :
    Stripped (laid width text) ↔ ∀ line ∈ lines text, ¬ Kept width line := by
  constructor
  · intro stripped line mem stays
    obtain ⟨n, spaces⟩ := shiftedKept stays
    have kept := keptFilled mem (by simp [spaces] : shifted width line ≠ [])
    have inside : shifted width line ∈ segments '\n' (laid width text) := by
      rw [laidRows]
      exact List.mem_append_left _ kept
    have last : ' ' ∈ (shifted width line).getLast? := by
      rw [spaces, List.replicate_succ', List.getLast?_concat]
      rfl
    exact absurd (stripped.ended _ inside ' ' last) (by decide)
  · intro none
    have ended {source : List Char} (mem : source ∈ lines text) :
        shifted width source = [] ∨ Ended (shifted width source) := by
      rcases shiftedCases width source with ⟨stays, -⟩ | ⟨-, ended⟩
      · exact absurd stays (none source mem)
      · exact ended
    constructor
    · intro line mem
      rcases laidLines mem with rfl | ⟨source, inside, rfl⟩
      · exact endedLine (.inl rfl)
      · exact endedLine (ended inside)
    · refine (laidClosed width text).imp_right ?_
      rintro ⟨above, last, kept, filled, rows⟩
      obtain ⟨source, inside, rfl⟩ := memKept kept
      obtain ⟨c, ends, dark⟩ := (ended inside).resolve_left filled
      exact ⟨above, _, rows, c, List.mem_of_getLast? ends, dark⟩

/-! Room -/

theorem byteLengthJoined {line : List Char} {all : List (List Char)} (mem : line ∈ all) :
    byteLength line ≤ byteLength (joined ['\n'] all) := by
  induction all with
  | nil => cases mem
  | cons first rest ih =>
    cases rest with
    | nil =>
      rw [List.mem_singleton.mp mem]
      exact Nat.le_refl _
    | cons next more =>
      rw [joined, Text.byteLengthAppend, Text.byteLengthAppend]
      · rcases List.mem_cons.mp mem with rfl | later
        · omega
        · have inside := ih later
          omega
      · exact List.cons_ne_nil next more

theorem byteLengthShifted {line : List Char} (mem : line ∈ lines text) :
    indentation width line ≤ byteLength (laid width text) := by
  have inside : indentation width line ≤ byteLength (shifted width line) := by
    rw [shifted, reindent, Text.byteLengthAppend]
    have spaces := Text.lengthLeByteLength (List.replicate (indentation width line) ' ')
    rw [List.length_replicate] at spaces
    omega
  refine Nat.le_trans inside ?_
  by_cases nothing : shifted width line = []
  · rw [nothing]
    exact Nat.zero_le _
  · have kept := keptFilled mem nothing
    have filled : ¬ (keptLines width text).isEmpty = true := fun empty => by
      rw [List.isEmpty_iff.mp empty] at kept
      cases kept
    have unfolded : laid width text = joined ['\n'] (keptLines width text) ++ ['\n'] :=
      if_neg filled
    rw [unfolded, Text.byteLengthAppend]
    exact Nat.le_trans (byteLengthJoined kept) (Nat.le_add_right _ _)

/-- The machine halts as it cannot count the spaces of a line, or has no room for the text. -/
def Overflows (o : Overflow) (width : Width) (text : List Char) : Prop :=
  (o = .halts ∧ ∃ line ∈ lines text, UInt64.size ≤ rescaled width (spaces line)) ∨
    textLimit ≤ byteLength (laid width text)

theorem reindentedSome {o : Overflow} {line out : List Char}
    (done : reindented o width line = some out) : out = shifted width line ∧
      ¬ (o = .halts ∧ UInt64.size ≤ rescaled width (spaces line)) := by
  obtain ⟨word, counted, done⟩ := Option.bind_eq_some_iff.mp done
  rw [Overflow.word] at counted
  split at counted
  · cases counted
  · rename_i fits
    cases counted
    split at done
    · cases done
    · cases done
      exact ⟨by rw [shifted, indentation, UInt64.toNat_ofNat'], fits⟩

theorem reindentedNone {o : Overflow} {line : List Char}
    (halted : reindented o width line = none) :
    (o = .halts ∧ UInt64.size ≤ rescaled width (spaces line)) ∨
      textLimit ≤ indentation width line := by
  rw [reindented, Overflow.word] at halted
  split at halted
  · rename_i large
    exact .inl large
  · refine .inr ?_
    rw [Option.bind_eq_bind, Option.bind_some] at halted
    split at halted
    · rename_i room
      rwa [UInt64.toNat_ofNat'] at room
    · cases halted

theorem rowsReindented (o : Overflow) (width : Width) (rows : List (List Char)) :
    (rows.mapM (reindented o width) = some (rows.map (shifted width)) ∧
      ∀ line ∈ rows, ¬ (o = .halts ∧ UInt64.size ≤ rescaled width (spaces line))) ∨
    (rows.mapM (reindented o width) = none ∧ ∃ line ∈ rows, reindented o width line = none) := by
  induction rows with
  | nil => exact .inl ⟨rfl, by simp⟩
  | cons line rest ih =>
    rw [List.mapM_cons]
    cases first : reindented o width line with
    | none => exact .inr ⟨rfl, line, List.mem_cons_self, first⟩
    | some out =>
      obtain ⟨rfl, fits⟩ := reindentedSome first
      rcases ih with ⟨others, fit⟩ | ⟨others, halting, mem, halted⟩
      · rw [others]
        exact .inl ⟨rfl, List.forall_mem_cons.mpr ⟨fits, fit⟩⟩
      · rw [others]
        exact .inr ⟨rfl, halting, List.mem_cons_of_mem _ mem, halted⟩

theorem formattedWhere (o : Overflow) (width : Width) (text : List Char) :
    (Overflows o width text ∧ formatted o width text = none) ∨
      (¬ Overflows o width text ∧ formatted o width text = some (laid width text)) := by
  rw [formatted]
  rcases rowsReindented o width (lines text) with ⟨rows, fit⟩ | ⟨rows, line, mem, halted⟩
  · rw [rows, Option.bind_eq_bind, Option.bind_some]
    by_cases full : textLimit ≤ byteLength (laid width text)
    · exact .inl ⟨.inr full, if_pos full⟩
    · refine .inr ⟨?_, if_neg full⟩
      rintro (⟨halts, line, mem, large⟩ | more)
      · exact fit line mem ⟨halts, large⟩
      · exact full more
  · rw [rows]
    refine .inl ⟨?_, rfl⟩
    rcases reindentedNone halted with ⟨halts, large⟩ | wide
    · exact .inl ⟨halts, line, mem, large⟩
    · exact .inr (Nat.le_trans wide (byteLengthShifted mem))

end laid

/-- A balanced text is formatted unless the machine cannot count its spaces or has no room for it.
Lines and the text then end as they should but for the spaces of blank lines, and those stay unless
they are as many as a machine word takes for none. -/
theorem formatStrips (o : Overflow) (s : Sample) {text : String} (closes : Balanced text.toList) :
    (s.format o text = none ↔ Overflows o s.indentWidth text.toList) ∧
    ∀ outcome, s.format o text = some outcome → ∃ out, outcome = .ok out ∧ Spaced out.toList ∧
      (Stripped out.toList ↔ ∀ line ∈ lines text.toList, Hollow line →
        UInt64.size ∣ rescaled s.indentWidth (spaces line)) ∧
      ((o = .halts ∨ ∀ line ∈ lines text.toList,
          rescaled s.indentWidth (spaces line) < UInt64.size) →
        (Stripped out.toList ↔ ∀ line ∈ lines text.toList, ¬ Hollow line)) := by
  have unfolded : s.format o text =
      (formatted o s.indentWidth text.toList).map fun out => .ok (String.ofList out) := by
    rw [format, if_pos ((balancedIff _).mpr closes)]
  rcases formattedWhere o s.indentWidth text.toList with ⟨overflows, halted⟩ | ⟨fits, done⟩
  · rw [unfolded, halted]
    exact ⟨iff_of_true rfl overflows, fun outcome none => by cases none⟩
  · rw [unfolded, done]
    refine ⟨iff_of_false nofun fits, fun outcome is => ?_⟩
    cases is
    have stripped := laidStripped s.indentWidth text.toList
    refine ⟨_, rfl, ?_⟩
    rw [String.toList_ofList, stripped]
    refine ⟨laidSpaced _ _, ?_, fun counted => ?_⟩
    · refine forall₂_congr fun line _ => ?_
      rw [keptIff, not_and, not_not]
    · have small : ∀ line ∈ lines text.toList,
          rescaled s.indentWidth (spaces line) < UInt64.size := by
        refine counted.elim (fun halts line mem => ?_) id
        exact Nat.lt_of_not_le fun large => fits (.inl ⟨halts, line, mem, large⟩)
      exact forall₂_congr fun line mem => not_congr (keptCounted (small line mem))

theorem formatStripsNarrow : Stripped "f(\n  x)\n".toList := by
  have closes : Balanced "f(\n    x) \n\t\n\n".toList := (balancedIff _).mp (by decide)
  obtain ⟨-, done⟩ := formatStrips .halts ⟨⟨2, by decide⟩, false, .utf8⟩ closes
  obtain ⟨out, same, -, -, stripped⟩ := done (.ok "f(\n  x)\n") (by decide)
  cases same
  exact (stripped (.inl rfl)).mpr (by decide)

/-- The spaces of a blank line stay, and a width that is too large for a machine word gives no text
at all. -/
theorem spacesStay : Balanced "x\n   \ny\n".toList ∧
    (⟨⟨4, by decide⟩, false, .utf8⟩ : Sample).format .halts "x\n   \ny\n" =
      some (.ok "x\n   \ny\n") ∧
    ¬ Stripped "x\n   \ny\n".toList ∧
    (⟨⟨0x4000000000000000, by decide⟩, false, .utf8⟩ : Sample).format .halts
      "                x\n" = none := by
  refine ⟨(balancedIff _).mp (by decide), by decide, fun stripped => ?_, by decide +kernel⟩
  exact absurd (stripped.ended "   ".toList (by decide) ' ' (by decide)) (by decide)

end NotebookTidy.Engine.Sample
