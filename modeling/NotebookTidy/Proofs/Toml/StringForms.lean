import NotebookTidy.Proofs.Toml.Quoting

/-! The form that a string takes when it is written, and how it is read in the place of a value and
of a key. In the place of a key only the forms of one line are read back. -/
namespace NotebookTidy.Toml

variable {text rest tail body : List Char} {c : Char}

theorem longestRunZero (c : Char) (text : List Char) : longestRun c text = 0 ↔ c ∉ text := by
  constructor
  · intro none mem
    obtain ⟨before, after, rfl⟩ := List.append_of_mem mem
    have counted := quoteRunLongest (c := c) (List.suffix_append before (c :: after))
    rw [quoteRunCons, if_pos rfl] at counted
    omega
  · intro absent
    have still (rest : List Char) (absent : c ∉ rest) :
        rest.foldl (runStep c) (0, 0) = (0, 0) := by
      induction rest with
      | nil => rfl
      | cons d more ih =>
        rw [List.mem_cons, not_or] at absent
        rw [List.foldl_cons, runStep, if_neg (Ne.symm absent.1)]
        exact ih absent.2
    exact congrArg Prod.fst (still text absent)

/-- A text that is written as a string of one line: without line feeds and, if it has single marks
beside double ones or backslashes, with something that no form of several lines can hold. -/
def OneLine (text : List Char) : Prop :=
  '\n' ∉ text ∧ (text.any isControl = true ∨ '\'' ∉ text ∨ ('\\' ∉ text ∧ '"' ∉ text) ∨
    (2 < longestRun '\'' text ∧ ('\\' ∈ text ∨ 2 < longestRun '"' text)))

instance (text : List Char) : Decidable (OneLine text) := inferInstanceAs (Decidable (_ ∧ _))

inductive Quoted (text : List Char) : List Char → Prop where
  | basic (line : OneLine text) : Quoted text (fenced ['"'] (escapedBody false 0 0 text))
  | literal (line : OneLine text) (clean : ∀ c ∈ text, isControl c = false ∧ c ≠ '\'') :
      Quoted text (fenced ['\''] text)
  | basicLines (lines : ¬ OneLine text) :
      Quoted text (fenced ['"', '"', '"'] (lead text ++ escapedBody true 2 0 text))
  | literalLines (lines : ¬ OneLine text) (clean : ∀ c ∈ text, needsEscape c = false)
      (few : longestRun '\'' text ≤ 2) :
      Quoted text (fenced ['\'', '\'', '\''] (lead text ++ text))

theorem escapeControls (flat : '\n' ∉ text) (mem : c ∈ text) : needsEscape c = isControl c := by
  have other : c ≠ '\n' := fun same => flat (same ▸ mem)
  simp [needsEscape, other]

theorem stringQuoted (text : List Char) : Quoted text (stringChars text) := by
  have double := longestRunZero '"' text
  have single := longestRunZero '\'' text
  have coded : text.any needsEscape = true ↔ ∃ c ∈ text, needsEscape c = true := List.any_eq_true
  have controls (flat : '\n' ∉ text) :
      (∃ c ∈ text, needsEscape c = true) ↔ text.any isControl = true := by
    rw [List.any_eq_true]
    exact exists_congr fun c => and_congr_right fun mem => by rw [escapeControls flat mem]
  unfold stringChars
  dsimp only
  split_ifs with basic literal lines literalLines feed <;>
    simp only [Bool.and_eq_true, Bool.not_eq_true', decide_eq_true_eq, List.contains_iff_mem,
      Bool.eq_false_iff, ne_eq, coded] at *
  · exact .basic (by unfold OneLine; grind)
  · refine .literal (by unfold OneLine; grind) fun c mem => ?_
    rw [← escapeControls literal.2 mem]
    grind
  · exact .basicLines (by unfold OneLine; grind)
  · exact .literalLines (by unfold OneLine; grind) (by grind) literalLines.2
  · exact .basicLines (by unfold OneLine; grind)
  · exact .basic (by unfold OneLine; grind)

/-! Reading any of them -/

theorem newlineOther (line : c ≠ '\n') (turn : c ≠ '\r') (rest : List Char) :
    newline? (c :: rest) = none := by
  unfold newline?
  split
  · rename_i same
    cases same
    exact absurd rfl line
  · rename_i same
    cases same
    exact absurd rfl turn
  · rfl

theorem openingDropped (fresh : '\n' ∉ text → newline? body = none) :
    afterOpening (lead text ++ body) = body := by
  unfold afterOpening lead
  split
  · rfl
  · rename_i flat
    rw [List.nil_append, fresh (by simpa using flat), Option.getD_none]

theorem linesFresh (flat : '\n' ∉ text) (tail : List Char) :
    newline? (escapedBody true 2 0 text ++ '"' :: tail) = none := by
  cases text with
  | nil => rfl
  | cons c rest =>
    by_cases mark : c = '"'
    · subst mark
      rfl
    · have line : c ≠ '\n' := fun same => flat (same ▸ List.mem_cons_self)
      rw [escapedBody, if_neg mark, if_neg (by simp [line])]
      cases escaped : escapeOf c with
      | none =>
        refine newlineOther line ?_ _
        rintro rfl
        exact absurd (escapeNone escaped).1 (by decide)
      | some body =>
        obtain ⟨more, rfl, -⟩ := escapesOf escaped
        rfl

theorem literalFresh (flat : '\n' ∉ text) (clean : ∀ c ∈ text, needsEscape c = false)
    (tail : List Char) : newline? (text ++ '\'' :: tail) = none := by
  cases text with
  | nil => rfl
  | cons c rest =>
    refine newlineOther (fun same => flat (same ▸ List.mem_cons_self)) ?_ _
    rintro rfl
    exact absurd (clean _ List.mem_cons_self) (by decide)

theorem anyBasic (few : quoteRun '"' rest ≤ 1) : anyString ('"' :: rest) = basicString rest := by
  unfold anyString
  split
  · rename_i same
    cases same
    rw [quoteRunCons, quoteRunCons, if_pos rfl, if_pos rfl] at few
    omega
  · rename_i same
    cases same
  · rename_i same
    cases same
    rfl
  · rename_i same
    cases same
  · rename_i no _
    exact absurd rfl (no rest)

theorem anyLiteral (few : quoteRun '\'' rest ≤ 1) :
    anyString ('\'' :: rest) = literalString rest := by
  unfold anyString
  split
  · rename_i same
    cases same
  · rename_i same
    cases same
    rw [quoteRunCons, quoteRunCons, if_pos rfl, if_pos rfl] at few
    omega
  · rename_i same
    cases same
  · rename_i same
    cases same
    rfl
  · rename_i no
    exact absurd rfl (no rest)

theorem basicOpens (stop : ∀ c ∈ tail.head?, c ≠ '"') (text : List Char) :
    quoteRun '"' (escapedBody false 0 0 text ++ '"' :: tail) ≤ 1 := by
  cases text with
  | nil => rw [escapedBody, List.nil_append, quoteRunCons, if_pos rfl, quoteRunStop stop]
  | cons c rest =>
    rw [escapedBody]
    split
    · exact Nat.zero_le _
    · rename_i mark
      rw [if_neg (by simp), List.append_assoc, writtenHead mark]
      exact Nat.zero_le _

theorem literalOpens (stop : ∀ c ∈ tail.head?, c ≠ '\'') (clean : '\'' ∉ text) :
    quoteRun '\'' (text ++ '\'' :: tail) ≤ 1 := by
  cases text with
  | nil => rw [List.nil_append, quoteRunCons, if_pos rfl, quoteRunStop stop]
  | cons c rest =>
    have other : c ≠ '\'' := fun same => clean (same ▸ List.mem_cons_self)
    rw [List.cons_append, quoteRunCons, if_neg other]
    exact Nat.zero_le _

/-- What stands behind a string does not go on with its marks. -/
def Unmarked (tail : List Char) : Prop := ∀ c ∈ tail.head?, c ≠ '"' ∧ c ≠ '\''

theorem anyStringRead (text : List Char) (unmarked : Unmarked tail) :
    anyString (stringChars text ++ tail) = some (text, tail) := by
  have double : ∀ c ∈ tail.head?, c ≠ '"' := fun c mem => (unmarked c mem).1
  have single : ∀ c ∈ tail.head?, c ≠ '\'' := fun c mem => (unmarked c mem).2
  have quoted := stringQuoted text
  generalize stringChars text = chars at quoted
  cases quoted <;>
    simp only [fenced, List.append_assoc, List.cons_append, List.nil_append]
  case basic => rw [anyBasic (basicOpens double text), basicRead]
  case literal line clean =>
    have absent : '\'' ∉ text := fun mem => (clean _ mem).2 rfl
    rw [anyLiteral (literalOpens single absent), literalRead clean]
  case basicLines =>
    rw [anyString, openingDropped fun flat => linesFresh flat _]
    exact basicLinesRead double (Nat.zero_le 2) text
  case literalLines lines clean few =>
    rw [anyString, openingDropped fun flat => literalFresh flat clean _]
    exact literalLinesRead single clean fun part suffix =>
      le_trans (quoteRunLongest suffix) few

theorem stringMarked (text : List Char) :
    ∃ mark rest, stringChars text = mark :: rest ∧ (mark = '"' ∨ mark = '\'') := by
  have quoted := stringQuoted text
  generalize stringChars text = chars at quoted
  cases quoted with
  | basic => exact ⟨_, _, rfl, .inl rfl⟩
  | literal => exact ⟨_, _, rfl, .inr rfl⟩
  | basicLines => exact ⟨_, _, rfl, .inl rfl⟩
  | literalLines => exact ⟨_, _, rfl, .inr rfl⟩

theorem scalarString (text : List Char) (unmarked : Unmarked tail) :
    scalar (stringChars text ++ tail) = some (.string (String.ofList text), tail) := by
  have read := anyStringRead text unmarked
  obtain ⟨mark, rest, same, either⟩ := stringMarked text
  rw [same, List.cons_append] at read ⊢
  obtain rfl | rfl := either <;> rw [scalar, read, Option.map_some]

/-! Keys -/

theorem basicKey (text tail : List Char) :
    simpleKey (fenced ['"'] (escapedBody false 0 0 text) ++ tail) =
      some (String.ofList text, tail) := by
  simp only [fenced, List.append_assoc, List.cons_append, List.nil_append, simpleKey, basicRead,
    Option.map_some]

theorem literalKey (clean : ∀ c ∈ text, isControl c = false ∧ c ≠ '\'') (tail : List Char) :
    simpleKey (fenced ['\''] text ++ tail) = some (String.ofList text, tail) := by
  simp only [fenced, List.append_assoc, List.cons_append, List.nil_append, simpleKey,
    literalRead clean, Option.map_some]

theorem bareKey (filled : text ≠ []) (bare : text.all isBare = true)
    (stop : ∀ c ∈ tail.head?, isBare c = false) :
    simpleKey (text ++ tail) = some (String.ofList text, tail) := by
  have all : ∀ c ∈ text, isBare c = true := List.all_eq_true.mp bare
  obtain ⟨taken, left⟩ := spanRead all stop
  obtain ⟨c, more, rfl⟩ := List.exists_cons_of_ne_nil filled
  have first := all c List.mem_cons_self
  unfold simpleKey
  split
  · rename_i same
    cases same
    exact absurd first (by decide)
  · rename_i same
    cases same
    exact absurd first (by decide)
  · rw [taken, left]
    rfl

theorem keyRead (key : String) (stop : ∀ c ∈ tail.head?, isBare c = false) :
    simpleKey (keyChars key ++ tail) = some (key, tail) := by
  have basic := basicKey key.toList tail
  rw [String.ofList_toList] at basic
  unfold keyChars
  dsimp only
  split_ifs with bare double single
  · simp only [Bool.and_eq_true, Bool.not_eq_true', List.isEmpty_eq_false_iff] at bare
    have read := bareKey bare.1 bare.2 stop
    rwa [String.ofList_toList] at read
  · exact basic
  · have clean : ∀ c ∈ key.toList, isControl c = false ∧ c ≠ '\'' := by
      simp only [Bool.and_eq_true, Bool.not_eq_true', List.any_eq_false, List.contains_eq_mem,
        decide_eq_false_iff_not, Bool.not_eq_true] at single
      exact fun c mem => ⟨single.1 c mem, fun same => single.2 (same ▸ mem)⟩
    have read := literalKey clean tail
    rwa [String.ofList_toList] at read
  · exact basic

/-! A string in the place of a key -/

theorem stringKey (line : OneLine text) (tail : List Char) :
    simpleKey (stringChars text ++ tail) = some (String.ofList text, tail) := by
  have quoted := stringQuoted text
  generalize stringChars text = chars at quoted
  cases quoted with
  | basic _ => exact basicKey text tail
  | literal _ clean => exact literalKey clean tail
  | basicLines lines => exact absurd line lines
  | literalLines lines => exact absurd line lines

/-- The first two marks are an empty key. -/
theorem linesKey (lines : ¬ OneLine text) (tail : List Char) :
    ∃ mark more, (mark = '"' ∨ mark = '\'') ∧
      simpleKey (stringChars text ++ tail) = some ("", mark :: more) := by
  have quoted := stringQuoted text
  generalize stringChars text = chars at quoted
  cases quoted with
  | basic line => exact absurd line lines
  | literal line => exact absurd line lines
  | basicLines =>
    have empty (rest : List Char) : simpleKey ('"' :: '"' :: rest) = some ("", rest) := by
      rw [simpleKey, basicString, if_pos rfl]
      rfl
    exact ⟨'"', _, .inl rfl, empty _⟩
  | literalLines => exact ⟨'\'', _, .inr rfl, rfl⟩

end NotebookTidy.Toml
