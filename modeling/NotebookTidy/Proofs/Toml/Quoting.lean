import Mathlib.Data.List.Infix
import NotebookTidy.Toml.Printer
import NotebookTidy.Toml.Reader

/-! Text between marks is read as it was, in each of the four forms: with escapes or without, on one
line or on several. -/
namespace NotebookTidy.Toml

variable {text rest tail body : List Char} {c quote : Char}

theorem spanRead {p : Char → Bool} (all : ∀ c ∈ text, p c = true)
    (stop : ∀ c ∈ tail.head?, p c = false) :
    (text ++ tail).takeWhile p = text ∧ (text ++ tail).dropWhile p = tail := by
  have ends : tail.takeWhile p = [] ∧ tail.dropWhile p = tail := by
    cases tail with
    | nil => exact ⟨rfl, rfl⟩
    | cons c more => simp [stop c rfl]
  rw [List.takeWhile_append_of_pos all, List.dropWhile_append_of_pos all, ends.1, ends.2,
    List.append_nil]
  exact ⟨rfl, rfl⟩

/-! Escapes -/

/-- What follows a backslash and stands for one character. -/
structure Escapes (c : Char) (body : List Char) : Prop where
  joins : ∀ rest, lineContinuation? (body ++ rest) = none
  spells : ∀ rest, escape? (body ++ rest) = some (c, body.length)

theorem codeDigits : ∀ n < 0x80,
    let code := (Nat.toDigits 16 n).map Char.toUpper
    let digits := List.replicate (4 - code.length) '0' ++ code
    digits.length = 4 ∧
      digits.foldlM (fun n c => (hexDigit? c).map (16 * n + ·)) 0 = some n := by
  decide +kernel

theorem controlLow (control : isControl c = true) : c.toNat < 0x80 := by
  simp only [isControl, Bool.or_eq_true, Bool.and_eq_true, decide_eq_true_eq] at control
  omega

theorem codePointRead {digits : List Char} (rest : List Char)
    (spelled : digits.foldlM (fun n c => (hexDigit? c).map (16 * n + ·)) 0 = some c.toNat) :
    codePoint? digits.length (digits ++ rest) = some c := by
  have valid : c.toNat.isValidChar := c.valid
  have same : Char.ofNatAux c.toNat valid = c := Char.ext rfl
  rw [codePoint?, List.take_left, if_neg (lt_irrefl _), spelled, Option.bind_eq_bind,
    Option.bind_some, dif_pos valid, same]

theorem escapesCode {digits : List Char} (four : digits.length = 4)
    (spelled : digits.foldlM (fun n c => (hexDigit? c).map (16 * n + ·)) 0 = some c.toNat) :
    Escapes c ('u' :: digits) where
  joins _ := rfl
  spells rest := by
    have read := codePointRead rest spelled
    rw [four] at read
    rw [List.cons_append, escape?, read, List.length_cons, four]
    rfl

theorem escapesOf (escaped : escapeOf c = some body) : ∃ more, body = '\\' :: more ∧
    Escapes c more := by
  unfold escapeOf at escaped
  split_ifs at escaped with back tab line form return_ slash control
  · subst back
    exact ⟨_, (Option.some.inj escaped).symm, fun _ => rfl, fun _ => rfl⟩
  · subst tab
    exact ⟨_, (Option.some.inj escaped).symm, fun _ => rfl, fun _ => rfl⟩
  · subst line
    exact ⟨_, (Option.some.inj escaped).symm, fun _ => rfl, fun _ => rfl⟩
  · subst form
    exact ⟨_, (Option.some.inj escaped).symm, fun _ => rfl, fun _ => rfl⟩
  · subst return_
    exact ⟨_, (Option.some.inj escaped).symm, fun _ => rfl, fun _ => rfl⟩
  · subst slash
    exact ⟨_, (Option.some.inj escaped).symm, fun _ => rfl, fun _ => rfl⟩
  · obtain ⟨four, spelled⟩ := codeDigits c.toNat (controlLow control)
    exact ⟨'u' :: _, (Option.some.inj escaped).symm, escapesCode four spelled⟩

theorem escapeNone (plain : escapeOf c = none) : isControl c = false ∧ c ≠ '\\' := by
  unfold escapeOf at plain
  split_ifs at plain with _ _ _ _ _ slash control
  exact ⟨Bool.eq_false_iff.mpr control, slash⟩

/-! Between single marks on one line -/

theorem basicWritten (mark : c ≠ '"') (rest : List Char) :
    basicString ((escapeOf c).getD [c] ++ rest) = put c (basicString rest) := by
  cases escaped : escapeOf c with
  | none =>
    obtain ⟨plain, slash⟩ := escapeNone escaped
    rw [Option.getD_none, List.singleton_append, basicString, if_neg mark, if_neg slash,
      if_neg (Bool.eq_false_iff.mp plain)]
  | some body =>
    obtain ⟨more, rfl, escapes⟩ := escapesOf escaped
    rw [Option.getD_some, List.cons_append, basicString, if_neg (by decide), if_pos rfl,
      escapes.spells]
    dsimp only
    rw [List.drop_left]

theorem basicRead (run : Nat) (text tail : List Char) :
    basicString (escapedBody false 0 run text ++ '"' :: tail) = some (text, tail) := by
  induction text generalizing run with
  | nil => rw [escapedBody, List.nil_append, basicString, if_pos rfl]
  | cons c rest ih =>
    by_cases mark : c = '"'
    · subst mark
      rw [escapedBody, if_pos rfl, if_pos (Nat.zero_le _), List.cons_append, basicString,
        if_neg (by decide), if_pos rfl, List.cons_append, escape?]
      exact congrArg (put _) (ih 0)
    · rw [escapedBody, if_neg mark, if_neg (by simp), List.append_assoc, basicWritten mark, ih]
      rfl

theorem literalRead (clean : ∀ c ∈ text, isControl c = false ∧ c ≠ '\'') (tail : List Char) :
    literalString (text ++ '\'' :: tail) = some (text, tail) := by
  induction text with
  | nil => rfl
  | cons c rest ih =>
    obtain ⟨⟨plain, mark⟩, others⟩ := List.forall_mem_cons.mp clean
    rw [List.cons_append, literalString, if_neg mark, if_neg (Bool.eq_false_iff.mp plain),
      ih others]
    rfl

/-! Runs of quotes -/

theorem quoteRunCons (quote c : Char) (rest : List Char) :
    quoteRun quote (c :: rest) = if c = quote then quoteRun quote rest + 1 else 0 := by
  unfold quoteRun
  rw [List.takeWhile_cons]
  by_cases here : c = quote <;> simp [here]

theorem quoteRunAll (all : ∀ c ∈ text, c = quote) (rest : List Char) :
    quoteRun quote (text ++ rest) = text.length + quoteRun quote rest := by
  induction text with
  | nil => rw [List.nil_append, List.length_nil, Nat.zero_add]
  | cons c more ih =>
    obtain ⟨here, others⟩ := List.forall_mem_cons.mp all
    rw [List.cons_append, quoteRunCons, if_pos here, ih others, List.length_cons]
    omega

theorem quoteRunOther (other : ¬ ∀ c ∈ text, c = quote) (rest : List Char) :
    quoteRun quote (text ++ rest) = quoteRun quote text := by
  induction text with
  | nil => exact absurd (List.forall_mem_nil _) other
  | cons c more ih =>
    rw [List.forall_mem_cons, not_and] at other
    rw [List.cons_append, quoteRunCons, quoteRunCons]
    split
    · rename_i here
      rw [ih (other here)]
    · rfl

def runStep (c : Char) (seen : Nat × Nat) (d : Char) : Nat × Nat :=
  if d = c then (max seen.1 (seen.2 + 1), seen.2 + 1) else (seen.1, 0)

theorem runStepBest (c d : Char) (seen : Nat × Nat) : seen.1 ≤ (runStep c seen d).1 := by
  unfold runStep
  split
  · exact le_max_left ..
  · exact le_rfl

theorem runStepBound (c d : Char) (seen : Nat × Nat) :
    (runStep c seen d).2 ≤ (runStep c seen d).1 := by
  unfold runStep
  split
  · exact le_max_right ..
  · exact Nat.zero_le _

theorem runBest (c : Char) (text : List Char) (seen : Nat × Nat) :
    seen.1 ≤ (text.foldl (runStep c) seen).1 := by
  induction text generalizing seen with
  | nil => exact le_rfl
  | cons d rest ih => exact le_trans (runStepBest c d seen) (ih _)

theorem runBound (c : Char) (text : List Char) {seen : Nat × Nat} (bound : seen.2 ≤ seen.1) :
    (text.foldl (runStep c) seen).2 ≤ (text.foldl (runStep c) seen).1 := by
  induction text generalizing seen with
  | nil => exact bound
  | cons d rest ih => exact ih (runStepBound c d seen)

theorem runCounted (c : Char) (text : List Char) {seen : Nat × Nat} (bound : seen.2 ≤ seen.1) :
    seen.2 + quoteRun c text ≤ (text.foldl (runStep c) seen).1 := by
  induction text generalizing seen with
  | nil => exact bound
  | cons d rest ih =>
    have later := ih (runStepBound c d seen)
    have best := runBest c (d :: rest) seen
    rw [quoteRunCons]
    split
    · rename_i here
      rw [runStep, if_pos here] at later
      rw [List.foldl_cons, runStep, if_pos here]
      omega
    · omega

theorem quoteRunLongest {c : Char} {part text : List Char} (suffix : part <:+ text) :
    quoteRun c part ≤ longestRun c text := by
  obtain ⟨before, rfl⟩ := suffix
  have start : ((0, 0) : Nat × Nat).2 ≤ ((0, 0) : Nat × Nat).1 := Nat.le_refl 0
  have counted := runCounted c part (runBound c before start)
  rw [← List.foldl_append] at counted
  exact le_trans (Nat.le_add_left _ _) counted

theorem quoteRunStop (stop : ∀ c ∈ tail.head?, c ≠ quote) : quoteRun quote tail = 0 := by
  cases tail with
  | nil => rfl
  | cons c more => rw [quoteRunCons, if_neg (stop c rfl)]

section lines
variable (stop : ∀ c ∈ tail.head?, c ≠ quote)
include stop

theorem closingRun (all : ∀ c ∈ text, c = quote) :
    quoteRun quote (text ++ (quote :: quote :: quote :: tail)) = text.length + 3 := by
  rw [quoteRunAll all, quoteRunCons, quoteRunCons, quoteRunCons, if_pos rfl, if_pos rfl,
    if_pos rfl, quoteRunStop stop]

theorem closingAll (all : ∀ c ∈ text, c = quote) (few : text.length ≤ 2) :
    closing quote (text ++ (quote :: quote :: quote :: tail)) = (text, tail) := by
  have whole : text ++ (quote :: quote :: quote :: tail) =
      (text ++ [quote, quote, quote]) ++ tail := by
    rw [List.append_assoc]
    rfl
  have size : (text ++ [quote, quote, quote]).length = text.length + 3 := by simp
  have filled : List.replicate text.length quote = text :=
    (List.eq_replicate_of_mem all).symm
  rw [closing, closingRun stop all, Nat.add_sub_cancel, min_eq_left few, min_eq_left (by omega),
    filled, whole, ← size, List.drop_left]

omit stop in
theorem quotesHead (all : ∀ c ∈ text, c = quote) (tail : List Char) :
    ∃ more, text ++ (quote :: quote :: quote :: tail) = quote :: more := by
  cases text with
  | nil => exact ⟨_, rfl⟩
  | cons c rest =>
    cases all c List.mem_cons_self
    exact ⟨_, rfl⟩

end lines

theorem literalLinesClosed (stop : ∀ c ∈ tail.head?, c ≠ '\'') (all : ∀ c ∈ text, c = '\'')
    (few : text.length ≤ 2) :
    multilineLiteral (text ++ '\'' :: '\'' :: '\'' :: tail) = some (text, tail) := by
  have run := closingRun stop all
  have closed := closingAll stop all few
  obtain ⟨more, same⟩ := quotesHead all tail
  rw [same] at run closed ⊢
  rw [multilineLiteral, if_pos (by simp [run]), closed]
  rintro _ ⟨⟩

theorem literalLinesRead (stop : ∀ c ∈ tail.head?, c ≠ '\'')
    (clean : ∀ c ∈ text, needsEscape c = false)
    (few : ∀ part, part <:+ text → quoteRun '\'' part ≤ 2) :
    multilineLiteral (text ++ '\'' :: '\'' :: '\'' :: tail) = some (text, tail) := by
  induction text with
  | nil => exact literalLinesClosed stop (by simp) (by simp)
  | cons c rest ih =>
    -- Marks that end the text run into the closing ones, which the reader takes together.
    by_cases all : ∀ d ∈ c :: rest, d = '\''
    · refine literalLinesClosed stop all ?_
      have short := few (c :: rest) List.suffix_rfl
      rwa [← List.append_nil (c :: rest), quoteRunAll all] at short
    · obtain ⟨plain, others⟩ := List.forall_mem_cons.mp clean
      have read := ih others fun part suffix => few part (suffix.trans (List.suffix_cons c rest))
      have short : ¬ 3 ≤ quoteRun '\'' (c :: (rest ++ '\'' :: '\'' :: '\'' :: tail)) := by
        rw [← List.cons_append, quoteRunOther all]
        exact Nat.not_le_of_lt (Nat.lt_succ_of_le (few _ List.suffix_rfl))
      rw [List.cons_append, multilineLiteral, if_neg (by simp [short]), read]
      · by_cases line : c = '\n'
        · rw [if_pos line]
          rfl
        · have inside : isControl c = false := by simpa [needsEscape, line] using plain
          rw [if_neg line, if_neg (Bool.eq_false_iff.mp inside)]
          rfl
      · rintro _ rfl
        exact absurd plain (by decide)

/-! One step of the reader between three double marks -/

theorem linesEnd (many : 3 ≤ quoteRun '"' ('"' :: rest)) :
    multilineBasic ('"' :: rest) = some (closing '"' ('"' :: rest)) := by
  rw [multilineBasic.eq_def]
  exact if_pos (by simp [many])

theorem linesQuote (few : quoteRun '"' ('"' :: rest) ≤ 2) :
    multilineBasic ('"' :: rest) = put '"' (multilineBasic rest) := by
  rw [multilineBasic.eq_def]
  exact if_neg (by simp; omega)

theorem linesFeed (rest : List Char) :
    multilineBasic ('\n' :: rest) = put '\n' (multilineBasic rest) := by
  rw [multilineBasic.eq_def]
  rfl

theorem linesEscaped (escapes : Escapes c body) (rest : List Char) :
    multilineBasic ('\\' :: (body ++ rest)) = put c (multilineBasic rest) := by
  rw [multilineBasic.eq_def]
  dsimp only
  rw [if_neg (by simp), if_pos rfl, escapes.joins, escapes.spells]
  dsimp only
  rw [List.drop_left]

theorem linesPlain (mark : c ≠ '"') (slash : c ≠ '\\') (plain : isControl c = false)
    (rest : List Char) : multilineBasic (c :: rest) = put c (multilineBasic rest) := by
  have line : c ≠ '\n' := by
    rintro rfl
    cases plain
  have turn : c ≠ '\r' := by
    rintro rfl
    cases plain
  rw [multilineBasic.eq_def]
  dsimp only
  rw [if_neg (by simp [mark]), if_neg slash, if_neg line, if_neg turn,
    if_neg (Bool.eq_false_iff.mp plain)]

theorem linesWritten (mark : c ≠ '"') (rest : List Char) :
    multilineBasic ((escapeOf c).getD [c] ++ rest) = put c (multilineBasic rest) := by
  cases escaped : escapeOf c with
  | none =>
    obtain ⟨plain, slash⟩ := escapeNone escaped
    exact linesPlain mark slash plain rest
  | some body =>
    obtain ⟨more, rfl, escapes⟩ := escapesOf escaped
    exact linesEscaped escapes rest

theorem basicLinesClosed (stop : ∀ c ∈ tail.head?, c ≠ '"') (all : ∀ c ∈ text, c = '"')
    (few : text.length ≤ 2) :
    multilineBasic (text ++ '"' :: '"' :: '"' :: tail) = some (text, tail) := by
  have run := closingRun stop all
  have closed := closingAll stop all few
  obtain ⟨more, same⟩ := quotesHead all tail
  rw [same] at run closed ⊢
  rw [linesEnd (by omega), closed]

theorem writtenHead (mark : c ≠ '"') (rest : List Char) :
    quoteRun '"' ((escapeOf c).getD [c] ++ rest) = 0 := by
  cases escaped : escapeOf c with
  | none => rw [Option.getD_none, List.singleton_append, quoteRunCons, if_neg mark]
  | some body =>
    obtain ⟨more, rfl, -⟩ := escapesOf escaped
    rw [Option.getD_some, List.cons_append, quoteRunCons, if_neg (by decide)]

/-- Of quotes in a row no more than two are written as they are, unless they end the text. -/
theorem bodyQuotes {run : Nat} (bound : run ≤ 2) (text : List Char) :
    ((∀ c ∈ text, c = '"') ∧ run + text.length ≤ 2 ∧ escapedBody true 2 run text = text) ∨
      ∀ rest, run + quoteRun '"' (escapedBody true 2 run text ++ rest) ≤ 2 := by
  induction text generalizing run with
  | nil => exact .inl ⟨by simp, bound, rfl⟩
  | cons c rest ih =>
    by_cases mark : c = '"'
    · subst mark
      rw [escapedBody, if_pos rfl]
      by_cases room : 2 ≤ run
      · refine .inr fun more => ?_
        rw [if_pos room, List.cons_append, quoteRunCons, if_neg (by decide)]
        exact bound
      · rw [if_neg room]
        rcases ih (show run + 1 ≤ 2 by omega) with ⟨all, few, same⟩ | few
        · rw [same]
          exact .inl ⟨List.forall_mem_cons.mpr ⟨rfl, all⟩, by rw [List.length_cons]; omega, rfl⟩
        · refine .inr fun more => ?_
          have short := few more
          rw [List.cons_append, quoteRunCons, if_pos rfl]
          omega
    · refine .inr fun more => ?_
      rw [escapedBody, if_neg mark]
      split
      · rwa [List.cons_append, quoteRunCons, if_neg mark]
      · rwa [List.append_assoc, writtenHead mark]

theorem basicLinesRead (stop : ∀ c ∈ tail.head?, c ≠ '"') {run : Nat} (bound : run ≤ 2)
    (text : List Char) :
    multilineBasic (escapedBody true 2 run text ++ '"' :: '"' :: '"' :: tail) =
      some (text, tail) := by
  induction text generalizing run with
  | nil =>
    rw [escapedBody]
    exact basicLinesClosed stop (List.forall_mem_nil _) (Nat.zero_le 2)
  | cons c rest ih =>
    have again := ih (Nat.zero_le 2)
    by_cases mark : c = '"'
    · subst mark
      rcases bodyQuotes bound ('"' :: rest) with ⟨all, few, same⟩ | few
      · rw [same]
        exact basicLinesClosed stop all (le_trans (Nat.le_add_left _ _) few)
      · have short := few ('"' :: '"' :: '"' :: tail)
        rw [escapedBody, if_pos rfl] at short ⊢
        split
        · have escapes : Escapes '"' ['"'] := ⟨fun _ => rfl, fun _ => rfl⟩
          exact (linesEscaped escapes _).trans (congrArg (put _) again)
        · rename_i room
          rw [if_neg room, List.cons_append] at short
          rw [List.cons_append, linesQuote (le_trans (Nat.le_add_left _ _) short),
            ih (show run + 1 ≤ 2 by omega)]
          rfl
    · rw [escapedBody, if_neg mark]
      split
      · rename_i line
        simp only [Bool.and_true, decide_eq_true_eq] at line
        rw [line, List.cons_append, linesFeed, again]
        rfl
      · rw [List.append_assoc, linesWritten mark, again]
        rfl

end NotebookTidy.Toml
