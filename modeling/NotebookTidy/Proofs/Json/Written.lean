import Mathlib.Data.Nat.Digits.Defs
import NotebookTidy.Json.Printer
import NotebookTidy.Proofs.Decimal.Shortest
import NotebookTidy.Proofs.Json.Legible

/-! Strings and numbers, as they are written, are read as they were. -/
namespace NotebookTidy.Json

/-! Strings -/

theorem hexDigitChar : ∀ n < 16, hexDigit? (Nat.digitChar n) = some n := by decide

theorem unicodeLow {c : Char} (low : c.toNat < 0x20) (rest : List Char) :
    unicodeEscape ('0' :: '0' :: Nat.digitChar (c.toNat / 16) :: Nat.digitChar (c.toNat % 16) ::
      rest) = some (.char c) := by
  have high := hexDigitChar (c.toNat / 16) (by omega)
  have unit := hexDigitChar (c.toNat % 16) (by omega)
  have zero : hexDigit? '0' = some 0 := by decide
  have whole : 16 * (c.toNat / 16) + c.toNat % 16 = c.toNat := Nat.div_add_mod ..
  have plain : ¬ (0xD800 ≤ c.toNat ∧ c.toNat < 0xE000) := by omega
  simp [unicodeEscape, high, unit, zero, whole, if_neg plain]

theorem piecesEscape (body rest : List Char) {p : Piece}
    (escape : escape? (body ++ rest) = some (p, body.length)) :
    stringPieces ('\\' :: body ++ rest) =
      (stringPieces rest).map fun (ps, next) => (p :: ps, next) := by
  rw [List.cons_append, stringPieces, if_neg (by decide), if_pos rfl, escape]
  dsimp only
  rw [List.drop_left]

theorem piecesEscaped (c : Char) (rest : List Char) :
    stringPieces (escaped c ++ rest) =
      (stringPieces rest).map fun (ps, next) => (.char c :: ps, next) := by
  unfold escaped
  split_ifs with marked back form line return_ tab low
  · have either : c = '"' ∨ c = '\\' := by simpa using marked
    rcases either with rfl | rfl <;> exact piecesEscape [_] rest rfl
  · subst back
    exact piecesEscape [_] rest rfl
  · subst form
    exact piecesEscape [_] rest rfl
  · subst line
    exact piecesEscape [_] rest rfl
  · subst return_
    exact piecesEscape [_] rest rfl
  · subst tab
    exact piecesEscape [_] rest rfl
  · refine piecesEscape ['u', '0', '0', _, _] rest ?_
    simp only [List.cons_append, List.nil_append, escape?, unicodeLow low rest]
    rfl
  · have either : ¬ (c = '"' ∨ c = '\\') := by simpa using marked
    rw [List.singleton_append, stringPieces, if_neg fun same => either (.inl same),
      if_neg fun same => either (.inr same), if_neg low]

theorem textPlain (text : List Char) : Piece.text? (text.map .char) = some text := by
  induction text with
  | nil => rfl
  | cons c rest ih => rw [List.map_cons, Piece.text?, ih, Option.map_some]

theorem stringQuoted (text rest : List Char) :
    string (text.flatMap escaped ++ '"' :: rest) = some (some (String.ofList text), rest) := by
  have pieces : stringPieces (text.flatMap escaped ++ '"' :: rest) =
      some (text.map .char, rest) := by
    induction text with
    | nil =>
      rw [List.flatMap_nil, List.nil_append, stringPieces, if_pos rfl]
      rfl
    | cons c more ih =>
      rw [List.flatMap_cons, List.append_assoc, piecesEscaped, ih]
      rfl
  rw [string, pieces, Option.map_some]
  dsimp only
  rw [textPlain, Option.map_some]

/-! Numerals -/

/-- What stands behind a value in a document. -/
def Ends (rest : List Char) : Prop := ∀ c ∈ rest.head?, c = '\n' ∨ c = ','

theorem digitsRead {ds rest : List Char} (filled : ds ≠ []) (all : ∀ c ∈ ds, isDigit c = true)
    (stop : ∀ c ∈ rest.head?, isDigit c = false) : digits? (ds ++ rest) = some (ds, rest) := by
  have ends : rest.takeWhile isDigit = [] ∧ rest.dropWhile isDigit = rest := by
    cases rest with
    | nil => exact ⟨rfl, rfl⟩
    | cons c more =>
      have other := stop c rfl
      rw [List.takeWhile_cons, List.dropWhile_cons, other]
      exact ⟨rfl, rfl⟩
  rw [digits?, List.takeWhile_append_of_pos all, List.dropWhile_append_of_pos all, ends.1, ends.2,
    List.append_nil]
  exact if_neg (by simpa using filled)

theorem decimalDigits (n : Nat) : ∀ c ∈ Nat.toDigits 10 n, isDigit c = true := by
  intro c mem
  have digit := Nat.isDigit_of_mem_toDigits (by decide) (by decide) mem
  rw [isDigit]
  simpa [Char.isDigit, Char.le_def] using digit

/-- Digits that can stand before a point. -/
def Leads (ds : List Char) : Prop :=
  ds ≠ [] ∧ (∀ c ∈ ds, isDigit c = true) ∧ ¬ (ds.head? = some '0' ∧ 1 < ds.length)

theorem decimalLeads (n : Nat) : Leads (Nat.toDigits 10 n) := by
  refine ⟨Nat.toDigits_ne_nil, decimalDigits n, ?_⟩
  rintro ⟨zero, long⟩
  rcases Nat.eq_zero_or_pos n with rfl | positive
  · rw [Nat.toDigits_zero] at long
    exact absurd long (by decide)
  · exact Decimal.leadingDigit positive zero

theorem wholeRead {ds rest : List Char} (leads : Leads ds)
    (stop : ∀ c ∈ rest.head?, isDigit c = false) : wholePart (ds ++ rest) = some (ds, rest) := by
  obtain ⟨filled, all, lead⟩ := leads
  simp only [wholePart, digitsRead filled all stop, Option.bind_eq_bind, Option.bind_some,
    if_neg lead]

theorem signRead (negative : Bool) {ds : List Char} (leads : Leads ds) (tail : List Char) :
    signPart ((if negative then ['-'] else []) ++ (ds ++ tail)) = (negative, ds ++ tail) := by
  cases negative with
  | true => rfl
  | false =>
    rw [if_neg Bool.false_ne_true, List.nil_append]
    cases ds with
    | nil => exact absurd rfl leads.1
    | cons c more =>
      have digit := leads.2.1 c List.mem_cons_self
      rw [List.cons_append, signPart]
      rintro rest same
      cases same
      exact absurd digit (by decide)

theorem numeralParts (negative : Bool) {ds tail fraction middle rest : List Char}
    {exponent : Option (Bool × List Char)} (leads : Leads ds)
    (stop : ∀ c ∈ tail.head?, isDigit c = false)
    (fractional : fractionPart tail = some (fraction, middle))
    (scaled : exponentPart middle = some (exponent, rest)) :
    numeral ((if negative then ['-'] else []) ++ (ds ++ tail)) =
      some (⟨negative, ds, fraction, exponent⟩, rest) := by
  simp only [numeral, signRead negative leads, wholeRead leads stop, fractional, scaled,
    Option.bind_eq_bind, Option.bind_some]

theorem endsStop {rest : List Char} (ends : Ends rest) : ∀ c ∈ rest.head?, isDigit c = false := by
  intro c mem
  rcases ends c mem with rfl | rfl <;> decide

theorem endsFraction {rest : List Char} (ends : Ends rest) :
    fractionPart rest = some ([], rest) := by
  cases rest with
  | nil => rfl
  | cons c more => rcases ends c rfl with rfl | rfl <;> rfl

theorem endsExponent {rest : List Char} (ends : Ends rest) :
    exponentPart rest = some (none, rest) := by
  cases rest with
  | nil => rfl
  | cons c more => rcases ends c rfl with rfl | rfl <;> rfl

/-- A text that is read as a numeral, whatever follows it in a document. -/
def Spells (chars : List Char) (n : Numeral) : Prop :=
  ∀ rest, Ends rest → numeral (chars ++ rest) = some (n, rest)

theorem integerChars (n : Int) :
    (Number.integer n).chars =
      (if decide (n < 0) then ['-'] else []) ++ Nat.toDigits 10 n.natAbs := by
  rw [Number.chars]
  cases n with
  | ofNat m =>
    have same : toString (Int.ofNat m) = toString m := rfl
    rw [same, Nat.toString_eq_ofList_toDigits, String.toList_ofList, if_neg (by simp)]
    rfl
  | negSucc m =>
    have same : toString (Int.negSucc m) = "-" ++ toString (m + 1) := rfl
    have digits : (String.ofList (Nat.toDigits 10 (m + 1))).toList = Nat.toDigits 10 (m + 1) :=
      String.toList_ofList
    rw [same, Nat.toString_eq_ofList_toDigits, String.toList_append, digits,
      if_pos (by simp [Int.negSucc_lt_zero])]
    rfl

theorem integerSpells (n : Int) :
    Spells (Number.integer n).chars ⟨n < 0, Nat.toDigits 10 n.natAbs, [], none⟩ := by
  intro rest ends
  rw [integerChars, List.append_assoc]
  exact numeralParts _ (decimalLeads _) (endsStop ends) (endsFraction ends) (endsExponent ends)

end NotebookTidy.Json
