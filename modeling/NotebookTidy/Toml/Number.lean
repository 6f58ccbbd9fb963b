import NotebookTidy.Config.Value
import NotebookTidy.Toml.Text

/-! Numbers, dates and times of a TOML document. -/
namespace NotebookTidy.Toml
open Config Decimal

def number (base : Nat) (digits : List Char) : Nat :=
  digits.foldl (fun n c => base * n + (hexDigit? c).getD 0) 0

/-- A run of digits in which single underscores may stand between two of them. -/
def digitRun (isDigit : Char → Bool) : List Char → Option (List Char × List Char)
  | [] => none
  | [c] => if isDigit c then some ([c], []) else none
  | c :: '_' :: rest =>
    if isDigit c then (digitRun isDigit rest).map fun (ds, next) => (c :: ds, next) else none
  | c :: d :: rest =>
    if !isDigit c then none
    else if isDigit d then
      (digitRun isDigit (d :: rest)).map fun (ds, next) => (c :: ds, next)
    else some ([c], d :: rest)

/-- Digits of a decimal integer: a zero stands alone. -/
def wholeDigits : Read (List Char)
  | '0' :: rest => some (['0'], rest)
  | text => digitRun isDigit text

def integerInRange (n : Int) : Option Int64 :=
  if Int64.minValue.toInt ≤ n ∧ n ≤ Int64.maxValue.toInt then some (Int64.ofInt n) else none

private def radixInteger (base : Nat) (isDigit : Char → Bool) : Read Value := fun text => do
  let (digits, rest) ← digitRun isDigit text
  some (.integer (← integerInRange (number base digits)), rest)

def signOf : List Char → Bool × List Char
  | '-' :: rest => (true, rest)
  | '+' :: rest => (false, rest)
  | text => (false, text)

def fraction? : Read (List Char)
  | '.' :: rest => digitRun isDigit rest
  | text => some ([], text)

def exponent? : Read (Option Int)
  | c :: rest =>
    if c = 'e' || c = 'E' then do
      let (negative, rest) := signOf rest
      let (digits, rest) ← digitRun isDigit rest
      let size : Int := number 10 digits
      some (some (if negative then -size else size), rest)
    else some (none, c :: rest)
  | [] => some (none, [])

/-- A decimal number that overflows upwards is refused; one that overflows downwards is negative
infinity. -/
def decimalNumber (negative : Bool) : Read Value := fun text => do
  let (whole, rest) ← wholeDigits text
  let (fraction, rest) ← fraction? rest
  let (exponent, rest) ← exponent? rest
  if fraction.isEmpty && exponent.isNone then
    let size : Int := number 10 whole
    some (.integer (← integerInRange (if negative then -size else size)), rest)
  else
    let coefficient := number 10 (whole ++ fraction)
    let value := Double.ofDecimal negative coefficient (exponent.getD 0 - fraction.length)
    if value.isInfinite && !negative then none else some (.float value, rest)

def numeral : Read Value
  | '0' :: 'x' :: rest => radixInteger 16 (fun c => (hexDigit? c).isSome) rest
  | '0' :: 'o' :: rest => radixInteger 8 (fun c => '0' ≤ c && c ≤ '7') rest
  | '0' :: 'b' :: rest => radixInteger 2 (fun c => c = '0' || c = '1') rest
  | text =>
    let (negative, rest) := signOf text
    match rest with
    | 'i' :: 'n' :: 'f' :: next => some (.float (.ofMagnitude negative infinity), next)
    | 'n' :: 'a' :: 'n' :: next =>
      some (.float (.ofMagnitude negative Double.nan.magnitude), next)
    | _ => decimalNumber negative rest

private theorem radixIntegerKind {base : Nat} {isDigit : Char → Bool} {text rest : List Char}
    {v : Value} (read : radixInteger base isDigit text = some (v, rest)) :
    ∃ n, v = .integer n := by
  simp only [radixInteger, Option.bind_eq_bind, Option.bind_eq_some_iff] at read
  obtain ⟨digits, -, n, -, last⟩ := read
  cases last
  exact ⟨n, rfl⟩

private theorem decimalNumberKind {negative : Bool} {text rest : List Char} {v : Value}
    (read : decimalNumber negative text = some (v, rest)) :
    (∃ n, v = .integer n) ∨ ∃ x, v = .float x := by
  simp only [decimalNumber, Option.bind_eq_bind, Option.bind_eq_some_iff] at read
  obtain ⟨whole, -, fraction, -, exponent, -, last⟩ := read
  split at last
  · obtain ⟨n, -, last⟩ := Option.bind_eq_some_iff.mp last
    cases last
    exact .inl ⟨n, rfl⟩
  · split at last
    · cases last
    · cases last
      exact .inr ⟨_, rfl⟩

theorem numeralKind {text rest : List Char} {v : Value} (read : numeral text = some (v, rest)) :
    (∃ n, v = .integer n) ∨ ∃ x, v = .float x := by
  unfold numeral at read
  split at read
  · exact .inl (radixIntegerKind read)
  · exact .inl (radixIntegerKind read)
  · exact .inl (radixIntegerKind read)
  · dsimp only at read
    split at read
    · cases read
      exact .inr ⟨_, rfl⟩
    · cases read
      exact .inr ⟨_, rfl⟩
    · exact decimalNumberKind read

def fixedDigits (count : Nat) : Read Nat := fun text =>
  let digits := text.take count
  if digits.length = count ∧ digits.all isDigit then some (number 10 digits, text.drop count)
  else none

def literally (c : Char) (text : List Char) : Option (List Char) :=
  match text with
  | d :: rest => if d = c then some rest else none
  | [] => none

/-- The largest hour of a time and of an offset. A document stops at 23; the text of a moment that
stands alone may go on to 24, and its offset to 99 hours and minutes within 24 hours. -/
structure ClockLimits where
  hour : Nat
  offsetHour : Nat
  offsetMinute : Nat

def documentClock : ClockLimits := ⟨23, 23, 59⟩

def standaloneClock : ClockLimits := ⟨24, 99, 99⟩

def calendarDate : Read Date := fun text => do
  let (year, rest) ← fixedDigits 4 text
  let (month, rest) ← fixedDigits 2 (← literally '-' rest)
  let (day, rest) ← fixedDigits 2 (← literally '-' rest)
  if h : year < 10000 ∧ (1 ≤ month ∧ month ≤ 12) ∧ 1 ≤ day ∧ day ≤ daysInMonth year month then
    some (⟨year, month, day, h⟩, rest)
  else none

/-- Digits after the ninth are dropped. -/
def secondFraction : Read Nat
  | '.' :: rest =>
    let digits := rest.takeWhile isDigit
    if digits.isEmpty then none
    else
      let kept := digits.take 9
      some (number 10 kept * Nat.pow 10 (9 - kept.length), rest.dropWhile isDigit)
  | text => some (0, text)

def clockTime (limits : ClockLimits) : Read Time := fun text => do
  let (hour, rest) ← fixedDigits 2 text
  let (minute, rest) ← fixedDigits 2 (← literally ':' rest)
  let (second, rest) ← fixedDigits 2 (← literally ':' rest)
  let (nanosecond, rest) ← secondFraction rest
  if hour ≤ limits.hour then
    if h : hour ≤ 24 ∧ minute < 60 ∧ second ≤ 60 ∧ nanosecond < 1000000000 then
      some (⟨hour, minute, second, nanosecond, h⟩, rest)
    else none
  else none

def clockOffset (limits : ClockLimits) : Read (Option Offset)
  | c :: rest =>
    if c = 'Z' || c = 'z' then some (some .utc, rest)
    else if c = '+' || c = '-' then do
      let (hours, rest) ← fixedDigits 2 rest
      let (minutes, rest) ← fixedDigits 2 (← literally ':' rest)
      let size := hours * 60 + minutes
      if hours ≤ limits.offsetHour && minutes ≤ limits.offsetMinute && size ≤ 24 * 60 then
        some (some (.minutes (if c = '-' then -(size : Int) else size)), rest)
      else none
    else some (none, c :: rest)
  | [] => some (none, [])

def dateStarts (text : List Char) : Bool :=
  (text.take 4).all isDigit && (text.drop 4).head? = some '-'

def timeStarts (text : List Char) : Bool :=
  2 ≤ text.length && (text.take 2).all isDigit && (text.drop 2).head? = some ':'

/-- A date, a time, or both. A blank between them counts only if a time follows it. -/
def moment (limits : ClockLimits) : Read Datetime := fun text =>
  if dateStarts text then do
    let (date, rest) ← calendarDate text
    match rest with
    | c :: after =>
      if (c = 'T' || c = 't' || c = ' ') && timeStarts after then
        let (time, rest) ← clockTime limits after
        let (offset, rest) ← clockOffset limits rest
        some (.both date time offset, rest)
      else some (.date date, rest)
    | [] => some (.date date, [])
  else do
    let (time, rest) ← clockTime limits text
    some (.time time, rest)

def standaloneMoment? (text : String) : Option Datetime :=
  match moment standaloneClock text.toList with
  | some (m, []) => some m
  | _ => none

/-- A number or a moment; a moment is told by its fifth or third character. -/
def numeralOrMoment : Read Value := fun text =>
  if dateStarts text || timeStarts text then
    (moment documentClock text).map fun (m, rest) => (.datetime m, rest)
  else numeral text

end NotebookTidy.Toml
