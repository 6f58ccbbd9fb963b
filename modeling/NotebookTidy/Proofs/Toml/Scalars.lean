import Mathlib.Data.List.DropRight
import NotebookTidy.Proofs.Json.Written
import NotebookTidy.Proofs.Toml.StringForms

/-! Integers and booleans, as they are written, are read as they were wherever a value can end, and
so is the text of a moment by itself, if its offset is no more than a day. -/
namespace NotebookTidy.Toml
open Config

variable {ds tail : List Char}

/-- What stands behind a value: the end of the document, or what parts it from the next one. -/
def Ends (tail : List Char) : Prop := ∀ c ∈ tail.head?, c = ',' ∨ c = ']' ∨ c = ' '

theorem endsUnmarked (ends : Ends tail) : Unmarked tail := by
  intro c mem
  rcases ends c mem with rfl | rfl | rfl <;> decide

theorem endsDigit (ends : Ends tail) : ∀ c ∈ tail.head?, isDigit c = false := by
  intro c mem
  rcases ends c mem with rfl | rfl | rfl <;> decide

/-! Integers -/

theorem digitRunRead (filled : ds ≠ []) (all : ∀ c ∈ ds, isDigit c = true)
    (stop : ∀ c ∈ tail.head?, isDigit c = false ∧ c ≠ '_') :
    digitRun isDigit (ds ++ tail) = some (ds, tail) := by
  induction ds with
  | nil => exact absurd rfl filled
  | cons c rest ih =>
    obtain ⟨digit, others⟩ := List.forall_mem_cons.mp all
    cases rest with
    | nil =>
      cases tail with
      | nil => simp [digitRun, digit]
      | cons d more =>
        obtain ⟨other, line⟩ := stop d rfl
        rw [List.singleton_append, digitRun]
        · simp [digit, other]
        · exact line
    | cons d more =>
      have read := ih (List.cons_ne_nil d more) others
      have next : isDigit d = true := others d List.mem_cons_self
      rw [List.cons_append, List.cons_append, digitRun]
      · rw [← List.cons_append, read]
        simp [digit, next]
      · rintro rfl
        cases next

theorem number10 (all : ∀ c ∈ ds, isDigit c = true) : number 10 ds = Nat.ofDigitChars 10 ds 0 := by
  unfold number Nat.ofDigitChars
  refine List.foldl_ext _ _ _ fun n c mem => ?_
  have digit := all c mem
  unfold isDigit at digit
  rw [hexDigit?, if_pos digit]
  rfl

theorem decimalNumber10 (n : Nat) : number 10 (Nat.toDigits 10 n) = n := by
  rw [number10 (Json.decimalDigits n), Nat.ofDigitChars_ten_toDigits]

theorem wholeRead (leads : Json.Leads ds)
    (stop : ∀ c ∈ tail.head?, isDigit c = false ∧ c ≠ '_') :
    wholeDigits (ds ++ tail) = some (ds, tail) := by
  obtain ⟨filled, all, lead⟩ := leads
  unfold wholeDigits
  split
  · rename_i rest same
    cases ds with
    | nil => exact absurd rfl filled
    | cons c more =>
      cases more with
      | nil =>
        cases same
        rfl
      | cons d others =>
        cases same
        exact absurd ⟨rfl, by simp⟩ lead
  · exact digitRunRead filled all stop

theorem integerRead (negative : Bool) (leads : Json.Leads ds) (ends : Ends tail) :
    decimalNumber negative (ds ++ tail) =
      (integerInRange (if negative then -(number 10 ds : Int) else number 10 ds)).map
        fun n => (.integer n, tail) := by
  have stop : ∀ c ∈ tail.head?, isDigit c = false ∧ c ≠ '_' := by
    intro c mem
    rcases ends c mem with rfl | rfl | rfl <;> decide
  have fraction : fraction? tail = some ([], tail) := by
    cases tail with
    | nil => rfl
    | cons c more => rcases ends c rfl with rfl | rfl | rfl <;> rfl
  have exponent : exponent? tail = some (none, tail) := by
    cases tail with
    | nil => rfl
    | cons c more => rcases ends c rfl with rfl | rfl | rfl <;> rfl
  simp only [decimalNumber, wholeRead leads stop, fraction, exponent, Option.bind_eq_bind,
    Option.bind_some, List.isEmpty_nil, Option.isNone_none, Bool.and_self, if_true]
  cases integerInRange (if negative then -(number 10 ds : Int) else number 10 ds) <;> rfl

theorem zeroAlone {d : Char} {rest : List Char} (leads : Json.Leads ds) (ends : Ends tail)
    (zero : ds ++ tail = '0' :: d :: rest) : d = ',' ∨ d = ']' ∨ d = ' ' := by
  obtain ⟨filled, -, lead⟩ := leads
  obtain ⟨c, more, rfl⟩ := List.exists_cons_of_ne_nil filled
  obtain ⟨rfl, after⟩ := List.cons.inj zero
  cases more with
  | nil =>
    have here : tail = d :: rest := after
    exact ends d (here ▸ rfl)
  | cons d others => exact absurd ⟨rfl, by simp⟩ lead

theorem numeralRead (negative : Bool) (leads : Json.Leads ds) (ends : Ends tail) :
    numeral ((if negative then ['-'] else []) ++ (ds ++ tail)) =
      decimalNumber negative (ds ++ tail) := by
  have first {c : Char} {rest : List Char} (same : ds ++ tail = c :: rest) : isDigit c = true := by
    obtain ⟨d, more, rfl⟩ := List.exists_cons_of_ne_nil leads.1
    cases same
    exact leads.2.1 _ List.mem_cons_self
  have sign : signOf ((if negative then ['-'] else []) ++ (ds ++ tail)) =
      (negative, ds ++ tail) := by
    cases negative with
    | true => rfl
    | false =>
      rw [if_neg Bool.false_ne_true, List.nil_append]
      unfold signOf
      split
      · rename_i same
        exact absurd (first same) (by decide)
      · rename_i same
        exact absurd (first same) (by decide)
      · rfl
  have plain {d : Char} {rest : List Char} (other : ¬ (d = ',' ∨ d = ']' ∨ d = ' ')) :
      (if negative then ['-'] else []) ++ (ds ++ tail) ≠ '0' :: d :: rest := by
    intro same
    cases negative with
    | true => cases same
    | false => exact other (zeroAlone leads ends same)
  unfold numeral
  split
  · exact absurd ‹_› (plain (by decide))
  · exact absurd ‹_› (plain (by decide))
  · exact absurd ‹_› (plain (by decide))
  · rw [sign]
    dsimp only
    split
    · rename_i same
      exact absurd (first same) (by decide)
    · rename_i same
      exact absurd (first same) (by decide)
    · rfl

theorem plainStart (all : ∀ c ∈ ds, isDigit c = true) (ends : Ends tail) {n : Nat} {mark : Char}
    (other : isDigit mark = false) (behind : ¬ (mark = ',' ∨ mark = ']' ∨ mark = ' ')) :
    ¬ (((ds ++ tail).take n).all isDigit = true ∧ ((ds ++ tail).drop n).head? = some mark) := by
  rintro ⟨digits, found⟩
  rw [List.head?_drop] at found
  rcases lt_trichotomy n ds.length with inside | here | beyond
  · rw [List.getElem?_append_left inside] at found
    rw [all mark (List.mem_of_getElem? found)] at other
    cases other
  · rw [here, List.getElem?_append_right le_rfl, Nat.sub_self, ← List.head?_eq_getElem?] at found
    exact behind (ends mark found)
  · cases tail with
    | nil =>
      rw [List.append_nil, List.getElem?_eq_none beyond.le] at found
      cases found
    | cons c more =>
      have mem : c ∈ (ds ++ c :: more).take n := by
        rw [List.take_append, List.mem_append]
        refine .inr ?_
        obtain ⟨k, size⟩ := Nat.exists_eq_add_of_lt beyond
        rw [show n - ds.length = k + 1 by omega]
        exact List.mem_cons_self
      have digit := List.all_eq_true.mp digits c mem
      rw [endsDigit ends c rfl] at digit
      cases digit

theorem integerMoment (negative : Bool) (leads : Json.Leads ds) (ends : Ends tail) :
    numeralOrMoment ((if negative then ['-'] else []) ++ (ds ++ tail)) =
      numeral ((if negative then ['-'] else []) ++ (ds ++ tail)) := by
  unfold numeralOrMoment
  refine if_neg ?_
  rw [Bool.or_eq_true, not_or]
  cases negative with
  | true => exact ⟨by simp [dateStarts, isDigit], by simp [timeStarts, isDigit]⟩
  | false =>
    rw [if_neg Bool.false_ne_true, List.nil_append]
    refine ⟨fun date => ?_, fun time => ?_⟩
    · rw [dateStarts, Bool.and_eq_true, decide_eq_true_eq] at date
      exact plainStart leads.2.1 ends (by decide) (by decide) date
    · simp only [timeStarts, Bool.and_eq_true, decide_eq_true_eq] at time
      exact plainStart leads.2.1 ends (by decide) (by decide) ⟨time.1.2, time.2⟩

theorem leadApart {c d : Char} (lead : c = '-' ∨ isDigit c = true) (other : d ≠ '-')
    (plain : isDigit d = false) : c ≠ d := by
  rintro rfl
  rcases lead with same | digit
  · exact other same
  · rw [plain] at digit
    cases digit

theorem scalarNumeral {c : Char} (lead : c = '-' ∨ isDigit c = true) (rest : List Char) :
    scalar (c :: rest) = numeralOrMoment (c :: rest) := by
  have signed : (c = '+' || c = '-' || isDigit c) = true := by
    rcases lead with rfl | digit
    · rfl
    · simp [digit]
  unfold scalar
  split
  case h_7 same =>
    cases same
    exact if_pos signed
  case h_8 same => cases same
  all_goals
    rename_i same
    exact absurd (List.cons.inj same).1 (leadApart lead (by decide) (by decide))

theorem integerInside (n : Int64) : integerInRange n.toInt = some n := by
  have low := Int64.minValue_le_toInt n
  have high := Int64.toInt_le n
  rw [integerInRange, if_pos ⟨low, high⟩, Int64.ofInt_toInt]

theorem integerChars (n : Int64) : (toString n.toInt).toList =
    (if decide (n.toInt < 0) then ['-'] else []) ++ Nat.toDigits 10 n.toInt.natAbs :=
  Json.integerChars n.toInt

theorem integerLead (n : Int64) : ∃ c rest, (toString n.toInt).toList = c :: rest ∧
    (c = '-' ∨ isDigit c = true) := by
  rw [integerChars]
  by_cases negative : n.toInt < 0
  · rw [if_pos (by simpa using negative)]
    exact ⟨'-', _, rfl, .inl rfl⟩
  · rw [if_neg (by simpa using negative), List.nil_append]
    obtain ⟨c, more, same⟩ := List.exists_cons_of_ne_nil (Json.decimalLeads n.toInt.natAbs).1
    exact ⟨c, more, same, .inr (Json.decimalDigits n.toInt.natAbs c (same ▸ List.mem_cons_self))⟩

theorem scalarInteger (n : Int64) (ends : Ends tail) :
    scalar ((toString n.toInt).toList ++ tail) = some (.integer n, tail) := by
  have leads := Json.decimalLeads n.toInt.natAbs
  have value : (if decide (n.toInt < 0) then -(n.toInt.natAbs : Int) else n.toInt.natAbs) =
      n.toInt := by
    by_cases negative : n.toInt < 0
    · rw [if_pos (by simpa using negative)]
      omega
    · rw [if_neg (by simpa using negative)]
      omega
  have read := integerRead (decide (n.toInt < 0)) leads ends
  rw [← numeralRead _ leads ends, ← integerMoment _ leads ends, decimalNumber10, value,
    integerInside, Option.map_some, ← List.append_assoc, ← integerChars] at read
  obtain ⟨c, rest, same, lead⟩ := integerLead n
  rw [same, List.cons_append] at read ⊢
  rw [scalarNumeral lead, read]

theorem scalarBoolean (flag : Bool) (tail : List Char) :
    scalar ((if flag then "true" else "false").toList ++ tail) = some (.boolean flag, tail) := by
  cases flag <;> rfl

/-! Moments -/

structure Padded (width n : Nat) (ds : List Char) : Prop where
  size : ds.length = width
  digits : ∀ c ∈ ds, isDigit c = true
  value : number 10 ds = n

theorem paddedDigits (width n : Nat) (filled : width ≠ 0) (small : n < 10 ^ width) :
    Padded width n (padded width n) := by
  have short : (Nat.toDigits 10 n).length ≤ width :=
    (Nat.length_toDigits_le_iff (by decide) (Nat.pos_of_ne_zero filled)).mpr small
  have digits : ∀ c ∈ padded width n, isDigit c = true := by
    intro c mem
    rcases List.mem_append.mp mem with zero | digit
    · rw [(List.mem_replicate.mp zero).2]
      rfl
    · exact Json.decimalDigits n c digit
  refine ⟨?_, digits, ?_⟩
  · rw [padded, List.length_append, List.length_replicate, Nat.sub_add_cancel short]
  · rw [number10 digits, padded, Nat.ofDigitChars_append, Nat.ofDigitChars_replicate_zero,
      Nat.mul_zero, Nat.ofDigitChars_ten_toDigits]

theorem fixedRead (width n : Nat) (filled : width ≠ 0) (small : n < 10 ^ width)
    (rest : List Char) : fixedDigits width (padded width n ++ rest) = some (n, rest) := by
  obtain ⟨size, digits, value⟩ := paddedDigits width n filled small
  have first : (padded width n ++ rest).take width = padded width n :=
    List.take_left' size
  rw [fixedDigits, first, if_pos ⟨size, List.all_eq_true.mpr digits⟩, value, List.drop_left' size]

theorem dateRead (d : Date) (rest : List Char) :
    calendarDate (d.chars ++ rest) = some (d, rest) := by
  obtain ⟨year, month, day, valid⟩ := d
  have short : daysInMonth year month ≤ 31 := by
    unfold daysInMonth
    split_ifs <;> decide
  have years := fixedRead 4 year (by decide) (by omega)
  have months := fixedRead 2 month (by decide) (by omega)
  have days := fixedRead 2 day (by decide) (by omega)
  simp only [calendarDate, Date.chars, List.append_assoc, List.cons_append, years, months, days,
    literally, Option.bind_eq_bind, Option.bind_some, if_true]
  rw [dif_pos valid]

theorem trimmedZeros (ds : List Char) :
    ∃ n, ds = ds.rdropWhile (· = '0') ++ List.replicate n '0' := by
  have zeros : ∀ c ∈ ds.rtakeWhile (· = '0'), c = '0' := fun c mem => by
    simpa using List.mem_rtakeWhile_imp mem
  refine ⟨(ds.rtakeWhile (· = '0')).length, ?_⟩
  rw [← List.eq_replicate_of_mem zeros, List.rdropWhile_append_rtakeWhile]

theorem fractionRead {n : Nat} (small : n < 10 ^ 9) {rest : List Char}
    (stop : ∀ c ∈ rest.head?, isDigit c = false ∧ c ≠ '.') :
    secondFraction ((if ((padded 9 n).rdropWhile (· = '0')).isEmpty then []
      else '.' :: (padded 9 n).rdropWhile (· = '0')) ++ rest) = some (n, rest) := by
  obtain ⟨size, digits, value⟩ := paddedDigits 9 n (by decide) small
  obtain ⟨zeros, same⟩ := trimmedZeros (padded 9 n)
  generalize (padded 9 n).rdropWhile (· = '0') = kept at same ⊢
  rw [same] at size digits value
  rw [number10 digits, Nat.ofDigitChars_append, Nat.ofDigitChars_replicate_zero] at value
  rw [List.length_append, List.length_replicate] at size
  split
  · rename_i empty
    rw [List.isEmpty_iff.mp empty] at value
    have zero : n = 0 := value.symm
    rw [List.nil_append, zero]
    unfold secondFraction
    split
    · exact absurd rfl (stop '.' rfl).2
    · rfl
  · rename_i filled
    have inside : ∀ c ∈ kept, isDigit c = true := fun c mem =>
      digits c (List.mem_append_left _ mem)
    obtain ⟨taken, left⟩ := spanRead inside fun c mem => (stop c mem).1
    rw [List.cons_append, secondFraction]
    dsimp only
    rw [taken, left, if_neg filled, List.take_of_length_le (by omega), number10 inside,
      show 9 - kept.length = zeros by omega]
    rw [← value, Nat.mul_comm]
    rfl

theorem timeRead (limits : ClockLimits) (t : Time) (inside : t.hour ≤ limits.hour)
    {rest : List Char} (stop : ∀ c ∈ rest.head?, isDigit c = false ∧ c ≠ '.') :
    clockTime limits (t.chars ++ rest) = some (t, rest) := by
  obtain ⟨hour, minute, second, nanosecond, valid⟩ := t
  have hours := fixedRead 2 hour (by decide) (by omega)
  have minutes := fixedRead 2 minute (by decide) (by omega)
  have seconds := fixedRead 2 second (by decide) (by omega)
  have fraction := fractionRead (n := nanosecond) (by omega) stop
  rw [List.rdropWhile] at fraction
  simp only [clockTime, Time.chars, List.append_assoc, List.cons_append, hours, minutes, seconds,
    literally, Option.bind_eq_bind, Option.bind_some, if_true, fraction]
  rw [if_pos inside, dif_pos valid]

theorem minutesRead {size : Nat} (bound : size ≤ 24 * 60) {sign : Char}
    (either : sign = '+' ∨ sign = '-') :
    clockOffset standaloneClock (sign :: (padded 2 (size / 60) ++ ':' :: padded 2 (size % 60))) =
      some (some (.minutes (if sign = '-' then -(size : Int) else size)), []) := by
  have hours := fixedRead 2 (size / 60) (by decide) (by omega)
  have minutes := fixedRead 2 (size % 60) (by decide) (by omega) []
  rw [List.append_nil] at minutes
  have whole : size / 60 * 60 + size % 60 = size := Nat.div_add_mod' ..
  have inside : (decide (size / 60 ≤ standaloneClock.offsetHour) &&
      decide (size % 60 ≤ standaloneClock.offsetMinute) && decide (size ≤ 24 * 60)) = true := by
    have hour : size / 60 ≤ 99 := by omega
    have minute : size % 60 ≤ 99 := by omega
    simp only [Bool.and_eq_true, decide_eq_true_eq]
    exact ⟨⟨hour, minute⟩, bound⟩
  have utc : ¬ (sign = 'Z' || sign = 'z') = true := by
    rcases either with rfl | rfl <;> decide
  have ahead : (sign = '+' || sign = '-') = true := by
    rcases either with rfl | rfl <;> decide
  rw [clockOffset, if_neg utc, if_pos ahead]
  simp only [hours, minutes, literally, whole, Option.bind_eq_bind, Option.bind_some, if_true]
  rw [if_pos inside]

theorem offsetRead {offset : Option Offset}
    (daily : ∀ ahead, offset = some (.minutes ahead) → ahead.natAbs ≤ 24 * 60) :
    clockOffset standaloneClock ((offset.map Offset.chars).getD []) = some (offset, []) := by
  cases offset with
  | none => rfl
  | some o =>
    cases o with
    | utc => rfl
    | minutes ahead =>
      have bound := daily ahead rfl
      simp only [Option.map_some, Option.getD_some, Offset.chars]
      split
      · rename_i behind
        have signed : -(ahead.natAbs : Int) = ahead := by omega
        have read := minutesRead bound (.inr rfl)
        rwa [if_pos rfl, signed] at read
      · rename_i before
        have signed : (ahead.natAbs : Int) = ahead := by omega
        have read := minutesRead bound (.inl rfl)
        rwa [if_neg (by decide), signed] at read

theorem offsetStop (offset : Option Offset) :
    ∀ c ∈ ((offset.map Offset.chars).getD []).head?, isDigit c = false ∧ c ≠ '.' := by
  intro c mem
  cases offset with
  | none => cases mem
  | some o =>
    cases o with
    | utc =>
      cases mem
      decide
    | minutes ahead =>
      simp only [Option.map_some, Option.getD_some, Offset.chars] at mem
      cases mem
      split <;> decide

/-- No more than a day ahead of the standard time, or behind it. -/
def Daily : Datetime → Prop
  | .both _ _ (some (.minutes ahead)) => ahead.natAbs ≤ 24 * 60
  | _ => True

theorem dateStart (d : Date) (rest : List Char) : dateStarts (d.chars ++ rest) = true := by
  obtain ⟨year, month, day, valid⟩ := d
  obtain ⟨size, digits, -⟩ := paddedDigits 4 year (by decide) (by omega)
  simp only [Date.chars, List.append_assoc]
  rw [dateStarts, List.take_left' size, List.drop_left' size, List.all_eq_true.mpr digits]
  rfl

theorem timeStart (t : Time) (rest : List Char) : timeStarts (t.chars ++ rest) = true := by
  obtain ⟨hour, minute, second, nanosecond, valid⟩ := t
  obtain ⟨size, digits, -⟩ := paddedDigits 2 hour (by decide) (by omega)
  simp only [Time.chars, List.append_assoc]
  rw [timeStarts, List.take_left' size, List.drop_left' size, List.all_eq_true.mpr digits,
    List.length_append, size]
  simp

theorem timeDateless (t : Time) : dateStarts t.chars = false := by
  obtain ⟨hour, minute, second, nanosecond, valid⟩ := t
  obtain ⟨size, -, -⟩ := paddedDigits 2 hour (by decide) (by omega)
  rw [dateStarts, Bool.and_eq_false_iff]
  refine .inl (List.all_eq_false.mpr ⟨':', ?_, by decide⟩)
  simp only [Time.chars, List.append_assoc]
  rw [List.take_append, size]
  exact List.mem_append_right _ List.mem_cons_self

theorem momentRead {d : Datetime} (daily : Daily d) : standaloneMoment? d.text = some d := by
  have whole : moment standaloneClock d.chars = some (d, []) := by
    cases d with
    | date d =>
      have start := dateStart d []
      have read := dateRead d []
      rw [List.append_nil] at start read
      rw [moment, Datetime.chars, if_pos start]
      simp only [read, Option.bind_eq_bind, Option.bind_some]
    | time t =>
      have read := timeRead standaloneClock t t.valid.1 (offsetStop none)
      rw [Option.map_none, Option.getD_none, List.append_nil] at read
      rw [moment, Datetime.chars, if_neg (by simp [timeDateless])]
      simp only [read, Option.bind_eq_bind, Option.bind_some]
    | both d t offset =>
      have zone : ∀ c ∈ ((offset.map Offset.chars).getD []).head?, isDigit c = false ∧ c ≠ '.' :=
        offsetStop offset
      have start := dateStart d ('T' :: (t.chars ++ (offset.map Offset.chars).getD []))
      have bound : ∀ ahead, offset = some (.minutes ahead) → ahead.natAbs ≤ 24 * 60 := by
        rintro ahead rfl
        exact daily
      rw [moment, Datetime.chars, List.append_assoc, List.cons_append, if_pos start]
      simp only [dateRead, Option.bind_eq_bind, Option.bind_some, timeStart, decide_true,
        Bool.true_or, Bool.and_self, if_true, timeRead standaloneClock t t.valid.1 zone,
        offsetRead bound]
  rw [standaloneMoment?, Datetime.text, String.toList_ofList, whole]

end NotebookTidy.Toml
