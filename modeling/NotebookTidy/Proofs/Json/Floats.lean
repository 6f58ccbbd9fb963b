import NotebookTidy.Proofs.Json.Numbers

/-! The digits of a number in a document. They spell a numeral, and it has a value: no number is
written in a way that is too large to be read. -/
namespace NotebookTidy.Json
open Decimal (Double Digits infinity nearest times quotient units middle unity shortest)

/-! The largest numbers -/

theorem readingForm {x : Double} (finite : x.magnitude < infinity) : ∃ shift m : Nat,
    x.reading = .finite m ((shift : Int) - 1074) ∧ m < 2 ^ 53 ∧
      (shift = 0 ∨ 2 ^ 52 ≤ m) ∧ x.magnitude = shift * 2 ^ 52 + m := by
  have limit : infinity = 0x7FF * 2 ^ 52 := rfl
  rw [Double.reading]
  simp only [Nat.pow_eq]
  generalize x.magnitude = a at *
  have other : a / 2 ^ 52 ≠ 0x7FF := by omega
  rw [if_neg other]
  split
  · exact ⟨0, a % 2 ^ 52, rfl, by omega, .inl rfl, by omega⟩
  · refine ⟨a / 2 ^ 52 - 1, 2 ^ 52 + a % 2 ^ 52, ?_, by omega, .inr (by omega), by omega⟩
    congr 1
    omega

/-- The middle between the largest number and the one before it. -/
def largest : Nat := (2 ^ 54 - 3) * 2 ^ 970

theorem productFinite : ∀ n < 18, times (nearest (min (10 ^ 17) (largest / 10 ^ (291 + n))) 1)
    (powerOfTen (291 + n)) < infinity := by
  decide +kernel

theorem powerMono {m n : Nat} (less : m ≤ n) : powerOfTen m ≤ powerOfTen n := by
  refine Decimal.nearestMono (by decide) (by decide) (Nat.mul_le_mul_right 1 ?_)
  exact Nat.pow_le_pow_right (by decide) less

theorem writtenFits {c e : Nat} (positive : 0 < c) (small : c ≤ 10 ^ 17)
    (within : c * 10 ^ e ≤ largest) :
    e ≤ 308 ∧ times (nearest c 1) (powerOfTen e) ≠ infinity := by
  have near : e ≤ 308 := by
    refine Nat.le_of_not_lt fun far => ?_
    have power (n : Nat) (less : n ≤ e) : 10 ^ n ≤ c * 10 ^ e :=
      Nat.le_trans (Nat.pow_le_pow_right (by decide) less) (Nat.le_mul_of_pos_left _ positive)
    have bound : ¬ 10 ^ 309 ≤ largest := by decide +kernel
    exact bound (Nat.le_trans (power 309 far) within)
  -- Below the largest powers any seventeen digits do, and the least of these stands for them.
  have step : times (nearest c 1) (powerOfTen e) ≤
      times (nearest (min (10 ^ 17) (largest / 10 ^ (291 + (e - 291)))) 1)
        (powerOfTen (291 + (e - 291))) := by
    refine Decimal.timesMono (Decimal.nearestMono (by decide) (by decide) ?_) (powerMono (by omega))
    refine Nat.mul_le_mul_right 1 (Nat.le_min.mpr ⟨small, ?_⟩)
    rcases Nat.lt_or_ge e 291 with less | more
    · have any : 10 ^ 17 ≤ largest / 10 ^ 291 := by decide +kernel
      rw [Nat.sub_eq_zero_of_le (Nat.le_of_lt less), Nat.add_zero]
      exact Nat.le_trans small any
    · rw [Nat.add_sub_of_le more]
      exact (Nat.le_div_iff_mul_le (Nat.pow_pos (by decide))).mpr within
  exact ⟨near, Nat.ne_of_lt (Nat.lt_of_le_of_lt step (productFinite (e - 291) (by omega)))⟩

theorem middleLargest {a : Nat} (below : a + 1 < infinity) :
    middle a ≤ 2 * (largest * unity) := by
  have last : middle (infinity - 2) = 2 * (largest * unity) := by decide +kernel
  have limit : infinity = 9218868437227405312 := rfl
  rw [← last]
  exact Nat.add_le_add (Decimal.unitsLe.mpr (by omega)) (Decimal.unitsLe.mpr (by omega))

theorem withinLargest {shift m c e : Nat} (small : m < 2 ^ 53) (low : shift = 0 ∨ 2 ^ 52 ≤ m)
    (below : shift * 2 ^ 52 + m + 1 < infinity)
    (within : let i := Decimal.Interval.around m ((shift : Int) - 1074)
      Decimal.Within c e (i.value + i.above) i.unit) : c * 10 ^ e ≤ largest := by
  have most := Decimal.middleAt low small ▸ middleLargest below
  obtain ⟨up, down, balance, first, second⟩ : ∃ up down : Nat, shift + down = up + 1074 ∧
      ((shift : Int) - 1074).toNat = up ∧ (-((shift : Int) - 1074)).toNat = down :=
    ⟨_, _, by omega, rfl, rfl⟩
  have powers (n : Nat) (same : shift + down = up + n) : 2 ^ shift * 2 ^ down = 2 ^ up * 2 ^ n := by
    rw [← pow_add, ← pow_add, same]
  have scale : 2 ^ shift * 2 ^ down = 2 ^ up * unity := by
    rw [Decimal.unityPower, powers 1074 balance]
  rw [Decimal.Within, Decimal.Interval.around, first, second] at within
  simp only [Nat.pow_eq] at within
  rw [Int.toNat_natCast, Int.toNat_neg_natCast, Nat.pow_zero, Nat.mul_one] at within
  have product : 2 * (2 * (c * 10 ^ e * unity)) * 2 ^ down ≤
      2 * (2 * (largest * unity)) * 2 ^ down := calc
    2 * (2 * (c * 10 ^ e * unity)) * 2 ^ down = c * (4 * 2 ^ down * 10 ^ e) * unity := by ring
    _ ≤ (4 * m * 2 ^ up + 2 * 2 ^ up) * unity := Nat.mul_le_mul_right _ within
    _ = 2 * (2 * m + 1) * (2 ^ up * unity) := by ring
    _ = 2 * ((2 * m + 1) * 2 ^ shift) * 2 ^ down := by
      rw [← scale]
      ring
    _ ≤ 2 * (2 * (largest * unity)) * 2 ^ down :=
      Nat.mul_le_mul_right _ (Nat.mul_le_mul_left 2 most)
  have halves := Nat.le_of_mul_le_mul_right product (Nat.two_pow_pos down)
  exact Nat.le_of_mul_le_mul_right (by omega) Decimal.unityPositive

theorem shortestFits {x : Double} (finite : x.magnitude < infinity) {mantissa : Nat}
    {exponent : Int} (reading : x.reading = .finite mantissa exponent) (positive : 0 < mantissa) :
    let d := shortest .even mantissa exponent
    ∃ c, 0 < c ∧ c ≤ 10 ^ 17 ∧ d.digits = Nat.toDigits 10 c ∧
      (0 ≤ d.point - d.digits.length → d.point - d.digits.length ≤ 308 ∧
        times (nearest c 1) (powerOfTen (d.point - d.digits.length).toNat) ≠ infinity) := by
  intro d
  obtain ⟨shift, m, form, small, low, whole⟩ := readingForm finite
  obtain ⟨rfl, rfl⟩ : m = mantissa ∧ (shift : Int) - 1074 = exponent := by
    simpa using form.symm.trans reading
  rcases Nat.lt_or_ge (x.magnitude + 1) infinity with below | last
  · obtain ⟨c, nonzero, bounded, digits, within⟩ :=
      Decimal.shortestDigits .even ((shift : Int) - 1074) positive small
    refine ⟨c, nonzero, bounded, digits, fun up => ?_⟩
    obtain ⟨e, place⟩ := Int.eq_ofNat_of_zero_le up
    rw [place] at within
    obtain ⟨near, fits⟩ :=
      writtenFits nonzero bounded (withinLargest small low (by rw [← whole]; exact below) within)
    rw [place]
    exact ⟨by omega, fits⟩
  · have limit : infinity = 0x7FF * 2 ^ 52 := rfl
    obtain ⟨rfl, rfl⟩ : shift = 2045 ∧ m = 2 ^ 53 - 1 := by omega
    have digits : d = ⟨Nat.toDigits 10 17976931348623157, 309⟩ := by decide +kernel
    rw [digits]
    exact ⟨17976931348623157, by decide, by decide, rfl, by decide +kernel⟩

/-! What is spelled -/

open Decimal.Layout (zeros fractional positional scientific)

/-- A numeral that has a value. -/
structure Numeral.Readable (n : Numeral) : Prop where
  small : n.coefficient < UInt64.size
  near : ∀ ds, n.exponent = some (false, ds) → decimal ds < exponentLimit
  fits : 0 ≤ n.scale → n.scale ≤ 308 ∧
    times (nearest n.coefficient 1) (powerOfTen n.scale.toNat) ≠ infinity

theorem fractionReadable {n : Numeral} (small : n.coefficient < UInt64.size)
    (plain : n.exponent = none) (fraction : n.fraction ≠ []) : n.Readable where
  small := small
  near ds same := by
    rw [plain] at same
    cases same
  fits up := by
    have some_ := List.length_pos_iff.mpr fraction
    rw [Numeral.scale, plain] at up
    dsimp only at up
    omega

theorem leadsDigits {c : Nat} (positive : 0 < c) {ds : List Char} (filled : ds ≠ [])
    (all : ∀ c ∈ ds, isDigit c = true) (first : ds.head? = (Nat.toDigits 10 c).head?) :
    Leads ds :=
  ⟨filled, all, fun zero => Decimal.leadingDigit positive (first ▸ zero.1)⟩

theorem zerosDigits (n : Nat) : ∀ c ∈ zeros n, isDigit c = true := by
  intro c mem
  rw [List.eq_of_mem_replicate mem]
  decide

theorem zerosLead (n : Nat) (ds : List Char) :
    Nat.ofDigitChars 10 (zeros n ++ ds) 0 = Nat.ofDigitChars 10 ds 0 := by
  rw [Nat.ofDigitChars_append, zeros, Nat.ofDigitChars_replicate_zero, Nat.mul_zero]

theorem filledBelow {c place : Nat} (long : (Nat.toDigits 10 c).length ≤ place) :
    Nat.ofDigitChars 10
      (Nat.toDigits 10 c ++ zeros (place - (Nat.toDigits 10 c).length)) 0 < 10 ^ place := by
  rw [Nat.ofDigitChars_append, zeros, Nat.ofDigitChars_replicate_zero,
    Nat.ofDigitChars_ten_toDigits]
  calc 10 ^ (place - (Nat.toDigits 10 c).length) * c
      < 10 ^ (place - (Nat.toDigits 10 c).length) * 10 ^ (Nat.toDigits 10 c).length :=
        Nat.mul_lt_mul_of_pos_left (Decimal.digitsBounds c).1 (Nat.pow_pos (by decide))
    _ = 10 ^ place := by rw [← pow_add, Nat.sub_add_cancel long]

theorem positionalParts {d : Digits} {c : Nat} (positive : 0 < c) (small : c ≤ 10 ^ 17)
    (digits : d.digits = Nat.toDigits 10 c) (short : d.point ≤ 16) : ∃ whole fraction,
      positional d = whole ++ '.' :: fraction ∧ Leads whole ∧ fraction ≠ [] ∧
      (∀ c ∈ fraction, isDigit c = true) ∧
      Nat.ofDigitChars 10 (whole ++ fraction) 0 < UInt64.size := by
  have size : UInt64.size = 18446744073709551616 := rfl
  have filled : d.digits ≠ [] := digits ▸ Nat.toDigits_ne_nil
  have all : ∀ c ∈ d.digits, isDigit c = true := digits ▸ decimalDigits c
  have value : Nat.ofDigitChars 10 d.digits 0 = c := digits ▸ Nat.ofDigitChars_ten_toDigits
  rw [positional]
  split
  · refine ⟨['0'], _, rfl, decimalLeads 0, by simp [filled], ?_, ?_⟩
    · exact List.forall_mem_append.mpr ⟨zerosDigits _, all⟩
    · change Nat.ofDigitChars 10 (zeros _ ++ d.digits) 0 < _
      rw [zerosLead, value]
      omega
  · rename_i inside
    dsimp only
    split
    · rename_i long
      refine ⟨d.digits ++ zeros (d.point.toNat - d.digits.length), ['0'], by simp, ?_, by simp,
        zerosDigits 1, ?_⟩
      · refine leadsDigits positive (by simp [filled]) ?_ ?_
        · exact List.forall_mem_append.mpr ⟨all, zerosDigits _⟩
        · rw [List.head?_append_of_ne_nil _ filled, digits]
      · rw [digits] at long ⊢
        have fewer := filledBelow long
        have most : 10 ^ d.point.toNat ≤ 10 ^ 16 := Nat.pow_le_pow_right (by decide) (by omega)
        rw [Nat.ofDigitChars_append]
        change 10 * Nat.ofDigitChars 10 (Nat.toDigits 10 c ++ zeros _) 0 + 0 < _
        omega
    · rename_i cut
      have some_ : d.point.toNat ≠ 0 := by omega
      refine ⟨_, _, rfl, ?_, ?_, ?_, ?_⟩
      · refine leadsDigits positive ?_ ?_ ?_
        · simp [filled, inside]
        · exact fun c mem => all c (List.mem_of_mem_take mem)
        · rw [List.head?_take, if_neg some_, digits]
      · rw [Ne, List.drop_eq_nil_iff]
        exact cut
      · exact fun c mem => all c (List.mem_of_mem_drop mem)
      · rw [List.take_append_drop, value]
        omega

theorem positionalSpells (negative : Bool) {d : Digits} {c : Nat} (positive : 0 < c)
    (small : c ≤ 10 ^ 17) (digits : d.digits = Nat.toDigits 10 c) (short : d.point ≤ 16) :
    ∃ n, Spells ((if negative then ['-'] else []) ++ positional d) n ∧ n.Readable := by
  obtain ⟨whole, fraction, parts, leads, filled, all, bounded⟩ :=
    positionalParts positive small digits short
  refine ⟨⟨negative, whole, fraction, none⟩, fun rest ends => ?_,
    fractionReadable bounded rfl filled⟩
  rw [parts, List.append_assoc, List.append_assoc, List.cons_append]
  exact numeralParts negative leads (by simp; decide) (digitsRead filled all (endsStop ends))
    (endsExponent ends)

theorem exponentRead (below : Bool) {ds rest : List Char} (filled : ds ≠ [])
    (all : ∀ c ∈ ds, isDigit c = true) (stop : ∀ c ∈ rest.head?, isDigit c = false) :
    exponentPart ('e' :: (if below then '-' else '+') :: (ds ++ rest)) =
      some (some (below, ds), rest) := by
  have read := digitsRead filled all stop
  cases below with
  | true =>
    change (digits? (ds ++ rest)).map _ = _
    rw [read]
    rfl
  | false =>
    change (digits? (ds ++ rest)).map _ = _
    rw [read]
    rfl

theorem pointRead {ds : List Char} (all : ∀ c ∈ ds, isDigit c = true) (c : Char)
    (more : List Char) (stop : isDigit c = false) (other : c ≠ '.') :
    fractionPart (fractional ds ++ c :: more) = some (ds, c :: more) := by
  cases ds with
  | nil =>
    rw [fractional, List.nil_append, fractionPart]
    rintro rest same
    cases same
    exact other rfl
  | cons d rest =>
    refine digitsRead (List.cons_ne_nil d rest) all fun first mem => ?_
    cases mem
    exact stop

/-- The numeral of digits that are written with an exponent. -/
def scientificNumeral (negative : Bool) (d : Digits) : Numeral :=
  let size := Nat.toDigits 10 (d.point - 1).natAbs
  ⟨negative, d.digits.take 1, d.digits.drop 1,
    some (decide (d.point - 1 < 0), zeros (2 - size.length) ++ size)⟩

theorem scientificSpells (negative : Bool) {d : Digits} {c : Nat} (positive : 0 < c)
    (digits : d.digits = Nat.toDigits 10 c) :
    Spells ((if negative then ['-'] else []) ++ scientific floatText d)
      (scientificNumeral negative d) := by
  intro rest ends
  have filled : d.digits ≠ [] := digits ▸ Nat.toDigits_ne_nil
  have all : ∀ c ∈ d.digits, isDigit c = true := digits ▸ decimalDigits c
  have spelled : scientific floatText d ++ rest = d.digits.take 1 ++
      (fractional (d.digits.drop 1) ++ 'e' :: (if decide (d.point - 1 < 0) then '-' else '+') ::
        ((zeros (2 - (Nat.toDigits 10 (d.point - 1).natAbs).length) ++
          Nat.toDigits 10 (d.point - 1).natAbs) ++ rest)) := by
    rw [scientific]
    by_cases below : d.point - 1 < 0
    · simp [below, floatText]
    · simp [below, floatText]
  rw [List.append_assoc, spelled]
  refine numeralParts negative ?_ ?_ (pointRead ?_ 'e' _ (by decide) (by decide))
    (exponentRead _ ?_ ?_ (endsStop ends))
  · refine leadsDigits positive (by simp [filled]) ?_ ?_
    · exact fun c mem => all c (List.mem_of_mem_take mem)
    · rw [List.head?_take, if_neg (by decide), digits]
  · cases d.digits.drop 1 <;> (simp [fractional]; decide)
  · exact fun c mem => all c (List.mem_of_mem_drop mem)
  · simp [Nat.toDigits_ne_nil]
  · exact List.forall_mem_append.mpr ⟨zerosDigits _, decimalDigits _⟩

theorem scientificExponent (d : Digits) :
    decimal (zeros (2 - (Nat.toDigits 10 (d.point - 1).natAbs).length) ++
      Nat.toDigits 10 (d.point - 1).natAbs) = (d.point - 1).natAbs := by
  change Nat.ofDigitChars 10 _ 0 = _
  rw [zerosLead, Nat.ofDigitChars_ten_toDigits]

section scientific
variable (negative : Bool) {d : Digits} {c : Nat} (digits : d.digits = Nat.toDigits 10 c)
include digits

theorem scientificCoefficient : (scientificNumeral negative d).coefficient = c := by
  rw [Numeral.coefficient, scientificNumeral]
  dsimp only
  rw [List.take_append_drop, digits, Nat.ofDigitChars_ten_toDigits]

theorem scientificScale :
    (scientificNumeral negative d).scale = d.point - d.digits.length := by
  have several : 0 < d.digits.length := digits ▸ Nat.length_toDigits_pos
  rw [Numeral.scale, scientificNumeral]
  dsimp only
  rw [scientificExponent, List.length_drop]
  split
  · rename_i below
    have := of_decide_eq_true below
    omega
  · rename_i below
    rw [decide_eq_true_eq] at below
    omega

theorem scientificReadable (small : c ≤ 10 ^ 17)
    (fits : 0 ≤ d.point - d.digits.length → d.point - d.digits.length ≤ 308 ∧
      times (nearest c 1) (powerOfTen (d.point - d.digits.length).toNat) ≠ infinity) :
    (scientificNumeral negative d).Readable := by
  have size : UInt64.size = 18446744073709551616 := rfl
  have limit : exponentLimit = 2147483648 := rfl
  have coefficient := scientificCoefficient negative digits
  have few : d.digits.length ≤ 18 := by
    rw [digits, Nat.length_toDigits_le_iff (by decide) (by decide)]
    omega
  refine ⟨by omega, fun ds same => ?_, ?_⟩
  · rw [scientificNumeral] at same
    dsimp only at same
    simp only [Option.some.injEq, Prod.mk.injEq, decide_eq_false_iff_not] at same
    rw [← same.2, scientificExponent]
    by_cases up : 0 ≤ d.point - d.digits.length
    · have near := (fits up).1
      omega
    · omega
  · rw [scientificScale negative digits, coefficient]
    exact fits

end scientific

theorem zeroChars {x : Double} {exponent : Int} (reading : x.reading = .finite 0 exponent) :
    (Number.float x).chars = (if x.negative then ['-'] else []) ++ (['0'] ++ ['.', '0']) := by
  rw [Number.chars, Decimal.Layout.write, reading]
  exact String.toList_ofList

theorem digitsChars {x : Double} {m : Nat} {exponent : Int}
    (reading : x.reading = .finite (m + 1) exponent) : (Number.float x).chars =
      (if x.negative then ['-'] else []) ++
        (let d := shortest .even (m + 1) exponent
        if d.point - 1 < -5 ∨ 16 ≤ d.point - 1 then scientific floatText d else positional d) := by
  rw [Number.chars, Decimal.Layout.write, reading]
  refine String.toList_ofList.trans (congrArg _ (if_congr ?_ rfl rfl))
  rw [Bool.or_eq_true]
  exact or_congr decide_eq_true_iff decide_eq_true_iff

theorem floatSpells {x : Double} (finite : x.magnitude < infinity) :
    ∃ n, Spells (Number.float x).chars n ∧ n.Readable := by
  obtain ⟨shift, m, reading, -⟩ := readingForm finite
  cases m with
  | zero =>
    have small : (⟨x.negative, ['0'], ['0'], none⟩ : Numeral).coefficient < UInt64.size := by
      rw [Numeral.coefficient]
      exact (by decide : Nat.ofDigitChars 10 (['0'] ++ ['0']) 0 < UInt64.size)
    refine ⟨⟨x.negative, ['0'], ['0'], none⟩, fun rest ends => ?_,
      fractionReadable small rfl (List.cons_ne_nil _ _)⟩
    have digit : ∀ c ∈ ['0'], isDigit c = true := zerosDigits 1
    rw [zeroChars reading, List.append_assoc, List.append_assoc]
    exact numeralParts x.negative (decimalLeads 0) (by simp; decide)
      (digitsRead (by decide) digit (endsStop ends)) (endsExponent ends)
  | succ m =>
    rw [digitsChars reading]
    dsimp only
    by_cases far : (shortest .even (m + 1) ((shift : Int) - 1074)).point - 1 < -5 ∨
        16 ≤ (shortest .even (m + 1) ((shift : Int) - 1074)).point - 1
    · obtain ⟨c, positive, small, digits, fits⟩ := shortestFits finite reading (Nat.succ_pos m)
      rw [if_pos far]
      exact ⟨_, scientificSpells x.negative positive digits,
        scientificReadable x.negative digits small fits⟩
    · have short : (shortest .even (m + 1) ((shift : Int) - 1074)).point ≤ 16 := by omega
      obtain ⟨c, positive, small, digits, -⟩ := shortestFits finite reading (Nat.succ_pos m)
      rw [if_neg far]
      exact positionalSpells x.negative positive small digits short

/-! Any number -/

/-- The numeral that a number is written as. -/
def Number.numeral (n : Number) : Numeral :=
  ((Json.numeral n.chars).map (·.1)).getD ⟨false, [], [], none⟩

theorem spelledNumeral {n : Number} {read : Numeral} (spells : Spells n.chars read) :
    n.numeral = read := by
  have whole := spells [] (by rintro c ⟨⟩)
  rw [List.append_nil] at whole
  rw [Number.numeral, whole]
  rfl

theorem numeralRead {n : Number} (held : n.Held) : Spells n.chars n.numeral := by
  cases n with
  | integer n => exact spelledNumeral (integerSpells n) ▸ integerSpells n
  | float x =>
    obtain ⟨read, spells, -⟩ := floatSpells held
    exact spelledNumeral spells ▸ spells

theorem numeralStart {text rest : List Char} {read : Numeral}
    (found : numeral text = some (read, rest)) :
    ∃ c more, text = c :: more ∧ (c = '-' ∨ isDigit c = true) := by
  cases text with
  | nil => cases found
  | cons c more =>
    refine ⟨c, more, rfl, ?_⟩
    by_cases minus : c = '-'
    · exact .inl minus
    · refine .inr ?_
      have plain : signPart (c :: more) = (false, c :: more) := by
        rw [signPart]
        rintro rest same
        cases same
        exact minus rfl
      cases digit : isDigit c with
      | true => rfl
      | false =>
        have nothing : wholePart (c :: more) = none := by
          simp [wholePart, digits?, digit]
        simp [numeral, plain, nothing] at found

theorem numberStart {n : Number} (held : n.Held) :
    ∃ c more, n.chars = c :: more ∧ (c = '-' ∨ isDigit c = true) := by
  have whole := numeralRead held [] (by rintro c ⟨⟩)
  rw [List.append_nil] at whole
  exact numeralStart whole

/-- What becomes of a number that is written and read. -/
def Number.reread (n : Number) : Number := n.numeral.number?.getD n

theorem numeralNumber {n : Number} (integral : n.Integral) : n.numeral.number? = some n := by
  cases n with
  | float x =>
    rw [show x = .zero true from integral]
    decide +kernel
  | integer n =>
    obtain ⟨low, high⟩ : -(Nat.pow 2 63 : Int) ≤ n ∧ n < (Nat.pow 2 64 : Int) := integral
    have size : UInt64.size = 18446744073709551616 := rfl
    have bottom : Nat.pow 2 63 = 9223372036854775808 := rfl
    have top : Nat.pow 2 64 = 18446744073709551616 := rfl
    have value : significand 0 (Nat.toDigits 10 n.natAbs) = (n.natAbs, []) := by
      have back : Nat.ofDigitChars 10 (Nat.toDigits 10 n.natAbs) 0 = n.natAbs :=
        Nat.ofDigitChars_ten_toDigits
      rw [significandFits, back]
      rw [back]
      omega
    have signed : ¬ (decide (n < 0) = true ∧ n.natAbs = 0) := by
      rw [decide_eq_true_iff]
      omega
    rw [spelledNumeral (integerSpells n), Numeral.number?]
    simp only [value, significand]
    rw [if_pos ⟨rfl, rfl, rfl, signed⟩]
    by_cases negative : n < 0
    · have bound : n.natAbs ≤ Nat.pow 2 63 := by omega
      have whole : -(n.natAbs : Int) = n := by omega
      rw [decide_eq_true negative, if_neg (by decide), if_pos bound, whole]
    · have whole : (n.natAbs : Int) = n := by omega
      rw [decide_eq_false negative, if_pos (by decide), whole]

theorem integralReread {n : Number} (integral : n.Integral) : n.reread = n := by
  rw [Number.reread, numeralNumber integral, Option.getD_some]

theorem numberReread {n : Number} (held : n.Held) : n.numeral.number? = some n.reread := by
  cases n with
  | integer n =>
    have integral : (Number.integer n).Integral := held
    rw [integralReread integral, numeralNumber integral]
  | float x =>
    obtain ⟨read, spells, readable⟩ := floatSpells held
    have value := numberRead readable.small readable.near readable.fits
    rw [Number.reread, spelledNumeral spells]
    exact Option.eq_some_of_isSome value ▸ rfl

end NotebookTidy.Json
