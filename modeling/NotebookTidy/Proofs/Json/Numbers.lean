import NotebookTidy.Proofs.Decimal.Rounding
import NotebookTidy.Proofs.Json.Written

/-! The values of numerals. Integers and the zero that keeps its sign are read as they were; of any
other number that was read, the digits that are written are those of a number again. -/
namespace NotebookTidy.Json
open Decimal (Double Digits infinity nearest times quotient units)

/-! The parts of a numeral -/

def Numeral.coefficient (n : Numeral) : Nat := Nat.ofDigitChars 10 (n.whole ++ n.fraction) 0

def Numeral.scale (n : Numeral) : Int :=
  (match n.exponent with
    | none => 0
    | some (below, ds) => if below then -(decimal ds : Int) else decimal ds) - n.fraction.length

theorem digitsGrow (ds : List Char) (start : Nat) : start ≤ Nat.ofDigitChars 10 ds start := by
  rw [Nat.ofDigitChars_eq_ofDigitChars_zero]
  have factor := Nat.le_mul_of_pos_left start (Nat.pow_pos (n := ds.length) (show 0 < 10 by decide))
  omega

/-! Powers of ten -/

theorem powerLarge (n : Nat) : Decimal.unity ≤ units (powerOfTen n) := by
  have one : units (nearest 1 1) = Decimal.unity := by decide +kernel
  rw [← one, Decimal.unitsLe, powerOfTen]
  refine Decimal.nearestMono (by decide) (by decide) ?_
  rw [Nat.mul_one, Nat.mul_one]
  exact Nat.pow_pos (by decide)

theorem scaledFinite {x y : Nat} {exponent : Int} {fuel : Nat} (finite : x < infinity)
    (scaled : scaled x exponent fuel = some y) : y < infinity := by
  induction fuel generalizing x exponent with
  | zero => cases scaled
  | succ fuel ih =>
    rw [Json.scaled] at scaled
    have below (n : Nat) : quotient x (powerOfTen n) < infinity :=
      Nat.lt_of_le_of_lt (Decimal.quotientLe finite (powerLarge n)) finite
    split at scaled
    · split at scaled
      · dsimp only at scaled
        split at scaled
        · cases scaled
        · rename_i other
          rw [← Option.some.inj scaled]
          exact Nat.lt_of_le_of_ne (Decimal.nearestFinite _ _) other
      · rw [← Option.some.inj scaled]
        exact below _
    · split at scaled
      · rw [← Option.some.inj scaled]
        exact finite
      · split at scaled
        · cases scaled
        · exact ih (below _) scaled

theorem scaledDown (x : Nat) {exponent : Int} (negative : exponent < 0) {fuel : Nat}
    (enough : exponent.natAbs / 308 < fuel) : (scaled x exponent fuel).isSome := by
  induction fuel generalizing x exponent with
  | zero => omega
  | succ fuel ih =>
    have below : ¬ 0 ≤ exponent := by omega
    rw [scaled]
    split
    · rfl
    · split
      · rfl
      · exact ih _ (by omega) (by omega)

theorem scaledRead {x : Nat} {exponent : Int} (fits : 0 ≤ exponent → exponent ≤ 308 ∧
    times x (powerOfTen exponent.toNat) ≠ infinity) :
    let reduced := max exponent (-(exponentLimit : Int))
    (scaled x reduced (reduced.natAbs / 308 + 2)).isSome := by
  intro reduced
  have limit : exponentLimit = 2147483648 := rfl
  by_cases positive : 0 ≤ exponent
  · obtain ⟨near, finite⟩ := fits positive
    have here : reduced = exponent := by omega
    rw [here, scaled, if_pos (by omega), if_pos positive]
    dsimp only
    rw [if_neg finite]
    rfl
  · exact scaledDown x (by omega) (by omega)

/-! The value of a numeral -/

theorem significandFits {start : Nat} {ds : List Char}
    (fits : Nat.ofDigitChars 10 ds start < UInt64.size) :
    significand start ds = (Nat.ofDigitChars 10 ds start, []) := by
  induction ds generalizing start with
  | nil => rfl
  | cons d rest ih =>
    rw [Nat.ofDigitChars_cons] at fits ⊢
    have grows := digitsGrow rest (10 * start + (d.toNat - '0'.toNat))
    rw [significand, if_pos (Nat.lt_of_le_of_lt grows fits), ih fits]

theorem significandSmall {start : Nat} (small : start < UInt64.size) (ds : List Char) :
    (significand start ds).1 < UInt64.size := by
  induction ds generalizing start with
  | nil => exact small
  | cons d rest ih =>
    rw [significand]
    split
    · rename_i next
      exact ih next
    · exact small

theorem wholeFinite {n : Nat} (small : n < UInt64.size) : nearest n 1 < infinity := by
  have bound : nearest UInt64.size 1 < infinity := by decide +kernel
  refine Nat.lt_of_le_of_lt (Decimal.nearestMono (by decide) (by decide) ?_) bound
  exact Nat.mul_le_mul_right 1 (Nat.le_of_lt small)

theorem magnitudeOf (negative : Bool) {a : Nat} (finite : a < infinity) :
    (Double.ofMagnitude negative a).magnitude = a := by
  have limit : infinity = 0x7FF0000000000000 := rfl
  rw [Double.magnitude, Double.ofMagnitude]
  simp only [UInt64.toNat_ofNat', Nat.pow_eq]
  cases negative with
  | true =>
    rw [if_pos rfl]
    omega
  | false =>
    rw [if_neg Bool.false_ne_true]
    omega

theorem zeroHeld (negative : Bool) : (Number.float (.zero negative)).Held := by
  rw [Number.Held, Double.zero, magnitudeOf negative (by decide)]
  decide

theorem ofMagnitudeHeld (negative : Bool) {a : Nat} (finite : a < infinity) :
    (Number.float (.ofMagnitude negative a)).Held := by
  rw [Number.Held, magnitudeOf negative finite]
  exact finite

theorem heldCovers : Covers Number.Held := by
  intro numeral n read
  have size : UInt64.size = Nat.pow 2 64 := rfl
  have half : Nat.pow 2 64 = 2 * Nat.pow 2 63 := rfl
  have small := significandSmall (show 0 < UInt64.size by decide) numeral.whole
  rw [Numeral.number?] at read
  generalize significand 0 numeral.whole = first at *
  obtain ⟨whole, excess⟩ := first
  dsimp only at small read
  have smallToo := significandSmall small numeral.fraction
  generalize significand whole numeral.fraction = second at *
  obtain ⟨digits, dropped⟩ := second
  dsimp only at smallToo read
  split at read
  · split at read
    · rw [← Option.some.inj read, Number.Held]
      omega
    · split at read
      · rw [← Option.some.inj read, Number.Held]
        omega
      · rw [← Option.some.inj read]
        exact ofMagnitudeHeld _ (wholeFinite small)
  · split at read
    · rw [← Option.some.inj read]
      exact zeroHeld _
    · split at read
      · split at read
        · rw [← Option.some.inj read]
          exact zeroHeld _
        · cases read
      · obtain ⟨x, value, same⟩ := Option.map_eq_some_iff.mp read
        rw [← same]
        exact ofMagnitudeHeld _ (scaledFinite (wholeFinite smallToo) value)

/-- No digit of a small coefficient is left out. -/
theorem coefficientRead {n : Numeral} (small : n.coefficient < UInt64.size) :
    significand 0 n.whole = (Nat.ofDigitChars 10 n.whole 0, []) ∧
      significand (Nat.ofDigitChars 10 n.whole 0) n.fraction = (n.coefficient, []) := by
  have parts : n.coefficient = Nat.ofDigitChars 10 n.fraction (Nat.ofDigitChars 10 n.whole 0) :=
    Nat.ofDigitChars_append 0
  constructor
  · exact significandFits (Nat.lt_of_le_of_lt (parts ▸ digitsGrow _ _) small)
  · rw [parts]
    exact significandFits (parts ▸ small)

theorem numberRead {n : Numeral} (small : n.coefficient < UInt64.size)
    (near : ∀ ds, n.exponent = some (false, ds) → decimal ds < exponentLimit)
    (fits : 0 ≤ n.scale → n.scale ≤ 308 ∧
      times (nearest n.coefficient 1) (powerOfTen n.scale.toNat) ≠ infinity) :
    n.number?.isSome := by
  obtain ⟨whole, digits⟩ := coefficientRead small
  rw [Numeral.number?, whole]
  dsimp only
  rw [digits]
  dsimp only
  split
  · split
    · rfl
    · split <;> rfl
  · split
    · rfl
    · have value := scaledRead fits
      rw [Numeral.scale] at value
      cases exponent : n.exponent with
      | none =>
        rw [exponent] at value
        dsimp only at value ⊢
        rw [Option.isSome_map]
        simpa using value
      | some e =>
        obtain ⟨below, ds⟩ := e
        rw [exponent] at value
        dsimp only at value ⊢
        by_cases large : exponentLimit ≤ decimal ds
        · cases below with
          | true =>
            rw [if_pos large]
            rfl
          | false => exact absurd large (Nat.not_le.mpr (near ds exponent))
        · rw [if_neg large]
          dsimp only
          rw [Option.isSome_map]
          cases below with
          | true => simpa [Int.sub_eq_add_neg, Int.add_comm] using value
          | false => simpa [Int.sub_eq_add_neg, Int.add_comm] using value

end NotebookTidy.Json
