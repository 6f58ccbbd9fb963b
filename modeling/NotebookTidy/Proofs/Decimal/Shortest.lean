import Mathlib.Tactic.Ring
import NotebookTidy.Decimal.Shortest

/-! The digits that are found for a number. They are at most seventeen, without zeros at either end,
and stand for no more than the middle between the number and the next one. -/
namespace NotebookTidy.Decimal

/-! Decimals below a fraction -/

/-- `c * 10 ^ x` is at most `num / den`. -/
def Within (c : Nat) (x : Int) (num den : Nat) : Prop :=
  c * (den * 10 ^ x.toNat) ≤ num * 10 ^ (-x).toNat

theorem withinShift (c : Nat) (x : Int) (n num den : Nat) :
    Within (c * 10 ^ n) x num den ↔ Within c (x + n) num den := by
  have powers : 10 ^ (x + n).toNat * 10 ^ (-x).toNat =
      10 ^ n * 10 ^ x.toNat * 10 ^ (-(x + n)).toNat := by
    simp only [← pow_add]
    congr 1
    omega
  have positive (k : Nat) : 0 < 10 ^ k := Nat.pow_pos (by decide)
  calc Within (c * 10 ^ n) x num den ↔
        c * 10 ^ n * (den * 10 ^ x.toNat) * 10 ^ (-(x + n)).toNat ≤
          num * 10 ^ (-x).toNat * 10 ^ (-(x + n)).toNat :=
        (Nat.mul_le_mul_right_iff (positive _)).symm
    _ ↔ c * (den * 10 ^ (x + n).toNat) * 10 ^ (-x).toNat ≤
          num * 10 ^ (-(x + n)).toNat * 10 ^ (-x).toNat := by
        have left : c * 10 ^ n * (den * 10 ^ x.toNat) * 10 ^ (-(x + n)).toNat =
            c * den * (10 ^ n * 10 ^ x.toNat * 10 ^ (-(x + n)).toNat) := by ring
        have right : c * (den * 10 ^ (x + n).toNat) * 10 ^ (-x).toNat =
            c * den * (10 ^ (x + n).toNat * 10 ^ (-x).toNat) := by ring
        rw [left, right, powers, Nat.mul_right_comm num]
    _ ↔ Within c (x + n) num den := Nat.mul_le_mul_right_iff (positive _)

theorem withinLarger {c num num' den : Nat} {x : Int} (larger : num ≤ num')
    (within : Within c x num den) : Within c x num' den :=
  Nat.le_trans within (Nat.mul_le_mul_right _ larger)

theorem withinWhole (c : Nat) {x : Int} {num den : Nat} (positive : 0 < den) :
    c ≤ num * 10 ^ (-x).toNat / (den * 10 ^ x.toNat) ↔ Within c x num den :=
  Nat.le_div_iff_mul_le (Nat.mul_pos positive (Nat.pow_pos (by decide)))

/-! The place of the first digit -/

theorem digitsBounds (n : Nat) : n < 10 ^ (Nat.toDigits 10 n).length ∧
    (0 < n → 10 ^ ((Nat.toDigits 10 n).length - 1) ≤ n) := by
  have filled : 0 < (Nat.toDigits 10 n).length := Nat.length_toDigits_pos
  refine ⟨(Nat.length_toDigits_le_iff (by decide) filled).mp (Nat.le_refl _), fun positive => ?_⟩
  rcases Nat.eq_or_lt_of_le filled with single | several
  · rw [← single]
    exact positive
  · refine Nat.le_of_not_lt fun less => ?_
    rw [← Nat.length_toDigits_le_iff (by decide) (by omega)] at less
    omega

/-- The powers of ten around a quotient of at least one, told by its digits. -/
theorem quotientBounds {num den : Nat} (positive : 0 < den) (large : den ≤ num) :
    10 ^ ((Nat.toDigits 10 (num / den)).length - 1) * den ≤ num ∧
      num < 10 ^ (Nat.toDigits 10 (num / den)).length * den := by
  obtain ⟨above, below⟩ := digitsBounds (num / den)
  exact ⟨(Nat.le_div_iff_mul_le positive).mp (below (Nat.div_pos large positive)),
    (Nat.div_lt_iff_lt_mul positive).mp above⟩

theorem pointBounds {i : Interval} (positive : 0 < i.value) (unit : 0 < i.unit) :
    Within 1 (i.point - 1) i.value i.unit ∧ ¬ Within 1 i.point i.value i.unit := by
  rw [Interval.point, Within, Within, Nat.one_mul, Nat.one_mul, Nat.not_le]
  split
  · rename_i large
    have filled : 0 < (Nat.toDigits 10 (i.value / i.unit)).length := Nat.length_toDigits_pos
    obtain ⟨reached, missed⟩ := quotientBounds unit large
    generalize (Nat.toDigits 10 (i.value / i.unit)).length = count at *
    have first : ((count : Int) - 1).toNat = count - 1 := by omega
    have first' : (-((count : Int) - 1)).toNat = 0 := by omega
    have whole : (-(count : Int)).toNat = 0 := by omega
    rw [first, first', whole, Int.toNat_natCast, Nat.pow_zero, Nat.mul_one, Nat.mul_comm i.unit,
      Nat.mul_comm i.unit]
    exact ⟨reached, missed⟩
  · rename_i small
    have filled : 0 < (Nat.toDigits 10 (i.unit / i.value)).length := Nat.length_toDigits_pos
    obtain ⟨reached, missed⟩ := quotientBounds positive (Nat.le_of_not_le small)
    dsimp only
    generalize (Nat.toDigits 10 (i.unit / i.value)).length = count at *
    rw [Nat.mul_comm] at reached missed
    have place (n : Nat) : (-(-(n : Int))).toNat = n ∧ (-(n : Int)).toNat = 0 := by omega
    obtain ⟨less, rfl⟩ : ∃ less, count = less + 1 := ⟨count - 1, by omega⟩
    rw [Nat.add_sub_cancel] at *
    simp only [Nat.pow_eq]
    split
    · -- The number is itself a power of ten, and is the first with so many digits.
      rename_i power
      cases less with
      | zero =>
        rw [Nat.pow_zero, Nat.mul_one] at power
        omega
      | succ fewer =>
        have here : (2 - ((fewer + 1 + 1 : Nat) : Int)) - 1 = -((fewer + 1 : Nat) : Int) := by omega
        have next : (2 - ((fewer + 1 + 1 : Nat) : Int)) = -(fewer : Int) := by omega
        rw [here, next, (place _).1, (place _).2, (place _).1, (place _).2, power]
        rw [pow_succ, ← Nat.mul_assoc] at power
        omega
    · rename_i other
      have here : (1 - ((less + 1 : Nat) : Int)) - 1 = -((less + 1 : Nat) : Int) := by omega
      have next : (1 - ((less + 1 : Nat) : Int)) = -(less : Int) := by omega
      rw [here, next, (place _).1, (place _).2, (place _).1, (place _).2]
      omega

/-! The coefficient for so many digits -/

/-- What `coefficient?` may give: one with so many digits, or the power of ten after them all, that
is at most the middle between the number and the next one. -/
structure Chosen (i : Interval) (point : Int) (count c : Nat) : Prop where
  positive : 0 < c
  bounded : c ≤ 10 ^ count
  within : Within c (point - count) (i.value + i.above) i.unit

variable {i : Interval}

theorem floorBounds (positive : 0 < i.value) (unit : 0 < i.unit) (count : Nat) {floor : Nat}
    (whole : ∀ c, c ≤ floor ↔ Within c (i.point - (count + 1 : Nat)) i.value i.unit) :
    10 ^ count ≤ floor ∧ floor < 10 ^ (count + 1) := by
  obtain ⟨reached, missed⟩ := pointBounds positive unit
  have lower : i.point - (count + 1 : Nat) + (count : Nat) = i.point - 1 := by omega
  have upper : i.point - (count + 1 : Nat) + (count + 1 : Nat) = i.point := by omega
  rw [← Nat.not_le, whole, whole, ← Nat.one_mul (10 ^ count), ← Nat.one_mul (10 ^ (count + 1)),
    withinShift, withinShift, lower, upper]
  exact ⟨reached, missed⟩

theorem coefficientCases {tie : Tie} {point : Int} {count c : Nat}
    (chosen : i.coefficient? tie point count = some c) :
    let step := i.unit * 10 ^ (point - count).toNat
    let scaled := i.value * 10 ^ (-(point - count)).toNat
    c = scaled / step ∨
      c = scaled / step + 1 ∧ step - scaled % step ≤ i.above * 10 ^ (-(point - count)).toNat := by
  intro step scaled
  have either (gap : Nat) {distance : Nat}
      (within : (distance < gap || i.closed && distance = gap) = true) : distance ≤ gap := by
    rcases Bool.or_eq_true _ _ ▸ within with less | same
    · exact Nat.le_of_lt (of_decide_eq_true less)
    · exact Nat.le_of_eq (of_decide_eq_true (Bool.and_eq_true _ _ ▸ same).2)
  rw [Interval.coefficient?] at chosen
  simp only [Nat.pow_eq] at chosen
  split at chosen
  · rename_i upper
    split at chosen
    · exact .inr ⟨(Option.some.inj chosen).symm, either _ upper⟩
    · exact .inl (Option.some.inj chosen).symm
  · exact .inl (Option.some.inj chosen).symm
  · rename_i upper
    exact .inr ⟨(Option.some.inj chosen).symm, either _ upper⟩
  · cases chosen

theorem coefficientChosen (positive : 0 < i.value) (unit : 0 < i.unit) {tie : Tie} {count c : Nat}
    (chosen : i.coefficient? tie i.point (count + 1) = some c) :
    Chosen i i.point (count + 1) c := by
  have whole (c : Nat) : _ ↔ Within c (i.point - (count + 1 : Nat)) i.value i.unit :=
    withinWhole c unit
  obtain ⟨reached, missed⟩ := floorBounds positive unit count whole
  have tens : 0 < 10 ^ count := Nat.pow_pos (by decide)
  rcases coefficientCases chosen with rfl | ⟨rfl, upper⟩
  · refine ⟨by omega, by omega, withinLarger (Nat.le_add_right _ _) ?_⟩
    exact (whole _).mp (Nat.le_refl _)
  · refine ⟨by omega, by omega, ?_⟩
    rw [Within, Nat.add_mul, Nat.add_mul, Nat.one_mul, Nat.mul_comm (_ / _)]
    have parts := Nat.div_add_mod (i.value * 10 ^ (-(i.point - (count + 1 : Nat))).toNat)
      (i.unit * 10 ^ (i.point - (count + 1 : Nat)).toNat)
    omega

theorem coefficientFound (positive : 0 < i.value) (unit : 0 < i.unit) {tie : Tie} {count : Nat}
    (fine : i.value < (i.below + i.above) * 10 ^ count) :
    (i.coefficient? tie i.point (count + 1)).isSome := by
  obtain ⟨reached, -⟩ := floorBounds positive unit count fun c => withinWhole c unit
  have neither (gap : Nat) {distance : Nat}
      (without : (distance < gap || i.closed && distance = gap) = false) : gap ≤ distance := by
    simpa using (Bool.or_eq_false_iff.mp without).1
  rw [Interval.coefficient?]
  simp only [Nat.pow_eq]
  split
  · rfl
  · rfl
  · rfl
  · -- The neighbours are then further apart than the numbers that read back.
    rename_i lower upper
    have low := neither _ lower
    have high := neither _ upper
    have down : 0 < 10 ^ (-(i.point - (count + 1 : Nat))).toNat := Nat.pow_pos (by decide)
    have up : 0 < 10 ^ (i.point - (count + 1 : Nat)).toNat := Nat.pow_pos (by decide)
    generalize 10 ^ (-(i.point - (count + 1 : Nat))).toNat = d at reached low high down
    have step := Nat.mul_pos unit up
    generalize i.unit * 10 ^ (i.point - (count + 1 : Nat)).toNat = s at reached low high step
    have gaps : (i.below + i.above) * d ≤ s := by
      have rest := Nat.mod_lt (i.value * d) step
      rw [Nat.add_mul]
      omega
    have larger := (Nat.le_div_iff_mul_le step).mp reached
    have smaller : i.value * d < 10 ^ count * s := calc
      i.value * d < (i.below + i.above) * 10 ^ count * d := Nat.mul_lt_mul_of_pos_right fine down
      _ = 10 ^ count * ((i.below + i.above) * d) := by ring
      _ ≤ 10 ^ count * s := Nat.mul_le_mul_left _ gaps
    omega

/-! The digits -/

theorem leadingDigit {n : Nat} (positive : 0 < n) : (Nat.toDigits 10 n).head? ≠ some '0' := by
  induction n using Nat.strongRecOn with
  | _ n ih =>
    rw [Nat.toDigits_eq_if (by decide)]
    split
    · rename_i small
      have chars : ∀ d < 10, 0 < d → some (Nat.digitChar d) ≠ some '0' := by decide
      exact chars n small positive
    · rename_i large
      have fewer := ih (n / 10) (by omega) (by omega)
      rw [List.head?_append]
      cases found : (Nat.toDigits 10 (n / 10)).head? with
      | none => exact absurd (List.head?_eq_none_iff.mp found) Nat.toDigits_ne_nil
      | some c => rwa [found] at fewer

theorem digitsStripped {n : Nat} (positive : 0 < n) : ∃ c zeros, n = c * 10 ^ zeros ∧
    withoutTrailingZeros (Nat.toDigits 10 n) = Nat.toDigits 10 c ∧
    (Nat.toDigits 10 n).length = (Nat.toDigits 10 c).length + zeros := by
  induction n using Nat.strongRecOn with
  | _ n ih =>
    have kept (front : List Char) (other : n % 10 ≠ 0) :
        withoutTrailingZeros (front ++ [Nat.digitChar (n % 10)]) =
          front ++ [Nat.digitChar (n % 10)] := by
      simp [withoutTrailingZeros, other]
    rcases Nat.lt_or_ge n 10 with single | several
    · refine ⟨n, 0, by omega, ?_, rfl⟩
      have other := kept [] (by omega)
      rw [Nat.mod_eq_of_lt single] at other
      rwa [Nat.toDigits_of_lt_base single]
    · rw [Nat.toDigits_of_base_le (by decide) several]
      by_cases zero : n % 10 = 0
      · obtain ⟨c, zeros, whole, digits, length⟩ := ih (n / 10) (by omega) (by omega)
        refine ⟨c, zeros + 1, ?_, ?_, ?_⟩
        · rw [pow_succ, ← Nat.mul_assoc, ← whole]
          omega
        · rw [← digits, zero]
          simp [withoutTrailingZeros]
        · rw [List.length_append, length]
          rfl
      · refine ⟨n, 0, by omega, ?_, ?_⟩
        · rw [kept _ zero, Nat.toDigits_of_base_le (by decide) several]
        · rw [Nat.toDigits_of_base_le (by decide) several]
          rfl

theorem aroundFine {mantissa : Nat} (exponent : Int) (positive : 0 < mantissa)
    (small : mantissa < 2 ^ 53) :
    let i := Interval.around mantissa exponent
    0 < i.value ∧ 0 < i.unit ∧ i.value < (i.below + i.above) * 10 ^ 16 := by
  have scale : 0 < 2 ^ exponent.toNat := Nat.two_pow_pos _
  refine ⟨Nat.mul_pos (by omega) scale, Nat.mul_pos (by decide) (Nat.two_pow_pos _), ?_⟩
  dsimp only [Interval.around]
  simp only [Nat.pow_eq]
  rw [← Nat.add_mul, Nat.mul_right_comm _ (2 ^ exponent.toNat)]
  refine Nat.mul_lt_mul_of_pos_right ?_ scale
  split <;> omega

theorem shortestDigits (tie : Tie) {mantissa : Nat} (exponent : Int) (positive : 0 < mantissa)
    (small : mantissa < 2 ^ 53) :
    let d := shortest tie mantissa exponent
    let i := Interval.around mantissa exponent
    ∃ c, 0 < c ∧ c ≤ 10 ^ 17 ∧ d.digits = Nat.toDigits 10 c ∧
      Within c (d.point - d.digits.length) (i.value + i.above) i.unit := by
  intro d i
  obtain ⟨value, unit, fine⟩ := aroundFine exponent positive small
  have found : ((List.range 17).findSome? fun n =>
      (i.coefficient? tie i.point (n + 1)).map fun c => (c, n + 1)).isSome := by
    rw [List.findSome?_isSome_iff]
    refine ⟨16, by decide, ?_⟩
    rw [Option.isSome_map]
    exact coefficientFound value unit fine
  obtain ⟨⟨c, count⟩, first⟩ := Option.isSome_iff_exists.mp found
  obtain ⟨n, mem, pair⟩ := List.exists_of_findSome?_eq_some first
  obtain ⟨c, chosen, same⟩ := Option.map_eq_some_iff.mp pair
  cases same
  have held := coefficientChosen value unit chosen
  obtain ⟨short, zeros, whole, stripped, length⟩ := digitsStripped held.positive
  have spelled : d =
      ⟨Nat.toDigits 10 short, i.point + (Nat.toDigits 10 c).length - (n + 1 : Nat)⟩ := by
    change shortest tie mantissa exponent = _
    rw [shortest, ← stripped]
    change Digits.mk _ _ = _
    rw [first]
  have few : n < 17 := List.mem_range.mp mem
  have exponent_ : d.point - d.digits.length = i.point - (n + 1 : Nat) + zeros := by
    rw [spelled]
    dsimp only
    omega
  have power : 0 < 10 ^ zeros := Nat.pow_pos (by decide)
  refine ⟨short, ?_, ?_, by rw [spelled], ?_⟩
  · exact Nat.pos_of_mul_pos_right (whole ▸ held.positive)
  · calc short ≤ c := whole ▸ Nat.le_mul_of_pos_right short power
      _ ≤ 10 ^ (n + 1) := held.bounded
      _ ≤ 10 ^ 17 := Nat.pow_le_pow_right (by decide) few
  · rw [exponent_, ← withinShift, ← whole]
    exact held.within

end NotebookTidy.Decimal
