import Mathlib.Tactic.Ring
import Mathlib.Order.Monotone.Basic
import NotebookTidy.Decimal.Double

/-! Rounding to the nearest number, told by comparisons of exact products: a fraction rounds to at
most `m` if it lies below the middle between `m` and the next number, or on it and `m` is even. -/
namespace NotebookTidy.Decimal

theorem roundedLe (num : Nat) {den : Nat} (positive : 0 < den) (m : Nat) :
    roundHalfEven num den ≤ m ↔
      2 * num < den * (2 * m + 1) ∨ 2 * num = den * (2 * m + 1) ∧ m % 2 = 0 := by
  have parts : den * (num / den) + num % den = num := Nat.div_add_mod num den
  have rest : num % den < den := Nat.mod_lt num positive
  have middle : den * (2 * m + 1) = 2 * (den * m) + den := by ring
  rw [roundHalfEven, middle]
  generalize num / den = q at *
  generalize num % den = r at *
  have below (less : q < m) : den * q + den ≤ den * m := by
    rw [← Nat.mul_succ]
    exact Nat.mul_le_mul_left den less
  have above (more : m < q) : den * m + den ≤ den * q := by
    rw [← Nat.mul_succ]
    exact Nat.mul_le_mul_left den more
  simp only [Bool.or_eq_true, Bool.and_eq_true, decide_eq_true_eq]
  rcases Nat.lt_trichotomy q m with less | rfl | more
  · have := below less
    split <;> omega
  · split <;> omega
  · have := above more
    split <;> omega

theorem roundedAbove {num den m : Nat} (positive : 0 < den) (above : den * m ≤ num) :
    m ≤ roundHalfEven num den := by
  have whole : m ≤ num / den := (Nat.le_div_iff_mul_le positive).mpr (Nat.mul_comm den m ▸ above)
  rw [roundHalfEven]
  split <;> omega

theorem roundedBelow {num den m : Nat} (positive : 0 < den) (below : num ≤ den * m) :
    roundHalfEven num den ≤ m := by
  have middle : den * (2 * m + 1) = 2 * (den * m) + den := by ring
  rw [roundedLe num positive, middle]
  omega

/-! Magnitudes -/

/-- Every magnitude is one of the numbers with 53 digits in base two and some shift, or one of the
smaller numbers with none. -/
theorem unitsForm (a : Nat) : ∃ shift m, a = shift * 2 ^ 52 + m ∧
    (shift = 0 ∨ 2 ^ 52 ≤ m) ∧ m < 2 ^ 53 := by
  refine ⟨a / 2 ^ 52 - 1, a - (a / 2 ^ 52 - 1) * 2 ^ 52, ?_⟩
  have size : 2 ^ 52 = 4503599627370496 := rfl
  have double : 2 ^ 53 = 9007199254740992 := rfl
  omega

theorem unitsAt (shift m : Nat) (low : shift = 0 ∨ 2 ^ 52 ≤ m) (high : m ≤ 2 ^ 53) :
    units (shift * 2 ^ 52 + m) = m * 2 ^ shift := by
  have size : 2 ^ 52 = 4503599627370496 := rfl
  have double : 2 ^ 53 = 9007199254740992 := rfl
  rw [units]
  simp only [Nat.pow_eq]
  rcases Nat.lt_or_ge m (2 ^ 53) with inside | edge
  · have same : (shift * 2 ^ 52 + m) / 2 ^ 52 - 1 = shift := by omega
    rw [same, Nat.add_sub_cancel_left]
  · -- Twice the smallest mantissa is that mantissa with the next shift.
    have next : (shift * 2 ^ 52 + m) / 2 ^ 52 - 1 = shift + 1 := by omega
    have half : shift * 2 ^ 52 + m - (shift + 1) * 2 ^ 52 = 2 ^ 52 := by omega
    have whole : m = 2 ^ 52 * 2 := by omega
    rw [next, half, whole, pow_succ]
    ring

theorem unitsStep (a : Nat) : units a < units (a + 1) := by
  obtain ⟨shift, m, rfl, low, high⟩ := unitsForm a
  have positive : 0 < 2 ^ shift := Nat.pow_pos (by decide)
  rw [Nat.add_assoc, unitsAt shift m low (Nat.le_of_lt high),
    unitsAt shift (m + 1) (low.imp_right Nat.le_succ_of_le) high, Nat.succ_mul]
  omega

theorem unitsMono : StrictMono units := strictMono_nat_of_lt_succ unitsStep

theorem unitsLe {a b : Nat} : units a ≤ units b ↔ a ≤ b := unitsMono.le_iff_le

/-! The nearest number -/

/-- The middle between a magnitude and the next one, in halves of the smallest number. -/
def middle (a : Nat) : Nat := units a + units (a + 1)

section shift
variable {shift a : Nat}

theorem middleAt {m : Nat} (low : shift = 0 ∨ 2 ^ 52 ≤ m) (high : m < 2 ^ 53) :
    middle (shift * 2 ^ 52 + m) = (2 * m + 1) * 2 ^ shift := by
  rw [middle, Nat.add_assoc, unitsAt shift m low (Nat.le_of_lt high),
    unitsAt shift (m + 1) (low.imp_right Nat.le_succ_of_le) high]
  ring

/-- The numbers before those with a shift. -/
theorem middleBelow (less : a < shift * 2 ^ 52 + 2 ^ 52) :
    middle a < 2 * (2 ^ 52 * 2 ^ shift) := by
  have least : units (a + 1) ≤ 2 ^ 52 * 2 ^ shift := by
    rw [← unitsAt shift (2 ^ 52) (.inr (Nat.le_refl _)) (by decide), unitsLe]
    exact less
  have step := unitsStep a
  rw [middle]
  omega

/-- The numbers after those with a shift. -/
theorem middleAbove (above : shift * 2 ^ 52 + 2 ^ 53 ≤ a) :
    2 * (2 ^ 53 * 2 ^ shift) ≤ middle a := by
  have most : 2 ^ 53 * 2 ^ shift ≤ units a := by
    rw [← unitsAt shift (2 ^ 53) (.inr (by decide)) (Nat.le_refl _), unitsLe]
    exact above
  have step := unitsStep a
  rw [middle]
  omega

end shift

theorem shiftBounds (x : Nat) : (x.log2 - 52 = 0 ∨ 2 ^ 52 * 2 ^ (x.log2 - 52) ≤ x) ∧
    x < 2 ^ 53 * 2 ^ (x.log2 - 52) := by
  rw [← pow_add, ← pow_add]
  constructor
  · rcases Nat.lt_or_ge 52 x.log2 with large | small
    · have nonzero : x ≠ 0 := by
        rintro rfl
        exact absurd large (by decide)
      rw [Nat.add_sub_of_le (Nat.le_of_lt large)]
      exact .inr (Nat.log2_self_le nonzero)
    · exact .inl (by omega)
  · exact Nat.lt_of_lt_of_le Nat.lt_log2_self (Nat.pow_le_pow_right (by decide) (by omega))

theorem nearestLe {num den a : Nat} (positive : 0 < den) (finite : a < infinity) :
    nearest num den ≤ a ↔ 2 * (num * unity) < den * middle a ∨
      2 * (num * unity) = den * middle a ∧ a % 2 = 0 := by
  rw [nearest, min_le_iff, or_iff_left (Nat.not_le.mpr finite)]
  simp only [Nat.pow_eq]
  generalize num * unity = x
  obtain ⟨low, high⟩ := shiftBounds (x / den)
  generalize (x / den).log2 - 52 = shift at *
  have scale : 0 < den * 2 ^ shift := Nat.mul_pos positive (Nat.pow_pos (by decide))
  have scaled (n : Nat) : den * (n * 2 ^ shift) = den * 2 ^ shift * n := by ring
  have small : x < den * 2 ^ shift * 2 ^ 53 := by
    rw [← scaled, Nat.mul_comm]
    exact (Nat.div_lt_iff_lt_mul positive).mp high
  have large : shift = 0 ∨ den * 2 ^ shift * 2 ^ 52 ≤ x := by
    refine low.imp_right fun bound => ?_
    rw [← scaled, Nat.mul_comm]
    exact (Nat.le_div_iff_mul_le positive).mp bound
  rcases Nat.lt_or_ge a (shift * 2 ^ 52 + 2 ^ 53) with inside | above
  · by_cases reached : shift = 0 ∨ shift * 2 ^ 52 + 2 ^ 52 ≤ a
    · obtain ⟨m, rfl⟩ : ∃ m, a = shift * 2 ^ 52 + m := ⟨a - shift * 2 ^ 52, by omega⟩
      have here : middle (shift * 2 ^ 52 + m) = (2 * m + 1) * 2 ^ shift :=
        middleAt (reached.imp_right (by omega)) (by omega)
      have parity : (shift * 2 ^ 52 + m) % 2 = m % 2 := by omega
      rw [here, scaled, parity, ← roundedLe x scale, Nat.add_le_add_iff_left]
    · -- Every number with this shift is larger.
      obtain ⟨shifted, less⟩ := not_or.mp reached
      have product := Nat.mul_lt_mul_of_pos_left (middleBelow (Nat.lt_of_not_le less)) positive
      rw [Nat.mul_left_comm, scaled] at product
      have bound := large.resolve_left shifted
      have more := roundedAbove scale bound
      exact iff_of_false (by omega) (by omega)
  · -- Every number with this shift is smaller, or equal to the one at hand.
    have product := Nat.mul_le_mul_left den (middleAbove above)
    rw [Nat.mul_left_comm, scaled] at product
    have less := roundedBelow scale (Nat.le_of_lt small)
    exact iff_of_true (by omega) (by omega)

theorem nearestFinite (num den : Nat) : nearest num den ≤ infinity := Nat.min_le_right _ _

theorem nearestMono {num den num' den' : Nat} (positive : 0 < den) (positive' : 0 < den')
    (less : num * den' ≤ num' * den) : nearest num den ≤ nearest num' den' := by
  rcases Nat.eq_or_lt_of_le (nearestFinite num' den') with same | finite
  · rw [same]
    exact nearestFinite num den
  · have products : den' * (2 * (num * unity)) ≤ den * (2 * (num' * unity)) := by
      have scaled := Nat.mul_le_mul_left (2 * unity) less
      calc den' * (2 * (num * unity)) = 2 * unity * (num * den') := by ring
        _ ≤ 2 * unity * (num' * den) := scaled
        _ = den * (2 * (num' * unity)) := by ring
    have bound := (nearestLe positive' finite).mp (Nat.le_refl _)
    rw [nearestLe positive finite]
    generalize middle (nearest num' den') = m at *
    have swap : den' * (den * m) = den * (den' * m) := Nat.mul_left_comm ..
    rcases bound with below | ⟨edge, even⟩
    · refine .inl (Nat.lt_of_mul_lt_mul_left (a := den') ?_)
      rw [swap]
      exact Nat.lt_of_le_of_lt products (Nat.mul_lt_mul_of_pos_left below positive)
    · rw [edge, ← swap] at products
      have less := Nat.le_of_mul_le_mul_left products positive'
      exact (Nat.lt_or_eq_of_le less).imp_right (⟨·, even⟩)

theorem unityPower : unity = 2 ^ 1074 := by decide +kernel

theorem unityPositive : 0 < unity := by decide +kernel

theorem nearestUnits {a : Nat} (finite : a < infinity) : nearest (units a) unity = a := by
  have halves (b : Nat) : unity * middle b = units b * unity + units (b + 1) * unity := by
    rw [middle]
    ring
  have below (b c : Nat) (less : b < c) : units b * unity < units c * unity :=
    Nat.mul_lt_mul_of_pos_right (unitsMono less) unityPositive
  refine Nat.le_antisymm ?_ ?_
  · have step := below a (a + 1) (Nat.lt_succ_self a)
    rw [nearestLe unityPositive finite, halves]
    omega
  · match a with
    | 0 => exact Nat.zero_le _
    | b + 1 =>
      have step := below b (b + 1) (Nat.lt_succ_self b)
      refine Nat.lt_of_not_le fun less => ?_
      rw [nearestLe unityPositive (Nat.lt_of_succ_lt finite), halves] at less
      omega

/-! Products and quotients -/

theorem timesMono {a b a' b' : Nat} (left : a ≤ a') (right : b ≤ b') : times a b ≤ times a' b' := by
  have positive : 0 < unity * unity := Nat.mul_pos unityPositive unityPositive
  refine nearestMono positive positive (Nat.mul_le_mul_right _ ?_)
  exact Nat.mul_le_mul (unitsLe.mpr left) (unitsLe.mpr right)

theorem quotientLe {a b : Nat} (finite : a < infinity) (large : unity ≤ units b) :
    quotient a b ≤ a := by
  have positive : 0 < units b := Nat.lt_of_lt_of_le unityPositive large
  calc quotient a b ≤ nearest (units a) unity :=
        nearestMono positive unityPositive (Nat.mul_le_mul_left _ large)
    _ = a := nearestUnits finite

end NotebookTidy.Decimal
