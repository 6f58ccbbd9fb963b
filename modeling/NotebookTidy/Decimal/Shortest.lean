import NotebookTidy.Decimal.Double

/-!
The fewest decimal digits that read back as a given binary number. For each count of digits the
two neighbours of the number on that decimal grid are tested in exact arithmetic; of two that read
back the nearer is taken, and `Tie` decides between equally near ones. How the digits are written is one
record of choices for each format.
-/
namespace NotebookTidy.Decimal

inductive Tie where
  | up
  | even
  deriving DecidableEq, Repr

/-- The digits `d₁ d₂ …` of `0.d₁d₂… * 10 ^ point`. -/
structure Digits where
  digits : List Char
  point : Int
  deriving DecidableEq, Repr

def withoutTrailingZeros (digits : List Char) : List Char :=
  (digits.reverse.dropWhile (· = '0')).reverse

/-- A positive number as `value / unit`, with the half gaps to its neighbours in the same unit.
Numbers exactly half way read back as the one with an even mantissa. -/
structure Interval where
  value : Nat
  unit : Nat
  below : Nat
  above : Nat
  closed : Bool

def Interval.around (mantissa : Nat) (exponent : Int) : Interval :=
  let scale := Nat.pow 2 exponent.toNat
  { value := 4 * mantissa * scale
    unit := 4 * Nat.pow 2 (-exponent).toNat
    below := (if mantissa = Nat.pow 2 52 ∧ -1074 < exponent then 1 else 2) * scale
    above := 2 * scale
    closed := mantissa % 2 = 0 }

/-- The `p` with `10 ^ (p - 1) ≤ value < 10 ^ p`. -/
def Interval.point (i : Interval) : Int :=
  if i.unit ≤ i.value then ((Nat.toDigits 10 (i.value / i.unit)).length : Int)
  else
    let count := (Nat.toDigits 10 (i.unit / i.value)).length
    if i.value * Nat.pow 10 (count - 1) = i.unit then 2 - (count : Int) else 1 - (count : Int)

def Interval.coefficient? (i : Interval) (tie : Tie) (point : Int) (count : Nat) : Option Nat :=
  let exponent := point - count
  let up := Nat.pow 10 exponent.toNat
  let down := Nat.pow 10 (-exponent).toNat
  let step := i.unit * up
  let floor := i.value * down / step
  let rest := i.value * down % step
  let within (distance gap : Nat) : Bool := distance < gap || (i.closed && distance = gap)
  let lower := within rest (i.below * down)
  let upper := within (step - rest) (i.above * down)
  let nearerUp :=
    step < 2 * rest || (2 * rest = step && (tie = .up || floor % 2 = 1))
  match lower, upper with
  | true, true => some (if nearerUp then floor + 1 else floor)
  | true, false => some floor
  | false, true => some (floor + 1)
  | false, false => none

/-- Seventeen digits always suffice. -/
def shortest (tie : Tie) (mantissa : Nat) (exponent : Int) : Digits :=
  let i := Interval.around mantissa exponent
  let point := i.point
  let found := (List.range 17).findSome? fun n =>
    (i.coefficient? tie point (n + 1)).map fun c => (c, n + 1)
  let (coefficient, count) := found.getD (0, 1)
  let digits := Nat.toDigits 10 coefficient
  ⟨withoutTrailingZeros digits, point + digits.length - count⟩

/-! Written forms -/

/-- A number is written with an exponent when its leading digit stands below `10 ^ low` or at
`10 ^ high` or above; a missing bound is never reached. The exponent has at least `width` digits,
and a plus sign only if asked for. -/
structure Layout where
  low : Option Int
  high : Option Int
  plus : Bool
  width : Nat
  tie : Tie
  nan : String
  deriving Repr

namespace Layout

def zeros (n : Nat) : List Char := List.replicate n '0'

def positional (d : Digits) : List Char :=
  if d.point ≤ 0 then '0' :: '.' :: (zeros (-d.point).toNat ++ d.digits)
  else
    let whole := d.point.toNat
    if d.digits.length ≤ whole then
      d.digits ++ zeros (whole - d.digits.length) ++ ['.', '0']
    else d.digits.take whole ++ '.' :: d.digits.drop whole

/-- Digits behind a point, which is left out where there are none. -/
def fractional : List Char → List Char
  | [] => []
  | digits => '.' :: digits

def scientific (l : Layout) (d : Digits) : List Char :=
  let exponent := d.point - 1
  let sign := if exponent < 0 then ['-'] else if l.plus then ['+'] else []
  let digits := Nat.toDigits 10 exponent.natAbs
  d.digits.take 1 ++ fractional (d.digits.drop 1) ++ 'e' :: sign ++
    zeros (l.width - digits.length) ++ digits

def write (l : Layout) (d : Double) : String :=
  let sign := if d.negative then ['-'] else []
  match d.reading with
  | .nan => l.nan
  | .infinite => String.ofList (sign ++ ['i', 'n', 'f'])
  | .finite 0 _ => String.ofList (sign ++ ['0', '.', '0'])
  | .finite mantissa exponent =>
    let digits := shortest l.tie mantissa exponent
    let lead := digits.point - 1
    let scientificForm := l.low.any (lead < ·) || l.high.any (· ≤ lead)
    String.ofList (sign ++ (if scientificForm then scientific l digits else positional digits))

end Layout
end NotebookTidy.Decimal
