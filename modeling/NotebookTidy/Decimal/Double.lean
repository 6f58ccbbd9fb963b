/-!
Binary64 numbers by their bits, and the number nearest to a fraction. All arithmetic is exact, on
natural numbers; halves go to the even neighbour.
-/
namespace NotebookTidy.Decimal

structure Double where
  bits : UInt64
  deriving DecidableEq, Repr

/-- A number read off its bits. A finite one is `mantissa * 2 ^ exponent`. -/
inductive Reading where
  | nan
  | infinite
  | finite (mantissa : Nat) (exponent : Int)
  deriving DecidableEq, Repr

/-- The bits of infinity; those below it, as numbers, are in the order of the finite values. -/
def infinity : Nat := 0x7FF0000000000000

def roundHalfEven (num den : Nat) : Nat :=
  let quotient := num / den
  let rest := num % den
  if den < 2 * rest || (2 * rest = den && quotient % 2 = 1) then quotient + 1 else quotient

/-- How often the smallest positive number goes into one. -/
def unity : Nat := Nat.pow 2 1074

/-- Bits of the positive number nearest to `num / den`: so many of the smallest positive number,
rounded to 53 digits in base two. A mantissa that rounds up to the next power of two carries into
the exponent's bits, as it should. -/
def nearest (num den : Nat) : Nat :=
  let scaled := num * unity
  let shift := (scaled / den).log2 - 52
  min (shift * Nat.pow 2 52 + roundHalfEven scaled (den * Nat.pow 2 shift)) infinity

/-- A finite magnitude as a multiple of the smallest positive number. -/
def units (magnitude : Nat) : Nat :=
  let shift := magnitude / Nat.pow 2 52 - 1
  (magnitude - shift * Nat.pow 2 52) * Nat.pow 2 shift

def times (a b : Nat) : Nat := nearest (units a * units b) (unity * unity)

def quotient (a b : Nat) : Nat := nearest (units a) (units b)

namespace Double

def negative (d : Double) : Bool := Nat.pow 2 63 ≤ d.bits.toNat

def magnitude (d : Double) : Nat := d.bits.toNat % Nat.pow 2 63

def ofMagnitude (negative : Bool) (magnitude : Nat) : Double :=
  ⟨UInt64.ofNat (if negative then Nat.pow 2 63 + magnitude else magnitude)⟩

def zero (negative : Bool) : Double := ofMagnitude negative 0

def nan : Double := ofMagnitude false 0x7FF8000000000000

def isInfinite (d : Double) : Bool := d.magnitude = infinity

def reading (d : Double) : Reading :=
  let fraction : Nat := d.magnitude % Nat.pow 2 52
  let exponent : Nat := d.magnitude / Nat.pow 2 52
  if exponent = 0x7FF then (if fraction = 0 then .infinite else .nan)
  else if exponent = 0 then .finite fraction (-1074)
  else .finite (Nat.pow 2 52 + fraction) ((exponent : Int) - 1075)

/-- The number nearest to `coefficient * 10 ^ exponent`. Values beyond every finite number or
below every positive one are told by their digit count, so no large power is formed. -/
def ofDecimal (negative : Bool) (coefficient : Nat) (exponent : Int) : Double :=
  let leading : Int := (Nat.toDigits 10 coefficient).length + exponent
  ofMagnitude negative <|
    if coefficient = 0 then 0
    else if 310 < leading then infinity
    else if leading < -330 then 0
    else if 0 ≤ exponent then nearest (coefficient * Nat.pow 10 exponent.toNat) 1
    else nearest coefficient (Nat.pow 10 (-exponent).toNat)

end Double
end NotebookTidy.Decimal
