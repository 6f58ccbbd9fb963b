import NotebookTidy.Decimal.Shortest
import NotebookTidy.Json.Node

/-!
JSON values. Objects hold their members in the order of their names, the last of several with one
name. An integer stays one within 64 bits, signed or not; any other number is binary64.
-/
namespace NotebookTidy.Json
open Decimal (Double)

inductive Number where
  | integer (n : Int)
  | float (x : Double)
  deriving DecidableEq, Repr

mutual
inductive Value where
  | null
  | bool (flag : Bool)
  | number (n : Number)
  | string (text : String)
  | array (items : Items)
  | object (members : Members)
  deriving DecidableEq, Repr
inductive Items where
  | nil
  | cons (value : Value) (rest : Items)
  deriving DecidableEq, Repr
inductive Members where
  | nil
  | cons (name : String) (value : Value) (rest : Members)
  deriving DecidableEq, Repr
end

namespace Items

def toList : Items → List Value
  | .nil => []
  | .cons v rest => v :: rest.toList

def ofList : List Value → Items
  | [] => .nil
  | v :: rest => .cons v (ofList rest)

@[simp] theorem toListOfList (vs : List Value) : (ofList vs).toList = vs := by
  induction vs with
  | nil => rfl
  | cons v rest ih => simp [ofList, toList, ih]

end Items

namespace Members

def toList : Members → List (String × Value)
  | .nil => []
  | .cons k v rest => (k, v) :: rest.toList

def get? : Members → String → Option Value
  | .nil, _ => none
  | .cons k v rest, name => if k = name then some v else rest.get? name

def insert (name : String) (value : Value) : Members → Members
  | .nil => .cons name value .nil
  | .cons k v rest =>
    if name < k then .cons name value (.cons k v rest)
    else if k = name then .cons name value rest
    else .cons k v (rest.insert name value)

def ofList (members : List (String × Value)) : Members :=
  members.foldl (fun ms m => ms.insert m.1 m.2) .nil

end Members

namespace Value

def get? (v : Value) (name : String) : Option Value :=
  match v with
  | .object ms => ms.get? name
  | _ => none

def string? : Value → Option String
  | .string s => some s
  | _ => none

def array? : Value → Option (List Value)
  | .array vs => some vs.toList
  | _ => none

end Value

def decimal (digits : List Char) : Nat :=
  digits.foldl (fun n c => 10 * n + (c.toNat - '0'.toNat)) 0

/-- Digits of a significand as long as it fits 64 bits, and how many digits were left over. -/
def significand (start : Nat) : List Char → Nat × List Char
  | [] => (start, [])
  | d :: rest =>
    let next := 10 * start + (d.toNat - '0'.toNat)
    if next < UInt64.size then significand next rest else (start, d :: rest)

def powerOfTen (n : Nat) : Nat := Decimal.nearest (Nat.pow 10 n) 1

/-- A magnitude times `10 ^ exponent`, by one multiplication or division unless the power has no
binary64 form; an infinite result is refused. -/
def scaled (x : Nat) (exponent : Int) : Nat → Option Nat
  | 0 => none
  | fuel + 1 =>
    if exponent.natAbs ≤ 308 then
      if 0 ≤ exponent then
        let y := Decimal.times x (powerOfTen exponent.toNat)
        if y = Decimal.infinity then none else some y
      else some (Decimal.quotient x (powerOfTen (-exponent).toNat))
    else if x = 0 then some x
    else if 0 ≤ exponent then none
    else scaled (Decimal.quotient x (powerOfTen 308)) (exponent + 308) fuel

/-- Exponents beyond this many digits' worth are not added up: zero stays zero, a small number
becomes zero and a large one is refused. -/
def exponentLimit : Nat := 2147483648

/-- The value of a numeral. Digits that no longer fit a 64-bit significand are dropped after the
point, and counted before it. The zero that has a sign is no integer. -/
def Numeral.number? (n : Numeral) : Option Number :=
  let (whole, excess) := significand 0 n.whole
  let (digits, dropped) := significand whole n.fraction
  if n.fraction.isEmpty ∧ n.exponent.isNone ∧ excess.isEmpty ∧ ¬ (n.negative ∧ whole = 0) then
    if !n.negative then some (.integer whole)
    else if whole ≤ Nat.pow 2 63 then some (.integer (-(whole : Int)))
    else some (.float (.ofMagnitude true (Decimal.nearest whole 1)))
  else if digits = 0 then some (.float (.zero n.negative))
  else
    let kept := n.fraction.length - dropped.length
    let start : Int := (excess.length : Int) - kept
    let (exponent, beyond) : Int × Option Bool := match n.exponent with
      | none => (start, none)
      | some (below, ds) =>
        let size := decimal ds
        if exponentLimit ≤ size then (start, some below)
        else (if below then start - size else start + size, none)
    match beyond with
    | some below => if below then some (.float (.zero n.negative)) else none
    | none =>
      let reduced := max exponent (-(exponentLimit : Int))
      (scaled (Decimal.nearest digits 1) reduced (reduced.natAbs / 308 + 2)).map fun x =>
        .float (.ofMagnitude n.negative x)

mutual
/-- The value of a node with at most `depth` levels of arrays and objects. -/
def Node.value? (depth : Nat) : Node → Option Value
  | .null => some .null
  | .bool b => some (.bool b)
  | .number n => n.number?.map .number
  | .string s => s.map .string
  | .array ns => if depth = 0 then none else (ns.values? (depth - 1)).map (.array ∘ .ofList)
  | .object fs => if depth = 0 then none else (fs.members? (depth - 1)).map (.object ∘ .ofList)
def Nodes.values? (depth : Nat) : Nodes → Option (List Value)
  | .nil => some []
  | .cons n rest => do
    let v ← n.value? depth
    some (v :: (← rest.values? depth))
def Fields.members? (depth : Nat) : Fields → Option (List (String × Value))
  | .nil => some []
  | .cons name n rest => do
    let k ← name
    let v ← n.value? depth
    some ((k, v) :: (← rest.members? depth))
end

/-- Levels of arrays and objects that a value may have. -/
def depthLimit : Nat := 127

def read? (text : String) : Option Value := do (← parse? text).value? depthLimit

end NotebookTidy.Json
