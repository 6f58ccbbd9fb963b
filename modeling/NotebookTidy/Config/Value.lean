import NotebookTidy.Decimal.Shortest

/-!
Configuration trees. A table holds its entries in the order of their keys, each key once; `insert`
and `erase` keep it so, and `ofList` makes it so. Equality of numbers is equality of their bits.
Moments are dates, times or both, with their RFC 3339 text; a second may be a leap second.
-/
namespace NotebookTidy.Config

/-! Moments -/

def daysInMonth (year month : Nat) : Nat :=
  if month = 2 then
    if year % 4 = 0 ∧ (year % 100 ≠ 0 ∨ year % 400 = 0) then 29 else 28
  else if month ∈ [4, 6, 9, 11] then 30
  else 31

structure Date where
  year : Nat
  month : Nat
  day : Nat
  valid : year < 10000 ∧ (1 ≤ month ∧ month ≤ 12) ∧ 1 ≤ day ∧ day ≤ daysInMonth year month
  deriving DecidableEq, Repr

/-- Hour 24 is the end of a day. -/
structure Time where
  hour : Nat
  minute : Nat
  second : Nat
  nanosecond : Nat
  valid : hour ≤ 24 ∧ minute < 60 ∧ second ≤ 60 ∧ nanosecond < 1000000000
  deriving DecidableEq, Repr

inductive Offset where
  | utc
  | minutes (ahead : Int)
  deriving DecidableEq, Repr

inductive Datetime where
  | date (date : Date)
  | time (time : Time)
  | both (date : Date) (time : Time) (offset : Option Offset)
  deriving DecidableEq, Repr

def padded (width n : Nat) : List Char :=
  let digits := Nat.toDigits 10 n
  List.replicate (width - digits.length) '0' ++ digits

def Date.chars (d : Date) : List Char :=
  padded 4 d.year ++ '-' :: padded 2 d.month ++ '-' :: padded 2 d.day

/-- The fraction of a second loses its trailing zeros, and goes if nothing is left. -/
def Time.chars (t : Time) : List Char :=
  let fraction := ((padded 9 t.nanosecond).reverse.dropWhile (· = '0')).reverse
  padded 2 t.hour ++ ':' :: padded 2 t.minute ++ ':' :: padded 2 t.second ++
    (if fraction.isEmpty then [] else '.' :: fraction)

def Offset.chars : Offset → List Char
  | .utc => ['Z']
  | .minutes ahead =>
    let size := ahead.natAbs
    (if ahead < 0 then '-' else '+') :: padded 2 (size / 60) ++ ':' :: padded 2 (size % 60)

def Datetime.chars : Datetime → List Char
  | .date d => d.chars
  | .time t => t.chars
  | .both d t offset => d.chars ++ 'T' :: t.chars ++ (offset.map Offset.chars).getD []

def Datetime.text (d : Datetime) : String := String.ofList d.chars

/-! Values -/

mutual
inductive Value where
  | string (text : String)
  | integer (number : Int64)
  | float (number : Decimal.Double)
  | boolean (flag : Bool)
  | datetime (moment : Datetime)
  | array (items : Values)
  | table (entries : Table)
  deriving DecidableEq, Repr
inductive Values where
  | nil
  | cons (value : Value) (rest : Values)
  deriving DecidableEq, Repr
inductive Table where
  | nil
  | cons (key : String) (value : Value) (rest : Table)
  deriving DecidableEq, Repr
end

namespace Values

def toList : Values → List Value
  | .nil => []
  | .cons v rest => v :: rest.toList

def ofList : List Value → Values
  | [] => .nil
  | v :: rest => .cons v (ofList rest)

@[simp] theorem toListOfList (vs : List Value) : (ofList vs).toList = vs := by
  induction vs with
  | nil => rfl
  | cons v rest ih => simp [ofList, toList, ih]

end Values

namespace Value

def isTable : Value → Bool
  | .table _ => true
  | _ => false

def string? : Value → Option String
  | .string s => some s
  | _ => none

def array? : Value → Option (List Value)
  | .array vs => some vs.toList
  | _ => none

def table? : Value → Option Table
  | .table t => some t
  | _ => none

end Value

namespace Table

def empty : Table := .nil

instance : Inhabited Table := ⟨empty⟩

def toList : Table → List (String × Value)
  | .nil => []
  | .cons k v rest => (k, v) :: rest.toList

def keys (t : Table) : List String := t.toList.map (·.1)

def get? : Table → String → Option Value
  | .nil, _ => none
  | .cons k v rest, key => if k = key then some v else rest.get? key

def insert (key : String) (value : Value) : Table → Table
  | .nil => .cons key value .nil
  | .cons k v rest =>
    if key < k then .cons key value (.cons k v rest)
    else if k = key then .cons key value rest
    else .cons k v (rest.insert key value)

def erase (key : String) : Table → Table
  | .nil => .nil
  | .cons k v rest => if k = key then rest.erase key else .cons k v (rest.erase key)

/-- Of entries with one key the last one stays. -/
def ofList (entries : List (String × Value)) : Table :=
  entries.foldl (fun t e => t.insert e.1 e.2) empty

def strings? (t : Table) (key : String) : Option (List String) := do
  let values ← (← t.get? key).array?
  some (values.filterMap Value.string?)

def ruffSection (t : Table) : Option Table := do
  let tool ← (← t.get? "tool").table?
  (← tool.get? "ruff").table?

end Table

/-- The shortest form that reads back, with an exponent below `1e-4` and from `1e16`. -/
def floatText : Decimal.Layout :=
  { low := some (-4), high := some 16, plus := false, width := 1, tie := .up, nan := "NaN" }

end NotebookTidy.Config
