/-!
Decoding bytes as UTF-8, with the place and length of what is not. A sequence that breaks off at
the end of the bytes has no length. Where bytes are only shown, each faulty sequence becomes one
replacement character.
-/
namespace NotebookTidy.Text

structure Utf8Fault where
  index : Nat
  length : Option Nat
  deriving DecidableEq, Repr

def Utf8Fault.message (f : Utf8Fault) : String :=
  match f.length with
  | some n => "invalid utf-8 sequence of " ++ toString n ++ " bytes from index " ++ toString f.index
  | none => "incomplete utf-8 byte sequence from index " ++ toString f.index

def isContinuation (b : UInt8) : Bool := 0x80 ≤ b && b ≤ 0xBF

/-- Whether a byte may be the second of a sequence of three or four; this leaves out overlong forms,
surrogates and what lies beyond the last code point. -/
def secondFits (first second : UInt8) : Bool :=
  if first = 0xE0 then 0xA0 ≤ second && second ≤ 0xBF
  else if first = 0xED then 0x80 ≤ second && second ≤ 0x9F
  else if first = 0xF0 then 0x90 ≤ second && second ≤ 0xBF
  else if first = 0xF4 then 0x80 ≤ second && second ≤ 0x8F
  else isContinuation second

def low (b : UInt8) : Nat := b.toNat % 64

/-- The first character and its length, or the length of the faulty sequence. -/
def firstChar : List UInt8 → Except (Option Nat) (Char × Nat)
  | [] => .error none
  | a :: rest =>
    if a < 0x80 then .ok (Char.ofNat a.toNat, 1)
    else if 0xC2 ≤ a && a ≤ 0xDF then
      match rest with
      | [] => .error none
      | b :: _ =>
        if isContinuation b then .ok (Char.ofNat ((a.toNat - 0xC0) * 64 + low b), 2)
        else .error (some 1)
    else if 0xE0 ≤ a && a ≤ 0xEF then
      match rest with
      | [] => .error none
      | b :: more =>
        if !secondFits a b then .error (some 1)
        else
          match more with
          | [] => .error none
          | c :: _ =>
            if isContinuation c then
              .ok (Char.ofNat (((a.toNat - 0xE0) * 64 + low b) * 64 + low c), 3)
            else .error (some 2)
    else if 0xF0 ≤ a && a ≤ 0xF4 then
      match rest with
      | [] => .error none
      | b :: more =>
        if !secondFits a b then .error (some 1)
        else
          match more with
          | [] => .error none
          | c :: last =>
            if !isContinuation c then .error (some 2)
            else
              match last with
              | [] => .error none
              | d :: _ =>
                if isContinuation d then
                  .ok (Char.ofNat ((((a.toNat - 0xF0) * 64 + low b) * 64 + low c) * 64 + low d), 4)
                else .error (some 3)
    else .error (some 1)

private def decodeFrom (index : Nat) : Nat → List UInt8 → Except Utf8Fault (List Char)
  | 0, _ => .ok []
  | _ + 1, [] => .ok []
  | fuel + 1, bytes =>
    match firstChar bytes with
    | .ok (c, size) => (decodeFrom (index + size) fuel (bytes.drop size)).map (c :: ·)
    | .error length => .error ⟨index, length⟩

def decodeUtf8 (bytes : List UInt8) : Except Utf8Fault String :=
  (decodeFrom 0 bytes.length bytes).map String.ofList

def shownFrom : Nat → List UInt8 → List Char
  | 0, _ => []
  | _ + 1, [] => []
  | fuel + 1, bytes =>
    match firstChar bytes with
    | .ok (c, size) => c :: shownFrom fuel (bytes.drop size)
    | .error (some length) => '\uFFFD' :: shownFrom fuel (bytes.drop length)
    | .error none => ['\uFFFD']

def shown (bytes : List UInt8) : String := String.ofList (shownFrom bytes.length bytes)

def encodeUtf8 (text : String) : List UInt8 := text.toList.flatMap String.utf8EncodeChar

end NotebookTidy.Text
