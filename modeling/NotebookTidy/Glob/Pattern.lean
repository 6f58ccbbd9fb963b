import NotebookTidy.Glob.Token

/-!
Byte patterns: what a glob means. `Pattern.Matches` says which bytes a pattern matches in full.
To find a match somewhere inside a text, the positions that a pattern can reach are followed for
all starting places at once: a list of flags, one for each position of the text.
-/
namespace NotebookTidy.Glob

structure ByteSet where
  negated : Bool
  ranges : List (UInt8 × UInt8)
  deriving DecidableEq, Repr

def ByteSet.contains (s : ByteSet) (b : UInt8) : Bool :=
  s.negated != s.ranges.any fun (first, last) => first ≤ b && b ≤ last

inductive Pattern where
  | nothing
  | byte (set : ByteSet)
  | bytes (set : ByteSet)
  | seq (first second : Pattern)
  | either (left right : Pattern)
  deriving DecidableEq, Repr

namespace Pattern

inductive Matches : Pattern → List UInt8 → Prop where
  | nothing : Matches .nothing []
  | byte {set b} (h : set.contains b = true) : Matches (.byte set) [b]
  | bytes {set bs} (h : ∀ b ∈ bs, set.contains b = true) : Matches (.bytes set) bs
  | seq {p q a b} (first : Matches p a) (second : Matches q b) : Matches (.seq p q) (a ++ b)
  | left {p q a} (h : Matches p a) : Matches (.either p q) a
  | right {p q a} (h : Matches q a) : Matches (.either p q) a

def step (set : ByteSet) : List UInt8 → List Bool → List Bool
  | b :: text, m :: marks => (m && set.contains b) :: step set text marks
  | _, _ => []

/-- Positions reached over any number of bytes of the set; `carried` tells whether the first one
is reached from before. -/
def spread (set : ByteSet) (carried : Bool) : List UInt8 → List Bool → List Bool
  | b :: text, m :: marks =>
    let here := m || carried
    here :: spread set (here && set.contains b) text marks
  | [], m :: _ => [m || carried]
  | _, [] => []

def reach (text : List UInt8) : Pattern → List Bool → List Bool
  | .nothing, marks => marks
  | .byte set, marks => false :: step set text marks
  | .bytes set, marks => spread set false text marks
  | .seq p q, marks => q.reach text (p.reach text marks)
  | .either p q, marks => List.zipWith (· || ·) (p.reach text marks) (q.reach text marks)

def occursIn (p : Pattern) (text : List UInt8) : Bool :=
  (p.reach text (List.replicate (text.length + 1) true)).any id

def matchesWhole (p : Pattern) (text : List UInt8) : Bool :=
  (p.reach text (true :: List.replicate text.length false)).getLast?.any id

def ofBytes : List UInt8 → Pattern
  | [] => .nothing
  | b :: rest => .seq (.byte ⟨false, [(b, b)]⟩) (ofBytes rest)

end Pattern

def slash : UInt8 := 0x2F

private def separator : Pattern := .ofBytes [slash]

def nonSeparator : ByteSet := ⟨true, [(slash, slash)]⟩

def nonLineFeed : ByteSet := ⟨true, [(0x0A, 0x0A)]⟩

def anyByte : ByteSet := ⟨true, []⟩

/-- The bytes of a range of characters: where a bound has several bytes, the range goes from the
last byte of the first bound to the first byte of the last, and the others stand for themselves. -/
def rangeBytes (first last : Char) : List (UInt8 × UInt8) :=
  let low := String.utf8EncodeChar first
  if first = last then low.map fun b => (b, b)
  else
    let high := String.utf8EncodeChar last
    low.dropLast.map (fun b => (b, b)) ++ [(low.getLast?.getD 0, high.headD 0)] ++
      high.tail.map fun b => (b, b)

mutual
/-- The deep tokens pass over bytes of the set `passed` only. -/
def Token.pattern (passed : ByteSet) : Token → Pattern
  | .literal c => .ofBytes (String.utf8EncodeChar c)
  | .one => .byte nonSeparator
  | .run => .bytes nonSeparator
  | .deepStart => .either (.either .nothing separator) (.seq (.bytes passed) separator)
  | .deepEnd => .seq separator (.bytes passed)
  | .deepMiddle => .either separator (.seq separator (.seq (.bytes passed) separator))
  | .charClass negated ranges => .byte ⟨negated, ranges.flatMap fun (a, b) => rangeBytes a b⟩
  | .group branches => (branchPatterns passed branches).getD .nothing
def sequencePattern (passed : ByteSet) : List Token → Pattern
  | [] => .nothing
  | t :: rest => .seq (t.pattern passed) (sequencePattern passed rest)
def branchPatterns (passed : ByteSet) : List (List Token) → Option Pattern
  | [] => none
  | b :: rest =>
    match hasPattern b, branchPatterns passed rest with
    | true, some others => some (.either (sequencePattern passed b) others)
    | true, none => some (sequencePattern passed b)
    | false, others => others
/-- Whether a branch holds anything besides groups without branches. -/
def hasPattern : List Token → Bool
  | [] => false
  | .group branches :: rest => anyPattern branches || hasPattern rest
  | _ :: _ => true
def anyPattern : List (List Token) → Bool
  | [] => false
  | b :: rest => hasPattern b || anyPattern rest
end

/-- A glob that is `**` alone matches everything. -/
def globPattern (passed : ByteSet) : List Token → Pattern
  | [.deepStart] => .bytes passed
  | ts => sequencePattern passed ts

end NotebookTidy.Glob
