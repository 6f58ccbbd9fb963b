import Mathlib.Data.List.Forall2
import NotebookTidy.Glob.Matcher
import NotebookTidy.Proofs.Glob.Search

/-! What a list of globs accepts: the paths with a slice that one of the globs covers in full. In a
search the deep tokens of a glob pass over no line feed, while the glob itself passes over every
byte; apart from that the two are the same. -/
namespace NotebookTidy.Glob
open Pattern (nothingIff bytesIff seqIff eitherIff ofBytesIff occursIff)

/-- The glob matches the bytes in full, where its deep tokens pass over bytes of the set. -/
def Covers (passed : ByteSet) (glob : String) (bytes : List UInt8) : Prop :=
  ∃ ts, tokens glob = .ok ts ∧ (globPattern passed ts).Matches bytes

instance (passed : ByteSet) (glob : String) (bytes : List UInt8) :
    Decidable (Covers passed glob bytes) :=
  match read : tokens glob with
  | .ok ts => decidable_of_iff ((globPattern passed ts).Matches bytes)
      ⟨fun matched => ⟨ts, read, matched⟩, fun ⟨_, same, matched⟩ => by
        cases read.symm.trans same
        exact matched⟩
  | .error _ => .isFalse fun ⟨_, same, _⟩ => nomatch read.symm.trans same

/-! What deep tokens pass over -/

/-- Whatever of the bytes the one set allows the other allows too, and then the second pattern
matches what the first one does. -/
def Widens (small large : ByteSet) (p q : Pattern) : Prop :=
  ∀ bytes, (∀ b ∈ bytes, small.contains b = true → large.contains b = true) →
    p.Matches bytes → q.Matches bytes

section widens
variable {small large : ByteSet} {p q p' q' : Pattern}

theorem sameWidens : Widens small large p p := fun _ _ matched => matched

theorem bytesWidens : Widens small large (.bytes small) (.bytes large) :=
  fun _ wider matched => .bytes fun b mem => wider b mem (bytesIff.mp matched b mem)

theorem seqWidens (first : Widens small large p p') (second : Widens small large q q') :
    Widens small large (.seq p q) (.seq p' q') := by
  intro bytes wider matched
  obtain ⟨a, b, rfl, left, right⟩ := seqIff.mp matched
  exact .seq (first a (fun c mem => wider c (List.mem_append_left b mem)) left)
    (second b (fun c mem => wider c (List.mem_append_right a mem)) right)

theorem eitherWidens (first : Widens small large p p') (second : Widens small large q q') :
    Widens small large (.either p q) (.either p' q') :=
  fun bytes wider matched => eitherIff.mpr
    ((eitherIff.mp matched).imp (first bytes wider) (second bytes wider))

mutual
theorem tokenWidens : (t : Token) → Widens small large (t.pattern small) (t.pattern large)
  | .literal _ | .one | .run | .charClass _ _ => sameWidens
  | .deepStart => eitherWidens sameWidens (seqWidens bytesWidens sameWidens)
  | .deepEnd => seqWidens sameWidens bytesWidens
  | .deepMiddle =>
    eitherWidens sameWidens (seqWidens sameWidens (seqWidens bytesWidens sameWidens))
  | .group branches => by
    have inner := branchesWiden branches
    simp only [Token.pattern]
    generalize branchPatterns small branches = p, branchPatterns large branches = q at inner ⊢
    cases inner with
    | none => exact sameWidens
    | some widens => exact widens
theorem sequenceWidens : (ts : List Token) →
    Widens small large (sequencePattern small ts) (sequencePattern large ts)
  | [] => sameWidens
  | t :: rest => seqWidens (tokenWidens t) (sequenceWidens rest)
theorem branchesWiden : (branches : List (List Token)) → Option.Rel (Widens small large)
    (branchPatterns small branches) (branchPatterns large branches)
  | [] => .none
  | b :: rest => by
    have first := sequenceWidens b
    have others := branchesWiden rest
    simp only [branchPatterns]
    generalize branchPatterns small rest = p, branchPatterns large rest = q at others ⊢
    cases hasPattern b with
    | false => exact others
    | true =>
      cases others with
      | none => exact .some first
      | some widens => exact .some (eitherWidens first widens)
end

theorem globWidens (ts : List Token) :
    Widens small large (globPattern small ts) (globPattern large ts) := by
  unfold globPattern
  split
  · exact bytesWidens
  · exact sequenceWidens ts

theorem coversWiden {glob : String} {bytes : List UInt8}
    (wider : ∀ b ∈ bytes, small.contains b = true → large.contains b = true)
    (covers : Covers small glob bytes) : Covers large glob bytes :=
  covers.imp fun ts ⟨read, matched⟩ => ⟨read, globWidens ts bytes wider matched⟩

end widens

theorem anyContains (b : UInt8) : anyByte.contains b = true := rfl

theorem nonLineFeedIff {b : UInt8} : nonLineFeed.contains b = true ↔ b ≠ 0x0A := by
  simp only [ByteSet.contains, nonLineFeed, List.any_cons, List.any_nil, Bool.or_false]
  grind

/-! Lists of globs -/

def Reads (glob : String) (ts : List Token) : Prop :=
  tokens glob = .ok ts ∧ globLevels ts ≤ levelLimit

theorem readGlobIff {glob : String} {ts : List Token} :
    readGlob glob = .ok ts ↔ tokens glob = .ok ts := by
  unfold readGlob
  split <;> simp_all

theorem readAllIff {globs : List String} {read : List (List Token)} :
    globs.mapM readGlob = .ok read ↔
      List.Forall₂ (fun glob ts => tokens glob = .ok ts) globs read := by
  induction globs generalizing read with
  | nil =>
    rw [List.forall₂_nil_left_iff]
    exact ⟨fun h => by cases h; rfl, fun h => h ▸ rfl⟩
  | cons glob rest ih =>
    rw [List.forall₂_cons_left_iff, List.mapM_cons]
    constructor
    · intro all
      cases first : readGlob glob with
      | error e => rw [first] at all; cases all
      | ok ts =>
        cases others : rest.mapM readGlob with
        | error e => rw [first, others] at all; cases all
        | ok tail =>
          rw [first, others] at all
          cases all
          exact ⟨ts, tail, readGlobIff.mp first, ih.mp others, rfl⟩
    · rintro ⟨ts, tail, first, others, rfl⟩
      rw [readGlobIff.mpr first, ih.mpr others]
      rfl

theorem shallowIff {globs : List String} {read : List (List Token)}
    (all : List.Forall₂ (fun glob ts => tokens glob = .ok ts) globs read) :
    read.any (levelLimit < globLevels ·) = false ↔ List.Forall₂ Reads globs read := by
  induction all with
  | nil => simp
  | cons first _ ih =>
    rw [List.any_cons, Bool.or_eq_false_iff, ih, List.forall₂_cons, Reads, and_iff_right first,
      decide_eq_false_iff_not, Nat.not_lt]

theorem ofGlobsIff {globs : List String} {m : Matcher} :
    Matcher.ofGlobs globs = .ok m ↔ ∃ read, List.Forall₂ Reads globs read ∧
      m = ⟨globs, read.map (globPattern nonLineFeed)⟩ := by
  have known {read : List (List Token)} (reads : List.Forall₂ Reads globs read) :
      globs.mapM readGlob = .ok read := readAllIff.mpr (reads.imp fun _ _ h => h.1)
  constructor
  · intro built
    rw [Matcher.ofGlobs] at built
    cases all : globs.mapM readGlob with
    | error e => rw [all] at built; cases built
    | ok read =>
      rw [all] at built
      change (if read.any _ = true then Except.error GlobError.tooDeep else .ok _) = _ at built
      split at built
      · cases built
      · rename_i shallow
        cases built
        exact ⟨read, (shallowIff (readAllIff.mp all)).mp (Bool.eq_false_iff.mpr shallow), rfl⟩
  · rintro ⟨read, reads, rfl⟩
    have shallow := (shallowIff (readAllIff.mp (known reads))).mpr reads
    rw [Matcher.ofGlobs, known reads]
    exact if_neg (by rw [shallow]; exact Bool.false_ne_true)

theorem builtIff {globs : List String} : (∃ m, Matcher.ofGlobs globs = .ok m) ↔
    ∀ glob ∈ globs, ∃ ts, Reads glob ts := by
  simp only [ofGlobsIff, exists_comm (α := Matcher), exists_and_left, exists_eq, and_true]
  induction globs with
  | nil => simp
  | cons glob rest ih =>
    rw [List.forall_mem_cons, ← ih]
    simp only [List.forall₂_cons_left_iff]
    constructor
    · rintro ⟨_, ts, read, first, others, rfl⟩
      exact ⟨⟨ts, first⟩, read, others⟩
    · rintro ⟨⟨ts, first⟩, read, others⟩
      exact ⟨_, ts, read, first, others, rfl⟩

theorem builtOk {globs : List String} (ok : (Matcher.ofGlobs globs).isOk = true) :
    ∃ m, Matcher.ofGlobs globs = .ok m := by
  cases built : Matcher.ofGlobs globs with
  | ok m => exact ⟨m, rfl⟩
  | error e => rw [built] at ok; cases ok

/-- Whether the bytes hold a match. Those of a path are the ones that it is spelled with. -/
def Matcher.occurs (m : Matcher) (bytes : List UInt8) : Bool :=
  m.patterns.any (·.occursIn bytes)

theorem occursSlice {globs : List String} {m : Matcher} (built : Matcher.ofGlobs globs = .ok m)
    (bytes : List UInt8) : m.occurs bytes = true ↔
      ∃ glob ∈ globs, ∃ part, part <:+: bytes ∧ Covers nonLineFeed glob part := by
  obtain ⟨read, reads, rfl⟩ := ofGlobsIff.mp built
  clear built
  induction reads with
  | nil => simp [Matcher.occurs]
  | @cons glob ts rest read first _ ih =>
    have covers (part : List UInt8) : Covers nonLineFeed glob part ↔
        (globPattern nonLineFeed ts).Matches part :=
      ⟨fun ⟨_, same, matched⟩ => by cases first.1.symm.trans same; exact matched,
        fun matched => ⟨ts, first.1, matched⟩⟩
    rw [Matcher.occurs] at ih ⊢
    rw [List.map_cons, List.any_cons, Bool.or_eq_true, occursIff, ih]
    simp only [List.mem_cons, exists_eq_or_imp, covers]

/-! Globs of plain characters -/

/-- The characters of a glob that do not stand for themselves. -/
def marks : List Char := ['?', '*', '[', '\x7b', '\x7d', '\\']

theorem plainRead {fuel : Nat} {text : List Char} (plain : ∀ c ∈ text, c ∉ marks)
    (enough : text.length < fuel) (current : List Token) (previous : Option Char) :
    tokensFrom fuel .closed ⟨⟨[], current⟩, []⟩ previous text =
      .ok (current.reverse ++ text.map .literal) := by
  induction text generalizing fuel current previous with
  | nil =>
    rw [List.map_nil, List.append_nil]
    cases fuel <;> rfl
  | cons c rest ih =>
    obtain ⟨first, others⟩ := List.forall_mem_cons.mp plain
    simp only [marks, List.mem_cons, List.not_mem_nil, or_false, not_or] at first
    obtain ⟨one, run, opening, group, close, escape⟩ := first
    cases fuel with
    | zero => exact absurd enough (Nat.not_lt_zero _)
    | succ fuel =>
      have tail := ih others (Nat.lt_of_succ_lt_succ enough) (.literal c :: current) (some c)
      have pushed : tokensFrom (fuel + 1) .closed ⟨⟨[], current⟩, []⟩ previous (c :: rest) =
          tokensFrom fuel .closed ⟨⟨[], .literal c :: current⟩, []⟩ (some c) rest := by
        simp [tokensFrom, one, run, opening, group, close, escape, Draft.push]
      rw [pushed, tail, List.reverse_cons, List.append_assoc, List.map_cons, List.singleton_append]

theorem plainLevels (text : List Char) : innerLevels (text.map .literal) = 0 := by
  induction text with
  | nil => rfl
  | cons c rest ih => rw [List.map_cons, innerLevels, Token.levels, ih, Nat.max_self]

theorem plainReads {glob : String} (plain : ∀ c ∈ glob.toList, c ∉ marks) :
    Reads glob (glob.toList.map .literal) := by
  refine ⟨plainRead plain (Nat.lt_succ_self _) [] none, ?_⟩
  rw [globLevels, plainLevels, sequenceLevels]
  split <;> decide

theorem plainMatches (passed : ByteSet) (text : List Char) (bytes : List UInt8) :
    (globPattern passed (text.map .literal)).Matches bytes ↔
      bytes = text.flatMap String.utf8EncodeChar := by
  have sequence : globPattern passed (text.map .literal) =
      sequencePattern passed (text.map .literal) := by
    cases text <;> rfl
  rw [sequence]
  clear sequence
  induction text generalizing bytes with
  | nil => exact nothingIff
  | cons c rest ih =>
    simp only [List.map_cons, sequencePattern, seqIff, Token.pattern, ofBytesIff, ih,
      List.flatMap_cons]
    constructor
    · rintro ⟨_, _, rfl, rfl, rfl⟩
      rfl
    · rintro rfl
      exact ⟨_, _, rfl, rfl, rfl⟩

/-! All together -/

theorem occursMono {globs others : List String} {m n : Matcher} (more : globs ⊆ others)
    (built : Matcher.ofGlobs globs = .ok m) (built' : Matcher.ofGlobs others = .ok n)
    {bytes : List UInt8} (found : m.occurs bytes = true) : n.occurs bytes = true := by
  obtain ⟨glob, mem, slice⟩ := (occursSlice built bytes).mp found
  exact (occursSlice built' bytes).mpr ⟨glob, more mem, slice⟩

theorem occursWithin {globs : List String} {m : Matcher} (built : Matcher.ofGlobs globs = .ok m)
    {bytes text : List UInt8} (within : bytes <:+: text) (found : m.occurs bytes = true) :
    m.occurs text = true := by
  obtain ⟨glob, mem, part, slice, covers⟩ := (occursSlice built bytes).mp found
  exact (occursSlice built text).mpr ⟨glob, mem, part, slice.trans within, covers⟩

theorem occursSame {globs others : List String} {m : Matcher}
    (built : Matcher.ofGlobs globs = .ok m) (same : ∀ glob, glob ∈ others ↔ glob ∈ globs) :
    ∃ n, Matcher.ofGlobs others = .ok n ∧ ∀ bytes, n.occurs bytes = m.occurs bytes := by
  obtain ⟨n, built'⟩ := builtIff.mpr fun glob mem =>
    builtIff.mp ⟨m, built⟩ glob ((same glob).mp mem)
  exact ⟨n, built', fun bytes => Bool.eq_iff_iff.mpr
    ⟨occursMono (fun glob => (same glob).mp) built' built,
      occursMono (fun glob => (same glob).mpr) built built'⟩⟩

theorem occursPlain {glob : String} (plain : ∀ c ∈ glob.toList, c ∉ marks) :
    ∃ n, Matcher.ofGlobs [glob] = .ok n ∧ ∀ bytes,
      n.occurs bytes = true ↔ glob.toList.flatMap String.utf8EncodeChar <:+: bytes := by
  have reads := plainReads plain
  obtain ⟨n, built⟩ := builtIff.mpr (List.forall_mem_singleton.mpr ⟨_, reads⟩)
  refine ⟨n, built, fun bytes => ?_⟩
  have covers (part : List UInt8) : Covers nonLineFeed glob part ↔
      part = glob.toList.flatMap String.utf8EncodeChar := by
    rw [← plainMatches nonLineFeed]
    exact ⟨fun ⟨_, same, matched⟩ => by cases reads.1.symm.trans same; exact matched,
      fun matched => ⟨_, reads.1, matched⟩⟩
  simp only [occursSlice built, List.mem_singleton, exists_eq_left, covers, exists_eq_right]

/-- What a list of globs finds in the bytes of a path. -/
structure Contains (globs : List String) (m : Matcher) : Prop where
  spelled : ∀ p, m.accepts p = m.occurs (Matcher.pathBytes p)
  slices : ∀ bytes, m.occurs bytes = true ↔
    ∃ glob ∈ globs, ∃ part, part <:+: bytes ∧ Covers nonLineFeed glob part
  covered : ∀ bytes, m.occurs bytes = true →
    ∃ glob ∈ globs, ∃ part, part <:+: bytes ∧ Covers anyByte glob part
  found : ∀ bytes, ∀ glob ∈ globs, ∀ part, part <:+: bytes → Covers anyByte glob part →
    0x0A ∉ part → m.occurs bytes = true
  surrounded : ∀ before bytes after, m.occurs bytes = true →
    m.occurs (before ++ bytes ++ after) = true
  rearranged : ∀ others, (∀ glob, glob ∈ others ↔ glob ∈ globs) →
    ∃ n, Matcher.ofGlobs others = .ok n ∧ ∀ bytes, n.occurs bytes = m.occurs bytes
  added : ∀ others n, globs ⊆ others → Matcher.ofGlobs others = .ok n →
    ∀ bytes, m.occurs bytes = true → n.occurs bytes = true
  plain : ∀ glob, (∀ c ∈ glob.toList, c ∉ marks) → ∃ n, Matcher.ofGlobs [glob] = .ok n ∧
    ∀ bytes, n.occurs bytes = true ↔ glob.toList.flatMap String.utf8EncodeChar <:+: bytes

/-- Globs are found in any part of a path. A slice that a glob covers is found, unless it has a line
feed that a deep token would have to pass over. -/
theorem globsContained {globs : List String} {m : Matcher}
    (built : Matcher.ofGlobs globs = .ok m) : Contains globs m where
  spelled _ := rfl
  slices := occursSlice built
  covered bytes found := by
    obtain ⟨glob, mem, part, slice, covers⟩ := (occursSlice built bytes).mp found
    exact ⟨glob, mem, part, slice, coversWiden (fun b _ _ => anyContains b) covers⟩
  found bytes glob mem part slice covers clean := by
    refine (occursSlice built bytes).mpr ⟨glob, mem, part, slice, coversWiden ?_ covers⟩
    exact fun b inside _ => nonLineFeedIff.mpr fun feed => clean (feed ▸ inside)
  surrounded before bytes after := occursWithin built (List.infix_append before bytes after)
  rearranged _ := occursSame built
  added _ _ more built' _ := occursMono more built built'
  plain _ := occursPlain

theorem globsContainedNested : ∃ m, Matcher.ofGlobs ["src/**/\x7b[ab]?,é\x7d.py", "dist"] = .ok m ∧
    m.accepts ⟨"/w/src/x/y/b1.pyc"⟩ = true := by
  have ok : (Matcher.ofGlobs ["src/**/\x7b[ab]?,é\x7d.py", "dist"]).isOk = true := by
    decide +kernel
  obtain ⟨m, built⟩ := builtOk ok
  have contains := globsContained built
  have part : Covers anyByte "src/**/\x7b[ab]?,é\x7d.py" (Matcher.pathBytes ⟨"src/x/y/b1.py"⟩) := by
    decide +kernel
  refine ⟨m, built, ?_⟩
  rw [contains.spelled]
  exact contains.found _ _ (by simp) _ (by decide +kernel) part (by decide +kernel)

/-- The glob covers the whole path, which is not accepted. -/
theorem lineFeedMissed : Covers anyByte "a/**/b" (Matcher.pathBytes ⟨"a/\n/b"⟩) ∧
    (Matcher.ofGlobs ["a/**/b"]).toOption.map (·.accepts ⟨"a/\n/b"⟩) = some false :=
  ⟨by decide +kernel, by decide +kernel⟩

end NotebookTidy.Glob
