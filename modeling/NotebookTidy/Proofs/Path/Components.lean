import Mathlib.Data.List.Infix
import NotebookTidy.Path

/-! The components of a path, told by the pieces of its spelling between separators. What joins one
piece to a path adds its component at the end, and the parent of a path takes the last one away,
however the path is spelled. -/
namespace NotebookTidy.Path
open Text (segments joined segmentsNeNil segmentPlain segmentsPlain segmentsAppend segmentsJoined)

def pieces (p : Path) : List (List Char) := segments '/' p.text.toList

theorem piecesNeNil (p : Path) : p.pieces ≠ [] := segmentsNeNil '/' _

/-- The forms of a spelling: from the root, from a leading dot, nothing at all, or from a piece that
is neither empty nor a dot. -/
inductive Form (p : Path) : Prop where
  | root {next : List Char} {rest : List (List Char)} (spelled : p.pieces = [] :: next :: rest)
      (lead : p.lead = (some .root, next :: rest))
  | here {rest : List (List Char)} (spelled : p.pieces = ['.'] :: rest)
      (lead : p.lead = (some .here, rest))
  | empty (spelled : p.pieces = [[]]) (lead : p.lead = (none, [[]]))
  | plain {first : List Char} {rest : List (List Char)} (spelled : p.pieces = first :: rest)
      (filled : first ≠ []) (other : first ≠ ['.']) (lead : p.lead = (none, first :: rest))

theorem form (p : Path) : Form p := by
  cases spelled : p.pieces with
  | nil => exact absurd spelled p.piecesNeNil
  | cons first rest =>
    have opened : segments '/' p.text.toList = first :: rest := spelled
    by_cases nothing : first = []
    · subst nothing
      cases rest with
      | nil => exact .empty spelled (by rw [lead, opened])
      | cons next rest => exact .root spelled (by rw [lead, opened])
    · by_cases dot : first = ['.']
      · subst dot
        exact .here spelled (by rw [lead, opened]; rfl)
      · refine .plain spelled nothing dot ?_
        rw [lead, opened]
        split
        · rename_i same
          cases same
          exact absurd rfl nothing
        · rename_i same
          cases same
          exact absurd rfl dot
        · rfl

theorem piecesOf (text : List Char) : pieces ⟨String.ofList text⟩ = segments '/' text := by
  rw [pieces, String.toList_ofList]

theorem piecesFromRoot (text : List Char) :
    pieces ⟨String.ofList ('/' :: text)⟩ = [] :: segments '/' text := by
  rw [piecesOf]
  exact segmentsAppend '/' [] text

theorem piecesJoined {parts : List (List Char)} (filled : parts ≠ [])
    (plain : ∀ part ∈ parts, '/' ∉ part) :
    pieces ⟨String.ofList (joined ['/'] parts)⟩ = parts := by
  rw [piecesOf, segmentsJoined filled plain]

def spell (parts : List (List Char)) : List Component :=
  match parts with
  | [] :: next :: rest => .root :: (next :: rest).filterMap bodyComponent
  | ['.'] :: rest => .here :: rest.filterMap bodyComponent
  | whole => whole.filterMap bodyComponent

theorem spellPlain {first : List Char} {rest : List (List Char)} (filled : first ≠ [])
    (other : first ≠ ['.']) : spell (first :: rest) = (first :: rest).filterMap bodyComponent := by
  unfold spell
  split
  · rename_i same
    cases same
    exact absurd rfl filled
  · rename_i same
    cases same
    exact absurd rfl other
  · rfl

theorem componentsSpelled (p : Path) : p.components = spell p.pieces := by
  rw [components]
  cases form p with
  | root spelled lead => rw [spelled, lead]; rfl
  | here spelled lead => rw [spelled, lead]; rfl
  | empty spelled lead => rw [spelled, lead]; rfl
  | plain spelled filled other lead => rw [spelled, lead, spellPlain filled other]; rfl

theorem fillerNone {piece : List Char} : bodyComponent piece = none ↔ isFiller piece = true := by
  rw [bodyComponent]
  split
  · rename_i filler
    exact iff_of_true rfl filler
  · rename_i no
    split <;> exact iff_of_false nofun no

theorem fillerEnd (body : List (List Char)) :
    (withoutFillerEnd body = [] ∧ body.filterMap bodyComponent = []) ∨
      ∃ init last c, withoutFillerEnd body = init ++ [last] ∧ bodyComponent last = some c ∧
        body.filterMap bodyComponent = init.filterMap bodyComponent ++ [c] ∧
        init ++ [last] <+: body := by
  -- From the end: pieces that mean nothing go, up to the first that has a component.
  induction body using List.reverseRecOn with
  | nil => exact .inl ⟨rfl, rfl⟩
  | append_singleton init last ih =>
    cases found : bodyComponent last with
    | some c =>
      refine .inr ⟨init, last, c, ?_, found, by simp [found], List.prefix_refl _⟩
      have filled : isFiller last ≠ true := fun filler => by
        rw [fillerNone.mpr filler] at found
        cases found
      simp [withoutFillerEnd, filled]
    | none =>
      have filler := fillerNone.mp found
      have shorter : withoutFillerEnd (init ++ [last]) = withoutFillerEnd init := by
        simp [withoutFillerEnd, filler]
      have same : (init ++ [last]).filterMap bodyComponent = init.filterMap bodyComponent := by
        simp [found]
      rw [shorter, same]
      refine ih.imp_right ?_
      rintro ⟨more, final, c, ends, is, whole, inside⟩
      exact ⟨more, final, c, ends, is, whole, inside.trans (List.prefix_append _ _)⟩

theorem withoutFiller (body : List (List Char)) :
    (withoutFillerEnd body).filterMap bodyComponent = body.filterMap bodyComponent ∧
      withoutFillerEnd body <+: body := by
  rcases fillerEnd body with ⟨nothing, whole⟩ | ⟨init, last, c, ends, is, whole, inside⟩
  · rw [nothing, whole]
    exact ⟨rfl, List.nil_prefix⟩
  · rw [ends, whole]
    exact ⟨by simp [is], inside⟩

/-! Parents -/

section parts

variable {parts : List (List Char)} (plain : ∀ part ∈ parts, '/' ∉ part)
include plain

theorem componentsFromRoot :
    components ⟨String.ofList ('/' :: joined ['/'] parts)⟩ =
      .root :: parts.filterMap bodyComponent := by
  rw [componentsSpelled, piecesFromRoot]
  cases parts with
  | nil => rfl
  | cons first rest =>
    rw [segmentsJoined (List.cons_ne_nil _ _) plain]
    rfl

theorem componentsFromHere :
    components ⟨String.ofList (joined ['/'] (['.'] :: parts))⟩ =
      .here :: parts.filterMap bodyComponent := by
  have dot : ∀ part ∈ ['.'] :: parts, '/' ∉ part :=
    List.forall_mem_cons.mpr ⟨by decide, plain⟩
  rw [componentsSpelled, piecesJoined (List.cons_ne_nil _ _) dot]
  rfl

theorem componentsPlain
    (start : ∀ first ∈ parts.head?, first ≠ [] ∧ first ≠ ['.']) :
    components ⟨String.ofList (joined ['/'] parts)⟩ = parts.filterMap bodyComponent := by
  cases parts with
  | nil => rfl
  | cons first rest =>
    obtain ⟨filled, other⟩ := start first rfl
    rw [componentsSpelled, piecesJoined (List.cons_ne_nil _ _) plain, spellPlain filled other]

end parts

def spelledWith (start : Option Component) (parts : List (List Char)) : Path :=
  match start with
  | none => ⟨String.ofList (joined ['/'] parts)⟩
  | some .root => ⟨String.ofList ('/' :: joined ['/'] parts)⟩
  | some c => ⟨String.ofList (joined ['/'] (c.text.toList :: parts))⟩

theorem parentSpelled {p : Path} {start : Option Component}
    {body init : List (List Char)} {last : List Char} (lead : p.lead = (start, body))
    (ends : withoutFillerEnd body = init ++ [last]) :
    p.parent = some (spelledWith start (withoutFillerEnd init)) := by
  unfold parent
  rw [lead]
  dsimp only
  rw [ends, List.dropLast_concat]
  cases init with
  | nil => cases start with
    | none => rfl
    | some c => cases c <;> rfl
  | cons first rest => cases start with
    | none => rfl
    | some c => cases c <;> rfl

theorem leadPlain {first : List Char} {rest : List (List Char)}
    (plain : ∀ part ∈ first :: rest, '/' ∉ part) (filled : first ≠ []) (other : first ≠ ['.']) :
    lead ⟨String.ofList (joined ['/'] (first :: rest))⟩ = (none, first :: rest) := by
  have spelled := piecesJoined (List.cons_ne_nil _ _) plain
  cases form ⟨String.ofList (joined ['/'] (first :: rest))⟩ with
  | root here _ => exact absurd (List.cons.inj (spelled.symm.trans here)).1 filled
  | here here _ => exact absurd (List.cons.inj (spelled.symm.trans here)).1 other
  | empty here _ => exact absurd (List.cons.inj (spelled.symm.trans here)).1 filled
  | plain here _ _ lead => rw [lead, ← here, spelled]

theorem parentPlain {first last : List Char} {inner : List (List Char)}
    (plain : ∀ part ∈ first :: inner ++ [last], '/' ∉ part) (filled : first ≠ [])
    (other : first ≠ ['.']) (named : isFiller last = false)
    (ends : withoutFillerEnd (first :: inner) = first :: inner) :
    parent ⟨String.ofList (joined ['/'] (first :: inner ++ [last]))⟩ =
      some ⟨String.ofList (joined ['/'] (first :: inner))⟩ := by
  have whole : withoutFillerEnd (first :: inner ++ [last]) = first :: inner ++ [last] := by
    simp [withoutFillerEnd, named]
  have start : lead ⟨String.ofList (joined ['/'] (first :: inner ++ [last]))⟩ =
      (none, first :: inner ++ [last]) := leadPlain plain filled other
  rw [parentSpelled start whole, ends]
  rfl

theorem parentNothing {p : Path} {start : Option Component} {body : List (List Char)}
    (lead : p.lead = (start, body)) (nothing : withoutFillerEnd body = []) :
    p.parent = (start.filter (· ≠ .root)).map fun _ => empty := by
  unfold parent
  rw [lead]
  dsimp only
  rw [nothing]
  cases start with
  | none => rfl
  | some c => cases c <;> rfl

section init
variable {body init : List (List Char)} {last : List Char} (within : init ++ [last] <+: body)
include within

theorem initWithin : withoutFillerEnd init <+: body :=
  ((withoutFiller init).2.trans (List.prefix_append _ _)).trans within

theorem initPlain (plain : ∀ part ∈ body, '/' ∉ part) :
    ∀ part ∈ withoutFillerEnd init, '/' ∉ part :=
  fun part mem => plain part ((initWithin within).subset mem)

theorem initStart {first : List Char} (starts : body.head? = some first) :
    ∀ part ∈ (withoutFillerEnd init).head?, part = first := by
  intro part mem
  obtain ⟨rest, rfl⟩ := initWithin within
  rw [List.head?_append, Option.mem_def.mp mem] at starts
  exact Option.some.inj starts

end init

theorem parentSnoc {p d : Path} (up : p.parent = some d) :
    ∃ c, p.components = d.components ++ [c] := by
  have plain : ∀ part ∈ p.pieces, '/' ∉ part := fun _ => segmentPlain
  rw [components]
  cases form p with
  | root spelled lead =>
    rcases fillerEnd _ with ⟨nothing, whole⟩ | ⟨init, last, c, ends, is, whole, within⟩
    · rw [parentNothing lead nothing] at up
      cases up
    · rw [parentSpelled lead ends] at up
      cases up
      have free := initPlain within (List.forall_mem_cons.mp (spelled ▸ plain)).2
      rw [lead, whole, spelledWith, componentsFromRoot free, (withoutFiller init).1]
      exact ⟨c, rfl⟩
  | here spelled lead =>
    rcases fillerEnd _ with ⟨nothing, whole⟩ | ⟨init, last, c, ends, is, whole, within⟩
    · rw [parentNothing lead nothing] at up
      cases up
      rw [lead, whole]
      exact ⟨.here, rfl⟩
    · rw [parentSpelled lead ends] at up
      cases up
      have free := initPlain within (List.forall_mem_cons.mp (spelled ▸ plain)).2
      have here : spelledWith (some .here) (withoutFillerEnd init) =
          ⟨String.ofList (joined ['/'] (['.'] :: withoutFillerEnd init))⟩ := rfl
      rw [lead, whole, here, componentsFromHere free, (withoutFiller init).1]
      exact ⟨c, rfl⟩
  | empty spelled lead =>
    rw [parentNothing lead rfl] at up
    cases up
  | plain spelled filled other lead =>
    rcases fillerEnd _ with ⟨nothing, whole⟩ | ⟨init, last, c, ends, is, whole, within⟩
    · rw [parentNothing lead nothing] at up
      cases up
    · rw [parentSpelled lead ends] at up
      cases up
      have free := initPlain within (spelled ▸ plain)
      have start : ∀ part ∈ (withoutFillerEnd init).head?, part ≠ [] ∧ part ≠ ['.'] :=
        fun part mem => initStart within rfl part mem ▸ ⟨filled, other⟩
      rw [lead, whole, spelledWith, componentsPlain free start, (withoutFiller init).1]
      exact ⟨c, rfl⟩

theorem parentNone {p : Path} (none : p.parent = none) :
    p.components = [] ∨ p.components = [.root] := by
  rw [components]
  cases form p with
  | root spelled lead =>
    rcases fillerEnd _ with ⟨nothing, whole⟩ | ⟨init, last, c, ends, is, whole, within⟩
    · exact .inr (by rw [lead, whole]; rfl)
    · rw [parentSpelled lead ends] at none
      cases none
  | here spelled lead =>
    rcases fillerEnd _ with ⟨nothing, whole⟩ | ⟨init, last, c, ends, is, whole, within⟩
    · rw [parentNothing lead nothing] at none
      cases none
    · rw [parentSpelled lead ends] at none
      cases none
  | empty spelled lead => exact .inl (by rw [lead]; rfl)
  | plain spelled filled other lead =>
    rcases fillerEnd _ with ⟨nothing, whole⟩ | ⟨init, last, c, ends, is, whole, within⟩
    · exact .inl (by rw [lead, whole]; rfl)
    · rw [parentSpelled lead ends] at none
      cases none

theorem parentComponents {p d : Path} (up : p.parent = some d) :
    d.components = p.components.dropLast := by
  obtain ⟨c, whole⟩ := parentSnoc up
  rw [whole, List.dropLast_concat]

theorem directoryComponents (p : Path) : p.directory.components = p.components.dropLast := by
  rw [directory]
  cases up : p.parent with
  | none => rcases parentNone up with nothing | root <;> simp only [*] <;> rfl
  | some d => exact parentComponents up

theorem parentsUp {p d : Path} {n : Nat} (mem : d ∈ p.parentsUpTo n) :
    d.components <+: p.components.dropLast := by
  induction n generalizing p with
  | zero => cases mem
  | succ n ih =>
    rw [parentsUpTo] at mem
    cases up : p.parent with
    | none => rw [up] at mem; cases mem
    | some first =>
      rw [up] at mem
      have above := parentComponents up
      rcases List.mem_cons.mp mem with rfl | further
      · exact above ▸ List.prefix_refl _
      · exact (above ▸ ih further).trans (List.dropLast_prefix _)

theorem parentsAbove {p d : Path} (mem : d ∈ p.parents) :
    d.components <+: p.components.dropLast := parentsUp mem

theorem parentsListed {p : Path} (relative : .root ∉ p.components) :
    p.parents.map components =
      (List.range p.components.length).reverse.map p.components.take := by
  -- The count of parents that are asked for is the count of components left, one less each time.
  have walk (n : Nat) (p : Path) (relative : .root ∉ p.components)
      (length : p.components.length = n) : (p.parentsUpTo n).map components =
        (List.range n).reverse.map p.components.take := by
    induction n generalizing p with
    | zero => rfl
    | succ n ih =>
      rw [parentsUpTo]
      cases up : p.parent with
      | none =>
        rcases parentNone up with nothing | root
        · rw [nothing] at length
          cases length
        · rw [root] at relative
          exact absurd List.mem_cons_self relative
      | some d =>
        have above := parentComponents up
        have short : d.components.length = n := by rw [above, List.length_dropLast, length]; rfl
        have fewer : .root ∉ d.components := fun mem =>
          relative ((List.dropLast_prefix _).subset (above ▸ mem))
        rw [List.map_cons, ih d fewer short, List.range_succ, List.reverse_append,
          List.reverse_singleton, List.singleton_append, List.map_cons]
        have first : d.components = p.components.take n := by
          rw [above, List.dropLast_eq_take, length]
          rfl
        refine congrArg₂ List.cons first (List.map_congr_left fun i mem => ?_)
        rw [List.mem_reverse, List.mem_range] at mem
        rw [first, List.take_take, Nat.min_eq_left mem.le]
  exact walk _ p relative rfl

/-! Joining -/

theorem spellMore {front : List (List Char)} (filled : front ≠ []) (named : front ≠ [[]])
    (more : List (List Char)) :
    spell (front ++ more) = spell front ++ more.filterMap bodyComponent := by
  have whole (parts : List (List Char)) : (parts ++ more).filterMap bodyComponent =
      parts.filterMap bodyComponent ++ more.filterMap bodyComponent := List.filterMap_append
  cases front with
  | nil => exact absurd rfl filled
  | cons first rest =>
    by_cases nothing : first = []
    · subst nothing
      cases rest with
      | nil => exact absurd rfl named
      | cons next rest => exact congrArg (Component.root :: ·) (whole (next :: rest))
    · by_cases dot : first = ['.']
      · subst dot
        exact congrArg (Component.here :: ·) (whole rest)
      · rw [List.cons_append, spellPlain nothing dot, spellPlain nothing dot]
        exact whole (first :: rest)

theorem spellSlash {front : List (List Char)} (filled : front ≠ []) (named : front ≠ [[]]) :
    spell (front ++ [[]]) = spell front :=
  (spellMore filled named [[]]).trans (List.append_nil _)

theorem spellAppend {front more : List (List Char)} (filled : front ≠ []) (some_ : more ≠ []) :
    spell (front ++ more) = spell (front ++ [[]]) ++ more.filterMap bodyComponent := by
  by_cases named : front = [[]]
  · subst named
    obtain ⟨next, others, rfl⟩ := List.exists_cons_of_ne_nil some_
    rfl
  · rw [spellSlash filled named, spellMore filled named]

theorem emptyPieces {p : Path} (nothing : p.pieces = [[]]) : p.text.toList = [] := by
  have whole := Text.joinedSegments '/' p.text.toList
  rw [show segments '/' p.text.toList = [[]] from nothing] at whole
  exact whole.symm

theorem relativePiece {piece : List Char} (plain : '/' ∉ piece) :
    isAbsolute ⟨String.ofList piece⟩ = false := by
  cases piece with
  | nil => rfl
  | cons x rest =>
    have other : x ≠ '/' := fun same => plain (same ▸ List.mem_cons_self)
    simp [isAbsolute, String.toList_ofList, other]

theorem joinPieces (d : Path) {t : Path} (relative : t.isAbsolute = false) :
    (d.text = "" ∧ d.join t = t) ∨
      ∃ front, front ≠ [] ∧ (d.pieces = front ++ [[]] ∨ d.pieces = front ∧ front ≠ [[]]) ∧
        (d.join t).pieces = front ++ t.pieces := by
  rw [join, relative, if_neg Bool.false_ne_true]
  -- A separator goes between the two, unless the path is empty or ends in one already.
  rcases List.eq_nil_or_concat d.text.toList with nothing | ⟨front, last, whole⟩
  · have empty : d.text = "" := String.toList_injective nothing
    refine .inl ⟨empty, ?_⟩
    simp [empty]
  · refine .inr ?_
    rw [List.concat_eq_append] at whole
    by_cases slash : last = '/'
    · subst slash
      refine ⟨segments '/' front, segmentsNeNil '/' front, .inl ?_, ?_⟩
      · rw [pieces, whole, segmentsAppend]
        rfl
      · simp [pieces, whole, segmentsAppend]
    · refine ⟨d.pieces, d.piecesNeNil, .inr ⟨rfl, fun nothing => ?_⟩, ?_⟩
      · rw [emptyPieces nothing] at whole
        exact List.concat_ne_nil last front (by simpa using whole.symm)
      · have slashless : d.text.toList.getLast?.any (· ≠ '/') = true := by simp [whole, slash]
        rw [if_pos slashless]
        simp [pieces, segmentsAppend]

theorem joinBehind {d t : Path} (relative : t.isAbsolute = false) (filled : d.text ≠ "") :
    (d.join t).components = d.components ++ t.pieces.filterMap bodyComponent := by
  rcases joinPieces d relative with ⟨nothing, -⟩ | ⟨front, some_, start, joined⟩
  · exact absurd nothing filled
  · rw [componentsSpelled, componentsSpelled, joined, spellAppend some_ (piecesNeNil t)]
    rcases start with start | ⟨start, named⟩
    · rw [start]
    · rw [start, spellSlash some_ named]

theorem joinPiece (d : Path) {piece : List Char} {c : Component} (plain : '/' ∉ piece)
    (is : bodyComponent piece = some c) :
    (d.join ⟨String.ofList piece⟩).components = d.components ++ [c] := by
  have alone : pieces ⟨String.ofList piece⟩ = [piece] := by rw [piecesOf, segmentsPlain plain]
  by_cases empty : d.text = ""
  · have named : piece ≠ [] ∧ piece ≠ ['.'] := by
      constructor <;> rintro rfl <;> cases is
    have nothing : d.components = [] := by
      rw [show d = ⟨""⟩ from congrArg Path.mk empty]
      rfl
    have only : d.join ⟨String.ofList piece⟩ = ⟨String.ofList piece⟩ := by
      simp [join, relativePiece plain, empty]
    rw [only, nothing, componentsSpelled, alone, spellPlain named.1 named.2]
    simp [is]
  · rw [joinBehind (relativePiece plain) empty, alone]
    simp [is]

theorem bodyName {name : String} (named : name ≠ "" ∧ name ≠ "." ∧ name ≠ "..") :
    bodyComponent name.toList = some (.name name) := by
  have spelled (other : String) (apart : name ≠ other) : name.toList ≠ other.toList :=
    fun same => apart (String.toList_injective same)
  have empty : name.toList ≠ [] := spelled "" named.1
  have dot : name.toList ≠ ['.'] := spelled "." named.2.1
  have dots : name.toList ≠ ['.', '.'] := spelled ".." named.2.2
  simp [bodyComponent, isFiller, empty, dot, dots]

theorem joinName (d : Path) {name : String} (plain : '/' ∉ name.toList)
    (named : name ≠ "" ∧ name ≠ "." ∧ name ≠ "..") :
    (d.join ⟨name⟩).components = d.components ++ [.name name] := by
  have joined := joinPiece d plain (bodyName named)
  rwa [String.ofList_toList] at joined

theorem joinFileName (d : Path) {name : String} (plain : '/' ∉ name.toList)
    (named : name ≠ "" ∧ name ≠ "." ∧ name ≠ "..") : (d.join ⟨name⟩).fileName = some name := by
  rw [fileName, joinName d plain named, List.getLast?_concat]

end NotebookTidy.Path
