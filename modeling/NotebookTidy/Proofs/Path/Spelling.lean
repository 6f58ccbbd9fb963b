import NotebookTidy.Proofs.Path.Normal
import NotebookTidy.Text.Encoding

/-! What is the same for two spellings of the same components: the components of what is joined to
them, those of the directories above them, and the characters of their names. Their lengths need not
be the same. -/
namespace NotebookTidy.Path
open Text (byteLength)

theorem relativeBody {p : Path} (relative : p.isAbsolute = false) :
    p.pieces.filterMap bodyComponent = p.components.filter (· ≠ .here) := by
  have body {parts : List (List Char)} (inside : parts ⊆ p.pieces) :
      (parts.filterMap bodyComponent).filter (· ≠ .here) = parts.filterMap bodyComponent := by
    refine List.filter_eq_self.mpr fun c mem => ?_
    have inner := bodyWhole inside c mem
    cases c with
    | here => cases inner
    | _ => rfl
  rw [components]
  cases form p with
  | root spelled lead =>
    have rooted := (absoluteSpelled p).mpr (by rw [components, lead]; rfl)
    rw [relative] at rooted
    cases rooted
  | here spelled lead =>
    rw [lead]
    have rest := body (fun _ mem => spelled ▸ List.mem_cons_of_mem _ mem)
    have dot : bodyComponent ['.'] = none := rfl
    rw [spelled, List.filterMap_cons, dot]
    exact rest.symm
  | empty spelled lead =>
    rw [lead, spelled]
    rfl
  | plain spelled filled other lead =>
    rw [lead]
    have rest := body (List.Subset.refl p.pieces)
    rw [spelled] at rest ⊢
    exact rest.symm

theorem emptyIff (p : Path) : p.text = "" ↔ p.components = [] := by
  constructor
  · intro empty
    rw [show p = ⟨""⟩ from congrArg Path.mk empty]
    rfl
  · intro nothing
    rw [components] at nothing
    cases form p with
    | root spelled lead => rw [lead] at nothing; cases nothing
    | here spelled lead => rw [lead] at nothing; cases nothing
    | empty spelled lead => exact String.toList_injective (emptyPieces spelled)
    | @plain first rest spelled filled other lead =>
      rw [lead] at nothing
      have none : bodyComponent first = none :=
        List.filterMap_eq_nil_iff.mp nothing first List.mem_cons_self
      have filler := fillerNone.mp none
      simp [isFiller, filled, other] at filler

theorem isEmptyIff (p : Path) : p.text.isEmpty = true ↔ p.components = [] := by
  rw [String.isEmpty_iff, emptyIff]

theorem joinAbsolute {d t : Path} (absolute : t.isAbsolute = true) : d.join t = t := by
  rw [join, if_pos absolute]

theorem joinEmpty {d t : Path} (empty : d.text = "") : d.join t = t := by
  cases absolute : t.isAbsolute with
  | true => exact joinAbsolute absolute
  | false => simp [join, absolute, empty]

theorem joinComponents (d t : Path) : (d.join t).components =
    if t.components.head? = some .root ∨ d.components = [] then t.components
    else d.components ++ t.components.filter (· ≠ .here) := by
  split
  · rename_i either
    rcases either with absolute | empty
    · rw [joinAbsolute ((absoluteSpelled t).mpr absolute)]
    · rw [joinEmpty ((emptyIff d).mpr empty)]
  · rename_i neither
    obtain ⟨relative, filled⟩ := not_or.mp neither
    have relative : t.isAbsolute = false := by
      simpa using mt (absoluteSpelled t).mp relative
    rw [joinBehind relative (mt (emptyIff d).mp filled), relativeBody relative]

theorem joinIsAbsolute {d : Path} (absolute : d.isAbsolute = true) (t : Path) :
    (d.join t).isAbsolute = true := by
  rw [absoluteSpelled] at absolute ⊢
  rw [joinComponents]
  split
  · rename_i either
    refine either.resolve_right fun nothing => ?_
    rw [nothing] at absolute
    cases absolute
  · rw [List.head?_append, absolute, Option.some_or]

theorem joinsAbsolute {d : Path} (absolute : d.isAbsolute = true) {α : Type} (f : α → Path)
    (tails : List α) : (tails.foldl (fun d a => d.join (f a)) d).isAbsolute = true := by
  induction tails generalizing d with
  | nil => exact absolute
  | cons a rest ih => exact ih (joinIsAbsolute absolute (f a))

theorem absoluteAbsolute {p a current : Path} (rooted : current.isAbsolute = true)
    (seen : p.absolute current = some a) : a.isAbsolute = true := by
  rw [absolute] at seen
  split at seen
  · cases seen
  · cases seen
    have start : Path.isAbsolute (if p.isAbsolute = true then
        if (p.text.toList.take 2 = ['/', '/'] && (p.text.toList.drop 2).head? ≠ some '/') = true
          then ⟨"//"⟩ else ⟨"/"⟩
        else current) = true := by
      split
      · split <;> rfl
      · exact rooted
    split
    · exact joinIsAbsolute (joinsAbsolute start _ _) _
    · exact joinsAbsolute start _ _

/-! Directories above -/

theorem parentNoneIff {p : Path} :
    p.parent = none ↔ p.components = [] ∨ p.components = [.root] := by
  refine ⟨parentNone, ?_⟩
  rintro (nothing | root)
  · rw [show p = ⟨""⟩ from congrArg Path.mk ((emptyIff p).mpr nothing)]
    rfl
  · rw [components] at root
    cases form p with
    | root spelled lead =>
      rcases fillerEnd _ with ⟨nothing, whole⟩ | ⟨init, last, c, ends, is, whole, within⟩
      · exact parentNothing lead nothing
      · rw [lead, whole] at root
        simp at root
    | here spelled lead => rw [lead] at root; cases root
    | empty spelled lead => exact parentNothing lead rfl
    | @plain first rest spelled filled other lead =>
      rw [lead] at root
      have inner := bodyWhole (spelled ▸ List.Subset.refl _ : first :: rest ⊆ p.pieces)
      have only : (first :: rest).filterMap bodyComponent = [.root] := root
      exact (inner .root (only ▸ List.mem_singleton_self _)).elim

theorem parentsCons {p d : Path} (up : p.parent = some d) : p.parents = d :: d.parents := by
  obtain ⟨c, whole⟩ := parentSnoc up
  rw [parents, whole, List.length_append, List.length_singleton, parentsUpTo, up]
  rfl

theorem parentsNil {p : Path} (top : p.parent = none) : p.parents = [] := by
  unfold parents
  cases p.components.length with
  | zero => rfl
  | succ n => rw [parentsUpTo, top]

theorem parentsPaired {p q : Path} (top : p.parent = none ↔ q.parent = none) :
    (p.parent = none ∧ q.parent = none) ∨
      ∃ d e, p.parent = some d ∧ q.parent = some e := by
  cases up : p.parent with
  | none => exact .inl ⟨rfl, top.mp up⟩
  | some d =>
    have filled : q.parent ≠ none := fun nothing => by
      rw [top.mpr nothing] at up
      cases up
    obtain ⟨e, up'⟩ := Option.ne_none_iff_exists'.mp filled
    exact .inr ⟨d, e, rfl, up'⟩

theorem parentsSame {p q : Path} (same : p.components = q.components) :
    List.Forall₂ (fun d e => d.components = e.components) p.parents q.parents := by
  have walk (n : Nat) (p q : Path) (same : p.components = q.components) :
      List.Forall₂ (fun d e => d.components = e.components) (p.parentsUpTo n)
        (q.parentsUpTo n) := by
    induction n generalizing p q with
    | zero => exact .nil
    | succ n ih =>
      have top : p.parent = none ↔ q.parent = none := by rw [parentNoneIff, parentNoneIff, same]
      rw [parentsUpTo, parentsUpTo]
      rcases parentsPaired top with ⟨up, up'⟩ | ⟨d, e, up, up'⟩
      · rw [up, up']
        exact .nil
      · have here : d.components = e.components := by
          rw [parentComponents up, parentComponents up', same]
        rw [up, up']
        exact .cons here (ih d e here)
  rw [parents, parents, same]
  exact walk _ p q same

/-- Two paths in one directory, however that is spelled. -/
structure Beside (p q : Path) : Prop where
  top : p.parent = none ↔ q.parent = none
  directory : p.directory.components = q.directory.components

theorem parentsBeside {p q : Path} (beside : Beside p q) :
    List.Forall₂ (fun d e => d.components = e.components) p.parents q.parents := by
  obtain ⟨top, directory⟩ := beside
  rcases parentsPaired top with ⟨up, up'⟩ | ⟨d, e, up, up'⟩
  · rw [parentsNil up, parentsNil up']
    exact .nil
  · have here : d.components = e.components := by
      rwa [Path.directory, Path.directory, up, up'] at directory
    rw [parentsCons up, parentsCons up']
    exact .cons here (parentsSame here)

theorem parentsDirectory {p q : Path} (top : p.parent = none ↔ q.parent = none)
    (same : p.directory = q.directory) : p.parents = q.parents := by
  rcases parentsPaired top with ⟨up, up'⟩ | ⟨d, e, up, up'⟩
  · rw [parentsNil up, parentsNil up']
  · rw [directory, directory, up, up'] at same
    cases same
    rw [parentsCons up, parentsCons up']

theorem absoluteBeside {p q : Path} (absolute : p.isAbsolute = true)
    (absolute' : q.isAbsolute = true)
    (directory : p.directory.components = q.directory.components) : Beside p q := by
  have top {p : Path} (absolute : p.isAbsolute = true) :
      p.parent = none ↔ p.directory.components = [] := by
    obtain ⟨rest, whole⟩ := List.head?_eq_some_iff.mp ((absoluteSpelled p).mp absolute)
    rw [parentNoneIff, directoryComponents, whole]
    cases rest <;> simp
  exact ⟨by rw [top absolute, top absolute', directory], directory⟩

/-! Characters and lengths -/

theorem charSpelled {x : Char} (slash : x ≠ '/') (dot : x ≠ '.') (p : Path) :
    x ∈ p.text.toList ↔ ∃ c ∈ p.components, x ∈ c.text.toList := by
  have one (part : List Char) :
      x ∈ part ↔ ∃ c, bodyComponent part = some c ∧ x ∈ c.text.toList := by
    unfold bodyComponent
    split
    · rename_i filler
      have little : part = [] ∨ part = ['.'] := by simpa [isFiller] using filler
      rcases little with rfl | rfl <;> simp [dot]
    · split
      · rename_i up
        simp [up, Component.text, dot]
      · simp [Component.text]
  have inside (parts : List (List Char)) : (∃ part ∈ parts, x ∈ part) ↔
      ∃ c ∈ parts.filterMap bodyComponent, x ∈ c.text.toList := by
    constructor
    · rintro ⟨part, mem, held⟩
      obtain ⟨c, is, held⟩ := (one part).mp held
      exact ⟨c, List.mem_filterMap.mpr ⟨part, mem, is⟩, held⟩
    · rintro ⟨c, mem, held⟩
      obtain ⟨part, within, is⟩ := List.mem_filterMap.mp mem
      exact ⟨part, within, (one part).mpr ⟨c, is, held⟩⟩
  have spelled : x ∈ p.text.toList ↔ ∃ part ∈ p.pieces, x ∈ part := by
    rw [← Text.memJoined (by simpa using slash : x ∉ ['/']), pieces, Text.joinedSegments]
  rw [spelled, components]
  cases form p with
  | root spelled lead =>
    rw [spelled, lead, List.exists_mem_cons_iff, inside]
    simp [Component.text, slash]
  | here spelled lead =>
    rw [spelled, lead, List.exists_mem_cons_iff, inside]
    simp [Component.text, dot]
  | empty spelled lead =>
    rw [spelled, lead, inside]
    rfl
  | plain spelled filled other lead =>
    rw [spelled, lead, inside]
    rfl

theorem joinText {d t : Path} (relative : t.isAbsolute = false) :
    (d.join t).text =
      d.text ++ (if d.text.toList.getLast?.any (· ≠ '/') then "/" else "") ++ t.text := by
  rw [join, relative, if_neg Bool.false_ne_true]
  split <;> simp

theorem joinLonger (d : Path) {t u : Path} (alike : t.isAbsolute = u.isAbsolute)
    (longer : byteLength t.text.toList ≤ byteLength u.text.toList) :
    byteLength (d.join t).text.toList ≤ byteLength (d.join u).text.toList := by
  cases absolute : t.isAbsolute with
  | true => rwa [joinAbsolute absolute, joinAbsolute (alike ▸ absolute)]
  | false =>
    rw [joinText absolute, joinText (alike ▸ absolute)]
    simp only [String.toList_append, Text.byteLengthAppend]
    omega

end NotebookTidy.Path
