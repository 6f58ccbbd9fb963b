import NotebookTidy.Proofs.Path.Components

/-! What taking `.` and `..` away makes of components: names behind the root, or behind a leading
run of `..`. Such a form spells the path that it is and is its own normal form. A directory stays
above whatever is reached from it without stepping out of it. -/
namespace NotebookTidy

/-- A component that may stand behind the first one of a path. -/
def Component.Inner : Component → Prop
  | .name s => '/' ∉ s.toList ∧ Path.bodyComponent s.toList = some (.name s)
  | .up => True
  | .root | .here => False

namespace Path
open Text (segments joined segmentPlain segmentsJoined)

theorem bodyInner {piece : List Char} {c : Component} (plain : '/' ∉ piece)
    (is : bodyComponent piece = some c) : c.Inner := by
  have whole := is
  rw [bodyComponent] at is
  split at is
  · cases is
  · split at is
    · cases is
      trivial
    · cases is
      rw [Component.Inner, String.toList_ofList]
      exact ⟨plain, whole⟩

theorem innerSpelled {c : Component} (inner : c.Inner) :
    '/' ∉ c.text.toList ∧ bodyComponent c.text.toList = some c := by
  cases c with
  | name s => exact inner
  | up => exact ⟨by decide, rfl⟩
  | root => cases inner
  | here => cases inner

theorem bodyWhole {p : Path} {parts : List (List Char)} (inside : parts ⊆ p.pieces) :
    ∀ c ∈ parts.filterMap bodyComponent, c.Inner := by
  intro c mem
  obtain ⟨part, within, is⟩ := List.mem_filterMap.mp mem
  exact bodyInner (segmentPlain (inside within)) is

theorem componentsShape (p : Path) : ∃ (start : Option Component) (body : List Component),
    p.components = start.toList ++ body ∧ (∀ c ∈ start, c = .root ∨ c = .here) ∧
      ∀ c ∈ body, c.Inner := by
  rw [components]
  cases form p with
  | root spelled lead =>
    rw [lead]
    exact ⟨_, _, rfl, by simp, bodyWhole fun _ mem => spelled ▸ List.mem_cons_of_mem _ mem⟩
  | here spelled lead =>
    rw [lead]
    exact ⟨_, _, rfl, by simp, bodyWhole fun _ mem => spelled ▸ List.mem_cons_of_mem _ mem⟩
  | empty spelled lead =>
    rw [lead]
    exact ⟨none, _, rfl, by simp, bodyWhole fun _ mem => spelled ▸ mem⟩
  | plain spelled filled other lead =>
    rw [lead]
    exact ⟨none, _, rfl, by simp, bodyWhole fun _ mem => spelled ▸ mem⟩

theorem absoluteSpelled (p : Path) : p.isAbsolute = true ↔ p.components.head? = some .root := by
  have opened : p.isAbsolute = true ↔ ∃ next rest, p.pieces = [] :: next :: rest := by
    unfold isAbsolute pieces
    cases p.text.toList with
    | nil => simp [segments]
    | cons c rest =>
      obtain ⟨next, others, found⟩ := List.exists_cons_of_ne_nil (Text.segmentsNeNil '/' rest)
      by_cases slash : c = '/'
      · simp [segments, slash, found]
      · simp [segments, slash, found]
  rw [opened, components]
  cases form p with
  | root spelled lead => simp [spelled, lead]
  | here spelled lead => simp [spelled, lead]
  | empty spelled lead => simp [spelled, lead, bodyComponent, isFiller]
  | @plain first rest spelled filled other lead =>
    have inner := bodyWhole (spelled ▸ List.Subset.refl _ : first :: rest ⊆ p.pieces)
    have unrooted : .root ∉ (first :: rest).filterMap bodyComponent := fun mem => inner _ mem
    rw [spelled, lead]
    refine iff_of_false (by simp [filled]) fun head => unrooted (List.mem_of_mem_head? ?_)
    simpa using head

/-- Components without a `.`, from the root or from nowhere. -/
def Settled (cs : List Component) : Prop :=
  ∃ (start : Option Component) (body : List Component),
    cs = start.toList ++ body ∧ (start = none ∨ start = some .root) ∧
    ∀ c ∈ body, c.Inner

theorem settledUndotted {cs : List Component} (settled : Settled cs) : .here ∉ cs := by
  obtain ⟨start, body, rfl, starts, inner⟩ := settled
  intro mem
  rcases List.mem_append.mp mem with first | within
  · rcases starts with rfl | rfl <;> simp at first
  · exact inner _ within

theorem textsSpell {body : List Component} (inner : ∀ c ∈ body, c.Inner) :
    (∀ part ∈ body.map (·.text.toList), '/' ∉ part) ∧
      (body.map (·.text.toList)).filterMap bodyComponent = body := by
  induction body with
  | nil => exact ⟨by simp, rfl⟩
  | cons c rest ih =>
    obtain ⟨first, others⟩ := List.forall_mem_cons.mp inner
    obtain ⟨plain, is⟩ := innerSpelled first
    obtain ⟨more, same⟩ := ih others
    refine ⟨List.forall_mem_cons.mpr ⟨plain, more⟩, ?_⟩
    rw [List.map_cons, List.filterMap_cons, is, same]

theorem settledSpelled {start : Option Component} {body : List Component}
    (starts : start = none ∨ start = some .root) (inner : ∀ c ∈ body, c.Inner) :
    ofComponents (start.toList ++ body) = spelledWith start (body.map (·.text.toList)) := by
  rcases starts with rfl | rfl
  · cases body with
    | nil => rfl
    | cons c rest =>
      have first := inner c List.mem_cons_self
      cases c with
      | root => cases first
      | here => cases first
      | up => rfl
      | name s => rfl
  · rfl

theorem componentsOf {cs : List Component} (settled : Settled cs) :
    (ofComponents cs).components = cs := by
  obtain ⟨start, body, rfl, starts, inner⟩ := settled
  obtain ⟨plain, same⟩ := textsSpell inner
  rw [settledSpelled starts inner]
  rcases starts with rfl | rfl
  · have first : ∀ part ∈ (body.map (·.text.toList)).head?, part ≠ [] ∧ part ≠ ['.'] := by
      cases body with
      | nil => simp
      | cons c rest =>
        obtain ⟨-, is⟩ := innerSpelled (inner c List.mem_cons_self)
        rintro part ⟨⟩
        dsimp only
        constructor <;> intro same <;> rw [same] at is <;> cases is
    rw [spelledWith, componentsPlain plain first, same]
    rfl
  · rw [spelledWith, componentsFromRoot plain, same]
    rfl

/-- No piece of the spelling is a dot. -/
theorem settledDotless {cs : List Component} (settled : Settled cs) :
    ['.'] ∉ (ofComponents cs).pieces := by
  obtain ⟨start, body, rfl, starts, inner⟩ := settled
  obtain ⟨plain, same⟩ := textsSpell inner
  have dotless : ['.'] ∉ body.map (·.text.toList) := by
    intro mem
    obtain ⟨c, inside, dot⟩ := List.mem_map.mp mem
    have is := (innerSpelled (inner c inside)).2
    rw [dot] at is
    cases is
  have joint : ['.'] ∉ segments '/' (joined ['/'] (body.map (·.text.toList))) := by
    cases body with
    | nil => decide
    | cons c rest => rwa [segmentsJoined (by simp) plain]
  rw [settledSpelled starts inner]
  rcases starts with rfl | rfl
  · rwa [spelledWith, piecesOf]
  · rw [spelledWith, piecesFromRoot, List.mem_cons]
    exact not_or.mpr ⟨List.cons_ne_nil _ _, joint⟩

/-- What stands in front of the names: the root, or steps out of where the path is read from. -/
def outset (absolute : Bool) (ups : Nat) : List Component :=
  if absolute then [.root] else List.replicate ups .up

inductive Canonical (absolute : Bool) : List Component → Prop where
  | names (ups : Nat) {names : List Component} (inner : ∀ c ∈ names, c.Inner)
      (named : ∀ c ∈ names, ∃ s, c = .name s) : Canonical absolute (outset absolute ups ++ names)

theorem outsetLonger (ups : Nat) : outset false (ups + 1) = outset false ups ++ [.up] :=
  List.replicate_succ'

theorem stepBack (done : List Component) (s : String) :
    normalStep (done ++ [.name s]) .up = done := by
  rw [normalStep, List.getLast?_concat]
  exact List.dropLast_concat

theorem stepOutset (absolute : Bool) (ups : Nat) :
    normalStep (outset absolute ups) .up = outset absolute (ups + 1) := by
  cases absolute with
  | true => rfl
  | false =>
    cases ups with
    | zero => rfl
    | succ n => rw [outsetLonger (n + 1), normalStep, outsetLonger n, List.getLast?_concat]

theorem stepCanonical {absolute : Bool} {done : List Component} {c : Component}
    (canonical : Canonical absolute done) (inner : c.Inner) :
    Canonical absolute (normalStep done c) := by
  obtain @⟨ups, names, inside, named⟩ := canonical
  cases c with
  | root => cases inner
  | here => cases inner
  | name s =>
    have longer : normalStep (outset absolute ups ++ names) (.name s) =
        outset absolute ups ++ (names ++ [.name s]) := List.append_assoc ..
    rw [longer]
    apply Canonical.names
    · exact List.forall_mem_append.mpr ⟨inside, List.forall_mem_singleton.mpr inner⟩
    · exact List.forall_mem_append.mpr ⟨named, List.forall_mem_singleton.mpr ⟨s, rfl⟩⟩
  | up =>
    -- The last name goes if there is one; otherwise the root stays, and a run of `..` grows.
    rcases List.eq_nil_or_concat names with rfl | ⟨init, last, rfl⟩
    · rw [List.append_nil, stepOutset, ← List.append_nil (outset absolute (ups + 1))]
      exact .names (ups + 1) inside named
    · rw [List.concat_eq_append, List.forall_mem_append] at inside named
      obtain ⟨s, rfl⟩ := named.2 last List.mem_cons_self
      rw [List.concat_eq_append, ← List.append_assoc, stepBack]
      exact .names ups inside.1 named.1

theorem runCanonical {absolute : Bool} {done body : List Component}
    (canonical : Canonical absolute done) (inner : ∀ c ∈ body, c.Inner) :
    Canonical absolute (body.foldl normalStep done) := by
  induction body generalizing done with
  | nil => exact canonical
  | cons c rest ih =>
    obtain ⟨first, others⟩ := List.forall_mem_cons.mp inner
    exact ih (stepCanonical canonical first) others

theorem normalCanonical (p : Path) : Canonical p.isAbsolute (normalComponents p.components) := by
  obtain ⟨start, body, whole, starts, inner⟩ := componentsShape p
  have rooted : p.isAbsolute = true ↔ start = some .root := by
    rw [absoluteSpelled, whole]
    cases start with
    | none => exact iff_of_false (fun head => inner _ (List.mem_of_mem_head? head)) nofun
    | some c => simp
  -- The first component alone may be the root or a dot, and a dot leaves nothing.
  have opened : start.toList.foldl normalStep [] = outset p.isAbsolute 0 ++ [] := by
    cases absolute : p.isAbsolute with
    | true =>
      rw [rooted.mp absolute]
      rfl
    | false =>
      cases start with
      | none => rfl
      | some c =>
        rcases starts c rfl with rfl | rfl
        · rw [rooted.mpr rfl] at absolute
          cases absolute
        · rfl
  rw [normalComponents, whole, List.foldl_append, opened]
  exact runCanonical (.names 0 (by simp) (by simp)) inner

theorem namesKept (done : List Component) {names : List Component}
    (named : ∀ c ∈ names, ∃ s, c = .name s) : names.foldl normalStep done = done ++ names := by
  induction names generalizing done with
  | nil => exact (List.append_nil _).symm
  | cons c rest ih =>
    obtain ⟨⟨s, rfl⟩, others⟩ := List.forall_mem_cons.mp named
    have longer : normalStep done (.name s) = done ++ [.name s] := rfl
    rw [List.foldl_cons, ih _ others, longer, List.append_assoc, List.singleton_append]

theorem outsetKept (absolute : Bool) (ups : Nat) :
    normalComponents (outset absolute ups) = outset absolute ups := by
  cases absolute with
  | true => rfl
  | false =>
    induction ups with
    | zero => rfl
    | succ n ih =>
      rw [outsetLonger, normalComponents, List.foldl_append, ← normalComponents, ih]
      exact (stepOutset false n).trans (outsetLonger n)

/-- Components that lead out of where they are read from. -/
def Outward (cs : List Component) : Prop := cs.head? = some .root ∨ cs.head? = some .up

/-! What has a canonical form is settled, and is not changed by taking `.` and `..` away again. -/

section canonical

variable {absolute : Bool} {cs : List Component} (canonical : Canonical absolute cs)
include canonical

theorem canonicalSettled : Settled cs := by
  obtain @⟨ups, names, inner, -⟩ := canonical
  cases absolute with
  | true => exact ⟨some .root, names, rfl, .inr rfl, inner⟩
  | false =>
    refine ⟨none, List.replicate ups .up ++ names, rfl, .inl rfl, ?_⟩
    refine List.forall_mem_append.mpr ⟨fun c mem => ?_, inner⟩
    rw [List.eq_of_mem_replicate mem]
    trivial

theorem canonicalHead : cs.head? = some .root ↔ absolute = true := by
  obtain @⟨ups, names, inner, -⟩ := canonical
  cases absolute with
  | true => exact iff_of_true rfl rfl
  | false =>
    refine iff_of_false (fun head => ?_) nofun
    cases ups with
    | zero => exact inner _ (List.mem_of_mem_head? head)
    | succ n => cases head

theorem canonicalNamed : Outward cs ∨ ∀ c ∈ cs, ∃ name, c = .name name := by
  obtain @⟨ups, names, -, named⟩ := canonical
  cases absolute with
  | true => exact .inl (.inl rfl)
  | false =>
    cases ups with
    | zero => exact .inr named
    | succ n => exact .inl (.inr rfl)

theorem canonicalLeading : ∃ ups rest, cs = List.replicate ups .up ++ rest ∧ .up ∉ rest ∧
    (ups = 0 ∨ absolute = false) := by
  obtain @⟨ups, names, -, named⟩ := canonical
  have unstepped : .up ∉ names := fun mem => by
    obtain ⟨s, other⟩ := named _ mem
    cases other
  cases absolute with
  | true =>
    have behind : Component.up ∉ .root :: names :=
      List.not_mem_cons_of_ne_of_not_mem nofun unstepped
    exact ⟨0, .root :: names, rfl, behind, .inl rfl⟩
  | false => exact ⟨ups, names, rfl, unstepped, .inr rfl⟩

theorem canonicalKept : normalComponents cs = cs := by
  obtain @⟨ups, names, -, named⟩ := canonical
  rw [normalComponents, List.foldl_append, ← normalComponents, outsetKept,
    namesKept _ named]

end canonical

theorem normalSettled (p : Path) : Settled (normalComponents p.components) :=
  canonicalSettled (normalCanonical p)

theorem normalNamed (p : Path) : Outward (normalComponents p.components) ∨
    ∀ c ∈ normalComponents p.components, ∃ name, c = .name name :=
  canonicalNamed (normalCanonical p)

theorem normalizeComponents (p : Path) : p.normalize.components = normalComponents p.components :=
  componentsOf (normalSettled p)

theorem normalizeAbsolute (p : Path) : p.normalize.isAbsolute = p.isAbsolute := by
  rw [Bool.eq_iff_iff, absoluteSpelled, normalizeComponents]
  exact canonicalHead (normalCanonical p)

theorem normalizeAgain (p : Path) : p.normalize.normalize = p.normalize := by
  have kept : normalComponents p.normalize.components = normalComponents p.components := by
    rw [normalizeComponents, canonicalKept (normalCanonical p)]
  exact congrArg ofComponents kept

/-- Taking away what leads nowhere, one at a time: a `.`, a `..` behind the root, or a name together
with the `..` behind it. -/
inductive Reduces : List Component → List Component → Prop where
  | done (cs : List Component) : Reduces cs cs
  | here {before after cs : List Component} (rest : Reduces (before ++ after) cs) :
      Reduces (before ++ .here :: after) cs
  | top {before after cs : List Component} (rest : Reduces (before ++ .root :: after) cs) :
      Reduces (before ++ .root :: .up :: after) cs
  | back {before after cs : List Component} {s : String} (rest : Reduces (before ++ after) cs) :
      Reduces (before ++ .name s :: .up :: after) cs

theorem runReduces (done rest : List Component) :
    Reduces (done ++ rest) (rest.foldl normalStep done) := by
  induction rest generalizing done with
  | nil => rw [List.append_nil]; exact .done done
  | cons c rest ih =>
    -- What is pushed stays where it stands; the rest goes on from it.
    have pushed : Reduces (done ++ c :: rest) (rest.foldl normalStep (done ++ [c])) := by
      have next := ih (done ++ [c])
      rwa [List.append_assoc, List.singleton_append] at next
    rw [List.foldl_cons]
    cases c with
    | root => exact pushed
    | name s => exact pushed
    | here => exact .here (ih done)
    | up =>
      rw [normalStep]
      split
      · rename_i s last
        obtain ⟨init, rfl⟩ := List.getLast?_eq_some_iff.mp last
        rw [List.dropLast_concat, List.append_assoc]
        exact .back (ih init)
      · rename_i last
        obtain ⟨init, rfl⟩ := List.getLast?_eq_some_iff.mp last
        have next := ih (init ++ [.root])
        rw [List.append_assoc] at next ⊢
        exact .top next
      · exact pushed

theorem normalizeReduces (p : Path) : Reduces p.components p.normalize.components := by
  rw [normalizeComponents]
  exact runReduces [] p.components

theorem normalInner (p : Path) : ∀ c ∈ normalComponents p.components, c ≠ .root → c.Inner := by
  obtain ⟨start, body, whole, from_, inner⟩ := normalSettled p
  rw [whole]
  intro c mem other
  rcases List.mem_append.mp mem with first | within
  · rcases from_ with rfl | rfl
    · cases first
    · exact absurd (List.mem_singleton.mp first) other
  · exact inner c within

/-- Going on from a directory, `depth` names below it, never leads out of it. -/
def Stays : Nat → List Component → Prop
  | _, [] => True
  | depth, .name _ :: rest => Stays (depth + 1) rest
  | 0, .up :: _ => False
  | depth + 1, .up :: rest => Stays depth rest
  | depth, .here :: rest => Stays depth rest
  | _, .root :: _ => False

theorem staysBelow {done names rest : List Component} (named : ∀ c ∈ names, ∃ s, c = .name s)
    (stays : Stays names.length rest) :
    done <+: rest.foldl normalStep (done ++ names) := by
  -- `names` have been entered below the directory and not been left; an `up` takes the last away.
  induction rest generalizing names with
  | nil => exact List.prefix_append _ _
  | cons c rest ih =>
    rw [List.foldl_cons]
    cases c with
    | root => cases stays
    | here => exact ih named stays
    | name s =>
      have longer : normalStep (done ++ names) (.name s) = done ++ (names ++ [.name s]) :=
        List.append_assoc ..
      rw [longer]
      refine ih ?_ ?_
      · rw [List.forall_mem_append, List.forall_mem_singleton]
        exact ⟨named, s, rfl⟩
      · rw [List.length_append]
        exact stays
    | up =>
      rcases List.eq_nil_or_concat names with rfl | ⟨init, final, rfl⟩
      · cases stays
      · rw [List.concat_eq_append] at named stays ⊢
        obtain ⟨s, rfl⟩ := named final (by simp)
        rw [← List.append_assoc, stepBack]
        refine ih (fun c mem => named c (List.mem_append_left _ mem)) ?_
        rwa [List.length_append] at stays

theorem normalBelow {above rest : List Component} (stays : Stays 0 rest) :
    normalComponents above <+: normalComponents (above ++ rest) := by
  rw [normalComponents, normalComponents, List.foldl_append]
  have within : above.foldl normalStep [] <+:
      rest.foldl normalStep (above.foldl normalStep [] ++ []) := staysBelow (by simp) stays
  rwa [List.append_nil] at within

end Path
end NotebookTidy
