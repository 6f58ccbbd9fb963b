import NotebookTidy.Glob.Pattern

/-! The flags that a search carries along a text. A position is reached by a pattern from another
one if the pattern matches the bytes between the two; so a search that starts everywhere finds a
pattern in a text just when the pattern matches a slice of it in full. -/
namespace NotebookTidy.Glob.Pattern

/-- The pattern matches the bytes of the text from the one position to the other. -/
def Leads (p : Pattern) (text : List UInt8) (i j : Nat) : Prop :=
  ∃ before part after, text = before ++ part ++ after ∧ before.length = i ∧
    i + part.length = j ∧ p.Matches part

def Marked (marks : List Bool) (i : Nat) : Prop := marks[i]? = some true

/-! Matching, constructor by constructor -/

theorem nothingIff {bytes : List UInt8} : Matches .nothing bytes ↔ bytes = [] :=
  ⟨fun h => by cases h; rfl, fun h => h ▸ .nothing⟩

theorem byteIff {set : ByteSet} {bytes : List UInt8} :
    Matches (.byte set) bytes ↔ ∃ b, bytes = [b] ∧ set.contains b = true :=
  ⟨fun h => by cases h with | byte inside => exact ⟨_, rfl, inside⟩,
    fun ⟨_, same, inside⟩ => same ▸ .byte inside⟩

theorem bytesIff {set : ByteSet} {bytes : List UInt8} :
    Matches (.bytes set) bytes ↔ ∀ b ∈ bytes, set.contains b = true :=
  ⟨fun h => by cases h with | bytes inside => exact inside, .bytes⟩

theorem seqIff {p q : Pattern} {bytes : List UInt8} :
    Matches (.seq p q) bytes ↔ ∃ a b, bytes = a ++ b ∧ p.Matches a ∧ q.Matches b :=
  ⟨fun h => by cases h with | seq first second => exact ⟨_, _, rfl, first, second⟩,
    fun ⟨_, _, same, first, second⟩ => same ▸ .seq first second⟩

theorem eitherIff {p q : Pattern} {bytes : List UInt8} :
    Matches (.either p q) bytes ↔ p.Matches bytes ∨ q.Matches bytes :=
  ⟨fun h => by
    cases h with
    | left h => exact .inl h
    | right h => exact .inr h,
    fun h => h.elim .left .right⟩

theorem ofBytesIff {expected bytes : List UInt8} :
    (ofBytes expected).Matches bytes ↔ bytes = expected := by
  induction expected generalizing bytes with
  | nil => exact nothingIff
  | cons b rest ih =>
    have own (c : UInt8) : (⟨false, [(b, b)]⟩ : ByteSet).contains c = true ↔ c = b := by
      simp only [ByteSet.contains, List.any_cons, List.any_nil, Bool.or_false, Bool.false_bne,
        Bool.and_eq_true, decide_eq_true_eq]
      exact ⟨fun h => UInt8.le_antisymm h.2 h.1, fun h => h ▸ ⟨UInt8.le_refl _, UInt8.le_refl _⟩⟩
    simp only [ofBytes, seqIff, byteIff, ih, own]
    constructor
    · rintro ⟨_, _, rfl, ⟨_, rfl, rfl⟩, rfl⟩
      rfl
    · rintro rfl
      exact ⟨[b], rest, rfl, ⟨b, rfl, rfl⟩, rfl⟩

/-! Positions -/

section positions
variable {p q : Pattern} {text : List UInt8} {i j : Nat}

theorem leadsEnd (leads : p.Leads text i j) : i ≤ j ∧ j ≤ text.length := by
  obtain ⟨before, part, after, rfl, rfl, rfl, -⟩ := leads
  simp only [List.length_append]
  omega

theorem leadsSucc {b : UInt8} : p.Leads (b :: text) (i + 1) (j + 1) ↔ p.Leads text i j := by
  constructor
  · rintro ⟨before, part, after, whole, start, stop, matched⟩
    cases before with
    | nil => cases start
    | cons c before =>
      simp only [List.cons_append, List.cons.injEq] at whole
      exact ⟨before, part, after, whole.2, Nat.succ.inj start, by omega, matched⟩
  · rintro ⟨before, part, after, whole, start, stop, matched⟩
    exact ⟨b :: before, part, after, by simp [whole], by simp [start], by omega, matched⟩

theorem leadsNowhere : p.Leads text i 0 ↔ i = 0 ∧ p.Matches [] := by
  constructor
  · rintro ⟨before, part, after, -, -, stop, matched⟩
    obtain ⟨zero, none⟩ := Nat.add_eq_zero_iff.mp stop
    rw [List.eq_nil_of_length_eq_zero none] at matched
    exact ⟨zero, matched⟩
  · rintro ⟨rfl, matched⟩
    exact ⟨[], [], text, rfl, rfl, rfl, matched⟩

theorem leadsSeq :
    (Pattern.seq p q).Leads text i j ↔ ∃ k, p.Leads text i k ∧ q.Leads text k j := by
  constructor
  · rintro ⟨before, part, after, whole, start, stop, matched⟩
    obtain ⟨a, b, rfl, first, second⟩ := seqIff.mp matched
    refine ⟨i + a.length, ⟨before, a, b ++ after, by simp [whole], start, rfl, first⟩,
      before ++ a, b, after, by simp [whole], by simp [start], ?_, second⟩
    rw [← stop, List.length_append, Nat.add_assoc]
  · rintro ⟨k, ⟨before, a, rest, whole, start, middle, first⟩,
      ⟨front, b, after, whole', start', stop, second⟩⟩
    -- Both splits pass through the same position, so the second one begins with the first.
    have same : before ++ a = front ∧ rest = b ++ after := by
      refine List.append_inj ?_ ?_
      · rw [← whole, whole', List.append_assoc]
      · rw [List.length_append, start, middle, start']
    refine ⟨before, a ++ b, after, ?_, start, ?_, seqIff.mpr ⟨a, b, rfl, first, second⟩⟩
    · rw [whole', ← same.1]
      simp only [List.append_assoc]
    · rw [List.length_append, ← stop, ← middle, Nat.add_assoc]

theorem leadsEither :
    (Pattern.either p q).Leads text i j ↔ p.Leads text i j ∨ q.Leads text i j := by
  simp only [Leads, eitherIff]
  constructor
  · rintro ⟨before, part, after, whole, start, stop, h | h⟩
    · exact .inl ⟨before, part, after, whole, start, stop, h⟩
    · exact .inr ⟨before, part, after, whole, start, stop, h⟩
  · rintro (⟨before, part, after, whole, start, stop, h⟩ |
      ⟨before, part, after, whole, start, stop, h⟩)
    · exact ⟨before, part, after, whole, start, stop, .inl h⟩
    · exact ⟨before, part, after, whole, start, stop, .inr h⟩

theorem leadsNothing : Pattern.nothing.Leads text i j ↔ i = j ∧ j ≤ text.length := by
  constructor
  · intro leads
    have within := leadsEnd leads
    obtain ⟨before, part, after, -, -, stop, matched⟩ := leads
    rw [nothingIff.mp matched] at stop
    exact ⟨stop, within.2⟩
  · rintro ⟨rfl, within⟩
    exact ⟨text.take i, [], text.drop i, by simp, by simp [within], rfl, .nothing⟩

theorem leadsFirst {set : ByteSet} {b : UInt8} :
    (Pattern.bytes set).Leads (b :: text) 0 (j + 1) ↔
      set.contains b = true ∧ (Pattern.bytes set).Leads text 0 j := by
  simp only [Leads, bytesIff]
  constructor
  · rintro ⟨before, part, after, whole, start, stop, inside⟩
    cases List.eq_nil_of_length_eq_zero start
    cases part with
    | nil => exact absurd stop (by simp)
    | cons c part =>
      simp only [List.nil_append, List.cons_append, List.cons.injEq] at whole
      obtain ⟨first, others⟩ := List.forall_mem_cons.mp inside
      exact ⟨whole.1 ▸ first, [], part, after, whole.2, rfl, by simpa using stop, others⟩
  · rintro ⟨first, before, part, after, whole, start, stop, inside⟩
    cases List.eq_nil_of_length_eq_zero start
    exact ⟨[], b :: part, after, by simp [whole], rfl, by simpa using stop,
      List.forall_mem_cons.mpr ⟨first, inside⟩⟩

end positions

/-! Flags -/

theorem stepMarked (set : ByteSet) (text : List UInt8) (marks : List Bool) (j : Nat) :
    Marked (step set text marks) j ↔
      Marked marks j ∧ ∃ b, text[j]? = some b ∧ set.contains b = true := by
  induction text generalizing marks j with
  | nil => simp [Marked, step]
  | cons b text ih =>
    cases marks with
    | nil => simp [Marked, step]
    | cons m marks =>
      cases j with
      | zero => simp [Marked, step]
      | succ j => simpa [Marked, step] using ih marks j

theorem byteLeads {set : ByteSet} {text : List UInt8} {i j : Nat} :
    (Pattern.byte set).Leads text i (j + 1) ↔
      i = j ∧ ∃ b, text[j]? = some b ∧ set.contains b = true := by
  constructor
  · rintro ⟨before, part, after, rfl, rfl, stop, matched⟩
    obtain ⟨b, rfl, inside⟩ := byteIff.mp matched
    have here : before.length = j := Nat.succ.inj stop
    exact ⟨here, b, by simp [← here], inside⟩
  · rintro ⟨rfl, b, found, inside⟩
    obtain ⟨within, here⟩ := List.getElem?_eq_some_iff.mp found
    refine ⟨text.take i, [b], text.drop (i + 1), ?_, ?_, rfl, .byte inside⟩
    · rw [← here, List.take_append_getElem, List.take_append_drop]
    · rw [List.length_take, Nat.min_eq_left (Nat.le_of_lt within)]

/-- From the first position the first byte is passed over; any other one lies in the rest. -/
theorem markedFirst {set : ByteSet} {b : UInt8} {text : List UInt8} {m : Bool} {marks : List Bool}
    {j : Nat} : (∃ i, Marked (m :: marks) i ∧ (Pattern.bytes set).Leads (b :: text) i (j + 1)) ↔
      (m = true ∧ set.contains b = true ∧ (Pattern.bytes set).Leads text 0 j) ∨
        ∃ i, Marked marks i ∧ (Pattern.bytes set).Leads text i j := by
  constructor
  · rintro ⟨i, marked, leads⟩
    cases i with
    | zero => exact .inl ⟨by simpa [Marked] using marked, leadsFirst.mp leads⟩
    | succ i => exact .inr ⟨i, by simpa [Marked] using marked, leadsSucc.mp leads⟩
  · rintro (⟨marked, leads⟩ | ⟨i, marked, leads⟩)
    · exact ⟨0, by simpa [Marked] using marked, leadsFirst.mpr leads⟩
    · exact ⟨i + 1, by simpa [Marked] using marked, leadsSucc.mpr leads⟩

theorem spreadMarked (set : ByteSet) (text : List UInt8) (marks : List Bool) (carried : Bool)
    (j : Nat) (size : marks.length = text.length + 1) :
    Marked (spread set carried text marks) j ↔
      carried = true ∧ (Pattern.bytes set).Leads text 0 j ∨
        ∃ i, Marked marks i ∧ (Pattern.bytes set).Leads text i j := by
  have anywhere : Matches (.bytes set) [] := .bytes (List.forall_mem_nil _)
  induction text generalizing marks carried j with
  | nil =>
    obtain ⟨m, rfl⟩ := List.length_eq_one_iff.mp size
    cases j with
    | zero => simp [Marked, spread, leadsNowhere, anywhere, or_comm]
    | succ j =>
      have outside (i : Nat) : ¬ (Pattern.bytes set).Leads [] i (j + 1) := fun leads =>
        absurd (leadsEnd leads).2 (Nat.not_succ_le_zero j)
      simp [Marked, spread, outside]
  | cons b text ih =>
    cases marks with
    | nil => cases size
    | cons m marks =>
      cases j with
      | zero => simp [Marked, spread, leadsNowhere, anywhere, or_comm]
      | succ j =>
        have tail := ih marks ((m || carried) && set.contains b) j (Nat.succ.inj size)
        have shift : Marked (spread set carried (b :: text) (m :: marks)) (j + 1) ↔
            Marked (spread set ((m || carried) && set.contains b) text marks) j := by
          simp [Marked, spread]
        refine (shift.trans tail).trans ?_
        rw [markedFirst, leadsFirst]
        simp only [Bool.and_eq_true, Bool.or_eq_true]
        grind

theorem stepLength (set : ByteSet) (text : List UInt8) (marks : List Bool)
    (size : marks.length = text.length + 1) : (step set text marks).length = text.length := by
  induction text generalizing marks with
  | nil => cases marks <;> rfl
  | cons b text ih =>
    cases marks with
    | nil => cases size
    | cons m marks => rw [step, List.length_cons, ih marks (Nat.succ.inj size), List.length_cons]

theorem spreadLength (set : ByteSet) (text : List UInt8) (marks : List Bool) (carried : Bool)
    (size : marks.length = text.length + 1) :
    (spread set carried text marks).length = text.length + 1 := by
  induction text generalizing marks carried with
  | nil =>
    obtain ⟨m, rfl⟩ := List.length_eq_one_iff.mp size
    rfl
  | cons b text ih =>
    cases marks with
    | nil => cases size
    | cons m marks =>
      rw [spread, List.length_cons, ih marks _ (Nat.succ.inj size), List.length_cons]

theorem reachLength (p : Pattern) {text : List UInt8} {marks : List Bool}
    (size : marks.length = text.length + 1) : (p.reach text marks).length = text.length + 1 := by
  induction p generalizing marks with
  | nothing => exact size
  | byte set => rw [reach, List.length_cons, stepLength set text marks size]
  | bytes set => exact spreadLength set text marks false size
  | seq p q ihp ihq => exact ihq (ihp size)
  | either p q ihp ihq => rw [reach, List.length_zipWith, ihp size, ihq size, Nat.min_self]

theorem markedEither {a b : List Bool} (size : a.length = b.length) (j : Nat) :
    Marked (List.zipWith (· || ·) a b) j ↔ Marked a j ∨ Marked b j := by
  simp only [Marked, List.getElem?_zipWith]
  rcases Nat.lt_or_ge j a.length with inside | outside
  · rw [List.getElem?_eq_getElem inside, List.getElem?_eq_getElem (size ▸ inside)]
    simp
  · rw [List.getElem?_eq_none outside, List.getElem?_eq_none (size ▸ outside)]
    simp

/-- The flags after a pattern: the positions to which it leads from those that were flagged. -/
theorem reachMarked (p : Pattern) {text : List UInt8} {marks : List Bool} (j : Nat)
    (size : marks.length = text.length + 1) :
    Marked (p.reach text marks) j ↔ ∃ i, Marked marks i ∧ p.Leads text i j := by
  induction p generalizing marks j with
  | nothing =>
    have within (marked : Marked marks j) : j ≤ text.length := by
      have := (List.getElem?_eq_some_iff.mp marked).1
      omega
    simp only [leadsNothing]
    exact ⟨fun marked => ⟨j, marked, rfl, within marked⟩, fun ⟨_, marked, same, _⟩ => same ▸ marked⟩
  | byte set =>
    cases j with
    | zero =>
      have nowhere : ¬ Matches (.byte set) [] := fun matched => by
        obtain ⟨b, same, -⟩ := byteIff.mp matched
        cases same
      simp [Marked, reach, leadsNowhere, nowhere]
    | succ j =>
      have shift : Marked (reach text (.byte set) marks) (j + 1) ↔
          Marked (step set text marks) j := by simp [Marked, reach]
      simp only [shift, stepMarked, byteLeads]
      exact ⟨fun ⟨marked, found⟩ => ⟨j, marked, rfl, found⟩,
        fun ⟨_, marked, same, found⟩ => ⟨same ▸ marked, found⟩⟩
  | bytes set =>
    rw [reach, spreadMarked set text marks false j size]
    simp only [Bool.false_eq_true, false_and, false_or]
  | seq p q ihp ihq =>
    simp only [reach, ihq j (reachLength p size), ihp _ size, leadsSeq]
    constructor
    · rintro ⟨k, ⟨i, marked, first⟩, second⟩
      exact ⟨i, marked, k, first, second⟩
    · rintro ⟨i, marked, k, first, second⟩
      exact ⟨k, ⟨i, marked, first⟩, second⟩
  | either p q ihp ihq =>
    have sizes := (reachLength p size).trans (reachLength q size).symm
    simp only [reach, markedEither sizes, ihp _ size, ihq _ size, leadsEither, and_or_left,
      exists_or]

theorem anyMarked (marks : List Bool) : marks.any id = true ↔ ∃ j, Marked marks j := by
  simp only [List.any_eq_true, id_eq, exists_eq_right, Marked, List.mem_iff_getElem?]

/-! Whole searches -/

theorem occursIff (p : Pattern) (text : List UInt8) :
    p.occursIn text = true ↔ ∃ part, part <:+: text ∧ p.Matches part := by
  have size : (List.replicate (text.length + 1) true).length = text.length + 1 :=
    List.length_replicate
  rw [occursIn, anyMarked]
  constructor
  · rintro ⟨j, marked⟩
    obtain ⟨i, -, before, part, after, whole, -, -, matched⟩ := (reachMarked p j size).mp marked
    exact ⟨part, ⟨before, after, whole.symm⟩, matched⟩
  · rintro ⟨part, ⟨before, after, whole⟩, matched⟩
    have start : before.length < text.length + 1 := by
      simp only [← whole, List.length_append]
      omega
    refine ⟨before.length + part.length, (reachMarked p _ size).mpr ⟨before.length, ?_,
      before, part, after, whole.symm, rfl, rfl, matched⟩⟩
    exact List.getElem?_eq_some_iff.mpr ⟨by simpa using start, by simp⟩

theorem wholeIff (p : Pattern) (text : List UInt8) :
    p.matchesWhole text = true ↔ p.Matches text := by
  have size : (true :: List.replicate text.length false).length = text.length + 1 := by simp
  have first (i : Nat) : Marked (true :: List.replicate text.length false) i ↔ i = 0 := by
    cases i with
    | zero => simp [Marked]
    | succ i => simp [Marked, List.getElem?_replicate]
  have last : p.matchesWhole text = true ↔
      Marked (p.reach text (true :: List.replicate text.length false)) text.length := by
    rw [matchesWhole, List.getLast?_eq_getElem?, reachLength p size, Nat.add_sub_cancel, Marked]
    cases (p.reach text (true :: List.replicate text.length false))[text.length]? <;> simp
  rw [last, reachMarked p _ size]
  simp only [first, exists_eq_left]
  constructor
  · rintro ⟨before, part, after, whole, start, stop, matched⟩
    have rest : after = [] := by
      have lengths := congrArg List.length whole
      simp only [List.length_append] at lengths
      exact List.eq_nil_of_length_eq_zero (by omega)
    rw [List.eq_nil_of_length_eq_zero start, rest, List.nil_append, List.append_nil] at whole
    rwa [whole]
  · intro matched
    exact ⟨[], text, [], by simp, rfl, Nat.zero_add _, matched⟩

instance (p : Pattern) (text : List UInt8) : Decidable (p.Matches text) :=
  decidable_of_iff _ (wholeIff p text)

end NotebookTidy.Glob.Pattern
