import NotebookTidy.Proofs.Source.Cut

/-! What applying fixes leaves of a text. The loop goes from the end of the text to its beginning;
told from the beginning, it is a splice in which every character outside the applied spans stays.
A change is left out only for an applied one that it overlaps. -/
namespace NotebookTidy.Source
open Text (Encoding byteLength)

/-- `out` is the text from an offset on, with the content of each change in place of its span. -/
inductive Spliced : Nat → List Char → List Change → List Char → Prop where
  | done (offset : Nat) : Spliced offset [] [] []
  | keep {offset : Nat} {text : List Char} {changes : List Change} {out : List Char} (c : Char)
      (next : Spliced (offset + c.utf8Size) text changes out) :
      Spliced offset (c :: text) changes (c :: out)
  | change {text : List Char} {changes : List Change} {out : List Char} (c : Change)
      (span : List Char) (stops : c.start + byteLength span = c.stop)
      (next : Spliced c.stop text changes out) :
      Spliced c.start (span ++ text) (c :: changes) (c.content ++ out)

theorem splicedKeep {offset : Nat} (kept : List Char) {text : List Char} {changes : List Change}
    {out : List Char} (next : Spliced (offset + byteLength kept) text changes out) :
    Spliced offset (kept ++ text) changes (kept ++ out) := by
  induction kept generalizing offset with
  | nil => exact next
  | cons c rest ih =>
    rw [Text.byteLengthCons, ← Nat.add_assoc] at next
    exact .keep c (ih next)

theorem splicedFrom {offset : Nat} {text : List Char} {changes : List Change} {out : List Char}
    (h : Spliced offset text changes out) :
    ∀ c ∈ changes, offset ≤ c.start ∧ c.start ≤ c.stop := by
  induction h with
  | done => simp
  | keep c next ih =>
    intro d mem
    have := ih d mem
    omega
  | change c span stops next ih =>
    intro d mem
    rcases List.mem_cons.mp mem with rfl | later
    · omega
    · have := ih d later
      omega

theorem splicedOrdered {offset : Nat} {text : List Char} {changes : List Change} {out : List Char}
    (h : Spliced offset text changes out) :
    changes.Pairwise fun a b => a.stop ≤ b.start := by
  induction h with
  | done => exact .nil
  | keep c next ih => exact ih
  | change c span stops next ih =>
    exact List.pairwise_cons.mpr ⟨fun d mem => (splicedFrom next d mem).1, ih⟩

theorem fromEndIff {a b : Change} :
    a.fromEnd b = true ↔ b.start < a.start ∨ b.start = a.start ∧ b.stop ≤ a.stop := by
  simp [Change.fromEnd]

theorem fromEndTrans (a b c : Change) (ab : a.fromEnd b = true) (bc : b.fromEnd c = true) :
    a.fromEnd c = true := by
  rw [fromEndIff] at *
  omega

theorem fromEndTotal (a b : Change) : (a.fromEnd b || b.fromEnd a) = true := by
  rw [Bool.or_eq_true, fromEndIff, fromEndIff]
  omega

theorem patchFromSpliced {text front back : List Char} {cursor : Nat} {done : List Char}
    {above rest : List Change} (whole : text = front ++ back) (size : byteLength front = cursor)
    (sofar : Spliced cursor back above done) (inText : ∀ c ∈ rest, c.InText text) :
    Spliced 0 text ((patchFrom text cursor done rest).applied.reverse ++ above)
      (patchFrom text cursor done rest).text := by
  -- What is in `done` splices the text from the cursor on; each step moves the cursor back.
  induction rest generalizing front back cursor done above with
  | nil =>
    have kept : takeBytes cursor text = front := by
      rw [whole, ← size]
      exact takeBytesExact front back
    simp only [patchFrom, kept, List.reverse_nil, List.nil_append]
    rw [whole]
    exact splicedKeep front (by simpa [size] using sofar)
  | cons c rest ih =>
    obtain ⟨first, others⟩ := List.forall_mem_cons.mp inText
    simp only [patchFrom]
    split
    · exact ih whole size sofar others
    · rename_i clear
      obtain ⟨upTo, kept, later, same, long, stop⟩ :=
        boundaryParts first.stop ⟨front, back, whole, size⟩ (Nat.le_of_not_lt clear)
      obtain ⟨before, span, after, cut, short, start⟩ :=
        boundaryParts first.start first.stop first.inOrder
      have outer : front = upTo ++ kept ∧ back = later := by
        refine splitUnique ?_ ?_
        · rw [← whole, same, List.append_assoc]
        · rw [size, Text.byteLengthAppend, long, stop]
      have inner : before ++ span = upTo ∧ after = kept ++ later := by
        refine splitUnique ?_ ?_
        · rw [List.append_assoc, ← cut, same]
        · rw [Text.byteLengthAppend, short, start, long]
      have piece : slice text c.stop cursor = kept := by
        rw [same, ← long, ← stop, ← long, sliceExact]
      have next : Spliced c.start (span ++ after) (c :: above) (c.content ++ (kept ++ done)) := by
        refine .change c span start ?_
        rw [inner.2, ← outer.2]
        exact splicedKeep kept (by rwa [stop])
      rw [piece, List.append_assoc]
      simpa using ih cut short next others

/-- Two changes overlap if they share a byte or one of them inserts strictly inside the other. -/
def Change.Overlaps (a b : Change) : Prop := a.start < b.stop ∧ b.start < a.stop

theorem patchFromSkipped {text : List Char} {cursor : Nat} {done : List Char}
    {above rest : List Change} (sorted : rest.Pairwise fun a b => a.fromEnd b = true)
    (inOrder : ∀ c ∈ rest, c.start ≤ c.stop) (reached : ∀ c ∈ rest, c.start ≤ cursor)
    (blocked : ∀ c ∈ rest, cursor < c.stop → ∃ a ∈ above, a.Overlaps c) :
    ∀ c ∈ (patchFrom text cursor done rest).skipped,
      c.start < c.stop ∧
        ∃ a ∈ above ++ (patchFrom text cursor done rest).applied, a.Overlaps c := by
  -- The last applied change starts at the cursor, and none of those left starts after it: what
  -- reaches past the cursor overlaps that change.
  induction rest generalizing cursor done above with
  | nil => simp [patchFrom]
  | cons c rest ih =>
    obtain ⟨fromFirst, sorted⟩ := List.pairwise_cons.mp sorted
    obtain ⟨straight, inOrder⟩ := List.forall_mem_cons.mp inOrder
    obtain ⟨atCursor, reached⟩ := List.forall_mem_cons.mp reached
    obtain ⟨blockedFirst, blocked⟩ := List.forall_mem_cons.mp blocked
    simp only [patchFrom]
    split
    · rename_i past
      intro d mem
      rcases List.mem_cons.mp mem with rfl | later
      · obtain ⟨a, found, overlap⟩ := blockedFirst past
        exact ⟨by omega, a, List.mem_append_left _ found, overlap⟩
      · exact ih sorted inOrder reached blocked d later
    · intro d mem
      have reachedBelow : ∀ b ∈ rest, b.start ≤ c.start := by
        intro b inside
        rcases fromEndIff.mp (fromFirst b inside) with before | same <;> omega
      have blockedBelow : ∀ b ∈ rest, c.start < b.stop → ∃ a ∈ c :: above, a.Overlaps b := by
        intro b inside past
        refine ⟨c, List.mem_cons_self, past, ?_⟩
        rcases fromEndIff.mp (fromFirst b inside) with before | same <;> omega
      obtain ⟨solid, a, found, overlap⟩ := ih sorted inOrder reachedBelow blockedBelow d mem
      refine ⟨solid, a, ?_, overlap⟩
      simpa [or_assoc, or_left_comm] using found

theorem patchFromPerm (text : List Char) (cursor : Nat) (done : List Char) (rest : List Change) :
    ((patchFrom text cursor done rest).applied ++
      (patchFrom text cursor done rest).skipped).Perm rest := by
  induction rest generalizing cursor done with
  | nil => exact .nil
  | cons c rest ih =>
    simp only [patchFrom]
    split
    · exact List.perm_middle.trans ((ih cursor done).cons c)
    · exact (ih c.start _).cons c

theorem patchFromFilter {p : Change → Bool} {text : List Char} {cursor : Nat} {done : List Char}
    {rest : List Change} (kept : ∀ c ∈ (patchFrom text cursor done rest).skipped, p c = false) :
    (patchFrom text cursor done rest).applied.filter p = rest.filter p := by
  induction rest generalizing cursor done with
  | nil => rfl
  | cons c rest ih =>
    simp only [patchFrom] at kept ⊢
    split at kept <;> rename_i place
    · rw [if_pos place]
      obtain ⟨first, others⟩ := List.forall_mem_cons.mp kept
      rw [List.filter_cons_of_neg (by simp [first])]
      exact ih others
    · rw [if_neg place]
      simp only [List.filter_cons, ih kept]

theorem sortedFilter {p : Change → Bool} {changes : List Change}
    (equal : ∀ a ∈ changes.filter p, ∀ b ∈ changes.filter p, a.fromEnd b = true) :
    (changes.mergeSort Change.fromEnd).filter p = changes.filter p := by
  have tied : (changes.filter p).Pairwise fun a b => a.fromEnd b = true :=
    List.pairwise_of_forall_mem_list equal
  have inside := (List.sublist_mergeSort fromEndTrans fromEndTotal tied
    List.filter_sublist).filter p
  rw [List.filter_filter] at inside
  simp only [Bool.and_self] at inside
  have sizes := ((List.mergeSort_perm changes Change.fromEnd).filter p).length_eq
  exact (inside.eq_of_length sizes.symm).symm

def Change.insertsAt (offset : Nat) (c : Change) : Bool :=
  decide (c.start = offset) && decide (c.stop = offset)

/-- The edits of all safe fixes as changes, in the order of the engine. -/
def engineChanges (i : LineIndex) (e : Encoding) (ds : List Diagnostic) : List Change :=
  ((ds.filter Diagnostic.hasSafeFix).flatMap Diagnostic.edits).map (Change.ofEdit i e)

theorem safeChangesReverse (i : LineIndex) (e : Encoding) (ds : List Diagnostic) :
    safeChanges i e ds = (engineChanges i e ds).reverse := by
  rw [safeChanges, engineChanges, List.filter_reverse, ← List.map_reverse, List.reverse_flatMap]
  rfl

/-- `applied` is in the order of the text. -/
structure ExactSplice (text : List Char) (engine applied skipped : List Change)
    (out : List Char) : Prop where
  all : (applied ++ skipped).Perm engine
  apart : applied.Pairwise fun a b => a.stop ≤ b.start
  spliced : Spliced 0 text applied out
  insertions : ∀ offset,
    applied.filter (Change.insertsAt offset) = engine.filter (Change.insertsAt offset)
  insertionFirst : ∀ a ∈ applied, ∀ b ∈ applied, a.start = a.stop → a.start = b.start →
    b.start < b.stop → [a, b].Sublist applied
  blocked : ∀ c ∈ skipped, c.start < c.stop ∧ ∃ a ∈ applied, a.Overlaps c
  complete : engine.Pairwise (fun a b => a.stop ≤ b.start ∨ b.stop ≤ a.start) → skipped = []

theorem pairOfPairwise {changes : List Change} {a b : Change}
    (ordered : changes.Pairwise fun a b => a.stop ≤ b.start) (left : a ∈ changes)
    (right : b ∈ changes) (empty : a.start = a.stop) (same : a.start = b.start)
    (solid : b.start < b.stop) : [a, b].Sublist changes := by
  induction changes with
  | nil => cases left
  | cons c rest ih =>
    obtain ⟨first, ordered⟩ := List.pairwise_cons.mp ordered
    rcases List.mem_cons.mp left with rfl | inLeft
    · rcases List.mem_cons.mp right with rfl | inRight
      · omega
      · exact (List.singleton_sublist.mpr inRight).cons_cons a
    · rcases List.mem_cons.mp right with rfl | inRight
      · have := first a inLeft
        omega
      · exact (ih ordered inLeft inRight).cons c

theorem nothingSkipped {engine applied skipped : List Change}
    (all : (applied ++ skipped).Perm engine)
    (blocked : ∀ c ∈ skipped, c.start < c.stop ∧ ∃ a ∈ applied, a.Overlaps c)
    (disjoint : engine.Pairwise fun a b => a.stop ≤ b.start ∨ b.stop ≤ a.start) :
    skipped = [] := by
  have parts := (List.Perm.pairwise_iff (fun h => h.symm) all).mpr disjoint
  rw [List.pairwise_append] at parts
  refine List.eq_nil_iff_forall_not_mem.mpr fun c mem => ?_
  obtain ⟨_, a, found, overlap⟩ := blocked c mem
  rcases parts.2.2 a found c mem with before | after
  · exact absurd overlap.2 (Nat.not_lt.mpr before)
  · exact absurd overlap.1 (Nat.not_lt.mpr after)

theorem patchPerm (text : List Char) (changes : List Change) :
    ((patch text changes).applied.reverse ++ (patch text changes).skipped).Perm
      changes.reverse := by
  have sorted := List.mergeSort_perm changes Change.fromEnd
  have parts := patchFromPerm text (byteLength text) [] (changes.mergeSort Change.fromEnd)
  exact ((List.reverse_perm _).append_right _).trans
    (parts.trans (sorted.trans (List.reverse_perm _).symm))

theorem patchBlocked {text : List Char} {changes : List Change}
    (inText : ∀ c ∈ changes, c.InText text) :
    ∀ c ∈ (patch text changes).skipped, c.start < c.stop ∧
      ∃ a ∈ (patch text changes).applied.reverse, a.Overlaps c := by
  intro c mem
  have inTextSorted := sortedInText inText
  have free : ∀ c ∈ changes.mergeSort Change.fromEnd, byteLength text < c.stop →
      ∃ a ∈ ([] : List Change), a.Overlaps c :=
    fun c mem past => absurd (boundaryLe (inTextSorted c mem).stop) (Nat.not_le.mpr past)
  obtain ⟨solid, a, found, overlap⟩ := patchFromSkipped
    (List.pairwise_mergeSort fromEndTrans fromEndTotal changes)
    (fun c mem => (inTextSorted c mem).inOrder)
    (fun c mem => boundaryLe (inTextSorted c mem).start) free c mem
  exact ⟨solid, a, List.mem_reverse.mpr found, overlap⟩

theorem patchInsertions {text : List Char} {changes : List Change}
    (solid : ∀ c ∈ (patch text changes).skipped, c.start < c.stop) (offset : Nat) :
    (patch text changes).applied.reverse.filter (Change.insertsAt offset) =
      changes.reverse.filter (Change.insertsAt offset) := by
  rw [List.filter_reverse, List.filter_reverse]
  congr 1
  have kept : ∀ c ∈ (patch text changes).skipped, c.insertsAt offset = false := by
    intro c mem
    have := solid c mem
    simp only [Change.insertsAt, Bool.and_eq_false_iff, decide_eq_false_iff_not]
    omega
  refine (patchFromFilter kept).trans (sortedFilter ?_)
  intro a left b right
  have atA := (List.mem_filter.mp left).2
  have atB := (List.mem_filter.mp right).2
  simp only [Change.insertsAt, Bool.and_eq_true, decide_eq_true_eq] at atA atB
  rw [fromEndIff]
  omega

theorem patchSplices {text : List Char} {changes : List Change}
    (inText : ∀ c ∈ changes, c.InText text) :
    ExactSplice text changes.reverse (patch text changes).applied.reverse
      (patch text changes).skipped (patch text changes).text := by
  have all := patchPerm text changes
  have blocked := patchBlocked inText
  have spliced : Spliced 0 text (patch text changes).applied.reverse (patch text changes).text := by
    have sofar := patchFromSpliced (List.append_nil text).symm rfl (.done _) (sortedInText inText)
    rwa [List.append_nil] at sofar
  have apart := splicedOrdered spliced
  exact ⟨all, apart, spliced, patchInsertions fun c mem => (blocked c mem).1,
    fun a left b right => pairOfPairwise apart left right, blocked, nothingSkipped all blocked⟩

theorem applyFixesPatch (text : String) (ds : List Diagnostic) (e : Encoding) :
    (applyFixes text ds e).applied =
        (patch text.toList (safeChanges (.ofText text.toList) e ds)).applied.length ∧
      (applyFixes text ds e).text.toList =
        (patch text.toList (safeChanges (.ofText text.toList) e ds)).text := by
  simp only [applyFixes]
  cases safeChanges (.ofText text.toList) e ds with
  | nil =>
    have kept : takeBytes (byteLength text.toList) text.toList = text.toList := by
      simpa using takeBytesExact text.toList []
    simp [patch, patchFrom, kept]
  | cons c rest => exact ⟨rfl, String.toList_ofList⟩

theorem fixesSpliceText (text : String) (ds : List Diagnostic) (e : Encoding) :
    applyFixes? text ds e = some (applyFixes text ds e) ∧
      ∃ applied skipped,
        applied.length = (applyFixes text ds e).applied ∧
        ExactSplice text.toList (engineChanges (.ofText text.toList) e ds) applied skipped
          (applyFixes text ds e).text.toList := by
  obtain ⟨count, out⟩ := applyFixesPatch text ds e
  have splice := patchSplices (safeChangesInText e text.toList ds)
  rw [← out] at splice
  have engine : (safeChanges (.ofText text.toList) e ds).reverse =
      engineChanges (.ofText text.toList) e ds := by
    rw [safeChangesReverse, List.reverse_reverse]
  rw [engine] at splice
  exact ⟨applyFixesCuts text ds e, _, _, by rw [List.length_reverse, count], splice⟩

end NotebookTidy.Source
