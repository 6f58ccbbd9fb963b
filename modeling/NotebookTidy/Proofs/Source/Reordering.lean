import NotebookTidy.Proofs.Source.Splice

/-! The order in which an engine reports does not show in a fixed text. Changes are applied in the
order of their spans, and only those of one span in the order of the engine; as long as no two
diagnostics have changes of one span, nothing is left for the order of the diagnostics to decide. -/
namespace NotebookTidy.Source
open Text (Encoding byteLength)

def Change.span (c : Change) : Nat × Nat := (c.start, c.stop)

def Change.spans (span : Nat × Nat) (c : Change) : Bool := decide (c.span = span)

theorem fromEndSpan {a b : Change} (same : a.span = b.span) : a.fromEnd b = true := by
  simp only [Change.span, Prod.mk.injEq] at same
  rw [fromEndIff]
  omega

theorem spanFromEnd {a b : Change} (after : a.fromEnd b = true) (before : b.fromEnd a = true) :
    a.span = b.span := by
  rw [fromEndIff] at after before
  simp only [Change.span, Prod.mk.injEq]
  omega

theorem sortedSpans (changes : List Change) (span : Nat × Nat) :
    (changes.mergeSort Change.fromEnd).filter (Change.spans span) =
      changes.filter (Change.spans span) := by
  refine sortedFilter fun a left b right => fromEndSpan ?_
  have atA := of_decide_eq_true (List.mem_filter.mp left).2
  have atB := of_decide_eq_true (List.mem_filter.mp right).2
  exact atA.trans atB.symm

theorem memSpans {changes others : List Change}
    (same : ∀ span, changes.filter (Change.spans span) = others.filter (Change.spans span))
    {c : Change} (mem : c ∈ changes) : c ∈ others := by
  have kept : c ∈ changes.filter (Change.spans c.span) :=
    List.mem_filter.mpr ⟨mem, decide_eq_true rfl⟩
  rw [same] at kept
  exact (List.mem_filter.mp kept).1

/-- In the order of their spans, changes are told by those of each span. -/
theorem sortedDetermined {changes others : List Change}
    (sorted : changes.Pairwise fun a b => a.fromEnd b = true)
    (sorted' : others.Pairwise fun a b => a.fromEnd b = true)
    (same : ∀ span, changes.filter (Change.spans span) = others.filter (Change.spans span)) :
    changes = others := by
  induction changes generalizing others with
  | nil =>
    refine (List.eq_nil_iff_forall_not_mem.mpr fun c mem => ?_).symm
    cases memSpans (fun span => (same span).symm) mem
  | cons a rest ih =>
    cases others with
    | nil => cases memSpans same List.mem_cons_self
    | cons b more =>
      obtain ⟨first, sorted⟩ := List.pairwise_cons.mp sorted
      obtain ⟨first', ordered⟩ := List.pairwise_cons.mp sorted'
      -- Each of the two heads stands in the other list, so neither comes after the other.
      have head : a = b := by
        have inside := List.mem_cons.mp (memSpans same List.mem_cons_self)
        have inside' := List.mem_cons.mp (memSpans (fun s => (same s).symm) List.mem_cons_self)
        rcases inside with here | later
        · exact here
        · rcases inside' with here | later'
          · exact here.symm
          · have span := spanFromEnd (first b later') (first' a later)
            have own := same a.span
            simp [Change.spans, span] at own
            exact own.1
      subst head
      refine congrArg (a :: ·) (ih sorted ordered fun span => ?_)
      have own := same span
      simp only [List.filter_cons] at own
      split at own
      · exact (List.cons.inj own).2
      · exact own

/-- Both are to be fixed, and no edit of the one resolves to the offsets of an edit of the other. -/
def Apart (i : LineIndex) (e : Encoding) (a b : Diagnostic) : Prop :=
  a.hasSafeFix = true → b.hasSafeFix = true → ∀ x ∈ a.edits, ∀ y ∈ b.edits,
    (Change.ofEdit i e x).span ≠ (Change.ofEdit i e y).span

theorem apartSymm {i : LineIndex} {e : Encoding} {a b : Diagnostic} (apart : Apart i e a b) :
    Apart i e b a :=
  fun left right x mem y mem' => (apart right left y mem' x mem).symm

def ownChanges (i : LineIndex) (e : Encoding) (d : Diagnostic) : List Change :=
  engineChanges i e [d]

theorem engineCons (i : LineIndex) (e : Encoding) (d : Diagnostic) (ds : List Diagnostic) :
    engineChanges i e (d :: ds) = ownChanges i e d ++ engineChanges i e ds := by
  by_cases safe : d.hasSafeFix = true <;> simp [engineChanges, ownChanges, safe]

theorem memOwn {i : LineIndex} {e : Encoding} {d : Diagnostic} {c : Change}
    (mem : c ∈ ownChanges i e d) :
    d.hasSafeFix = true ∧ ∃ edit ∈ d.edits, Change.ofEdit i e edit = c := by
  by_cases safe : d.hasSafeFix = true
  · simp only [ownChanges, engineChanges, safe, List.filter_cons_of_pos, List.filter_nil,
      List.flatMap_singleton] at mem
    exact ⟨safe, List.mem_map.mp mem⟩
  · simp [ownChanges, engineChanges, safe] at mem

theorem apartFilter {i : LineIndex} {e : Encoding} {a b : Diagnostic} (apart : Apart i e a b)
    (span : Nat × Nat) : (ownChanges i e a).filter (Change.spans span) = [] ∨
      (ownChanges i e b).filter (Change.spans span) = [] := by
  refine Classical.or_iff_not_imp_left.mpr fun filled =>
    List.eq_nil_iff_forall_not_mem.mpr fun d right => ?_
  obtain ⟨c, left⟩ := List.exists_mem_of_ne_nil _ filled
  obtain ⟨mem, at_⟩ := List.mem_filter.mp left
  obtain ⟨mem', at'⟩ := List.mem_filter.mp right
  obtain ⟨safe, x, edit, rfl⟩ := memOwn mem
  obtain ⟨safe', y, edit', rfl⟩ := memOwn mem'
  exact apart safe safe' x edit y edit'
    ((of_decide_eq_true at_).trans (of_decide_eq_true at').symm)

theorem permSpans {i : LineIndex} {e : Encoding} {ds ds' : List Diagnostic} (perm : ds.Perm ds')
    (apart : ds.Pairwise (Apart i e)) (span : Nat × Nat) :
    (engineChanges i e ds).filter (Change.spans span) =
      (engineChanges i e ds').filter (Change.spans span) := by
  induction perm with
  | nil => rfl
  | cons d _ ih =>
    rw [engineCons, engineCons, List.filter_append, List.filter_append,
      ih (List.pairwise_cons.mp apart).2]
  | swap a b rest =>
    obtain ⟨first, -⟩ := List.pairwise_cons.mp apart
    simp only [engineCons, List.filter_append]
    rcases apartFilter (first a List.mem_cons_self) span with none | none <;> simp [none]
  | trans perm _ ih ih' =>
    exact (ih apart).trans (ih' ((perm.pairwise_iff apartSymm).mp apart))

theorem permSorted {i : LineIndex} {e : Encoding} {ds ds' : List Diagnostic} (perm : ds.Perm ds')
    (apart : ds.Pairwise (Apart i e)) :
    (safeChanges i e ds).mergeSort Change.fromEnd =
      (safeChanges i e ds').mergeSort Change.fromEnd := by
  refine sortedDetermined (List.pairwise_mergeSort fromEndTrans fromEndTotal _)
    (List.pairwise_mergeSort fromEndTrans fromEndTotal _) fun span => ?_
  simp only [sortedSpans, safeChangesReverse, List.filter_reverse, permSpans perm apart span]

theorem applyFixesSorted {text : String} {ds ds' : List Diagnostic} {e : Encoding}
    (same : (safeChanges (.ofText text.toList) e ds).mergeSort Change.fromEnd =
      (safeChanges (.ofText text.toList) e ds').mergeSort Change.fromEnd) :
    applyFixes text ds e = applyFixes text ds' e := by
  have sizes := congrArg List.length same
  simp only [List.length_mergeSort] at sizes
  simp only [applyFixes]
  cases first : safeChanges (.ofText text.toList) e ds with
  | nil =>
    rw [first] at sizes
    rw [List.eq_nil_of_length_eq_zero sizes.symm]
  | cons c rest =>
    cases second : safeChanges (.ofText text.toList) e ds' with
    | nil => simp [first, second] at sizes
    | cons c' rest' =>
      rw [first, second] at same
      have patched : patch text.toList (c :: rest) = patch text.toList (c' :: rest') := by
        rw [patch, patch, same]
      dsimp only
      rw [patched]

/-- The diagnostics of a text may come in any order. Edits of one diagnostic may share a span, and
edits of different ones may overlap, but not take one and the same span. -/
theorem diagnosticsReordered (text : String) (e : Encoding) {ds ds' : List Diagnostic}
    (perm : ds.Perm ds') (apart : ds.Pairwise (Apart (.ofText text.toList) e)) :
    applyFixes text ds e = applyFixes text ds' e :=
  applyFixesSorted (permSorted perm apart)

def safeReport (edits : List Edit) : Diagnostic :=
  ⟨none, "", ⟨1, 1⟩, ⟨1, 1⟩, some ⟨.safe, none, edits⟩⟩

/-- Two insertions at one place in one diagnostic, which a deletion of another one reaches into. -/
theorem diagnosticsReorderedOverlap :
    applyFixes "Hello World"
        [safeReport [⟨"<", ⟨1, 6⟩, ⟨1, 6⟩⟩, ⟨">", ⟨1, 6⟩, ⟨1, 6⟩⟩],
          safeReport [⟨"", ⟨1, 4⟩, ⟨1, 9⟩⟩]] .utf16 =
      applyFixes "Hello World"
        [safeReport [⟨"", ⟨1, 4⟩, ⟨1, 9⟩⟩],
          safeReport [⟨"<", ⟨1, 6⟩, ⟨1, 6⟩⟩, ⟨">", ⟨1, 6⟩, ⟨1, 6⟩⟩]] .utf16 := by
  refine diagnosticsReordered _ _ (.swap _ _ _) ?_
  have apart : ∀ x ∈ [⟨"<", ⟨1, 6⟩, ⟨1, 6⟩⟩, (⟨">", ⟨1, 6⟩, ⟨1, 6⟩⟩ : Edit)],
      ∀ y ∈ [(⟨"", ⟨1, 4⟩, ⟨1, 9⟩⟩ : Edit)],
        (Change.ofEdit (.ofText "Hello World".toList) .utf16 x).span ≠
          (Change.ofEdit (.ofText "Hello World".toList) .utf16 y).span := by decide +kernel
  exact List.pairwise_pair.mpr fun _ _ => apart

end NotebookTidy.Source
