import NotebookTidy.Proofs.Path.Order
import NotebookTidy.Proofs.Path.Spelling
import NotebookTidy.Storage.Memory

/-! What texts in memory are under which paths, and what a listing finds of them. Putting a text in
and taking one out touch one path only. A listing has an entry for each text that some step below it
is shown as; where paths are texts, no two steps are shown alike, and it has all of them. -/
namespace NotebookTidy.Storage

instance : Std.TransOrd Component := inferInstanceAs (Std.TransCmp Component.order)

instance : Std.LawfulEqOrd Component := inferInstanceAs (Std.LawfulEqCmp Component.order)

instance : Std.TransOrd OsName := inferInstanceAs (Std.TransCmp (compareOn OsName.bytes))

instance : Std.LawfulEqOrd OsName where
  compare_self := Std.ReflCmp.compare_self
  eq_of_compare {a b} same := by
    have bytes : a.bytes = b.bytes := Std.LawfulEqOrd.eq_of_compare same
    cases a
    cases b
    cases bytes
    rfl

namespace Texts
variable {Step : Type} [DecidableEq Step]

/-! Look-ups after a change -/

theorem lookupRemove (m : Texts Step) (path key : List Step) :
    (m.remove path).files.lookup key = if key = path then none else m.files.lookup key := by
  rw [remove]
  induction m.files with
  | nil => simp
  | cons f rest ih =>
    obtain ⟨k, text⟩ := f
    by_cases gone : k = path
    · subst gone
      rw [List.filter_cons_of_neg (by simp), ih]
      split
      · rfl
      · rename_i other
        rw [List.lookup_cons, beq_eq_false_iff_ne.mpr other]
    · rw [List.filter_cons_of_pos (by simpa using gone), List.lookup_cons, List.lookup_cons, ih]
      by_cases here : key = k
      · subst here
        simp [gone]
      · simp only [beq_eq_false_iff_ne.mpr here]

theorem lookupInsert (m : Texts Step) (path : List Step) (text : String) (key : List Step) :
    (m.insert path text).files.lookup key =
      if key = path then some text else m.files.lookup key := by
  have only : List.lookup key [(path, text)] = if key = path then some text else none := by
    by_cases here : key = path
    · simp [here]
    · simp [List.lookup_cons, beq_eq_false_iff_ne.mpr here, here]
  rw [insert, List.lookup_append, lookupRemove, only]
  split <;> simp

theorem keyHeld {m : Texts Step} {key : List Step} :
    (∃ f ∈ m.files, f.1 = key) ↔ m.get? key ≠ none := by
  constructor
  · rintro ⟨f, mem, rfl⟩ none
    have apart := List.lookup_eq_none_iff.mp none f mem
    simp at apart
  · intro held
    obtain ⟨text, found⟩ := Option.ne_none_iff_exists'.mp held
    obtain ⟨before, after, whole, -⟩ := List.lookup_eq_some_iff.mp found
    exact ⟨(key, text), whole ▸ List.mem_append_right _ List.mem_cons_self, rfl⟩

theorem removeInserted {m : Texts Step} {path : List Step} (free : m.get? path = none)
    (text : String) : (m.insert path text).remove path = m := by
  have all : m.files.filter (·.1 ≠ path) = m.files := by
    refine List.filter_eq_self.mpr fun f mem => decide_eq_true fun same => ?_
    have apart := List.lookup_eq_none_iff.mp free f mem
    simp [same] at apart
  rw [remove, insert, remove, List.filter_append, all, all]
  simp

/-! Listings -/

theorem behindIff {directory path : List Step} {s : Step} :
    behind? directory path = some s ↔ directory ++ [s] <+: path := by
  rw [behind?]
  constructor
  · intro first
    split at first
    · rename_i inside
      obtain ⟨rest, rfl⟩ := List.isPrefixOf_iff_prefix.mp inside
      rw [List.drop_left] at first
      obtain ⟨tail, rfl⟩ := List.head?_eq_some_iff.mp first
      exact ⟨tail, by rw [List.append_assoc, List.singleton_append]⟩
    · cases first
  · rintro ⟨tail, rfl⟩
    have inside : directory.isPrefixOf (directory ++ [s] ++ tail) = true :=
      List.isPrefixOf_iff_prefix.mpr ⟨s :: tail, by rw [List.append_assoc, List.singleton_append]⟩
    rw [if_pos inside, List.append_assoc, List.drop_left]
    rfl

/-- Some text lies at a step of a directory or below it. -/
def Under (held : List Step → Option String) (directory : List Step) (s : Step) : Prop :=
  ∃ path, held path ≠ none ∧ directory ++ [s] <+: path

variable [Ord Step] [Shown Step]

/-- Of the steps of a directory that are shown alike this one is the first. -/
structure Leads (held : List Step → Option String) (directory : List Step) (s : Step) : Prop where
  under : Under held directory s
  first : ∀ other, Under held directory other → Shown.text other = Shown.text s →
    (compare s other).isLE

omit [DecidableEq Step] [Ord Step] in
theorem alikeIff {a b : Step} : alike a b = true ↔ Shown.text a = Shown.text b :=
  decide_eq_true_iff

omit [DecidableEq Step] [Ord Step] in
theorem firstsDistinct (steps : List Step) :
    (firsts steps).Pairwise fun a b => Shown.text a ≠ Shown.text b := by
  induction steps with
  | nil => exact .nil
  | cons a rest ih =>
    refine .cons (fun b mem => ?_) (ih.filter _)
    have apart := (List.mem_filter.mp mem).2
    rw [Bool.not_eq_true', Bool.eq_false_iff, ne_eq, alikeIff] at apart
    exact Ne.symm apart

omit [DecidableEq Step] in
theorem memFirsts [Std.TransOrd Step] [Std.LawfulEqOrd Step] {steps : List Step}
    (sorted : steps.Pairwise fun a b => (compare a b).isLE) {s : Step} :
    s ∈ firsts steps ↔ s ∈ steps ∧ ∀ other ∈ steps,
      Shown.text other = Shown.text s → (compare s other).isLE := by
  induction steps with
  | nil => simp [firsts]
  | cons a rest ih =>
    obtain ⟨least, others⟩ := List.pairwise_cons.mp sorted
    have later : s ∈ (firsts rest).filter (fun t => !alike t a) ↔
        (s ∈ rest ∧ ∀ other ∈ rest, Shown.text other = Shown.text s → (compare s other).isLE) ∧
          Shown.text s ≠ Shown.text a := by
      rw [List.mem_filter, ih others, Bool.not_eq_true', Bool.eq_false_iff, ne_eq, alikeIff]
    rw [firsts, List.mem_cons, later, List.mem_cons, List.forall_mem_cons]
    constructor
    · rintro (rfl | ⟨⟨mem, first⟩, apart⟩)
      · exact ⟨.inl rfl, fun _ => Std.ReflCmp.isLE_rfl, fun other mem _ => least other mem⟩
      · exact ⟨.inr mem, fun same => absurd same.symm apart, first⟩
    · rintro ⟨mem, before, first⟩
      by_cases same : Shown.text a = Shown.text s
      · refine .inl ?_
        rcases mem with rfl | inside
        · rfl
        · exact Std.LawfulEqOrd.eq_of_compare
            (Std.OrientedCmp.isLE_antisymm (before same) (least s inside))
      · have other : s ≠ a := fun here => same (here ▸ rfl)
        exact .inr ⟨⟨mem.resolve_left other, first⟩, Ne.symm same⟩

omit [Ord Step] [Shown Step] in
theorem memSteps {m : Texts Step} {directory : List Step} {s : Step} :
    (s ∈ m.files.filterMap fun f => behind? directory f.1) ↔ Under m.get? directory s := by
  rw [List.mem_filterMap]
  constructor
  · rintro ⟨f, mem, first⟩
    exact ⟨f.1, keyHeld.mp ⟨f, mem, rfl⟩, behindIff.mp first⟩
  · rintro ⟨path, held, inside⟩
    obtain ⟨f, mem, rfl⟩ := keyHeld.mpr held
    exact ⟨f, mem, behindIff.mpr inside⟩

theorem belowOrdered (m : Texts Step) (directory : List Step) :
    ((m.below directory).map Shown.text).Pairwise (· < ·) := by
  obtain ⟨each, listed, distinct⟩ : ∃ each : List Step,
      m.below directory = (each.mergeSort fun a b => Shown.text a ≤ Shown.text b) ∧
        each.Pairwise fun a b => Shown.text a ≠ Shown.text b := ⟨_, rfl, firstsDistinct _⟩
  rw [List.pairwise_map, listed]
  have sorted : (each.mergeSort fun a b => Shown.text a ≤ Shown.text b).Pairwise
      fun a b => Shown.text a ≤ Shown.text b := by
    refine (List.pairwise_mergeSort (fun a b c first next => ?_) (fun a b => ?_) _).imp
      of_decide_eq_true
    · exact decide_eq_true (String.le_trans (of_decide_eq_true first) (of_decide_eq_true next))
    · rw [Bool.or_eq_true]
      exact (String.le_total _ _).imp decide_eq_true decide_eq_true
  exact (sorted.and ((List.mergeSort_perm each _).symm.pairwise distinct Ne.symm)).imp
    fun both => Std.lt_of_le_of_ne both.1 both.2

theorem belowEmpty {m : Texts Step} {directory : List Step} :
    m.below directory = [] ↔ ∀ s, ¬ Under m.get? directory s := by
  have firstsNil (steps : List Step) : firsts steps = [] ↔ steps = [] := by
    cases steps <;> simp [firsts]
  have sortedNil (order : Step → Step → Bool) (steps : List Step) :
      steps.mergeSort order = [] ↔ steps = [] := by
    rw [← List.length_eq_zero_iff, List.length_mergeSort, List.length_eq_zero_iff]
  rw [below, sortedNil, firstsNil, sortedNil, List.eq_nil_iff_forall_not_mem]
  simp only [memSteps]

variable [Std.TransOrd Step] [Std.LawfulEqOrd Step]

omit [DecidableEq Step] [Shown Step] [Std.LawfulEqOrd Step] in
theorem stepsSorted (steps : List Step) :
    (steps.mergeSort fun a b => (compare a b).isLE).Pairwise fun a b => (compare a b).isLE := by
  exact List.pairwise_mergeSort (fun _ _ _ => Std.TransCmp.isLE_trans) (compareTotal compare) _

theorem memBelow {m : Texts Step} {directory : List Step} {s : Step} :
    s ∈ m.below directory ↔ Leads m.get? directory s := by
  rw [below, List.mem_mergeSort, memFirsts (stepsSorted _), List.mem_mergeSort, memSteps]
  simp only [List.mem_mergeSort, memSteps]
  exact ⟨fun both => ⟨both.1, both.2⟩, fun leads => ⟨leads.under, leads.first⟩⟩

end Texts

namespace Memory

theorem heldUnder {m : Memory} {directory : List Component} {c : Component} :
    Texts.Under m.toTexts.get? directory c ↔ ∃ f ∈ m.files, directory ++ [c] <+: f.1 := by
  constructor
  · rintro ⟨path, held, inside⟩
    obtain ⟨f, mem, rfl⟩ := Texts.keyHeld.mpr held
    exact ⟨f, mem, inside⟩
  · rintro ⟨f, mem, inside⟩
    exact ⟨f.1, Texts.keyHeld.mp ⟨f, mem, rfl⟩, inside⟩

theorem innerBehind {p : Path} {directory : List Component} {c : Component}
    (inside : directory ++ [c] <+: p.components) :
    c.Inner ∨ directory = [] ∧ (c = .root ∨ c = .here) := by
  obtain ⟨start, body, whole, from_, inner⟩ := Path.componentsShape p
  rw [whole] at inside
  cases start with
  | none =>
    have last : c ∈ directory ++ [c] := List.mem_append_right _ (List.mem_singleton_self c)
    exact .inl (inner c (inside.subset last))
  | some first =>
    cases directory with
    | nil =>
      have same : c = first := (List.cons_prefix_cons.mp inside).1
      exact .inr ⟨rfl, same ▸ from_ first rfl⟩
    | cons head tail =>
      have later : tail ++ [c] <+: body := (List.cons_prefix_cons.mp inside).2
      exact .inl (inner c (later.subset (List.mem_append_right _ (List.mem_singleton_self c))))

/-- Behind one directory no two components are shown alike. -/
theorem shownApart {p q : Path} {directory : List Component} {a b : Component}
    (left : directory ++ [a] <+: p.components) (right : directory ++ [b] <+: q.components)
    (same : a.text = b.text) : a = b := by
  have apart {a b : Component} (inner : a.Inner) (same : a.text = b.text) :
      b ≠ .root ∧ b ≠ .here := by
    obtain ⟨plain, is⟩ := Path.innerSpelled inner
    rw [same] at plain is
    constructor
    · rintro rfl
      exact plain (by decide)
    · rintro rfl
      have none : Path.bodyComponent Component.here.text.toList = none := by decide
      cases none.symm.trans is
  rcases innerBehind left with inner | ⟨-, first⟩
  · obtain ⟨notRoot, notHere⟩ := apart inner same
    have inner' := (innerBehind right).resolve_right fun ⟨_, start⟩ => start.elim notRoot notHere
    have is := (Path.innerSpelled inner).2
    rw [same, (Path.innerSpelled inner').2] at is
    exact (Option.some.inj is).symm
  · rcases innerBehind right with inner' | ⟨-, first'⟩
    · obtain ⟨notRoot, notHere⟩ := apart inner' same.symm
      exact absurd first (not_or.mpr ⟨notRoot, notHere⟩)
    · rcases first with rfl | rfl <;> rcases first' with rfl | rfl <;>
        first | rfl | exact absurd same (by decide)

theorem memBelow {m : Memory} {d : Path} {c : Component} :
    c ∈ m.below d ↔ ∃ f ∈ m.files, d.components ++ [c] <+: f.1 := by
  rw [below, Texts.memBelow, ← heldUnder]
  refine ⟨Texts.Leads.under, fun under => ⟨under, fun other also same => ?_⟩⟩
  obtain ⟨f, mem, inside⟩ := heldUnder.mp under
  obtain ⟨f', mem', inside'⟩ := heldUnder.mp also
  obtain ⟨p, spelled⟩ := m.keys f mem
  obtain ⟨q, spelled'⟩ := m.keys f' mem'
  rw [shownApart (spelled' ▸ inside') (spelled ▸ inside) same]
  exact Std.ReflCmp.isLE_rfl

def child (d : Path) (c : Component) : Child := .ofPath (d.join ⟨c.text⟩)

theorem lookUpIs (m : Memory) (p : Path) : m.lookUp p =
    match m.get? p with
    | some text => .ok (.at p (.text text))
    | none =>
      match m.below p with
      | [] => if p.text.isEmpty then .ok (.at p (.directory [])) else .error (.notFound p)
      | found => .ok (.at p (.directory (found.map (child p)))) := by
  have root : p.components.isEmpty = p.text.isEmpty := by
    rw [Bool.eq_iff_iff, List.isEmpty_iff, Path.isEmptyIff]
  rw [lookUp, Texts.lookUp, get?, below]
  cases m.toTexts.get? p.components with
  | some text => rfl
  | none =>
    cases m.toTexts.below p.components with
    | nil =>
      dsimp only
      rw [root]
      cases p.text.isEmpty <;> rfl
    | cons c rest =>
      dsimp only [Fetched.of, contentAt]
      rw [List.map_map]
      rfl

theorem listMemory (m : Memory) (d : Path) :
    m.storage.list d = if (m.get? d).isSome then [] else (m.below d).map (child d) := by
  simp only [Storage.list, storage, lookUpIs]
  cases m.get? d with
  | some text => rfl
  | none =>
    cases m.below d with
    | nil =>
      dsimp only
      cases d.text.isEmpty <;> rfl
    | cons c rest => rfl

theorem loadMemory (m : Memory) (p : Path) : (m.storage.load p).toOption = m.get? p := by
  simp only [Storage.load, storage, lookUpIs]
  cases m.get? p with
  | some text => rfl
  | none =>
    cases m.below p with
    | nil =>
      dsimp only
      cases p.text.isEmpty <;> rfl
    | cons c rest => rfl

theorem fileNameJoin (d : Path) {c : Component} (inner : c.Inner) :
    (d.join ⟨c.text⟩).fileName = match c with
      | .name s => some s
      | _ => none := by
  obtain ⟨plain, is⟩ := Path.innerSpelled inner
  have joined := Path.joinPiece d plain is
  rw [String.ofList_toList] at joined
  rw [Path.fileName, joined, List.getLast?_concat]
  cases c <;> rfl

theorem childUnnamed {d : Path} (nothing : d.components = []) {c : Component}
    (first : c = .root ∨ c = .here) : (child d c).name = "" := by
  have spelled : d = ⟨""⟩ := congrArg Path.mk ((Path.emptyIff d).mpr nothing)
  rcases first with rfl | rfl <;> rw [spelled] <;> decide

theorem childInner {d : Path} {c : Component} (inner : c.Inner) :
    (child d c).name = match c with
      | .name s => s
      | _ => "" := by
  rw [child, Child.ofPath, fileNameJoin d inner]
  cases c <;> rfl

theorem childNamed {m : Memory} {d : Path} {c : Component} {name : String}
    (listed : c ∈ m.below d) (named : name ≠ "") (same : (child d c).name = name) :
    c = .name name := by
  -- No other component gives a path with a file name.
  obtain ⟨f, mem, inside⟩ := memBelow.mp listed
  obtain ⟨p, spelled⟩ := m.keys f mem
  rcases innerBehind (spelled ▸ inside) with inner | ⟨nothing, first⟩
  · rw [childInner inner] at same
    cases c with
    | name s => exact congrArg Component.name same
    | _ => exact absurd same.symm named
  · rw [childUnnamed nothing first] at same
    exact absurd same.symm named

theorem findListed (m : Memory) (d : Path) {name : String}
    (plain : '/' ∉ name.toList) (named : name ≠ "" ∧ name ≠ "." ∧ name ≠ "..") :
    (m.storage.list d).find? (fun found => found.name = name) =
      if m.get? d = none ∧ ∃ f ∈ m.files, d.components ++ [.name name] <+: f.1 then
        some ⟨name, d.join ⟨name⟩⟩
      else none := by
  have isChild : child d (.name name) = ⟨name, d.join ⟨name⟩⟩ := by
    rw [child, Child.ofPath, Component.text, Path.joinFileName d plain named]
    rfl
  rw [listMemory]
  cases stored : m.get? d with
  | some text => simp
  | none =>
    simp only [Option.isSome_none, Bool.false_eq_true, if_false, true_and]
    split
    · rename_i present
      have listed := memBelow.mpr present
      cases found : ((m.below d).map (child d)).find? (fun found => found.name = name) with
      | none =>
        have none := List.find?_eq_none.mp found (child d (.name name))
          (List.mem_map_of_mem listed)
        simp [isChild] at none
      | some c =>
        obtain ⟨other, mem, rfl⟩ := List.mem_map.mp (List.mem_of_find?_eq_some found)
        have same : (child d other).name = name := by simpa using List.find?_some found
        rw [childNamed mem named.1 same, isChild]
    · rename_i absent
      refine List.find?_eq_none.mpr fun c mem => ?_
      obtain ⟨other, listed, rfl⟩ := List.mem_map.mp mem
      simp only [decide_eq_true_eq]
      intro same
      exact absent (memBelow.mp (childNamed listed named.1 same ▸ listed))

/-! Memories that agree -/

theorem getInsert (m : Memory) (p : Path) (text : String) (q : Path) :
    (m.insert p text).get? q = if q.components = p.components then some text else m.get? q :=
  Texts.lookupInsert m.toTexts p.components text q.components

theorem getRemove (m : Memory) (p q : Path) :
    (m.remove p).get? q = if q.components = p.components then none else m.get? q :=
  Texts.lookupRemove m.toTexts p.components q.components

/-- The same texts lie at a key and below it. -/
def AgreeBelow (m m' : Memory) (key : List Component) : Prop :=
  ∀ k, key <+: k → m.files.lookup k = m'.files.lookup k

theorem agreeInsert (m : Memory) {f : Path} (text : String) {key : List Component}
    (outside : ¬ key <+: f.components) : m.AgreeBelow (m.insert f text) key := by
  intro k under
  have apart : k ≠ f.components := fun same => outside (same ▸ under)
  exact (if_neg apart ▸ Texts.lookupInsert m.toTexts f.components text k).symm

theorem agreeRemove (m : Memory) {f : Path} {key : List Component}
    (outside : ¬ key <+: f.components) : m.AgreeBelow (m.remove f) key := by
  intro k under
  have apart : k ≠ f.components := fun same => outside (same ▸ under)
  exact (if_neg apart ▸ Texts.lookupRemove m.toTexts f.components k).symm

theorem agreeHeld {m m' : Memory} {key : List Component} (agree : m.AgreeBelow m' key)
    {below : List Component} (inside : key <+: below) :
    (∃ f ∈ m.files, below <+: f.1) ↔ ∃ f ∈ m'.files, below <+: f.1 := by
  have oneWay {m m' : Memory} (agree : m.AgreeBelow m' key) {f : List Component × String}
      (mem : f ∈ m.files) (at_ : below <+: f.1) : ∃ f ∈ m'.files, below <+: f.1 := by
    have held := Texts.keyHeld.mp ⟨f, mem, rfl⟩
    rw [Texts.get?, agree f.1 (inside.trans at_)] at held
    obtain ⟨g, mem', same⟩ := Texts.keyHeld.mpr held
    exact ⟨g, mem', same ▸ at_⟩
  exact ⟨fun ⟨_, mem, at_⟩ => oneWay agree mem at_,
    fun ⟨_, mem, at_⟩ => oneWay (fun k under => (agree k under).symm) mem at_⟩

theorem agreeNothingBelow {m m' : Memory} {p : Path} (agree : m.AgreeBelow m' p.components) :
    m.below p = [] ↔ m'.below p = [] := by
  have held (c : Component) : c ∈ m.below p ↔ c ∈ m'.below p := by
    rw [memBelow, memBelow]
    exact agreeHeld agree (List.prefix_append _ _)
  rw [List.eq_nil_iff_forall_not_mem, List.eq_nil_iff_forall_not_mem]
  exact forall_congr' fun c => not_congr (held c)

end NotebookTidy.Storage.Memory
