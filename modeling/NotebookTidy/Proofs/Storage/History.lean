import NotebookTidy.Proofs.Storage.Listing
import NotebookTidy.Proofs.Text.Bytes

/-! What texts in memory answer after any history of putting in and taking out. A path that holds a
text answers with the last one put there; a directory is wherever a text lies below. Its listing
stands in the order of what its steps are shown as, and has the first of those that are shown alike;
what lies below another one is not come by. Names that are UTF-8 are never shown alike, and whoever
follows their listings from the root comes by every text that lies below no other one. -/
namespace NotebookTidy.Storage

inductive Change (Step : Type) where
  | insert (path : List Step) (text : String)
  | remove (path : List Step)
  deriving DecidableEq, Repr

namespace Change
variable {Step : Type}

def path : Change Step → List Step
  | .insert path _ => path
  | .remove path => path

def text? : Change Step → Option String
  | .insert _ text => some text
  | .remove _ => none

/-- The text that the last change of a path left there, if that did not take it out. -/
def last? [DecidableEq Step] (history : List (Change Step)) (path : List Step) : Option String :=
  (history.reverse.find? (·.path = path)).bind text?

end Change

namespace Texts
variable {Step : Type} [DecidableEq Step]

def changed (m : Texts Step) : Change Step → Texts Step
  | .insert path text => m.insert path text
  | .remove path => m.remove path

def after (history : List (Change Step)) : Texts Step := history.foldl changed .empty

/-- One path lies strictly below another one. -/
def Inside (path outer : List Step) : Prop := ∃ s, outer ++ [s] <+: path

omit [DecidableEq Step] in
theorem insideAmong {path outer : List Step} (inside : Inside path outer) :
    outer ∈ path.inits ∧ outer ≠ path := by
  obtain ⟨s, rest, rfl⟩ := inside
  refine ⟨(List.mem_inits _ _).mpr ⟨s :: rest, by simp⟩, fun same => ?_⟩
  have longer := congrArg List.length same
  simp at longer

variable [Ord Step] [Shown Step]

/-- What is answered at a path if just these texts are held and just these steps are listed. -/
inductive Answers (held : List Step → Option String) (listed : Step → Prop) (path : List Step) :
    Except (List Step) (Fetched Step) → Prop where
  | text {t : String} (stored : held path = some t) :
      Answers held listed path (.ok (.of path (.text t)))
  | directory {children : List (Listed Step)} (free : held path = none)
      (there : path = [] ∨ ∃ q, held q ≠ none ∧ Inside q path)
      (ordered : (children.map Listed.name).Pairwise (· < ·))
      (exact : ∀ c, c ∈ children ↔ ∃ s, listed s ∧ c = ⟨Shown.text s, path ++ [s]⟩) :
      Answers held listed path (.ok (.of path (.directory children)))
  | missing (free : held path = none) (filled : path ≠ [])
      (nothing : ∀ q, held q ≠ none → ¬ Inside q path) : Answers held listed path (.error path)

/-- The paths that are come by from the root, listing by listing. -/
inductive Reached (m : Texts Step) : List Step → Prop where
  | root : Reached m []
  | listed {directory : List Step} {e : Fetched Step} {c : Listed Step}
      (reached : Reached m directory) (fetched : m.lookUp directory = .ok e)
      (mem : c ∈ e.children) : Reached m c.path

/-! Histories -/

omit [Ord Step] [Shown Step] in
theorem afterSnoc (history : List (Change Step)) (c : Change Step) :
    after (history ++ [c]) = (after history).changed c := by
  simp [after]

omit [Ord Step] [Shown Step] in
theorem getAfter (history : List (Change Step)) : (after history).get? = Change.last? history := by
  funext path
  induction history using List.reverseRecOn with
  | nil => rfl
  | append_singleton history c ih =>
    rw [afterSnoc, Change.last?, List.reverse_concat, List.find?_cons]
    cases c with
    | insert q text =>
      rw [changed, get?, lookupInsert]
      by_cases here : path = q
      · simp [Change.path, Change.text?, here]
      · have apart : decide (q = path) = false := decide_eq_false (Ne.symm here)
        rw [if_neg here, Change.path, apart]
        exact ih
    | remove q =>
      rw [changed, get?, lookupRemove]
      by_cases here : path = q
      · simp [Change.path, Change.text?, here]
      · have apart : decide (q = path) = false := decide_eq_false (Ne.symm here)
        rw [if_neg here, Change.path, apart]
        exact ih

omit [Ord Step] [Shown Step] in
theorem lastChanged {history : List (Change Step)} {path : List Step}
    (held : Change.last? history path ≠ none) : ∃ c ∈ history, c.path = path := by
  obtain ⟨text, found⟩ := Option.ne_none_iff_exists'.mp held
  obtain ⟨c, changed, -⟩ := Option.bind_eq_some_iff.mp found
  exact ⟨c, List.mem_reverse.mp (List.mem_of_find?_eq_some changed),
    of_decide_eq_true (List.find?_some changed :)⟩

omit [Ord Step] [Shown Step] in
theorem afterRestored {history : List (Change Step)} {path : List Step}
    (free : Change.last? history path = none) (text : String) :
    after (history ++ [.insert path text, .remove path]) = after history := by
  rw [List.append_cons, afterSnoc, afterSnoc]
  exact removeInserted (getAfter history ▸ free) text

/-! Answers -/

section answers
variable [Std.TransOrd Step] [Std.LawfulEqOrd Step] (m : Texts Step)

theorem lookUpAnswers (path : List Step) :
    Answers m.get? (Leads m.get? path) path (m.lookUp path) := by
  rw [lookUp]
  cases free : m.get? path with
  | some text => exact .text free
  | none =>
    cases below : m.below path with
    | nil =>
      have nothing := belowEmpty.mp below
      dsimp only
      split
      · rename_i empty
        refine .directory free (.inl (List.isEmpty_iff.mp empty)) .nil fun c => ?_
        refine iff_of_false List.not_mem_nil ?_
        rintro ⟨s, leads, -⟩
        exact nothing s leads.under
      · rename_i filled
        refine .missing free (fun empty => filled (List.isEmpty_iff.mpr empty)) ?_
        rintro q held ⟨s, inside⟩
        exact nothing s ⟨q, held, inside⟩
    | cons s rest =>
      have first : s ∈ m.below path := below ▸ List.mem_cons_self
      obtain ⟨q, held, inside⟩ := (memBelow.mp first).under
      dsimp only
      rw [← below]
      refine .directory free (.inr ⟨q, held, s, inside⟩) ?_ fun c => ?_
      · rw [List.map_map]
        exact belowOrdered m path
      · rw [List.mem_map]
        simp only [memBelow, child, eq_comm]

variable {m}

theorem childLeads {path : List Step} {e : Fetched Step} {c : Listed Step}
    (fetched : m.lookUp path = .ok e) (mem : c ∈ e.children) :
    m.get? path = none ∧ ∃ s, Leads m.get? path s ∧ c = ⟨Shown.text s, path ++ [s]⟩ := by
  have answers := lookUpAnswers m path
  rw [fetched] at answers
  cases answers with
  | text stored => cases mem
  | directory free there ordered exact_ => exact ⟨free, (exact_ c).mp mem⟩

theorem underFetched {path : List Step} {s : Step} (under : Under m.get? path s) :
    ∃ e, m.lookUp (path ++ [s]) = .ok e := by
  obtain ⟨q, held, more, rfl⟩ := under
  have answers := lookUpAnswers m (path ++ [s])
  generalize m.lookUp (path ++ [s]) = outcome at answers ⊢
  cases answers with
  | text stored => exact ⟨_, rfl⟩
  | directory free there ordered exact_ => exact ⟨_, rfl⟩
  | missing free filled nothing =>
    cases more with
    | nil => exact absurd free (by simpa using held)
    | cons t rest => exact absurd ⟨t, rest, by simp⟩ (nothing _ held)

theorem leadsListed {path : List Step} {s : Step} (free : m.get? path = none)
    (leads : Leads m.get? path s) : ∃ e, m.lookUp path = .ok e ∧ child path s ∈ e.children := by
  obtain ⟨q, held, inside⟩ := leads.under
  have answers := lookUpAnswers m path
  generalize m.lookUp path = outcome at answers ⊢
  cases answers with
  | text stored => cases free.symm.trans stored
  | directory unheld there ordered exact_ => exact ⟨_, rfl, (exact_ _).mpr ⟨s, leads, rfl⟩⟩
  | missing unheld filled nothing => exact absurd ⟨s, inside⟩ (nothing q held)

theorem reachedLeads {path : List Step} (reached : m.Reached path) {above : List Step} {s : Step}
    (inside : above ++ [s] <+: path) : m.get? above = none ∧ Leads m.get? above s := by
  induction reached with
  | root => simp at inside
  | listed reached fetched mem ih =>
    obtain ⟨free, t, leads, rfl⟩ := childLeads fetched mem
    rcases List.prefix_concat_iff.mp inside with same | further
    · obtain ⟨rfl, last⟩ := List.append_inj' same rfl
      obtain rfl := List.singleton_inj.mp last
      exact ⟨free, leads⟩
    · exact ih further

theorem leadsReached {path : List Step}
    (leads : ∀ above s, above ++ [s] <+: path → m.get? above = none ∧ Leads m.get? above s) :
    m.Reached path := by
  induction path using List.reverseRecOn with
  | nil => exact .root
  | append_singleton above s ih =>
    obtain ⟨free, first⟩ := leads above s (List.prefix_refl _)
    obtain ⟨e, fetched, mem⟩ := leadsListed free first
    have reached := ih fun outer t inside => leads outer t (inside.trans (List.prefix_append _ _))
    exact .listed reached fetched mem

end answers

/-! Names that are texts -/

/-- A name whose bytes are those of a text. -/
def Spelled (name : OsName) : Prop := ∃ text, name.bytes = Text.encodeUtf8 text

theorem spelledShown {name : OsName} (spelled : Spelled name) :
    Text.encodeUtf8 (Shown.text name) = name.bytes := by
  obtain ⟨text, bytes⟩ := spelled
  change Text.encodeUtf8 (Text.shown name.bytes) = name.bytes
  rw [bytes, Text.shownEncoded]

theorem leadsUnder {held : List OsName → Option String}
    (spelled : ∀ path, held path ≠ none → ∀ name ∈ path, Spelled name)
    (directory : List OsName) : Leads held directory = Under held directory := by
  have each {name : OsName} : Under held directory name → Spelled name := fun ⟨q, stored, inside⟩ =>
    spelled q stored name (inside.subset (List.mem_append_right _ List.mem_cons_self))
  funext name
  refine propext ⟨Leads.under, fun under => ⟨under, fun other also same => ?_⟩⟩
  have bytes : other.bytes = name.bytes := by
    rw [← spelledShown (each also), ← spelledShown (each under), same]
  change (compare name.bytes other.bytes).isLE
  rw [bytes]
  exact Std.ReflCmp.isLE_rfl

end Texts

open Texts Change

theorem historyAnswered (history : List (Change OsName)) :
    (∀ path, Answers (last? history) (Leads (last? history) path) path
      ((after history).lookUp path)) ∧
    (∀ path e, (after history).lookUp path = .ok e →
      ∀ c ∈ e.children, ∃ fetched, (after history).lookUp c.path = .ok fetched) ∧
    (∀ path, (after history).Reached path ↔ ∀ above name, above ++ [name] <+: path →
      last? history above = none ∧ Leads (last? history) above name) ∧
    (∀ path text, last? history path = none → ∀ q,
      (after (history ++ [.insert path text, .remove path])).lookUp q =
        (after history).lookUp q) ∧
    ((∀ c ∈ history, ∀ name ∈ c.path, Spelled name) →
      (∀ path, Answers (last? history) (Under (last? history) path) path
        ((after history).lookUp path)) ∧
      (∀ path name, Under (last? history) path name →
        Text.encodeUtf8 (Shown.text name) = name.bytes) ∧
      ∀ path, last? history path ≠ none → ((after history).Reached path ↔
        ∀ above, Inside path above → last? history above = none)) := by
  rw [← getAfter]
  refine ⟨lookUpAnswers _, fun path e fetched c mem => ?_, fun path => ?_,
    fun path text free q => ?_, fun spelled => ?_⟩
  · obtain ⟨-, name, leads, rfl⟩ := childLeads fetched mem
    exact underFetched leads.under
  · exact ⟨fun reached above name inside => reachedLeads reached inside, leadsReached⟩
  · rw [afterRestored (getAfter history ▸ free)]
  · have each : ∀ path, (after history).get? path ≠ none → ∀ name ∈ path, Spelled name := by
      intro path stored
      obtain ⟨c, mem, rfl⟩ := lastChanged (getAfter history ▸ stored)
      exact spelled c mem
    have all := leadsUnder each
    refine ⟨fun path => all path ▸ lookUpAnswers _ path, fun path name under => ?_,
      fun path held => ⟨?_, fun free => ?_⟩⟩
    · obtain ⟨q, stored, inside⟩ := under
      exact spelledShown
        (each q stored name (inside.subset (List.mem_append_right _ List.mem_cons_self)))
    · rintro reached above ⟨name, inside⟩
      exact (reachedLeads reached inside).1
    · refine leadsReached fun above name inside => ⟨free above ⟨name, inside⟩, ?_⟩
      rw [all]
      exact ⟨path, held, inside⟩

def nameA : OsName := ⟨[0x61], by decide⟩

def nameB : OsName := ⟨[0x62], by decide⟩

def nameAB : OsName := ⟨[0x61, 0x62], by decide⟩

def nameBroken : OsName := ⟨[0xFE], by decide⟩

def nameTorn : OsName := ⟨[0xFF], by decide⟩

/-- A text above another one, a name that begins another name, and a text taken out again. -/
def shadowedHistory : List (Change OsName) :=
  [.insert [nameA] "1", .insert [nameA, nameB] "2", .insert [nameAB, nameB, nameA] "3",
    .insert [nameB] "4", .remove [nameB], .insert [nameAB, nameB, nameA] "5"]

theorem historyAnsweredShadowed : (∀ c ∈ shadowedHistory, ∀ name ∈ c.path, Spelled name) ∧
    Answers (last? shadowedHistory) (Under (last? shadowedHistory) [nameAB]) [nameAB]
      ((after shadowedHistory).lookUp [nameAB]) ∧
    (after shadowedHistory).Reached [nameAB, nameB, nameA] ∧
    ¬ (after shadowedHistory).Reached [nameA, nameB] ∧
    (after (shadowedHistory ++ [.insert [nameA, nameA] "6", .remove [nameA, nameA]])).lookUp [] =
      (after shadowedHistory).lookUp [] := by
  have a : Spelled nameA := ⟨"a", rfl⟩
  have b : Spelled nameB := ⟨"b", rfl⟩
  have ab : Spelled nameAB := ⟨"ab", rfl⟩
  have spelled : ∀ c ∈ shadowedHistory, ∀ name ∈ c.path, Spelled name := by
    simp [shadowedHistory, path, a, b, ab]
  obtain ⟨-, -, -, restored, texts⟩ := historyAnswered shadowedHistory
  obtain ⟨answers, -, reached⟩ := texts spelled
  have held : last? shadowedHistory [nameAB, nameB, nameA] = some "5" := by decide
  have shadowed : last? shadowedHistory [nameA, nameB] = some "2" := by decide
  have shadow : last? shadowedHistory [nameA] = some "1" := by decide
  have shorter : ∀ above ∈ [nameAB, nameB, nameA].inits, above ≠ [nameAB, nameB, nameA] →
      last? shadowedHistory above = none := by decide
  refine ⟨spelled, answers _, (reached _ (by simp [held])).mpr fun above inside => ?_,
    fun come => ?_, restored _ _ (by decide) _⟩
  · exact shorter above (insideAmong inside).1 (insideAmong inside).2
  · have free := (reached _ (by simp [shadowed])).mp come [nameA] ⟨nameB, List.prefix_refl _⟩
    cases shadow.symm.trans free

/-- Two names that are no texts, and are shown alike. -/
def alikeHistory : List (Change OsName) :=
  [.insert [nameA, nameBroken] "1", .insert [nameA, nameTorn] "2"]

theorem namesCollide : last? alikeHistory [nameA, nameTorn] = some "2" ∧
    (∀ above, Inside [nameA, nameTorn] above → last? alikeHistory above = none) ∧
    (after alikeHistory).lookUp [nameA] =
      .ok ⟨"a", [nameA], .directory [⟨"\uFFFD", [nameA, nameBroken]⟩]⟩ ∧
    Under (last? alikeHistory) [nameA] nameTorn ∧
    ¬ (after alikeHistory).Reached [nameA, nameTorn] := by
  have steps : (after alikeHistory).files.filterMap (fun f => behind? [nameA] f.1) =
      [nameBroken, nameTorn] := by decide
  have below : (after alikeHistory).below [nameA] = [nameBroken] := by
    have sorted : ([nameBroken, nameTorn].mergeSort fun a b => (compare a b).isLE) =
        [nameBroken, nameTorn] := List.mergeSort_of_pairwise (by decide)
    have firsts : firsts [nameBroken, nameTorn] = [nameBroken] := by decide
    rw [Texts.below, steps, sorted, firsts, List.mergeSort_singleton]
  have first : (after alikeHistory).lookUp [nameA] =
      .ok ⟨"a", [nameA], .directory [⟨"\uFFFD", [nameA, nameBroken]⟩]⟩ := by
    rw [lookUp, show (after alikeHistory).get? [nameA] = none by decide, below]
    decide
  have shorter : ∀ above ∈ [nameA, nameTorn].inits, above ≠ [nameA, nameTorn] →
      last? alikeHistory above = none := by decide
  refine ⟨by decide, fun above inside => ?_, first, ⟨[nameA, nameTorn], by decide, by decide⟩,
    fun come => ?_⟩
  · exact shorter above (insideAmong inside).1 (insideAmong inside).2
  · have leads : Leads _ [nameA] nameTorn := (reachedLeads come (List.prefix_refl _)).2
    have before := leads.first nameBroken ⟨[nameA, nameBroken], by decide, by decide⟩ (by decide)
    exact absurd before (by decide)

end NotebookTidy.Storage
