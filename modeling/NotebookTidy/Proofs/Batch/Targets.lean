import Mathlib.Data.List.Sort
import NotebookTidy.Proofs.Batch.Runs
import NotebookTidy.Proofs.Path.Order

/-! The targets that a list of arguments gives. They are a set in the order of their paths: all
files that are named or found below a directory that is named, each once, and explicit if it is
named. So neither the order of the arguments counts nor how often each of them is given, and each
argument adds to the others. -/
namespace NotebookTidy.Batch
open Storage (FileTree Children)

/-- What finds files below a directory, which lies at the names in the tree. -/
abbrev Walker := FileTree → List String → Children → List (List String)

/-- The path that is come by from a directory through names below it. -/
def descended (d : Path) (names : List String) : Path := names.foldl (fun d name => d.join ⟨name⟩) d

/-- A path is that of a file which is an argument itself. -/
def NamedBy (tree : FileTree) (current : Path) (args : List Path) (p : Path) : Prop :=
  ∃ arg ∈ args, ∃ q, arg.absolute current = some q ∧ q.same p = true ∧
    ∃ names content, tree.find q = .ok (names, .file content)

/-- A path is found by walking a directory which is an argument. -/
def WalkedBy (walk : Walker) (tree : FileTree) (current : Path) (args : List Path) (p : Path) :
    Prop :=
  ∃ arg ∈ args, ∃ d, arg.absolute current = some d ∧
    ∃ names cs, tree.find d = .ok (names, .directory cs) ∧
      ∃ below ∈ walk tree names cs, (descended d below).same p = true

namespace Target

variable {walk : Walker} {tree : FileTree} {current : Path} {args more : List Path}
variable {ts : List Target}

/-- A target for comparisons, which take two spellings of the same components for one path. -/
def compared (t : Target) : List Component × Bool := (t.path.components, t.explicit)

/-- A path is among targets, as an explicit one if that is asked for. -/
def Holds (ts : List Target) (p : Path) (explicit : Bool) : Prop :=
  ∃ t ∈ ts, t.path.same p = true ∧ (explicit = true → t.explicit = true)

def Increasing (ts : List Target) : Prop := ts.Pairwise fun a b => a.path.order b.path = .lt

/-! Any walker -/

def ofPathBy (walk : Walker) (tree : FileTree) (p : Path) : List Target :=
  match tree.find p with
  | .ok (names, .directory cs) => (walk tree names cs).map fun below => ⟨descended p below, false⟩
  | .ok (_, .file _) => [⟨p, true⟩]
  | .error _ => []

/-- The targets with any walker; what runs has that of the ignore files (`collectWalks`). -/
def collectBy (walk : Walker) (tree : FileTree) (current : Path) (args : List Path) :
    Except EmptyPath (List Target) :=
  match args.mapM (·.absolute current) with
  | some absolute => .ok (merge (ordered (absolute.flatMap (ofPathBy walk tree))))
  | none => .error ⟨⟩

theorem ofPathWalks : ofPath = ofPathBy Ignore.walk := by
  funext tree p
  rfl

theorem collectWalks : collect = collectBy Ignore.walk := by
  funext tree current args
  unfold collect collectBy
  cases args.mapM (·.absolute current) with
  | none => rfl
  | some seen =>
    dsimp only
    rw [ofPathWalks]

theorem collectedBy (collected : collectBy walk tree current args = .ok ts) :
    ∃ seen, args.mapM (·.absolute current) = some seen ∧
      ts = merge (ordered (seen.flatMap (ofPathBy walk tree))) := by
  rw [collectBy] at collected
  split at collected
  · rename_i seen given
    cases collected
    exact ⟨seen, given, rfl⟩
  · cases collected

/-! Merging -/

theorem holdsCons {t : Target} {p : Path} {explicit : Bool} :
    Holds (t :: ts) p explicit ↔
      (t.path.same p = true ∧ (explicit = true → t.explicit = true)) ∨ Holds ts p explicit :=
  List.exists_mem_cons_iff _ _ _

theorem mergeHolds (ts : List Target) (p : Path) (explicit : Bool) :
    Holds (merge ts) p explicit ↔ Holds ts p explicit := by
  induction ts with
  | nil => exact Iff.rfl
  | cons t rest ih =>
    rw [holdsCons, ← ih, merge]
    split
    · rename_i nothing
      rw [nothing, holdsCons]
    · rename_i u others merged
      rw [merged]
      split
      · rename_i same
        have alike : t.path.same p = true ↔ u.path.same p = true := by
          rw [Path.sameIff, Path.sameIff, Path.sameIff.mp same]
        rw [holdsCons, holdsCons, alike, ← or_assoc, ← and_or_left]
        cases explicit <;> simp
      · rw [holdsCons]

theorem mergeIncreasing (sorted : ts.Pairwise fun a b => (a.path.order b.path).isLE = true) :
    Increasing (merge ts) := by
  induction ts with
  | nil => exact .nil
  | cons t rest ih =>
    obtain ⟨least, sorted⟩ := List.pairwise_cons.mp sorted
    have later := ih sorted
    -- Merging gives up no path of the rest and makes no new one, so that the first stays the least.
    have least : ∀ u ∈ merge rest, (t.path.order u.path).isLE = true := by
      intro u mem
      obtain ⟨v, inside, same⟩ := mergePaths u mem
      exact same ▸ least v inside
    rw [merge]
    split
    · exact List.pairwise_singleton _ _
    · rename_i u others merged
      rw [merged] at later least
      obtain ⟨head, tail⟩ := List.pairwise_cons.mp later
      split
      · rename_i same
        refine List.pairwise_cons.mpr ⟨fun v mem => ?_, tail⟩
        have equal := Path.orderSame.mpr (Path.sameIff.mp same)
        exact (Std.TransCmp.congr_left equal).trans (head v mem)
      · rename_i other
        have first : t.path.order u.path = .lt := by
          have unlike : t.path.order u.path ≠ .eq :=
            fun eq => other (Path.sameIff.mpr (Path.orderSame.mp eq))
          have le := least u List.mem_cons_self
          cases is : t.path.order u.path with
          | lt => rfl
          | eq => exact absurd is unlike
          | gt => rw [is] at le; cases le
        refine List.pairwise_cons.mpr ⟨fun v mem => ?_, later⟩
        rcases List.mem_cons.mp mem with rfl | mem
        · exact first
        · exact Std.TransCmp.lt_trans first (head v mem)

theorem orderedIncreases (ts : List Target) :
    (ordered ts).Pairwise fun a b => (a.path.order b.path).isLE = true := by
  rw [ordered]
  apply List.pairwise_mergeSort
  · intro a b c
    exact Std.TransCmp.isLE_trans
  · intro a b
    exact compareTotal Path.order a.path b.path

theorem orderedHolds (ts : List Target) (p : Path) (explicit : Bool) :
    Holds (ordered ts) p explicit ↔ Holds ts p explicit := by
  simp only [Holds, ordered, List.mem_mergeSort]

/-! One argument, and all of them -/

theorem ofPathHolds (walk : Walker) (tree : FileTree) (q p : Path) (explicit : Bool) :
    Holds (ofPathBy walk tree q) p explicit ↔
      (q.same p = true ∧ ∃ names content, tree.find q = .ok (names, .file content)) ∨
      (explicit = false ∧ ∃ names cs, tree.find q = .ok (names, .directory cs) ∧
        ∃ below ∈ walk tree names cs, (descended q below).same p = true) := by
  rw [ofPathBy]
  split
  · rename_i names cs found
    cases explicit <;> simp [Holds, found]
  · rename_i names content found
    simp [Holds, found]
  · rename_i e found
    simp [Holds, found]

theorem memGiven {α β : Type} {f : α → Option β} {as : List α} {bs : List β}
    (given : as.mapM f = some bs) (b : β) : b ∈ bs ↔ ∃ a ∈ as, f a = some b := by
  have each := eachGiven given
  clear given
  induction each with
  | nil => simp
  | cons first rest ih => simp [first, ih, eq_comm]

theorem collectedHolds (collected : collectBy walk tree current args = .ok ts) (p : Path)
    (explicit : Bool) : Holds ts p explicit ↔
      NamedBy tree current args p ∨ (explicit = false ∧ WalkedBy walk tree current args p) := by
  obtain ⟨seen, given, rfl⟩ := collectedBy collected
  have each : Holds (seen.flatMap (ofPathBy walk tree)) p explicit ↔
      ∃ q ∈ seen, Holds (ofPathBy walk tree q) p explicit := by
    simp only [Holds, List.mem_flatMap]
    constructor
    · rintro ⟨t, ⟨q, among, inside⟩, holds⟩
      exact ⟨q, among, t, inside, holds⟩
    · rintro ⟨q, among, t, inside, holds⟩
      exact ⟨t, ⟨q, among, inside⟩, holds⟩
  simp only [mergeHolds, orderedHolds, each, ofPathHolds, memGiven given, NamedBy, WalkedBy]
  constructor
  · rintro ⟨q, ⟨arg, mem, is⟩, ⟨same, file⟩ | ⟨walked, below⟩⟩
    · exact .inl ⟨arg, mem, q, is, same, file⟩
    · exact .inr ⟨walked, arg, mem, q, is, below⟩
  · rintro (⟨arg, mem, q, is, same, file⟩ | ⟨walked, arg, mem, q, is, below⟩)
    · exact ⟨q, ⟨arg, mem, is⟩, .inl ⟨same, file⟩⟩
    · exact ⟨q, ⟨arg, mem, is⟩, .inr ⟨walked, below⟩⟩

theorem collectedIncreasing (collected : collectBy walk tree current args = .ok ts) :
    Increasing ts := by
  obtain ⟨seen, -, rfl⟩ := collectedBy collected
  exact mergeIncreasing (orderedIncreases _)

theorem collectsAny (walk : Walker) (tree : FileTree) (current : Path) (args : List Path) :
    (∃ ts, collectBy walk tree current args = .ok ts) ↔
      ∀ arg ∈ args, ∃ q, arg.absolute current = some q := by
  have all : (∃ seen, args.mapM (·.absolute current) = some seen) ↔
      ∀ arg ∈ args, ∃ q, arg.absolute current = some q := by
    induction args with
    | nil => simp
    | cons arg rest ih =>
      rw [List.forall_mem_cons, ← ih, List.mapM_cons]
      cases arg.absolute current <;> cases rest.mapM (·.absolute current) <;> simp
  rw [← all, collectBy]
  cases args.mapM (·.absolute current) <;> simp

/-! Targets in order are determined by what they hold -/

/-- Compared targets, one of which has the earlier path. -/
def Precedes (x y : List Component × Bool) : Prop := List.compareLex Component.order x.1 y.1 = .lt

instance : Std.Irrefl Precedes where
  irrefl x before := by
    have same : List.compareLex Component.order x.1 x.1 = .eq := Std.ReflCmp.compare_self
    cases same.symm.trans before

instance : Std.Antisymm Precedes where
  antisymm x y before after := by
    have swapped : List.compareLex Component.order x.1 y.1 = .gt := Std.OrientedCmp.gt_of_lt after
    cases swapped.symm.trans before

theorem comparedPrecede (increasing : Increasing ts) :
    (ts.map compared).Pairwise Precedes := by
  rw [Increasing, Path.orderComponents] at increasing
  exact List.pairwise_map.mpr increasing

theorem holdsSelf {t : Target} (mem : t ∈ ts) : Holds ts t.path t.explicit :=
  ⟨t, mem, Path.sameIff.mpr rfl, id⟩

theorem holdsAlike {p q : Path} (same : p.same q = true) (explicit : Bool) :
    Holds ts p explicit ↔ Holds ts q explicit := by
  simp only [Holds, Path.sameIff, Path.sameIff.mp same]

theorem increasingOnce (increasing : Increasing ts) {t u : Target} (mem : t ∈ ts) (mem' : u ∈ ts)
    (same : t.path.same u.path = true) : t = u := by
  have distinct : (ts.map (·.path.components)).Nodup := by
    refine List.pairwise_map.mpr (increasing.imp fun {a b} before alike => ?_)
    cases (Path.orderSame.mpr alike).symm.trans before
  exact List.inj_on_of_nodup_map distinct mem mem' (Path.sameIff.mp same)

theorem holdsExplicit (increasing : Increasing ts) {t : Target} (mem : t ∈ ts) :
    Holds ts t.path true ↔ t.explicit = true := by
  constructor
  · rintro ⟨u, mem', same, explicit⟩
    rw [← increasingOnce increasing mem' mem same]
    exact explicit rfl
  · exact fun explicit => ⟨t, mem, Path.sameIff.mpr rfl, fun _ => explicit⟩

theorem comparedWithin {as bs : List Target} (first : Increasing as) (second : Increasing bs)
    (alike : ∀ p explicit, Holds as p explicit ↔ Holds bs p explicit) :
    ∀ a ∈ as, a.compared ∈ bs.map compared := by
  intro a mem
  obtain ⟨b, mem', same, -⟩ := (alike a.path a.explicit).mp (holdsSelf mem)
  have explicit : b.explicit = true ↔ a.explicit = true := by
    rw [← holdsExplicit first mem, ← holdsExplicit second mem', alike, holdsAlike same]
  exact List.mem_map.mpr ⟨b, mem', Prod.ext (Path.sameIff.mp same) (Bool.eq_iff_iff.mpr explicit)⟩

theorem comparedSame {as bs : List Target} (first : Increasing as) (second : Increasing bs)
    (alike : ∀ p explicit, Holds as p explicit ↔ Holds bs p explicit) :
    as.map compared = bs.map compared := by
  refine (comparedPrecede first).eq_of_mem_iff (comparedPrecede second) fun x => ⟨?_, ?_⟩
  · exact List.forall_mem_map.mpr (comparedWithin first second alike) x
  · exact List.forall_mem_map.mpr
      (comparedWithin second first fun p explicit => (alike p explicit).symm) x

/-! The union of the arguments -/

/-- What a list of arguments collects. -/
structure Collects (walk : Walker) (tree : FileTree) (current : Path) (args : List Path)
    (ts : List Target) : Prop where
  increasing : Increasing ts
  targets : ∀ p, (∃ t ∈ ts, t.path.same p = true) ↔
    NamedBy tree current args p ∨ WalkedBy walk tree current args p
  explicit : ∀ t ∈ ts, t.explicit = true ↔ NamedBy tree current args t.path

theorem collectedCollects (collected : collectBy walk tree current args = .ok ts) :
    Collects walk tree current args ts where
  increasing := collectedIncreasing collected
  targets p := by simpa [Holds] using collectedHolds collected p false
  explicit t mem := by
    rw [← holdsExplicit (collectedIncreasing collected) mem, collectedHolds collected]
    simp

theorem namedMono (within : args ⊆ more) {p : Path} (named : NamedBy tree current args p) :
    NamedBy tree current more p :=
  let ⟨arg, mem, rest⟩ := named
  ⟨arg, within mem, rest⟩

theorem walkedMono (within : args ⊆ more) {p : Path} (walked : WalkedBy walk tree current args p) :
    WalkedBy walk tree current more p :=
  let ⟨arg, mem, rest⟩ := walked
  ⟨arg, within mem, rest⟩

theorem collectedMono (within : args ⊆ more) (collected : collectBy walk tree current args = .ok ts)
    {us : List Target} (collected' : collectBy walk tree current more = .ok us) {p : Path}
    {explicit : Bool} (held : Holds ts p explicit) : Holds us p explicit := by
  rw [collectedHolds collected] at held
  rw [collectedHolds collected']
  exact held.imp (namedMono within) fun ⟨found, walked⟩ => ⟨found, walkedMono within walked⟩

/-- What arguments collect is the union of what they name and of what is found below them, whatever
the walker that finds it. It is the same for arguments in any order and number, and more arguments
only add to it. -/
theorem argumentsUnited (collected : collectBy walk tree current args = .ok ts) :
    Collects walk tree current args ts ∧
    (∀ others : List Path, (∀ arg, arg ∈ others ↔ arg ∈ args) →
      ∃ us, collectBy walk tree current others = .ok us ∧ us.map compared = ts.map compared) ∧
    ∀ more us, args ⊆ more → collectBy walk tree current more = .ok us →
      ∀ t ∈ ts, ∃ u ∈ us, u.path.same t.path = true ∧ (t.explicit = true → u.explicit = true) := by
  refine ⟨collectedCollects collected, fun others alike => ?_,
    fun more us within collected' t mem =>
      collectedMono within collected collected' (holdsSelf mem)⟩
  have absolute := (collectsAny walk tree current args).mp ⟨ts, collected⟩
  obtain ⟨us, collected'⟩ := (collectsAny walk tree current others).mpr fun arg mem =>
    absolute arg ((alike arg).mp mem)
  refine ⟨us, collected', comparedSame (collectedIncreasing collected')
    (collectedIncreasing collected) fun p explicit => ⟨?_, ?_⟩⟩
  · exact collectedMono (fun arg => (alike arg).mp) collected' collected
  · exact collectedMono (fun arg => (alike arg).mpr) collected collected'

def overlapTree : FileTree :=
  .directory (.cons .aPy (.file (.text "")) (.cons .d (.directory
    (.cons .bPy (.file (.text ""))
      (.cons ⟨"c.py", by decide⟩ (.file (.text "")) .nil))) .nil))

/-- A file is named, and so are a directory and one of the two files in it, which has another
spelling than the walk finds it under. -/
def overlapArgs : List Path := [⟨"/a.py"⟩, ⟨"./d"⟩, ⟨"d//c.py"⟩]

theorem overlapCollected : collect overlapTree ⟨"/"⟩ overlapArgs =
    .ok [⟨⟨"/a.py"⟩, true⟩, ⟨⟨"/d/b.py"⟩, false⟩, ⟨⟨"/d/c.py"⟩, true⟩] := by
  have given : overlapArgs.mapM (·.absolute ⟨"/"⟩) =
      some [⟨"/a.py"⟩, ⟨"/d"⟩, ⟨"/d/c.py"⟩] := by
    decide
  have found : [(⟨"/a.py"⟩ : Path), ⟨"/d"⟩, ⟨"/d/c.py"⟩].flatMap (ofPath overlapTree) =
      [⟨⟨"/a.py"⟩, true⟩, ⟨⟨"/d/b.py"⟩, false⟩, ⟨⟨"/d/c.py"⟩, false⟩, ⟨⟨"/d/c.py"⟩, true⟩] := by
    decide +kernel
  exact collectMerged given found (by decide)

theorem argumentsUnitedOverlap : ∃ ts, collect overlapTree ⟨"/"⟩ overlapArgs = .ok ts ∧
    Collects Ignore.walk overlapTree ⟨"/"⟩ overlapArgs ts ∧
    ∃ us, collect overlapTree ⟨"/"⟩ (overlapArgs.reverse ++ overlapArgs) = .ok us ∧
      us.map compared = ts.map compared := by
  have collected := overlapCollected
  rw [collectWalks] at collected ⊢
  obtain ⟨collects, same, -⟩ := argumentsUnited collected
  exact ⟨_, collected, collects, same _ fun _ => by rw [List.mem_append, List.mem_reverse, or_self]⟩

end Target
end NotebookTidy.Batch
