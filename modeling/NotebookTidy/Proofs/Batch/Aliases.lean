import NotebookTidy.Proofs.Batch.Targets
import NotebookTidy.Proofs.Path.Absolute

/-! Targets that are one file under two paths. Paths are told apart by their components, and `..` is
one of them. So a file is a target twice only through an argument with `..`. -/
namespace NotebookTidy.Ignore
open Storage (FileTree Children FileName Nameable)

mutual
theorem belowNamed (levels : List Level) (names : List String) : (tree : FileTree) →
    ∀ found ∈ filesBelow levels names tree,
      ∃ more, found = names ++ more ∧ ∀ name ∈ more, Nameable name
  | .file content, found, mem => by
    rw [filesBelow] at mem
    split at mem
    · cases mem
    · exact ⟨[], by rw [List.mem_singleton.mp mem, List.append_nil], by simp⟩
  | .directory cs, found, mem => by
    rw [filesBelow] at mem
    split at mem
    · cases mem
    · exact amongNamed _ names cs found mem
theorem amongNamed (levels : List Level) (names : List String) : (cs : Children) →
    ∀ found ∈ filesAmong levels names cs,
      ∃ more, found = names ++ more ∧ ∀ name ∈ more, Nameable name
  | .nil, _, mem => by
    rw [filesAmong] at mem
    cases mem
  | .cons entry tree rest, found, mem => by
    rw [filesAmong] at mem
    rcases List.mem_append.mp mem with mem | mem
    · obtain ⟨more, rfl, all⟩ := belowNamed levels (names ++ [entry.text]) tree found mem
      exact ⟨entry.text :: more, List.append_assoc .., List.forall_mem_cons.mpr
        ⟨entry.nameable, all⟩⟩
    · exact amongNamed levels names rest found mem
end

theorem walkNamed (tree : FileTree) (names : List String) (cs : Children) :
    ∀ below ∈ walk tree names cs, ∀ name ∈ below, Nameable name := by
  intro below mem
  obtain ⟨full, among, rfl⟩ := List.mem_map.mp mem
  obtain ⟨more, rfl, all⟩ := amongNamed _ names cs full among
  rwa [List.drop_left]

end NotebookTidy.Ignore

namespace NotebookTidy.Batch
open Storage (FileTree Nameable)

theorem descendedComponents (d : Path) {names : List String}
    (all : ∀ name ∈ names, Nameable name) :
    (descended d names).components = d.components ++ names.map .name := by
  induction names generalizing d with
  | nil => exact (List.append_nil _).symm
  | cons name rest ih =>
    obtain ⟨first, others⟩ := List.forall_mem_cons.mp all
    rw [descended, List.foldl_cons, ← descended, ih _ others,
      Path.joinName d first.plain first.proper, List.map_cons, List.append_assoc,
      List.singleton_append]

section collected

variable {tree : FileTree} {current : Path} {args : List Path} {ts : List Target}

/-- Every target is at an argument or below one. -/
theorem targetBelow (collected : Target.collect tree current args = .ok ts) {t : Target}
    (mem : t ∈ ts) :
    ∃ arg ∈ args, ∃ q, arg.absolute current = some q ∧
      ∃ names : List String, t.path.components = q.components ++ names.map .name := by
  rw [Target.collectWalks] at collected
  rcases ((Target.collectedCollects collected).targets t.path).mp
    ⟨t, mem, Path.sameIff.mpr rfl⟩ with ⟨arg, given, q, is, same, -⟩ | walked
  · exact ⟨arg, given, q, is, [], by rw [← Path.sameIff.mp same, List.map_nil, List.append_nil]⟩
  · obtain ⟨arg, given, d, is, names, cs, found, below, among, same⟩ := walked
    have all := Ignore.walkNamed tree names cs below among
    exact ⟨arg, given, d, is, below, by rw [← Path.sameIff.mp same, descendedComponents d all]⟩

theorem absoluteUp {p q : Path} (settled : .up ∉ current.components)
    (is : p.absolute current = some q) (up : .up ∈ q.components) : .up ∈ p.components := by
  rw [Path.absoluteComponents is] at up
  rcases List.mem_append.mp up with start | step
  · split at start
    · simp at start
    · exact absurd start settled
  · exact List.mem_of_mem_filter step

theorem targetUp (settled : .up ∉ current.components)
    (collected : Target.collect tree current args = .ok ts) {t : Target} (mem : t ∈ ts)
    (up : .up ∈ t.path.components) : ∃ arg ∈ args, .up ∈ arg.components ∧
      ∃ q, arg.absolute current = some q ∧ q.components <+: t.path.components := by
  obtain ⟨arg, given, q, is, names, whole⟩ := targetBelow collected mem
  rw [whole] at up
  rcases List.mem_append.mp up with above | below
  · exact ⟨arg, given, absoluteUp settled is above, q, is, whole ▸ List.prefix_append _ _⟩
  · obtain ⟨name, -, other⟩ := List.mem_map.mp below
    cases other

theorem targetsApart (rooted : current.isAbsolute = true)
    (collected : Target.collect tree current args = .ok ts) :
    ts.Pairwise fun a b => a.path.normalize.same b.path.normalize = true →
      .up ∈ a.path.components ∨ .up ∈ b.path.components := by
  have absolute := collectAbsolute rooted collected
  rw [Target.collectWalks] at collected
  refine (Target.collectedIncreasing collected).imp_of_mem fun {a b} memA memB before same => ?_
  by_contra neither
  obtain ⟨settledA, settledB⟩ := not_or.mp neither
  have equal := Path.sameIff.mp same
  rw [Path.normalizeSettled (absolute a memA) settledA,
    Path.normalizeSettled (absolute b memB) settledB] at equal
  cases (Path.orderSame.mpr equal).symm.trans before

/-- No two targets are one file, unless one of them has a `..` in its path, which is then that of an
argument: the target is at this argument or below it. So arguments without `..` give every file at
most once, whatever else is in their spelling. -/
theorem filesOnce (rooted : current.isAbsolute = true)
    (settled : .up ∉ current.components)
    (collected : Target.collect tree current args = .ok ts) :
    (ts.Pairwise fun a b => a.path.normalize.same b.path.normalize = true →
      .up ∈ a.path.components ∨ .up ∈ b.path.components) ∧
    (∀ t ∈ ts, .up ∈ t.path.components → ∃ arg ∈ args, .up ∈ arg.components ∧
      ∃ q, arg.absolute current = some q ∧ q.components <+: t.path.components) ∧
    ((∀ arg ∈ args, .up ∉ arg.components) →
      ts.Pairwise fun a b => a.path.normalize.same b.path.normalize = false) := by
  have apart := targetsApart rooted collected
  have ups {t : Target} := targetUp (t := t) settled collected
  refine ⟨apart, fun t => ups, fun plain => ?_⟩
  have none : ∀ t ∈ ts, .up ∉ t.path.components := by
    intro t mem up
    obtain ⟨arg, given, is, -⟩ := ups mem up
    exact plain arg given is
  refine apart.imp_of_mem fun {a b} memA memB alike => Bool.eq_false_iff.mpr fun same => ?_
  exact (alike same).elim (none a memA) (none b memB)

end collected

theorem filesOnceOverlap : ∃ ts,
    Target.collect Target.overlapTree ⟨"/"⟩ Target.overlapArgs = .ok ts ∧
    ts.Pairwise fun a b => a.path.normalize.same b.path.normalize = false := by
  obtain ⟨-, -, once⟩ := filesOnce rfl (by decide) Target.overlapCollected
  exact ⟨_, Target.overlapCollected, once (by decide)⟩

def aliasTree : FileTree :=
  .directory (.cons .a
    (.directory (.cons ⟨"y.py", by decide⟩ (.file (.text "")) .nil))
    (.cons ⟨"x.py", by decide⟩ (.file (.text "")) .nil))

/-- A file that is two targets under two spellings, which normalize to one path. -/
theorem fileTwice :
    Target.collect aliasTree ⟨"/"⟩ [⟨"a/../x.py"⟩, ⟨"x.py"⟩] =
      .ok [⟨⟨"/a/../x.py"⟩, true⟩, ⟨⟨"/x.py"⟩, true⟩] ∧
    (Path.normalize ⟨"/a/../x.py"⟩).same (Path.normalize ⟨"/x.py"⟩) = true ∧
    aliasTree.names? ⟨"/a/../x.py"⟩ = some ["x.py"] ∧
    aliasTree.names? ⟨"/x.py"⟩ = some ["x.py"] := by
  refine ⟨?_, by decide, by decide, by decide⟩
  exact collectOrdered rfl (by decide) (by decide) (by decide)

end NotebookTidy.Batch
