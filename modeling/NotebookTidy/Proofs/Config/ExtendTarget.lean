import NotebookTidy.Proofs.Config.ExtendChain
import NotebookTidy.Proofs.Path.Spelling

/-! Where an `extend` leads. Its target is joined to a directory and then normalized, and of that
directory only the normal form counts: what is normalized before the join may be normalized after
it, so a chain comes to the same files whichever way the directory of its first file is spelled. -/
namespace NotebookTidy

namespace Path

theorem stepsUndotted (done cs : List Component) :
    (cs.filter (· ≠ .here)).foldl normalStep done = cs.foldl normalStep done := by
  have skips : (fun done c => if decide (c ≠ .here) = true then normalStep done c else done) =
      normalStep := by
    funext done c
    cases c <;> rfl
  rw [List.foldl_filter, skips]

/-- What is joined to a directory goes on from the normal form of that directory. -/
theorem normalJoin (d t : Path) : normalComponents (d.join t).components =
    t.components.foldl normalStep (if t.isAbsolute then [] else normalComponents d.components) := by
  have rooted := absoluteSpelled t
  rw [joinComponents]
  cases absolute : t.isAbsolute with
  | true =>
    rw [if_pos (.inl (rooted.mp absolute))]
    rfl
  | false =>
    have relative : t.components.head? ≠ some .root := mt rooted.mpr (by simp [absolute])
    by_cases nothing : d.components = []
    · rw [if_pos (.inr nothing), nothing]
      rfl
    · rw [if_neg (not_or.mpr ⟨relative, nothing⟩), normalComponents, List.foldl_append,
        stepsUndotted]
      rfl

theorem normalizeJoin (d t : Path) : (d.normalize.join t).normalize = (d.join t).normalize := by
  have same : normalComponents (d.normalize.join t).components =
      normalComponents (d.join t).components := by
    rw [normalJoin, normalJoin, normalizeComponents, canonicalKept (normalCanonical d)]
  exact congrArg ofComponents same

end Path

namespace Config

theorem nextNormalized (directory : Path) (config : Table) :
    (Declaration.ofConfig directory.normalize config).next? =
      (Declaration.ofConfig directory config).next? := by
  have key : (fun target => (directory.normalize.join ⟨target⟩).normalize) =
      fun target => (directory.join ⟨target⟩).normalize :=
    funext fun target => directory.normalizeJoin ⟨target⟩
  exact congrArg (fun f => (extendTarget config).map f) key

theorem followNormalized (s : Storage) (visited : List (List Component)) (directory : Path)
    (config : Table) : followExtends s visited directory.normalize config =
      followExtends s visited directory config := by
  have next := nextNormalized directory config
  cases names : (Declaration.ofConfig directory config).next? with
  | none => rw [followNothing names, followNothing (next.trans names)]
  | some q =>
    by_cases old : q.components ∈ visited
    · rw [followSeen names old, followSeen (next.trans names) old]
    · cases loaded : loadTable s q with
      | error e => rw [followBroken names old loaded, followBroken (next.trans names) old loaded]
      | ok t => rw [followStep names old loaded, followStep (next.trans names) old loaded]

/-- Normal forms come from their paths by taking away what leads nowhere. They hold no `.`, hold
`..` only as a leading run and only off the root, are as absolute as their paths, stay as they are,
and may be joined to in place of their paths: an `extend` comes to the same file, already seen or
not, from a directory and from its normal form. -/
theorem normalFormsRejoin :
    (∀ p : Path,
      Path.Reduces p.components p.normalize.components ∧
      (.here ∉ p.normalize.components ∧ ['.'] ∉ p.normalize.pieces) ∧
      (∃ ups rest, p.normalize.components = List.replicate ups .up ++ rest ∧ .up ∉ rest ∧
        (ups = 0 ∨ p.isAbsolute = false)) ∧
      p.normalize.isAbsolute = p.isAbsolute ∧
      p.normalize.normalize = p.normalize) ∧
    (∀ a b : Path, (a.join b).normalize = (a.normalize.join b).normalize) ∧
    ∀ (s : Storage) (visited : List (List Component)) (directory : Path) (config : Table),
      followExtends s visited directory config =
        followExtends s visited directory.normalize config := by
  refine ⟨fun p => ?_, fun a b => (a.normalizeJoin b).symm, fun s visited directory config => ?_⟩
  · have undotted := Path.settledUndotted (Path.normalSettled p)
    have leading := Path.canonicalLeading (Path.normalCanonical p)
    rw [← Path.normalizeComponents] at undotted leading
    have dotless := Path.settledDotless (Path.normalSettled p)
    exact ⟨p.normalizeReduces, ⟨undotted, dotless⟩, leading, p.normalizeAbsolute, p.normalizeAgain⟩
  · exact (followNormalized s visited directory config).symm

end Config
end NotebookTidy
