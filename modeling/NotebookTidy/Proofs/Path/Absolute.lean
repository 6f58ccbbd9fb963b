import NotebookTidy.Proofs.Path.Spelling

/-! The absolute form of a path. It drops every `.` and keeps every `..`, so that it is normal only
without one of those. -/
namespace NotebookTidy.Path

theorem joinsComponents (d : Path) {cs : List Component} (inner : ∀ c ∈ cs, c.Inner) :
    (cs.foldl (fun d c => d.join ⟨c.text⟩) d).components = d.components ++ cs := by
  induction cs generalizing d with
  | nil => exact (List.append_nil _).symm
  | cons c rest ih =>
    obtain ⟨first, others⟩ := List.forall_mem_cons.mp inner
    obtain ⟨plain, is⟩ := innerSpelled first
    have joined := joinPiece d plain is
    rw [String.ofList_toList] at joined
    rw [List.foldl_cons, ih _ others, joined, List.append_assoc, List.singleton_append]

/-- Components that say where to go, one after the other. -/
def steps (p : Path) : List Component := p.components.filter fun c => c ≠ .here ∧ c ≠ .root

theorem innerKept {body : List Component} (inner : ∀ c ∈ body, c.Inner) :
    body.filter (· ≠ .root) = body ∧ body.filter (fun c => c ≠ .here ∧ c ≠ .root) = body := by
  constructor <;>
  · refine List.filter_eq_self.mpr fun c mem => ?_
    have inside := inner c mem
    cases c with
    | name s => rfl
    | up => rfl
    | root => cases inside
    | here => cases inside

theorem stepsShape (p : Path) : ∃ start : Option Component, (∀ c ∈ start, c = .root ∨ c = .here) ∧
    p.components = start.toList ++ p.steps ∧ ∀ c ∈ p.steps, c.Inner := by
  obtain ⟨start, body, whole, starts, inner⟩ := p.componentsShape
  have same : p.steps = body := by
    rw [steps, whole, List.filter_append, (innerKept inner).2]
    cases start with
    | none => rfl
    | some c => rcases starts c rfl with rfl | rfl <;> rfl
  exact ⟨start, starts, same ▸ whole, same ▸ inner⟩

theorem stepsStripped {p : Path} {cs : List Component} (stripped : p.components = .here :: cs ∨
    p.components = cs ∧ ∀ rest, p.components ≠ .here :: rest) :
    cs.filter (· ≠ .root) = p.steps := by
  obtain ⟨start, starts, whole, inner⟩ := p.stepsShape
  have kept := (innerKept inner).1
  rw [whole] at stripped
  cases start with
  | none =>
    rcases stripped with opened | ⟨rfl, -⟩
    · have first : Component.here ∈ p.steps := by
        rw [show p.steps = .here :: cs from opened]
        exact List.mem_cons_self
      exact (inner _ first).elim
    · exact kept
  | some c =>
    rcases starts c rfl with rfl | rfl
    · rcases stripped with opened | ⟨rfl, -⟩
      · cases opened
      · exact kept
    · rcases stripped with opened | ⟨-, unopened⟩
      · rw [← (List.cons.inj opened).2]
        exact kept
      · exact absurd rfl (unopened p.steps)

theorem joinNothing (d : Path) : (d.join empty).components = d.components := by
  have nothing : empty.components = [] := rfl
  rw [joinComponents, nothing]
  split
  · rename_i either
    exact (either.resolve_left (by simp)).symm
  · exact List.append_nil _

theorem endedComponents {a d : Path} {slash : Prop} [Decidable slash]
    (seen : some (if slash then d.join empty else d) = some a) : a.components = d.components := by
  rw [← Option.some.inj seen, apply_ite Path.components, joinNothing, ite_self]

/-- The directory that a path is read from. -/
def beginning (p current : Path) : Path :=
  if p.isAbsolute then
    if p.text.toList.take 2 = ['/', '/'] && (p.text.toList.drop 2).head? ≠ some '/' then ⟨"//"⟩
    else ⟨"/"⟩
  else current

theorem beginningComponents (p current : Path) : (p.beginning current).components =
    if p.isAbsolute then [.root] else current.components := by
  rw [beginning]
  split
  · split <;> rfl
  · rfl

theorem absoluteComponents {p a current : Path} (seen : p.absolute current = some a) :
    a.components = (if p.isAbsolute then [.root] else current.components) ++ p.steps := by
  rw [absolute] at seen
  split at seen
  · cases seen
  · have reached : ∃ cs : List Component, cs.filter (· ≠ .root) = p.steps ∧ a.components =
        ((cs.filter (· ≠ .root)).foldl (fun d c => d.join ⟨c.text⟩)
          (p.beginning current)).components := by
      split at seen
      · rename_i rest opened
        exact ⟨rest, stepsStripped (.inl opened), endedComponents seen⟩
      · rename_i unopened
        exact ⟨_, stepsStripped (.inr ⟨rfl, unopened⟩), endedComponents seen⟩
    obtain ⟨cs, stripped, through⟩ := reached
    obtain ⟨-, -, -, inner⟩ := p.stepsShape
    rw [through, stripped, joinsComponents _ inner, beginningComponents]

theorem normalizeSettled {p : Path} (absolute : p.isAbsolute = true)
    (settled : .up ∉ p.components) : p.normalize.components = p.components := by
  rw [normalizeComponents]
  rw [absoluteSpelled] at absolute
  obtain ⟨start, body, whole, -, inner⟩ := p.componentsShape
  rw [whole] at absolute settled ⊢
  have named : ∀ c ∈ body, ∃ s, c = .name s := by
    intro c mem
    cases c with
    | name s => exact ⟨s, rfl⟩
    | up => exact absurd (List.mem_append_right _ mem) settled
    | root => exact (inner _ mem).elim
    | here => exact (inner _ mem).elim
  cases start with
  | none =>
    -- Nothing that stands behind a first component is the root.
    exact (inner _ (List.mem_of_mem_head? absolute)).elim
  | some c =>
    cases absolute
    have canonical : Canonical true (.root :: body) := .names 0 inner named
    exact canonicalKept canonical

end NotebookTidy.Path
