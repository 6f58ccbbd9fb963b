import NotebookTidy.Editor.Session

/-! Open documents told by their look-ups, and bodies by the sources at their targets. Putting new
sources in place changes those sources and nothing else: what is no code, the kinds of cells and how
many there are, and every other document stay as they are. -/
namespace NotebookTidy.Editor
open Notebook (Cell CellKind)

namespace Body

/-- What formatting leaves of a body: its cells with their kinds, and what is no code. -/
def shape : Body → Option (List (CellKind × Option String))
  | .notebook cells => some (cells.map fun c => (c.kind, if c.isCode then none else some c.source))
  | .text _ => none

@[simp] theorem replacedKind (expected source : String) (c : Cell) :
    (replaceSource expected source c).kind = c.kind := by
  unfold replaceSource
  split <;> rfl

@[simp] theorem replacedCode (expected source : String) (c : Cell) :
    (replaceSource expected source c).isCode = c.isCode := by
  simp [Cell.isCode]

@[simp] theorem replacedSource (expected source : String) (c : Cell) :
    (replaceSource expected source c).source =
      if c.source = expected then source else c.source := by
  unfold replaceSource
  split <;> rfl

theorem sourceReplaced (b : Body) (target t : Target) (before after : String) :
    (b.replace target before after).source? t =
      if t = target ∧ b.source? target = some before then some after else b.source? t := by
  cases b with
  | text x =>
    cases target with
    | cell i => simp [replace, source?]
    | whole =>
      cases t with
      | cell i => simp [source?, replace]
      | whole =>
        simp only [replace, source?, true_and, Option.some.injEq]
        split <;> rfl
  | notebook cells =>
    cases target with
    | whole => simp [replace, source?]
    | cell i =>
      cases t with
      | whole => simp [replace, source?]
      | cell j =>
        by_cases here : i = j
        · subst here
          simp only [replace, source?, List.getElem?_modify_eq, true_and]
          cases cells[i]? with
          | none => simp
          | some c =>
            cases code : c.isCode with
            | false => simp [Option.filter, code]
            | true =>
              simp only [Option.map_eq_map, Option.map_some, Option.filter_some, replacedCode, code,
                if_true, replacedSource, Option.some.injEq]
              split <;> rfl
        · have apart : ¬ Target.cell j = .cell i := fun same => here (Target.cell.inj same).symm
          simp [replace, source?, here, apart]

theorem shapeReplaced {b : Body} {target : Target} {source : String}
    (code : b.source? target = some source) (before after : String) :
    (b.replace target before after).shape = b.shape := by
  cases b with
  | text x => cases target <;> rfl
  | notebook cells =>
    cases target with
    | whole => rfl
    | cell i =>
      obtain ⟨c, found, -⟩ := Option.map_eq_some_iff.mp code
      obtain ⟨present, isCode⟩ := Option.filter_eq_some_iff.mp found
      simp only [replace, shape, Option.some.injEq]
      -- Only the cell at the target changes, and of a code cell the shape has the kind alone.
      refine List.ext_getElem? fun j => ?_
      simp only [List.getElem?_map]
      by_cases here : i = j
      · subst here
        simp [List.getElem?_modify_eq, present, isCode]
      · rw [List.getElem?_modify_ne _ _ here]

/-- A body on the way to having the sources at some targets formatted. -/
structure Formatted (f : String → String) (done : Target → Prop) (b after : Body) : Prop where
  shape : after.shape = b.shape
  here : ∀ t, done t → after.source? t = (b.source? t).map f
  elsewhere : ∀ t, ¬ done t → after.source? t = b.source? t

theorem formattedNothing (f : String → String) (b : Body) : Formatted f (fun _ => False) b b :=
  ⟨rfl, fun _ no => no.elim, fun _ _ => rfl⟩

theorem formattedWhere {f : String → String} {done : Target → Prop} {aims : Target → Bool}
    {b after : Body} (so : Formatted f done b after)
    (exact : ∀ t source, b.source? t = some source → (done t ↔ aims t = true)) (t : Target) :
    after.source? t = if aims t then (b.source? t).map f else b.source? t := by
  cases code : b.source? t with
  | none =>
    by_cases now : done t
    · rw [so.here t now, code]
      simp
    · rw [so.elsewhere t now, code]
      simp
  | some source =>
    split
    · rename_i aimed
      rw [so.here t ((exact t source code).mpr aimed), code]
    · rename_i away
      rw [so.elsewhere t (mt (exact t source code).mp away), code]

theorem formattedStep {f : String → String} {done : Target → Prop} {b after : Body}
    {target : Target} {source : String} (so : Formatted f done b after)
    (found : b.source? target = some source) :
    Formatted f (fun t => t = target ∨ done t) b (after.replace target source (f source)) := by
  have code : ∃ x, after.source? target = some x := by
    by_cases old : done target
    · exact ⟨_, by rw [so.here target old, found]; rfl⟩
    · exact ⟨_, by rw [so.elsewhere target old, found]⟩
  obtain ⟨x, present⟩ := code
  constructor
  · rw [shapeReplaced present, so.shape]
  · intro t now
    rw [sourceReplaced]
    by_cases same : t = target
    · subst same
      by_cases old : done t
      · rw [so.here t old, found]
        split <;> rfl
      · rw [so.elsewhere t old, found]
        simp
    · rw [if_neg fun both => same both.1, so.here t (now.resolve_left same)]
  · intro t other
    obtain ⟨apart, new⟩ := not_or.mp other
    rw [sourceReplaced, if_neg fun both => apart both.1, so.elsewhere t new]

theorem formattedAll {f : String → String} {b : Body} {sources : List (Target × String)}
    (found : ∀ x ∈ sources, b.source? x.1 = some x.2) {done : Target → Prop} {start : Body}
    (so : Formatted f done b start) :
    Formatted f (fun t => t ∈ sources.map Prod.fst ∨ done t) b
      (sources.foldl (fun now x => now.replace x.1 x.2 (f x.2)) start) := by
  induction sources generalizing done start with
  | nil => simpa using so
  | cons x rest ih =>
    obtain ⟨first, others⟩ := List.forall_mem_cons.mp found
    have after := ih others (formattedStep so first)
    simp only [List.map_cons, List.mem_cons, List.foldl_cons]
    simpa only [or_assoc, or_left_comm] using after

end Body

namespace Documents

theorem getModify (ds : Documents) (p q : Path) (f : Body → Body) :
    (ds.modify p f).get? q =
      if q.same p then (ds.get? q).map fun d => { d with body := f d.body } else ds.get? q := by
  unfold modify get?
  induction ds.all with
  | nil => simp
  | cons d rest ih =>
    simp only [List.map_cons, List.find?_cons]
    cases here : d.path.same q with
    | true =>
      -- The one found is at `p` exactly if `q` is.
      have alike : d.path.same p = q.same p := by
        unfold Path.same at here ⊢
        rw [of_decide_eq_true here]
      simp only [alike]
      cases q.same p <;> simp [here]
    | false =>
      cases d.path.same p <;> simpa [here] using ih

theorem pathsModify (ds : Documents) (p : Path) (f : Body → Body) :
    (ds.modify p f).all.map Document.path = ds.all.map Document.path := by
  unfold modify
  rw [List.map_map]
  refine List.map_congr_left fun d _ => ?_
  simp only [Function.comp_apply]
  split <;> rfl

theorem modifyNothing (ds : Documents) (p : Path) : ds.modify p (fun b => b) = ds := by
  unfold modify
  simp

theorem modifyModify (ds : Documents) (p : Path) (f g : Body → Body) :
    (ds.modify p f).modify p g = ds.modify p fun b => g (f b) := by
  unfold modify
  simp only [List.map_map, Documents.mk.injEq]
  refine List.map_congr_left fun d _ => ?_
  simp only [Function.comp_apply]
  cases here : d.path.same p <;> simp [here]

end Documents

namespace Session

theorem sourceAsked {b : Body} {targets : List Target} {x : Target × String} :
    x ∈ sourcesAt b targets ↔ x.1 ∈ targets ∧ b.source? x.1 = some x.2 := by
  unfold sourcesAt
  simp only [List.mem_filterMap, Option.map_eq_some_iff]
  constructor
  · rintro ⟨t, mem, source, found, rfl⟩
    exact ⟨mem, found⟩
  · rintro ⟨mem, found⟩
    exact ⟨x.1, mem, x.2, found, rfl⟩

theorem targetAsked {b : Body} {targets : List Target} {t : Target} {source : String}
    (code : b.source? t = some source) :
    t ∈ (sourcesAt b targets).map Prod.fst ↔ t ∈ targets := by
  constructor
  · intro mem
    obtain ⟨x, asked, rfl⟩ := List.mem_map.mp mem
    exact (sourceAsked.mp asked).1
  · exact fun mem => List.mem_map.mpr ⟨(t, source), sourceAsked.mpr ⟨mem, code⟩, rfl⟩

theorem appliedAll (p : Path) (rs : List Replacement) (s : Session) :
    rs.foldl (apply p) s = { s with
      documents := s.documents.modify p fun b =>
        rs.foldl (fun now r => now.replace r.target r.before r.after) b } := by
  induction rs generalizing s with
  | nil => simp [Documents.modifyNothing]
  | cons r rest ih =>
    rw [List.foldl_cons, ih]
    unfold apply
    simp only [Documents.modifyModify, List.foldl_cons]

end Session
end NotebookTidy.Editor
