import Mathlib.Data.List.Induction
import NotebookTidy.Proofs.Config.MoreOverrides
import NotebookTidy.Proofs.Config.Override

/-! Layers may be merged group by group. Of three tables the middle one must not hold a single value
where the outer two hold tables; layers of one shape never do, so overrides that are given item by
item come to the same as those of the first items with those of the other items laid over them. -/
namespace NotebookTidy.Config

theorem consistentRight {above below : List Table} (h : Consistent (above ++ below)) :
    Consistent below := fun a left b right =>
  h a (List.mem_append_right _ left) b (List.mem_append_right _ right)

theorem consistentReceives {layers : List Table} (consistent : Consistent layers) {a b : Table}
    (left : a ∈ layers) (right : b ∈ layers) : a.Receives b := by
  intro path x y stands kind below
  rw [← consistent b right a left path x y stands below, kind]

theorem emptyReceives (t : Table) : Table.Receives .empty t := by
  intro path x y _ _ below
  cases path with
  | nil => cases below; rfl
  | cons key rest => cases below

theorem foldReceives {base laid : Table} {layers : List Table} (low : base.Receives laid)
    (each : ∀ t ∈ layers, t.Receives laid) : (layers.foldl merge base).Receives laid := by
  induction layers generalizing base with
  | nil => exact low
  | cons t rest ih =>
    obtain ⟨first, others⟩ := List.forall_mem_cons.mp each
    exact ih (receivesMerge low first) others

theorem foldTables (base : OrderedTable) (layers : List OrderedTable) :
    (layers.map OrderedTable.table).foldl merge base = layers.foldl OrderedTable.merge base := by
  induction layers generalizing base with
  | nil => rfl
  | cons t rest ih => exact ih (base.merge t)

theorem foldRegroup (base : OrderedTable) {layers : List Table} (consistent : Consistent layers) :
    layers.foldl merge base = merge base (layers.foldl merge .empty) := by
  -- From the last layer on: all those below it are already merged, and receive it.
  induction layers using List.reverseRecOn with
  | nil => rw [List.foldl_nil, List.foldl_nil, merge, Table.empty, Table.over]
  | append_singleton above last ih =>
    have receives : (above.foldl merge .empty).Receives last :=
      foldReceives (emptyReceives last) fun t mem =>
        consistentReceives consistent (List.mem_append_left _ mem) (by simp)
    rw [List.foldl_concat, List.foldl_concat, ih (consistentLeft consistent)]
    exact overAssoc base _ last (receivesBridges receives _)

theorem foldOverrides (items : List String) (start : Table) :
    items.foldlM (fun merged item => (parseOverride item).map (merge merged)) start =
      (items.mapM parseOverride).map (·.foldl merge start) := by
  induction items generalizing start with
  | nil => rfl
  | cons item rest ih =>
    rw [List.foldlM_cons, List.mapM_cons]
    cases parseOverride item with
    | error e => rfl
    | ok t =>
      have tail := ih (merge start t)
      cases read : rest.mapM parseOverride with
      | error e => rw [read] at tail; exact tail
      | ok layers => rw [read] at tail; exact tail

theorem parseOverridesMerge (items : List String) :
    parseOverrides items = (items.mapM parseOverride).map (·.foldl merge .empty) :=
  foldOverrides items .empty

def OrderedTable.override {item : String} {t : Table} (read : parseOverride item = .ok t) :
    OrderedTable where
  table := t
  ordered := by
    rw [parseOverride] at read
    split at read
    · rename_i found
      cases read
      exact Toml.readOrdered found
    · cases read

theorem layersOrdered {items : List String} {layers : List Table}
    (read : items.mapM parseOverride = .ok layers) :
    ∃ ordered : List OrderedTable, layers = ordered.map OrderedTable.table := by
  induction items generalizing layers with
  | nil => cases read; exact ⟨[], rfl⟩
  | cons item rest ih =>
    rw [List.mapM_cons] at read
    obtain ⟨t, first, read⟩ := bindOk read
    obtain ⟨more, others, same⟩ := bindOk read
    cases same
    obtain ⟨ordered, rfl⟩ := ih others
    exact ⟨.override first :: ordered, rfl⟩

theorem parseRegroup {xs ys : List String} {first second : List Table}
    (left : xs.mapM parseOverride = .ok first) (right : ys.mapM parseOverride = .ok second)
    (consistent : Consistent second) :
    parseOverrides (xs ++ ys) =
      .ok (merge (first.foldl merge .empty) (second.foldl merge .empty)) := by
  obtain ⟨ordered, rfl⟩ := layersOrdered left
  have merged : (ordered.map OrderedTable.table).foldl merge .empty =
      ordered.foldl OrderedTable.merge .empty := foldTables .empty ordered
  rw [parseOverridesMerge, List.mapM_append, left, merged, ← foldRegroup _ consistent, ← merged,
    ← List.foldl_append]
  rw [right]
  rfl

/-- Merging regroups where no single value stands between two tables. So do overrides that are given
item by item, as long as their tables are of one shape. -/
theorem mergesRegroup :
    (∀ (a : OrderedTable) (b c : Table), (Value.table b).Bridges (.table a) (.table c) →
      merge (merge a b) c = merge a (merge b c)) ∧
    ∀ (xs ys : List String) (layers : List Table), (xs ++ ys).mapM parseOverride = .ok layers →
      Consistent layers → ∃ first second, parseOverrides xs = .ok first ∧
        parseOverrides ys = .ok second ∧ parseOverrides (xs ++ ys) = .ok (merge first second) := by
  refine ⟨overAssoc, fun xs ys layers read consistent => ?_⟩
  rw [List.mapM_append] at read
  obtain ⟨first, left, read⟩ := bindOk read
  obtain ⟨second, right, same⟩ := bindOk read
  cases same
  refine ⟨_, _, ?_, ?_, parseRegroup left right (consistentRight consistent)⟩
  · rw [parseOverridesMerge, left]
    rfl
  · rw [parseOverridesMerge, right]
    rfl

theorem consistentUnder (key : String) {layers : List Table} (consistent : Consistent layers) :
    Consistent (layers.map fun t => .cons key (.table t) .nil) := by
  intro a left b right path v w there here
  obtain ⟨s, above, rfl⟩ := List.mem_map.mp left
  obtain ⟨t, below, rfl⟩ := List.mem_map.mp right
  cases path with
  | nil => cases there; cases here; rfl
  | cons k rest =>
    rw [Table.at?, atCons, Table.get?] at there here
    split at there
    · rename_i same
      rw [if_pos same] at here
      exact consistent s above t below rest v w there here
    · cases there

def lintItems : List Table := [lintItem "ignore" 1, lintItem "select" 2, lintItem "select" 3]

theorem lintRead : ["lint.ignore = 1", "lint.select = 2", "lint.select = 3"].mapM parseOverride =
    .ok lintItems := by decide +kernel

theorem lintConsistent : Consistent lintItems := by
  have inner : Consistent [.cons "ignore" (.integer 1) .nil, .cons "select" (.integer 2) .nil,
      .cons "select" (.integer 3) .nil] := by
    refine consistentFlat ?_
    simp only [List.forall_mem_cons]
    exact ⟨flatSingle rfl, flatSingle rfl, flatSingle rfl, by simp⟩
  exact consistentUnder "lint" inner

theorem mergesRegroupLint :
    merge (merge (lintItem "ignore" 1) (lintItem "select" 2)) (lintItem "select" 3) =
        merge (lintItem "ignore" 1) (merge (lintItem "select" 2) (lintItem "select" 3)) ∧
      ∃ first second, parseOverrides ["lint.ignore = 1", "lint.select = 2"] = .ok first ∧
        parseOverrides ["lint.select = 3"] = .ok second ∧
        parseOverrides ["lint.ignore = 1", "lint.select = 2", "lint.select = 3"] =
          .ok (merge first second) := by
  have receives : (lintItem "select" 2).Receives (lintItem "select" 3) :=
    consistentReceives lintConsistent (by simp [lintItems]) (by simp [lintItems])
  exact ⟨mergesRegroup.1 (.lint "ignore" 1) _ _ (receivesBridges receives _),
    mergesRegroup.2 ["lint.ignore = 1", "lint.select = 2"] ["lint.select = 3"] lintItems lintRead
      lintConsistent⟩

end NotebookTidy.Config
