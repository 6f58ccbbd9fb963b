import NotebookTidy.Proofs.Config.Order

/-! What an override leaves at each path of keys. A single value of the overriding tree stands where
it stood and hides all that is below; where the overriding tree says nothing, the other one shows
through; tables unite. Laying nothing over a tree, or what it already holds, changes nothing. -/
namespace NotebookTidy.Config

/-- A single value stands on the way to the end of a path. -/
def Value.Hides (v : Value) (path : List String) : Prop :=
  ∃ above below x, path = above ++ below ∧ below ≠ [] ∧ v.at? above = some x ∧ x.isTable = false

theorem hidesNothing (v : Value) : ¬v.Hides [] := by
  rintro ⟨above, below, x, nothing, more, -⟩
  exact more (List.nil_eq_append_iff.mp nothing).2

theorem hidesSingle {v : Value} (single : v.isTable = false) (key : String)
    (rest : List String) : v.Hides (key :: rest) :=
  ⟨[], key :: rest, v, rfl, List.cons_ne_nil _ _, rfl, single⟩

theorem hidesCons {t : Table} {key : String} {rest : List String} :
    (Value.table t).Hides (key :: rest) ↔ ∃ u, t.get? key = some u ∧ u.Hides rest := by
  constructor
  · rintro ⟨above, below, x, whole, more, stands, single⟩
    cases above with
    | nil =>
      cases stands
      cases single
    | cons k above =>
      obtain ⟨rfl, rest⟩ := List.cons.inj whole
      rw [atCons] at stands
      obtain ⟨u, held, inside⟩ := Option.bind_eq_some_iff.mp stands
      exact ⟨u, held, above, below, x, rest, more, inside, single⟩
  · rintro ⟨u, held, above, below, x, rfl, more, stands, single⟩
    exact ⟨key :: above, below, x, rfl, more, by rwa [atCons, held], single⟩

theorem atOverCons (t : Table) (below : Option Value) (key : String) (rest : List String) :
    ((Value.table t).over below).at? (key :: rest) =
      match t.get? key with
      | some u => (u.over (below.bind (·.at? [key]))).at? rest
      | none => below.bind (·.at? (key :: rest)) := by
  cases below with
  | none =>
    rw [overNothing, atCons]
    cases t.get? key with
    | none => rfl
    | some u => exact congrArg (·.at? rest) (overNothing u).symm
  | some w =>
    simp only [Option.bind_some]
    cases kind : w.isTable with
    | false =>
      rw [overNoTable t (by rintro b ⟨⟩; cases kind), atCons, atSingle kind, atSingle kind]
      cases t.get? key with
      | none => rfl
      | some u => exact congrArg (·.at? rest) (overNothing u).symm
    | true =>
      obtain ⟨b, rfl⟩ := isTableIff.mp kind
      rw [overTables, atCons, atCons, atCons, getOver]
      cases t.get? key with
      | none => rfl
      | some u => cases b.get? key <;> rfl

theorem bindAtCons (below : Option Value) (key : String) (rest : List String) :
    below.bind (·.at? (key :: rest)) = (below.bind (·.at? [key])).bind (·.at? rest) := by
  cases below with
  | none => rfl
  | some w =>
    simp only [Option.bind_some]
    cases w with
    | table b => rw [atCons, atCons]; cases b.get? key <;> rfl
    | _ => rfl

theorem overAt {v x : Value} {path : List String} {below : Option Value}
    (stands : v.at? path = some x) :
    (v.over below).at? path = some (x.over (below.bind (·.at? path))) := by
  induction path generalizing v below with
  | nil =>
    cases stands
    cases below <;> rfl
  | cons key rest ih =>
    cases kind : v.isTable with
    | false =>
      rw [atSingle kind] at stands
      cases stands
    | true =>
      obtain ⟨t, rfl⟩ := isTableIff.mp kind
      rw [atCons] at stands
      obtain ⟨u, held, inside⟩ := Option.bind_eq_some_iff.mp stands
      rw [atOverCons, held, bindAtCons below key rest]
      exact ih inside

theorem overHides {v : Value} {path : List String} {below : Option Value}
    (hides : v.Hides path) : (v.over below).at? path = none := by
  induction path generalizing v below with
  | nil => exact absurd hides (hidesNothing v)
  | cons key rest ih =>
    cases kind : v.isTable with
    | false => rw [overSingle kind, atSingle kind]
    | true =>
      obtain ⟨t, rfl⟩ := isTableIff.mp kind
      obtain ⟨u, held, inside⟩ := hidesCons.mp hides
      rw [atOverCons, held]
      exact ih inside

theorem overShows {v : Value} {path : List String} {below : Option Value}
    (nothing : v.at? path = none) (clear : ¬v.Hides path) :
    (v.over below).at? path = below.bind (·.at? path) := by
  induction path generalizing v below with
  | nil => cases nothing
  | cons key rest ih =>
    cases kind : v.isTable with
    | false => exact absurd (hidesSingle kind key rest) clear
    | true =>
      obtain ⟨t, rfl⟩ := isTableIff.mp kind
      rw [atOverCons]
      cases held : t.get? key with
      | none => rfl
      | some u =>
        rw [atCons, held] at nothing
        have inner : ¬u.Hides rest := fun inside => clear (hidesCons.mpr ⟨u, held, inside⟩)
        exact (ih nothing inner).trans (bindAtCons below key rest).symm

theorem memKeys {t : Table} {key : String} : key ∈ t.keys ↔ ∃ v, t.get? key = some v := by
  rw [Table.keys, getToList, ← Option.isSome_iff_exists, List.lookup_isSome_iff]
  simp

theorem keysOver {t base : Table} {key : String} :
    key ∈ (t.over base).keys ↔ key ∈ t.keys ∨ key ∈ base.keys := by
  simp only [memKeys, getOver]
  cases t.get? key <;> simp

theorem keysOverAt (t : Table) (below : Option Value) :
    ∃ m, (Value.table t).over below = .table m ∧
      ∀ key, key ∈ m.keys ↔ key ∈ t.keys ∨ ∃ b, below = some (.table b) ∧ key ∈ b.keys := by
  by_cases table : ∃ b, below = some (.table b)
  · obtain ⟨b, rfl⟩ := table
    exact ⟨t.over b, overTables t b, fun key => by simp [keysOver]⟩
  · have apart : ∀ b, below ≠ some (.table b) := not_exists.mp table
    exact ⟨t, overNoTable t apart, fun key => by simp [apart]⟩

theorem overSelf (a : OrderedTable) : a.table.over a = a := by
  refine tableExt (overSorted a.sorted a) a.sorted fun key => ?_
  rw [getLaidOver]
  cases held : a.table.get? key with
  | none => rfl
  | some v =>
    rw [laidOver]
    cases kind : v.isTable with
    | false => rw [overSingle kind]
    | true =>
      obtain ⟨t, rfl⟩ := isTableIff.mp kind
      have smaller := getSmaller held
      have inside : t.over t = t := overSelf (a.inner held)
      rw [overTables, inside]
termination_by sizeOf a.table
decreasing_by
  simp only [Value.table.sizeOf_spec] at smaller
  change sizeOf t < _
  omega

mutual
theorem valueOverOrdered {below : Option Value} (under : ∀ w, below = some w → w.Ordered) :
    (v : Value) → v.Ordered → (v.over below).Ordered
  | .table t, ordered => by
    rw [Value.Ordered] at ordered
    by_cases table : ∃ b, below = some (.table b)
    · obtain ⟨b, rfl⟩ := table
      rw [overTables, Value.Ordered]
      exact overOrdered (tableOrdered (under _ rfl) rfl) t ordered
    · rwa [overNoTable t (not_exists.mp table), Value.Ordered]
  | .string _, ordered | .integer _, ordered | .float _, ordered | .boolean _, ordered
  | .datetime _, ordered | .array _, ordered => by rwa [overSingle rfl]
theorem overOrdered {base : Table} (under : base.Ordered) :
    (t : Table) → t.Ordered → (t.over base).Ordered
  | .nil, _ => by rwa [Table.over]
  | .cons key value rest, ordered => by
    rw [Table.Ordered] at ordered
    rw [Table.over]
    exact insertOrdered (overOrdered under rest ordered.2.2)
      (valueOverOrdered (fun _ held => getOrdered under held) value ordered.2.1)
end

def OrderedTable.merge (base overrides : OrderedTable) : OrderedTable :=
  ⟨Config.merge base overrides, overOrdered base.ordered _ overrides.ordered⟩

theorem overEmpty {t : Table} (sorted : t.Sorted) : t.over .empty = t := by
  have none : Table.Sorted .empty := Keyed.sortedNil
  refine tableExt (overSorted none t) sorted fun key => ?_
  rw [getOver]
  cases t.get? key with
  | none => rfl
  | some v => exact congrArg some (overNothing v)

/-- What an override makes of a configuration, path by path. -/
structure Overridden (base overrides merged : Table) : Prop where
  single : ∀ path v, overrides.at? path = some v → v.isTable = false → merged.at? path = some v
  hidden : ∀ path, (Value.table overrides).Hides path → merged.at? path = none
  shown : ∀ path, overrides.at? path = none → ¬(Value.table overrides).Hides path →
    merged.at? path = base.at? path
  united : ∀ path t, overrides.at? path = some (.table t) →
    ∃ m, merged.at? path = some (.table m) ∧
      ∀ key, key ∈ m.keys ↔
        key ∈ t.keys ∨ ∃ b, base.at? path = some (.table b) ∧ key ∈ b.keys

theorem mergeOverrides (base overrides : Table) :
    Overridden base overrides (merge base overrides) := by
  have whole (path : List String) : (merge base overrides).at? path =
      ((Value.table overrides).over (some (.table base))).at? path := by
    rw [overTables]
    rfl
  constructor
  · intro path v stands single
    rw [whole, overAt stands, overSingle single]
  · intro path hides
    rw [whole, overHides hides]
  · intro path nothing clear
    rw [whole, overShows nothing clear]
    rfl
  · intro path t stands
    obtain ⟨m, same, keys⟩ := keysOverAt t (base.at? path)
    exact ⟨m, by rw [whole, overAt stands]; exact congrArg some same, keys⟩

theorem bridgesSelf (a b : Value) : b.Bridges a b := by
  intro path x y z _ middle high _ kind
  cases middle.symm.trans high
  exact kind

/-- An override goes as deep as its tables do, and neither the empty table nor a table itself nor a
second laying of an override adds to it. -/
theorem mergeDeep :
    (∀ a b : Table, Overridden a b (merge a b) ∧ merge a .empty = a) ∧
    ∀ a b : OrderedTable,
      merge .empty a = a ∧ merge a a = a ∧ merge (merge a b) b = merge a b := by
  refine ⟨fun a b => ⟨mergeOverrides a b, by rw [merge, Table.empty, Table.over]⟩, fun a b =>
    ⟨overEmpty a.sorted, overSelf a, ?_⟩⟩
  -- Regrouped, the override is laid over itself first; nothing of it stands in its own way.
  rw [merge, merge, overAssoc a b b (bridgesSelf _ _), overSelf b]

def lintItem (key : String) (value : Int64) : Table :=
  .cons "lint" (.table (.cons key (.integer value) .nil)) .nil

def lintDefaults : Table :=
  .cons "lint" (.table (.cons "ignore" (.integer 1) (.cons "select" (.integer 2) .nil))) .nil

def OrderedTable.lint (key : String) (value : Int64) : OrderedTable where
  table := lintItem key value
  ordered := by simp [lintItem, Table.Ordered, Value.Ordered, Table.keys, Table.toList]

theorem mergeDeepLint :
    (merge lintDefaults (lintItem "select" 3)).at? ["lint", "select"] = some (.integer 3) ∧
      (merge lintDefaults (lintItem "select" 3)).at? ["lint", "ignore"] = some (.integer 1) ∧
      merge lintDefaults lintDefaults = lintDefaults ∧
      merge (merge lintDefaults (lintItem "select" 3)) (lintItem "select" 3) =
        merge lintDefaults (lintItem "select" 3) := by
  have ordered : lintDefaults.Ordered := by
    simp only [lintDefaults, Table.Ordered, Value.Ordered]
    decide
  have clear : ¬(Value.table (lintItem "select" 3)).Hides ["lint", "ignore"] := by
    simp [lintItem, hidesCons, Table.get?]
  obtain ⟨overridden, -⟩ := mergeDeep.1 lintDefaults (lintItem "select" 3)
  exact ⟨overridden.single _ _ rfl rfl, (overridden.shown _ rfl clear).trans rfl,
    (mergeDeep.2 ⟨lintDefaults, ordered⟩ (.lint "select" 3)).2⟩

end NotebookTidy.Config
