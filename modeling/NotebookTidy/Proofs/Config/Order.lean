import NotebookTidy.Proofs.Config.Lookup
import NotebookTidy.Proofs.Keyed

/-! Tables whose entries are in the order of their keys, at every depth. Such tables are equal as
soon as their look-ups are, which is how two ways of merging are compared. -/
namespace NotebookTidy.Config

mutual
def Value.Ordered : Value → Prop
  | .table t => t.Ordered
  | .array vs => vs.Ordered
  | .string _ | .integer _ | .float _ | .boolean _ | .datetime _ => True
def Values.Ordered : Values → Prop
  | .nil => True
  | .cons v rest => v.Ordered ∧ rest.Ordered
def Table.Ordered : Table → Prop
  | .nil => True
  | .cons k v rest => (∀ key ∈ rest.keys, k < key) ∧ v.Ordered ∧ rest.Ordered
end

def Table.Sorted (t : Table) : Prop := Keyed.Sorted t.toList

theorem toListInsert (key : String) (value : Value) (t : Table) :
    (t.insert key value).toList = Keyed.insert key value t.toList := by
  match t with
  | .nil => rfl
  | .cons k v rest =>
    simp only [Table.insert, Table.toList, Keyed.insert]
    split
    · rfl
    · split
      · rfl
      · rw [Table.toList, toListInsert key value rest]

theorem toListErase (key : String) (t : Table) :
    (t.erase key).toList = t.toList.filter fun e => e.1 ≠ key := by
  match t with
  | .nil => rfl
  | .cons k v rest =>
    have tail := toListErase key rest
    simp only [Table.erase, Table.toList]
    split
    · rename_i same
      rw [tail, List.filter_cons_of_neg (by simpa using same)]
    · rename_i other
      rw [Table.toList, tail, List.filter_cons_of_pos (by simpa using other)]

theorem getToList (t : Table) (key : String) : t.get? key = t.toList.lookup key := by
  match t with
  | .nil => rfl
  | .cons k v rest =>
    rw [Table.get?, Table.toList]
    split
    · rename_i same
      rw [same, Keyed.lookupHead]
    · rename_i other
      rw [Keyed.lookupTail (Ne.symm other), getToList rest key]

theorem toListInjective : (a b : Table) → a.toList = b.toList → a = b
  | .nil, .nil, _ => rfl
  | .cons k v rest, .cons k' v' rest', same => by
    simp only [Table.toList, List.cons.injEq, Prod.mk.injEq] at same
    obtain ⟨⟨rfl, rfl⟩, tails⟩ := same
    rw [toListInjective rest rest' tails]

theorem tableExt {a b : Table} (left : a.Sorted) (right : b.Sorted)
    (same : ∀ key, a.get? key = b.get? key) : a = b := by
  refine toListInjective a b (Keyed.sortedExt left right fun key => ?_)
  rw [← getToList, ← getToList, same]

theorem insertSorted (key : String) (value : Value) {t : Table} (sorted : t.Sorted) :
    (t.insert key value).Sorted := by
  rw [Table.Sorted, toListInsert]
  exact Keyed.insertSorted key value sorted

theorem eraseSorted (key : String) {t : Table} (sorted : t.Sorted) : (t.erase key).Sorted := by
  rw [Table.Sorted, toListErase]
  exact List.Pairwise.sublist (List.filter_sublist.map _) sorted

theorem overSorted {base : Table} (sorted : base.Sorted) : (t : Table) → (t.over base).Sorted
  | .nil => by rwa [Table.over]
  | .cons key value rest => by
    rw [Table.over]
    exact insertSorted key _ (overSorted sorted rest)

theorem orderedIff (t : Table) :
    t.Ordered ↔ t.Sorted ∧ ∀ e ∈ t.toList, e.2.Ordered := by
  match t with
  | .nil => simp [Table.Ordered, Table.Sorted, Table.toList, Keyed.sortedNil]
  | .cons k v rest =>
    have entries : (Table.cons k v rest).Sorted ↔
        (∀ key ∈ rest.keys, k < key) ∧ rest.Sorted := Keyed.sortedCons
    rw [Table.Ordered, orderedIff rest, entries, Table.toList, List.forall_mem_cons]
    constructor
    · rintro ⟨least, first, sorted, others⟩
      exact ⟨⟨least, sorted⟩, first, others⟩
    · rintro ⟨⟨least, sorted⟩, first, others⟩
      exact ⟨least, first, sorted, others⟩

theorem orderedSorted {t : Table} (ordered : t.Ordered) : t.Sorted :=
  ((orderedIff t).mp ordered).1

theorem getMem {t : Table} {key : String} {v : Value} (found : t.get? key = some v) :
    (key, v) ∈ t.toList := by
  match t with
  | .nil => cases found
  | .cons k first rest =>
    rw [Table.get?] at found
    split at found
    · rename_i same
      cases found
      exact same ▸ List.mem_cons_self
    · exact List.mem_cons_of_mem _ (getMem found)

theorem getOrdered {t : Table} {key : String} {v : Value} (ordered : t.Ordered)
    (found : t.get? key = some v) : v.Ordered :=
  ((orderedIff t).mp ordered).2 _ (getMem found)

theorem insertOrdered {key : String} {value : Value} {t : Table} (ordered : t.Ordered)
    (inner : value.Ordered) : (t.insert key value).Ordered := by
  obtain ⟨sorted, entries⟩ := (orderedIff t).mp ordered
  refine (orderedIff _).mpr ⟨insertSorted key value sorted, fun e mem => ?_⟩
  rw [toListInsert] at mem
  rcases Keyed.memInserted mem with rfl | inside
  · exact inner
  · exact entries e inside

theorem tableOrdered {v : Value} {t : Table} (ordered : v.Ordered) (same : v.table? = some t) :
    t.Ordered := by
  cases v with
  | table inner =>
    cases same
    rwa [Value.Ordered] at ordered
  | _ => cases same

/-- A table in order at every depth. What is read or merged is one, and what such a table holds. -/
structure OrderedTable where
  table : Table
  ordered : table.Ordered

namespace OrderedTable

instance : Coe OrderedTable Table := ⟨table⟩

def empty : OrderedTable where
  table := .empty
  ordered := by
    rw [Table.empty, Table.Ordered]
    trivial

def inner (t : OrderedTable) {key : String} {u : Table}
    (found : t.table.get? key = some (.table u)) : OrderedTable :=
  ⟨u, tableOrdered (getOrdered t.ordered found) rfl⟩

theorem sorted (t : OrderedTable) : t.table.Sorted := orderedSorted t.ordered

end OrderedTable

theorem sectionOrdered {t section_ : Table} (ordered : t.Ordered)
    (found : t.ruffSection = some section_) : section_.Ordered := by
  obtain ⟨tool, hasTool, found⟩ := Option.bind_eq_some_iff.mp found
  obtain ⟨inner, isTable, found⟩ := Option.bind_eq_some_iff.mp found
  obtain ⟨ruff, hasRuff, found⟩ := Option.bind_eq_some_iff.mp found
  exact tableOrdered (getOrdered (tableOrdered (getOrdered ordered hasTool) isTable) hasRuff) found

theorem getSmaller {t : Table} {key : String} {v : Value} (found : t.get? key = some v) :
    sizeOf v < sizeOf t := by
  match t with
  | .nil => cases found
  | .cons k first rest =>
    rw [Table.get?] at found
    split at found
    · cases found
      simp only [Table.cons.sizeOf_spec]
      omega
    · have := getSmaller found
      simp only [Table.cons.sizeOf_spec]
      omega

def laidOver (above below : Option Value) : Option Value :=
  match above with
  | some v => some (v.over below)
  | none => below

theorem getLaidOver (t base : Table) (key : String) :
    (t.over base).get? key = laidOver (t.get? key) (base.get? key) := getOver base key t

/-- Wherever the outer two trees hold tables, the one between them holds no single value. -/
def Value.Bridges (b a c : Value) : Prop :=
  ∀ path x y z, a.at? path = some x → b.at? path = some y → c.at? path = some z →
    x.isTable = true → z.isTable = true → y.isTable = true

theorem bridgesInner {a b c : Table} {key : String} {u v w : Value}
    (bridges : (Value.table b).Bridges (.table a) (.table c)) (low : a.get? key = some u)
    (middle : b.get? key = some v) (high : c.get? key = some w) : v.Bridges u w := by
  intro path x y z atLow atMiddle atHigh
  refine bridges (key :: path) x y z ?_ ?_ ?_
  · rwa [atCons, low]
  · rwa [atCons, middle]
  · rwa [atCons, high]

theorem overTables (t b : Table) :
    (Value.table t).over (some (.table b)) = .table (t.over b) := by
  rw [Value.over]

theorem overNoTable (t : Table) {below : Option Value} (none : ∀ b, below ≠ some (.table b)) :
    (Value.table t).over below = .table t := by
  cases below with
  | none => simp only [Value.over]
  | some v =>
    cases v with
    | table b => exact absurd rfl (none b)
    | _ => simp only [Value.over]

theorem overNothing (v : Value) : v.over none = v := by
  cases v <;> simp only [Value.over]

theorem overAssoc (a : OrderedTable) (b c : Table)
    (bridges : (Value.table b).Bridges (.table a) (.table c)) :
    c.over (b.over a) = (c.over b).over a := by
  -- Key by key. Only where all three hold tables does the recursion go on inside; a single value
  -- hides what is under it in either grouping, since it does not stand between two tables.
  refine tableExt (overSorted (overSorted a.sorted b) c) (overSorted a.sorted _) fun key => ?_
  simp only [getLaidOver]
  cases high : c.get? key with
  | none => rfl
  | some w =>
    cases middle : b.get? key with
    | none => simp only [laidOver, overNothing]
    | some v =>
      simp only [laidOver, Option.some.injEq]
      cases kind : w.isTable with
      | false => rw [overSingle kind, overSingle kind, overSingle kind]
      | true =>
        obtain ⟨tc, rfl⟩ := isTableIff.mp kind
        by_cases table : ∃ ta, a.table.get? key = some (.table ta)
        · obtain ⟨ta, low⟩ := table
          have inside := bridgesInner bridges low middle high
          obtain ⟨tb, rfl⟩ := isTableIff.mp (inside [] _ _ _ rfl rfl rfl rfl rfl)
          have smaller := getSmaller high
          have regrouped : tc.over (tb.over ta) = (tc.over tb).over ta :=
            overAssoc (a.inner low) tb tc inside
          rw [low, overTables, overTables, overTables, overTables, regrouped]
        · have none : ∀ ta, a.table.get? key ≠ some (.table ta) := not_exists.mp table
          cases kinds : v.isTable with
          | false =>
            rw [overSingle kinds, overNoTable tc (by rintro b ⟨⟩; cases kinds),
              overNoTable tc none]
          | true =>
            obtain ⟨tb, rfl⟩ := isTableIff.mp kinds
            rw [overNoTable tb none, overTables, overNoTable _ none]
termination_by sizeOf c
decreasing_by
  simp only [Value.table.sizeOf_spec] at smaller
  omega

end NotebookTidy.Config
